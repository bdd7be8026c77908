/-
Module: MonoRuntime.Eglib.GUri
Purpose: File names and URIs of `eglib/src/gstr.c`, `g_filename_to_uri` and `g_filename_from_uri`, on a Unix build. A
  string is the list of its characters before the NUL.
Trusted boundary: human-reviewed translation of the source
Main exports: gFilenameToUri
-/
import Mathlib.Algebra.Order.Ring.Int

namespace MonoRuntime.GUri

open List

abbrev Gchar := BitVec 8

def slash : Gchar := 47
def percent : Gchar := 37

/-- How a call ends without a result: an error of code 2 with its message, an `int` that overflows, the assertion of
`decode`, a store outside the buffer. -/
inductive Stop where
  | error (message : String)
  | overflow | notReached | outside
  deriving DecidableEq

def hx : List Gchar :=
  [48, 49, 50, 51, 52, 53, 54, 55, 56, 57, 65, 66, 67, 68, 69, 70]

def charNeedsEncoding (c : Gchar) : Bool :=
  if c ≥ 128 then true
  else !((c ≥ 64 && c ≤ 90) || (c ≥ 97 && c ≤ 122) || (c ≥ 38 && c < 59) || c == 33 || c == 36 || c == 95 || c == 61 ||
    c == 126)

/-- `g_path_is_absolute`. -/
def gPathIsAbsolute (filename : List Gchar) : Bool :=
  filename.head? == some slash

/-- `file://`. -/
def uriPrefix : List Gchar :=
  [102, 105, 108, 101, 58, 47, 47]

/-- What is stored for a character. -/
def escaped (p : Gchar) : List Gchar :=
  if charNeedsEncoding p then [percent, hx.getD (p >>> 4).toNat 0, hx.getD (p &&& 15).toNat 0] else [p]

/-- `g_filename_to_uri`. -/
def gFilenameToUri (filename : List Gchar) : Except Stop (List Gchar) :=
  if gPathIsAbsolute filename then .ok (uriPrefix ++ filename.flatMap escaped)
  else .error (.error "Not an absolute filename")

def isxdigit (c : Gchar) : Bool :=
  (48 ≤ c && c ≤ 57) || (65 ≤ c && c ≤ 70) || (97 ≤ c && c ≤ 102)

def decode (p : Gchar) : Except Stop Gchar :=
  if p ≥ 48 && p ≤ 57 then .ok (p - 48)
  else if p ≥ 65 && p ≤ 70 then .ok (p - 65)
  else if p ≥ 97 && p ≤ 102 then .ok (p - 97)
  else .error .notReached

/-- The loop that counts the characters of the name. -/
def countLoop : (p : List Gchar) → (flen : Nat) → Except Stop Nat
  | [], flen => .ok flen
  | c :: p, flen =>
      if c = percent then
        match p with
        | d1 :: d2 :: p =>
            if isxdigit d1 && isxdigit d2 then countLoop p (flen + 1)
            else .error (.error "URI contains an invalid escape sequence")
        | _ => .error (.error "URI contains an invalid escape sequence")
      else countLoop p (flen + 1)

/-- The next store through `r`, into a buffer of a size. -/
def store (size : Nat) (result : List Gchar) (c : Gchar) : Except Stop (List Gchar) :=
  if result.length < size then .ok (result ++ [c]) else .error .outside

/-- The loop that stores the characters of the name. -/
def storeLoop (size : Nat) : (p result : List Gchar) → Except Stop (List Gchar)
  | [], result => .ok result
  | c :: p, result =>
      if c = percent then
        match p with
        | d1 :: d2 :: p => do
            let high ← decode d1
            let low ← decode d2
            storeLoop size p (← store size result ((high <<< 4) ||| low))
        -- The NUL is decoded.
        | _ => .error .notReached
      else do storeLoop size p (← store size result c)

/-- The largest `int`. -/
def intMax : Nat := 2 ^ 31 - 1

/-- `g_filename_from_uri`: what is stored in front of the NUL at `flen`. -/
def gFilenameFromUri (uri : List Gchar) : Except Stop (List Gchar) :=
  if (uriPrefix ++ [slash]).isPrefixOf uri then do
    let flen ← countLoop (uri.drop 8) 0
    if intMax < flen + 2 then .error .overflow
    else storeLoop (flen + 2) (uri.drop 8) [slash]
  else .error (.error "URI does not start with the file: scheme")

/-- The string that a buffer holds. -/
def cString (buffer : List Gchar) : List Gchar :=
  buffer.takeWhile (· ≠ 0)

end MonoRuntime.GUri
