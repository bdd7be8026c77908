/-
Module: MonoRuntime.Eglib.GShell
Purpose: Quoting of `eglib/src/gshell.c`: `g_shell_quote`, and its two readers `g_shell_unquote` and
  `g_shell_parse_argv`. A string is the list of its characters before the NUL.
Trusted boundary: human-reviewed translation of the source
Main exports: gShellQuote
-/
import Mathlib.Data.List.Basic

namespace MonoRuntime.GShell

abbrev Gchar := BitVec 8

def space : Gchar := 32
def doubleQuote : Gchar := 34
def dollar : Gchar := 36
def singleQuote : Gchar := 39
def backslash : Gchar := 92
def backQuote : Gchar := 96

/-- `g_ascii_isspace`. -/
def gAsciiIsspace (c : Gchar) : Bool :=
  c == space || (9 ≤ c && c ≤ 13)

/-- What is appended for a character between the quotes. -/
def quoted (c : Gchar) : List Gchar :=
  if c = singleQuote then [singleQuote, backslash, singleQuote, c] else [c]

/-- `g_shell_quote`. -/
def gShellQuote (unquotedString : List Gchar) : List Gchar :=
  singleQuote :: (unquotedString.flatMap quoted ++ [singleQuote])

/-! ### One string -/

/-- The loop over the string, and its two inner loops. -/
inductive Quoting where
  | outside | single | double

/-- The characters before which a backslash is dropped. -/
def dropsBackslash (c : Gchar) : Bool :=
  c == dollar || c == doubleQuote || c == backslash || c == backQuote

def openQuote : String := "Open quote"

/-- The loops of `g_shell_unquote` from `p` on. -/
def unquoteLoop : Quoting → (p result : List Gchar) → Except String (List Gchar)
  | .outside, [], result => .ok result
  | .single, [], _ | .double, [], _ => .error openQuote
  | .outside, c :: p, result =>
      if c = singleQuote then unquoteLoop .single p result
      else if c = doubleQuote then unquoteLoop .double p result
      else if c = backslash then
        match p with
        | [] => .ok result
        | c :: p => unquoteLoop .outside p (result ++ if dropsBackslash c then [c] else [backslash, c])
      else unquoteLoop .outside p (result ++ [c])
  | .single, c :: p, result =>
      if c = singleQuote then unquoteLoop .outside p result else unquoteLoop .single p (result ++ [c])
  | .double, c :: p, result =>
      if c = doubleQuote then unquoteLoop .outside p result
      else if c = backslash then
        match p with
        | [] => .error openQuote
        | c :: p => unquoteLoop .double p (result ++ if dropsBackslash c then [c] else [backslash, c])
      else unquoteLoop .double p (result ++ [c])

/-- `g_shell_unquote`. -/
def gShellUnquote (quotedString : List Gchar) : Except String (List Gchar) :=
  if quotedString.any fun c => c == singleQuote || c == doubleQuote || c == backslash then
    unquoteLoop .outside quotedString []
  else .ok quotedString

/-! ### A command line -/

/-- The variables of `split_cmdline`; `quoteChar` is there while `in_quote` is set. -/
structure Split where
  quoteChar : Option Gchar
  escaped : Bool
  str : List Gchar
  array : List (List Gchar)

/-- A turn of the loop. -/
def splitChar (s : Split) (c : Gchar) : Split :=
  if s.escaped then { s with escaped := false, str := if gAsciiIsspace c then s.str else s.str ++ [c] }
  else
    match s.quoteChar with
    | some quoteChar =>
        if c = quoteChar then { s with quoteChar := none, str := [], array := s.array ++ [s.str] }
        else { s with str := s.str ++ [c] }
    | none =>
        if gAsciiIsspace c then
          if s.str.length > 0 then { s with str := [], array := s.array ++ [s.str] } else s
        else if c = backslash then { s with escaped := true }
        else if c = singleQuote ∨ c = doubleQuote then { s with quoteChar := some c }
        else { s with str := s.str ++ [c] }

/-- `split_cmdline`: the strings before the `NULL`. -/
def splitCmdline (cmdline : List Gchar) : Except String (List (List Gchar)) :=
  let s := cmdline.foldl splitChar ⟨none, false, [], []⟩
  if s.escaped then .error "Unfinished escape."
  else if s.quoteChar.isSome then .error "Unfinished quote."
  else .ok (if s.str.length > 0 then s.array ++ [s.str] else s.array)

/-- `g_shell_parse_argv`; it also fails, without an error, when there are no strings. -/
def gShellParseArgv (commandLine : List Gchar) : Except (Option String) (List (List Gchar)) :=
  match splitCmdline commandLine with
  | .error message => .error (some message)
  | .ok array => if array.length + 1 = 1 then .error none else .ok array

end MonoRuntime.GShell
