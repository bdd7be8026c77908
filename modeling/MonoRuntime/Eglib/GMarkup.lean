/-
Module: MonoRuntime.Eglib.GMarkup
Purpose: The markup reader of `eglib/src/gmarkup.c`: `g_markup_parse_context_parse` as a machine that moves over the
  characters of a text, with callbacks for elements and text that report no errors. What a text consists of, and what its
  pieces ask for, is stated beside it.
Trusted boundary: human-reviewed translation of the source; a text is what is left of it, a `char` is one of its
  characters
Main exports: ParseContext
-/
import Mathlib.Data.List.Basic

namespace MonoRuntime.MarkupParser

open List

/-! ### Characters -/

/-- `my_isspace`. -/
def myIsspace (c : Char) : Bool :=
  c == ' ' || c == Char.ofNat 9 || c == Char.ofNat 13 || c == Char.ofNat 10 || c == Char.ofNat 11

/-- `my_isalpha`. -/
def myIsalpha (c : Char) : Bool :=
  ('a' ≤ c && c ≤ 'z') || ('A' ≤ c && c ≤ 'Z')

/-- `my_isalnum`. -/
def myIsalnum (c : Char) : Bool :=
  myIsalpha c || ('0' ≤ c && c ≤ '9')

/-- What may stand in front of a document. -/
def isStartSpace (c : Char) : Bool :=
  c == ' ' || c == Char.ofNat 9 || c == Char.ofNat 12 || c == Char.ofNat 10

/-- What a name goes on with. -/
def isNameChar (c : Char) : Bool :=
  myIsalnum c || c == '.'

/-- The quote around a value. -/
def quote : Char := Char.ofNat 34

/-- The character at the end of a string. -/
def nul : Char := Char.ofNat 0

/-! ### Values, names and attributes -/

/-- `skip_space`. -/
def skipSpace (chars : List Char) : List Char :=
  chars.dropWhile myIsspace

/-- `parse_value`, with nothing where it comes to the end. -/
def parseValue (chars : List Char) : Option (List Char × List Char) :=
  match chars with
  | [] => none
  | c :: rest =>
      if c ≠ quote then none
      else
        match rest.dropWhile fun d => d != quote with
        | [] => none
        | _ :: after => some ((rest.takeWhile fun d => d != quote).takeWhile fun d => d != nul, after)

/-- `parse_name`, with nothing where it comes to the end. -/
def parseName (chars : List Char) : Option (List Char × List Char) :=
  if chars.dropWhile myIsalnum = [] then none
  else some (chars.takeWhile myIsalnum, chars.dropWhile myIsalnum)

/-- The sign between the name and the value of an attribute. -/
def parseEquals (chars : List Char) : Option (List Char) :=
  match chars with
  | [] => none
  | c :: rest => if c = '=' then some rest else none

/-- An attribute, with nothing where an error is set or the end is reached. -/
def parseAttribute (chars : List Char) : Option ((List Char × List Char) × List Char) := do
  let name ← parseName chars
  let after ← parseEquals (skipSpace name.2)
  let value ← parseValue (skipSpace after)
  pure ((name.1, value.1), value.2)

/-- `ParseState`. -/
inductive ParseState where
  | start | startElement | text | flushText | closingElement | comment | skipXmlDeclaration
deriving DecidableEq

theorem parseValue_length {chars value after : List Char} (parsed : parseValue chars = some (value, after)) :
    after.length ≤ chars.length := by
  unfold parseValue at parsed
  split at parsed
  · cases parsed
  · next c rest =>
      split at parsed
      · cases parsed
      · split at parsed
        · cases parsed
        · next d after' dropped =>
            cases parsed
            have shorter := (dropWhile_suffix (l := rest) (fun d => d != quote)).length_le
            rw [dropped, length_cons] at shorter
            rw [length_cons]
            omega

theorem parseAttribute_length {chars after : List Char} {pair : List Char × List Char}
    (parsed : parseAttribute chars = some (pair, after)) : after.length < chars.length := by
  obtain ⟨⟨name, behind⟩, one, parsed⟩ := Option.bind_eq_some_iff.1 parsed
  obtain ⟨equals, two, parsed⟩ := Option.bind_eq_some_iff.1 parsed
  obtain ⟨⟨value, rest⟩, three, parsed⟩ := Option.bind_eq_some_iff.1 parsed
  cases parsed
  have first : behind.length ≤ chars.length := by
    obtain ⟨-, same⟩ := Option.ite_none_left_eq_some.1 one
    cases same
    exact (dropWhile_suffix myIsalnum).length_le
  have second : equals.length < behind.length := by
    have skipped : (skipSpace behind).length ≤ behind.length := (dropWhile_suffix myIsspace).length_le
    unfold parseEquals at two
    split at two
    · cases two
    · next c rest' is =>
        obtain ⟨-, same⟩ := Option.ite_none_right_eq_some.1 two
        cases same
        rw [is, length_cons] at skipped
        omega
  have third := parseValue_length three
  have skipped : (skipSpace equals).length ≤ equals.length := (dropWhile_suffix myIsspace).length_le
  show rest.length < chars.length
  omega

set_option linter.unusedVariables false in
/-- `parse_attributes`: the attributes, `full_stop` and what comes behind the `>`; nothing where it comes to the end. -/
def parseAttributes (state : ParseState) (chars : List Char) (attributes : List (List Char × List Char)) :
    Option (List (List Char × List Char) × Bool × List Char) :=
  match isChars : skipSpace chars with
  | [] => none
  | c :: rest =>
      if c = '>' then some (attributes, false, rest)
      else if state = .skipXmlDeclaration ∧ c = '?' ∧ rest.head? = some '>' then some (attributes, false, rest.tail)
      else if c = '/' ∧ rest.head? = some '>' then some (attributes, true, rest.tail)
      else
        match isParsed : parseAttribute (c :: rest) with
        | none => none
        | some (pair, after) => parseAttributes state after (attributes ++ [pair])
termination_by chars.length
decreasing_by
  have shorter := parseAttribute_length isParsed
  have skipped : (skipSpace chars).length ≤ chars.length := (dropWhile_suffix myIsspace).length_le
  rw [isChars] at skipped
  omega

/-! ### Elements -/

/-- What stands behind a `<` that opens an element or a comment, and what comes behind its `>` or the opening of the
comment. -/
inductive Scanned where
  | comment (rest : List Char)
  | element (name : List Char) (attributes : List (List Char × List Char)) (fullStop : Bool) (rest : List Char)
  | malformed

/-- The attributes of an element whose name has been read. -/
def scanAttributes (state : ParseState) (name after : List Char) : Scanned :=
  match parseAttributes state (skipSpace after) [] with
  | none => .malformed
  | some (attributes, fullStop, rest) => .element name attributes fullStop rest

/-- What the cases `START_ELEMENT` and `SKIP_XML_DECLARATION` recognize. The name begins where they begin, in front of the
space that is skipped. -/
def scanElement (state : ParseState) (chars : List Char) : Scanned :=
  match skipSpace chars with
  | [] => .malformed
  | c :: rest =>
      if c = '!' ∧ rest.take 2 = ['-', '-'] then .comment (rest.drop 2)
      else if myIsalpha c = false then .malformed
      else
        scanAttributes state (chars.takeWhile myIsspace ++ c :: rest.takeWhile isNameChar) (rest.dropWhile isNameChar)

/-! ### The machine -/

/-- The callbacks. An `end_element` for a closing tag is shown with what stands in the tag. -/
inductive Callback where
  | startElement (name : List Char) (attributes : List (List Char × List Char))
  | endElement (name : List Char) (tag : Option (List Char))
  | text (chars : List Char)
deriving DecidableEq

/-- What the machine uses of a `GMarkupParseContext`. -/
structure ParseContext where
  state : ParseState
  level : List (List Char)
  text : Option (List Char)
deriving DecidableEq

/-- A new context. -/
def gMarkupParseContextNew : ParseContext :=
  { state := .start, level := [], text := none }

/-- What comes of a pass through the loop: it goes on behind some characters, it fails, or it uses a text buffer that is
`NULL`. -/
inductive Pass where
  | next (context : ParseContext) (callbacks : List Callback) (rest : List Char)
  | fail (callbacks : List Callback)
  | missingText

/-- The callbacks for an element. -/
def elementCallbacks (name : List Char) (attributes : List (List Char × List Char)) (fullStop : Bool) : List Callback :=
  if fullStop then [.startElement name attributes, .endElement name none] else [.startElement name attributes]

/-- The names of the elements that are open behind one. -/
def pushName (level : List (List Char)) (name : List Char) (fullStop : Bool) : List (List Char) :=
  if fullStop then level else name :: level

/-- The case `START`. -/
def stepStart (context : ParseContext) (c : Char) (rest : List Char) : Pass :=
  if isStartSpace c then .next context [] rest
  else if c = '<' then
    if rest.head? = some '?' then .next { context with state := .skipXmlDeclaration } [] rest.tail
    else .next { context with state := .startElement } [] rest
  else .fail []

/-- The cases `SKIP_XML_DECLARATION` and `START_ELEMENT`. -/
def stepElement (context : ParseContext) (chars : List Char) : Pass :=
  match scanElement context.state chars with
  | .malformed => .fail []
  | .comment rest => .next { context with state := .comment } [] rest
  | .element name attributes fullStop rest =>
      .next { context with state := .text, level := pushName context.level name fullStop }
        (if context.state = .startElement then elementCallbacks name attributes fullStop else []) rest

/-- The case `TEXT`. -/
def stepText (context : ParseContext) (c : Char) (rest : List Char) : Pass :=
  if c = '<' then .next { context with state := .flushText } [] rest
  else .next { context with text := some (context.text.getD [] ++ [c]) } [] rest

/-- The case `COMMENT`. -/
def stepComment (context : ParseContext) (c : Char) (rest : List Char) : Pass :=
  if c = '-' ∧ rest.take 2 = ['-', '>'] then .next { context with state := .text } [] (rest.drop 2)
  else .next context [] rest

/-- The case `FLUSH_TEXT`: a character that does not close an element is looked at again. -/
def stepFlushText (context : ParseContext) (c : Char) (rest : List Char) : Pass :=
  match context.text with
  | none => .missingText
  | some text =>
      if c = '/' then .next { context with state := .closingElement } [.text text] rest
      else .next { context with state := .startElement } [.text text] (c :: rest)

/-- The case `CLOSING_ELEMENT`. -/
def stepClosingElement (context : ParseContext) (chars : List Char) : Pass :=
  match context.level with
  | [] => .fail []
  | name :: level =>
      .next { context with state := .text, level := level }
        [.endElement name (some (chars.takeWhile fun d => d != '>'))] (chars.dropWhile fun d => d != '>').tail

/-- A pass through the loop, at a character. -/
def step (context : ParseContext) (c : Char) (rest : List Char) : Pass :=
  match context.state with
  | .start => stepStart context c rest
  | .skipXmlDeclaration => stepElement context (c :: rest)
  | .startElement => stepElement context (c :: rest)
  | .text => stepText context c rest
  | .comment => stepComment context c rest
  | .flushText => stepFlushText context c rest
  | .closingElement => stepClosingElement context (c :: rest)

/-- The result and the callbacks, or the use of a text buffer that is `NULL`. -/
inductive Outcome where
  | returns (result : Bool) (callbacks : List Callback)
  | missingText
deriving DecidableEq

/-- Callbacks in front of those that are still to come. -/
def Outcome.after (callbacks : List Callback) : Outcome → Outcome
  | .returns result later => .returns result (callbacks ++ later)
  | .missingText => .missingText

variable (state : ParseState) (c : Char) (chars : List Char)

theorem parseAttributes_length (attributes : List (List Char × List Char)) {found : List (List Char × List Char)}
    {fullStop : Bool} {rest : List Char}
    (parsed : parseAttributes state chars attributes = some (found, fullStop, rest)) : rest.length ≤ chars.length := by
  have skipped : (skipSpace chars).length ≤ chars.length := (dropWhile_suffix myIsspace).length_le
  fun_induction parseAttributes state chars attributes with
  | case1 chars attributes isChars => cases parsed
  | case2 chars attributes rest' isChars =>
    cases parsed
    rw [isChars, length_cons] at skipped
    omega
  | case3 chars attributes c rest' isChars open_ closed =>
    cases parsed
    rw [isChars, length_cons] at skipped
    rw [length_tail]
    omega
  | case4 chars attributes c rest' isChars open_ open_' closed =>
    cases parsed
    rw [isChars, length_cons] at skipped
    rw [length_tail]
    omega
  | case5 chars attributes c rest' isChars open_ open_' open_'' isParsed => cases parsed
  | case6 chars attributes c rest' isChars open_ open_' open_'' pair after isParsed ih =>
    have shorter := parseAttribute_length isParsed
    have later : rest.length ≤ after.length := ih parsed (dropWhile_suffix myIsspace).length_le
    rw [isChars] at skipped
    omega

/-- What comes behind what was recognized. -/
def Scanned.rest : Scanned → List Char
  | .comment rest => rest
  | .element _ _ _ rest => rest
  | .malformed => []

theorem scanElement_length : (scanElement state (c :: chars)).rest.length ≤ chars.length := by
  have skipped : (skipSpace (c :: chars)).length ≤ (c :: chars).length := (dropWhile_suffix myIsspace).length_le
  unfold scanElement
  cases isChars : skipSpace (c :: chars) with
  | nil => exact Nat.zero_le _
  | cons d rest =>
    rw [isChars, length_cons, length_cons] at skipped
    dsimp only
    split
    · show (rest.drop 2).length ≤ _
      rw [length_drop]
      omega
    · split
      · exact Nat.zero_le _
      · have named : (skipSpace (rest.dropWhile isNameChar)).length ≤ rest.length :=
          Nat.le_trans (dropWhile_suffix myIsspace).length_le (dropWhile_suffix isNameChar).length_le
        unfold scanAttributes
        cases isParsed : parseAttributes state (skipSpace (rest.dropWhile isNameChar)) [] with
        | none => exact Nat.zero_le _
        | some found =>
          obtain ⟨attributes, fullStop, rest'⟩ := found
          have parsed := parseAttributes_length state _ _ isParsed
          show rest'.length ≤ _
          omega

/-- A character is looked at again where text is flushed, and nowhere else. -/
def ParseState.weight : ParseState → Nat
  | .flushText => 1
  | _ => 0

theorem ParseState.weight_le : state.weight ≤ 1 := by
  cases state <;> decide

variable {context context' : ParseContext}

theorem stepElement_length {c : Char} {rest rest' : List Char} {callbacks : List Callback}
    (passed : stepElement context (c :: rest) = .next context' callbacks rest') : rest'.length ≤ rest.length := by
  have scanned := scanElement_length context.state c rest
  unfold stepElement at passed
  split at passed
  · cases passed
  · next rest'' is =>
      cases passed
      rwa [is] at scanned
  · next name attributes fullStop rest'' is =>
      cases passed
      rwa [is] at scanned

/-- Every pass goes on behind the character, or looks at it again in another state. -/
theorem step_decreases {c : Char} {rest rest' : List Char} {callbacks : List Callback}
    (passed : step context c rest = .next context' callbacks rest') :
    2 * rest'.length + context'.state.weight < 2 * (c :: rest).length + context.state.weight := by
  have light := context'.state.weight_le
  have shorter : rest'.length ≤ rest.length →
      2 * rest'.length + context'.state.weight < 2 * (c :: rest).length + context.state.weight := by
    intro moved
    rw [length_cons]
    omega
  unfold step at passed
  cases state : context.state with
  | start =>
    rw [state] at passed shorter
    dsimp only at passed
    unfold stepStart at passed
    apply shorter
    split at passed
    · cases passed
      exact Nat.le_refl _
    · split at passed
      · split at passed
        · cases passed
          rw [length_tail]
          omega
        · cases passed
          exact Nat.le_refl _
      · cases passed
  | skipXmlDeclaration | startElement =>
    rw [state] at passed shorter
    exact shorter (stepElement_length passed)
  | text =>
    rw [state] at passed shorter
    dsimp only at passed
    unfold stepText at passed
    apply shorter
    split at passed
    · cases passed
      exact Nat.le_refl _
    · cases passed
      exact Nat.le_refl _
  | comment =>
    rw [state] at passed shorter
    dsimp only at passed
    unfold stepComment at passed
    apply shorter
    split at passed
    · cases passed
      rw [length_drop]
      omega
    · cases passed
      exact Nat.le_refl _
  | flushText =>
    rw [state] at passed shorter
    dsimp only at passed
    unfold stepFlushText at passed
    split at passed
    · cases passed
    · split at passed
      · cases passed
        exact shorter (Nat.le_refl _)
      · cases passed
        exact Nat.lt_succ_self _
  | closingElement =>
    rw [state] at passed shorter
    dsimp only at passed
    unfold stepClosingElement at passed
    apply shorter
    split at passed
    · cases passed
    · cases passed
      have behind : ((c :: rest).dropWhile fun d => d != '>').length ≤ (c :: rest).length :=
        (dropWhile_suffix _).length_le
      rw [length_tail]
      rw [length_cons] at behind
      omega

set_option linter.unusedVariables false in
/-- The loop over what is left of a text. -/
def parseLoop (context : ParseContext) (chars : List Char) : Outcome :=
  match chars with
  | [] => .returns true []
  | c :: rest =>
      match passed : step context c rest with
      | .fail callbacks => .returns false callbacks
      | .missingText => .missingText
      | .next context' callbacks rest' => (parseLoop context' rest').after callbacks
termination_by 2 * chars.length + context.state.weight
decreasing_by exact step_decreases passed

/-- `g_markup_parse_context_parse` for a new context. -/
def gMarkupParseContextParse (text : List Char) : Outcome :=
  parseLoop gMarkupParseContextNew text

/-! ### What a text consists of -/

/-- What stands between a `<` and its `>`. The text may end inside of it. -/
inductive Markup where
  | declaration (name : List Char) (fullStop : Bool)
  | element (name : List Char) (attributes : List (List Char × List Char)) (fullStop : Bool)
  | closing (tag : List Char)
  | comment
  | unfinished
  | malformed
deriving DecidableEq

/-- What comes behind the end of a comment. -/
def afterComment : List Char → Option (List Char)
  | [] => none
  | c :: rest => if c = '-' ∧ rest.take 2 = ['-', '>'] then some (rest.drop 2) else afterComment rest

/-- A declaration, an element or a comment, and what comes behind it. -/
def openingMarkup (state : ParseState) (chars : List Char) : Markup × List Char :=
  if chars = [] then (.unfinished, [])
  else
    match scanElement state chars with
    | .malformed => (.malformed, [])
    | .comment rest =>
        match afterComment rest with
        | none => (.unfinished, [])
        | some behind => (.comment, behind)
    | .element name attributes fullStop rest =>
        (if state = .startElement then .element name attributes fullStop else .declaration name fullStop, rest)

/-- A closing tag and what comes behind it. -/
def closingMarkup (chars : List Char) : Markup × List Char :=
  if chars = [] then (.unfinished, [])
  else (.closing (chars.takeWhile fun d => d != '>'), (chars.dropWhile fun d => d != '>').tail)

/-- What a `<` opens in front of a character, and what comes behind it. -/
def innerMarkup (c : Char) (rest : List Char) : Markup × List Char :=
  if c = '/' then closingMarkup rest else openingMarkup .startElement (c :: rest)

theorem afterComment_length : ∀ {chars behind : List Char}, afterComment chars = some behind → behind.length ≤ chars.length
  | [], _, found => by cases found
  | c :: rest, behind, found => by
      unfold afterComment at found
      split at found
      · cases found
        rw [length_drop, length_cons]
        omega
      · have later := afterComment_length found
        rw [length_cons]
        omega

theorem openingMarkup_length : (openingMarkup state chars).2.length ≤ chars.length := by
  unfold openingMarkup
  cases chars with
  | nil => exact Nat.zero_le _
  | cons c rest =>
    have scanned := scanElement_length state c rest
    rw [if_neg (cons_ne_nil c rest), length_cons]
    split
    · exact Nat.zero_le _
    · next rest' is =>
        rw [is] at scanned
        split
        · exact Nat.zero_le _
        · next behind found =>
            have later := afterComment_length found
            have bound : rest'.length ≤ rest.length := scanned
            dsimp only
            omega
    · next name attributes fullStop rest' is =>
        rw [is] at scanned
        have bound : rest'.length ≤ rest.length := scanned
        dsimp only
        omega

theorem innerMarkup_length (rest : List Char) : (innerMarkup c rest).2.length ≤ (c :: rest).length := by
  unfold innerMarkup
  split
  · unfold closingMarkup
    split
    · exact Nat.zero_le _
    · have behind : (rest.dropWhile fun d => d != '>').length ≤ rest.length := (dropWhile_suffix _).length_le
      show ((rest.dropWhile fun d => d != '>').tail).length ≤ _
      rw [length_tail, length_cons]
      omega
  · exact openingMarkup_length .startElement (c :: rest)

set_option linter.unusedVariables false in
/-- The pieces of a text behind its first markup: runs of character data, each with the markup behind it. A run at the end
of the text is not one. -/
def innerPieces (chars : List Char) : List (List Char × Markup) :=
  match isChars : chars.dropWhile fun d => d != '<' with
  | [] => []
  | [_] => []
  | _ :: c :: rest =>
      (chars.takeWhile fun d => d != '<', (innerMarkup c rest).1) :: innerPieces (innerMarkup c rest).2
termination_by chars.length
decreasing_by
  have inside := innerMarkup_length c rest
  have behind : (chars.dropWhile fun d => d != '<').length ≤ chars.length := (dropWhile_suffix _).length_le
  rw [isChars, length_cons] at behind
  omega

/-- The first markup of a text and what comes behind it. -/
def firstMarkup (rest : List Char) : Markup × List Char :=
  if rest.head? = some '?' then openingMarkup .skipXmlDeclaration rest.tail else openingMarkup .startElement rest

/-- The pieces of a text; in front of the first markup there is nothing but space. -/
def pieces (text : List Char) : List (List Char × Markup) :=
  match text.dropWhile isStartSpace with
  | [] => []
  | c :: rest =>
      if c = '<' then ([], (firstMarkup rest).1) :: innerPieces (firstMarkup rest).2 else [([], .malformed)]

/-! ### What the callbacks are to tell -/

/-- A name without the space around it. -/
def strip (name : List Char) : List Char :=
  ((name.dropWhile myIsspace).reverse.dropWhile myIsspace).reverse

/-- The names that are still open behind some callbacks, if every `end_element` carries the last open name. -/
def openNames : List (List Char) → List Callback → Option (List (List Char))
  | names, [] => some names
  | names, .startElement name _ :: callbacks => openNames (name :: names) callbacks
  | [], .endElement _ _ :: _ => none
  | open_ :: names, .endElement name _ :: callbacks => if open_ = name then openNames names callbacks else none
  | names, .text _ :: callbacks => openNames names callbacks

/-- The callbacks form a prefix of a properly nested document. -/
def Nested (callbacks : List Callback) : Prop :=
  ∃ names, openNames [] callbacks = some names

/-- No `end_element` is reported for a closing tag with another name. -/
def TagsAgree (callbacks : List Callback) : Prop :=
  ∀ name tag, .endElement name (some tag) ∈ callbacks → strip name = strip tag

/-- The texts of the `text` callbacks. -/
def deliveredTexts : List Callback → List (List Char)
  | [] => []
  | .text chars :: callbacks => chars :: deliveredTexts callbacks
  | .startElement _ _ :: callbacks => deliveredTexts callbacks
  | .endElement _ _ :: callbacks => deliveredTexts callbacks

/-- The runs of character data between two tags, a comment being one. -/
def runsBetween (text : List Char) : List (List Char) :=
  (pieces text).tail.map Prod.fst

/-- Every run of character data is delivered once. -/
def TextsOnce (text : List Char) (callbacks : List Callback) : Prop :=
  (deliveredTexts callbacks).filter (· ≠ []) = (runsBetween text).filter (· ≠ [])

/-- The parser comes to the end of the text without the use of a missing text buffer, and its callbacks tell what the text
says. -/
def WellBehaved (text : List Char) : Prop :=
  ∃ callbacks, gMarkupParseContextParse text = .returns true callbacks ∧ Nested callbacks ∧ TagsAgree callbacks ∧
    TextsOnce text callbacks

/-- The condition on a text: there is at most one tag or comment behind the first one; between them there is character
data; and if it is a closing tag, the first one opens an element of that name. -/
def Meets (text : List Char) : Prop :=
  match pieces text with
  | [] => True
  | [_] => True
  | [(_, first), (run, second)] =>
      run ≠ [] ∧ ∀ tag, second = .closing tag → ∃ name attributes, first = .element name attributes false ∧
        strip name = strip tag
  | _ :: _ :: _ :: _ => False

/-! ### What the pieces ask for -/

/-- What a markup does to the open names: it goes on with some callbacks, or it ends the parser. -/
inductive Effect where
  | goOn (callbacks : List Callback) (level : List (List Char))
  | stop (result : Bool)

/-- What the parser does for a markup. -/
def Markup.effect (level : List (List Char)) : Markup → Effect
  | .declaration name fullStop => .goOn [] (pushName level name fullStop)
  | .element name attributes fullStop =>
      .goOn (elementCallbacks name attributes fullStop) (pushName level name fullStop)
  | .closing tag =>
      match level with
      | [] => .stop false
      | name :: level => .goOn [.endElement name (some tag)] level
  | .comment => .goOn [] level
  | .unfinished => .stop true
  | .malformed => .stop false

/-- The text buffer behind a run. -/
def appendRun (text : Option (List Char)) (run : List Char) : Option (List Char) :=
  if run = [] then text else some (text.getD [] ++ run)

/-- What the parser does for the pieces behind the first markup. -/
def processPieces (level : List (List Char)) (text : Option (List Char)) : List (List Char × Markup) → Outcome
  | [] => .returns true []
  | (run, markup) :: rest =>
      match appendRun text run with
      | none => .missingText
      | some buffer =>
          match markup.effect level with
          | .stop result => .returns result [.text buffer]
          | .goOn callbacks level' => (processPieces level' (some buffer) rest).after (.text buffer :: callbacks)

/-- What the parser does for the pieces of a text. -/
def processText : List (List Char × Markup) → Outcome
  | [] => .returns true []
  | (_, markup) :: rest =>
      match markup.effect [] with
      | .stop result => .returns result []
      | .goOn callbacks level => (processPieces level none rest).after callbacks

end MonoRuntime.MarkupParser
