/-
Module: MonoRuntime.Proofs.GMarkup
Purpose: The markup reader does for a text what its pieces ask for, one after the other. What it delivers as text is all
  character data since the beginning, so that a text is told as it is only where there is no more than one tag behind the
  first one.
Trusted boundary: none
Main exports: gMarkup_wellBehaved_iff
-/
import MonoRuntime.Eglib.GMarkup

namespace MonoRuntime.MarkupParser

open List

/-! ### Passes through the loop -/

theorem after_nil (outcome : Outcome) : outcome.after [] = outcome := by
  cases outcome <;> rfl

theorem after_after (first second : List Callback) (outcome : Outcome) :
    (outcome.after second).after first = outcome.after (first ++ second) := by
  cases outcome with
  | returns result callbacks =>
    show Outcome.returns result (first ++ (second ++ callbacks)) = .returns result (first ++ second ++ callbacks)
    rw [append_assoc]
  | missingText => rfl

variable (context : ParseContext)

theorem parseLoop_nil : parseLoop context [] = .returns true [] := by
  rw [parseLoop]

theorem parseLoop_cons (c : Char) (rest : List Char) : parseLoop context (c :: rest) =
      match step context c rest with
      | .fail callbacks => .returns false callbacks
      | .missingText => .missingText
      | .next context' callbacks rest' => (parseLoop context' rest').after callbacks := by
  rw [parseLoop]
  cases step context c rest <;> rfl

/-! ### Text -/

theorem appendRun_cons (text : Option (List Char)) (c : Char) (run : List Char) :
    appendRun (some (text.getD [] ++ [c])) run = appendRun text (c :: run) := by
  unfold appendRun
  rw [if_neg (cons_ne_nil c run)]
  split
  · next empty => rw [empty]
  · rw [Option.getD_some, append_assoc, singleton_append]

theorem parseLoop_text (level : List (List Char)) (chars : List Char) (text : Option (List Char)) :
    parseLoop { state := .text, level := level, text := text } chars =
      match chars.dropWhile fun d => d != '<' with
      | [] => .returns true []
      | _ :: rest =>
        parseLoop { state := .flushText, level := level, text := appendRun text (chars.takeWhile fun d => d != '<') }
          rest := by
  induction chars generalizing text with
  | nil => exact parseLoop_nil _
  | cons c chars ih =>
    rw [parseLoop_cons]
    by_cases less : c = '<'
    · have stays : (c != '<') = false := by simp [less]
      have passed : step { state := .text, level := level, text := text } c chars
          = .next { state := .flushText, level := level, text := text } [] chars := by
        show stepText _ c chars = _
        unfold stepText
        rw [if_pos less]
      rw [passed, dropWhile_cons, takeWhile_cons, stays]
      exact after_nil _
    · have goes : (c != '<') = true := by simp [less]
      have passed : step { state := .text, level := level, text := text } c chars
          = .next { state := .text, level := level, text := some (text.getD [] ++ [c]) } [] chars := by
        show stepText _ c chars = _
        unfold stepText
        rw [if_neg less]
      rw [passed, dropWhile_cons, takeWhile_cons, goes]
      dsimp only
      rw [after_nil, ih, appendRun_cons]
      rfl

/-! ### Markup -/

/-- What the parser does behind a markup. -/
def goOnBehind (level : List (List Char)) (text : Option (List Char)) (found : Markup × List Char) : Outcome :=
  match found.1.effect level with
  | .stop result => .returns result []
  | .goOn callbacks level' =>
      (parseLoop { state := .text, level := level', text := text } found.2).after callbacks

theorem parseLoop_comment (level : List (List Char)) (text : Option (List Char)) (chars : List Char) :
    parseLoop { state := .comment, level := level, text := text } chars =
      match afterComment chars with
      | none => .returns true []
      | some behind => parseLoop { state := .text, level := level, text := text } behind := by
  induction chars with
  | nil => exact parseLoop_nil _
  | cons c chars ih =>
    rw [parseLoop_cons]
    unfold afterComment
    by_cases closes : c = '-' ∧ chars.take 2 = ['-', '>']
    · have passed : step { state := .comment, level := level, text := text } c chars
          = .next { state := .text, level := level, text := text } [] (chars.drop 2) := by
        show stepComment _ c chars = _
        unfold stepComment
        rw [if_pos closes]
      rw [passed, if_pos closes]
      exact after_nil _
    · have passed : step { state := .comment, level := level, text := text } c chars
          = .next { state := .comment, level := level, text := text } [] chars := by
        show stepComment _ c chars = _
        unfold stepComment
        rw [if_neg closes]
      rw [passed, if_neg closes]
      dsimp only
      rw [after_nil, ih]

variable {state : ParseState}

theorem parseLoop_opening (opens : state = .startElement ∨ state = .skipXmlDeclaration) (level : List (List Char))
    (text : Option (List Char)) (chars : List Char) :
    parseLoop { state := state, level := level, text := text } chars
      = goOnBehind level text (openingMarkup state chars) := by
  cases chars with
  | nil => exact parseLoop_nil _
  | cons c chars =>
    have passed : step { state := state, level := level, text := text } c chars
        = stepElement { state := state, level := level, text := text } (c :: chars) := by
      rcases opens with rfl | rfl <;> rfl
    rw [parseLoop_cons, passed]
    unfold stepElement openingMarkup
    cases scanElement state (c :: chars) with
    | malformed => rfl
    | comment rest =>
      dsimp only
      rw [after_nil, parseLoop_comment]
      cases afterComment rest with
      | none => rfl
      | some behind => exact (after_nil _).symm
    | element name attributes fullStop rest =>
      rcases opens with rfl | rfl
      · rfl
      · rfl

theorem parseLoop_closing (level : List (List Char)) (text : Option (List Char)) (chars : List Char) :
    parseLoop { state := .closingElement, level := level, text := text } chars
      = goOnBehind level text (closingMarkup chars) := by
  cases chars with
  | nil => exact parseLoop_nil _
  | cons c chars =>
    rw [parseLoop_cons]
    show (match stepClosingElement { state := .closingElement, level := level, text := text } (c :: chars) with
      | .fail callbacks | .missingText => _
      | .next context' callbacks rest' => _) = _
    cases level with
    | nil | cons name level => rfl

theorem parseLoop_flush (level : List (List Char)) (buffer : List Char) (c : Char) (rest : List Char) :
    parseLoop { state := .flushText, level := level, text := some buffer } (c :: rest)
      = (goOnBehind level (some buffer) (innerMarkup c rest)).after [.text buffer] := by
  rw [parseLoop_cons]
  unfold innerMarkup
  by_cases slash : c = '/'
  · have passed : step { state := .flushText, level := level, text := some buffer } c rest
        = .next { state := .closingElement, level := level, text := some buffer } [.text buffer] rest := by
      show stepFlushText { state := .flushText, level := level, text := some buffer } c rest = _
      unfold stepFlushText
      dsimp only
      rw [if_pos slash]
    rw [passed, if_pos slash]
    dsimp only
    rw [parseLoop_closing]
  · have passed : step { state := .flushText, level := level, text := some buffer } c rest
        = .next { state := .startElement, level := level, text := some buffer } [.text buffer] (c :: rest) := by
      show stepFlushText { state := .flushText, level := level, text := some buffer } c rest = _
      unfold stepFlushText
      dsimp only
      rw [if_neg slash]
    rw [passed, if_neg slash]
    dsimp only
    rw [parseLoop_opening (.inl rfl)]

/-! ### The pieces of a text -/

theorem parseLoop_pieces (chars : List Char) : ∀ (level : List (List Char)) (text : Option (List Char)),
    parseLoop { state := .text, level := level, text := text } chars = processPieces level text (innerPieces chars) := by
  fun_induction innerPieces chars with
  | case1 chars none_ =>
    intro level text
    rw [parseLoop_text, none_]
    rfl
  | case2 chars d last =>
    intro level text
    rw [parseLoop_text, last]
    exact parseLoop_nil _
  | case3 chars d c rest found ih =>
    intro level text
    rw [parseLoop_text, found]
    dsimp only
    unfold processPieces
    cases appendRun text (chars.takeWhile fun d => d != '<') with
    | none =>
      rw [parseLoop_cons]
      rfl
    | some buffer =>
      rw [parseLoop_flush]
      unfold goOnBehind
      cases (innerMarkup c rest).1.effect level with
      | stop result => rfl
      | goOn callbacks level' =>
        dsimp only
        rw [ih, after_after]
        rfl

theorem goOnBehind_first (found : Markup × List Char) :
    goOnBehind [] none found = processText (([], found.1) :: innerPieces found.2) := by
  unfold goOnBehind processText
  dsimp only
  cases found.1.effect [] with
  | stop result => rfl
  | goOn callbacks level =>
    dsimp only
    rw [parseLoop_pieces]

theorem gMarkupParseContextParse_eq (text : List Char) : gMarkupParseContextParse text = processText (pieces text) := by
  unfold gMarkupParseContextParse gMarkupParseContextNew
  induction text with
  | nil => exact parseLoop_nil _
  | cons c text ih =>
    rw [parseLoop_cons]
    show (match stepStart { state := .start, level := [], text := none } c text with
      | .fail callbacks | .missingText => _
      | .next context' callbacks rest' => _) = _
    unfold stepStart
    by_cases space : isStartSpace c = true
    · have same : pieces (c :: text) = pieces text := by
        unfold pieces
        rw [dropWhile_cons, if_pos space]
      rw [if_pos space, same]
      dsimp only
      rw [after_nil, ih]
    · have first : (c :: text).dropWhile isStartSpace = c :: text := by
        rw [dropWhile_cons, if_neg space]
      unfold pieces
      rw [if_neg space, first]
      dsimp only
      by_cases less : c = '<'
      · rw [if_pos less, if_pos less]
        rw [← goOnBehind_first]
        unfold firstMarkup
        by_cases question : text.head? = some '?'
        · rw [if_pos question, if_pos question]
          dsimp only
          rw [after_nil, parseLoop_opening (.inr rfl)]
        · rw [if_neg question, if_neg question]
          dsimp only
          rw [after_nil, parseLoop_opening (.inl rfl)]
      · rw [if_neg less, if_neg less]
        rfl

/-! ### The end of a text -/

/-- A markup behind which the parser does not go on. -/
def Markup.Ends (markup : Markup) : Prop :=
  markup = .unfinished ∨ markup = .malformed

/-- Such a markup is the last piece. -/
def EndsLast : List (List Char × Markup) → Prop
  | [] => True
  | (_, markup) :: rest => (markup.Ends → rest = []) ∧ EndsLast rest

variable {chars : List Char}

theorem openingMarkup_ends (ends : (openingMarkup state chars).1.Ends) : (openingMarkup state chars).2 = [] := by
  revert ends
  unfold openingMarkup
  split
  · intro _
    rfl
  · split
    · intro _
      rfl
    · next rest is =>
        cases afterComment rest with
        | none =>
          intro _
          rfl
        | some behind =>
          intro ends
          rcases ends with ends | ends <;> cases ends
    · intro ends
      split at ends
      · rcases ends with ends | ends <;> cases ends
      · rcases ends with ends | ends <;> cases ends

theorem closingMarkup_ends (ends : (closingMarkup chars).1.Ends) : (closingMarkup chars).2 = [] := by
  revert ends
  unfold closingMarkup
  split
  · intro _
    rfl
  · intro ends
    rcases ends with ends | ends <;> cases ends

theorem innerMarkup_ends {c : Char} {rest : List Char} (ends : (innerMarkup c rest).1.Ends) :
    (innerMarkup c rest).2 = [] := by
  revert ends
  unfold innerMarkup
  split
  · exact closingMarkup_ends
  · exact openingMarkup_ends

theorem innerPieces_nil : innerPieces [] = [] := by
  rw [innerPieces]
  rfl

theorem endsLast_innerPieces (chars : List Char) : EndsLast (innerPieces chars) := by
  fun_induction innerPieces chars with
  | case1 chars none_ | case2 chars d last => trivial
  | case3 chars d c rest found ih =>
    refine ⟨fun ends => ?_, ih⟩
    rw [innerMarkup_ends ends]
    exact innerPieces_nil

theorem endsLast_pieces (text : List Char) : EndsLast (pieces text) := by
  unfold pieces
  split
  · trivial
  · next c rest is =>
      split
      · refine ⟨fun ends => ?_, endsLast_innerPieces _⟩
        have nothing : (firstMarkup rest).2 = [] := by
          revert ends
          unfold firstMarkup
          split
          · exact openingMarkup_ends
          · exact openingMarkup_ends
        rw [nothing]
        exact innerPieces_nil
      · exact ⟨fun _ => rfl, trivial⟩

/-! ### What is delivered as text -/

/-- The contents of a buffer that is never cleared, run after run. -/
def accumulated (buffer : List Char) : List (List Char) → List (List Char)
  | [] => []
  | run :: runs => (buffer ++ run) :: accumulated (buffer ++ run) runs

theorem accumulated_length (buffer : List Char) (runs : List (List Char)) :
    runs.flatten.length + runs.length * buffer.length ≤ (accumulated buffer runs).flatten.length := by
  induction runs generalizing buffer with
  | nil => simp [accumulated]
  | cons run runs ih =>
    have later := ih (buffer ++ run)
    have longer : runs.length * buffer.length ≤ runs.length * (buffer ++ run).length :=
      Nat.mul_le_mul_left _ (by rw [length_append]; omega)
    rw [accumulated, flatten_cons, flatten_cons, length_append, length_append, length_append,
      length_cons, Nat.succ_mul]
    omega

theorem deliveredTexts_append (first second : List Callback) :
    deliveredTexts (first ++ second) = deliveredTexts first ++ deliveredTexts second := by
  fun_induction deliveredTexts first with
  | case1 => rfl
  | case2 chars callbacks ih =>
    show chars :: deliveredTexts (callbacks ++ second) = _
    rw [ih]
    rfl
  | case3 name attributes callbacks ih | case4 name tag callbacks ih => exact ih

theorem openNames_append (names : List (List Char)) (first second : List Callback) :
    openNames names (first ++ second) = (openNames names first).bind fun names' => openNames names' second := by
  fun_induction openNames names first with
  | case1 names => rfl
  | case2 names name attributes callbacks ih => exact ih
  | case3 name tag callbacks => rfl
  | case4 names name tag callbacks ih =>
    rw [cons_append, openNames, if_pos rfl]
    exact ih
  | case5 open_ names name tag callbacks other =>
    rw [cons_append, openNames, if_neg other]
    rfl
  | case6 names chars callbacks ih => exact ih

variable (name : List Char) (attributes : List (List Char × List Char)) (fullStop : Bool)

theorem deliveredTexts_elementCallbacks : deliveredTexts (elementCallbacks name attributes fullStop) = [] := by
  cases fullStop <;> rfl

variable {level : List (List Char)} {markup : Markup} {callbacks first second : List Callback} {run text : List Char}

variable {level' : List (List Char)}

theorem deliveredTexts_effect (is : markup.effect level = .goOn callbacks level') : deliveredTexts callbacks = [] := by
  cases markup with
  | declaration name fullStop =>
    cases is
    rfl
  | element name attributes fullStop =>
    cases is
    exact deliveredTexts_elementCallbacks name attributes fullStop
  | closing tag =>
    cases level with
    | nil => cases is
    | cons name level =>
      cases is
      rfl
  | comment =>
    cases is
    rfl
  | unfinished | malformed => cases is

theorem Outcome.after_eq_returns {outcome : Outcome} {result : Bool}
    (is : outcome.after first = .returns result callbacks) :
    ∃ later, outcome = .returns result later ∧ callbacks = first ++ later := by
  cases outcome with
  | returns result' later =>
    cases is
    exact ⟨later, rfl, rfl⟩
  | missingText => cases is

theorem appendRun_some {text : Option (List Char)} {buffer : List Char} (is : appendRun text run = some buffer) :
    buffer = text.getD [] ++ run := by
  unfold appendRun at is
  split at is
  · next empty => rw [is, empty, Option.getD_some, append_nil]
  · cases is
    rfl

theorem Markup.ends_of_stop (is : markup.effect level = .stop true) : markup.Ends := by
  cases markup with
  | declaration name fullStop | element name attributes fullStop => cases is
  | closing tag => cases level <;> cases is
  | comment | malformed => cases is
  | unfinished => exact .inl rfl

theorem deliveredTexts_processPieces {found : List (List Char × Markup)} (last : EndsLast found)
    {text : Option (List Char)} (returned : processPieces level text found = .returns true callbacks) :
    deliveredTexts callbacks = accumulated (text.getD []) (found.map Prod.fst) := by
  induction found generalizing level text callbacks with
  | nil =>
    cases returned
    rfl
  | cons piece rest ih =>
    obtain ⟨run, markup⟩ := piece
    unfold processPieces at returned
    rw [map_cons, accumulated]
    cases appended : appendRun text run with
    | none =>
      rw [appended] at returned
      cases returned
    | some buffer =>
      rw [appended] at returned
      rw [← appendRun_some appended]
      cases is : markup.effect level with
      | stop result =>
        rw [is] at returned
        cases returned
        rw [last.1 (Markup.ends_of_stop is)]
        rfl
      | goOn effects level' =>
        rw [is] at returned
        obtain ⟨later, behind, rfl⟩ := Outcome.after_eq_returns returned
        have texts := ih last.2 behind
        show buffer :: deliveredTexts (effects ++ later) = _
        rw [deliveredTexts_append, deliveredTexts_effect is, texts]
        rfl

theorem accumulated_ne (some_ : run ≠ []) (next : List Char) (runs : List (List Char)) :
    (accumulated [] (run :: next :: runs)).filter (· ≠ []) ≠ (run :: next :: runs).filter (· ≠ []) := by
  intro same
  have total : (accumulated [] (run :: next :: runs)).flatten = (run :: next :: runs).flatten := by
    rw [← flatten_filter_ne_nil, same, flatten_filter_ne_nil]
  have more := accumulated_length run (next :: runs)
  have positive : 0 < run.length := length_pos_of_ne_nil some_
  rw [accumulated, nil_append, flatten_cons, flatten_cons] at total
  have same' := congrArg List.length (append_cancel_left total)
  rw [length_cons, Nat.succ_mul] at more
  omega

/-! ### Texts with no more than one tag behind the first one -/

/-- Callbacks that open elements, and close them at once or not at all. -/
structure Opening (callbacks : List Callback) : Prop where
  nested : ∀ names, ∃ names', openNames names callbacks = some names'
  untagged : ∀ name tag, .endElement name (some tag) ∉ callbacks
  silent : deliveredTexts callbacks = []

theorem opening_nil : Opening [] :=
  ⟨fun names => ⟨names, rfl⟩, fun _ _ => not_mem_nil, rfl⟩

theorem opening_elementCallbacks : Opening (elementCallbacks name attributes fullStop) := by
  refine ⟨fun names => ?_, fun name' tag inside => ?_, deliveredTexts_elementCallbacks name attributes fullStop⟩
  · cases fullStop with
    | false => exact ⟨name :: names, rfl⟩
    | true => exact ⟨names, if_pos rfl⟩
  · cases fullStop with
    | false =>
      have same := mem_singleton.1 inside
      cases same
    | true =>
      rcases mem_cons.1 inside with same | inside
      · cases same
      · have same := mem_singleton.1 inside
        cases same

theorem opening_effect (open_ : ∀ tag, markup ≠ .closing tag)
    (is : markup.effect level = .goOn callbacks level') : Opening callbacks := by
  cases markup with
  | declaration name fullStop =>
    cases is
    exact opening_nil
  | element name attributes fullStop =>
    cases is
    exact opening_elementCallbacks name attributes fullStop
  | closing tag => exact absurd rfl (open_ tag)
  | comment =>
    cases is
    exact opening_nil
  | unfinished | malformed => cases is

theorem opening_first (is : markup.effect [] = .goOn callbacks level) : Opening callbacks := by
  refine opening_effect (fun tag closes => ?_) is
  rw [closes] at is
  cases is

theorem Opening.nested_text (one : Opening first) (two : Opening second)
    (run : List Char) : Nested (first ++ .text run :: second) := by
  obtain ⟨names, opened⟩ := one.nested []
  obtain ⟨names', opened'⟩ := two.nested names
  refine ⟨names', ?_⟩
  rw [openNames_append, opened]
  exact opened'

theorem Opening.tagsAgree_text (one : Opening first) (two : Opening second)
    (run : List Char) : TagsAgree (first ++ .text run :: second) := by
  intro name tag inside
  rcases mem_append.1 inside with inside | inside
  · exact absurd inside (one.untagged name tag)
  · rcases mem_cons.1 inside with same | inside
    · cases same
    · exact absurd inside (two.untagged name tag)

theorem processPieces_one (level : List (List Char)) (some_ : run ≠ []) (markup : Markup) :
    processPieces level none [(run, markup)] =
      match markup.effect level with
      | .stop result => .returns result [.text run]
      | .goOn callbacks _ => .returns true (.text run :: callbacks) := by
  have appended : appendRun none run = some run := if_neg some_
  unfold processPieces
  rw [appended]
  cases markup.effect level with
  | stop result => rfl
  | goOn callbacks level' =>
    show Outcome.returns true (.text run :: (callbacks ++ [])) = _
    rw [append_nil]

/-! ### When the callbacks tell what the text says -/

theorem wellBehaved_iff (returns : gMarkupParseContextParse text = .returns true callbacks) :
    WellBehaved text ↔ Nested callbacks ∧ TagsAgree callbacks ∧ TextsOnce text callbacks := by
  constructor
  · rintro ⟨callbacks', returns', told⟩
    rw [returns] at returns'
    cases returns'
    exact told
  · intro told
    exact ⟨callbacks, returns, told⟩

theorem not_wellBehaved_of_missingText (missing : gMarkupParseContextParse text = .missingText) : ¬ WellBehaved text := by
  rintro ⟨callbacks, returns, -⟩
  rw [missing] at returns
  cases returns

theorem textsOnce_of_run (runs : runsBetween text = [run])
    (texts : deliveredTexts callbacks = [run]) : TextsOnce text callbacks := by
  unfold TextsOnce
  rw [runs, texts]

theorem Opening.wellBehaved (one : Opening first) (two : Opening second) (runs : runsBetween text = [run])
    (returns : gMarkupParseContextParse text = .returns true (first ++ .text run :: second)) : WellBehaved text := by
  refine (wellBehaved_iff returns).2 ⟨one.nested_text two run, one.tagsAgree_text two run, textsOnce_of_run runs ?_⟩
  rw [deliveredTexts_append, one.silent]
  show run :: deliveredTexts second = [run]
  rw [two.silent]

/-- A run and a closing tag behind the first markup: that has to be an element of the same name. -/
theorem wellBehaved_closing {tag name : List Char} {first : Markup} {opened : List Callback}
    (is : first.effect [] = .goOn opened (name :: level)) (runs : runsBetween text = [run])
    (returns : gMarkupParseContextParse text = .returns true (opened ++ [.text run, .endElement name (some tag)])) :
    WellBehaved text ↔ ∃ name attributes, first = .element name attributes false ∧ strip name = strip tag := by
  rw [wellBehaved_iff returns]
  cases first with
  | declaration name' fullStop =>
    -- its name is among the open ones, but nobody was told that it has been opened
    cases fullStop with
    | true => cases is
    | false =>
      cases is
      constructor
      · rintro ⟨⟨names, nested⟩, -, -⟩
        cases nested
      · rintro ⟨name, attributes, same, -⟩
        cases same
  | element name' attributes fullStop =>
    cases fullStop with
    | true => cases is
    | false =>
      cases is
      constructor
      · rintro ⟨-, agree, -⟩
        exact ⟨_, _, rfl, agree _ tag (by simp [elementCallbacks])⟩
      · rintro ⟨name, attributes', same, agree⟩
        cases same
        refine ⟨⟨[], if_pos rfl⟩, fun name' tag' inside => ?_, textsOnce_of_run runs rfl⟩
        simp only [elementCallbacks, Bool.false_eq_true, if_false, cons_append, nil_append, mem_cons,
          not_mem_nil, or_false, reduceCtorEq, false_or, Callback.endElement.injEq, Option.some.injEq] at inside
        rw [inside.1, inside.2]
        exact agree
  | closing tag | comment | unfinished | malformed => cases is

theorem wellBehaved_two {front : List Char} {first second : Markup} (is : pieces text = [(front, first), (run, second)])
    (returned : ∀ callbacks, gMarkupParseContextParse text ≠ .returns false callbacks) :
    WellBehaved text ↔ run ≠ [] ∧ ∀ tag, second = .closing tag → ∃ name attributes,
      first = .element name attributes false ∧ strip name = strip tag := by
  have last := endsLast_pieces text
  have runs : runsBetween text = [run] := by
    unfold runsBetween
    rw [is]
    rfl
  have outcome := gMarkupParseContextParse_eq text
  rw [is] at last outcome
  unfold processText at outcome
  dsimp only at outcome
  cases effect : first.effect [] with
  | stop result =>
    rw [effect] at outcome
    cases result with
    | false => exact absurd outcome (returned [])
    | true => exact absurd (last.1 (Markup.ends_of_stop effect)) (cons_ne_nil _ _)
  | goOn opened level =>
    rw [effect] at outcome
    dsimp only at outcome
    by_cases some_ : run = []
    · rw [some_] at outcome
      constructor
      · intro well
        exact absurd well (not_wellBehaved_of_missingText outcome)
      · intro condition
        exact absurd some_ condition.1
    · rw [processPieces_one level some_] at outcome
      by_cases closes : ∃ tag, second = .closing tag
      · obtain ⟨tag, rfl⟩ := closes
        cases level with
        | nil => exact absurd outcome (returned _)
        | cons name level =>
          rw [wellBehaved_closing effect runs outcome]
          constructor
          · intro same
            refine ⟨some_, fun tag' is' => ?_⟩
            cases is'
            exact same
          · intro condition
            exact condition.2 tag rfl
      · have open_ : ∀ tag, second ≠ .closing tag := fun tag is' => closes ⟨tag, is'⟩
        have condition : run ≠ [] ∧ ∀ tag, second = .closing tag → ∃ name attributes,
            first = .element name attributes false ∧ strip name = strip tag :=
          ⟨some_, fun tag is' => absurd is' (open_ tag)⟩
        refine iff_of_true ?_ condition
        cases effect' : second.effect level with
        | stop result =>
          rw [effect'] at outcome
          cases result with
          | false => exact absurd outcome (returned _)
          | true => exact (opening_first effect).wellBehaved opening_nil runs outcome
        | goOn callbacks level' =>
          rw [effect'] at outcome
          exact (opening_first effect).wellBehaved (opening_effect open_ effect') runs outcome

theorem not_wellBehaved_of_three {front next : List Char} {first second third : Markup} {rest : List (List Char × Markup)}
    (is : pieces text = (front, first) :: (run, second) :: (next, third) :: rest) : ¬ WellBehaved text := by
  rintro ⟨callbacks, returns, -, -, once⟩
  have last := endsLast_pieces text
  rw [gMarkupParseContextParse_eq, is] at returns
  rw [is] at last
  unfold TextsOnce runsBetween at once
  rw [is] at once
  unfold processText at returns
  dsimp only at returns
  cases effect : first.effect [] with
  | stop result =>
    rw [effect] at returns
    cases returns
    exact absurd (last.1 (Markup.ends_of_stop effect)) (cons_ne_nil _ _)
  | goOn opened level =>
    rw [effect] at returns
    obtain ⟨later, behind, rfl⟩ := Outcome.after_eq_returns returns
    have texts := deliveredTexts_processPieces last.2 behind
    have some_ : run ≠ [] := by
      intro empty
      rw [empty] at behind
      cases behind
    rw [deliveredTexts_append, deliveredTexts_effect effect, texts] at once
    exact accumulated_ne some_ next (rest.map Prod.fst) once

/-- Exactly the texts with no more than one tag behind the first one are told as they are. -/
theorem gMarkup_wellBehaved_iff (text : List Char)
    (returned : ∀ callbacks, gMarkupParseContextParse text ≠ .returns false callbacks) :
    WellBehaved text ↔ Meets text := by
  unfold Meets
  match is : pieces text with
  | [] =>
    have outcome := gMarkupParseContextParse_eq text
    rw [is] at outcome
    have runs : runsBetween text = [] := by
      unfold runsBetween
      rw [is]
      rfl
    refine iff_of_true ((wellBehaved_iff outcome).2 ⟨⟨[], rfl⟩, fun _ _ inside => ?_, ?_⟩) trivial
    · cases inside
    · unfold TextsOnce
      rw [runs]
      rfl
  | [(front, first)] =>
    have outcome := gMarkupParseContextParse_eq text
    rw [is] at outcome
    have runs : runsBetween text = [] := by
      unfold runsBetween
      rw [is]
      rfl
    refine iff_of_true ?_ trivial
    unfold processText at outcome
    dsimp only at outcome
    cases effect : first.effect [] with
    | stop result =>
      rw [effect] at outcome
      cases result with
      | false => exact absurd outcome (returned [])
      | true =>
        refine (wellBehaved_iff outcome).2 ⟨⟨[], rfl⟩, fun _ _ inside => ?_, ?_⟩
        · cases inside
        · unfold TextsOnce
          rw [runs]
          rfl
    | goOn opened level =>
      have opening := opening_first effect
      rw [effect] at outcome
      have returns : gMarkupParseContextParse text = .returns true opened := by
        rw [outcome]
        show Outcome.returns true (opened ++ []) = _
        rw [append_nil]
      refine (wellBehaved_iff returns).2 ⟨opening.nested [], fun name tag inside => ?_, ?_⟩
      · exact absurd inside (opening.untagged name tag)
      · unfold TextsOnce
        rw [runs, opening.silent]
  | [(front, first), (run, second)] => exact wellBehaved_two is returned
  | (front, first) :: (run, second) :: (next, third) :: rest =>
    exact iff_of_false (not_wellBehaved_of_three is) id

/-- What the parser does for some short texts, and the pieces of the first two. -/
theorem short_texts : (gMarkupParseContextParse "<a>x</a>".toList
        = .returns true [.startElement ['a'] [], .text ['x'], .endElement ['a'] (some ['a'])]
      ∧ pieces "<a>x</a>".toList = [([], .element ['a'] [] false), (['x'], .closing ['a'])])
      ∧ (gMarkupParseContextParse "<a></a>".toList = .missingText
        ∧ pieces "<a></a>".toList = [([], .element ['a'] [] false), ([], .closing ['a'])])
      ∧ gMarkupParseContextParse "<a>x</b>".toList
        = .returns true [.startElement ['a'] [], .text ['x'], .endElement ['a'] (some ['b'])]
      ∧ gMarkupParseContextParse "<?xml?>x</xml>".toList
        = .returns true [.text ['x'], .endElement ['x', 'm', 'l'] (some ['x', 'm', 'l'])]
      ∧ gMarkupParseContextParse "<a>x<b>y</b>".toList
        = .returns true [.startElement ['a'] [], .text ['x'], .startElement ['b'] [], .text ['x', 'y'],
          .endElement ['b'] (some ['b'])] := by
  decide +kernel

/-- An element with a run of text, which is told as it is, and one without, which makes the parser use a missing
buffer. -/
theorem gMarkup_wellBehaved_sample : WellBehaved "<a>x</a>".toList ∧ ¬ WellBehaved "<a></a>".toList := by
  constructor
  · obtain ⟨outcome, is⟩ := short_texts.1
    refine (gMarkup_wellBehaved_iff _ fun callbacks same => ?_).2 ?_
    · rw [outcome] at same
      cases same
    · unfold Meets
      rw [is]
      refine ⟨by decide, fun tag same => ?_⟩
      cases same
      exact ⟨_, _, rfl, rfl⟩
  · obtain ⟨outcome, is⟩ := short_texts.2.1
    intro well
    have condition := (gMarkup_wellBehaved_iff _ fun callbacks same => by rw [outcome] at same; cases same).1 well
    unfold Meets at condition
    rw [is] at condition
    exact condition.1 rfl

/-- An empty element makes the parser use a missing buffer; a closing tag ends the last open element whatever its name is;
the name of a declaration is ended without having been started; and a second text repeats the first one. -/
theorem gMarkup_tellsOtherThings :
    gMarkupParseContextParse "<a></a>".toList = .missingText
      ∧ gMarkupParseContextParse "<a>x</b>".toList
        = .returns true [.startElement ['a'] [], .text ['x'], .endElement ['a'] (some ['b'])]
      ∧ gMarkupParseContextParse "<?xml?>x</xml>".toList
        = .returns true [.text ['x'], .endElement ['x', 'm', 'l'] (some ['x', 'm', 'l'])]
      ∧ gMarkupParseContextParse "<a>x<b>y</b>".toList
        = .returns true [.startElement ['a'] [], .text ['x'], .startElement ['b'] [], .text ['x', 'y'],
          .endElement ['b'] (some ['b'])]
      ∧ ¬ ∀ text, (∀ callbacks, gMarkupParseContextParse text ≠ .returns false callbacks) → WellBehaved text := by
  obtain ⟨-, ⟨missing, -⟩, other, declared, repeated⟩ := short_texts
  refine ⟨missing, other, declared, repeated, fun all => ?_⟩
  refine not_wellBehaved_of_missingText missing (all _ fun callbacks same => ?_)
  rw [missing] at same
  cases same

end MonoRuntime.MarkupParser
