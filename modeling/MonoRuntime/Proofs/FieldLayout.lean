/-
Module: MonoRuntime.Proofs.FieldLayout
Purpose: `mono_class_layout_fields` places the fields of every class of a hierarchy apart, aligned and inside the
  instance or the static area.
Trusted boundary: none
Main exports: monoClassSetupFields_placed
-/
import MonoRuntime.Metadata.FieldLayout

namespace MonoRuntime.FieldLayout

open Placement List

/-! ### Rounding -/

theorem wrap_of_lt {n : Nat} (small : n < 2 ^ 32) : wrap n = n :=
  Nat.mod_eq_of_lt small

variable {a x i base instanceSize size minAlign : Nat} {f : MonoClassField} {s s' : PassState} {offset : Nat → Nat}

theorem mask_eq (pos : 0 < a) (small : a < 2 ^ 32) : mask a = a - 1 := by
  unfold mask wrap
  omega

theorem roundUp_bounds (pos : 0 < a) (fits : x + a < 2 ^ 32) : x ≤ roundUp x a ∧ roundUp x a ≤ x + (a - 1) := by
  have low : (x + (a - 1)) &&& (a - 1) ≤ a - 1 := Nat.and_le_right
  simp only [roundUp, mask_eq pos (show a < 2 ^ 32 by omega), wrap_of_lt (show x + (a - 1) < 2 ^ 32 by omega)]
  omega

theorem roundUp_eq (isAlign : IsAlign a) (fits : x + a < 2 ^ 32) : roundUp x a = alignUp x a := by
  have pos := isAlign.pos
  obtain ⟨k, rfl⟩ := isAlign
  have split := Nat.div_add_mod (x + (2 ^ k - 1)) (2 ^ k)
  simp only [roundUp, alignUp, mask_eq pos (show 2 ^ k < 2 ^ 32 by omega),
    wrap_of_lt (show x + (2 ^ k - 1) < 2 ^ 32 by omega), Nat.and_two_pow_sub_one_eq_mod]
  rw [Nat.mul_comm]
  omega

theorem dvd_roundUp (isAlign : IsAlign a) (fits : x + a < 2 ^ 32) : a ∣ roundUp x a := by
  rw [roundUp_eq isAlign fits]
  exact dvd_alignUp x a

theorem isAlign_pointer (p : Platform) : IsAlign p.pointerSize := by
  rcases p.isPointer with four | eight
  · exact ⟨2, four⟩
  · exact ⟨3, eight⟩

/-! ### Alignments -/

variable {p : Platform} {parent gtd : Option ClassLayout} {c : MonoClass}

theorem fieldAlign_spec (packing : c.packingSize = 0 ∨ IsAlign c.packingSize) (align : IsAlign f.align ∧ f.align ≤ 128) :
    IsAlign (fieldAlign p c f) ∧ fieldAlign p c f ≤ 128 ∧ fieldAlign p c f ≤ f.align + p.pointerSize := by
  have pointer := isAlign_pointer p
  have packed : IsAlign (if c.packingSize ≠ 0 then min c.packingSize f.align else f.align) ∧
      (if c.packingSize ≠ 0 then min c.packingSize f.align else f.align) ≤ f.align := by
    split
    next some =>
      exact ⟨(packing.resolve_left some).min align.1, Nat.min_le_right _ _⟩
    next => exact ⟨align.1, Nat.le_refl _⟩
  have few : p.pointerSize ≤ 8 := by
    rcases p.isPointer with four | eight <;> omega
  unfold fieldAlign
  generalize (if c.packingSize ≠ 0 then min c.packingSize f.align else f.align) = a at packed
  obtain ⟨isAlign, less⟩ := packed
  simp only
  split
  · refine ⟨isAlign.max pointer, ?_, ?_⟩ <;> omega
  · exact ⟨isAlign, by omega, by omega⟩

theorem raiseAlign_eq {b : Nat} (first : a ≤ 128) (second : b ≤ 128) : raiseAlign a b = max a b := by
  unfold raiseAlign
  omega

/-! ### A pass -/

/-- The pass places the field. -/
def PlacedBy (p : Platform) (c : MonoClass) (pass instanceSize i : Nat) : Prop :=
  ∃ f, c.fields[i]? = some f ∧ skipped p c pass instanceSize f = false

/-- The room that the fields of a pass need. -/
def passRoom (p : Platform) (c : MonoClass) (pass instanceSize : Nat) : List MonoClassField → Nat
  | [] => 0
  | f :: fields =>
      (if skipped p c pass instanceSize f then 0 else f.size + f.align + p.pointerSize) +
        passRoom p c pass instanceSize fields

theorem sizeAt_of (here : c.fields[i]? = some f) : sizeAt c i = f.size := by
  rw [sizeAt, here]

theorem alignAt_of (here : c.fields[i]? = some f) : alignAt p c i = fieldAlign p c f := by
  rw [alignAt, here]

theorem placeField_spec (packing : c.packingSize = 0 ∨ IsAlign c.packingSize)
    (align : IsAlign f.align ∧ f.align ≤ 128) (fits : s.realSize + f.size + f.align + p.pointerSize < 2 ^ 31)
    (small : s.minAlign ≤ 128) (step : placeField p c i f s = some s') :
    ∃ o, s.realSize ≤ o ∧ fieldAlign p c f ∣ o ∧ o + f.size ≤ s.realSize + f.size + f.align + p.pointerSize ∧
      s' = ⟨o + f.size, max (fieldAlign p c f) s.minAlign, Function.update s.offset i o⟩ := by
  obtain ⟨isAlign, low, bound⟩ := fieldAlign_spec (p := p) packing align
  have pos := isAlign.pos
  have offset : (if fieldAlign p c f = 0 then s.realSize else roundUp s.realSize (fieldAlign p c f)) =
      roundUp s.realSize (fieldAlign p c f) := if_neg (Nat.pos_iff_ne_zero.mp pos)
  have room : s.realSize + fieldAlign p c f < 2 ^ 32 := by omega
  obtain ⟨above, below⟩ := roundUp_bounds pos room
  simp only [placeField, offset] at step
  split at step
  next =>
    obtain rfl := Option.some.inj step
    refine ⟨roundUp s.realSize (fieldAlign p c f), above, dvd_roundUp isAlign room, by omega, ?_⟩
    rw [wrap_of_lt (by omega), raiseAlign_eq low small]
  next => cases step

theorem drop_cons {fields rest : List MonoClassField} (split : fields.drop i = f :: rest) :
    fields[i]? = some f ∧ fields.drop (i + 1) = rest := by
  constructor
  · have first : (fields.drop i)[0]? = fields[i + 0]? := getElem?_drop
    rw [split] at first
    exact first.symm
  · rw [← drop_drop, split]
    rfl

/-- What a pass leaves behind. -/
structure PassInv (p : Platform) (c : MonoClass) (base : Nat) (P : Nat → Prop) (s : PassState) : Prop where
  placed : Placed base s.realSize (sizeAt c) (alignAt p c) s.offset P
  above : base ≤ s.realSize

theorem PassInv.mono {P Q : Nat → Prop} (inv : PassInv p c base P s) (fewer : ∀ i, Q i → P i) : PassInv p c base Q s where
  placed := inv.placed.mono fewer (fun _ _ => rfl) (Nat.le_refl _)
  above := inv.above

/-- What a pass does to the bounds and the alignment, with this room for its fields. -/
structure PassGrows (space : Nat) (s s' : PassState) : Prop where
  size : s'.realSize ≤ s.realSize + space
  small : s'.minAlign ≤ 128
  align : s.minAlign ≤ s'.minAlign
  isAlign : IsAlign s.minAlign → IsAlign s'.minAlign

theorem passLoop_spec {pass : Nat} {before : Nat → Prop} (packing : c.packingSize = 0 ∨ IsAlign c.packingSize)
    (new : ∀ j, before j → ¬ PlacedBy p c pass instanceSize j) (fields : List MonoClassField) :
    ∀ {i : Nat} {s s' : PassState}, c.fields.drop i = fields → (∀ f ∈ fields, IsAlign f.align ∧ f.align ≤ 128) →
      PassInv p c base (fun j => before j ∨ (j < i ∧ PlacedBy p c pass instanceSize j)) s →
      s.realSize + passRoom p c pass instanceSize fields < 2 ^ 31 → s.minAlign ≤ 128 →
      passLoop p c pass instanceSize i fields s = some s' →
      PassInv p c base (fun j => before j ∨ PlacedBy p c pass instanceSize j) s' ∧
        PassGrows (passRoom p c pass instanceSize fields) s s' := by
  induction fields with
  | nil =>
    intro i s s' ended _ inv _ small run
    obtain rfl := Option.some.inj run
    refine ⟨inv.mono ?_, ⟨Nat.le_add_right _ _, small, Nat.le_refl _, id⟩⟩
    rintro j (earlier | ⟨f, here, placed⟩)
    · exact .inl earlier
    · have inside := (List.getElem?_eq_some_iff.mp here).1
      have length := drop_eq_nil_iff.mp ended
      exact .inr ⟨by omega, f, here, placed⟩
  | cons f fields ih =>
    intro i s s' split align inv fits small run
    obtain ⟨here, rest⟩ := drop_cons split
    rw [forall_mem_cons] at align
    rw [passLoop] at run
    rw [passRoom] at fits ⊢
    by_cases skip : skipped p c pass instanceSize f = true
    · simp only [skip, if_true] at run fits ⊢
      rw [Nat.zero_add] at fits ⊢
      refine ih rest align.2 (inv.mono ?_) fits small run
      rintro j (earlier | ⟨less, f', here', placed⟩)
      · exact .inl earlier
      · refine .inr ⟨?_, f', here', placed⟩
        rcases Nat.lt_succ_iff_lt_or_eq.mp less with lower | rfl
        · exact lower
        · rw [here] at here'
          obtain rfl := Option.some.inj here'
          rw [skip] at placed
          cases placed
    · simp only [skip] at run fits ⊢
      cases step : placeField p c i f s with
      | none => simp [step] at run
      | some s1 =>
        simp only [step] at run
        simp only [Bool.false_eq_true, if_false] at run fits ⊢
        obtain ⟨o, above, aligned, below, rfl⟩ := placeField_spec packing align.1 (by omega) small step
        obtain ⟨isAlign, low, -⟩ := fieldAlign_spec (p := p) packing align.1
        have notThere : ¬ (before i ∨ (i < i ∧ PlacedBy p c pass instanceSize i)) := by
          rintro (earlier | ⟨less, -⟩)
          · exact new i earlier ⟨f, here, by simpa using skip⟩
          · exact absurd less (Nat.lt_irrefl i)
        have placed := inv.placed.place inv.above notThere above (by rwa [alignAt_of here])
        rw [sizeAt_of here] at placed
        have inv1 : PassInv p c base
            (fun j => before j ∨ (j < i + 1 ∧ PlacedBy p c pass instanceSize j))
            ⟨o + f.size, max (fieldAlign p c f) s.minAlign, Function.update s.offset i o⟩ := by
          refine ⟨placed.mono ?_ (fun _ _ => rfl) (Nat.le_refl _), ?_⟩
          · rintro j (earlier | ⟨less, by_⟩)
            · exact .inl (.inl earlier)
            · rcases Nat.lt_succ_iff_lt_or_eq.mp less with lower | same
              · exact .inl (.inr ⟨lower, by_⟩)
              · exact .inr same
          · have above' := inv.above
            change base ≤ o + f.size
            omega
        obtain ⟨inv', grows⟩ := ih rest align.2 inv1 (by change o + f.size + _ < _; omega)
          (by change max _ _ ≤ _; omega) run
        have size : s'.realSize ≤ o + f.size + _ := grows.size
        have align' : max (fieldAlign p c f) s.minAlign ≤ s'.minAlign := grows.align
        refine ⟨inv', ⟨by omega, grows.small, by omega, ?_⟩⟩
        intro first
        exact grows.isAlign (isAlign.max first)

/-! ### All passes -/

theorem passSize_spec (pos : 0 < s.minAlign) (small : s.minAlign ≤ 128)
    (fits : max s.realSize instanceSize < 2 ^ 31) : max s.realSize instanceSize ≤ passSize instanceSize s ∧
      passSize instanceSize s ≤ max s.realSize instanceSize + 127 ∧
      (IsAlign s.minAlign → s.minAlign ∣ passSize instanceSize s) := by
  have bounds := roundUp_bounds (x := max s.realSize instanceSize) pos (by omega)
  unfold passSize
  simp only
  split
  next => exact ⟨bounds.1, by omega, fun isAlign => dvd_roundUp isAlign (by omega)⟩
  next even =>
    refine ⟨Nat.le_refl _, by omega, ?_⟩
    intro isAlign
    rw [mask_eq pos (by omega), not_not] at even
    obtain ⟨k, isPower⟩ := isAlign
    rw [isPower, Nat.and_two_pow_sub_one_eq_mod] at even
    rw [isPower]
    exact Nat.dvd_of_mod_eq_zero even

theorem passRoom_add (first second : Nat) (aware : gcAwareLayout c = true) (fields : List MonoClassField) :
    passRoom p c 0 first fields + passRoom p c 1 second fields ≤ room p fields := by
  induction fields with
  | nil => exact Nat.le_refl 0
  | cons f fields ih =>
    have either : skipped p c 0 first f = true ∨ skipped p c 1 second f = true := by
      cases references : f.holdsReferences with
      | true => exact .inr (by simp [skipped, aware, references])
      | false => exact .inl (by simp [skipped, aware, references])
    rw [passRoom, passRoom, room]
    rcases either with skip | skip <;> simp only [skip, if_true] <;> split <;> omega

theorem passRoom_le (pass instanceSize : Nat) (fields : List MonoClassField) :
    passRoom p c pass instanceSize fields ≤ room p fields := by
  induction fields with
  | nil => exact Nat.le_refl 0
  | cons f fields ih =>
    rw [passRoom, room]
    split <;> omega

/-- Where the layout starts from. -/
structure StartOk (p : Platform) (c : MonoClass) (base instanceSize minAlign : Nat) : Prop where
  packing : c.packingSize = 0 ∨ IsAlign c.packingSize
  align : ∀ f ∈ c.fields, IsAlign f.align ∧ f.align ≤ 128
  object : p.objectSize ≤ base
  base : base ≤ instanceSize
  sizes : instanceSize + room p c.fields + 256 < 2 ^ 31
  pos : 0 < minAlign
  small : minAlign ≤ 128

/-- What the passes leave behind. -/
structure PassesDone (p : Platform) (c : MonoClass) (base instanceSize minAlign size : Nat) (s : PassState) :
    Prop where
  inv : PassInv p c base (fun i => ∃ f, c.fields[i]? = some f ∧ f.isDeleted = false ∧ f.isStatic = false ∧
    isFiller p c instanceSize f = false) s
  high : s.realSize ≤ size
  grows : instanceSize ≤ size
  align : minAlign ≤ s.minAlign
  small : s.minAlign ≤ 128
  isAlign : IsAlign minAlign → IsAlign s.minAlign
  rounded : IsAlign s.minAlign → s.minAlign ∣ size

theorem runPass_spec {pass : Nat} {before : Nat → Prop} (packing : c.packingSize = 0 ∨ IsAlign c.packingSize)
    (align : ∀ f ∈ c.fields, IsAlign f.align ∧ f.align ≤ 128)
    (new : ∀ j, before j → ¬ PlacedBy p c pass instanceSize j) (inv : PassInv p c base before s)
    (fits : max (s.realSize + passRoom p c pass instanceSize c.fields) instanceSize < 2 ^ 31) (pos : 0 < s.minAlign)
    (small : s.minAlign ≤ 128) (run : runPass p c pass instanceSize s = some (size, s')) :
    PassInv p c base (fun j => before j ∨ PlacedBy p c pass instanceSize j) s' ∧
      PassGrows (passRoom p c pass instanceSize c.fields) s s' ∧
      max s'.realSize instanceSize ≤ size ∧ size ≤ max s'.realSize instanceSize + 127 ∧
      (IsAlign s'.minAlign → s'.minAlign ∣ size) := by
  rw [runPass] at run
  cases loop : passLoop p c pass instanceSize 0 c.fields s with
  | none => simp [loop] at run
  | some s1 =>
    simp only [loop] at run
    obtain ⟨rfl, rfl⟩ := Prod.mk.inj (Option.some.inj run)
    have start : PassInv p c base (fun j => before j ∨ (j < 0 ∧ PlacedBy p c pass instanceSize j)) s := by
      refine inv.mono ?_
      rintro j (earlier | ⟨less, -⟩)
      · exact earlier
      · exact absurd less (Nat.not_lt_zero j)
    obtain ⟨inv', grows⟩ := passLoop_spec packing new c.fields rfl align start (by omega) small loop
    have size := grows.size
    have above := grows.align
    exact ⟨inv', grows, passSize_spec (by omega) grows.small (by omega)⟩

theorem runPasses_one (ok : StartOk p c base instanceSize minAlign) (aware : gcAwareLayout c = false)
    (run : runPasses p c instanceSize ⟨base, minAlign, offset⟩ = some (size, s')) :
    PassesDone p c base instanceSize minAlign size s' := by
  rw [runPasses] at run
  cases first : runPass p c 0 instanceSize ⟨base, minAlign, offset⟩ with
  | none => simp [first] at run
  | some result =>
    obtain ⟨size1, s1⟩ := result
    simp only [first, aware] at run
    obtain ⟨rfl, rfl⟩ := Prod.mk.inj (Option.some.inj run)
    have roomLe := passRoom_le (p := p) (c := c) 0 instanceSize c.fields
    have sizes := ok.sizes
    have less := ok.base
    have start : PassInv p c base (fun _ => False) ⟨base, minAlign, offset⟩ :=
      ⟨placed_none fun _ => id, Nat.le_refl base⟩
    obtain ⟨inv, grows, high, -, rounded⟩ := runPass_spec ok.packing ok.align (fun _ none => none.elim) start
      (by change max (base + _) _ < _; omega) ok.pos ok.small first
    refine ⟨inv.mono ?_, by omega, by omega, grows.align, grows.small, grows.isAlign, rounded⟩
    rintro i ⟨f, here, kept, isInstance, notFiller⟩
    exact .inr ⟨f, here, by simp [skipped, kept, isInstance, aware, notFiller]⟩

theorem runPasses_two (ok : StartOk p c base instanceSize minAlign) (aware : gcAwareLayout c = true)
    (run : runPasses p c instanceSize ⟨base, minAlign, offset⟩ = some (size, s')) :
    PassesDone p c base instanceSize minAlign size s' := by
  rw [runPasses] at run
  cases first : runPass p c 0 instanceSize ⟨base, minAlign, offset⟩ with
  | none => simp [first] at run
  | some result =>
    obtain ⟨size1, s1⟩ := result
    simp only [first, aware, if_true] at run
    have roomLe := passRoom_add (p := p) instanceSize size1 aware c.fields
    have sizes := ok.sizes
    have less := ok.base
    have object := ok.object
    have start : PassInv p c base (fun _ => False) ⟨base, minAlign, offset⟩ :=
      ⟨placed_none fun _ => id, Nat.le_refl base⟩
    obtain ⟨inv1, grows1, high1, low1, -⟩ := runPass_spec ok.packing ok.align (fun _ none => none.elim) start
      (by change max (base + _) _ < _; omega) ok.pos ok.small first
    have size1Le : s1.realSize ≤ base + passRoom p c 0 instanceSize c.fields := grows1.size
    have align1 : minAlign ≤ s1.minAlign := grows1.align
    have pos := ok.pos
    have others : ∀ j, (False ∨ PlacedBy p c 0 instanceSize j) → ¬ PlacedBy p c 1 size1 j := by
      rintro j (none | ⟨f, here, taken⟩) ⟨f', here', taken'⟩
      · exact none
      · rw [here] at here'
        obtain rfl := Option.some.inj here'
        cases references : f.holdsReferences <;> simp [skipped, aware, references] at taken taken'
    obtain ⟨inv2, grows2, high2, -, rounded⟩ := runPass_spec ok.packing ok.align others inv1
      (by omega) (by omega) grows1.small run
    have align2 := grows2.align
    refine ⟨inv2.mono ?_, by omega, by omega, by omega, grows2.small,
      fun isAlign => grows2.isAlign (grows1.isAlign isAlign), rounded⟩
    rintro i ⟨f, here, kept, isInstance, notFiller⟩
    cases references : f.holdsReferences with
    | true => exact .inl (.inr ⟨f, here, by simp [skipped, kept, isInstance, aware, references, notFiller]⟩)
    | false =>
      -- The first pass does not make an instance as small as an object again.
      have notFiller1 : isFiller p c size1 f = false := by
        by_cases same : size1 = p.objectSize
        · have before : instanceSize = p.objectSize := by omega
          rw [before] at notFiller
          rwa [same]
        · simp [isFiller, same]
      exact .inr ⟨f, here, by simp [skipped, kept, isInstance, aware, references, notFiller1]⟩

theorem runPasses_spec (ok : StartOk p c base instanceSize minAlign)
    (run : runPasses p c instanceSize ⟨base, minAlign, offset⟩ = some (size, s')) :
    PassesDone p c base instanceSize minAlign size s' := by
  cases aware : gcAwareLayout c with
  | false => exact runPasses_one ok aware run
  | true => exact runPasses_two ok aware run

/-! ### Explicit layouts -/

theorem explicitLoop_align (fields : List MonoClassField) :
    ∀ {i : Nat} {s s' : PassState}, (∀ f ∈ fields, IsAlign f.align ∧ f.align ≤ 128) → s.minAlign ≤ 128 →
      explicitLoop p i fields s = some s' →
      s'.minAlign ≤ 128 ∧ s.minAlign ≤ s'.minAlign ∧ (IsAlign s.minAlign → IsAlign s'.minAlign) := by
  induction fields with
  | nil =>
    intro i s s' _ small run
    obtain rfl := Option.some.inj run
    exact ⟨small, Nat.le_refl _, id⟩
  | cons f fields ih =>
    intro i s s' align small run
    rw [forall_mem_cons] at align
    rw [explicitLoop] at run
    have low := align.1.2
    split at run
    next => exact ih align.2 small run
    next =>
      simp only [raiseAlign_eq low small] at run
      split at run
      next => cases run
      next =>
        obtain ⟨small', above, isAlign⟩ := ih align.2 (by change max _ _ ≤ _; omega) run
        have above' : max f.align s.minAlign ≤ s'.minAlign := above
        exact ⟨small', by omega, fun first => isAlign (align.1.1.max first)⟩

theorem explicitLoop_spec (start : Nat → Nat) (fields : List MonoClassField) :
    ∀ {i : Nat} {s s' : PassState}, c.fields.drop i = fields →
      (∀ j f, c.fields[j]? = some f → f.isDeleted = false → f.isStatic = false →
        start j + p.objectSize + f.size < 2 ^ 31) → (∀ j, i ≤ j → s.offset j = start j) →
      (∀ j f, j < i → c.fields[j]? = some f → f.isDeleted = false → f.isStatic = false →
        s.offset j = start j + p.objectSize ∧ s.offset j + f.size ≤ s.realSize) →
      explicitLoop p i fields s = some s' → ∀ j f, c.fields[j]? = some f → f.isDeleted = false → f.isStatic = false →
        s'.offset j = start j + p.objectSize ∧ s'.offset j + f.size ≤ s'.realSize := by
  induction fields with
  | nil =>
    intro i s s' ended _ _ done run j f here
    obtain rfl := Option.some.inj run
    have inside := (List.getElem?_eq_some_iff.mp here).1
    have length := drop_eq_nil_iff.mp ended
    exact done j f (by omega) here
  | cons f fields ih =>
    intro i s s' split fits later done run
    obtain ⟨here, rest⟩ := drop_cons split
    rw [explicitLoop] at run
    by_cases skip : (f.isDeleted || f.isStatic) = true
    · rw [if_pos skip] at run
      refine ih rest fits (fun j less => later j (by omega)) ?_ run
      intro j f' less here' kept isInstance
      rcases Nat.lt_succ_iff_lt_or_eq.mp less with lower | rfl
      · exact done j f' lower here' kept isInstance
      · rw [here] at here'
        obtain rfl := Option.some.inj here'
        simp [kept, isInstance] at skip
    · rw [if_neg skip] at run
      simp only [Bool.not_eq_true, Bool.or_eq_false_iff] at skip
      have room := fits i f here skip.1 skip.2
      have moved : wrap (s.offset i + p.objectSize) = start i + p.objectSize := by
        rw [later i (Nat.le_refl i)]
        exact wrap_of_lt (by omega)
      have ended : wrap (f.size + (start i + p.objectSize)) = f.size + (start i + p.objectSize) :=
        wrap_of_lt (by omega)
      simp only [moved, ended] at run
      split at run
      next => cases run
      next =>
        refine ih rest fits ?_ ?_ run
        · intro j less
          change Function.update s.offset i _ j = start j
          rw [Function.update_of_ne (by omega)]
          exact later j (by omega)
        · intro j f' less here' kept isInstance
          change Function.update s.offset i _ j = _ ∧ Function.update s.offset i _ j + _ ≤ max _ _
          rcases Nat.lt_succ_iff_lt_or_eq.mp less with lower | rfl
          · rw [Function.update_of_ne (by omega)]
            have earlier := done j f' lower here' kept isInstance
            exact ⟨earlier.1, by omega⟩
          · rw [here] at here'
            obtain rfl := Option.some.inj here'
            rw [Function.update_self]
            exact ⟨rfl, by omega⟩

/-! ### Static fields -/

theorem staticAlignAt_of (here : c.fields[i]? = some f) : staticAlignAt c i = f.align := by
  rw [staticAlignAt, here]

/-- The static fields are placed one behind the other, and the instance fields stay where they are. -/
theorem staticLoop_spec (fields : List MonoClassField) :
    ∀ {i classSize classSize' : Nat} {offset offset' : Nat → Nat}, c.fields.drop i = fields →
      (∀ f ∈ fields, IsAlign f.align ∧ f.align ≤ 128) →
      Placed 0 classSize (sizeAt c) (staticAlignAt c) offset (fun j => j < i ∧ IsStaticPlaced c j) →
      classSize + room p fields < 2 ^ 31 → staticLoop i fields classSize offset = some (classSize', offset') →
      Placed 0 classSize' (sizeAt c) (staticAlignAt c) offset' (IsStaticPlaced c) ∧
        ∀ j f, c.fields[j]? = some f → f.isStatic = false → offset' j = offset j := by
  induction fields with
  | nil =>
    intro i classSize classSize' offset offset' ended _ placed _ run
    obtain ⟨rfl, rfl⟩ := Prod.mk.inj (Option.some.inj run)
    refine ⟨placed.mono ?_ (fun _ _ => rfl) (Nat.le_refl _), fun _ _ _ _ => rfl⟩
    rintro j ⟨f, here, isStatic⟩
    have inside := (List.getElem?_eq_some_iff.mp here).1
    have length := drop_eq_nil_iff.mp ended
    exact ⟨by omega, f, here, isStatic⟩
  | cons f fields ih =>
    intro i classSize classSize' offset offset' split align placed fits run
    obtain ⟨here, rest⟩ := drop_cons split
    rw [forall_mem_cons] at align
    rw [staticLoop] at run
    rw [room] at fits
    by_cases skip : (!f.isStatic || f.isLiteral || f.isDeleted) = true
    · rw [if_pos skip] at run
      refine ih rest align.2 (placed.mono ?_ (fun _ _ => rfl) (Nat.le_refl _)) (by omega) run
      rintro j ⟨less, f', here', isStatic, notLiteral, kept⟩
      refine ⟨?_, f', here', isStatic, notLiteral, kept⟩
      rcases Nat.lt_succ_iff_lt_or_eq.mp less with lower | rfl
      · exact lower
      · rw [here] at here'
        obtain rfl := Option.some.inj here'
        simp [isStatic, notLiteral, kept] at skip
    · rw [if_neg skip] at run
      split at run
      next => cases run
      next =>
        simp only [Bool.not_eq_true, Bool.or_eq_false_iff, Bool.not_eq_false'] at skip
        have pos := align.1.1.pos
        have fitsHere : classSize + f.align < 2 ^ 32 := by omega
        obtain ⟨above, below⟩ := roundUp_bounds pos fitsHere
        have moved : wrap (roundUp classSize f.align + f.size) = roundUp classSize f.align + f.size :=
          wrap_of_lt (by omega)
        simp only [moved] at run
        have placed1 := placed.place (Nat.zero_le _) (fun there => absurd there.1 (Nat.lt_irrefl i)) above
          (by rw [staticAlignAt_of here]; exact dvd_roundUp align.1.1 fitsHere)
        rw [sizeAt_of here] at placed1
        obtain ⟨placed', frame⟩ := ih rest align.2 (placed1.mono (by
          rintro j ⟨less, isStatic⟩
          rcases Nat.lt_succ_iff_lt_or_eq.mp less with lower | same
          · exact .inl ⟨lower, isStatic⟩
          · exact .inr same) (fun _ _ => rfl) (Nat.le_refl _)) (by omega) run
        refine ⟨placed', ?_⟩
        intro j f' here' isInstance
        rw [frame j f' here' isInstance]
        refine Function.update_of_ne ?_ _ _
        rintro rfl
        rw [here] at here'
        obtain rfl := Option.some.inj here'
        rw [isInstance] at skip
        cases skip.1.1

/-! ### The class -/

/-- What the layout of a class needs from its parent. -/
structure ParentOk (p : Platform) (parent : Option ClassLayout) : Prop where
  object : p.objectSize ≤ baseSize p parent
  pos : 0 < baseAlign parent
  small : baseAlign parent ≤ 128
  isAlign : p.isX8664 → IsAlign (baseAlign parent)

theorem baseSize_le_startSize (p : Platform) (parent : Option ClassLayout) (c : MonoClass) :
    baseSize p parent ≤ startSize p parent c := by
  unfold startSize
  split
  next => exact Nat.le_max_right _ _
  next => exact Nat.le_refl _

theorem WellFormed.startOk (wellFormed : WellFormed p parent c) (above : ParentOk p parent) :
    StartOk p c (baseSize p parent) (startSize p parent c) (baseAlign parent) where
  packing := wellFormed.packing
  align := wellFormed.align
  object := above.object
  base := baseSize_le_startSize p parent c
  sizes := wellFormed.sizes
  pos := above.pos
  small := above.small

/-- The alignment of a small class: larger than before only if it is what the instance adds to an object. -/
theorem smallMinAlign_spec (small : minAlign ≤ 128) (object : p.objectSize ≤ size) :
    minAlign ≤ smallMinAlign p c size minAlign ∧ smallMinAlign p c size minAlign ≤ 128 ∧
      (p.isX8664 → smallMinAlign p c size minAlign = minAlign) ∧ (smallMinAlign p c size minAlign = minAlign ∨
        (smallMinAlign p c size minAlign = size - p.objectSize ∧ size - p.objectSize ≤ p.pointerSize)) := by
  have few : p.pointerSize ≤ 8 := by
    rcases p.isPointer with four | eight <;> omega
  unfold smallMinAlign
  split
  next => exact ⟨Nat.le_refl _, small, fun _ => rfl, .inl rfl⟩
  next other =>
    rw [not_or] at other
    split
    next little =>
      rw [raiseAlign_eq (by omega) small]
      refine ⟨by omega, by omega, fun isX8664 => absurd isX8664 other.1, ?_⟩
      rcases Nat.le_total (size - p.objectSize) minAlign with less | more
      · exact .inl (Nat.max_eq_right less)
      · exact .inr ⟨Nat.max_eq_left more, by omega⟩
    next => exact ⟨Nat.le_refl _, small, fun _ => rfl, .inl rfl⟩

/-- A size that adds a power of two of at most a pointer to an object is a multiple of it. -/
theorem dvd_of_small (object : p.objectSize ≤ size) (isAlign : IsAlign (size - p.objectSize))
    (little : size - p.objectSize ≤ p.pointerSize) : size - p.objectSize ∣ size := by
  have pointer := isAlign.dvd_of_le (isAlign_pointer p) little
  have header : size - p.objectSize ∣ p.objectSize := Dvd.dvd.mul_left pointer 2
  have sum : size = p.objectSize + (size - p.objectSize) := by omega
  rw [sum, Nat.add_sub_cancel_left]
  exact Nat.dvd_add header (Nat.dvd_refl _)

theorem layoutInstance_auto {start : ClassLayout} (auto : c.layout ≠ .explicit) :
    layoutInstance p c base start = runPasses p c start.instanceSize ⟨base, start.minAlign, start.offset⟩ := by
  unfold layoutInstance
  cases layout : c.layout with
  | auto | sequential => rfl
  | explicit => exact absurd layout auto

theorem layoutOk_of_empty (above : ParentOk p parent) (empty : c.fields = []) :
    LayoutOk p parent gtd c ⟨startSize p parent c, baseAlign parent, 0, startOffset gtd c⟩ where
  auto _ some := absurd empty some
  explicit_ _ _ i f here := by simp [empty] at here
  static := placed_none fun i => by
    rintro ⟨f, here, -⟩
    simp [empty] at here
  isAlign := above.isAlign

theorem startOffset_explicit (explicit_ : c.layout = .explicit) (here : c.fields[i]? = some f)
    (kept : f.isDeleted = false) : startOffset none c i = f.metadataOffset := by
  simp [startOffset, here, kept, explicit_]

/-- What is known after the instance fields. -/
structure InstanceDone (p : Platform) (parent gtd : Option ClassLayout) (c : MonoClass) (size : Nat)
    (s : PassState) : Prop where
  auto : c.layout ≠ .explicit →
    Placed (baseSize p parent) size (sizeAt c) (alignAt p c) s.offset (IsPlaced p parent c)
  rounded : c.layout ≠ .explicit → IsAlign s.minAlign → s.minAlign ∣ size
  explicit_ : c.layout = .explicit → gtd = none →
    ∀ i f, c.fields[i]? = some f → f.isDeleted = false → f.isStatic = false →
      s.offset i = f.metadataOffset + p.objectSize ∧ s.offset i + f.size ≤ size
  grows : startSize p parent c ≤ size
  pos : 0 < s.minAlign
  small : s.minAlign ≤ 128
  isAlign : p.isX8664 → IsAlign s.minAlign

theorem layoutInstance_spec (above : ParentOk p parent) (wellFormed : WellFormed p parent c)
    (run : layoutInstance p c (baseSize p parent)
      ⟨startSize p parent c, baseAlign parent, 0, startOffset gtd c⟩ = some (size, s)) :
    InstanceDone p parent gtd c size s := by
  by_cases explicit_ : c.layout = .explicit
  · simp only [layoutInstance, explicit_] at run
    split at run
    next => cases run
    next s1 loop =>
      obtain ⟨rfl, rfl⟩ := Prod.mk.inj (Option.some.inj run)
      obtain ⟨small, low, isAlign⟩ := explicitLoop_align c.fields wellFormed.align above.small loop
      refine ⟨fun auto => absurd explicit_ auto, fun auto => absurd explicit_ auto, ?_, by omega,
        above.pos.trans_le low, small, fun isX8664 => isAlign (above.isAlign isX8664)⟩
      rintro - rfl i f here kept isInstance
      have placed := explicitLoop_spec (startOffset none c) c.fields rfl (by
        intro j f' here' kept' _
        rw [startOffset_explicit explicit_ here' kept']
        exact wellFormed.offsets explicit_ f' (mem_of_getElem? here')) (fun _ _ => rfl)
        (fun _ _ less => absurd less (Nat.not_lt_zero _)) loop i f here kept isInstance
      rw [startOffset_explicit explicit_ here kept] at placed
      exact ⟨placed.1, by omega⟩
  · rw [layoutInstance_auto explicit_] at run
    have done := runPasses_spec (wellFormed.startOk above) run
    refine ⟨?_, fun _ => done.rounded, fun other => absurd other explicit_, done.grows,
      above.pos.trans_le done.align, done.small, fun isX8664 => done.isAlign (above.isAlign isX8664)⟩
    intro _
    exact done.inv.placed.mono (fun _ => id) (fun _ _ => rfl) done.high

theorem monoClassSetupFields_spec {l : ClassLayout} (above : ParentOk p parent) (wellFormed : WellFormed p parent c)
    (setup : monoClassSetupFields p parent gtd c = some l) : LayoutOk p parent gtd c l ∧ ParentOk p (some l) := by
  have object := above.object
  have start := baseSize_le_startSize p parent c
  simp only [monoClassSetupFields] at setup
  split at setup
  next => cases setup
  next =>
    split at setup
    next empty =>
      obtain rfl := Option.some.inj setup
      exact ⟨layoutOk_of_empty above empty, object.trans start, above.pos, above.small, above.isAlign⟩
    next =>
      split at setup
      next =>
        rw [monoClassLayoutFields] at setup
        split at setup
        next => cases setup
        next size s run =>
          split at setup
          next => cases setup
          next classSize offset statics =>
            obtain rfl := Option.some.inj setup
            have done := layoutInstance_spec above wellFormed run
            have grows := done.grows
            have sizes := wellFormed.sizes
            have noStatics : Placed 0 0 (sizeAt c) (staticAlignAt c) s.offset
                (fun j => j < 0 ∧ IsStaticPlaced c j) :=
              placed_none fun _ both => absurd both.1 (Nat.not_lt_zero _)
            obtain ⟨static, frame⟩ := staticLoop_spec (p := p) c.fields rfl wellFormed.align noStatics
              (by omega) statics
            obtain ⟨low, small, isX8664, either⟩ := smallMinAlign_spec (p := p) done.small
              (show p.objectSize ≤ size by omega)
            refine ⟨⟨?_, ?_, static, ?_⟩, by change _ ≤ size; omega, done.pos.trans_le low, small, ?_⟩
            · intro auto _
              refine ⟨(done.auto auto).mono (fun _ => id) ?_ (Nat.le_refl _), ?_⟩
              · rintro i ⟨f, here, -, isInstance, -⟩
                exact frame i f here isInstance
              · change IsAlign (smallMinAlign p c size s.minAlign) → smallMinAlign p c size s.minAlign ∣ size
                intro isAlign
                rcases either with same | ⟨little, few⟩
                · rw [same] at isAlign ⊢
                  exact done.rounded auto isAlign
                · rw [little] at isAlign ⊢
                  exact dvd_of_small (by omega) isAlign few
            · intro explicit_ definition i f here kept isInstance
              have placed := done.explicit_ explicit_ definition i f here kept isInstance
              rw [← frame i f here isInstance] at placed
              exact placed
            · intro is64
              rw [isX8664 is64]
              exact done.isAlign is64
            · intro is64
              rw [isX8664 is64]
              exact done.isAlign is64
      next => cases setup

theorem Laid.parentOk (laid : Laid p parent) : ParentOk p parent := by
  induction laid with
  | root =>
    exact ⟨Nat.le_refl _, Nat.one_pos, by decide, fun _ => ⟨0, rfl⟩⟩
  | derived _ wellFormed setup ih => exact (monoClassSetupFields_spec ih wellFormed setup).2

/-- The fields of every class of a hierarchy are placed apart, aligned and inside. -/
theorem monoClassSetupFields_placed (p : Platform) (parent gtd : Option ClassLayout) (c : MonoClass)
    (l : ClassLayout)
    (laid : Laid p parent)
    (wellFormed : WellFormed p parent c)
    (setup : monoClassSetupFields p parent gtd c = some l) :
    LayoutOk p parent gtd c l :=
  (monoClassSetupFields_spec laid.parentOk wellFormed setup).1

/-! ### Samples -/

def amd64 : Platform := ⟨8, true, .inr rfl⟩
def arm64 : Platform := ⟨8, false, .inr rfl⟩

/-- An instance field of a primitive type with this size. -/
def plainField (name : String) (size metadataOffset : Nat) : MonoClassField :=
  ⟨name, false, false, false, size, size, false, false, false, false, metadataOffset⟩

def referenceField (name : String) : MonoClassField :=
  ⟨name, false, false, false, 8, 8, true, false, false, false, 0⟩

def staticField (name : String) (size : Nat) : MonoClassField :=
  ⟨name, true, false, false, size, size, false, false, false, false, 0⟩

/-- A class outside of corlib. -/
def sampleClass (layout : Layout) (declared : Option (Nat × Nat)) (fields : List MonoClassField) : MonoClass :=
  ⟨"Sample", false, false, false, layout, declared, fields⟩

def sampleParent : MonoClass :=
  sampleClass .auto none [plainField "flag" 1 0]

/-- References between other fields, a packing size and a static field. -/
def sampleDerived : MonoClass :=
  sampleClass .auto (some (4, 0))
    [plainField "small" 2 0, referenceField "next", staticField "count" 4, plainField "large" 8 0]

theorem smallAlign_sample : IsAlign 1 ∧ IsAlign 2 ∧ IsAlign 4 ∧ IsAlign 8 :=
  ⟨⟨0, rfl⟩, ⟨1, rfl⟩, ⟨2, rfl⟩, ⟨3, rfl⟩⟩

theorem wellFormed_sampleParent : WellFormed amd64 none sampleParent where
  align := by
    rw [sampleParent, sampleClass, forall_mem_singleton]
    exact ⟨smallAlign_sample.1, by decide⟩
  packing := .inl rfl
  sizes := by decide
  declared _ _ none := nomatch none
  offsets explicit_ := nomatch explicit_

/-- The layout of a class that loads. -/
def layoutOf (p : Platform) (parent gtd : Option ClassLayout) (c : MonoClass) : ClassLayout :=
  (monoClassSetupFields p parent gtd c).getD ⟨0, 0, 0, fun _ => 0⟩

theorem setup_sampleParent :
    monoClassSetupFields amd64 none none sampleParent = some (layoutOf amd64 none none sampleParent) :=
  rfl

theorem wellFormed_sampleDerived : WellFormed amd64 (some (layoutOf amd64 none none sampleParent)) sampleDerived where
  align := by
    obtain ⟨-, two, four, eight⟩ := smallAlign_sample
    simp only [sampleDerived, sampleClass, forall_mem_cons, not_mem_nil, false_implies, implies_true]
    exact ⟨⟨two, by decide⟩, ⟨eight, by decide⟩, ⟨four, by decide⟩, ⟨eight, by decide⟩, trivial⟩
  packing := .inr smallAlign_sample.2.2.1
  sizes := by decide
  declared packing size declared := by
    obtain ⟨-, rfl⟩ := Prod.mk.inj (Option.some.inj declared)
    decide
  offsets explicit_ := nomatch explicit_

theorem monoClassSetupFields_placed_sample :
    LayoutOk amd64 (some (layoutOf amd64 none none sampleParent)) none sampleDerived
      (layoutOf amd64 (some (layoutOf amd64 none none sampleParent)) none sampleDerived) :=
  monoClassSetupFields_placed amd64 _ none sampleDerived _
    (.derived .root wellFormed_sampleParent setup_sampleParent) wellFormed_sampleDerived rfl

/-- An explicit layout with a field behind the header. -/
def explicitClass : MonoClass :=
  sampleClass .explicit none [plainField "x" 4 0]

/-- An empty structure with its filler. -/
def fillerClass : MonoClass :=
  sampleClass .sequential none [plainField "$PRIVATE$" 1 0]

/-- A structure of three bytes. -/
def bytesClass : MonoClass :=
  sampleClass .sequential none [plainField "a" 1 0, plainField "b" 1 0, plainField "c" 1 0]

/-- An instance of a generic class gets the header twice, the filler of an empty structure is not placed, and three
bytes are not a multiple of their alignment where small classes raise it. -/
theorem monoClassSetupFields_misplaces :
    ¬ ExplicitPlaced amd64 explicitClass
        (layoutOf amd64 none (some (layoutOf amd64 none none explicitClass)) explicitClass) ∧
      ¬ baseSize amd64 none ≤ (layoutOf amd64 none none fillerClass).offset 0 ∧
      ¬ (layoutOf arm64 none none bytesClass).minAlign ∣ (layoutOf arm64 none none bytesClass).instanceSize := by
  refine ⟨?_, by decide, by decide⟩
  intro placed
  exact absurd (placed 0 (plainField "x" 4 0) rfl rfl rfl).1 (by decide)

end MonoRuntime.FieldLayout
