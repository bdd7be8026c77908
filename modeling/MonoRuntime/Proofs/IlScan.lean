/-
Module: MonoRuntime.Proofs.IlScan
Purpose: The instructions of IL code follow each other without overlap, and those with targets are decoded
  from one opcode byte.
Trusted boundary: none
Main exports: decodeIl_spec
-/
import MonoRuntime.Metadata.IlControlFlow

namespace MonoRuntime.Il

variable {code : List (BitVec 8)} {p ip value : Nat}

theorem monoOpcodeValue_spec (decoded : monoOpcodeValue code p = (ip, some value)) :
    p < code.length ∧ ip < code.length ∧ (ip = p ∨ (ip = p + 1 ∧ 256 ≤ value)) := by
  unfold monoOpcodeValue at decoded
  split at decoded
  next => cases decoded
  next inside =>
    split at decoded
    next =>
      split at decoded
      next => cases decoded
      next inside' =>
        cases decoded
        exact ⟨by omega, by omega, Or.inr ⟨rfl, Nat.le_add_left _ _⟩⟩
    next =>
      split at decoded
      next =>
        split at decoded
        next => cases decoded
        next inside' =>
          cases decoded
          refine ⟨by omega, by omega, Or.inr ⟨rfl, ?_⟩⟩
          exact Nat.le_trans (by decide) (Nat.le_add_left monoCustomPrefixOffset _)
      next =>
        cases decoded
        exact ⟨by omega, by omega, Or.inl rfl⟩

theorem decodeIl_spec (decoded : decodeIl code p = some (ip, value)) :
    ip < code.length ∧ value < monoCeeLast ∧ (ip = p ∨ (ip = p + 1 ∧ 256 ≤ value)) ∧
      ∃ size, argumentSize code ip (monoOpcodes value).argument = some size ∧ ip + size ≤ code.length := by
  unfold decodeIl at decoded
  split at decoded
  next fits =>
    cases decoded
    simp only [monoOpcodeValueAndSize] at fits
    split at fits
    next => cases fits
    next opcode =>
      split at fits
      next => cases fits
      next isOpcode =>
        split at fits
        next => cases fits
        next size isSize =>
          split at fits
          next => cases fits
          next inside =>
            cases fits
            obtain ⟨_, last, place⟩ := monoOpcodeValue_spec (Prod.ext rfl opcode)
            exact ⟨last, by omega, place, size, isSize, by omega⟩
  next => cases decoded

theorem le_of_decodeIl (decoded : decodeIl code p = some (ip, value)) : p ≤ ip ∧ p < insEnd code ip value := by
  obtain ⟨_, _, place, _⟩ := decodeIl_spec decoded
  have positive : 0 < argumentLength code ip (monoOpcodes value).argument := by
    cases (monoOpcodes value).argument <;> simp only [argumentLength] <;> omega
  have : p ≤ ip := by omega
  exact ⟨this, Nat.lt_of_le_of_lt this (Nat.lt_add_of_pos_right positive)⟩

theorem insEnd_le (decoded : decodeIl code p = some (ip, value)) :
    ((monoOpcodes value).argument ≠ .inlineSwitch → insEnd code ip value ≤ code.length) ∧
      ((monoOpcodes value).argument = .inlineSwitch → insEnd code ip value ≤ code.length + 1) := by
  obtain ⟨_, _, _, size, isSize, fits⟩ := decodeIl_spec decoded
  unfold insEnd
  cases argument : (monoOpcodes value).argument with
  | inlineSwitch =>
    rw [argument] at isSize
    refine ⟨fun ne => absurd rfl ne, fun _ => ?_⟩
    simp only [argumentSize] at isSize
    split at isSize
    next => cases isSize
    next =>
      split at isSize
      next => cases isSize
      next =>
        cases isSize
        simp only [argumentLength]
        omega
  | _ =>
    rw [argument] at isSize
    refine ⟨fun _ => ?_, fun isSwitch => by cases isSwitch⟩
    simp only [argumentSize, Option.some.injEq] at isSize
    simp only [argumentLength]
    omega

theorem last_eq_of_target (decoded : decodeIl code p = some (ip, value))
    (hasTarget : (monoOpcodes value).argument = .inlineBrTarget ∨ (monoOpcodes value).argument = .shortInlineBrTarget ∨
      (monoOpcodes value).argument = .inlineSwitch) : ip = p := by
  obtain ⟨_, isOpcode, place, _⟩ := decodeIl_spec decoded
  rcases place with same | ⟨_, isPrefixed⟩
  · exact same
  · obtain ⟨notBranch, notShort, notSwitch⟩ := inlineNone_of_prefixed isPrefixed isOpcode
    rcases hasTarget with is | is | is
    · exact absurd is notBranch
    · exact absurd is notShort
    · exact absurd is notSwitch

/-- An instruction before another address of the scan ends at it or before it: the induction is on the scan
that comes to the later address. -/
theorem ScanPos.insEnd_le {n : Nat} (later : ScanPos code n) :
    ∀ {p ip value : Nat}, ScanPos code p → decodeIl code p = some (ip, value) → p < n → insEnd code ip value ≤ n := by
  induction later with
  | first => exact fun _ _ before => absurd before (Nat.not_lt_zero _)
  | @next p0 ip0 value0 _ _ decoded0 ih =>
    -- The scan comes to no address inside the instruction at `p0`.
    have between : ∀ {p : Nat}, ScanPos code p → p ≤ p0 ∨ insEnd code ip0 value0 ≤ p := by
      intro p pos
      induction pos with
      | first => exact Or.inl (Nat.zero_le _)
      | @next p1 ip1 value1 pos1 _ decoded1 ih1 =>
        have grows := (le_of_decodeIl decoded1).2
        rcases ih1 with notAfter | after
        · rcases Nat.lt_or_eq_of_le notAfter with less | same
          · exact Or.inl (ih pos1 decoded1 less)
          · subst same
            rw [decoded1] at decoded0
            cases decoded0
            exact Or.inr (Nat.le_refl _)
        · exact Or.inr (by omega)
    intro p ip value pos decoded before
    rcases between pos with notAfter | later
    · rcases Nat.lt_or_eq_of_le notAfter with less | same
      · have bound := ih pos decoded less
        have grows := (le_of_decodeIl decoded0).2
        omega
      · subst same
        rw [decoded] at decoded0
        cases decoded0
        exact Nat.le_refl _
    · omega

theorem IsIns.insEnd_le_of_lt (ins : IsIns code p ip value) {p' ip' value' : Nat}
    (older : IsIns code p' ip' value') (before : p' < p) : insEnd code ip' value' ≤ p :=
  ins.pos.insEnd_le older.pos older.decoded before

end MonoRuntime.Il
