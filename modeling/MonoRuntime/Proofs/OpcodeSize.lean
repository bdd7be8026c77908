/-
Module: MonoRuntime.Proofs.OpcodeSize
Purpose: The size that `mono_opcode_value_and_size` returns is the length of the instruction and the distance that the
  pass over the IL moves, and the operand bytes that the pass reads lie inside the code, for every instruction but a
  switch. Of a switch it leaves out one byte.
Trusted boundary: none
Main exports: opcodeSize_agrees_iff
-/
import MonoRuntime.Proofs.IlScan

namespace MonoRuntime.Il

open BasicBlock List

/-! ### The operand bytes that are read -/

/-- The four bytes of a word. -/
def wordAt (ip : Nat) : List Nat :=
  [ip, ip + 1, ip + 2, ip + 3]

/-- The addresses of the operand bytes that `bb_formation_il_pass` reads, for an opcode that ends at `ip`. Of the targets
of a switch it reads each one that begins inside the code. -/
def operandReads (code : List (BitVec 8)) (ip : Nat) : Argument → List Nat
  | .shortInlineBrTarget => [ip + 1]
  | .inlineBrTarget => wordAt (ip + 1)
  | .inlineSwitch =>
      wordAt (ip + 1) ++ ((List.range (read32 code (ip + 1)).toNat).filter fun j => ip + 5 + 4 * j < code.length).flatMap
        fun j => wordAt (ip + 5 + 4 * j)
  | _ => []

section Reads

variable {code code' : List (BitVec 8)}

theorem read32_congr {ip : Nat} (agree : ∀ a ∈ wordAt ip, read8 code a = read8 code' a) :
    read32 code ip = read32 code' ip := by
  have first := agree ip (by simp [wordAt])
  have second := agree (ip + 1) (by simp [wordAt])
  have third := agree (ip + 2) (by simp [wordAt])
  have fourth := agree (ip + 3) (by simp [wordAt])
  unfold read32
  rw [first, second, third, fourth]

theorem switchLoop_congr (same : code.length = code'.length) (cliAddr : Nat) (offset : BitVec 32) (current : Ptr) :
    ∀ (n ip : Nat) (next : Ptr),
      (∀ j < n, ip + 4 * j < code.length → ∀ a ∈ wordAt (ip + 4 * j), read8 code a = read8 code' a) →
        switchLoop code cliAddr offset current n ip next = switchLoop code' cliAddr offset current n ip next
  | 0, _, _, _ => rfl
  | n + 1, ip, next, agree => by
      unfold switchLoop
      rw [same]
      split
      · rfl
      · next inside =>
          have word : read32 code ip = read32 code' ip := read32_congr (agree 0 (Nat.succ_pos n) (by omega))
          have later : ∀ target, switchLoop code cliAddr offset current n (ip + 4) target
              = switchLoop code' cliAddr offset current n (ip + 4) target := by
            intro target
            apply switchLoop_congr same
            intro j less within a member
            have place : ip + 4 + 4 * j = ip + 4 * (j + 1) := by omega
            rw [place] at within member
            exact agree (j + 1) (by omega) within a member
          simp only [word, later]

theorem ilInstruction_congr (same : code.length = code'.length) {ip value : Nat}
    (agree : ∀ a ∈ operandReads code ip (monoOpcodes value).argument, read8 code a = read8 code' a)
    (cliAddr : Nat) (current : Ptr) :
    ilInstruction code cliAddr ip value current = ilInstruction code' cliAddr ip value current := by
  cases is : (monoOpcodes value).argument with
  | shortInlineBrTarget =>
    rw [is] at agree
    have byte := agree (ip + 1) (mem_singleton_self _)
    simp only [ilInstruction, is, ilBranch, byte, same]
  | inlineBrTarget =>
    rw [is] at agree
    have word := read32_congr agree
    simp only [ilInstruction, is, ilBranch, word, same]
  | inlineSwitch =>
    rw [is] at agree
    have count := read32_congr fun a member => agree a (mem_append_left _ member)
    have loop : ∀ offset next, switchLoop code cliAddr offset current (read32 code (ip + 1)).toNat (ip + 5) next
        = switchLoop code' cliAddr offset current (read32 code (ip + 1)).toNat (ip + 5) next := by
      intro offset next
      apply switchLoop_congr same
      intro j less inside a member
      refine agree a (mem_append_right _ (mem_flatMap.2 ⟨j, ?_, member⟩))
      exact mem_filter.2 ⟨mem_range.2 less, decide_eq_true inside⟩
    simp only [ilInstruction, is, ilSwitch, ← count, loop]
  | _ => simp only [ilInstruction, is, same]

end Reads

/-! ### The distance that the pass moves -/

section Distance

variable {code : List (BitVec 8)} {h h' : BbHeap} {ip ip' : Nat} {current current' : Ptr}

theorem bind_ok {α β : Type} {m : BbM α} {f : α → BbM β} {b : β}
    (run : (m >>= f) h = some (h', .ok b)) : ∃ h₁ a, m h = some (h₁, .ok a) ∧ f a h₁ = some (h', .ok b) := by
  simp only [bind] at run
  split at run
  · cases run
  · cases run
  · next h₁ a first => exact ⟨h₁, a, first, run⟩

theorem splitAfter_moves (run : splitAfter current ip h = some (h', .ok (ip', current'))) : ip' = ip := by
  obtain ⟨h₁, next, -, run⟩ := bind_ok run
  obtain ⟨h₂, -, -, run⟩ := bind_ok run
  cases run
  rfl

theorem ilBranch_moves {cliAddr : Nat} {offset : BitVec 32} {flowType : FlowType}
    (run : ilBranch code cliAddr ip offset flowType current h = some (h', .ok (ip', current'))) : ip' = ip := by
  obtain ⟨h₁, branch, -, run⟩ := bind_ok run
  obtain ⟨h₂, splitCurrent, -, run⟩ := bind_ok run
  dsimp only at run
  split at run
  · obtain ⟨h₃, next, -, run⟩ := bind_ok run
    obtain ⟨h₄, -, -, run⟩ := bind_ok run
    split at run
    · obtain ⟨h₅, -, -, run⟩ := bind_ok run
      cases run
      rfl
    · cases run
      rfl
  · obtain ⟨h₃, -, -, run⟩ := bind_ok run
    cases run
    rfl

theorem ilInstruction_moves {cliAddr value : Nat} (noSwitch : (monoOpcodes value).argument ≠ .inlineSwitch)
    (run : ilInstruction code cliAddr ip value current h = some (h', .ok (ip', current'))) :
    ip' = insEnd code ip value := by
  unfold insEnd
  cases is : (monoOpcodes value).argument with
  | inlineNone | inlineMethod =>
    simp only [ilInstruction, is] at run
    split at run
    · cases run
      rfl
    · exact splitAfter_moves run
  | shortInlineBrTarget | inlineBrTarget =>
    simp only [ilInstruction, is] at run
    exact ilBranch_moves run
  | inlineSwitch => exact absurd is noSwitch
  | _ =>
    simp only [ilInstruction, is] at run
    cases run
    rfl

end Distance

/-! ### The size of an instruction -/

/-- The size is the length of the instruction, which is inside the code; the pass moves as far; and the operand bytes
that it reads are inside the code. -/
structure SizeAgrees (code : List (BitVec 8)) (p ip value size : Nat) : Prop where
  exact_ : p + size = insEnd code ip value
  inside : insEnd code ip value ≤ code.length
  moves : ∀ h h' current ip' current',
    ilInstruction code p ip value current h = some (h', .ok (ip', current')) → ip' = p + size
  reads : ∀ a ∈ operandReads code ip (monoOpcodes value).argument, a < code.length

variable {code : List (BitVec 8)} {ip size : Nat}

theorem monoOpcodeValueAndSize_spec {p value : Nat} (returned : monoOpcodeValueAndSize code p = (ip, some (value, size))) :
    p ≤ ip ∧ ∃ argument, argumentSize code ip (monoOpcodes value).argument = some argument ∧
      ip + argument ≤ code.length ∧ size = ip - p + argument := by
  rcases opcode : monoOpcodeValue code p with ⟨last, found⟩
  simp only [monoOpcodeValueAndSize, opcode] at returned
  split at returned
  · cases returned
  · next value' =>
      obtain ⟨-, -, place⟩ := monoOpcodeValue_spec opcode
      split at returned
      · cases returned
      · split at returned
        · cases returned
        · next argument is =>
            split at returned
            · cases returned
            · next inside =>
                cases returned
                exact ⟨by omega, argument, is, by omega, rfl⟩

theorem argumentSize_eq {argument : Argument} (noSwitch : argument ≠ .inlineSwitch)
    (is : argumentSize code ip argument = some size) : size = argumentLength code ip argument := by
  cases argument with
  | inlineSwitch => exact absurd rfl noSwitch
  | _ =>
    cases is
    rfl

theorem argumentSize_switch
    (is : argumentSize code ip .inlineSwitch = some size) : size + 1 = argumentLength code ip .inlineSwitch := by
  simp only [argumentSize] at is
  split at is
  · cases is
  · split at is
    · cases is
    · cases is
      simp only [argumentLength]
      omega

/-- The returned size agrees with the instruction and with the pass exactly when the instruction is no switch. A size that
an `int` cannot hold is negative there, which only the size of a switch can be. -/
theorem opcodeSize_agrees_iff (code : List (BitVec 8)) (p ip value size : Nat)
    (returned : monoOpcodeValueAndSize code p = (ip, some (value, size))) :
    SizeAgrees code p ip value size ↔ (monoOpcodes value).argument ≠ .inlineSwitch := by
  obtain ⟨before, argument, is, inside, rfl⟩ := monoOpcodeValueAndSize_spec returned
  constructor
  · intro agrees isSwitch
    have sum := agrees.exact_
    unfold insEnd at sum
    rw [isSwitch] at is sum
    have short := argumentSize_switch is
    omega
  · intro noSwitch
    have length := argumentSize_eq noSwitch is
    have sum : p + (ip - p + argument) = insEnd code ip value := by
      unfold insEnd
      omega
    refine ⟨sum, ?_, ?_, ?_⟩
    · unfold insEnd
      omega
    · intro h h' current ip' current' run
      rw [sum]
      exact ilInstruction_moves noSwitch run
    · intro a member
      cases kind : (monoOpcodes value).argument with
      | shortInlineBrTarget =>
        rw [kind] at member is
        cases is
        have place := mem_singleton.1 member
        omega
      | inlineBrTarget =>
        rw [kind] at member is
        cases is
        simp only [operandReads, wordAt, mem_cons, not_mem_nil, or_false] at member
        omega
      | inlineSwitch => exact absurd kind noSwitch
      | _ =>
        rw [kind] at member
        cases member

/-- A branch: its size is five, and so far the pass moves. -/
theorem opcodeSize_agrees_branch :
    monoOpcodeValueAndSize [0x38, 0, 0, 0, 0] 0 = (0, some (56, 5)) ∧ SizeAgrees [0x38, 0, 0, 0, 0] 0 0 56 5 := by
  refine ⟨by decide, ?_⟩
  exact (opcodeSize_agrees_iff [0x38, 0, 0, 0, 0] 0 0 56 5 (by decide)).2 (by decide)

/-- A switch without targets has five bytes and is given four; one with a target of which the last byte is missing is
accepted, and the pass reads the byte behind the code. -/
theorem opcodeSize_shortSwitch :
    monoOpcodeValueAndSize [0x45, 0, 0, 0, 0] 0 = (0, some (69, 4)) ∧ insEnd [0x45, 0, 0, 0, 0] 0 69 = 5 ∧
      monoOpcodeValueAndSize [0x45, 1, 0, 0, 0, 0, 0, 0] 0 = (0, some (69, 8)) ∧
      8 ∈ operandReads [0x45, 1, 0, 0, 0, 0, 0, 0] 0 (monoOpcodes 69).argument ∧
      ¬ ∀ code p ip value size, monoOpcodeValueAndSize code p = (ip, some (value, size)) →
        SizeAgrees code p ip value size := by
  have returned : monoOpcodeValueAndSize [0x45, 0, 0, 0, 0] 0 = (0, some (69, 4)) := by decide
  refine ⟨returned, by decide, by decide, by decide, fun all => ?_⟩
  have sum := (all _ _ _ _ _ returned).exact_
  revert sum
  decide

end MonoRuntime.Il
