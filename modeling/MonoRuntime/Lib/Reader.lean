/-
Module: MonoRuntime.Lib.Reader
Purpose: Readers of values from the front of a list of symbols, as computations on what is left of it. A
  reader reads a value from some symbols when it consumes exactly these, whatever comes after them; this
  composes along the structure of a reader, so that a format is read back piece by piece.
Trusted boundary: none
Main exports: Reader
-/
import Mathlib.Data.List.Basic

namespace MonoRuntime

/-- A computation that reads from the front of a list of symbols; `none` where the symbols end too early. -/
def Reader (σ α : Type) : Type := List σ → Option (α × List σ)

namespace Reader

variable {σ α β : Type}

instance : Monad (Reader σ) where
  pure a := fun symbols => some (a, symbols)
  bind r f := fun symbols =>
    match r symbols with
    | none => none
    | some (a, rest) => f a rest

/-- The next symbol. -/
def next : Reader σ σ
  | [] => none
  | s :: rest => some (s, rest)

/-- The next symbol, which stays where it is. -/
def peek : Reader σ σ
  | [] => none
  | s :: rest => some (s, s :: rest)

/-- A failed assertion. -/
def fail : Reader σ α := fun _ => none

/-- Read `n` values, one after the other. -/
def many (r : Reader σ α) : Nat → Reader σ (List α)
  | 0 => pure []
  | n + 1 => do
      let a ← r
      let as ← many r n
      pure (a :: as)

/-- The reader reads the value from the symbols and leaves what comes after them. -/
def Reads (r : Reader σ α) (symbols : List σ) (a : α) : Prop :=
  ∀ rest, r (symbols ++ rest) = some (a, rest)

theorem reads_pure (a : α) : Reads (pure a : Reader σ α) [] a :=
  fun _ => rfl

theorem reads_next (s : σ) : Reads next [s] s :=
  fun _ => rfl

variable {r : Reader σ α} {f : α → Reader σ β} {front back symbols : List σ} {a : α} {b : β}

theorem reads_bind (first : Reads r front a) (second : Reads (f a) back b) : Reads (r >>= f) (front ++ back) b := by
  intro rest
  have run := first (back ++ rest)
  rw [← List.append_assoc] at run
  simp only [bind, run]
  exact second rest

theorem bind_assoc {γ : Type} (r : Reader σ α) (f : α → Reader σ β) (g : β → Reader σ γ) :
    r >>= f >>= g = r >>= fun a => f a >>= g := by
  funext symbols
  simp only [bind]
  cases r symbols with
  | none | some read => rfl

theorem reads_bind_nothing (first : Reads r [] a) (second : Reads (f a) symbols b) : Reads (r >>= f) symbols b :=
  reads_bind first second

theorem reads_bind_pure {f : α → β}
    (first : Reads r symbols a) : Reads (r >>= fun a => pure (f a)) symbols (f a) := by
  have run : Reads (r >>= fun a => pure (f a)) (symbols ++ []) (f a) :=
    reads_bind first (reads_pure (f a))
  rwa [List.append_nil] at run

theorem reads_many {write : β → List σ} {value : β → α} : ∀ (values : List β),
    (∀ b ∈ values, Reads r (write b) (value b)) → Reads (many r values.length) (values.flatMap write) (values.map value)
  | [], _ => reads_pure []
  | b :: values, each => by
      have rest := reads_many values fun b' member => each b' (List.mem_cons_of_mem b member)
      exact reads_bind (each b List.mem_cons_self) (reads_bind_pure rest)

theorem reads_list {write : α → List σ} (values : List α)
    (each : ∀ a, Reads r (write a) a) : Reads (many r values.length) (values.flatMap write) values := by
  have all := reads_many values fun a _ => each a
  rwa [List.map_id'] at all

theorem reads_symbols : ∀ symbols : List σ, Reads (many next symbols.length) symbols symbols
  | [] => reads_pure []
  | s :: symbols => reads_bind (reads_next s) (reads_bind_pure (reads_symbols symbols))

/-- A run of two readers after each other goes on behind what the first one reads. -/
theorem Reads.bind_run (first : Reads r front a) (back : List σ) : (r >>= f) (front ++ back) = f a back := by
  simp only [bind, first back]

/-- What two readers read after each other, the second one reads behind the first. -/
theorem Reads.behind (first : Reads r front a) (both : Reads (r >>= f) (front ++ back) b) : Reads (f a) back b := by
  intro rest
  have run := both rest
  rw [List.append_assoc, first.bind_run] at run
  exact run

theorem bind_eq_some {rest : List σ} (run : (r >>= f) symbols = some (b, rest)) :
    ∃ a middle, r symbols = some (a, middle) ∧ f a middle = some (b, rest) := by
  simp only [bind] at run
  split at run
  · cases run
  · next a middle first => exact ⟨a, middle, first, run⟩

theorem next_eq_some {symbols rest : List σ} {s : σ} (run : next symbols = some (s, rest)) : symbols = s :: rest := by
  cases symbols with
  | nil => cases run
  | cons s' rest' =>
    cases Option.some.inj run
    rfl

theorem Reads.of_bind_pure {f : α → β} (injective : ∀ a a', f a = f a' → a = a')
    (both : Reads (r >>= fun a => pure (f a)) symbols b) : ∃ a, f a = b ∧ Reads r symbols a := by
  obtain ⟨a, middle, -, own⟩ := bind_eq_some (both [])
  cases own
  refine ⟨a, rfl, ?_⟩
  intro rest
  obtain ⟨a', middle', first, other⟩ := bind_eq_some (both rest)
  have value : f a' = f a := congrArg Prod.fst (Option.some.inj other)
  have left : middle' = rest := congrArg Prod.snd (Option.some.inj other)
  rw [first, left, injective a' a value]

theorem many_length : ∀ (n : Nat) {symbols rest : List σ} {as : List α}, many r n symbols = some (as, rest) → as.length = n
  | 0, _, _, _, run => by
      cases run
      rfl
  | n + 1, _, _, _, run => by
      obtain ⟨a, middle, -, run⟩ := bind_eq_some run
      obtain ⟨as, middle', later, run⟩ := bind_eq_some run
      cases run
      rw [List.length_cons, many_length n later]

/-- The reader gives up at the symbols, whatever comes after them. -/
def Fails (r : Reader σ α) (symbols : List σ) : Prop :=
  ∀ rest, r (symbols ++ rest) = none

theorem fails_fail (symbols : List σ) : Fails (fail : Reader σ α) symbols :=
  fun _ => rfl

theorem fails_bind (first : Reads r front a) (second : Fails (f a) back) : Fails (r >>= f) (front ++ back) := by
  intro rest
  have run := first (back ++ rest)
  rw [← List.append_assoc] at run
  simp only [bind, run]
  exact second rest

theorem fails_bind_first (first : Fails r symbols) : Fails (r >>= f) symbols := by
  intro rest
  simp only [bind, first rest]

theorem Reads.unique {b : α} (one : Reads r symbols a) (other : Reads r symbols b) : a = b := by
  have same := (one []).symm.trans (other [])
  cases same
  rfl

theorem Fails.not_reads (fails : Fails r symbols) : ¬ Reads r symbols a := by
  intro reads
  have same := (fails []).symm.trans (reads [])
  cases same

end Reader

end MonoRuntime
