/-
Module: MonoRuntime.Proofs.Dominators
Purpose: When `compute_dominators` computes the dominators. The table is a tree at any time; what lies on
  the path from a block up to the entry is squeezed between the dominators of the block and the sets of
  the plain iteration of the dominance equations, which runs in the same order. The choice of the first
  predecessor does not look at whether it was reached: an unreached one pins the block to the entry.
Trusted boundary: none
Main exports: computeDominators_correct, computeDominators_wrong
-/
import MonoRuntime.Mini.Dominators
import MonoRuntime.Lib.Dominance
import Mathlib.Data.List.TakeWhile

namespace MonoRuntime.Dominators

open Dominance List

variable {n : Nat} [NeZero n]

/-- The edges between numbered blocks. -/
def DomGraph.edge (cfg : DomGraph n) (p b : Fin n) : Prop :=
  .bb p ∈ cfg.inBb b

theorem DomGraph.exists_descending (cfg : DomGraph n) (b : Fin n) : ∃ path, Walk cfg.edge 0 path b ∧ ∀ a ∈ path, a ≤ b := by
  induction b using WellFoundedLT.induction with
  | _ b ih =>
    by_cases isEntry : b = 0
    · subst isEntry
      exact ⟨[0], Walk.start, by simp⟩
    · obtain ⟨p, lower, along⟩ := cfg.reached b isEntry
      obtain ⟨path, walk, bound⟩ := ih p lower
      refine ⟨b :: path, Walk.step walk along, ?_⟩
      intro a member
      rcases List.mem_cons.mp member with rfl | earlier
      · exact le_rfl
      · exact (bound a earlier).trans lower.le

theorem dominates_le {cfg : DomGraph n} {a b : Fin n} (dominates : Dominates cfg.edge 0 a b) : a ≤ b := by
  obtain ⟨path, walk, bound⟩ := cfg.exists_descending b
  exact bound a (dominates path walk)

/-! ### The tree in the table -/

/-- Every block in the table points to one with a lower number that is in the table; the entry points to
itself. -/
structure WellFormed (doms : Doms n) : Prop where
  entry : doms 0 = some (.bb 0)
  up : ∀ b ≠ 0, ∀ r, doms b = some r → ∃ z < b, r = .bb z ∧ (doms z).isSome

/-- `a` is met on the way from a block up the tree. -/
inductive OnChain (doms : Doms n) (a : Fin n) : Fin n → Prop where
  | here : OnChain doms a a
  | up {b z : Fin n} (idom : doms b = some (.bb z)) (rest : OnChain doms a z) : OnChain doms a b

section Chain

variable {doms : Doms n}

variable {b z a : Fin n}

theorem WellFormed.parent (wf : WellFormed doms) (notEntry : b ≠ 0)
    (isSet : (doms b).isSome) : ∃ z < b, doms b = some (.bb z) ∧ (doms z).isSome := by
  obtain ⟨r, found⟩ := Option.isSome_iff_exists.mp isSet
  obtain ⟨z, lower, rfl, isSetZ⟩ := wf.up b notEntry r found
  exact ⟨z, lower, found, isSetZ⟩

theorem WellFormed.parent_le (wf : WellFormed doms) (idom : doms b = some (.bb z)) : z ≤ b := by
  by_cases isEntry : b = 0
  · subst isEntry
    rw [wf.entry] at idom
    cases idom
    exact le_rfl
  · obtain ⟨z', lower, same, _⟩ := wf.up b isEntry _ idom
    cases same
    exact le_of_lt lower

theorem WellFormed.parent_lt (wf : WellFormed doms) (notEntry : b ≠ 0) (idom : doms b = some (.bb z)) : z < b := by
  obtain ⟨z', lower, same, _⟩ := wf.up b notEntry _ idom
  cases same
  exact lower

theorem OnChain.le (wf : WellFormed doms) (on : OnChain doms a b) : a ≤ b := by
  induction on with
  | here => exact le_rfl
  | up idom _ ih => exact le_trans ih (wf.parent_le idom)

omit [NeZero n] in
theorem OnChain.trans {c : Fin n} (first : OnChain doms a b) (second : OnChain doms b c) : OnChain doms a c := by
  induction second with
  | here => exact first
  | up idom _ ih => exact OnChain.up idom ih

theorem onChain_entry (wf : WellFormed doms) : OnChain doms a 0 ↔ a = 0 := by
  constructor
  · intro on
    have bound := on.le wf
    exact le_antisymm bound (Fin.zero_le a)
  · rintro rfl
    exact OnChain.here

theorem entry_onChain (wf : WellFormed doms) : ∀ b : Fin n, (doms b).isSome → OnChain doms 0 b := by
  intro b
  induction b using WellFoundedLT.induction with
  | _ b ih =>
    intro isSet
    by_cases isEntry : b = 0
    · rw [isEntry]
      exact OnChain.here
    · obtain ⟨z, lower, idom, isSetZ⟩ := wf.parent isEntry isSet
      exact OnChain.up idom (ih z lower isSetZ)

theorem OnChain.isSome (wf : WellFormed doms) (on : OnChain doms a b) (isSet : (doms b).isSome) : (doms a).isSome := by
  induction on with
  | here => exact isSet
  | @up b z idom _ ih =>
    by_cases isEntry : b = 0
    · subst isEntry
      rw [wf.entry] at idom
      cases idom
      exact ih isSet
    · obtain ⟨z', _, same, isSetZ⟩ := wf.up b isEntry _ idom
      cases same
      exact ih isSetZ

omit [NeZero n] in
theorem onChain_iff (idom : doms b = some (.bb z)) : OnChain doms a b ↔ a = b ∨ OnChain doms a z := by
  constructor
  · intro on
    cases on with
    | here => exact Or.inl rfl
    | up idom' rest =>
      rw [idom] at idom'
      cases idom'
      exact Or.inr rest
  · rintro (rfl | rest)
    · exact OnChain.here
    · exact OnChain.up idom rest

/-! ### Two fingers -/

@[simp]
theorem dfn_bb (b : Fin n) : (BbRef.bb b).dfn = b :=
  rfl

@[simp]
theorem dfn_unreached (u : Nat) : (BbRef.unreached u : BbRef n).dfn = 0 :=
  rfl

theorem intersect_spec (wf : WellFormed doms) (fuel : Nat) :
    ∀ x y : Fin n, (doms x).isSome → (doms y).isSome → x.val + y.val < fuel →
      ∃ z, intersect doms fuel (.bb x) (.bb y) = some (.bb z) ∧
        ∀ a, OnChain doms a z ↔ OnChain doms a x ∧ OnChain doms a y := by
  induction fuel with
  | zero => exact fun x y _ _ enough => absurd enough (Nat.not_lt_zero _)
  | succ fuel ih =>
    intro x y setX setY enough
    by_cases same : x = y
    · subst same
      exact ⟨x, if_pos rfl, fun a => (and_self_iff).symm⟩
    · rw [intersect, if_neg (fun eq => same (BbRef.bb.inj eq))]
      rcases lt_or_gt_of_ne same with less | greater
      · have notEntry : y ≠ 0 := ne_zero_of_lt less
        obtain ⟨y', lower, idom, setY'⟩ := wf.parent notEntry setY
        obtain ⟨z, run, spec⟩ := ih x y' setX setY' (by omega)
        refine ⟨z, ?_, fun a => ?_⟩
        · rw [if_pos (show (BbRef.bb x).dfn < (BbRef.bb y).dfn from less)]
          simpa only [dfn_bb, idom] using run
        rw [spec, onChain_iff idom]
        refine and_congr_right fun onX => ⟨Or.inr, fun either => either.resolve_left ?_⟩
        rintro rfl
        exact absurd (onX.le wf) (not_le_of_gt less)
      · have notEntry : x ≠ 0 := ne_zero_of_lt greater
        obtain ⟨x', lower, idom, setX'⟩ := wf.parent notEntry setX
        obtain ⟨z, run, spec⟩ := ih x' y setX' setY (by omega)
        refine ⟨z, ?_, fun a => ?_⟩
        · rw [if_neg (show ¬ (BbRef.bb x).dfn < (BbRef.bb y).dfn from not_lt_of_gt greater)]
          simpa only [dfn_bb, idom] using run
        rw [spec, onChain_iff idom]
        refine and_congr_left fun onY => ⟨Or.inr, fun either => either.resolve_left ?_⟩
        rintro rfl
        exact absurd (onY.le wf) (not_le_of_gt greater)

theorem intersect_unreached (wf : WellFormed doms) (u : Nat) (fuel : Nat) :
    ∀ y : Fin n, (doms y).isSome → y.val + 1 < fuel → intersect doms fuel (.unreached u) (.bb y) = some (.bb 0) := by
  induction fuel with
  | zero => exact fun y _ enough => absurd enough (Nat.not_lt_zero _)
  | succ fuel ih =>
    intro y setY enough
    rw [intersect, if_neg (by simp)]
    by_cases isEntry : y = 0
    · subst isEntry
      simp only [dfn_unreached, wf.entry]
      obtain ⟨fuel, rfl⟩ : ∃ k, fuel = k + 1 := ⟨fuel - 1, by omega⟩
      simp [intersect]
    · obtain ⟨y', lower, idom, setY'⟩ := wf.parent isEntry setY
      have positive : (BbRef.unreached u).dfn < (BbRef.bb y).dfn :=
        Fin.pos_iff_ne_zero.mpr isEntry
      rw [if_pos positive]
      simpa only [dfn_bb, idom] using ih y' setY' (by omega)

theorem hasDfn_bb (b : Fin n) : hasDfn (.bb b) := by
  by_cases isEntry : b = 0
  · exact Or.inr (by rw [isEntry]; rfl)
  · exact Or.inl isEntry

theorem not_hasDfn_unreached (u : Nat) : ¬ hasDfn (BbRef.unreached u : BbRef n) := by
  rintro (nonzero | isEntry)
  · exact nonzero rfl
  · cases isEntry

theorem intersectLoop_spec (wf : WellFormed doms) : ∀ (list : List (BbRef n)) (x : Fin n), (doms x).isSome →
      ∃ z, list.foldlM (intersectStep doms) (.bb x) = some (.bb z) ∧ (doms z).isSome ∧ ∀ a, OnChain doms a z ↔
          OnChain doms a x ∧ ∀ p, .bb p ∈ list → (doms p).isSome → OnChain doms a p
  | [], x, setX => ⟨x, rfl, setX, fun a => by simp⟩
  | .unreached u :: list, x, setX => by
      obtain ⟨z, run, setZ, spec⟩ := intersectLoop_spec wf list x setX
      refine ⟨z, ?_, setZ, fun a => ?_⟩
      · rw [foldlM_cons, intersectStep, if_neg fun both => not_hasDfn_unreached u both.1]
        exact run
      · rw [spec]
        simp
  | .bb p :: list, x, setX => by
      by_cases setP : (doms p).isSome
      · have enough : x.val + p.val < fingerMoves n := by
          unfold fingerMoves
          omega
        obtain ⟨y, meet, meetSpec⟩ := intersect_spec wf (fingerMoves n) x p setX setP enough
        have setY : (doms y).isSome := ((meetSpec y).mp OnChain.here).1.isSome wf setX
        obtain ⟨z, run, setZ, spec⟩ := intersectLoop_spec wf list y setY
        refine ⟨z, ?_, setZ, fun a => ?_⟩
        · rw [foldlM_cons, intersectStep, if_pos ⟨hasDfn_bb p, setP⟩, meet]
          exact run
        · rw [spec, meetSpec, and_assoc]
          refine and_congr_right fun _ => ⟨?_, fun all => ⟨all p mem_cons_self setP,
            fun q member => all q (mem_cons_of_mem _ member)⟩⟩
          rintro ⟨onP, others⟩ q member setQ
          rcases mem_cons.mp member with same | later
          · cases same
            exact onP
          · exact others q later setQ
      · obtain ⟨z, run, setZ, spec⟩ := intersectLoop_spec wf list x setX
        refine ⟨z, ?_, setZ, fun a => ?_⟩
        · rw [foldlM_cons, intersectStep, if_neg fun both => setP both.2]
          exact run
        · rw [spec]
          refine and_congr_right fun _ => ⟨fun all q member setQ => ?_,
            fun all q member => all q (mem_cons_of_mem _ member)⟩
          rcases mem_cons.mp member with same | later
          · cases same
            exact absurd setQ setP
          · exact all q later setQ

/-- Intersecting with predecessors, from an unreached block on: one predecessor in the table is enough to
end at the entry. -/
theorem intersectLoop_unreached (wf : WellFormed doms) (u : Nat) : ∀ list : List (BbRef n),
      (∃ r, list.foldlM (intersectStep doms) (.unreached u) = some r) ∧ ∀ p, .bb p ∈ list → (doms p).isSome →
          list.foldlM (intersectStep doms) (.unreached u) = some (.bb 0)
  | [] => ⟨⟨_, rfl⟩, fun _ member => absurd member not_mem_nil⟩
  | .unreached v :: list => by
      obtain ⟨runs, ends⟩ := intersectLoop_unreached wf u list
      exact ⟨runs, fun p member setP => ends p (by simpa using member) setP⟩
  | .bb q :: list => by
      rw [foldlM_cons, intersectStep]
      by_cases setQ : (doms q).isSome
      · have enough : q.val + 1 < fingerMoves n := by
          unfold fingerMoves
          omega
        rw [if_pos ⟨hasDfn_bb q, setQ⟩, intersect_unreached wf u (fingerMoves n) q setQ enough]
        obtain ⟨z, run, _, spec⟩ := intersectLoop_spec wf list 0 (by simp [wf.entry])
        have isEntry : z = 0 := (onChain_entry wf).mp ((spec z).mp OnChain.here).1
        rw [isEntry] at run
        exact ⟨⟨_, run⟩, fun _ _ _ => run⟩
      · rw [if_neg fun both => setQ both.2]
        obtain ⟨runs, ends⟩ := intersectLoop_unreached wf u list
        refine ⟨runs, fun p member setP => ends p ?_ setP⟩
        rcases mem_cons.mp member with same | later
        · cases same
          exact absurd setP setQ
        · exact later

end Chain

/-! ### The new immediate dominator -/

/-- Among the predecessors of a block an unreached one comes before those with lower numbers. -/
def ChoosesUnreached (cfg : DomGraph n) (b : Fin n) : Prop :=
  ∃ u, (cfg.inBb b).find? (fun p => p.dfn < b) = some (.unreached u)

/-- The first predecessor of a block, apart from itself, is an unreached one. -/
def StartsUnreached (cfg : DomGraph n) (b : Fin n) : Prop :=
  ∃ u, (cfg.inBb b).find? (fun p => p ≠ .bb b) = some (.unreached u)

section NewIdom

variable {cfg : DomGraph n} {doms : Doms n} {b : Fin n}

theorem mem_fromFirst {p : BbRef n} (member : p ∈ cfg.inBb b) (other : p ≠ .bb b)
    (isSet : (doms p.dfn).isSome) : p ∈ fromFirst doms b (cfg.inBb b) := by
  have parts := takeWhile_append_dropWhile
    (p := fun p => !(p ≠ .bb b && (doms p.dfn).isSome)) (l := cfg.inBb b)
  rw [← parts] at member
  rcases mem_append.mp member with skipped | kept
  · have skips := mem_takeWhile_imp skipped
    simp [other, isSet] at skips
  · exact kept

theorem fromFirst_head {first : BbRef n} {rest : List (BbRef n)} (list : fromFirst doms b (cfg.inBb b) = first :: rest) :
    ∃ skipped, cfg.inBb b = skipped ++ first :: rest ∧ first ≠ .bb b ∧ (doms first.dfn).isSome ∧
      ∀ p ∈ skipped, p = .bb b ∨ doms p.dfn = none := by
  have parts := takeWhile_append_dropWhile
    (p := fun p => !(p ≠ .bb b && (doms p.dfn).isSome)) (l := cfg.inBb b)
  rw [fromFirst] at list
  have head := head_dropWhile_not
    (fun p : BbRef n => !(p ≠ .bb b && (doms p.dfn).isSome)) (l := cfg.inBb b)
    (by rw [list]; exact cons_ne_nil _ _)
  simp only [list, head_cons] at head
  rw [list] at parts
  have usable : first ≠ .bb b ∧ (doms first.dfn).isSome := by simpa using head
  refine ⟨_, parts.symm, usable.1, usable.2, fun p member => ?_⟩
  have skips := mem_takeWhile_imp member
  by_contra neither
  rw [not_or] at neither
  simp [neither.1, neither.2] at skips

/-- The new immediate dominator of a block whose lower-numbered blocks are in the table: the entry, if the
choice falls on an unreached predecessor, and else the closest block above all predecessors. -/
theorem newIdom_spec (cfg : DomGraph n) (wf : WellFormed doms) (notEntry : b ≠ 0) (lower : ∀ p < b, (doms p).isSome) :
    ∃ z, newIdom cfg doms b = some (some (.bb z)) ∧ z < b ∧ (doms z).isSome ∧
      (StartsUnreached cfg b → z = 0) ∧ ((ChoosesUnreached cfg b ∧ z = 0) ∨
        (∀ a p, cfg.edge p b → p ≠ b → (doms p).isSome → OnChain doms a z → OnChain doms a p) ∧
          ∀ a, (∀ p, cfg.edge p b → (doms p).isSome → OnChain doms a p) → OnChain doms a z) := by
  obtain ⟨q, q_lower, q_edge⟩ := cfg.reached b notEntry
  have q_set := lower q q_lower
  have q_member : .bb q ∈ fromFirst doms b (cfg.inBb b) :=
    mem_fromFirst q_edge (fun same => absurd (BbRef.bb.inj same) (ne_of_lt q_lower)) q_set
  cases list : fromFirst doms b (cfg.inBb b) with
  | nil =>
    rw [list] at q_member
    exact absurd q_member not_mem_nil
  | cons first rest =>
    obtain ⟨skipped, parts, other, first_set, skips⟩ := fromFirst_head list
    rw [list] at q_member
    simp only [newIdom, list]
    cases first with
    | unreached u =>
      have run := (intersectLoop_unreached wf u (.unreached u :: rest)).2 q q_member q_set
      refine ⟨0, by rw [run]; rfl, Fin.pos_iff_ne_zero.mpr notEntry, by simp [wf.entry],
        fun _ => rfl, Or.inl ⟨⟨u, ?_⟩, rfl⟩⟩
      rw [parts, find?_append, find?_eq_none.mpr]
      · simp [Fin.pos_iff_ne_zero.mpr notEntry]
      · intro p member
        rw [decide_eq_true_eq]
        rcases skips p member with rfl | missing
        · exact lt_irrefl b
        · intro small
          have present := lower p.dfn small
          rw [missing] at present
          cases present
    | bb x =>
      obtain ⟨z, run, z_set, spec⟩ := intersectLoop_spec wf (.bb x :: rest) x first_set
      have z_on := (spec z).mp OnChain.here
      refine ⟨z, by rw [run]; rfl, lt_of_le_of_lt ((z_on.2 q q_member q_set).le wf) q_lower,
        z_set, ?_, Or.inr ⟨?_, ?_⟩⟩
      · rintro ⟨u, found⟩
        obtain ⟨_, l1, l2, split, before⟩ := find?_eq_some_iff_append.mp found
        -- The unreached predecessor would have been usable before `x`.
        have notSkipped : .unreached u ∉ skipped := by
          intro inSkipped
          rcases skips _ inSkipped with same | missing
          · cases same
          · rw [dfn_unreached, wf.entry] at missing
            cases missing
        have order : skipped ++ .bb x :: rest = l1 ++ .unreached u :: l2 := parts.symm.trans split
        rcases append_eq_append_iff.mp order with ⟨mid, l1_eq, tail⟩ | ⟨mid, skipped_eq, tail⟩
        · cases mid with
          | nil => cases tail
          | cons head mid =>
            injection tail with head_eq
            have isOther := before (.bb x) (by rw [l1_eq, ← head_eq]; simp)
            simp at isOther
            exact absurd (by rw [isOther]) other
        · cases mid with
          | nil => cases tail
          | cons head mid =>
            injection tail with head_eq
            exact absurd (by rw [skipped_eq, head_eq]; simp) notSkipped
      · intro a p edge different p_set on
        refine ((spec a).mp on).2 p ?_ p_set
        rw [← list]
        exact mem_fromFirst edge (fun same => different (BbRef.bb.inj same)) p_set
      · intro a all
        refine (spec a).mpr ⟨?_, fun p member => all p ?_⟩
        · exact all x (by rw [DomGraph.edge, parts]; simp) first_set
        · rw [DomGraph.edge, parts]
          exact mem_append_right _ member

theorem newIdom_entry (cfg : DomGraph n) (wf : WellFormed doms) : ∃ idom, newIdom cfg doms 0 = some idom := by
  cases list : fromFirst doms 0 (cfg.inBb 0) with
  | nil => exact ⟨none, by simp [newIdom, list]⟩
  | cons first rest =>
    obtain ⟨_, _, _, first_set, _⟩ := fromFirst_head list
    simp only [newIdom, list]
    cases first with
    | unreached u =>
      obtain ⟨r, run⟩ := (intersectLoop_unreached wf u (.unreached u :: rest)).1
      exact ⟨some r, by rw [run]; rfl⟩
    | bb x =>
      obtain ⟨z, run, _⟩ := intersectLoop_spec wf (.bb x :: rest) x first_set
      exact ⟨some (.bb z), by rw [run]; rfl⟩

end NewIdom

/-! ### One update of the table -/

section Update

variable {doms : Doms n} {b z : Fin n}

theorem WellFormed.update (wf : WellFormed doms) (notEntry : b ≠ 0) (lower : z < b)
    (z_set : (doms z).isSome) : WellFormed (Function.update doms b (some (.bb z))) := by
  have kept : ∀ {c}, (doms c).isSome →
      (Function.update doms b (some (.bb z)) c).isSome := by
    intro c isSet
    by_cases same : c = b
    · rw [same, Function.update_self]
      rfl
    · rwa [Function.update_of_ne same]
  refine ⟨?_, fun c c_ne r found => ?_⟩
  · rw [Function.update_of_ne (Ne.symm notEntry), wf.entry]
  · by_cases same : c = b
    · subst same
      rw [Function.update_self] at found
      cases found
      exact ⟨z, lower, rfl, kept z_set⟩
    · rw [Function.update_of_ne same] at found
      obtain ⟨w, w_lower, r_eq, w_set⟩ := wf.up c c_ne r found
      exact ⟨w, w_lower, r_eq, kept w_set⟩

omit [NeZero n] in
theorem isSome_update {c : Fin n} (isSet : (doms c).isSome ∨ c = b) :
    (Function.update doms b (some (.bb z)) c).isSome := by
  by_cases same : c = b
  · rw [same, Function.update_self]
    rfl
  · rw [Function.update_of_ne same]
    exact isSet.resolve_right same

theorem onChain_update_of_lt (wf : WellFormed doms) {a x : Fin n} (below : x < b) :
    OnChain (Function.update doms b (some (.bb z))) a x ↔ OnChain doms a x := by
  constructor
  · intro on
    induction on with
    | here => exact OnChain.here
    | @up x w idom _ ih =>
      rw [Function.update_of_ne (ne_of_lt below)] at idom
      exact OnChain.up idom (ih (lt_of_le_of_lt (wf.parent_le idom) below))
  · intro on
    induction on with
    | here => exact OnChain.here
    | @up x w idom _ ih =>
      refine OnChain.up ?_ (ih (lt_of_le_of_lt (wf.parent_le idom) below))
      rwa [Function.update_of_ne (ne_of_lt below)]

/-- After the update, a block sees what it saw before, down to `b`, and from there on what `z` sees. -/
theorem onChain_of_update (wf : WellFormed doms) (lower : z < b) {a x : Fin n}
    (on : OnChain (Function.update doms b (some (.bb z))) a x) :
    OnChain doms a x ∧ (OnChain doms b x → b ≤ a) ∨ OnChain doms b x ∧ OnChain doms a z := by
  induction on with
  | here => exact Or.inl ⟨OnChain.here, fun onB => onB.le wf⟩
  | @up x w idom rest ih =>
    by_cases same : x = b
    · subst same
      rw [Function.update_self] at idom
      cases idom
      exact Or.inr ⟨OnChain.here, (onChain_update_of_lt wf lower).mp rest⟩
    · rw [Function.update_of_ne same] at idom
      rcases ih with ⟨on, above⟩ | ⟨onB, onZ⟩
      · refine Or.inl ⟨OnChain.up idom on, fun onB => above ?_⟩
        exact ((onChain_iff idom).mp onB).resolve_left (Ne.symm same)
      · exact Or.inr ⟨OnChain.up idom onB, onZ⟩

theorem onChain_update_of_le (wf : WellFormed doms) (notEntry : b ≠ 0) {a x : Fin n}
    (on : OnChain doms a x) (above : b ≤ a) : OnChain (Function.update doms b (some (.bb z))) a x := by
  induction on with
  | here => exact OnChain.here
  | @up x w idom rest ih =>
    by_cases same : x = b
    · subst same
      have bound := lt_of_le_of_lt (rest.le wf) (wf.parent_lt notEntry idom)
      exact absurd above (not_le_of_gt bound)
    · exact OnChain.up (by rwa [Function.update_of_ne same]) ih

theorem onChain_update_of_onChain (wf : WellFormed doms) (notEntry : b ≠ 0) (lower : z < b)
    {a x : Fin n} (onB : OnChain doms b x) (on : OnChain doms a z) :
    OnChain (Function.update doms b (some (.bb z))) a x := by
  have fromB : OnChain (Function.update doms b (some (.bb z))) a b :=
    OnChain.up (Function.update_self _ _ _) ((onChain_update_of_lt wf lower).mpr on)
  exact fromB.trans (onChain_update_of_le wf notEntry onB le_rfl)

omit [NeZero n] in
theorem onChain_update_of_not {a x : Fin n} (off : ¬ OnChain doms b x) (on : OnChain doms a x) :
    OnChain (Function.update doms b (some (.bb z))) a x := by
  induction on with
  | here => exact OnChain.here
  | @up x w idom rest ih =>
    have other : x ≠ b := fun same => off (same ▸ OnChain.here)
    exact OnChain.up (by rwa [Function.update_of_ne other]) (ih fun onB => off (OnChain.up idom onB))

end Update

/-! ### The invariant -/

/-- The path up from a block lies between its dominators and the set `D` has for it. -/
structure DomInvariant (cfg : DomGraph n) (doms : Doms n) (D : Fin n → Set (Fin n)) : Prop where
  wf : WellFormed doms
  descending : Descending cfg.edge 0 D
  unset : ∀ b, doms b = none → D b = Set.univ
  upper : ∀ {a b}, (doms b).isSome → OnChain doms a b → a ∈ D b
  lower : ∀ {a b}, (doms b).isSome → Dominates cfg.edge 0 a b → OnChain doms a b
  /-- What lies on the path is not jumped over: a dominator further up dominates it as well. -/
  jump : ∀ {x b a}, (doms x).isSome → OnChain doms b x → a < b → Dominates cfg.edge 0 a x →
    Dominates cfg.edge 0 a b

/-- Where the choice may fall on an unreached predecessor, only the entry dominates the block. -/
def UnreachedHarmless (cfg : DomGraph n) : Prop :=
  ∀ b ≠ 0, ChoosesUnreached cfg b → ∀ a, Dominates cfg.edge 0 a b → a = b ∨ a = 0

theorem domInvariant_init (cfg : DomGraph n) : DomInvariant cfg initDoms (startSets 0) := by
  have only : ∀ {b : Fin n}, ((initDoms : Doms n) b).isSome → b = 0 := by
    intro b isSet
    by_contra other
    rw [initDoms, Function.update_of_ne other] at isSet
    cases isSet
  have wf : WellFormed (initDoms : Doms n) := by
    refine ⟨Function.update_self _ _ _, fun b notEntry r found => ?_⟩
    rw [initDoms, Function.update_of_ne notEntry] at found
    cases found
  refine ⟨wf, descending_start, ?_, ?_, ?_, ?_⟩
  · intro b missing
    refine if_neg ?_
    rintro rfl
    cases missing
  · intro a b isSet on
    rw [only isSet] at on ⊢
    rw [(onChain_entry wf).mp on]
    exact (descending_start : Descending cfg.edge 0 (startSets 0)).entry_mem 0
  · intro a b isSet dominates
    rw [only isSet] at dominates ⊢
    exact (onChain_entry wf).mpr dominates.eq_entry
  · intro x b a isSet on less _
    rw [only isSet] at on
    rw [(onChain_entry wf).mp on] at less
    exact absurd less (not_lt_of_ge (Fin.zero_le a))

section Step

variable {cfg : DomGraph n} {doms : Doms n} {D : Fin n → Set (Fin n)} {b z : Fin n}

/-- An update with the new immediate dominator keeps the invariant, against a refinement of the sets. -/
theorem DomInvariant.update (inv : DomInvariant cfg doms D) (notEntry : b ≠ 0)
    (low : ∀ p < b, (doms p).isSome) (z_lower : z < b) (z_set : (doms z).isSome)
    (down : ∀ {a}, OnChain doms a z → a ∈ refineAt cfg.edge 0 D b b)
    (up : ∀ {a}, a ≠ b → Dominates cfg.edge 0 a b → OnChain doms a z)
    (agree : ∀ {a p}, a ≠ 0 → cfg.edge p b → p < b → OnChain doms a z → OnChain doms a p) :
    DomInvariant cfg (Function.update doms b (some (.bb z))) (refineAt cfg.edge 0 D b) := by
  have descending := inv.descending.refineAt b
  have old_set : ∀ {x}, (Function.update doms b (some (.bb z)) x).isSome → x ≠ b →
      (doms x).isSome := by
    intro x isSet other
    rwa [Function.update_of_ne other] at isSet
  -- A dominator of `x` above `b` dominates `b`, if `b` is on the way.
  have jump_b : ∀ {x a}, (x = b ∨ (doms x).isSome) → OnChain doms b x → a < b →
      Dominates cfg.edge 0 a x → Dominates cfg.edge 0 a b := by
    intro x a isSet onB less dominates
    rcases isSet with rfl | isSet
    · exact dominates
    · exact inv.jump isSet onB less dominates
  refine ⟨inv.wf.update notEntry z_lower z_set, descending, ?_, ?_, ?_, ?_⟩
  · intro x missing
    have other : x ≠ b := by
      rintro rfl
      rw [Function.update_self] at missing
      cases missing
    rw [Function.update_of_ne other] at missing
    rw [refineAt_other other]
    exact inv.unset x missing
  · intro a x isSet on
    rcases onChain_of_update inv.wf z_lower on with ⟨onOld, above⟩ | ⟨onB, onZ⟩
    · by_cases same : x = b
      · subst same
        rw [le_antisymm (onOld.le inv.wf) (above OnChain.here)]
        exact descending.refl x
      · rw [refineAt_other same]
        exact inv.upper (old_set isSet same) onOld
    · have member := down onZ
      by_cases same : x = b
      · rw [same]
        exact member
      · rw [refineAt_other same]
        have onSet := inv.upper (old_set isSet same) onB
        exact inv.descending.trans onSet (inv.descending.refineAt_subset b b member)
  · intro a x isSet dominates
    by_cases same : x = b
    · subst same
      by_cases self : a = x
      · rw [self]
        exact OnChain.here
      · exact onChain_update_of_onChain inv.wf notEntry z_lower OnChain.here (up self dominates)
    · have on := inv.lower (old_set isSet same) dominates
      by_cases onB : OnChain doms b x
      · rcases le_or_gt b a with above | less
        · exact onChain_update_of_le inv.wf notEntry on above
        · have dominatesB := jump_b (Or.inr (old_set isSet same)) onB less dominates
          exact onChain_update_of_onChain inv.wf notEntry z_lower onB (up (ne_of_lt less) dominatesB)
      · exact onChain_update_of_not onB on
  · intro x c a isSet on less dominates
    have isSet' : x = b ∨ (doms x).isSome := by
      by_cases same : x = b
      · exact Or.inl same
      · exact Or.inr (old_set isSet same)
    rcases onChain_of_update inv.wf z_lower on with ⟨onOld, above⟩ | ⟨onB, onZ⟩
    · rcases isSet' with rfl | old
      · rw [le_antisymm (onOld.le inv.wf) (above OnChain.here)]
        exact dominates
      · exact inv.jump old onOld less dominates
    · have c_lower : c < b := lt_of_le_of_lt (onZ.le inv.wf) z_lower
      have dominatesB := jump_b isSet' onB (lt_trans less c_lower) dominates
      obtain ⟨q, q_lower, q_edge⟩ := cfg.reached b notEntry
      have onQ := agree (ne_zero_of_lt less) q_edge q_lower onZ
      exact inv.jump (low q q_lower) onQ less
        (dominatesB.pred (ne_of_lt (lt_trans less c_lower)) q_edge)

theorem processBb_eq (notEntry : b ≠ 0) (run : newIdom cfg doms b = some (some (.bb z))) (changed : Bool) :
    processBb cfg (doms, changed) b
      = some (Function.update doms b (some (.bb z)), changed || doms b != some (.bb z)) := by
  simp only [processBb, run]
  by_cases same : some (.bb z) = doms b
  · rw [if_neg (not_not.mpr same), ← same]
    have unchanged : Function.update doms b (some (.bb z)) = doms := by
      rw [same, Function.update_eq_self]
    rw [unchanged]
    simp
  · rw [if_pos same, if_neg notEntry]
    have differs : (doms b != some (.bb z)) = true := bne_iff_ne.mpr (Ne.symm same)
    rw [differs, Bool.or_true]

theorem processBb_entry (wf : WellFormed doms) (changed : Bool) :
    processBb cfg (doms, changed) 0 = some (doms, changed) := by
  obtain ⟨idom, run⟩ := newIdom_entry cfg wf
  simp only [processBb, run]
  split
  · rw [if_pos trivial, ← wf.entry, Function.update_eq_self]
  · rfl

/-- Processing a block keeps the invariant, unless an unreached predecessor does harm. -/
theorem processBb_invariant (inv : DomInvariant cfg doms D) (harmless : UnreachedHarmless cfg)
    (notEntry : b ≠ 0) (low : ∀ p < b, (doms p).isSome) : ∃ z, (∀ changed, processBb cfg (doms, changed) b
        = some (Function.update doms b (some (.bb z)), changed || doms b != some (.bb z))) ∧
      DomInvariant cfg (Function.update doms b (some (.bb z))) (refineAt cfg.edge 0 D b) ∧ z < b := by
  obtain ⟨z, run, z_lower, z_set, _, outcome⟩ := newIdom_spec cfg inv.wf notEntry low
  refine ⟨z, processBb_eq notEntry run, ?_, z_lower⟩
  rcases outcome with ⟨chooses, rfl⟩ | ⟨agree, collect⟩
  · refine inv.update notEntry low z_lower z_set ?_ ?_ ?_
    · intro a on
      rw [(onChain_entry inv.wf).mp on]
      exact (inv.descending.refineAt b).entry_mem b
    · intro a other dominates
      rw [(harmless b notEntry chooses a dominates).resolve_left other]
      exact OnChain.here
    · intro a p nonzero _ _ on
      exact absurd ((onChain_entry inv.wf).mp on) nonzero
  · refine inv.update notEntry low z_lower z_set ?_ ?_ ?_
    · intro a on
      rw [refineAt_self notEntry]
      refine Or.inr fun p edge other => ?_
      cases found : doms p with
      | none =>
        rw [inv.unset p found]
        exact Set.mem_univ a
      | some r =>
        have p_set : (doms p).isSome := by rw [found]; rfl
        exact inv.upper p_set (agree a p edge other p_set on)
    · intro a other dominates
      exact collect a fun p edge p_set => inv.lower p_set (dominates.pred other edge)
    · intro a p _ edge less on
      exact agree a p edge (ne_of_lt less) (low p less) on

theorem DomInvariant.exact (inv : DomInvariant cfg doms D)
    (stable : ∀ b, refineAt cfg.edge 0 D b = D) {a x : Fin n} (isSet : (doms x).isSome) :
    OnChain doms a x ↔ Dominates cfg.edge 0 a x :=
  ⟨fun on => inv.descending.dominates_of_stable stable (inv.upper isSet on), inv.lower isSet⟩

theorem parent_eq {doms' : Doms n} (wf : WellFormed doms) (wf' : WellFormed doms')
    (notEntry : b ≠ 0) {z' : Fin n} (idom : doms b = some (.bb z)) (idom' : doms' b = some (.bb z'))
    (same : ∀ a, OnChain doms a b ↔ OnChain doms' a b) : z = z' := by
  have z_on : OnChain doms' z b := (same z).mp (OnChain.up idom OnChain.here)
  have z'_on : OnChain doms z' b := (same z').mpr (OnChain.up idom' OnChain.here)
  have z_ne := ne_of_lt (wf.parent_lt notEntry idom)
  have z'_ne := ne_of_lt (wf'.parent_lt notEntry idom')
  exact le_antisymm ((((onChain_iff idom').mp z_on).resolve_left z_ne).le wf')
    ((((onChain_iff idom).mp z'_on).resolve_left z'_ne).le wf)

end Step

/-! ### Passes -/

section Pass

variable {cfg : DomGraph n}

omit [NeZero n] in
theorem lower_of_split {l1 l2 : List (Fin n)} {b : Fin n} (split : List.finRange n = l1 ++ b :: l2)
    {p : Fin n} (less : p < b) : p ∈ l1 := by
  have sorted := pairwise_lt_finRange n
  rw [split, pairwise_append, pairwise_cons] at sorted
  have member : p ∈ l1 ++ b :: l2 := split ▸ mem_finRange p
  rcases mem_append.mp member with early | late
  · exact early
  · rcases mem_cons.mp late with rfl | later
    · exact absurd less (lt_irrefl p)
    · exact absurd less (not_lt_of_gt (sorted.2.1.1 p later))

theorem domPass_fold (harmless : UnreachedHarmless cfg) : ∀ (l2 l1 : List (Fin n)), List.finRange n = l1 ++ l2 →
      ∀ (doms : Doms n) (D : Fin n → Set (Fin n)) (changed : Bool), DomInvariant cfg doms D → (∀ p ∈ l1, (doms p).isSome) →
          ∃ doms' changed', l2.foldlM (processBb cfg) (doms, changed) = some (doms', changed') ∧
            DomInvariant cfg doms' (sweep cfg.edge 0 l2 D) ∧ (∀ p, (doms' p).isSome) ∧
            (changed' = false → changed = false ∧ doms' = doms) ∧
            ((∀ b, refineAt cfg.edge 0 D b = D) → (∀ b, (doms b).isSome) → changed' = changed)
  | [], l1, split, doms, D, changed, inv, processed => by
      refine ⟨doms, changed, rfl, inv, fun p => processed p ?_, fun same => ⟨same, rfl⟩,
        fun _ _ => rfl⟩
      rw [append_nil] at split
      exact split ▸ mem_finRange p
  | b :: l2, l1, split, doms, D, changed, inv, processed => by
      have split' : List.finRange n = (l1 ++ [b]) ++ l2 := by simpa using split
      have low : ∀ p < b, (doms p).isSome := fun p less => processed p (lower_of_split split less)
      rw [foldlM_cons]
      by_cases isEntry : b = 0
      · subst isEntry
        have sameD : refineAt cfg.edge 0 D 0 = D := if_pos rfl
        obtain ⟨doms', changed', run, inv', filled, keeps, stays⟩ :=
          domPass_fold harmless l2 (l1 ++ [0]) split' doms D changed inv (by
            intro p member
            rcases mem_append.mp member with early | here
            · exact processed p early
            · rw [mem_singleton.mp here, inv.wf.entry]
              rfl)
        refine ⟨doms', changed', ?_, ?_, filled, keeps, stays⟩
        · rw [processBb_entry inv.wf]
          exact run
        · rw [sweep, foldl_cons, sameD]
          exact inv'
      · obtain ⟨z, step, invStep, z_lower⟩ := processBb_invariant inv harmless isEntry low
        obtain ⟨doms', changed', run, inv', filled, keeps, stays⟩ :=
          domPass_fold harmless l2 (l1 ++ [b]) split' _ _ (changed || doms b != some (.bb z)) invStep
            (by
              intro p member
              refine isSome_update ?_
              rcases mem_append.mp member with early | here
              · exact Or.inl (processed p early)
              · exact Or.inr (mem_singleton.mp here))
        refine ⟨doms', changed', ?_, inv', filled, ?_, ?_⟩
        · rw [step]
          exact run
        · intro isFalse
          obtain ⟨flag, same⟩ := keeps isFalse
          obtain ⟨wasFalse, equal⟩ := Bool.or_eq_false_iff.mp flag
          have kept : doms b = some (.bb z) := by simpa using equal
          rw [same, ← kept, Function.update_eq_self]
          exact ⟨wasFalse, rfl⟩
        · intro stable allSet
          have sameD := stable b
          rw [sameD] at invStep stays
          obtain ⟨z0, _, idom, _⟩ := inv.wf.parent isEntry (allSet b)
          have idom' : Function.update doms b (some (.bb z)) b = some (.bb z) :=
            Function.update_self _ _ _
          have z_eq : z0 = z := by
            refine parent_eq inv.wf invStep.wf isEntry idom idom' fun a => ?_
            rw [inv.exact stable (allSet b), invStep.exact stable (by rw [idom']; rfl)]
          have flag : (changed || doms b != some (.bb z)) = changed := by
            rw [idom, z_eq]
            simp
          rw [← flag]
          exact stays stable fun p => isSome_update (Or.inl (allSet p))

/-- A pass keeps the invariant and fills the table; if it reports no change, there was none, and once the
sets are stable it reports none. -/
theorem domPass_spec (harmless : UnreachedHarmless cfg) {doms : Doms n} {D : Fin n → Set (Fin n)}
    (inv : DomInvariant cfg doms D) : ∃ doms' changed, domPass cfg doms = some (doms', changed) ∧
      DomInvariant cfg doms' (sweep cfg.edge 0 (List.finRange n) D) ∧ (∀ p, (doms' p).isSome) ∧
      (changed = false → doms' = doms) ∧
      ((∀ b, refineAt cfg.edge 0 D b = D) → (∀ b, (doms b).isSome) → changed = false) := by
  obtain ⟨doms', changed, run, inv', filled, keeps, stays⟩ :=
    domPass_fold harmless (List.finRange n) [] rfl doms D false inv
      (fun _ member => absurd member not_mem_nil)
  exact ⟨doms', changed, run, inv', filled, fun isFalse => (keeps isFalse).2, stays⟩

/-- The sets after `k` sweeps. -/
def sweeps (cfg : DomGraph n) (k : Nat) : Fin n → Set (Fin n) :=
  (sweep cfg.edge 0 (List.finRange n))^[k] (startSets 0)

/-- A table that a pass leaves as it is keeps the invariant for all later sets. -/
theorem DomInvariant.of_unchanged (harmless : UnreachedHarmless cfg) {doms : Doms n}
    (unchanged : domPass cfg doms = some (doms, false)) {k : Nat}
    (inv : DomInvariant cfg doms (sweeps cfg k)) (j : Nat) : DomInvariant cfg doms (sweeps cfg (k + j)) := by
  induction j with
  | zero => exact inv
  | succ j ih =>
    obtain ⟨doms', changed, run, inv', _⟩ := domPass_spec harmless ih
    rw [unchanged] at run
    cases run
    rwa [← Nat.add_assoc, sweeps, Function.iterate_succ_apply']

theorem exists_stable_sweeps (cfg : DomGraph n) :
    ∃ k, ∀ b, refineAt cfg.edge 0 (sweeps cfg (k + 1)) b = sweeps cfg (k + 1) := by
  obtain ⟨k, stable⟩ := exists_stable_sweep cfg.edge (0 : Fin n)
    (List.finRange n)
  refine ⟨k, fun b => ?_⟩
  refine (descending_iterate (List.finRange n) (k + 1)).refineAt_eq_of_sweep_eq ?_ b
    (mem_finRange b)
  exact (Function.iterate_succ_apply' _ _ _).symm.trans
    ((stable (k + 1 + 1) (by omega)).symm.trans (stable (k + 1) (Nat.le_succ k)))

theorem domLoop_spec (harmless : UnreachedHarmless cfg) :
    ∃ fuel doms, domLoop cfg fuel initDoms = some doms ∧ WellFormed doms ∧ (∀ b, (doms b).isSome) ∧
      ∀ a b, OnChain doms a b ↔ Dominates cfg.edge 0 a b := by
  obtain ⟨k, stable⟩ := exists_stable_sweeps cfg
  -- From `j` sweeps before the sets are stable, `j + 1` passes are enough.
  have ends : ∀ (j i : Nat) (doms : Doms n), i + j = k + 1 → DomInvariant cfg doms (sweeps cfg i) →
      (j = 0 → ∀ b, (doms b).isSome) →
        ∃ doms', domLoop cfg (j + 1) doms = some doms' ∧ WellFormed doms' ∧
          (∀ b, (doms' b).isSome) ∧ ∀ a b, OnChain doms' a b ↔ Dominates cfg.edge 0 a b := by
    intro j
    induction j with
    | zero =>
      intro i doms count inv filled
      rw [Nat.add_zero] at count
      rw [count] at inv
      obtain ⟨doms', changed, run, _, _, keeps, stays⟩ := domPass_spec harmless inv
      have isFalse := stays stable (filled rfl)
      subst isFalse
      rw [keeps rfl] at run
      exact ⟨doms, by rw [domLoop, run], inv.wf, filled rfl,
        fun a b => inv.exact stable (filled rfl b)⟩
    | succ j ih =>
      intro i doms count inv _
      obtain ⟨doms', changed, run, inv', filled', keeps, _⟩ := domPass_spec harmless inv
      cases changed with
      | true =>
        have inv'' : DomInvariant cfg doms' (sweeps cfg (i + 1)) := by
          rwa [sweeps, Function.iterate_succ_apply']
        obtain ⟨result, rest⟩ := ih (i + 1) doms' (by omega) inv'' (fun _ => filled')
        exact ⟨result, by rw [domLoop, run]; exact rest.1, rest.2⟩
      | false =>
        have same := keeps rfl
        subst same
        have final := inv.of_unchanged harmless run (j + 1)
        rw [count] at final
        exact ⟨doms', by rw [domLoop, run], inv.wf, filled',
          fun a b => final.exact stable (filled' b)⟩
  obtain ⟨doms, run⟩ := ends (k + 1) 0 initDoms (by omega) (domInvariant_init cfg)
    (fun absurdity => absurd absurdity (Nat.succ_ne_zero k))
  exact ⟨_, doms, run⟩

end Pass

/-! ### Reading the table -/

section Read

variable {doms : Doms n}

theorem setDominators_spec (wf : WellFormed doms) (filled : ∀ b, (doms b).isSome) (fuel : Nat) :
    ∀ (x : Fin n) (dominators : Finset (Fin n)), x.val < fuel →
      ∃ result, setDominators doms fuel (.bb x) dominators = some result ∧
        ∀ a, a ∈ result ↔ a ∈ dominators ∨ a ≠ 0 ∧ OnChain doms a x := by
  induction fuel with
  | zero => exact fun x _ enough => absurd enough (Nat.not_lt_zero _)
  | succ fuel ih =>
    intro x dominators enough
    rw [setDominators]
    by_cases isEntry : x = 0
    · subst isEntry
      refine ⟨dominators, if_pos rfl, fun a => ⟨Or.inl, fun either => either.resolve_right ?_⟩⟩
      rintro ⟨nonzero, on⟩
      exact nonzero ((onChain_entry wf).mp on)
    · rw [if_neg (show ¬ (BbRef.bb x).dfn = 0 from isEntry)]
      obtain ⟨z, lower, idom, _⟩ := wf.parent isEntry (filled x)
      obtain ⟨result, run, spec⟩ := ih z (insert x dominators) (by omega)
      refine ⟨result, by simpa only [dfn_bb, idom] using run, fun a => ?_⟩
      rw [spec, onChain_iff idom, Finset.mem_insert]
      constructor
      · rintro ((rfl | old) | ⟨nonzero, on⟩)
        · exact Or.inr ⟨isEntry, Or.inl rfl⟩
        · exact Or.inl old
        · exact Or.inr ⟨nonzero, Or.inr on⟩
      · rintro (old | ⟨nonzero, rfl | on⟩)
        · exact Or.inl (Or.inr old)
        · exact Or.inl (Or.inl rfl)
        · exact Or.inr ⟨nonzero, on⟩

theorem dominatorsOf_spec (wf : WellFormed doms) (filled : ∀ b, (doms b).isSome) (b : Fin n) :
    ∃ result, dominatorsOf doms b = some result ∧ ∀ a, a ∈ result ↔ OnChain doms a b := by
  unfold dominatorsOf
  by_cases isEntry : b = 0
  · subst isEntry
    refine ⟨_, if_pos rfl, fun a => ?_⟩
    rw [onChain_entry wf]
    simp
  · rw [if_neg isEntry]
    obtain ⟨z, lower, idom, z_set⟩ := wf.parent isEntry (filled b)
    obtain ⟨result, run, spec⟩ := setDominators_spec wf filled (n + 1) z {b} (by omega)
    refine ⟨insert 0 result, by simp only [idom, run, Option.map_some], fun a => ?_⟩
    rw [Finset.mem_insert, spec, Finset.mem_singleton, onChain_iff idom]
    constructor
    · rintro (rfl | rfl | ⟨_, on⟩)
      · exact Or.inr (entry_onChain wf z z_set)
      · exact Or.inl rfl
      · exact Or.inr on
    · rintro (rfl | on)
      · exact Or.inr (Or.inl rfl)
      · by_cases isZero : a = 0
        · exact Or.inl isZero
        · exact Or.inr (Or.inr ⟨isZero, on⟩)

theorem readDominators_spec (wf : WellFormed doms) (filled : ∀ b, (doms b).isSome) :
    ∃ result, readDominators doms = some result ∧
      (∀ a b, a ∈ result.dominators b ↔ OnChain doms a b) ∧ ∀ b ≠ 0, result.idom b = doms b := by
  have all : ∀ b, (dominatorsOf doms b).isSome := by
    intro b
    obtain ⟨result, run, _⟩ := dominatorsOf_spec wf filled b
    rw [run]
    rfl
  refine ⟨_, if_pos all, fun a b => ?_, fun b notEntry => if_neg notEntry⟩
  obtain ⟨result, run, spec⟩ := dominatorsOf_spec wf filled b
  dsimp only
  rw [run, Option.getD_some, spec]

end Read

/-! ### Correctness -/

/-- The sets hold the dominators, and `idom` is the only closest strict dominator. -/
structure DomResult.Correct (cfg : DomGraph n) (r : DomResult n) : Prop where
  dominators : ∀ a b, a ∈ r.dominators b ↔ Dominates cfg.edge 0 a b
  idom : ∀ b ≠ 0, ∃ d, r.idom b = some (.bb d) ∧ IsIdom cfg.edge 0 d b ∧
    ∀ d', IsIdom cfg.edge 0 d' b → d' = d

/-- The computation ends, with the dominators. -/
def ComputesDominators (cfg : DomGraph n) : Prop :=
  ∃ fuel r, computeDominators cfg fuel = some r ∧ r.Correct cfg

theorem computesDominators_of_harmless {cfg : DomGraph n} (harmless : UnreachedHarmless cfg) : ComputesDominators cfg := by
  obtain ⟨fuel, doms, run, wf, filled, exactly⟩ := domLoop_spec harmless
  obtain ⟨r, read, sets, idoms⟩ := readDominators_spec wf filled
  refine ⟨fuel, r, by rw [computeDominators, run]; exact read, ?_, ?_⟩
  · intro a b
    rw [sets, exactly]
  · intro b notEntry
    obtain ⟨z, lower, idom, _⟩ := wf.parent notEntry (filled b)
    have isIdom : IsIdom cfg.edge 0 z b := by
      refine ⟨ne_of_lt lower, (exactly z b).mp (OnChain.up idom OnChain.here), fun a strict dominates => ?_⟩
      have on := (exactly a b).mpr dominates
      exact (exactly a z).mp (((onChain_iff idom).mp on).resolve_left strict)
    refine ⟨z, (idoms b notEntry).trans idom, isIdom, fun d' other => ?_⟩
    have d'_on := (exactly d' z).mpr (isIdom.closest d' other.strict other.dominates)
    have z_on := (exactly z d').mpr (other.closest z isIdom.strict isIdom.dominates)
    exact le_antisymm (d'_on.le wf) (z_on.le wf)

/-! ### Pinned blocks

A block whose first predecessor is an unreached one has the entry in the table after every pass, whatever
the other blocks do. -/

section Pinned

variable {cfg : DomGraph n}

/-- The blocks of a list that start with an unreached predecessor have the entry in the table. -/
def Pinned (cfg : DomGraph n) (doms : Doms n) (list : List (Fin n)) : Prop :=
  ∀ b ∈ list, b ≠ 0 → StartsUnreached cfg b → doms b = some (.bb 0)

theorem domPass_pins (cfg : DomGraph n) : ∀ (l2 l1 : List (Fin n)), List.finRange n = l1 ++ l2 →
      ∀ (doms : Doms n) (changed : Bool), WellFormed doms → (∀ p ∈ l1, (doms p).isSome) → Pinned cfg doms l1 →
          ∃ doms' changed', l2.foldlM (processBb cfg) (doms, changed) = some (doms', changed') ∧
            WellFormed doms' ∧ (∀ p, (doms' p).isSome) ∧ Pinned cfg doms' (List.finRange n)
  | [], l1, split, doms, changed, wf, processed, pinned => by
      rw [append_nil] at split
      exact ⟨doms, changed, rfl, wf, fun p => processed p (split ▸ mem_finRange p),
        split ▸ pinned⟩
  | b :: l2, l1, split, doms, changed, wf, processed, pinned => by
      have split' : List.finRange n = (l1 ++ [b]) ++ l2 := by simpa using split
      rw [foldlM_cons]
      by_cases isEntry : b = 0
      · subst isEntry
        rw [processBb_entry wf]
        refine domPass_pins cfg l2 (l1 ++ [0]) split' doms changed wf ?_ ?_
        · intro p member
          rcases mem_append.mp member with early | here
          · exact processed p early
          · rw [mem_singleton.mp here, wf.entry]
            rfl
        · intro p member notEntry starts
          rcases mem_append.mp member with early | here
          · exact pinned p early notEntry starts
          · exact absurd (mem_singleton.mp here) notEntry
      · have low : ∀ p < b, (doms p).isSome := fun p less => processed p (lower_of_split split less)
        obtain ⟨z, run, z_lower, z_set, pin, _⟩ := newIdom_spec cfg wf isEntry low
        rw [processBb_eq isEntry run]
        refine domPass_pins cfg l2 (l1 ++ [b]) split' _ _ (wf.update isEntry z_lower z_set) ?_ ?_
        · intro p member
          refine isSome_update ?_
          rcases mem_append.mp member with early | here
          · exact Or.inl (processed p early)
          · exact Or.inr (mem_singleton.mp here)
        · intro p member notEntry starts
          by_cases same : p = b
          · subst same
            rw [Function.update_self, pin starts]
          · rw [Function.update_of_ne same]
            have early := (mem_append.mp member).resolve_right
              fun here => same (mem_singleton.mp here)
            exact pinned p early notEntry starts

theorem domLoop_pins {final : Doms n} (fuel : Nat) :
    ∀ {doms : Doms n}, WellFormed doms → domLoop cfg fuel doms = some final →
      WellFormed final ∧ (∀ p, (final p).isSome) ∧ Pinned cfg final (List.finRange n) := by
  induction fuel with
  | zero => exact fun _ run => nomatch run
  | succ fuel ih =>
    intro doms wf run
    obtain ⟨doms', changed, pass, wf', filled, pinned⟩ :=
      domPass_pins cfg (List.finRange n) [] rfl doms false wf
        (fun _ member => absurd member not_mem_nil)
        (fun _ member => absurd member not_mem_nil)
    rw [domLoop, domPass, pass] at run
    cases changed with
    | true => exact ih wf' run
    | false =>
      cases run
      exact ⟨wf', filled, pinned⟩

/-- If the dominators come out right, only the entry dominates a block that starts with an unreached
predecessor. -/
theorem harmless_of_computesDominators (correct : ComputesDominators cfg) :
    ∀ b ≠ 0, StartsUnreached cfg b → ∀ a, Dominates cfg.edge 0 a b → a = b ∨ a = 0 := by
  intro b notEntry starts a dominates
  obtain ⟨fuel, r, run, isCorrect⟩ := correct
  unfold computeDominators at run
  split at run
  · cases run
  · next doms loop =>
    obtain ⟨wf, filled, pinned⟩ := domLoop_pins fuel (domInvariant_init cfg).wf loop
    obtain ⟨r', read, sets, _⟩ := readDominators_spec wf filled
    rw [read] at run
    cases run
    have on := (sets a b).mp ((isCorrect.dominators a b).mpr dominates)
    have idom := pinned b (mem_finRange b) notEntry starts
    exact ((onChain_iff idom).mp on).imp_right (onChain_entry wf).mp

end Pinned

/-- The dominators are computed if an unreached predecessor is chosen only where it does no harm, because
the entry alone dominates the block. Where the unreached predecessor is the first of all this is also
needed: the entry then stays the immediate dominator. -/
theorem computeDominators_correct (cfg : DomGraph n) :
    (UnreachedHarmless cfg → ComputesDominators cfg) ∧
      (ComputesDominators cfg →
        ∀ b ≠ 0, StartsUnreached cfg b → ∀ a, Dominates cfg.edge 0 a b → a = b ∨ a = 0) :=
  ⟨computesDominators_of_harmless, harmless_of_computesDominators⟩

/-- A block with edges from the entry and from another block, after an unreached predecessor. -/
def joinGraph : DomGraph 3 where
  inBb := fun b => if b = 1 then [.bb 0] else if b = 2 then [.unreached 7, .bb 1, .bb 0] else []
  reached := by decide

/-- There the unreached predecessor does no harm. -/
theorem computeDominators_correct_join : ComputesDominators joinGraph := by
  refine (computeDominators_correct joinGraph).1 ?_
  have along : ∀ b ≠ 0, joinGraph.edge 0 b := by
    simp only [DomGraph.edge, joinGraph]
    decide
  intro b notEntry _ a dominates
  have member := dominates [b, 0] (Walk.step Walk.start (along b notEntry))
  simpa using member

/-- Three blocks in a row; the last one lists an unreached predecessor first. -/
def rowGraph : DomGraph 3 where
  inBb := fun b => if b = 1 then [.bb 0] else if b = 2 then [.unreached 7, .bb 1] else []
  reached := by decide

/-- Six blocks, of which block 2 lists an unreached predecessor between a higher- and a lower-numbered
one. -/
def swingGraph : DomGraph 6 where
  inBb := fun b =>
    if b = 1 then [.bb 0]
    else if b = 2 then [.bb 3, .unreached 7, .bb 1]
    else if b = 3 then [.bb 1, .bb 5]
    else if b = 4 then [.bb 1]
    else if b = 5 then [.bb 2, .bb 4]
    else []
  reached := by decide

/-- The table of `swingGraph` after an odd and after an even number of passes. -/
def swingDoms (odd : Bool) (b : Fin 6) : Option (BbRef 6) :=
  if b = 2 ∨ b = 5 then some (.bb (if odd then 0 else 1))
  else if b = 3 then some (.bb (if odd then 1 else 0))
  else if b = 4 then some (.bb 1)
  else some (.bb 0)

theorem swingGraph_loops (fuel : Nat) (odd : Bool) : domLoop swingGraph fuel (swingDoms odd) = none := by
  have pass : ∀ odd, domPass swingGraph (swingDoms odd) = some (swingDoms (!odd), true) := by
    decide
  induction fuel generalizing odd with
  | zero => rfl
  | succ fuel ih =>
    rw [domLoop, pass]
    exact ih (!odd)

/-- Block 1 dominates block 2 of `rowGraph`, but the entry comes out as its immediate dominator; and on
`swingGraph` the passes never end. -/
theorem computeDominators_wrong :
    ¬ ComputesDominators rowGraph ∧ ∀ fuel, computeDominators swingGraph fuel = none := by
  constructor
  · intro correct
    have dominates : Dominates rowGraph.edge 0 1 2 := by
      intro path walk
      cases walk with
      | @step _ p _ walk along =>
          have isOne : p = 1 := by simpa [DomGraph.edge, rowGraph] using along
          subst isOne
          exact mem_cons_of_mem _ walk.end_mem
    have only := harmless_of_computesDominators correct 2 (by decide) ⟨7, by decide⟩ 1 dominates
    revert only
    decide
  · intro fuel
    have first : domPass swingGraph initDoms = some (swingDoms true, true) := by decide
    cases fuel with
    | zero => rfl
    | succ fuel =>
        rw [computeDominators, domLoop, first]
        simp only [swingGraph_loops]

end MonoRuntime.Dominators
