/-
Module: MonoRuntime.Proofs.NaturalLoops
Purpose: The natural loops of `mini/dominators.c`. The walk over a loop body is a search along predecessors, so that
  `loop_blocks` of a header is the header with what leads to the sources of its back edges without passing through it,
  in whatever order these come, and `nesting` counts the loops of a block. Loops that meet lie inside each other.
Trusted boundary: none (fully proved)
Main exports: monoComputeNaturalLoops_spec, monoComputeNaturalLoops_nest
-/
import MonoRuntime.Mini.NaturalLoops
import MonoRuntime.Lib.Worklist
import MonoRuntime.Proofs.Dominators
import Mathlib.Algebra.BigOperators.Fin
import Mathlib.Algebra.Order.BigOperators.Group.Finset

namespace MonoRuntime.Dominators

open Dominance Worklist List

variable {n : Nat} [NeZero n]

/-! ### Paths to the source of a back edge -/

section Paths

variable {cfg : LoopGraph n} {h : Fin n}

/-- There is a path from `a` to `b` that does not pass through the header. -/
inductive ReachesWithout (cfg : LoopGraph n) (h : Fin n) : BbRef n → BbRef n → Prop where
  | here {a : BbRef n} (other : a ≠ .bb h) : ReachesWithout cfg h a a
  | step {a b c : BbRef n} (other : a ≠ .bb h) (along : a ∈ cfg.inBbOf b) (rest : ReachesWithout cfg h b c) :
      ReachesWithout cfg h a c

theorem ReachesWithout.ne {a b : BbRef n} (reaches : ReachesWithout cfg h a b) : a ≠ .bb h := by
  cases reaches with
  | here other | step other _ _ => exact other

theorem ReachesWithout.trans {a b c : BbRef n} (first : ReachesWithout cfg h a b) (second : ReachesWithout cfg h b c) :
    ReachesWithout cfg h a c := by
  induction first with
  | here _ => exact second
  | step other along _ ih => exact .step other along (ih second)

/-- The predecessors that belong to the body of a loop. -/
def bodyPreds (cfg : LoopGraph n) (h : Fin n) (b : BbRef n) : List (BbRef n) :=
  if b = .bb h then [] else (cfg.inBbOf b).filter (· ≠ .bb h)

theorem mem_bodyPreds {a b : BbRef n} : a ∈ bodyPreds cfg h b ↔ b ≠ .bb h ∧ a ∈ cfg.inBbOf b ∧ a ≠ .bb h := by
  unfold bodyPreds
  split
  next same => simp [same]
  next other => simp [other]

theorem reaches_iff {b src : BbRef n} (other : src ≠ .bb h) :
    Reaches (bodyPreds cfg h) src b ↔ ReachesWithout cfg h b src := by
  constructor
  · intro reaches
    induction reaches with
    | refl => exact .here other
    | tail _ next ih =>
      obtain ⟨_, along, other'⟩ := mem_bodyPreds.mp next
      exact .step other' along ih
  · intro reaches
    induction reaches with
    | here _ => exact .refl
    | step other' along rest ih => exact (ih other).tail (mem_bodyPreds.mpr ⟨rest.ne, along, other'⟩)

/-- All blocks. -/
def LoopGraph.nodes (cfg : LoopGraph n) : Finset (BbRef n) :=
  Finset.univ.image .bb ∪ (Finset.range cfg.numUnreached).image .unreached

theorem bb_mem_nodes (b : Fin n) : .bb b ∈ cfg.nodes := by
  simp [LoopGraph.nodes]

theorem unreached_mem_nodes {u : Nat} : .unreached u ∈ cfg.nodes ↔ u < cfg.numUnreached := by
  simp [LoopGraph.nodes]

theorem nodes_closed : ∀ b ∈ cfg.nodes, ∀ prev ∈ bodyPreds cfg h b, prev ∈ cfg.nodes := by
  intro b isNode prev member
  obtain ⟨_, along, _⟩ := mem_bodyPreds.mp member
  cases prev with
  | bb p => exact bb_mem_nodes p
  | unreached u =>
    rw [unreached_mem_nodes]
    cases b with
    | bb b => exact cfg.unreached_lt b u along
    | unreached v =>
      obtain ⟨u', member', same⟩ := mem_map.mp along
      cases same
      exact cfg.unreachedInBb_lt v (unreached_mem_nodes.mp isNode) u member'

theorem work_lt (src : BbRef n) (found : List (BbRef n)) :
    work (bodyPreds cfg h) cfg.nodes [src] found < todoMoves cfg := by
  have shorter : ∀ b, (bodyPreds cfg h b).length ≤ (cfg.inBbOf b).length := by
    intro b
    unfold bodyPreds
    split
    · exact Nat.zero_le _
    · exact length_filter_le _ _
  have all : ∑ b ∈ cfg.nodes, (cfg.inBbOf b).length + 2 = todoMoves cfg := by
    have apart : Disjoint ((Finset.univ : Finset (Fin n)).image BbRef.bb)
        ((Finset.range cfg.numUnreached).image BbRef.unreached) := by
      rw [Finset.disjoint_left]
      simp
    unfold LoopGraph.nodes todoMoves
    rw [Finset.sum_union apart, Finset.sum_image fun _ _ _ _ same => BbRef.bb.inj same,
      Finset.sum_image fun _ _ _ _ same => BbRef.unreached.inj same, Fin.sum_univ_def]
    simp only [LoopGraph.inBbOf, length_map]
    rfl
  have fewer : ∑ b ∈ cfg.nodes with b ∉ found, (bodyPreds cfg h b).length ≤ ∑ b ∈ cfg.nodes, (cfg.inBbOf b).length :=
    (Finset.sum_le_sum_of_subset (Finset.filter_subset _ _)).trans (Finset.sum_le_sum fun b _ => shorter b)
  unfold work
  rw [length_singleton]
  omega

end Paths

/-! ### The walk over a loop body -/

section Body

variable {cfg : LoopGraph n} {h : Fin n} {s : BodyState n}

/-- The bits are those of the blocks in the loop. -/
def BodyState.Marked (s : BodyState n) : Prop :=
  ∀ d ≠ 0, d ∈ s.inLoopBlocks ↔ .bb d ∈ s.loopBlocks

theorem BodyState.Marked.inLoop_iff (marked : s.Marked) (b : BbRef n) : s.inLoop b = true ↔ b ∈ s.loopBlocks := by
  unfold BodyState.inLoop
  cases b with
  | bb d =>
    by_cases isEntry : d = 0
    · simp [isEntry]
    · simp [isEntry, marked d isEntry]
  | unreached u => simp

theorem mem_setBit {bits : Finset (Fin n)} {b : BbRef n} {d : Fin n} (isSet : d ≠ 0) :
    d ∈ setBit bits b ↔ d ∈ bits ∨ b = .bb d := by
  cases b with
  | bb c =>
    by_cases isEntry : c = 0
    · subst isEntry
      simp [setBit, isSet.symm]
    · simp [setBit, isEntry, or_comm, eq_comm]
  | unreached u => simp [setBit]

theorem BodyState.Marked.add (marked : s.Marked) (b : BbRef n) : (s.add b).Marked := by
  intro d isSet
  simp only [BodyState.add, BodyState.prepend, mem_setBit isSet, marked d isSet, mem_cons]
  rw [or_comm, eq_comm]

theorem marked_body (s : LoopState n) (h : Fin n) : (s.body h).Marked := by
  have fold : ∀ (list : List (BbRef n)) (bits : Finset (Fin n)) (d : Fin n), d ≠ 0 →
      (d ∈ list.foldl setBit bits ↔ d ∈ bits ∨ .bb d ∈ list) := by
    intro list
    induction list with
    | nil => simp
    | cons b list ih =>
      intro bits d isSet
      rw [foldl_cons, ih _ d isSet, mem_setBit isSet, mem_cons, or_assoc, eq_comm]
  intro d isSet
  exact (fold (s.loopBlocks h) ∅ d isSet).trans (by simp [LoopState.body])

omit [NeZero n] in
theorem prepend_counts (s : BodyState n) (cb b : BbRef n) :
    (s.prepend cb).nesting b + s.loopBlocks.count b = s.nesting b + (s.prepend cb).loopBlocks.count b := by
  simp only [BodyState.prepend]
  by_cases same : b = cb
  · subst same
    rw [Function.update_self, count_cons_self]
    omega
  · rw [Function.update_of_ne same, count_cons_of_ne (Ne.symm same)]

theorem pushPrev_eq (marked : s.Marked) {cb : BbRef n} (other : cb ≠ .bb h) (todo : List (BbRef n)) :
    (cfg.inBbOf cb).foldl (pushPrev h s) todo = push (bodyPreds cfg h) s.loopBlocks todo cb := by
  rw [push, bodyPreds, if_neg other, foldl_filter]
  congr 1
  funext todo prev
  simp only [pushPrev, marked.inLoop_iff, decide_eq_true_eq]
  split_ifs <;> tauto

theorem todoLoop_spec : ∀ (fuel : Nat) (todo : List (BbRef n)) (s : BodyState n), s.Marked → (∀ t ∈ todo, t ≠ .bb h) →
    ∀ {result}, search (bodyPreds cfg h) fuel todo s.loopBlocks = some result →
      ∃ s', todoLoop cfg h fuel todo s = some s' ∧ s'.Marked ∧ s'.loopBlocks = result ∧
        ∀ b, s'.nesting b + s.loopBlocks.count b = s.nesting b + result.count b
  | 0, _, _, _, _, _, run => nomatch run
  | fuel + 1, [], s, marked, _, _, run => by
      cases run
      exact ⟨s, rfl, marked, rfl, fun _ => rfl⟩
  | fuel + 1, cb :: todo, s, marked, others, result, run => by
      obtain ⟨other, others⟩ := forall_mem_cons.mp others
      rw [search] at run
      rw [todoLoop]
      by_cases isIn : cb ∈ s.loopBlocks
      · rw [if_pos isIn] at run
        rw [if_pos ((marked.inLoop_iff cb).mpr isIn)]
        exact todoLoop_spec fuel todo s marked others run
      · rw [if_neg isIn] at run
        rw [if_neg (mt (marked.inLoop_iff cb).mp isIn), pushPrev_eq (marked.add cb) other]
        have others' : ∀ t ∈ push (bodyPreds cfg h) (s.add cb).loopBlocks todo cb, t ≠ .bb h := by
          intro t member
          rcases mem_push.mp member with old | new
          · exact others t old
          · exact (mem_bodyPreds.mp new.1).2.2
        obtain ⟨s', run', marked', same, counts⟩ := todoLoop_spec fuel _ (s.add cb) (marked.add cb) others' run
        refine ⟨s', run', marked', same, fun b => ?_⟩
        have before : (s.add cb).nesting b + s.loopBlocks.count b = s.nesting b + (s.add cb).loopBlocks.count b :=
          prepend_counts s cb b
        have after := counts b
        omega

theorem addHeader_spec (marked : s.Marked) (nodup : s.loopBlocks.Nodup) (h : Fin n) :
    (s.addHeader h).loopBlocks.Nodup ∧ (∀ b, b ∈ (s.addHeader h).loopBlocks ↔ b = .bb h ∨ b ∈ s.loopBlocks) ∧
      ∀ b, (s.addHeader h).nesting b + s.loopBlocks.count b = s.nesting b + (s.addHeader h).loopBlocks.count b := by
  unfold BodyState.addHeader
  by_cases isIn : .bb h ∈ s.loopBlocks
  · rw [if_pos ((marked.inLoop_iff _).mpr isIn)]
    refine ⟨nodup, fun b => ?_, fun _ => rfl⟩
    have : b = .bb h → b ∈ s.loopBlocks := fun same => same ▸ isIn
    tauto
  · rw [if_neg (mt (marked.inLoop_iff _).mp isIn)]
    exact ⟨nodup_cons.mpr ⟨isIn, nodup⟩, fun b => mem_cons, prepend_counts s (.bb h)⟩

end Body

/-! ### The edges, one after another -/

/-- A graph whose dominator sets hold the dominators. -/
structure ExactLoopGraph (n : Nat) [NeZero n] extends LoopGraph n where
  exact : ∀ a b, a ∈ dominators b ↔ Dominates toDomGraph.edge 0 a b

/-- The sets that `compute_dominators` leaves are such sets, where it is correct. -/
theorem LoopGraph.exists_of_correct (cfg : LoopGraph n) {r : DomResult n} (correct : r.Correct cfg.toDomGraph) :
    ∃ g : ExactLoopGraph n, g.toLoopGraph = { cfg with dominators := r.dominators } :=
  ⟨⟨{ cfg with dominators := r.dominators }, correct.dominators⟩, rfl⟩

section Edges

variable {cfg : ExactLoopGraph n}

/-- An edge from `b` back to a block that dominates it. -/
structure BackEdge (cfg : ExactLoopGraph n) (b h : Fin n) : Prop where
  other : b ≠ h
  along : cfg.edge b h
  dominates : Dominates cfg.edge 0 h b

/-- `b` belongs to the loop of a back edge. -/
def InLoop (cfg : ExactLoopGraph n) (src h : Fin n) (b : BbRef n) : Prop :=
  b = .bb h ∨ ReachesWithout cfg.toLoopGraph h b (.bb src)

/-- What the fields are after some edges. -/
structure LoopInvariant (cfg : ExactLoopGraph n) (done : Fin n → Fin n → Prop) (s : LoopState n) : Prop where
  nodup : ∀ h, (s.loopBlocks h).Nodup
  mem : ∀ h b, b ∈ s.loopBlocks h ↔ ∃ src, done src h ∧ BackEdge cfg src h ∧ InLoop cfg src h b
  nesting : ∀ b, s.nesting b = ∑ h, (s.loopBlocks h).count b

omit [NeZero n] in
theorem sum_count_update (loopBlocks : Fin n → List (BbRef n)) (h : Fin n) (list : List (BbRef n)) (b : BbRef n) :
    ∑ h', (Function.update loopBlocks h list h').count b + (loopBlocks h).count b =
      ∑ h', (loopBlocks h').count b + list.count b := by
  have before := Finset.add_sum_erase Finset.univ (fun h' => (loopBlocks h').count b) (Finset.mem_univ h)
  have after := Finset.add_sum_erase Finset.univ (fun h' => (Function.update loopBlocks h list h').count b)
    (Finset.mem_univ h)
  have others : ∑ h' ∈ Finset.univ.erase h, (Function.update loopBlocks h list h').count b =
      ∑ h' ∈ Finset.univ.erase h, (loopBlocks h').count b :=
    Finset.sum_congr rfl fun h' other => by rw [Function.update_of_ne (Finset.ne_of_mem_erase other)]
  simp only [Function.update_self] at after
  omega

variable {done : Fin n → Fin n → Prop} {s : LoopState n} {src : Fin n}

theorem todoLoop_backEdge (inv : LoopInvariant cfg done s) {h : Fin n} (backEdge : BackEdge cfg src h) :
    ∃ body, todoLoop cfg.toLoopGraph h (todoMoves cfg.toLoopGraph) [.bb src] (s.body h) = some body ∧ body.Marked ∧
      body.loopBlocks.Nodup ∧
      (∀ b, b ∈ body.loopBlocks ↔ b ∈ s.loopBlocks h ∨ ReachesWithout cfg.toLoopGraph h b (.bb src)) ∧
      ∀ b, body.nesting b + (s.loopBlocks h).count b = s.nesting b + body.loopBlocks.count b := by
  have other : (.bb src : BbRef n) ≠ .bb h := fun same => backEdge.other (BbRef.bb.inj same)
  have kept : ∀ b ∈ s.loopBlocks h, ∀ prev ∈ bodyPreds cfg.toLoopGraph h b,
      prev ∈ s.loopBlocks h ∨ prev ∈ [.bb src] := by
    intro b isIn prev member
    obtain ⟨notHeader, along, other'⟩ := mem_bodyPreds.mp member
    obtain ⟨src', isDone, backEdge', inLoop⟩ := (inv.mem h b).mp isIn
    exact .inl ((inv.mem h prev).mpr
      ⟨src', isDone, backEdge', .inr (.step other' along (inLoop.resolve_left notHeader))⟩)
  obtain ⟨result, found, nodup, reached⟩ := search_spec nodes_closed (todoMoves cfg.toLoopGraph) [.bb src]
    (s.loopBlocks h) (fun b member => mem_singleton.mp member ▸ bb_mem_nodes src) (inv.nodup h) kept
    (work_lt (.bb src) (s.loopBlocks h))
  obtain ⟨body, run, marked, rfl, counts⟩ := todoLoop_spec (todoMoves cfg.toLoopGraph) [.bb src] (s.body h)
    (marked_body s h) (fun b member => mem_singleton.mp member ▸ other) found
  refine ⟨body, run, marked, nodup, fun b => ?_, counts⟩
  rw [reached]
  simp [reaches_iff other]

theorem processEdge_invariant (inv : LoopInvariant cfg done s) {h : Fin n} (along : h ∈ cfg.outBb src) :
    ∃ s', processEdge cfg.toLoopGraph src s h = some s' ∧
      LoopInvariant cfg (fun a b => done a b ∨ a = src ∧ b = h) s' := by
  unfold processEdge
  by_cases isBack : src ≠ h ∧ h ∈ cfg.dominators src
  · rw [if_pos isBack]
    have backEdge : BackEdge cfg src h :=
      ⟨isBack.1, (cfg.linked src h).mp along, (cfg.exact h src).mp isBack.2⟩
    by_cases isIn : .bb src ∈ s.loopBlocks h
    · -- Another loop of the header has the source, so that it has what leads there.
      rw [if_pos isIn]
      obtain ⟨src', isDone, backEdge', inLoop⟩ := (inv.mem h (.bb src)).mp isIn
      have reaches := inLoop.resolve_left fun same => backEdge.other (BbRef.bb.inj same)
      refine ⟨s, rfl, inv.nodup, fun h' b => ?_, inv.nesting⟩
      rw [inv.mem]
      constructor
      · rintro ⟨a, isDone, rest⟩
        exact ⟨a, .inl isDone, rest⟩
      · rintro ⟨a, isDone | ⟨rfl, rfl⟩, backEdge, inLoop⟩
        · exact ⟨a, isDone, backEdge, inLoop⟩
        · exact ⟨src', isDone, backEdge', inLoop.imp_right fun path => path.trans reaches⟩
    · rw [if_neg isIn]
      obtain ⟨body, run, marked, nodup, found, counts⟩ := todoLoop_backEdge inv backEdge
      obtain ⟨nodup', found', counts'⟩ := addHeader_spec marked nodup h
      refine ⟨_, by rw [run]; rfl, ?_, ?_, ?_⟩
      · intro h'
        by_cases same : h' = h
        · subst same
          simpa using nodup'
        · simpa [same] using inv.nodup h'
      · intro h' b
        by_cases same : h' = h
        · subst same
          simp only [Function.update_self, found', found, inv.mem]
          constructor
          · rintro (rfl | ⟨a, isDone, rest⟩ | path)
            · exact ⟨src, .inr ⟨rfl, trivial⟩, backEdge, .inl rfl⟩
            · exact ⟨a, .inl isDone, rest⟩
            · exact ⟨src, .inr ⟨rfl, trivial⟩, backEdge, .inr path⟩
          · rintro ⟨a, isDone | ⟨rfl, _⟩, isEdge, inLoop⟩
            · exact .inr (.inl ⟨a, isDone, isEdge, inLoop⟩)
            · exact inLoop.imp_right .inr
        · simp [same, inv.mem]
      · intro b
        have sum := sum_count_update s.loopBlocks h (body.addHeader h).loopBlocks b
        have old := inv.nesting b
        have first := counts b
        have second := counts' b
        dsimp only
        omega
  · rw [if_neg isBack]
    refine ⟨s, rfl, inv.nodup, fun h' b => ?_, inv.nesting⟩
    rw [inv.mem]
    constructor
    · rintro ⟨a, isDone, rest⟩
      exact ⟨a, .inl isDone, rest⟩
    · rintro ⟨a, isDone | ⟨rfl, rfl⟩, backEdge, inLoop⟩
      · exact ⟨a, isDone, backEdge, inLoop⟩
      · exact absurd ⟨backEdge.other, (cfg.exact h' a).mpr backEdge.dominates⟩ isBack

theorem LoopInvariant.congr {done' : Fin n → Fin n → Prop} (inv : LoopInvariant cfg done s)
    (same : ∀ a b, done a b ↔ done' a b) : LoopInvariant cfg done' s where
  nodup := inv.nodup
  mem := fun h b => by simp only [inv.mem, same]
  nesting := inv.nesting

theorem outBb_invariant : ∀ (outs : List (Fin n)) {done : Fin n → Fin n → Prop} {s : LoopState n},
    LoopInvariant cfg done s → (∀ h ∈ outs, h ∈ cfg.outBb src) →
      ∃ s', outs.foldlM (processEdge cfg.toLoopGraph src) s = some s' ∧
        LoopInvariant cfg (fun a b => done a b ∨ a = src ∧ b ∈ outs) s'
  | [], _, s, inv, _ => ⟨s, rfl, inv.congr (by simp)⟩
  | h :: outs, done, s, inv, along => by
      obtain ⟨along, alongs⟩ := forall_mem_cons.mp along
      obtain ⟨middle, first, inv'⟩ := processEdge_invariant inv along
      obtain ⟨s', rest, inv''⟩ := outBb_invariant outs inv' alongs
      refine ⟨s', by rw [foldlM_cons, first]; exact rest, inv''.congr fun a b => ?_⟩
      rw [mem_cons]
      tauto

theorem blocks_invariant : ∀ (blocks : List (Fin n)) {done : Fin n → Fin n → Prop} {s : LoopState n},
    LoopInvariant cfg done s →
      ∃ s', blocks.foldlM (fun s b => (cfg.outBb b).foldlM (processEdge cfg.toLoopGraph b) s) s = some s' ∧
        LoopInvariant cfg (fun a b => done a b ∨ a ∈ blocks ∧ b ∈ cfg.outBb a) s'
  | [], _, s, inv => ⟨s, rfl, inv.congr (by simp)⟩
  | src :: blocks, done, s, inv => by
      obtain ⟨middle, first, inv'⟩ := outBb_invariant (cfg.outBb src) inv fun _ member => member
      obtain ⟨s', rest, inv''⟩ := blocks_invariant blocks inv'
      refine ⟨s', by rw [foldlM_cons, first]; exact rest, inv''.congr fun a b => ?_⟩
      rw [mem_cons]
      constructor
      · rintro ((old | ⟨rfl, member⟩) | ⟨later, member⟩)
        · exact .inl old
        · exact .inr ⟨.inl rfl, member⟩
        · exact .inr ⟨.inr later, member⟩
      · rintro (old | ⟨rfl | later, member⟩)
        · exact .inl (.inl old)
        · exact .inl (.inr ⟨rfl, member⟩)
        · exact .inr ⟨later, member⟩

end Edges

section Nesting

variable {cfg : ExactLoopGraph n} {h h' src b : Fin n} {a c : BbRef n}

/-- The loop of a header. -/
def NaturalLoop (cfg : ExactLoopGraph n) (h : Fin n) (b : BbRef n) : Prop :=
  ∃ src, BackEdge cfg src h ∧ InLoop cfg src h b

theorem ReachesWithout.walk {cfg : LoopGraph n} (reaches : ReachesWithout cfg h a c) :
    ∀ {b : Fin n} {path : List (Fin n)}, a = .bb b → Walk cfg.edge 0 path b → h ∉ path →
      ∃ d path', c = .bb d ∧ Walk cfg.edge 0 path' d ∧ h ∉ path' := by
  induction reaches with
  | here _ => exact fun same walk without => ⟨_, _, same, walk, without⟩
  | @step a next c _ along rest ih =>
    rintro b path rfl walk without
    cases next with
    | unreached u => simp [LoopGraph.inBbOf] at along
    | bb d =>
      have other : h ≠ d := fun same => rest.ne (same ▸ rfl)
      exact ih rfl (.step walk along) (by simp [other, without])

/-- The header dominates the blocks with a number from which its back edge is reached. -/
theorem ReachesWithout.dominates (reaches : ReachesWithout cfg.toLoopGraph h (.bb b) (.bb src))
    (dominates : Dominates cfg.edge 0 h src) : Dominates cfg.edge 0 h b := by
  intro path walk
  by_contra without
  obtain ⟨d, path', same, walk', without'⟩ := reaches.walk rfl walk without
  cases same
  exact without' (dominates path' walk')

theorem ReachesWithout.avoids (reaches : ReachesWithout cfg.toLoopGraph h' a (.bb src))
    (dominates : Dominates cfg.edge 0 h' src) (apart : ¬ Dominates cfg.edge 0 h' h) :
    ReachesWithout cfg.toLoopGraph h a (.bb src) := by
  generalize target : BbRef.bb src = c at reaches ⊢
  induction reaches with
  | here _ =>
    subst target
    exact .here fun same => apart (BbRef.bb.inj same ▸ dominates)
  | step other along rest ih =>
    refine .step ?_ along (ih target)
    rintro rfl
    subst target
    exact apart ((ReachesWithout.step other along rest).dominates dominates)

theorem reaches_of_dominates (dominates : Dominates cfg.edge 0 h' b) (apart : ¬ Dominates cfg.edge 0 h' h) :
    ReachesWithout cfg.toLoopGraph h (.bb h') (.bb b) := by
  have other : ∀ {d : Fin n}, Dominates cfg.edge 0 h' d → BbRef.bb d ≠ .bb h :=
    fun dominates same => apart (BbRef.bb.inj same ▸ dominates)
  obtain ⟨path, walk, -⟩ := cfg.exists_descending b
  induction walk with
  | start =>
    obtain rfl := dominates.eq_entry
    exact .here (other dominates)
  | @step path p d walk along ih =>
    by_cases isHeader : h' = d
    · subst isHeader
      exact .here (other dominates)
    · have before := dominates.pred isHeader along
      have onWay : .bb p ∈ cfg.inBbOf (.bb d) := along
      exact (ih before).trans (.step (other before) onWay (.here (other dominates)))

theorem NaturalLoop.dominates (inLoop : NaturalLoop cfg h (.bb b)) : Dominates cfg.edge 0 h b := by
  obtain ⟨src, backEdge, same | reaches⟩ := inLoop
  · cases same
    exact dominates_refl h
  · exact reaches.dominates backEdge.dominates

/-- Of two loops with a common block the one with the lower header is inside the other. -/
theorem NaturalLoop.nested (outer : NaturalLoop cfg h (.bb b)) (inner : NaturalLoop cfg h' (.bb b)) (other : h ≠ h')
    (dominates : Dominates cfg.edge 0 h h') :
    NaturalLoop cfg h (.bb h') ∧ ∀ c, NaturalLoop cfg h' c → NaturalLoop cfg h c := by
  have apart : ¬ Dominates cfg.edge 0 h' h :=
    fun back => other (le_antisymm (dominates_le dominates) (dominates_le back))
  obtain ⟨src, backEdge, same | reaches⟩ := outer
  · cases same
    exact absurd inner.dominates apart
  · have header := (reaches_of_dominates inner.dominates apart).trans reaches
    refine ⟨⟨src, backEdge, .inr header⟩, ?_⟩
    rintro c ⟨src', backEdge', rfl | reaches'⟩
    · exact ⟨src, backEdge, .inr header⟩
    · -- The way leads on along the back edge of the inner loop.
      have otherSrc : BbRef.bb src' ≠ .bb h := fun same => apart (BbRef.bb.inj same ▸ backEdge'.dominates)
      have along : .bb src' ∈ cfg.inBbOf (.bb h') := backEdge'.along
      have path := reaches'.avoids backEdge'.dominates apart
      exact ⟨src, backEdge, .inr (path.trans (.step otherSrc along header))⟩

/-- The loops that are found with the dominators of `compute_dominators`: a header is a dominator of the blocks of its
loop that have a number, and of two loops with such a block in common one has the header of the other and all of its
loop. -/
theorem monoComputeNaturalLoops_nest (cfg : LoopGraph n) (harmless : UnreachedHarmless cfg.toDomGraph) :
    ∃ fuel r s, computeDominators cfg.toDomGraph fuel = some r ∧
      monoComputeNaturalLoops { cfg with dominators := r.dominators } = some s ∧
      (∀ h b, .bb b ∈ s.loopBlocks h → h ∈ r.dominators b) ∧
      ∀ h h' b, h ≠ h' → .bb b ∈ s.loopBlocks h → .bb b ∈ s.loopBlocks h' →
        .bb h' ∈ s.loopBlocks h ∧ s.loopBlocks h' ⊆ s.loopBlocks h ∨
          .bb h ∈ s.loopBlocks h' ∧ s.loopBlocks h ⊆ s.loopBlocks h' := by
  obtain ⟨fuel, r, run, correct⟩ := computesDominators_of_harmless harmless
  obtain ⟨g, isG⟩ := cfg.exists_of_correct correct
  have start : LoopInvariant g (fun _ _ => False) { loopBlocks := fun _ => [], nesting := fun _ => 0 } :=
    ⟨fun _ => nodup_nil, by simp, by simp⟩
  obtain ⟨s, found, inv⟩ := blocks_invariant (List.finRange n) start
  have found : monoComputeNaturalLoops g.toLoopGraph = some s := found
  have mem : ∀ h b, b ∈ s.loopBlocks h ↔ NaturalLoop g h b := by
    intro h b
    rw [inv.mem]
    refine exists_congr fun src => ?_
    have isEdge : BackEdge g src h → h ∈ g.outBb src := fun backEdge => (g.linked src h).mpr backEdge.along
    simp only [mem_finRange, true_and, false_or]
    tauto
  have sets : g.dominators = r.dominators := congrArg LoopGraph.dominators isG
  refine ⟨fuel, r, s, run, isG ▸ found, fun h b member => ?_, fun h h' b other inFirst inSecond => ?_⟩
  · rw [← sets]
    exact (g.exact h b).mpr ((mem h _).mp member).dominates
  · simp only [mem, subset_def] at inFirst inSecond ⊢
    obtain ⟨path, walk, _⟩ := g.exists_descending b
    rcases inFirst.dominates.total ⟨path, walk⟩ inSecond.dominates with above | below
    · exact .inl (inFirst.nested inSecond other above)
    · exact .inr (inSecond.nested inFirst other.symm below)

end Nesting

local instance twoLoopBlocks : NeZero (1 + 1) := ⟨Nat.succ_ne_zero 1⟩

/-- Two blocks that lead to each other; the entry is the header of a loop. -/
def backLoopGraph : ExactLoopGraph 2 where
  inBb := fun b => if b = 0 then [.bb 1] else [.bb 0]
  reached := by decide
  outBb := fun b => if b = 0 then [1] else [0]
  linked := by decide
  numUnreached := 0
  unreachedInBb := fun _ => []
  unreached_lt := by
    intro b u member
    split at member <;> simp at member
  unreachedInBb_lt := by simp
  dominators := fun b => if b = 0 then {0} else {0, 1}
  exact := by
    intro a b
    by_cases isEntry : a = 0
    · subst isEntry
      exact iff_of_true (by split <;> simp) (dominates_of_entry b)
    · obtain rfl : a = 1 := by omega
      by_cases first : b = 0
      · subst first
        exact iff_of_false (by decide) fun entry => isEntry (Dominates.eq_entry entry)
      · obtain rfl : b = 1 := by omega
        exact iff_of_true (by decide) (dominates_refl 1)

theorem monoComputeNaturalLoops_nest_backLoopGraph : ∃ fuel r s, computeDominators backLoopGraph.toDomGraph fuel = some r ∧
      monoComputeNaturalLoops { backLoopGraph.toLoopGraph with dominators := r.dominators } = some s ∧
      ∀ h b, .bb b ∈ s.loopBlocks h → h ∈ r.dominators b := by
  have harmless : UnreachedHarmless backLoopGraph.toDomGraph := by
    intro b notEntry _ a _
    omega
  obtain ⟨fuel, r, s, run, found, dominated, _⟩ := monoComputeNaturalLoops_nest backLoopGraph.toLoopGraph harmless
  exact ⟨fuel, r, s, run, found, dominated⟩

end MonoRuntime.Dominators
