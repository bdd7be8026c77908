/-
Module: MonoRuntime.Proofs.BasicBlockLiveness
Purpose: `bb_liveness` ends and marks a set of blocks that is closed under the edges, so that code that is
  reachable along recorded edges is in live blocks. The code that is lost is reachable only along edges of a
  switch that were attached to the first half of its own split block.
Trusted boundary: none
Main exports: monoBasicBlockSplit_live, monoBasicBlockSplit_drops_code
-/
import MonoRuntime.Proofs.BasicBlockPasses
import Mathlib.Data.Finset.Card

namespace MonoRuntime.BasicBlock

open Il Fallible List

/-! ### Marking -/

/-- The blocks that are dead. -/
def deadBlocks (h : BbHeap) : Finset Ptr :=
  (Finset.range h.count).filter fun b => h.dead b = true

/-- What the marking leaves to do: at most one step for each entry of the stack, and for each block that is
dead the entries it may add, twice; a dead block at the head has its own entries still to come. -/
def markWork (h : BbHeap) (edges : Nat) : List Ptr → Nat
  | [] => 2 * (deadBlocks h).card * edges + edges
  | b :: rest => (b :: rest).length + 2 * (deadBlocks h).card * edges + if h.dead b then 0 else edges

/-- What is live, apart from the blocks on the stack, has its successors live or on the stack. -/
def Marking (h : BbHeap) (markStack : List Ptr) : Prop :=
  ∀ b < h.count, h.dead b = false →
    b ∈ markStack ∨ ∀ o ∈ h.outBb b, h.dead o = false ∨ o ∈ markStack

theorem foldl_push (h : BbHeap) : ∀ (outs markStack : List Ptr),
    outs.foldl (fun stack bb => if h.dead bb then bb :: stack else stack) markStack
      = (outs.filter fun bb => h.dead bb).reverse ++ markStack
  | [], _ => rfl
  | o :: outs, markStack => by
      rw [foldl_cons, foldl_push h outs]
      cases dead : h.dead o with
      | true | false => simp [dead]

variable {h : BbHeap} {b : Ptr} {header : MonoMethodHeader}

theorem card_deadBlocks_setDead (allocated : b < h.count)
    (isDead : h.dead b = true) : (deadBlocks (setDead h b false)).card + 1 = (deadBlocks h).card := by
  have erased : deadBlocks (setDead h b false) = (deadBlocks h).erase b := by
    ext x
    simp only [deadBlocks, setDead, Finset.mem_filter, Finset.mem_range, Finset.mem_erase,
      Function.update_apply]
    by_cases same : x = b
    · subst same
      simp
    · simp [same]
  rw [erased]
  exact Finset.card_erase_add_one (Finset.mem_filter.2 ⟨Finset.mem_range.2 allocated, isDead⟩)

theorem setDead_of_live (isLive : h.dead b = false) : setDead h b false = h := by
  have same : Function.update h.dead b false = h.dead := by
    rw [← isLive]
    exact Function.update_eq_self _ _
  rw [setDead, same]

theorem markWork_le (h : BbHeap) (edges : Nat) (markStack : List Ptr) :
    markWork h edges markStack ≤ markStack.length + 2 * (deadBlocks h).card * edges + edges := by
  cases markStack with
  | nil => simp [markWork]
  | cons b rest =>
    rw [markWork]
    split <;> omega

theorem le_markWork (edges : Nat) : ∀ {markStack : List Ptr},
    (∀ b ∈ markStack, b < h.count) → edges ≤ markWork h edges markStack
  | [], _ => Nat.le_add_left _ _
  | b :: rest, allocated => by
      rw [markWork]
      split
      next isDead =>
        have count := card_deadBlocks_setDead (allocated b mem_cons_self) isDead
        have twice : 1 * edges ≤ 2 * (deadBlocks h).card * edges :=
          Nat.mul_le_mul_right edges (by omega)
        omega
      next => omega

theorem markWork_step {edges : Nat} (rest : List Ptr) (allocated : b < h.count) (few : (h.outBb b).length ≤ edges) :
    markWork (setDead h b false) edges
        (((h.outBb b).filter fun o => (setDead h b false).dead o).reverse ++ rest)
      < markWork h edges (b :: rest) := by
  have pushed := length_filter_le (fun o => (setDead h b false).dead o) (h.outBb b)
  cases isDead : h.dead b with
  | true =>
    have upper := markWork_le (setDead h b false) edges
      (((h.outBb b).filter fun o => (setDead h b false).dead o).reverse ++ rest)
    have count := card_deadBlocks_setDead allocated isDead
    rw [length_append, length_reverse] at upper
    rw [markWork, isDead, if_pos rfl, length_cons, ← count, Nat.mul_add, Nat.add_mul]
    omega
  | false =>
    rw [setDead_of_live isDead] at pushed ⊢
    have old : markWork h edges (b :: rest)
        = rest.length + 1 + 2 * (deadBlocks h).card * edges + edges := by
      rw [markWork, isDead]
      rfl
    cases isPushed : ((h.outBb b).filter fun o => h.dead o).reverse with
    | nil =>
      have upper := markWork_le h edges rest
      rw [nil_append]
      omega
    | cons o more =>
      -- A dead block is at the head now.
      have member : o ∈ ((h.outBb b).filter fun o => h.dead o).reverse := by
        rw [isPushed]
        exact mem_cons_self
      have headDead : h.dead o = true := (mem_filter.1 (mem_reverse.1 member)).2
      have length := congrArg List.length isPushed
      rw [length_reverse, length_cons] at length
      rw [cons_append, markWork, headDead, if_pos rfl, length_cons, length_append]
      omega

/-- The result of the marking: as before, with a closed set of live blocks. -/
structure Marked (h h' : BbHeap) : Prop where
  same : SameBlocks h h'
  outs : h'.outBb = h.outBb
  live : ∀ b, h.dead b = false → h'.dead b = false
  closed : ∀ b < h.count, h'.dead b = false → ∀ o ∈ h.outBb b, h'.dead o = false

/-- The marking ends: the induction is on the fuel, of which there is more than work. -/
theorem markLoop_spec {edges : Nat} : ∀ (fuel : Nat) (markStack : List Ptr) {h : BbHeap},
    (∀ b ∈ markStack, b < h.count) → (∀ b < h.count, ∀ o ∈ h.outBb b, o < h.count) →
      (∀ b < h.count, (h.outBb b).length ≤ edges) → markWork h edges markStack < fuel + edges →
        Marking h markStack → ∃ h', markLoop fuel markStack h = some h' ∧ Marked h h'
  | 0, markStack, h, allocated, _, _, enough, _ => by
      have := le_markWork edges allocated
      omega
  | fuel + 1, [], h, _, _, _, _, marking => by
      refine ⟨h, rfl, ⟨rfl, rfl, rfl, rfl, rfl⟩, rfl, fun _ live => live, fun b isBlock live o member => ?_⟩
      rcases marking b isBlock live with onStack | closed
      · cases onStack
      · exact (closed o member).resolve_right not_mem_nil
  | fuel + 1, b :: rest, h, allocated, outs, few, enough, marking => by
      have isBlock := allocated b mem_cons_self
      have less := markWork_step rest isBlock (few b isBlock)
      have stays : ∀ c, h.dead c = false → (setDead h b false).dead c = false := by
        intro c live
        simp only [setDead, Function.update_apply, live, ite_self]
      obtain ⟨h', run, marked⟩ := markLoop_spec fuel
        (((h.outBb b).filter fun o => (setDead h b false).dead o).reverse ++ rest)
        (h := setDead h b false)
        (by
          intro o member
          rcases mem_append.1 member with pushed | old
          · exact outs b isBlock o (mem_filter.1 (mem_reverse.1 pushed)).1
          · exact allocated o (mem_cons_of_mem _ old))
        outs few (by omega)
        (by
          intro c isC live
          by_cases same : c = b
          · subst same
            refine Or.inr fun o member => ?_
            cases dead : (setDead h c false).dead o with
            | false => exact Or.inl rfl
            | true =>
              exact Or.inr (mem_append_left _ (mem_reverse.2 (mem_filter.2 ⟨member, dead⟩)))
          · have was : h.dead c = false := by
              simp only [setDead, Function.update_apply, if_neg same] at live
              exact live
            rcases marking c isC was with onStack | closed
            · rcases mem_cons.1 onStack with isB | old
              · exact absurd isB same
              · exact Or.inl (mem_append_right _ old)
            · refine Or.inr fun o member => ?_
              rcases closed o member with liveO | onStack
              · exact Or.inl (stays o liveO)
              · rcases mem_cons.1 onStack with rfl | old
                · exact Or.inl (Function.update_self _ _ _)
                · exact Or.inr (mem_append_right _ old))
      obtain ⟨links, next, start, stop, count⟩ := marked.same
      refine ⟨h', ?_, ⟨links, next, start, stop, count⟩, marked.outs, fun c live => marked.live c (stays c live), marked.closed⟩
      rw [← run]
      exact congrArg (fun stack => markLoop fuel stack (setDead h b false))
        (foldl_push (setDead h b false) (h.outBb b) rest)

theorem collectLive_spec (h : BbHeap) : ∀ (blocks : List Ptr) (fuel : Nat) (markStack : List Ptr),
    Chained h.next blocks → blocks.length ≤ fuel → ∃ result, collectLive h fuel blocks.head? markStack = some result ∧
        (∀ b, b ∈ result ↔ b ∈ markStack ∨ (b ∈ blocks ∧ h.dead b = false)) ∧
        result.length ≤ markStack.length + blocks.length
  | [], fuel, markStack, _, _ => by
      refine ⟨markStack, by cases fuel <;> rfl, fun b => ?_, Nat.le_add_right _ _⟩
      simp
  | p :: rest, 0, _, _, short => absurd short (Nat.not_succ_le_zero _)
  | p :: rest, fuel + 1, markStack, ⟨isNext, chained⟩, short => by
      obtain ⟨result, run, members, length⟩ := collectLive_spec h rest fuel
        (if h.dead p = false then p :: markStack else markStack) chained
        (Nat.le_of_succ_le_succ short)
      refine ⟨result, by rw [head?_cons, collectLive, isNext, run], fun b => ?_, ?_⟩
      · rw [members, mem_cons]
        split
        next isLive =>
          rw [mem_cons]
          constructor
          · rintro ((rfl | old) | new)
            · exact Or.inr ⟨Or.inl rfl, isLive⟩
            · exact Or.inl old
            · exact Or.inr ⟨Or.inr new.1, new.2⟩
          · rintro (old | ⟨rfl | inRest, live⟩)
            · exact Or.inl (Or.inr old)
            · exact Or.inl (Or.inl rfl)
            · exact Or.inr ⟨inRest, live⟩
        next isDead =>
          constructor
          · rintro (old | new)
            · exact Or.inl old
            · exact Or.inr ⟨Or.inr new.1, new.2⟩
          · rintro (old | ⟨rfl | inRest, live⟩)
            · exact Or.inl old
            · exact absurd live isDead
            · exact Or.inr ⟨inRest, live⟩
      · rw [length_cons]
        split at length
        next =>
          rw [length_cons] at length
          omega
        next => omega

theorem le_foldl_max (f : Ptr → Nat) : ∀ (blocks : List Ptr) (most : Nat),
    most ≤ blocks.foldl (fun most b => max most (f b)) most ∧
      ∀ b ∈ blocks, f b ≤ blocks.foldl (fun most b => max most (f b)) most
  | [], most => ⟨Nat.le_refl _, fun _ member => by cases member⟩
  | p :: rest, most => by
      obtain ⟨grows, bounds⟩ := le_foldl_max f rest (max most (f p))
      refine ⟨Nat.le_trans (Nat.le_max_left _ _) grows, fun b member => ?_⟩
      rcases mem_cons.1 member with rfl | inRest
      · exact Nat.le_trans (Nat.le_max_right _ _) grows
      · exact bounds b inRest

theorem bbLiveness_spec {n : Nat} (ok : BbOk n h) : ∃ h', bbLiveness h = some h' ∧ Marked h h' := by
  obtain ⟨blocks, t, valid⟩ := ok.valid
  obtain ⟨markStack, run, members, length⟩ :=
    collectLive_spec h blocks h.count [] valid.chained (Nat.le_of_eq valid.length)
  rw [valid.first] at run
  rw [length_nil, Nat.zero_add, valid.length] at length
  have few : ∀ b < h.count, (h.outBb b).length ≤ maxOut h := fun b isBlock =>
    (le_foldl_max (fun b => (h.outBb b).length) (List.range h.count) 0).2 b (mem_range.2 isBlock)
  have work : markWork h (maxOut h) markStack
      < h.count + 2 * h.count * maxOut h + 1 + maxOut h := by
    have upper := markWork_le h (maxOut h) markStack
    have dead : (deadBlocks h).card ≤ h.count :=
      (Finset.card_filter_le _ _).trans (Nat.le_of_eq (Finset.card_range _))
    have product : 2 * (deadBlocks h).card * maxOut h ≤ 2 * h.count * maxOut h :=
      Nat.mul_le_mul_right _ (Nat.mul_le_mul_left _ dead)
    omega
  obtain ⟨h', marks, marked⟩ := markLoop_spec _ markStack
    (fun b member => by
      rcases (members b).1 member with none | ⟨inBlocks, _⟩
      · cases none
      · exact (valid.members b).1 inBlocks)
    ok.outs few work
    (fun b isBlock live => Or.inl ((members b).2 (Or.inr ⟨(valid.members b).2 isBlock, live⟩)))
  exact ⟨h', by simp only [bbLiveness, run, marks], marked⟩

/-! ### Reachable code -/

/-- The address is in a block that is not dead. -/
def InLiveBlock (h : BbHeap) (x : Nat) : Prop :=
  ∃ b, InBlock h x b ∧ h.dead b = false

section Live

variable {code : List (BitVec 8)} {entries : Nat → Prop} {h h' : BbHeap}

theorem Marked.flow (marked : Marked h h') (ok : BbOk code.length h) {x : Nat} (flow : Flow h x)
    (live : InLiveBlock h' x) (inside : x + 1 < code.length) : InLiveBlock h' (x + 1) := by
  obtain ⟨b, inB, isLive⟩ := live
  rw [marked.same.inBlock] at inB
  obtain ⟨b', inB'⟩ := ok.covers inside
  refine ⟨b', (marked.same.inBlock _ _).2 inB', ?_⟩
  rcases flow b b' inB inB' with rfl | member
  · exact isLive
  · exact marked.closed b inB.1 isLive b' member

theorem Marked.inner (marked : Marked h h') (inv : EhInv code entries h) {p ip value : Nat}
    (ins : IsIns code p ip value) (live : InLiveBlock h' p) : ∀ (k : Nat),
      p + k < insEnd code ip value → p + k < code.length → InLiveBlock h' (p + k)
  | 0, _, _ => live
  | k + 1, before, inside => by
      have step := marked.inner inv ins live k (by omega) (by omega)
      have flow := (inv.recorded p ip value ins).inner (p + k) (Nat.le_add_right _ _) (by omega)
      exact marked.flow inv.ok flow step inside

theorem Marked.edge (marked : Marked h h') (inv : EhInv code entries h) {p q : Nat}
    (edge : KeptEdge code p q) (live : InLiveBlock h' p) (inside : q < code.length) : InLiveBlock h' q := by
  cases edge with
  | @fall ip value ins falls inside' =>
    have grows := (le_of_decodeIl ins.decoded).2
    have last := marked.inner inv ins live (insEnd code ip value - 1 - p) (by omega) (by omega)
    have isLast : p + (insEnd code ip value - 1 - p) + 1 = insEnd code ip value := by omega
    have flow := (inv.recorded p ip value ins).falls falls inside'
    have isBefore : insEnd code ip value - 1 = p + (insEnd code ip value - 1 - p) := by omega
    rw [isBefore] at flow
    have next := marked.flow inv.ok flow last (by omega)
    rwa [isLast] at next
  | @target ip value j t ins isTarget kept =>
    rcases (inv.recorded p ip value ins).edges j t isTarget kept with self | branch
    · rw [self]
      exact live
    · obtain ⟨x, b, b', low, high, inB, isBlock, isStart, member⟩ := branch
      have bounds := inv.ok.bounds inB.1
      have inCode : x < code.length := by
        have := inB.2
        omega
      have within := marked.inner inv ins live (x - p) (by omega) (by omega)
      rw [Nat.add_sub_cancel' low] at within
      obtain ⟨c, inC, liveC⟩ := within
      rw [marked.same.inBlock] at inC
      have same := inv.ok.unique inB inC
      subst same
      have boundsT := inv.ok.bounds isBlock
      have inTarget : InBlock h t.toNat b' := ⟨isBlock, by omega, by omega⟩
      exact ⟨b', (marked.same.inBlock _ _).2 inTarget, marked.closed b inC.1 liveC b' member⟩

theorem Marked.reachable {header : MonoMethodHeader} (marked : Marked h h')
    (inv : EhInv header.code (Entry header.clauses) h) {q : Nat}
    (reachable : Reachable header (KeptEdge header.code) q) (inside : q < header.code.length) : InLiveBlock h' q := by
  have entry : ∀ o, Entry header.clauses o → InLiveBlock h' o := by
    intro o isEntry
    obtain ⟨b, isBlock, isStart, isAlive⟩ := inv.alive o isEntry
    have bounds := inv.ok.bounds isBlock
    exact ⟨b, (marked.same.inBlock _ _).2 ⟨isBlock, by omega, by omega⟩, marked.live b isAlive⟩
  induction reachable with
  | start => exact entry 0 (Or.inl rfl)
  | entry isClause isEntry => exact entry _ (Or.inr ⟨_, isClause, _, isEntry, rfl⟩)
  | @step p q _ isEdge ih =>
    have inCode : p < header.code.length := by
      cases isEdge with
      | fall ins _ _ | target ins _ _ => exact ins.inside
    exact marked.edge inv isEdge (ih inCode) inside

end Live

/-! ### The whole pass -/

theorem initBb_inv {code : List (BitVec 8)} (pos : 0 < code.length) : IlInv code 0 (initBb code.length) where
  ok := ⟨⟨_, _, initBb_valid (Int.natCast_pos.2 pos)⟩, fun _ _ _ member => by cases member⟩
  recorded _ _ _ _ before := absurd before (Nat.not_lt_zero _)
  ahead _ _ _ := fun b b' inB inB' => by
    have isFirst : b = 0 := Nat.lt_one_iff.1 inB.1
    have isFirst' : b' = 0 := Nat.lt_one_iff.1 inB'.1
    exact Or.inl (isFirst.trans isFirst'.symm)
  entry := rfl

theorem IlInv.ehInv {code : List (BitVec 8)} (inv : IlInv code code.length h) : EhInv code (Entry []) h where
  ok := inv.ok
  recorded p ip value ins := inv.recorded p ip value ins ins.inside
  alive o isEntry := by
    rcases isEntry with rfl | ⟨_, none, _⟩
    · exact ⟨0, inv.ok.first.1, inv.ok.first.2, inv.entry⟩
    · cases none

theorem passes_spec (cuts : ClausesCutFlow header) : Triple (IlInv header.code 0)
      (do
        bbFormationIlPass header.code (header.code.length + 1) 0 0
        bbFormationEhPass header.code.length header.clauses)
      fun _ => EhInv header.code (Entry header.clauses) := by
  refine triple_bind ((ilPass_spec header.small _ ScanPos.first (Nat.lt_succ_self _)).pre fun h inv => ?_)
    fun _ => (ehPass_spec header.small cuts).pre fun h inv => inv.ehInv
  exact ⟨inv, inv.ok.first.1, Int.le_of_eq inv.ok.first.2⟩

/-- `mono_basic_block_split` always ends on a body that is not empty, and its blocks keep the kept edges. -/
theorem monoBasicBlockSplit_spec (cuts : ClausesCutFlow header) (pos : 0 < header.code.length) :
    ∃ result, monoBasicBlockSplit header = some result ∧
      ∀ h', result = .ok h' → ∃ h, EhInv header.code (Entry header.clauses) h ∧ Marked h h' := by
  obtain ⟨h, r, run, result⟩ := passes_spec cuts _ (initBb_inv pos)
  cases r with
  | error e => exact ⟨.error e, by simp only [monoBasicBlockSplit, run], fun _ isOk => by cases isOk⟩
  | ok u =>
    obtain ⟨h', live, marked⟩ := bbLiveness_spec (result u rfl).ok
    refine ⟨.ok h', by simp only [monoBasicBlockSplit, run, live], fun _ isOk => ?_⟩
    cases isOk
    exact ⟨h, result u rfl, marked⟩

/-- Where the clauses cut the code at places that control does not pass, `mono_basic_block_split` ends, and
no reachable code is in a dead block, if it is reachable without the edges of a switch that
`bb_formation_il_pass` attaches to the first half of the switch's own block. -/
theorem monoBasicBlockSplit_live {header : MonoMethodHeader}
    (cuts : ClausesCutFlow header)
    (harmless : LostEdgesHarmless header) :
    (0 < header.code.length → ∃ result, monoBasicBlockSplit header = some result) ∧
      ∀ h, monoBasicBlockSplit header = some (.ok h) →
        ∀ p, IlReachable header p → p < header.code.length → InLiveBlock h p := by
  constructor
  · intro pos
    obtain ⟨result, run, _⟩ := monoBasicBlockSplit_spec cuts pos
    exact ⟨result, run⟩
  · intro h run p reachable inside
    obtain ⟨result, run', spec⟩ := monoBasicBlockSplit_spec cuts (Nat.zero_lt_of_lt inside)
    obtain ⟨_, inv, marked⟩ := spec h (Option.some.inj (run'.symm.trans run))
    exact marked.reachable inv (harmless p reachable) inside

/-- A switch with one target, behind it. -/
def forwardSwitch : MonoMethodHeader where
  code := [0x16, 0x45, 1, 0, 0, 0, 0, 0, 0, 0, 0x2a]
  clauses := []
  small := Nat.le_of_ble_eq_true rfl

theorem scanPos_forwardSwitch {p : Nat} (pos : ScanPos forwardSwitch.code p) : p ∈ [0, 1, 10, 11] := by
  induction pos with
  | first => exact mem_cons_self
  | @next p ip value _ inside decoded ih =>
    have outside : ¬ 11 < forwardSwitch.code.length := by decide
    have cases : (ip, value) = (0, 22) ∨ (ip, value) = (1, 69) ∨ (ip, value) = (10, 42) := by
      simp only [mem_cons, not_mem_nil, or_false] at ih
      rcases ih with rfl | rfl | rfl | rfl
      · exact Or.inl (Option.some.inj (decoded.symm.trans rfl))
      · exact Or.inr (Or.inl (Option.some.inj (decoded.symm.trans rfl)))
      · exact Or.inr (Or.inr (Option.some.inj (decoded.symm.trans rfl)))
      · exact absurd inside outside
    rcases cases with is | is | is <;> cases is <;> decide

theorem harmless_forwardSwitch : LostEdgesHarmless forwardSwitch := by
  have forward : ∀ {p ip value i : Nat}, IsIns forwardSwitch.code p ip value →
      ¬ SplitsOwnBlock forwardSwitch.code p ip value i := by
    rintro p ip value i ⟨pos, inside, decoded⟩ ⟨isSwitch, t, isTarget, notAfter, _⟩
    have members := scanPos_forwardSwitch pos
    simp only [mem_cons, not_mem_nil, or_false] at members
    have member := mem_of_getElem? isTarget
    rcases members with rfl | rfl | rfl | rfl
    · cases Option.some.inj (decoded.symm.trans (rfl : _ = some (0, 22)))
      cases isSwitch
    · cases Option.some.inj (decoded.symm.trans (rfl : _ = some (1, 69)))
      have only : targets forwardSwitch.code 1 1 69 = [10] := by decide
      rw [only, mem_singleton] at member
      rw [member] at notAfter
      exact absurd notAfter (by decide)
    · cases Option.some.inj (decoded.symm.trans (rfl : _ = some (10, 42)))
      cases isSwitch
    · exact absurd inside (by decide)
  intro q reachable
  induction reachable with
  | start => exact Reachable.start
  | entry isClause isEntry => exact Reachable.entry isClause isEntry
  | step _ isEdge ih =>
    refine Reachable.step ih ?_
    cases isEdge with
    | fall ins falls inside => exact KeptEdge.fall ins falls inside
    | target ins isTarget => exact KeptEdge.target ins isTarget fun _ _ => forward ins

theorem monoBasicBlockSplit_live_forwardSwitch :
    (0 < forwardSwitch.code.length → ∃ result, monoBasicBlockSplit forwardSwitch = some result) ∧
      ∀ h, monoBasicBlockSplit forwardSwitch = some (.ok h) →
        ∀ p, IlReachable forwardSwitch p → p < forwardSwitch.code.length → InLiveBlock h p :=
  monoBasicBlockSplit_live (fun _ none => by cases none) harmless_forwardSwitch

/-! ### Lost code -/

/-- No live block has the address. -/
def dropsCode (header : MonoMethodHeader) (x : Nat) : Bool :=
  match monoBasicBlockSplit header with
  | some (.ok h) =>
      (List.range h.count).all fun b => h.dead b || decide (¬ (h.start b ≤ x ∧ (x : Int) < h.stop b))
  | _ => false

theorem not_inLiveBlock_of_dropsCode {x : Nat} (drops : dropsCode header x = true) :
    ∃ h, monoBasicBlockSplit header = some (.ok h) ∧ ¬ InLiveBlock h x := by
  unfold dropsCode at drops
  split at drops
  next h run =>
    refine ⟨h, run, ?_⟩
    rintro ⟨b, ⟨isBlock, low, high⟩, isLive⟩
    have none := all_eq_true.1 drops b (mem_range.2 isBlock)
    rw [isLive, Bool.false_or, decide_eq_true_eq] at none
    exact none ⟨low, high⟩
  next => cases drops

/-- `br.s 18; 2: ldc.i4.0; 3: switch (3, 17); 16: ret; 17: ret; 18: ldc.i4.0; 19: br.s 3`. -/
def selfSwitch : MonoMethodHeader where
  code := [0x2b, 0x10, 0x16, 0x45, 2, 0, 0, 0, 0xf3, 0xff, 0xff, 0xff, 1, 0, 0, 0, 0x2a, 0x2a, 0x16,
    0x2b, 0xee]
  clauses := []
  small := Nat.le_of_ble_eq_true rfl

/-- The edges of the switch go to the block of the instruction before it, which is dead, so that the block
at 17 is dead, although control comes to it by way of 18 and 3. -/
theorem monoBasicBlockSplit_drops_code :
    ClausesCutFlow selfSwitch ∧ IlReachable selfSwitch 17 ∧ IsIns selfSwitch.code 17 17 42 ∧
      ∃ h, monoBasicBlockSplit selfSwitch = some (.ok h) ∧ ¬ InLiveBlock h 17 := by
  have branch : IsIns selfSwitch.code 0 0 43 := ⟨ScanPos.first, by decide, by decide⟩
  have load : IsIns selfSwitch.code 2 2 22 :=
    ⟨ScanPos.next branch.pos branch.inside branch.decoded, by decide, by decide⟩
  have switch : IsIns selfSwitch.code 3 3 69 :=
    ⟨ScanPos.next load.pos load.inside load.decoded, by decide, by decide⟩
  have ret : IsIns selfSwitch.code 16 16 42 :=
    ⟨ScanPos.next switch.pos switch.inside switch.decoded, by decide, by decide⟩
  have lost : IsIns selfSwitch.code 17 17 42 :=
    ⟨ScanPos.next ret.pos ret.inside ret.decoded, by decide, by decide⟩
  have load' : IsIns selfSwitch.code 18 18 22 :=
    ⟨ScanPos.next lost.pos lost.inside lost.decoded, by decide, by decide⟩
  have back : IsIns selfSwitch.code 19 19 43 :=
    ⟨ScanPos.next load'.pos load'.inside load'.decoded, by decide, by decide⟩
  have at18 : IlReachable selfSwitch (18 : BitVec 32).toNat :=
    Reachable.step Reachable.start (IlEdge.target (j := 0) branch (by decide))
  have falls : FallsThrough 22 := by
    refine ⟨by decide, by decide, by decide, fun jump => ?_⟩
    rcases jump.1 with is | is <;> cases is
  have at19 : IlReachable selfSwitch 19 :=
    Reachable.step at18 (IlEdge.fall load' falls (by decide))
  have at3 : IlReachable selfSwitch (3 : BitVec 32).toNat :=
    Reachable.step at19 (IlEdge.target (j := 0) back (by decide))
  have at17 : IlReachable selfSwitch (17 : BitVec 32).toNat :=
    Reachable.step at3 (IlEdge.target (j := 1) switch (by decide))
  have noClauses : ClausesCutFlow selfSwitch := fun _ none => by cases none
  exact ⟨noClauses, at17, lost, not_inLiveBlock_of_dropsCode (by decide +kernel)⟩

end MonoRuntime.BasicBlock
