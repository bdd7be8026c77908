/-
Module: MonoRuntime.Proofs.AbcEvaluation
Purpose: The evaluation of a relation returns. The contexts in progress are the ones of the calls that have not returned,
  chained by their fathers, so that the ring behind a context in progress is closed; a call that goes on marks a context
  that was not started, and none becomes so again before its own call returns.
Trusted boundary: none
Main exports: evaluate_returns
-/
import MonoRuntime.Mini.AbcRemoval
import Mathlib.Data.Fintype.Card

namespace MonoRuntime.Abc

open List

variable {n : Nat}

theorem bind_eq_ok {α β : Type} {x : Except Failure α} {f : α → Except Failure β} {b : β} :
    (x >>= f) = .ok b ↔ ∃ a, x = .ok a ∧ f a = .ok b := by
  cases x with
  | error failure | ok a => simp [bind, Except.bind]

/-! ### The calls that have not returned -/

/-- Every context of the list has the next one as its father, and the last one has none. -/
def Chained (contexts : Contexts n) : List (Fin n) → Prop
  | [] => True
  | v :: active => (contexts v).father = active.head? ∧ Chained contexts active

/-- The contexts of a list, the innermost first, are the ones whose calls have not returned. -/
structure Running (contexts : Contexts n) (active : List (Fin n)) : Prop where
  nodup : active.Nodup
  chained : Chained contexts active
  busy : ∀ v ∈ active, (contexts v).status.inProgress = true ∨ (contexts v).status.completed = true
  settled : ∀ v, v ∉ active →
    (contexts v).status = .notStarted ∨ (contexts v).status = .done ∧ (contexts v).currentRelation ≠ none

/-- What holds at a call: all that have not returned are at a relation. -/
structure Stack (contexts : Contexts n) (active : List (Fin n)) : Prop extends Running contexts active where
  current : ∀ v ∈ active, (contexts v).currentRelation ≠ none

/-- What a step does to the status of the contexts: none that was started becomes one that was not, and none but the
spared ones comes to be in progress. -/
structure Keeps (spared : List (Fin n)) (contexts contexts' : Contexts n) : Prop where
  notStarted : ∀ v, (contexts' v).status = .notStarted → (contexts v).status = .notStarted
  inProgress : ∀ v, v ∉ spared → (contexts' v).status.inProgress = true → (contexts v).status.inProgress = true

theorem Keeps.refl (spared : List (Fin n)) (contexts : Contexts n) : Keeps spared contexts contexts :=
  ⟨fun _ same => same, fun _ _ same => same⟩

variable {contexts contexts' : Contexts n} {v : Fin n} {active path : List (Fin n)} {lastContext : Option (Fin n)}
  {fuel : Nat}

theorem Keeps.trans {spared : List (Fin n)} {between : Contexts n} (first : Keeps spared contexts between)
    (second : Keeps spared between contexts') : Keeps spared contexts contexts' :=
  ⟨fun v is => first.notStarted v (second.notStarted v is),
    fun v other is => first.inProgress v other (second.inProgress v other is)⟩

theorem Keeps.weaken (keeps : Keeps [] contexts contexts') (spared : List (Fin n)) : Keeps spared contexts contexts' :=
  ⟨keeps.notStarted, fun v _ is => keeps.inProgress v not_mem_nil is⟩

/-- The number of contexts that are not started. -/
def unstarted (contexts : Contexts n) : Nat :=
  (Finset.univ.filter fun v => (contexts v).status = .notStarted).card

theorem unstarted_le (contexts : Contexts n) : unstarted contexts ≤ n :=
  le_trans (Finset.card_filter_le _ _) (by simp)

theorem Keeps.unstarted_le {spared : List (Fin n)} (keeps : Keeps spared contexts contexts') :
    unstarted contexts' ≤ unstarted contexts := by
  refine Finset.card_le_card fun v member => ?_
  rw [Finset.mem_filter] at member ⊢
  exact ⟨member.1, keeps.notStarted v member.2⟩

theorem unstarted_lt (others : ∀ u, (contexts' u).status = .notStarted → (contexts u).status = .notStarted)
    (was : (contexts v).status = .notStarted) (is : (contexts' v).status ≠ .notStarted) :
    unstarted contexts' < unstarted contexts := by
  refine Finset.card_lt_card (Finset.ssubset_iff_of_subset ?_ |>.mpr ⟨v, ?_, ?_⟩)
  · intro u member
    rw [Finset.mem_filter] at member ⊢
    exact ⟨member.1, others u member.2⟩
  · rw [Finset.mem_filter]
    exact ⟨Finset.mem_univ v, was⟩
  · rw [Finset.mem_filter]
    exact fun member => is member.2

/-! ### Writes to a context -/

@[simp] theorem modify_self (contexts : Contexts n) (v : Fin n) (f : EvaluationContext n → EvaluationContext n) :
    contexts.modify v f v = f (contexts v) :=
  Function.update_self ..

theorem modify_of_ne {u : Fin n} (f : EvaluationContext n → EvaluationContext n) (other : u ≠ v) :
    contexts.modify v f u = contexts u :=
  Function.update_of_ne other ..

theorem Chained.congr (chained : Chained contexts active)
    (same : ∀ v ∈ active, (contexts' v).father = (contexts v).father) : Chained contexts' active := by
  induction active with
  | nil => trivial
  | cons v active ih =>
    exact ⟨(same v mem_cons_self).trans chained.1,
      ih chained.2 fun u member => same u (mem_cons_of_mem v member)⟩

theorem ne_notStarted {status : EvaluationStatus} (busy : status.inProgress = true ∨ status.completed = true) :
    status ≠ .notStarted := by
  rintro rfl
  simp [EvaluationStatus.notStarted] at busy

section Writes

variable {contexts : Contexts n} {active : List (Fin n)} {v : Fin n} {f : EvaluationContext n → EvaluationContext n}

theorem Running.modify (running : Running contexts active) (member : v ∈ active)
    (father : (f (contexts v)).father = (contexts v).father)
    (busy : (f (contexts v)).status.inProgress = true ∨ (f (contexts v)).status.completed = true) :
    Running (contexts.modify v f) active where
  nodup := running.nodup
  chained := running.chained.congr fun u _ => by
    by_cases same : u = v
    · subst same
      rw [modify_self, father]
    · rw [modify_of_ne f same]
  busy u inside := by
    by_cases same : u = v
    · subst same
      rwa [modify_self]
    · rw [modify_of_ne f same]
      exact running.busy u inside
  settled u outside := by
    have other : u ≠ v := by
      rintro rfl
      exact outside member
    rw [modify_of_ne f other]
    exact running.settled u outside

theorem Stack.modify (stack : Stack contexts active) (member : v ∈ active)
    (father : (f (contexts v)).father = (contexts v).father)
    (busy : (f (contexts v)).status.inProgress = true ∨ (f (contexts v)).status.completed = true)
    (current : (f (contexts v)).currentRelation = (contexts v).currentRelation) : Stack (contexts.modify v f) active where
  toRunning := stack.toRunning.modify member father busy
  current u inside := by
    by_cases same : u = v
    · subst same
      rw [modify_self, current]
      exact stack.current u inside
    · rw [modify_of_ne f same]
      exact stack.current u inside

theorem Keeps.modify (busy : (f (contexts v)).status.inProgress = true ∨ (f (contexts v)).status.completed = true) :
    Keeps [v] contexts (contexts.modify v f) where
  notStarted u is := by
    by_cases same : u = v
    · subst same
      rw [modify_self] at is
      exact absurd is (ne_notStarted busy)
    · rwa [modify_of_ne f same] at is
  inProgress u other is := by
    rwa [modify_of_ne f (fun same => other (mem_singleton.mpr same))] at is

end Writes

/-! ### The ring -/

/-- A place that the walk over a chain comes to. -/
def Ahead (lastContext : Option (Fin n)) (path : List (Fin n)) : Prop :=
  ∀ v, lastContext = some v → v ∈ path

theorem Ahead.tail (ahead : Ahead lastContext (v :: path)) (other : some v ≠ lastContext) : Ahead lastContext path := by
  intro u is
  obtain rfl | member := mem_cons.mp (ahead u is)
  · exact absurd is.symm other
  · exact member

theorem scanRing_spec (ring : Ring) (chained : Chained contexts path)
    (current : ∀ v ∈ path, (contexts v).currentRelation ≠ none) (ahead : Ahead lastContext path)
    (enough : path.length < fuel) : ∃ ring', scanRing contexts lastContext fuel path.head? ring = .ok ring' := by
  induction path generalizing fuel ring with
  | nil =>
    obtain ⟨fuel, rfl⟩ := Nat.exists_eq_succ_of_ne_zero (Nat.ne_of_gt enough)
    obtain _ | v := lastContext
    · exact ⟨ring, if_pos rfl⟩
    · exact absurd (ahead v rfl) not_mem_nil
  | cons v path ih =>
    obtain ⟨fuel, rfl⟩ := Nat.exists_eq_succ_of_ne_zero (Nat.ne_of_gt (Nat.zero_lt_of_lt enough))
    by_cases ends : some v = lastContext
    · exact ⟨ring, if_pos ends⟩
    · obtain ⟨relation, at_⟩ := Option.ne_none_iff_exists'.mp (current v mem_cons_self)
      obtain ⟨ring', scanned⟩ := ih (ring.add relation) chained.2
        (fun u member => current u (mem_cons_of_mem v member)) (ahead.tail ends)
        (Nat.lt_of_succ_lt_succ enough)
      refine ⟨ring', ?_⟩
      rw [head?_cons, scanRing, if_neg ends]
      simp only [currentRelation, at_, chained.1]
      exact scanned

theorem Ring.status_flags (ring : Ring) : ring.status.inProgress = false ∧ ring.status.completed = false := by
  unfold Ring.status
  split
  · split
    · exact ⟨rfl, rfl⟩
    · split
      · exact ⟨rfl, rfl⟩
      · exact ⟨rfl, rfl⟩
  · exact ⟨rfl, rfl⟩

theorem flagRing_spec {flags : EvaluationStatus} (stack : Stack contexts active) (chained : Chained contexts path)
    (inside : ∀ v ∈ path, v ∈ active) (ahead : Ahead lastContext path)
    (plain : flags.inProgress = false ∧ flags.completed = false) (enough : path.length < fuel) :
    ∃ contexts', flagRing lastContext flags fuel path.head? contexts = .ok contexts' ∧
      Stack contexts' active ∧ Keeps [] contexts contexts' := by
  induction path generalizing fuel contexts with
  | nil =>
    obtain ⟨fuel, rfl⟩ := Nat.exists_eq_succ_of_ne_zero (Nat.ne_of_gt enough)
    obtain _ | v := lastContext
    · exact ⟨contexts, if_pos rfl, stack, .refl _ _⟩
    · exact absurd (ahead v rfl) not_mem_nil
  | cons v path ih =>
    obtain ⟨fuel, rfl⟩ := Nat.exists_eq_succ_of_ne_zero (Nat.ne_of_gt (Nat.zero_lt_of_lt enough))
    by_cases ends : some v = lastContext
    · exact ⟨contexts, if_pos ends, stack, .refl _ _⟩
    · have member := inside v mem_cons_self
      have flagged : Stack (contexts.modify v fun context => { context with status := context.status.or flags })
          active := by
        refine stack.modify member rfl ?_ rfl
        simpa [EvaluationStatus.or, plain] using stack.busy v member
      have keeps : Keeps [] contexts
          (contexts.modify v fun context => { context with status := context.status.or flags }) := by
        refine ⟨fun u is => ?_, fun u _ is => ?_⟩
        · by_cases same : u = v
          · subst same
            exact absurd is (ne_notStarted (flagged.busy u member))
          · rwa [modify_of_ne _ same] at is
        · by_cases same : u = v
          · subst same
            simpa [EvaluationStatus.or, plain] using is
          · rwa [modify_of_ne _ same] at is
      obtain ⟨contexts', run, stack', keeps'⟩ := ih flagged
        (chained.2.congr fun u _ => by
          by_cases same : u = v
          · subst same
            rw [modify_self]
          · rw [modify_of_ne _ same])
        (fun u later => inside u (mem_cons_of_mem v later)) (ahead.tail ends) (Nat.lt_of_succ_lt_succ enough)
      refine ⟨contexts', ?_, stack', keeps.trans keeps'⟩
      rw [head?_cons, flagRing, if_neg ends]
      simp only [chained.1]
      exact run

theorem Chained.father_ahead (chained : Chained contexts active) (member : v ∈ active) :
    Ahead (contexts v).father active := by
  induction active with
  | nil => cases member
  | cons u active ih =>
    intro w is
    obtain rfl | later := mem_cons.mp member
    · rw [chained.1] at is
      exact mem_cons_of_mem v (mem_of_mem_head? is)
    · exact mem_cons_of_mem u (ih chained.2 later w is)

theorem Running.length_le (running : Running contexts active) : active.length ≤ n :=
  by simpa using running.nodup.length_le_card

/-- The case of a context in progress: the chain of the fathers comes to the father of the context. -/
theorem closeRing_spec (stack : Stack contexts active) (progressing : (contexts v).status = .progressing) :
    ∃ contexts', closeRing v active.head? contexts = .ok contexts' ∧ Stack contexts' active ∧ Keeps [] contexts contexts' := by
  have member : v ∈ active := by
    by_contra outside
    obtain is | ⟨is, -⟩ := stack.settled v outside
    · rw [progressing] at is
      cases is
    · rw [progressing] at is
      cases is
  have ahead := stack.chained.father_ahead member
  have enough : active.length < n + 1 := Nat.lt_succ_of_le stack.length_le
  obtain ⟨ring, scanned⟩ := scanRing_spec .start stack.chained stack.current ahead enough
  obtain ⟨contexts', flagged, stack', keeps⟩ :=
    flagRing_spec stack stack.chained (fun u inside => inside) ahead ring.status_flags enough
  simp only [closeRing, scanned, bind, Except.bind]
  cases definition : ring.evaluationIsDefinition with
  | true =>
    refine ⟨contexts', ?_, stack', keeps⟩
    simpa [definition] using flagged
  | false =>
    exact ⟨contexts, rfl, stack, .refl _ _⟩

/-! ### The relations of a variable -/

/-- What a call does, where not more contexts than a bound are not started. -/
def Sound (call : Call n) (active : List (Fin n)) (bound : Nat) : Prop :=
  ∀ v contexts, Stack contexts active → unstarted contexts ≤ bound →
    ∃ contexts', call v contexts = .ok contexts' ∧ Stack contexts' active ∧ Keeps [] contexts contexts'

section Frame

variable {call : Call n} {active : List (Fin n)} {bound : Nat} {v : Fin n} {contexts : Contexts n}

/-- A started context that is settled or of a call that has not returned is at a relation. -/
theorem Stack.currentRelation_ne (stack : Stack contexts active) {u : Fin n}
    (started : (contexts u).status ≠ .notStarted) : (contexts u).currentRelation ≠ none := by
  by_cases member : u ∈ active
  · exact stack.current u member
  · exact ((stack.settled u member).resolve_left started).2

theorem relatedIsEvaluated_spec (v relatedVariable : Fin n) (stack : Stack contexts active) :
    ∃ evaluated, relatedIsEvaluated v relatedVariable contexts = .ok evaluated := by
  unfold relatedIsEvaluated
  by_cases started : (contexts relatedVariable).status = .notStarted
  · exact ⟨true, if_pos started⟩
  · obtain ⟨relatedRelation, at_⟩ := Option.ne_none_iff_exists'.mp (stack.currentRelation_ne started)
    refine ⟨!relatedRelation.relatesTo v, ?_⟩
    rw [if_neg started]
    simp only [currentRelation, at_, bind, Except.bind]

/-- What is done behind the evaluation of a related variable leaves the call as not returned. -/
theorem useRelated_spec (relation : SummarizedValueRelation n) (relatedVariable : Fin n) (delta : Int32)
    (stack : Stack contexts (v :: active)) : Stack (useRelated v relation relatedVariable delta contexts) (v :: active) ∧
      Keeps [v] contexts (useRelated v relation relatedVariable delta contexts) := by
  have member : v ∈ v :: active := mem_cons_self
  have busy := stack.busy v member
  unfold useRelated
  dsimp only
  split
  · split
    · exact ⟨stack.modify member rfl (Or.inr rfl) rfl, .modify (Or.inr rfl)⟩
    · exact ⟨stack, .refl _ _⟩
  · exact ⟨stack.modify member rfl busy rfl, .modify busy⟩

theorem processVariable_spec (relation : SummarizedValueRelation n) (relatedVariable : Fin n) (delta : Int32)
    (sound : Sound call (v :: active) bound) (stack : Stack contexts (v :: active)) (few : unstarted contexts ≤ bound) :
    ∃ contexts', processVariable call v relation relatedVariable delta contexts = .ok contexts' ∧
      Stack contexts' (v :: active) ∧ Keeps [v] contexts contexts' := by
  unfold processVariable
  by_cases nothing : relation.relation = .anyRelation
  · exact ⟨contexts, if_pos nothing, stack, .refl _ _⟩
  · obtain ⟨evaluated, decided⟩ := relatedIsEvaluated_spec v relatedVariable stack
    rw [if_neg nothing]
    simp only [decided, bind, Except.bind]
    cases evaluated with
    | false => exact ⟨contexts, rfl, stack, .refl _ _⟩
    | true =>
      obtain ⟨between, called, stack', keeps⟩ := sound relatedVariable contexts stack few
      obtain ⟨stack'', keeps'⟩ := useRelated_spec relation relatedVariable delta stack'
      refine ⟨_, ?_, stack'', (keeps.weaken [v]).trans keeps'⟩
      simp only [called, if_true]

theorem processAlternatives_spec (alternatives : List (Fin n)) (phi : PhiRanges)
    (sound : Sound call (v :: active) bound) (stack : Stack contexts (v :: active)) (few : unstarted contexts ≤ bound) :
    ∃ phi' contexts', processAlternatives call v alternatives phi contexts = .ok (phi', contexts') ∧
      Stack contexts' (v :: active) ∧ Keeps [v] contexts contexts' := by
  induction alternatives generalizing phi contexts with
  | nil => exact ⟨phi, contexts, rfl, stack, .refl _ _⟩
  | cons alternative alternatives ih =>
    obtain ⟨between, called, stack', keeps⟩ := sound alternative contexts stack few
    have keeps := keeps.weaken [v]
    simp only [processAlternatives, called, bind, Except.bind]
    by_cases recursive : (between v).status.isRecursive = true
    · rw [if_pos recursive]
      have cleared := stack'.modify (f := fun context => { context with status := .progressing }) mem_cons_self rfl
        (Or.inl rfl) rfl
      have keeps' := keeps.trans
        (Keeps.modify (f := fun context => { context with status := .progressing }) (Or.inl rfl))
      obtain ⟨phi', contexts', run, stack'', keeps''⟩ :=
        ih (phi.recursive (between v).status) cleared (le_trans keeps'.unstarted_le few)
      exact ⟨phi', contexts', run, stack'', keeps'.trans keeps''⟩
    · rw [if_neg recursive]
      obtain ⟨phi', contexts', run, stack'', keeps''⟩ := ih _ stack' (le_trans keeps.unstarted_le few)
      exact ⟨phi', contexts', run, stack'', keeps.trans keeps''⟩

theorem processRelation_spec (relation : SummarizedValueRelation n) (sound : Sound call (v :: active) bound)
    (running : Running contexts (v :: active)) (current : ∀ u ∈ active, (contexts u).currentRelation ≠ none)
    (few : unstarted contexts ≤ bound) : ∃ contexts', processRelation call v relation contexts = .ok contexts' ∧
      Stack contexts' (v :: active) ∧ Keeps [v] contexts contexts' := by
  have member : v ∈ v :: active := mem_cons_self
  have busy := running.busy v member
  have keeps : Keeps [v] contexts
      (contexts.modify v fun context => { context with currentRelation := some relation }) := .modify busy
  have stack : Stack (contexts.modify v fun context => { context with currentRelation := some relation })
      (v :: active) := by
    refine ⟨running.modify member rfl busy, fun u inside => ?_⟩
    by_cases same : u = v
    · subst same
      simp
    · rw [modify_of_ne _ same]
      exact current u ((mem_cons.mp inside).resolve_left same)
  have few' := le_trans keeps.unstarted_le few
  have busy' := stack.busy v member
  unfold processRelation
  cases relation.relatedValue with
  | any => exact ⟨_, rfl, stack, keeps⟩
  | constant value => exact ⟨_, rfl, stack.modify member rfl busy' rfl, keeps.trans (.modify busy')⟩
  | variable_ relatedVariable delta =>
    obtain ⟨contexts', run, stack', keeps'⟩ := processVariable_spec relation relatedVariable delta sound stack few'
    exact ⟨contexts', run, stack', keeps.trans keeps'⟩
  | phi alternatives =>
    obtain ⟨phi, contexts', run, stack', keeps'⟩ := processAlternatives_spec alternatives .start sound stack few'
    have busy'' := stack'.busy v member
    refine ⟨contexts'.modify v fun context => { context with ranges := context.ranges.intersection phi.result }, ?_,
      stack'.modify member rfl busy'' rfl, (keeps.trans keeps').trans (.modify busy'')⟩
    simp only [run, bind, Except.bind]

theorem processRelations_spec (first : SummarizedValueRelation n) (others : List (SummarizedValueRelation n))
    (sound : Sound call (v :: active) bound) (running : Running contexts (v :: active))
    (current : ∀ u ∈ active, (contexts u).currentRelation ≠ none) (few : unstarted contexts ≤ bound) :
    ∃ contexts', processRelations call v (first :: others) contexts = .ok contexts' ∧
      Stack contexts' (v :: active) ∧ Keeps [v] contexts contexts' := by
  induction others generalizing first contexts with
  | nil =>
    obtain ⟨contexts', run, stack, keeps⟩ := processRelation_spec first sound running current few
    refine ⟨contexts', ?_, stack, keeps⟩
    simp only [processRelations, run, bind, Except.bind]
  | cons second others ih =>
    obtain ⟨between, run, stack, keeps⟩ := processRelation_spec first sound running current few
    obtain ⟨contexts', run', stack', keeps'⟩ := ih second stack.toRunning
      (fun u inside => stack.current u (mem_cons_of_mem v inside)) (le_trans keeps.unstarted_le few)
    refine ⟨contexts', ?_, stack', keeps.trans keeps'⟩
    rw [processRelations, run]
    exact run'

end Frame

/-! ### The evaluation -/

theorem Stack.begun (isTarget : Bool) (stack : Stack contexts active) (start : (contexts v).status = .notStarted) :
    Running (contexts.modify v fun context => context.begun isTarget active.head?) (v :: active) ∧
      ∀ u ∈ active, (contexts.modify v (fun context => context.begun isTarget active.head?) u).currentRelation ≠ none := by
  have outside : v ∉ active := fun member => ne_notStarted (stack.busy v member) start
  have other {u : Fin n} (inside : u ∈ active) : u ≠ v := by
    rintro rfl
    exact outside inside
  refine ⟨⟨nodup_cons.mpr ⟨outside, stack.nodup⟩, ⟨?_, ?_⟩, ?_, ?_⟩, ?_⟩
  · rw [modify_self]
    rfl
  · exact stack.chained.congr fun u inside => by rw [modify_of_ne _ (other inside)]
  · intro u inside
    obtain rfl | inside := mem_cons.mp inside
    · rw [modify_self]
      exact Or.inl rfl
    · rw [modify_of_ne _ (other inside)]
      exact stack.busy u inside
  · intro u away
    rw [mem_cons, not_or] at away
    rw [modify_of_ne _ away.1]
    exact stack.settled u away.2
  · intro u inside
    rw [modify_of_ne _ (other inside)]
    exact stack.current u inside

theorem Stack.ended (stack : Stack contexts (v :: active)) : Stack (contexts.modify v EvaluationContext.ended) active := by
  obtain ⟨outside, nodup⟩ := nodup_cons.mp stack.nodup
  have other {u : Fin n} (inside : u ∈ active) : u ≠ v := by
    rintro rfl
    exact outside inside
  refine ⟨⟨nodup, ?_, ?_, ?_⟩, ?_⟩
  · exact stack.chained.2.congr fun u inside => by rw [modify_of_ne _ (other inside)]
  · intro u inside
    rw [modify_of_ne _ (other inside)]
    exact stack.busy u (mem_cons_of_mem v inside)
  · intro u away
    by_cases same : u = v
    · subst same
      rw [modify_self]
      unfold EvaluationContext.ended
      cases (contexts u).status.isRecursive with
      | true => exact Or.inl rfl
      | false => exact Or.inr ⟨rfl, stack.current u mem_cons_self⟩
    · rw [modify_of_ne _ same]
      exact stack.settled u (by simp [same, away])
  · intro u inside
    rw [modify_of_ne _ (other inside)]
    exact stack.current u (mem_cons_of_mem v inside)

/-- A call returns, with the same calls not returned, where the fuel exceeds the number of contexts that are not started. -/
theorem evaluate_spec (area : EvaluationArea n) (targetVariable : Fin n) (v : Fin n) (stack : Stack contexts active)
    (enough : unstarted contexts < fuel) :
    ∃ contexts', evaluateRelationWithTargetVariable area targetVariable fuel v active.head? contexts = .ok contexts' ∧
      Stack contexts' active ∧ Keeps [] contexts contexts' := by
  induction fuel generalizing contexts active v with
  | zero => cases enough
  | succ fuel ih =>
    by_cases start : (contexts v).status = .notStarted
    · obtain ⟨running, current⟩ := stack.begun (v = targetVariable) start
      have started : ((contexts.modify v fun context =>
          context.begun (v = targetVariable) active.head?) v).status ≠ .notStarted := by
        rw [modify_self]
        exact ne_notStarted (Or.inl rfl)
      have others (u : Fin n) (is : ((contexts.modify v fun context =>
          context.begun (v = targetVariable) active.head?) u).status = .notStarted) :
          (contexts u).status = .notStarted := by
        by_cases same : u = v
        · subst same
          exact start
        · rwa [modify_of_ne _ same] at is
      have fewer := unstarted_lt others start started
      have sound : Sound (fun related => evaluateRelationWithTargetVariable area targetVariable fuel related (some v))
          (v :: active) (unstarted (contexts.modify v fun context =>
            context.begun (v = targetVariable) active.head?)) :=
        fun u contexts' stack' few => ih u stack' (by omega)
      obtain ⟨contexts', run, stack', keeps⟩ :=
        processRelations_spec (area.first v) (area.others v) sound running current (le_refl _)
      refine ⟨contexts'.modify v EvaluationContext.ended, ?_, stack'.ended, ?_, ?_⟩
      · rw [evaluateRelationWithTargetVariable, if_pos start, run]
        rfl
      · intro u is
        by_cases same : u = v
        · subst same
          exact start
        · rw [modify_of_ne _ same] at is
          exact others u (keeps.notStarted u is)
      · intro u _ is
        by_cases same : u = v
        · subst same
          unfold EvaluationContext.ended at is
          cases recursive : (contexts' u).status.isRecursive with
          | true => simp [recursive, EvaluationStatus.notStarted] at is
          | false => simp [recursive, EvaluationStatus.done] at is
        · rw [modify_of_ne _ same] at is
          have before := keeps.inProgress u (by simpa using same) is
          rwa [modify_of_ne _ same] at before
    · by_cases progressing : (contexts v).status = .progressing
      · obtain ⟨contexts', run, stack', keeps⟩ := closeRing_spec stack progressing
        refine ⟨contexts', ?_, stack', keeps⟩
        rw [evaluateRelationWithTargetVariable, if_neg start, if_pos progressing, run]
      · refine ⟨contexts, ?_, stack, .refl _ _⟩
        rw [evaluateRelationWithTargetVariable, if_neg start, if_neg progressing]

theorem Stack.of_notStarted (fresh : ∀ v, (contexts v).status = .notStarted) : Stack contexts [] where
  nodup := nodup_nil
  chained := trivial
  busy v member := by cases member
  settled v _ := Or.inl (fresh v)
  current v member := by cases member

/-! ### The bound of the recursion -/

/-- A call returns what another one does. -/
def Extends (call call' : Call n) : Prop :=
  ∀ v contexts contexts', call v contexts = .ok contexts' → call' v contexts = .ok contexts'

section Extension

variable {call call' : Call n} {v : Fin n}

variable {contexts contexts' : Contexts n}

theorem Extends.processVariable (extends_ : Extends call call') {relation : SummarizedValueRelation n}
    {relatedVariable : Fin n} {delta : Int32}
    (run : processVariable call v relation relatedVariable delta contexts = .ok contexts') :
    processVariable call' v relation relatedVariable delta contexts = .ok contexts' := by
  unfold Abc.processVariable at run ⊢
  by_cases nothing : relation.relation = .anyRelation
  · rwa [if_pos nothing] at run ⊢
  · rw [if_neg nothing] at run ⊢
    obtain ⟨evaluated, decided, run⟩ := bind_eq_ok.mp run
    refine bind_eq_ok.mpr ⟨evaluated, decided, ?_⟩
    cases evaluated with
    | false => exact run
    | true =>
      obtain ⟨between, called, run⟩ := bind_eq_ok.mp run
      exact bind_eq_ok.mpr ⟨between, extends_ _ _ _ called, run⟩

theorem Extends.processAlternatives (extends_ : Extends call call') {alternatives : List (Fin n)} {phi phi' : PhiRanges}
    (run : processAlternatives call v alternatives phi contexts = .ok (phi', contexts')) :
    processAlternatives call' v alternatives phi contexts = .ok (phi', contexts') := by
  induction alternatives generalizing phi contexts with
  | nil => exact run
  | cons alternative alternatives ih =>
    obtain ⟨between, called, run⟩ := bind_eq_ok.mp run
    refine bind_eq_ok.mpr ⟨between, extends_ _ _ _ called, ?_⟩
    by_cases recursive : (between v).status.isRecursive = true
    · rw [if_pos recursive] at run ⊢
      exact ih run
    · rw [if_neg recursive] at run ⊢
      exact ih run

theorem Extends.processRelation (extends_ : Extends call call') {relation : SummarizedValueRelation n}
    (run : processRelation call v relation contexts = .ok contexts') :
    processRelation call' v relation contexts = .ok contexts' := by
  unfold Abc.processRelation at run ⊢
  cases value : relation.relatedValue with
  | any | constant => simpa only [value] using run
  | variable_ relatedVariable delta =>
    simp only [value] at run ⊢
    exact extends_.processVariable run
  | phi alternatives =>
    simp only [value] at run ⊢
    obtain ⟨⟨phi, between⟩, collected, run⟩ := bind_eq_ok.mp run
    exact bind_eq_ok.mpr ⟨(phi, between), extends_.processAlternatives collected, run⟩

theorem Extends.processRelations (extends_ : Extends call call') {relations : List (SummarizedValueRelation n)}
    (run : processRelations call v relations contexts = .ok contexts') :
    processRelations call' v relations contexts = .ok contexts' := by
  induction relations generalizing contexts with
  | nil => exact run
  | cons relation relations ih =>
    obtain ⟨between, processed, run⟩ := bind_eq_ok.mp run
    exact bind_eq_ok.mpr ⟨between, extends_.processRelation processed, ih run⟩

end Extension

theorem evaluate_mono (area : EvaluationArea n) (targetVariable : Fin n) {fuel' : Nat} {fatherContext : Option (Fin n)}
    (run : evaluateRelationWithTargetVariable area targetVariable fuel v fatherContext contexts = .ok contexts')
    (more : fuel ≤ fuel') :
    evaluateRelationWithTargetVariable area targetVariable fuel' v fatherContext contexts = .ok contexts' := by
  induction fuel generalizing fuel' v fatherContext contexts contexts' with
  | zero => cases run
  | succ fuel ih =>
    obtain ⟨fuel', rfl⟩ := Nat.exists_eq_succ_of_ne_zero (Nat.ne_of_gt (Nat.zero_lt_of_lt more))
    rw [evaluateRelationWithTargetVariable] at run ⊢
    by_cases start : (contexts v).status = .notStarted
    · rw [if_pos start] at run ⊢
      obtain ⟨between, processed, run⟩ := bind_eq_ok.mp run
      refine bind_eq_ok.mpr ⟨between, ?_, run⟩
      exact Extends.processRelations (fun u _ _ called => ih called (Nat.le_of_succ_le_succ more)) processed
    · rwa [if_neg start] at run ⊢

/-- From contexts that are not started an evaluation returns, with none in progress; and so does every call of it, from
contexts of which some are in progress, with none in progress that was not. -/
theorem evaluate_returns (area : EvaluationArea n) (variable_ targetVariable : Fin n) :
    (∀ contexts : Contexts n, (∀ v, (contexts v).status = .notStarted) →
      ∃ contexts', (∀ fuel, n < fuel →
          evaluateRelationWithTargetVariable area targetVariable fuel variable_ none contexts = .ok contexts') ∧
        ∀ v, (contexts' v).status.inProgress = false) ∧
    (∀ (contexts : Contexts n) active, Stack contexts active →
      ∃ contexts', (∀ fuel, n < fuel →
          evaluateRelationWithTargetVariable area targetVariable fuel variable_ active.head? contexts = .ok contexts') ∧
        ∀ v, (contexts' v).status.inProgress = true → (contexts v).status.inProgress = true) := by
  have nested (contexts : Contexts n) (active : List (Fin n)) (stack : Stack contexts active) :
      ∃ contexts', (∀ fuel, n < fuel →
          evaluateRelationWithTargetVariable area targetVariable fuel variable_ active.head? contexts = .ok contexts') ∧
        ∀ v, (contexts' v).status.inProgress = true → (contexts v).status.inProgress = true := by
    obtain ⟨contexts', run, -, keeps⟩ :=
      evaluate_spec area targetVariable variable_ stack (Nat.lt_succ_of_le (unstarted_le contexts))
    exact ⟨contexts', fun fuel enough => evaluate_mono area targetVariable run enough,
      fun v is => keeps.inProgress v not_mem_nil is⟩
  refine ⟨fun contexts fresh => ?_, nested⟩
  obtain ⟨contexts', run, inProgress⟩ := nested contexts [] (.of_notStarted fresh)
  refine ⟨contexts', run, fun v => Bool.eq_false_iff.mpr fun is => ?_⟩
  have before := inProgress v is
  rw [fresh v] at before
  cases before

/-- Two variables that are defined by one another, `x = phi (y, y)` and `y = x + 1`. -/
def cyclicArea : EvaluationArea 2 where
  first v :=
    { relation := .eqRelation, relatedValue := (if v = 0 then .phi [1, 1] else .variable_ 0 1),
      relationIsStaticDefinition := true }
  others _ := []

/-- The contexts after `clean_contexts`. -/
def clearedContexts : Contexts 2 :=
  fun _ => { status := .notStarted, currentRelation := none, ranges := .weak, father := none }

/-- The contexts when the evaluation of `x` is at its phi. -/
def phiContexts : Contexts 2 :=
  clearedContexts.modify 0 fun context =>
    { context with status := .progressing, currentRelation := some (cyclicArea.first 0) }

theorem stack_phi : Stack phiContexts [0] := by
  have other {v : Fin 2} (outside : v ∉ [0]) : v ≠ 0 := fun same => outside (mem_singleton.mpr same)
  refine ⟨⟨nodup_singleton 0, ⟨rfl, trivial⟩, ?_, ?_⟩, ?_⟩
  · intro v inside
    obtain rfl := mem_singleton.mp inside
    exact Or.inl rfl
  · intro v outside
    rw [phiContexts, modify_of_ne _ (other outside)]
    exact Or.inl rfl
  · intro v inside
    obtain rfl := mem_singleton.mp inside
    simp [phiContexts]

/-- The evaluation of a cyclic definition returns, and so does the call for `y` in it. -/
theorem evaluate_returns_cyclic :
    (∃ contexts', evaluateRelationWithTargetVariable cyclicArea 1 3 0 none clearedContexts = .ok contexts' ∧
      ∀ v, (contexts' v).status.inProgress = false) ∧
    ∃ contexts', evaluateRelationWithTargetVariable cyclicArea 1 3 1 (some 0) phiContexts = .ok contexts' ∧
      ∀ v, (contexts' v).status.inProgress = true → (phiContexts v).status.inProgress = true := by
  obtain ⟨contexts', run, none_⟩ := (evaluate_returns cyclicArea 0 1).1 clearedContexts fun _ => rfl
  obtain ⟨nested, run', kept⟩ := (evaluate_returns cyclicArea 1 1).2 phiContexts [0] stack_phi
  exact ⟨⟨contexts', run 3 (by decide), none_⟩, nested, run' 3 (by decide), kept⟩

end MonoRuntime.Abc
