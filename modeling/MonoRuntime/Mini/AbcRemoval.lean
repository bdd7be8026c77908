/-
Module: MonoRuntime.Mini.AbcRemoval
Purpose: The relation graph of `abcremoval.c` and its traversal, `evaluate_relation_with_target_variable`. A pointer to a
  context is the variable of the context; the relations of a variable are the list that its `next` pointers run through.
Trusted boundary: human-reviewed translation of the source; the sums of deltas wrap
Main exports: SummarizedValueRelation
-/
import Mathlib.Data.Fin.Basic

namespace MonoRuntime.Abc

/-! ### The relation graph -/

/-- `MonoValueRelation`, by its three significant bits. -/
structure ValueRelation where
  eq : Bool
  lt : Bool
  gt : Bool
deriving DecidableEq, Repr

namespace ValueRelation

def eqRelation : ValueRelation := ⟨true, false, false⟩
def ltRelation : ValueRelation := ⟨false, true, false⟩
def gtRelation : ValueRelation := ⟨false, false, true⟩
def neRelation : ValueRelation := ⟨false, true, true⟩
def leRelation : ValueRelation := ⟨true, true, false⟩
def geRelation : ValueRelation := ⟨true, false, true⟩
def anyRelation : ValueRelation := ⟨true, true, true⟩

/-- `MONO_NEGATED_RELATION`. -/
def negated (relation : ValueRelation) : ValueRelation :=
  ⟨!relation.eq, !relation.lt, !relation.gt⟩

/-- `MONO_SYMMETRIC_RELATION`. -/
def symmetric (relation : ValueRelation) : ValueRelation :=
  ⟨relation.eq, relation.gt, relation.lt⟩

end ValueRelation

/-- `MonoSummarizedValue`, over `n` variables. -/
inductive SummarizedValue (n : Nat) where
  | any
  | constant (value : Int32)
  | variable_ (variable_ : Fin n) (delta : Int32)
  | phi (alternatives : List (Fin n))
deriving DecidableEq

/-- `MonoSummarizedValueRelation`; where it stands in a list is kept apart. -/
structure SummarizedValueRelation (n : Nat) where
  relation : ValueRelation
  relatedValue : SummarizedValue n
  relationIsStaticDefinition : Bool
deriving DecidableEq

/-- The relation is one with a variable. -/
def SummarizedValueRelation.relatesTo {n : Nat} (relation : SummarizedValueRelation n) (variable_ : Fin n) : Bool :=
  match relation.relatedValue with
  | .variable_ other _ => other = variable_
  | _ => false

/-- `MonoVariableRelationsEvaluationArea`: the relation of every variable that is the head of its list, and the ones behind
it. -/
structure EvaluationArea (n : Nat) where
  first : Fin n → SummarizedValueRelation n
  others : Fin n → List (SummarizedValueRelation n)

/-! ### Ranges -/

/-- `MonoRelationsEvaluationRange`. -/
structure EvaluationRange where
  lower : Int32
  upper : Int32
deriving DecidableEq

/-- `MonoRelationsEvaluationRanges`. -/
structure EvaluationRanges where
  zero : EvaluationRange
  variable_ : EvaluationRange
deriving DecidableEq

namespace EvaluationRange

/-- `MONO_MAKE_RELATIONS_EVALUATION_RANGE_WEAK`. -/
def weak : EvaluationRange :=
  { lower := Int32.minValue, upper := Int32.maxValue }

/-- `MONO_MAKE_RELATIONS_EVALUATION_RANGE_IMPOSSIBLE`. -/
def impossible : EvaluationRange :=
  { lower := Int32.maxValue, upper := Int32.minValue }

/-- `MONO_RELATIONS_EVALUATION_RANGE_UNION`. -/
def union (r other : EvaluationRange) : EvaluationRange :=
  { lower := min r.lower other.lower, upper := max r.upper other.upper }

/-- `MONO_RELATIONS_EVALUATION_RANGE_INTERSECTION`. -/
def intersection (r other : EvaluationRange) : EvaluationRange :=
  { lower := max r.lower other.lower, upper := min r.upper other.upper }

end EvaluationRange

/-- `MONO_UPPER_EVALUATION_RANGE_NOT_EQUAL`. -/
def upperNotEqual (upper : Int32) : Int32 :=
  if upper = Int32.minValue ∨ upper = Int32.maxValue then upper else upper - 1

/-- `MONO_LOWER_EVALUATION_RANGE_NOT_EQUAL`. -/
def lowerNotEqual (lower : Int32) : Int32 :=
  if lower = Int32.minValue ∨ lower = Int32.maxValue then lower else lower + 1

/-- `MONO_ADD_DELTA_SAFELY`. -/
def addDeltaSafely (v d : Int32) : Int32 :=
  if 0 < d ∧ v ≠ Int32.minValue then
    if v < v + d then v + d else Int32.maxValue
  else if d < 0 ∧ v ≠ Int32.maxValue then
    if v + d < v then v + d else Int32.minValue
  else v

/-- `MONO_ADD_DELTA_SAFELY_TO_RANGE`. -/
def EvaluationRange.addDelta (r : EvaluationRange) (d : Int32) : EvaluationRange :=
  { lower := addDeltaSafely r.lower d, upper := addDeltaSafely r.upper d }

namespace EvaluationRanges

/-- `MONO_MAKE_RELATIONS_EVALUATION_RANGES_WEAK`. -/
def weak : EvaluationRanges :=
  { zero := .weak, variable_ := .weak }

/-- `MONO_MAKE_RELATIONS_EVALUATION_RANGES_IMPOSSIBLE`. -/
def impossible : EvaluationRanges :=
  { zero := .impossible, variable_ := .impossible }

/-- `MONO_RELATIONS_EVALUATION_RANGES_UNION`. -/
def union (rs other : EvaluationRanges) : EvaluationRanges :=
  { zero := rs.zero.union other.zero, variable_ := rs.variable_.union other.variable_ }

/-- `MONO_RELATIONS_EVALUATION_RANGES_INTERSECTION`. -/
def intersection (rs other : EvaluationRanges) : EvaluationRanges :=
  { zero := rs.zero.intersection other.zero, variable_ := rs.variable_.intersection other.variable_ }

/-- `MONO_ADD_DELTA_SAFELY_TO_RANGES`. -/
def addDelta (rs : EvaluationRanges) (d : Int32) : EvaluationRanges :=
  { zero := rs.zero.addDelta d, variable_ := rs.variable_.addDelta d }

end EvaluationRanges

/-- `intersect_value`. -/
def intersectValue (range : EvaluationRange) (value : Int32) (relation : ValueRelation) : EvaluationRange :=
  match relation with
  | ⟨false, false, false⟩ => .impossible
  | ⟨true, true, true⟩ => range
  | ⟨true, false, false⟩ => { lower := max range.lower value, upper := min range.upper value }
  | ⟨false, true, true⟩ => range
  | ⟨false, true, false⟩ => { range with upper := min range.upper (upperNotEqual value) }
  | ⟨true, true, false⟩ => { range with upper := min range.upper value }
  | ⟨false, false, true⟩ => { range with lower := max range.lower (lowerNotEqual value) }
  | ⟨true, false, true⟩ => { range with lower := max range.lower value }

/-- `intersect_ranges` for one of the two ranges and no delta. -/
def intersectRange (range other : EvaluationRange) (relation : ValueRelation) : EvaluationRange :=
  match relation with
  | ⟨false, false, false⟩ => .impossible
  | ⟨true, true, true⟩ => range
  | ⟨true, false, false⟩ => range.intersection other
  | ⟨false, true, true⟩ => range
  | ⟨false, true, false⟩ => { range with upper := min range.upper (upperNotEqual other.upper) }
  | ⟨true, true, false⟩ => { range with upper := min range.upper other.upper }
  | ⟨false, false, true⟩ => { range with lower := max range.lower (lowerNotEqual other.lower) }
  | ⟨true, false, true⟩ => { range with lower := max range.lower other.lower }

/-- `intersect_ranges`: other ranges are translated by the delta before. -/
def intersectRanges (ranges other : EvaluationRanges) (delta : Int32) (relation : ValueRelation) : EvaluationRanges :=
  let translated := if delta = 0 then other else other.addDelta delta
  { zero := intersectRange ranges.zero translated.zero relation,
    variable_ := intersectRange ranges.variable_ translated.variable_ relation }

/-! ### Evaluation contexts -/

/-- `MonoRelationsEvaluationStatus`, by its bits. -/
structure EvaluationStatus where
  inProgress : Bool
  completed : Bool
  recursivelyAscending : Bool
  recursivelyDescending : Bool
  recursivelyIndefinite : Bool
deriving DecidableEq

namespace EvaluationStatus

/-- `MONO_RELATIONS_EVALUATION_NOT_STARTED`: no bit. -/
def notStarted : EvaluationStatus := ⟨false, false, false, false, false⟩

/-- `MONO_RELATIONS_EVALUATION_IN_PROGRESS`. -/
def progressing : EvaluationStatus := ⟨true, false, false, false, false⟩

/-- `MONO_RELATIONS_EVALUATION_COMPLETED`. -/
def done : EvaluationStatus := ⟨false, true, false, false, false⟩

/-- `MONO_RELATIONS_EVALUATION_IS_RECURSIVELY_ASCENDING`. -/
def ascending : EvaluationStatus := ⟨false, false, true, false, false⟩

/-- `MONO_RELATIONS_EVALUATION_IS_RECURSIVELY_DESCENDING`. -/
def descending : EvaluationStatus := ⟨false, false, false, true, false⟩

/-- `MONO_RELATIONS_EVALUATION_IS_RECURSIVELY_INDEFINITE`. -/
def indefinite : EvaluationStatus := ⟨false, false, false, false, true⟩

/-- `status & MONO_RELATIONS_EVALUATION_IS_RECURSIVE`. -/
def isRecursive (status : EvaluationStatus) : Bool :=
  status.recursivelyAscending || status.recursivelyDescending || status.recursivelyIndefinite

/-- `status | flags`. -/
def or (status flags : EvaluationStatus) : EvaluationStatus :=
  ⟨status.inProgress || flags.inProgress, status.completed || flags.completed,
    status.recursivelyAscending || flags.recursivelyAscending,
    status.recursivelyDescending || flags.recursivelyDescending,
    status.recursivelyIndefinite || flags.recursivelyIndefinite⟩

end EvaluationStatus

/-- `MonoRelationsEvaluationContext`. -/
structure EvaluationContext (n : Nat) where
  status : EvaluationStatus
  currentRelation : Option (SummarizedValueRelation n)
  ranges : EvaluationRanges
  father : Option (Fin n)

/-- `area->contexts`. -/
abbrev Contexts (n : Nat) := Fin n → EvaluationContext n

/-- How an evaluation can go wrong: it takes more steps than allowed, it reaches the assertion behind the message
`Broken recursive ring`, or it reads through a null pointer. -/
inductive Failure where
  | outOfFuel
  | brokenRecursiveRing
  | nullPointer
deriving DecidableEq

variable {n : Nat}

/-- Write to a context. -/
def Contexts.modify (contexts : Contexts n) (variable_ : Fin n)
    (f : EvaluationContext n → EvaluationContext n) : Contexts n :=
  Function.update contexts variable_ (f (contexts variable_))

/-- `clean_contexts`. -/
def cleanContexts (contexts : Contexts n) : Contexts n :=
  fun variable_ => { contexts variable_ with status := .notStarted }

/-- `context->current_relation`, read through. -/
def currentRelation (contexts : Contexts n) (variable_ : Fin n) : Except Failure (SummarizedValueRelation n) :=
  match (contexts variable_).currentRelation with
  | none => .error .nullPointer
  | some relation => .ok relation

/-! ### A recursive ring -/

/-- What the scan of a ring finds out. -/
structure Ring where
  evaluationCanBeRecursive : Bool
  evaluationIsDefinition : Bool
  pathValue : Int32
deriving DecidableEq

/-- Before the scan. -/
def Ring.start : Ring :=
  { evaluationCanBeRecursive := true, evaluationIsDefinition := true, pathValue := 0 }

/-- The body of the scan, for the relation that a context of the ring is at. -/
def Ring.add (ring : Ring) (relation : SummarizedValueRelation n) : Ring :=
  if relation.relationIsStaticDefinition then
    match relation.relatedValue with
    | .variable_ _ delta => { ring with pathValue := ring.pathValue + delta }
    | .phi _ => ring
    | _ => { ring with evaluationCanBeRecursive := false }
  else { ring with evaluationIsDefinition := false, evaluationCanBeRecursive := false }

/-- The scan from a context to the last one. -/
def scanRing (contexts : Contexts n) (lastContext : Option (Fin n)) :
    Nat → Option (Fin n) → Ring → Except Failure Ring
  | 0, _, _ => .error .outOfFuel
  | fuel + 1, currentContext, ring =>
      if currentContext = lastContext then .ok ring
      else
        match currentContext with
        | none => .error .brokenRecursiveRing
        | some variable_ => do
            let relation ← currentRelation contexts variable_
            scanRing contexts lastContext fuel (contexts variable_).father (ring.add relation)

/-- The flags that a ring puts on its contexts. -/
def Ring.status (ring : Ring) : EvaluationStatus :=
  if ring.evaluationCanBeRecursive then
    if 0 < ring.pathValue then .ascending
    else if ring.pathValue < 0 then .descending
    else .indefinite
  else .indefinite

/-- The second walk: every context from one to the last gets the flags. -/
def flagRing (lastContext : Option (Fin n)) (flags : EvaluationStatus) :
    Nat → Option (Fin n) → Contexts n → Except Failure (Contexts n)
  | 0, _, _ => .error .outOfFuel
  | fuel + 1, currentContext, contexts =>
      if currentContext = lastContext then .ok contexts
      else
        match currentContext with
        | none => .error .nullPointer
        | some variable_ =>
            flagRing lastContext flags fuel (contexts variable_).father
              (contexts.modify variable_ fun context => { context with status := context.status.or flags })

/-- The case of a context in progress. A walk that goes through more contexts than there are does not end. -/
def closeRing (variable_ : Fin n) (fatherContext : Option (Fin n)) (contexts : Contexts n) :
    Except Failure (Contexts n) := do
  let lastContext := (contexts variable_).father
  let ring ← scanRing contexts lastContext (n + 1) fatherContext .start
  if ring.evaluationIsDefinition then
    flagRing lastContext ring.status (n + 1) fatherContext contexts
  else .ok contexts

/-! ### The evaluation -/

/-- A call for a variable, from the context that is evaluated. -/
abbrev Call (n : Nat) := Fin n → Contexts n → Except Failure (Contexts n)

/-- Whether a related variable is evaluated: a context that was started may be at a relation back to the variable. -/
def relatedIsEvaluated (variable_ relatedVariable : Fin n) (contexts : Contexts n) : Except Failure Bool :=
  if (contexts relatedVariable).status = .notStarted then .ok true
  else do
    let relatedRelation ← currentRelation contexts relatedVariable
    .ok (!relatedRelation.relatesTo variable_)

/-- What is done behind the evaluation of a related variable. -/
def useRelated (variable_ : Fin n) (relation : SummarizedValueRelation n) (relatedVariable : Fin n) (delta : Int32)
    (contexts : Contexts n) : Contexts n :=
  let related := contexts relatedVariable
  if (contexts variable_).status.isRecursive then
    if related.status = .done then
      contexts.modify variable_ fun context =>
        { context with ranges := related.ranges.addDelta delta, status := .done }
    else contexts
  else
    contexts.modify variable_ fun context =>
      { context with ranges := intersectRanges context.ranges related.ranges delta relation.relation }

/-- The case of a relation with a variable. -/
def processVariable (call : Call n) (variable_ : Fin n) (relation : SummarizedValueRelation n) (relatedVariable : Fin n)
    (delta : Int32) (contexts : Contexts n) : Except Failure (Contexts n) :=
  if relation.relation = .anyRelation then .ok contexts
  else do
    let evaluated ← relatedIsEvaluated variable_ relatedVariable contexts
    if evaluated then
      let contexts ← call relatedVariable contexts
      .ok (useRelated variable_ relation relatedVariable delta contexts)
    else .ok contexts

/-- What is collected over the alternatives of a phi. -/
structure PhiRanges where
  phiRanges : EvaluationRanges
  isAscending : Bool
  isDescending : Bool

/-- Before the first alternative. -/
def PhiRanges.start : PhiRanges :=
  { phiRanges := .impossible, isAscending := false, isDescending := false }

/-- Behind an alternative whose evaluation found that the phi is recursive. -/
def PhiRanges.recursive (phi : PhiRanges) (status : EvaluationStatus) : PhiRanges :=
  { phi with
    isAscending := phi.isAscending || status.recursivelyAscending || status.recursivelyIndefinite,
    isDescending := phi.isDescending || status.recursivelyDescending || status.recursivelyIndefinite }

/-- The ranges behind the last alternative. -/
def PhiRanges.result (phi : PhiRanges) : EvaluationRanges :=
  let upper := if phi.isAscending then
    { phi.phiRanges with
      zero := { phi.phiRanges.zero with upper := Int32.maxValue },
      variable_ := { phi.phiRanges.variable_ with upper := Int32.maxValue } }
    else phi.phiRanges
  if phi.isDescending then
    { upper with
      zero := { upper.zero with lower := Int32.minValue },
      variable_ := { upper.variable_ with lower := Int32.minValue } }
  else upper

/-- The loop over the alternatives of a phi. -/
def processAlternatives (call : Call n) (variable_ : Fin n) :
    List (Fin n) → PhiRanges → Contexts n → Except Failure (PhiRanges × Contexts n)
  | [], phi, contexts => .ok (phi, contexts)
  | alternative :: alternatives, phi, contexts => do
      let contexts ← call alternative contexts
      if (contexts variable_).status.isRecursive then
        processAlternatives call variable_ alternatives (phi.recursive (contexts variable_).status)
          (contexts.modify variable_ fun context => { context with status := .progressing })
      else
        processAlternatives call variable_ alternatives
          { phi with phiRanges := phi.phiRanges.union (contexts alternative).ranges } contexts

/-- The body of the loop over the relations of a variable. -/
def processRelation (call : Call n) (variable_ : Fin n) (relation : SummarizedValueRelation n) (contexts : Contexts n) :
    Except Failure (Contexts n) := do
  let contexts := contexts.modify variable_ fun context => { context with currentRelation := some relation }
  match relation.relatedValue with
  | .any => .ok contexts
  | .constant value =>
      .ok (contexts.modify variable_ fun context =>
        { context with
          ranges := { context.ranges with zero := intersectValue context.ranges.zero value relation.relation } })
  | .variable_ relatedVariable delta => processVariable call variable_ relation relatedVariable delta contexts
  | .phi alternatives => do
      let (phi, contexts) ← processAlternatives call variable_ alternatives .start contexts
      .ok (contexts.modify variable_ fun context => { context with ranges := context.ranges.intersection phi.result })

/-- The loop over the relations of a variable. -/
def processRelations (call : Call n) (variable_ : Fin n) :
    List (SummarizedValueRelation n) → Contexts n → Except Failure (Contexts n)
  | [], contexts => .ok contexts
  | relation :: relations, contexts => do
      let contexts ← processRelation call variable_ relation contexts
      processRelations call variable_ relations contexts

/-- How the context of a variable is initialized. -/
def EvaluationContext.begun (context : EvaluationContext n) (isTarget : Bool) (fatherContext : Option (Fin n)) :
    EvaluationContext n :=
  { context with
    status := .progressing, father := fatherContext,
    ranges := if isTarget then { EvaluationRanges.weak with variable_ := { lower := 0, upper := 0 } } else .weak }

/-- How the context of a variable is left. -/
def EvaluationContext.ended (context : EvaluationContext n) : EvaluationContext n :=
  { context with status := if context.status.isRecursive then .notStarted else .done }

/-- `evaluate_relation_with_target_variable`. The fuel bounds the depth of the recursion. -/
def evaluateRelationWithTargetVariable (area : EvaluationArea n) (targetVariable : Fin n) :
    Nat → Fin n → Option (Fin n) → Contexts n → Except Failure (Contexts n)
  | 0, _, _, _ => .error .outOfFuel
  | fuel + 1, variable_, fatherContext, contexts =>
      if (contexts variable_).status = .notStarted then do
        let contexts ← processRelations
          (fun related => evaluateRelationWithTargetVariable area targetVariable fuel related (some variable_)) variable_
          (area.first variable_ :: area.others variable_)
          (contexts.modify variable_ fun context => context.begun (variable_ = targetVariable) fatherContext)
        .ok (contexts.modify variable_ EvaluationContext.ended)
      else if (contexts variable_).status = .progressing then closeRing variable_ fatherContext contexts
      else .ok contexts

end MonoRuntime.Abc
