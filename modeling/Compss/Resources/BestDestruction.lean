/-
Which dynamic worker, or which of the instance types it is made of, the
optimizer gives up: `getBestDestruction`.

Every option is given three numbers, by how much it takes of each core against
what is recommended, and is compared with the best values of the three. These
are never changed from what they begin with, and so every option is better than
them: the last one that is examined is returned (`getBestDestruction_eq`).

The numbers are floats, as in the descriptions of the workers. Arrays indexed by
a core are functions.
-/
import Compss.Resources.DynamicMethodWorker

namespace Compss.Resources

/-- The other floats of the optimizer: conversions, and `Float.MAX_VALUE`. -/
class OptimizerFloat (φ : Type) [JavaFloat φ] where
  ofInt : Int → φ
  maxValue : φ

open JavaFloat OptimizerFloat

/-- An instance type, with the slots one instance has for each core. -/
structure SlotType where
  name : String
  slotsCore : Nat → Int

/-- A dynamic worker: `typeComposition` are the keys of the type composition of
a cloud worker, in the order they are iterated, and any other worker has none. -/
structure ReducibleWorker where
  name : String
  idealSimultaneousTasks : Nat → Int
  coreSimultaneousTasks : Nat → Int
  typeComposition : Option (List SlotType)

namespace ReducibleWorker

def canRun (w : ReducibleWorker) (coreId : Nat) : Bool := 0 < w.idealSimultaneousTasks coreId

end ReducibleWorker

structure ReductionOption (φ : Type) where
  res : ReducibleWorker
  type : Option SlotType
  undesiredCEsAffected : φ
  undesiredSlotsAffected : φ
  desiredSlotsAffected : φ

namespace ReductionOption

variable {φ : Type} [JavaFloat φ] [OptimizerFloat φ]

def new (res : ReducibleWorker) (type : Option SlotType) : ReductionOption φ := ⟨res, type, zero, zero, zero⟩

def undesiredCEAffected (o : ReductionOption φ) : ReductionOption φ :=
  { o with undesiredCEsAffected := add o.undesiredCEsAffected (ofInt 1) }

def addUndesiredSlots (o : ReductionOption φ) (slots : φ) : ReductionOption φ :=
  { o with undesiredSlotsAffected := add o.undesiredSlotsAffected slots }

def addDesiredSlots (o : ReductionOption φ) (slots : φ) : ReductionOption φ :=
  { o with desiredSlotsAffected := add o.desiredSlotsAffected slots }

/-- What the loops over the cores do with the slots of one core, for both kinds
of workers. -/
def reduceCore (recommendedSlots : Nat → φ) (reducedSlots : Nat → Int) (o : ReductionOption φ) (coreId : Nat) :
    ReductionOption φ :=
  if gt (ofInt 1) (recommendedSlots coreId) && 0 < reducedSlots coreId then
    o.undesiredCEAffected.addUndesiredSlots (ofInt (reducedSlots coreId))
  else
    let dif := sub (ofInt (reducedSlots coreId)) (recommendedSlots coreId)
    if gt zero dif then o.addDesiredSlots (ofInt (reducedSlots coreId))
    else (o.addDesiredSlots (recommendedSlots coreId)).addUndesiredSlots dif

/-- An option takes less than another: fewer cores that were not to be touched,
or as many and fewer slots that were not asked for, or as many of both and more
of those that were. -/
def isBetter (o p : ReductionOption φ) : Bool :=
  if eq p.undesiredCEsAffected o.undesiredCEsAffected then
    if eq p.undesiredSlotsAffected o.undesiredSlotsAffected then gt o.desiredSlotsAffected p.desiredSlotsAffected
    else gt p.undesiredSlotsAffected o.undesiredSlotsAffected
  else gt p.undesiredCEsAffected o.undesiredCEsAffected

end ReductionOption

namespace ResourceOptimizer

variable {φ : Type} [JavaFloat φ] [OptimizerFloat φ] (coreCount : Nat) (recommendedSlots : Nat → φ)

def getPossibleReductions (res : ReducibleWorker) : List (ReductionOption φ) :=
  match res.typeComposition with
  | some types => types.map fun type =>
      ((List.range coreCount).filter res.canRun).foldl (ReductionOption.reduceCore recommendedSlots type.slotsCore)
        (.new res (some type))
  | none =>
    [((List.range coreCount).filter fun coreId => 0 < res.coreSimultaneousTasks coreId).foldl
      (ReductionOption.reduceCore recommendedSlots res.coreSimultaneousTasks) (.new res none)]

/-- The variables of `getBestDestruction`. -/
structure Search (φ : Type) where
  bestUndesiredCEs : φ
  bestUndesiredSlots : φ
  bestDesiredSlots : φ
  bestOption : Option (ReductionOption φ)

/-- One turn of the inner loop. Of the variables only the last is assigned. -/
def examine (s : Search φ) (option : ReductionOption φ) : Search φ :=
  if eq s.bestUndesiredCEs option.undesiredCEsAffected then
    if eq s.bestUndesiredSlots option.undesiredSlotsAffected then
      if gt option.desiredSlotsAffected s.bestDesiredSlots then { s with bestOption := some option } else s
    else if gt s.bestUndesiredSlots option.undesiredSlotsAffected then { s with bestOption := some option } else s
  else if gt s.bestUndesiredCEs option.undesiredCEsAffected then { s with bestOption := some option } else s

def getBestDestruction (resourceSet : List ReducibleWorker) : Option (ReductionOption φ) :=
  (resourceSet.foldl (fun s res => (getPossibleReductions coreCount recommendedSlots res).foldl examine s)
    ⟨maxValue, maxValue, maxValue, none⟩).bestOption

/-- The worker and type pairs that are examined. -/
def examined (resourceSet : List ReducibleWorker) : List (ReductionOption φ) :=
  resourceSet.flatMap (getPossibleReductions coreCount recommendedSlots)

/-- No option that is examined is better. -/
def Minimal (resourceSet : List ReducibleWorker) (o : ReductionOption φ) : Prop :=
  ∀ p ∈ examined coreCount recommendedSlots resourceSet, p.isBetter o = false

end ResourceOptimizer

/-- Counting up to the number of cores does not reach `Float.MAX_VALUE`. -/
class LawfulOptimizerFloat (φ : Type) [JavaFloat φ] [OptimizerFloat φ] : Prop where
  eq_count : ∀ n < 2 ^ 31, eq (maxValue : φ) ((fun x => add x (ofInt 1))^[n] zero) = false
  gt_count : ∀ n < 2 ^ 31, gt (maxValue : φ) ((fun x => add x (ofInt 1))^[n] zero) = true

section
variable {φ : Type} [JavaFloat φ] [OptimizerFloat φ] {coreCount : Nat} {recommendedSlots : Nat → φ}
  {reducedSlots : Nat → Int} {resourceSet : List ReducibleWorker} {o : ReductionOption φ} {s : ResourceOptimizer.Search φ}

namespace ReductionOption

/-- The affected cores have been counted, up to `n` of them. -/
def Counted (o : ReductionOption φ) (n : Nat) : Prop :=
  ∃ k ≤ n, o.undesiredCEsAffected = (fun x => add x (ofInt 1))^[k] zero

theorem new_counted (res : ReducibleWorker) (type : Option SlotType) : (new res type : ReductionOption φ).Counted 0 :=
  ⟨0, Nat.le_refl 0, rfl⟩

theorem Counted.reduceCore {n : Nat} (h : o.Counted n) (coreId : Nat) :
    (o.reduceCore recommendedSlots reducedSlots coreId).Counted (n + 1) := by
  obtain ⟨k, hk, hcount⟩ := h
  rw [ReductionOption.reduceCore]
  split
  · refine ⟨k + 1, Nat.succ_le_succ hk, ?_⟩
    rw [Function.iterate_succ_apply', ← hcount]
    rfl
  · dsimp only
    split
    · exact ⟨k, Nat.le_succ_of_le hk, hcount⟩
    · exact ⟨k, Nat.le_succ_of_le hk, hcount⟩

theorem Counted.foldl {n : Nat} (h : o.Counted n) (cores : List Nat) :
    (cores.foldl (ReductionOption.reduceCore recommendedSlots reducedSlots) o).Counted (n + cores.length) := by
  induction cores generalizing o n with
  | nil => exact h
  | cons coreId cores ih =>
    rw [List.foldl_cons, List.length_cons, Nat.add_comm cores.length, ← Nat.add_assoc]
    exact ih (h.reduceCore coreId)

end ReductionOption

namespace ResourceOptimizer

open ReductionOption

/-- At most all cores are counted. -/
theorem getPossibleReductions_counted {res : ReducibleWorker}
    (h : o ∈ getPossibleReductions coreCount recommendedSlots res) : o.Counted coreCount := by
  have hall : ∀ (runs : Nat → Bool) (slots : Nat → Int) (type : Option SlotType),
      (((List.range coreCount).filter runs).foldl (ReductionOption.reduceCore recommendedSlots slots)
        (.new res type)).Counted coreCount := fun runs slots type => by
    obtain ⟨k, hk, hcount⟩ : Counted (((List.range coreCount).filter runs).foldl
        (ReductionOption.reduceCore recommendedSlots slots) (.new res type)) _ := (new_counted res type).foldl _
    have hlen := List.length_filter_le runs (List.range coreCount)
    rw [List.length_range] at hlen
    exact ⟨k, by omega, hcount⟩
  rw [getPossibleReductions] at h
  split at h
  · obtain ⟨type, -, rfl⟩ := List.mem_map.mp h
    exact hall _ _ _
  · obtain rfl := List.mem_singleton.mp h
    exact hall _ _ _

theorem examine_eq [LawfulOptimizerFloat φ] (hbest : s.bestUndesiredCEs = maxValue) {n : Nat} (hn : n < 2 ^ 31)
    (h : o.Counted n) : examine s o = { s with bestOption := some o } := by
  obtain ⟨k, hk, hcount⟩ := h
  rw [examine, hbest, hcount, LawfulOptimizerFloat.eq_count k (by omega), LawfulOptimizerFloat.gt_count k (by omega)]
  rfl

theorem foldl_examine [LawfulOptimizerFloat φ] (hbest : s.bestUndesiredCEs = maxValue) {n : Nat} (hn : n < 2 ^ 31)
    {options : List (ReductionOption φ)} (h : ∀ o ∈ options, o.Counted n) :
    options.foldl examine s = { s with bestOption := options.getLast?.or s.bestOption } := by
  induction options generalizing s with
  | nil => rfl
  | cons o options ih =>
    rw [List.foldl_cons, examine_eq hbest hn (h o List.mem_cons_self)]
    refine (ih (s := { s with bestOption := some o }) hbest fun p hp => h p (List.mem_cons_of_mem o hp)).trans ?_
    rw [List.getLast?_cons]
    cases options.getLast? <;> rfl

/-- The last option that is examined is returned. -/
theorem getBestDestruction_eq [LawfulOptimizerFloat φ] (hcores : coreCount < 2 ^ 31) :
    getBestDestruction coreCount recommendedSlots resourceSet =
      (examined coreCount recommendedSlots resourceSet).getLast? := by
  have hcounted : ∀ o ∈ examined coreCount recommendedSlots resourceSet, o.Counted coreCount := fun o ho => by
    obtain ⟨res, -, hres⟩ := List.mem_flatMap.mp ho
    exact getPossibleReductions_counted hres
  have hfold : ∀ s : Search φ, resourceSet.foldl
      (fun s res => (getPossibleReductions coreCount recommendedSlots res).foldl examine s) s =
      (examined coreCount recommendedSlots resourceSet).foldl examine s := fun s => by
    rw [examined, List.foldl_flatMap]
  rw [getBestDestruction, hfold, foldl_examine rfl hcores hcounted]
  exact Option.or_none

/-- A minimal option is returned exactly when the last one examined is minimal. -/
theorem getBestDestruction_minimal_iff [LawfulOptimizerFloat φ] (hcores : coreCount < 2 ^ 31) :
    (∃ o ∈ examined coreCount recommendedSlots resourceSet,
      getBestDestruction coreCount recommendedSlots resourceSet = some o ∧ Minimal coreCount recommendedSlots resourceSet o) ↔
      ∃ o, (examined coreCount recommendedSlots resourceSet).getLast? = some o ∧
        Minimal coreCount recommendedSlots resourceSet o := by
  rw [getBestDestruction_eq hcores]
  exact ⟨fun ⟨o, _, ho, hmin⟩ => ⟨o, ho, hmin⟩, fun ⟨o, ho, hmin⟩ => ⟨o, List.mem_of_getLast? ho, ho, hmin⟩⟩

end ResourceOptimizer

end

/-! ## Two workers -/

instance : OptimizerFloat Int where
  ofInt n := n
  maxValue := (2 ^ 24 - 1) * 2 ^ 104

theorem iterate_count (n : Nat) : (fun x : Int => add x (ofInt 1))^[n] zero = n := by
  induction n with
  | zero => rfl
  | succ n ih =>
    rw [Function.iterate_succ_apply', ih]
    exact (Int.natCast_succ n).symm

instance : LawfulOptimizerFloat Int where
  eq_count n hn := by
    rw [iterate_count]
    refine decide_eq_false fun h => ?_
    simp only [OptimizerFloat.maxValue] at h
    omega
  gt_count n hn := by
    rw [iterate_count]
    refine decide_eq_true ?_
    simp only [OptimizerFloat.maxValue]
    omega

namespace ResourceOptimizer

/-- A worker with some slots for core 0. -/
def slotWorker (name : String) (slots : Int) : ReducibleWorker where
  name := name
  idealSimultaneousTasks _ := slots
  coreSimultaneousTasks _ := slots
  typeComposition := none

/-- The better worker last: it is returned. -/
theorem getBestDestruction_betterLast :
    1 < 2 ^ 31 ∧ ∃ o ∈ examined 1 (fun _ => (1 : Int)) [slotWorker "B" 3, slotWorker "A" 1],
      getBestDestruction 1 (fun _ => (1 : Int)) [slotWorker "B" 3, slotWorker "A" 1] = some o ∧
        Minimal 1 (fun _ => (1 : Int)) [slotWorker "B" 3, slotWorker "A" 1] o := by
  have hexamined : examined 1 (fun _ => (1 : Int)) [slotWorker "B" 3, slotWorker "A" 1] =
      [⟨slotWorker "B" 3, none, 0, 2, 1⟩, ⟨slotWorker "A" 1, none, 0, 0, 1⟩] := rfl
  refine ⟨by decide, (getBestDestruction_minimal_iff (by decide)).mpr ⟨⟨slotWorker "A" 1, none, 0, 0, 1⟩, rfl, ?_⟩⟩
  intro p hp
  rw [hexamined, List.mem_cons, List.mem_singleton] at hp
  rcases hp with rfl | rfl
  · decide
  · decide

/-- Of two workers, of which one has the slot that is to go and the other three,
the second is given up when it is examined last. -/
theorem getBestDestruction_lastOption :
    (getBestDestruction 1 (fun _ => (1 : Int)) [slotWorker "A" 1, slotWorker "B" 3]).map (·.res.name) = some "B" ∧
      ¬ ∃ o ∈ examined 1 (fun _ => (1 : Int)) [slotWorker "A" 1, slotWorker "B" 3],
        getBestDestruction 1 (fun _ => (1 : Int)) [slotWorker "A" 1, slotWorker "B" 3] = some o ∧
          Minimal 1 (fun _ => (1 : Int)) [slotWorker "A" 1, slotWorker "B" 3] o := by
  have hreturned : getBestDestruction 1 (fun _ => (1 : Int)) [slotWorker "A" 1, slotWorker "B" 3] =
      some ⟨slotWorker "B" 3, none, 0, 2, 1⟩ := rfl
  refine ⟨by rw [hreturned]; rfl, fun ⟨o, _, ho, hmin⟩ => ?_⟩
  rw [hreturned] at ho
  obtain rfl := Option.some.inj ho
  have hfirst : (⟨slotWorker "A" 1, none, 0, 0, 1⟩ : ReductionOption Int) ∈
      examined 1 (fun _ => (1 : Int)) [slotWorker "A" 1, slotWorker "B" 3] := List.mem_cons_self
  exact absurd (hmin _ hfirst) (by decide)

end ResourceOptimizer

end Compss.Resources
