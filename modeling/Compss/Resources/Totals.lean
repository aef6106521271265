/-
The totals of a description over its whole life.

A total is kept by two rules: an operation that adds a processor or counts
them all again takes one without units for one unit (`updateCounters`), and
one that changes the units of a processor moves the total by as much. The two
agree for as long as no processor is without units: a processor that is added
with none leaves its total one too high for good, and one whose units are all
taken is counted as one by the next copy.
-/
import Compss.Resources.Reservation

namespace Compss.Resources

variable {φ : Type}

/-! ## The rest of the operations -/

/-- The product of a `float` and an `int`. -/
class FloatProduct (φ : Type) where
  times : φ → Int → φ

namespace Processor

def multiply (p : Processor φ) (amount : Int) : Processor φ := { p with computingUnits := p.computingUnits * amount }

/-- What a processor takes over from one of the same type: the units, when it
has at most one, and whatever else is not assigned. -/
def merge [JavaFloat φ] (pthis pmr2 : Processor φ) : Processor φ where
  name := if pthis.name = unassignedStr then pmr2.name else pthis.name
  computingUnits := if pthis.computingUnits ≤ 1 then pmr2.computingUnits else pthis.computingUnits
  speed := if JavaFloat.eq pthis.speed JavaFloat.unassigned then pmr2.speed else pthis.speed
  architecture := if pthis.architecture = unassignedStr then pmr2.architecture else pthis.architecture
  type := pthis.type
  internalMemory :=
    if JavaFloat.eq pthis.internalMemory JavaFloat.unassigned then pmr2.internalMemory else pthis.internalMemory
  propName := if pthis.propName = unassignedStr then pmr2.propName else pthis.propName
  propValue := if pthis.propValue = unassignedStr then pmr2.propValue else pthis.propValue

end Processor

/-- `lookForProcessorType`: the first processor of the type, and the list with
`change` made to it. -/
def changeType (type : String) (change : Processor φ → Processor φ) :
    List (Processor φ) → Option (Processor φ × List (Processor φ))
  | [] => none
  | p :: processors =>
    if p.type = type then some (p, change p :: processors)
    else (changeType type change processors).map fun found => (found.1, p :: found.2)

namespace MethodResourceDescription

def updateProcessorCounters (d : MethodResourceDescription φ) : MethodResourceDescription φ :=
  d.processors.foldl updateCounters d.initProcessorCounters

def setProcessors (d : MethodResourceDescription φ) (processors : List (Processor φ)) : MethodResourceDescription φ :=
  { d with processors := processors }.updateProcessorCounters

def resetProcessors (d : MethodResourceDescription φ) : MethodResourceDescription φ :=
  { d with processors := [] }.initProcessorCounters

section
variable [JavaFloat φ]

def setStorageSize (d : MethodResourceDescription φ) (storageSize : φ) : MethodResourceDescription φ :=
  if JavaFloat.gt storageSize JavaFloat.zero then { d with storageSize := storageSize } else d

def setWallClockLimit (d : MethodResourceDescription φ) (wallClockLimit : Int) : MethodResourceDescription φ :=
  if wallClockLimit > 0 then { d with wallClockLimit := wallClockLimit } else d

/-- One processor of `mergeMultiConstraints`. -/
def mergeProcessor (d : MethodResourceDescription φ) (pmr2 : Processor φ) : MethodResourceDescription φ :=
  match changeType pmr2.type (·.merge pmr2) d.processors with
  | some (pthis, processors) =>
    let d := { d with processors := processors }
    if pthis.computingUnits ≤ 1 then
      d.increaseComputingUnits pmr2.type (pmr2.computingUnits - pthis.computingUnits)
    else d
  | none => d.addProcessor pmr2

def mergeMultiConstraints (d mr2 : MethodResourceDescription φ) : MethodResourceDescription φ :=
  let d := mr2.processors.foldl mergeProcessor d
  let d := if JavaFloat.eq d.memorySize JavaFloat.unassigned then d.setMemorySize mr2.memorySize else d
  let d := if d.memoryType = unassignedStr then d.setMemoryType mr2.memoryType else d
  let d := if JavaFloat.eq d.storageSize JavaFloat.unassigned then d.setStorageSize mr2.storageSize else d
  let d := { d with
    storageType := assignString d.storageType mr2.storageType
    operatingSystemType := assignString d.operatingSystemType mr2.operatingSystemType
    operatingSystemDistribution := assignString d.operatingSystemDistribution mr2.operatingSystemDistribution
    operatingSystemVersion := assignString d.operatingSystemVersion mr2.operatingSystemVersion
    appSoftware := mr2.appSoftware.foldl (fun apps app => if app ∈ apps then apps else apps ++ [app]) d.appSoftware
    hostQueues := mr2.hostQueues.foldl (fun queues q => if q ∈ queues then queues else queues ++ [q]) d.hostQueues
    pricePerUnit :=
      if JavaFloat.eq d.pricePerUnit JavaFloat.unassigned && JavaFloat.gt mr2.pricePerUnit JavaFloat.zero then
        mr2.pricePerUnit
      else d.pricePerUnit
    priceTimeUnit :=
      if d.priceTimeUnit = unassignedInt ∧ 0 < mr2.priceTimeUnit then mr2.priceTimeUnit else d.priceTimeUnit }
  let d := if d.wallClockLimit = unassignedInt then d.setWallClockLimit mr2.wallClockLimit else d
  { d with value := mr2.value }

/-- `multiply`: a new description, with the processors and the sizes only. -/
def multiply [FloatProduct φ] (d : MethodResourceDescription φ) (amount : Int) : MethodResourceDescription φ :=
  { (d.processors.map (·.multiply amount)).foldl addProcessor new with
    memorySize := FloatProduct.times d.memorySize amount
    storageSize := FloatProduct.times d.storageSize amount }

end

end MethodResourceDescription

/-! ## Lives -/

/-- What happens to a description. The list given to `setProcessors` and the
processors given to `addProcessor` and `mergeMultiConstraints` are not copied:
whoever else holds them can change them later. -/
inductive Operation (φ : Type)
  | addProcessor (p : Processor φ)
  | setProcessors (processors : List (Processor φ))
  | copy
  | mergeMultiConstraints (mr2 : MethodResourceDescription φ)
  | multiply (amount : Int)
  | increaseDynamic (mr2 : MethodResourceDescription φ)
  | reduceDynamic (mr2 : MethodResourceDescription φ)
  | changedElsewhere (processors : List (Processor φ))

/-- A reduction is a step when it succeeds; `copy` and `multiply` go on with the
description they return. -/
def operate [JavaFloat φ] [FloatProduct φ] (d : MethodResourceDescription φ) :
    Operation φ → Option (MethodResourceDescription φ)
  | .addProcessor p => some (d.addProcessor p)
  | .setProcessors processors => some (d.setProcessors processors)
  | .copy => some d.copy
  | .mergeMultiConstraints mr2 => some (d.mergeMultiConstraints mr2)
  | .multiply amount => some (d.multiply amount)
  | .increaseDynamic mr2 => some (d.increaseDynamic mr2)
  | .reduceDynamic mr2 => (d.reduceDynamic mr2).2.map fun _ => (d.reduceDynamic mr2).1
  | .changedElsewhere processors => some { d with processors := processors }

/-- The totals are those of the processors, and a copy has the same. -/
structure TotalsExact (d : MethodResourceDescription φ) : Prop where
  exact : ∀ type, d.totalComputingUnits type = units type d.processors
  copied : ∀ type, d.copy.totalComputingUnits type = d.totalComputingUnits type

/-! ## What a processor is counted as -/

/-- The processor has units. -/
def Processor.HasUnits (p : Processor φ) : Prop := 0 < p.computingUnits

instance (p : Processor φ) : Decidable p.HasUnits := inferInstanceAs (Decidable (0 < _))

/-- How much more a processor counts when it is added than it has. -/
def Processor.excess (p : Processor φ) : Int := if 0 < p.computingUnits then 0 else 1 - p.computingUnits

/-- How much more than they have processors of a type count when they are added. -/
def excess (type : ProcessorType) (ps : List (Processor φ)) : Int :=
  (ps.map fun p => if p.countedType = type then p.excess else 0).sum

section
variable {type : ProcessorType} {p q pThis : Processor φ} {ps qs processors : List (Processor φ)}

theorem Processor.excess_nonneg (p : Processor φ) : 0 ≤ p.excess := by
  rw [Processor.excess]; split <;> omega

theorem Processor.excess_eq_zero : p.excess = 0 ↔ p.HasUnits := by
  rw [Processor.excess, Processor.HasUnits]; split <;> omega

@[simp] theorem excess_nil : excess type ([] : List (Processor φ)) = 0 := rfl

@[simp] theorem excess_cons :
    excess type (p :: ps) = (if p.countedType = type then p.excess else 0) + excess type ps := by
  simp [excess]

@[simp] theorem excess_append : excess type (ps ++ qs) = excess type ps + excess type qs := by
  simp [excess]

theorem excess_nonneg (type : ProcessorType) (ps : List (Processor φ)) : 0 ≤ excess type ps := by
  induction ps with
  | nil => simp
  | cons p ps ih =>
    have := p.excess_nonneg
    rw [excess_cons]
    split <;> omega

/-- Nothing is counted too much exactly when each processor has units. -/
theorem excess_eq_zero : (∀ type, excess type ps = 0) ↔ ∀ p ∈ ps, p.HasUnits := by
  induction ps with
  | nil => simp
  | cons p ps ih =>
    rw [List.forall_mem_cons, ← ih, ← Processor.excess_eq_zero]
    refine ⟨fun h => ?_, fun ⟨hp, h⟩ type => by rw [excess_cons, hp, h type]; split <;> rfl⟩
    have hsum : ∀ type, (if p.countedType = type then p.excess else 0) + excess type ps = 0 := by simpa using h
    refine ⟨?_, fun type => ?_⟩
    · have := hsum p.countedType
      rw [if_pos rfl] at this
      have := p.excess_nonneg
      have := excess_nonneg p.countedType ps
      omega
    · have := hsum type
      have := p.excess_nonneg
      have := excess_nonneg type ps
      split at * <;> omega

end

/-! ## What an operation does to the totals -/

/-- `mergeMultiConstraints` on the list of processors. -/
def mergeInto [JavaFloat φ] (ps : List (Processor φ)) (pmr2 : Processor φ) : List (Processor φ) :=
  match changeType pmr2.type (·.merge pmr2) ps with
  | some (_, processors) => processors
  | none => ps ++ [pmr2]

/-- The processors that are added when each is put in its turn. -/
def addedBy (isNew : List (Processor φ) → Processor φ → Bool)
    (put : List (Processor φ) → Processor φ → List (Processor φ)) : List (Processor φ) → List (Processor φ) → List (Processor φ)
  | _, [] => []
  | ps, p :: given => (if isNew ps p then [p] else []) ++ addedBy isNew put (put ps p) given

/-- No processor of the list is compatible. -/
def unmatched [JavaFloat φ] (ps : List (Processor φ)) (p : Processor φ) : Bool := (firstCompatible p ps).isNone

/-- No processor of the list has the type. -/
def newType (ps : List (Processor φ)) (p : Processor φ) : Bool := ps.all fun q => q.type ≠ p.type

section
variable {type : ProcessorType} {name : String} {p q pThis : Processor φ} {ps qs processors : List (Processor φ)}
  {change : Processor φ → Processor φ}

theorem changeType_none : changeType name change ps = none ↔ ∀ q ∈ ps, q.type ≠ name := by
  induction ps with
  | nil => simp [changeType]
  | cons q ps ih =>
    rw [changeType, List.forall_mem_cons]
    by_cases hq : q.type = name
    · simp [hq]
    · simp [hq, ih]

/-- The change is made to a processor of the type, in its place. -/
theorem changeType_some (h : changeType name change ps = some (pThis, processors)) :
    pThis.type = name ∧ ∃ before after, ps = before ++ pThis :: after ∧ processors = before ++ change pThis :: after := by
  induction ps generalizing processors with
  | nil => cases h
  | cons q ps ih =>
    rw [changeType] at h
    by_cases hq : q.type = name
    · rw [if_pos hq] at h
      cases h
      exact ⟨hq, [], ps, rfl, rfl⟩
    · rw [if_neg hq] at h
      obtain ⟨⟨r, rs⟩, hr, he⟩ := Option.map_eq_some_iff.mp h
      cases he
      obtain ⟨htype, before, after, hps, hprocessors⟩ := ih hr
      exact ⟨htype, q :: before, after, by rw [hps]; rfl, by rw [hprocessors]; rfl⟩

theorem units_changeType (h : changeType name change ps = some (pThis, processors))
    (hchange : (change pThis).countedType = pThis.countedType) (type : ProcessorType) :
    units type processors = units type ps +
      if pThis.countedType = type then (change pThis).computingUnits - pThis.computingUnits else 0 := by
  obtain ⟨-, before, after, hps, hprocessors⟩ := changeType_some h
  rw [hps, hprocessors]
  simp only [units_append, units_cons, hchange]
  split <;> omega

end

namespace MethodResourceDescription

variable {d : MethodResourceDescription φ} {type : ProcessorType} {p : Processor φ} {ps : List (Processor φ)}

theorem updateCounters_totalComputingUnits :
    (d.updateCounters p).totalComputingUnits type =
      d.totalComputingUnits type + (if p.countedType = type then p.computingUnits else 0) + excess type [p] := by
  simp only [updateCounters, excess_cons, excess_nil, Processor.excess, Function.update_apply, eq_comm (a := type)]
  split
  · next h => subst h; split <;> omega
  · omega

theorem foldl_updateCounters_totalComputingUnits :
    (ps.foldl updateCounters d).totalComputingUnits type = d.totalComputingUnits type + units type ps + excess type ps := by
  induction ps generalizing d with
  | nil => simp
  | cons p ps ih =>
    rw [List.foldl_cons, ih, updateCounters_totalComputingUnits]
    simp only [units_cons, excess_cons, excess_nil]
    omega

theorem foldl_updateCounters_processors : (ps.foldl updateCounters d).processors = d.processors := by
  induction ps generalizing d with
  | nil => rfl
  | cons p ps ih => exact ih

theorem drift_addProcessor : (d.addProcessor p).drift type = d.drift type + excess type [p] := by
  have hp : ({ d with processors := d.processors ++ [p] }.updateCounters p).processors = d.processors ++ [p] := rfl
  rw [drift, drift, addProcessor, updateCounters_totalComputingUnits, hp, units_append, units_cons, units_nil]
  dsimp only
  omega

/-- A total that is moved by as much as the units of its processors. -/
theorem drift_increaseComputingUnits {name : String} {cus : Int} {processors : List (Processor φ)}
    (h : units type processors = units type d.processors + if ProcessorType.of name = type then cus else 0) :
    ({ d with processors := processors }.increaseComputingUnits name cus).drift type = d.drift type := by
  have hps : ({ d with processors := processors }.increaseComputingUnits name cus).processors = processors := rfl
  rw [drift, drift, hps, h, increaseComputingUnits]
  by_cases ht : ProcessorType.of name = type
  · subst ht
    simp only [Function.update_self, if_true]
    omega
  · rw [if_neg ht]
    simp only [Function.update_of_ne (Ne.symm ht)]
    omega

theorem drift_foldl_addProcessor : (ps.foldl addProcessor d).drift type = d.drift type + excess type ps := by
  induction ps generalizing d with
  | nil => simp
  | cons p ps ih =>
    rw [List.foldl_cons, ih, drift_addProcessor, excess_cons, excess_cons, excess_nil]
    omega

theorem drift_setProcessors : (d.setProcessors ps).drift type = excess type ps := by
  have htotal : (d.setProcessors ps).totalComputingUnits type = 0 + units type ps + excess type ps :=
    foldl_updateCounters_totalComputingUnits
  have hps : (d.setProcessors ps).processors = ps := foldl_updateCounters_processors
  rw [drift, htotal, hps]
  omega

theorem drift_copy : d.copy.drift type = excess type d.processors := by
  have h : d.copy.drift type = 0 + excess type d.processors := drift_foldl_addProcessor
  rw [h]
  omega

theorem copy_totalComputingUnits :
    d.copy.totalComputingUnits type = units type d.processors + excess type d.processors := by
  have h : d.copy.drift type = excess type d.processors := drift_copy
  rw [drift, copy_processors] at h
  omega

/-- The totals are exact, and stay so in a copy, exactly when they are those of
the processors and each processor has units. -/
theorem totalsExact_iff : TotalsExact d ↔ (∀ type, d.drift type = 0) ∧ ∀ p ∈ d.processors, p.HasUnits := by
  rw [← excess_eq_zero]
  constructor
  · rintro ⟨hexact, hcopied⟩
    have hdrift : ∀ type, d.drift type = 0 := fun type => by rw [drift, hexact type]; omega
    refine ⟨hdrift, fun type => ?_⟩
    have h1 := hexact type
    have h2 := hcopied type
    rw [copy_totalComputingUnits] at h2
    omega
  · rintro ⟨hdrift, hexcess⟩
    have hexact : ∀ type, d.totalComputingUnits type = units type d.processors := fun type => by
      have := hdrift type
      rw [drift] at this
      omega
    refine ⟨hexact, fun type => ?_⟩
    rw [copy_totalComputingUnits, hexcess type, hexact type]
    omega

/-- What each processor that is put does to the drift, the others after it do
to what it leaves. -/
theorem drift_foldl {isNew : List (Processor φ) → Processor φ → Bool}
    {put : List (Processor φ) → Processor φ → List (Processor φ)}
    {f : MethodResourceDescription φ → Processor φ → MethodResourceDescription φ}
    (hput : ∀ d p, (f d p).processors = put d.processors p)
    (hdrift : ∀ d p, (f d p).drift type = d.drift type + excess type (if isNew d.processors p then [p] else [])) :
    (ps.foldl f d).drift type = d.drift type + excess type (addedBy isNew put d.processors ps) := by
  induction ps generalizing d with
  | nil => simp [addedBy]
  | cons p ps ih =>
    rw [List.foldl_cons, ih, hdrift, hput, addedBy, excess_append]
    omega

/-- What the totals are about. -/
def counted (d : MethodResourceDescription φ) : List (Processor φ) × (ProcessorType → Int) :=
  (d.processors, d.totalComputingUnits)

theorem counted_ite {c : Prop} [Decidable c] {d' : MethodResourceDescription φ} (h : d'.counted = d.counted) :
    (if c then d' else d).counted = d.counted := by
  split
  · exact h
  · rfl

section
variable [JavaFloat φ] {mr2 : MethodResourceDescription φ}

theorem drift_increaseProcessor : (d.increaseProcessor p).drift type =
    d.drift type + excess type (if unmatched d.processors p then [p] else []) := by
  rw [increaseProcessor, unmatched]
  cases h : changeFirst p (·.addComputingUnits p.computingUnits) d.processors with
  | none =>
    rw [changeFirst_none.mp h]
    exact drift_addProcessor
  | some found =>
    have hsome : (firstCompatible p d.processors).isSome := by rw [(changeFirst_some h).1]; rfl
    have hsame := increaseProcessor_drift hsome type
    rw [increaseProcessor, h] at hsame
    rw [(changeFirst_some h).1]
    simpa using hsame

theorem drift_increaseDynamic : (d.increaseDynamic mr2).drift type =
    d.drift type + excess type (addedBy unmatched give d.processors mr2.processors) := by
  have h : (mr2.processors.foldl increaseProcessor d).drift type = _ :=
    drift_foldl (fun d p => increaseProcessor_processors (d := d) p) fun _ _ => drift_increaseProcessor
  rw [← h, increaseDynamic]
  split <;> rfl

theorem mergeProcessor_processors : (d.mergeProcessor p).processors = mergeInto d.processors p := by
  rw [mergeProcessor, mergeInto]
  cases changeType p.type (·.merge p) d.processors with
  | none => rfl
  | some found =>
    dsimp only
    split <;> rfl

theorem foldl_mergeProcessor_processors :
    (ps.foldl mergeProcessor d).processors = ps.foldl mergeInto d.processors := by
  induction ps generalizing d with
  | nil => rfl
  | cons p ps ih => rw [List.foldl_cons, ih, mergeProcessor_processors, List.foldl_cons]

theorem drift_mergeProcessor : (d.mergeProcessor p).drift type =
    d.drift type + excess type (if newType d.processors p then [p] else []) := by
  rw [mergeProcessor]
  cases h : changeType p.type (·.merge p) d.processors with
  | none =>
    have hnew : newType d.processors p = true := by
      rw [newType, List.all_eq_true]
      exact fun q hq => decide_eq_true (changeType_none.mp h q hq)
    rw [if_pos hnew]
    exact drift_addProcessor
  | some found =>
    obtain ⟨pthis, processors⟩ := found
    have hnew : newType d.processors p = false := by
      rw [Bool.eq_false_iff, newType, ne_eq, List.all_eq_true]
      intro hall
      rw [changeType_none.mpr fun q hq => of_decide_eq_true (hall q hq)] at h
      cases h
    have htype : pthis.type = p.type := (changeType_some h).1
    have hunits := units_changeType h rfl type
    rw [hnew]
    simp only [Processor.merge, Processor.countedType, htype] at hunits
    dsimp only
    split
    · next hle =>
      rw [if_pos hle] at hunits
      simpa using drift_increaseComputingUnits hunits
    · next hle =>
      simp [drift, hunits, if_neg hle]

/-- The fields that are merged after the processors leave the processors and
the totals alone. -/
theorem mergeMultiConstraints_counted :
    (d.mergeMultiConstraints mr2).counted = (mr2.processors.foldl mergeProcessor d).counted := by
  have hmemorySize : ∀ (d : MethodResourceDescription φ) m, (d.setMemorySize m).counted = d.counted :=
    fun d m => by simp [counted]
  have hmemoryType : ∀ (d : MethodResourceDescription φ) m, (d.setMemoryType m).counted = d.counted :=
    fun d m => by simp [counted]
  have hstorageSize : ∀ (d : MethodResourceDescription φ) m, (d.setStorageSize m).counted = d.counted :=
    fun d m => counted_ite rfl
  have hwallClockLimit : ∀ (d : MethodResourceDescription φ) m, (d.setWallClockLimit m).counted = d.counted :=
    fun d m => counted_ite rfl
  rw [mergeMultiConstraints]
  generalize mr2.processors.foldl mergeProcessor d = d
  refine (counted_ite (hwallClockLimit _ _)).trans ?_
  refine (counted_ite (hstorageSize _ _)).trans ?_
  exact (counted_ite (hmemoryType _ _)).trans (counted_ite (hmemorySize _ _))

theorem mergeMultiConstraints_processors :
    (d.mergeMultiConstraints mr2).processors = mr2.processors.foldl mergeInto d.processors :=
  (congrArg Prod.fst mergeMultiConstraints_counted).trans foldl_mergeProcessor_processors

theorem drift_mergeMultiConstraints : (d.mergeMultiConstraints mr2).drift type =
    d.drift type + excess type (addedBy newType mergeInto d.processors mr2.processors) := by
  have h : (mr2.processors.foldl mergeProcessor d).drift type = _ :=
    drift_foldl (fun _ _ => mergeProcessor_processors) fun _ _ => drift_mergeProcessor
  have hcounted : (d.mergeMultiConstraints mr2).counted = (mr2.processors.foldl mergeProcessor d).counted :=
    mergeMultiConstraints_counted
  rw [← h]
  simp only [counted, Prod.mk.injEq] at hcounted
  rw [drift, drift, hcounted.1, hcounted.2]

theorem drift_multiply [FloatProduct φ] (amount : Int) :
    (d.multiply amount).drift type = excess type (d.processors.map (·.multiply amount)) := by
  have h : (d.multiply amount).drift type = 0 + _ := drift_foldl_addProcessor
  rw [h]
  omega

theorem multiply_processors [FloatProduct φ] (amount : Int) :
    (d.multiply amount).processors = d.processors.map (·.multiply amount) :=
  (foldl_addProcessor_processors _ _).trans (List.nil_append _)

end

end MethodResourceDescription

/-! ## A whole life -/

section
variable {d d' : MethodResourceDescription φ}

open MethodResourceDescription

/-- From exact totals, an operation that adds to the drift what the processors
it adds count too much leaves exact totals when none of those is without units. -/
theorem totalsExact_of_added (h : TotalsExact d) {added : List (Processor φ)}
    (hd' : ∀ type, d'.drift type = d.drift type + excess type added) :
    TotalsExact d' ↔ (∀ p ∈ added, p.HasUnits) ∧ ∀ p ∈ d'.processors, p.HasUnits := by
  have hunits : (∀ type, excess type added = 0) ↔ ∀ p ∈ added, p.HasUnits := excess_eq_zero
  rw [totalsExact_iff, ← hunits]
  refine and_congr_left fun _ => forall_congr' fun type => ?_
  rw [hd' type, (totalsExact_iff.mp h).1 type]
  omega

/-- The same for an operation that counts the processors it adds from nothing. -/
theorem totalsExact_of_counted (hd' : ∀ type, d'.drift type = excess type d'.processors) :
    TotalsExact d' ↔ ∀ p ∈ d'.processors, p.HasUnits := by
  rw [totalsExact_iff, ← excess_eq_zero]
  simp only [hd', and_self]

end

/-- A reduction that finds every processor leaves units in each exactly when
less is asked of it than it has. -/
theorem takeAll_hasUnits [JavaFloat φ] {ps asked : List (Processor φ)} (h : Found ps asked) :
    (∀ p ∈ takeAll ps asked, p.HasUnits) ↔ ∀ i p, ps[i]? = some p → demand ps asked i < p.computingUnits := by
  have key : ∀ i : Nat, (takeAll ps asked)[i]? = (ps[i]?).map fun q => q.removeComputingUnits (demand ps asked i) := by
    intro i
    rw [takeAll_getElem?, served_of_found h]
  constructor
  · intro hall i p hp
    have hmem : p.removeComputingUnits (demand ps asked i) ∈ takeAll ps asked := by
      refine List.mem_of_getElem? (i := i) ?_
      rw [key, hp]
      rfl
    have := hall _ hmem
    simp only [Processor.HasUnits, Processor.removeComputingUnits] at this
    omega
  · intro hall q hq
    obtain ⟨i, hi⟩ := List.getElem?_of_mem hq
    rw [key] at hi
    obtain ⟨p, hp, rfl⟩ := Option.map_eq_some_iff.mp hi
    have := hall i p hp
    simp only [Processor.HasUnits, Processor.removeComputingUnits]
    omega

section
variable [JavaFloat φ] [FloatProduct φ]

/-- The operation adds no processor without units and leaves none without: a
reduction takes less from each processor than it has. What is changed elsewhere
moves no units. -/
def KeepsUnits (d : MethodResourceDescription φ) : Operation φ → Prop
  | .addProcessor p => p.HasUnits
  | .setProcessors processors => ∀ p ∈ processors, p.HasUnits
  | .copy => True
  | .mergeMultiConstraints mr2 =>
    (∀ p ∈ addedBy newType mergeInto d.processors mr2.processors, p.HasUnits) ∧
      ∀ p ∈ mr2.processors.foldl mergeInto d.processors, p.HasUnits
  | .multiply amount => ∀ p ∈ d.processors, (p.multiply amount).HasUnits
  | .increaseDynamic mr2 =>
    (∀ p ∈ addedBy unmatched give d.processors mr2.processors, p.HasUnits) ∧
      ∀ p ∈ mr2.processors.foldl give d.processors, p.HasUnits
  | .reduceDynamic mr2 => ∀ i p, d.processors[i]? = some p → demand d.processors mr2.processors i < p.computingUnits
  | .changedElsewhere processors =>
    (∀ type, units type processors = units type d.processors) ∧ ∀ p ∈ processors, p.HasUnits

open MethodResourceDescription

variable {d d' : MethodResourceDescription φ}

/-- A step from exact totals leaves exact totals exactly when it keeps units in
every processor. -/
theorem operate_totalsExact (h : TotalsExact d) {op : Operation φ} (hop : operate d op = some d') :
    TotalsExact d' ↔ KeepsUnits d op := by
  have hunits := (totalsExact_iff.mp h).2
  cases op with
  | addProcessor p =>
    cases hop
    rw [totalsExact_of_added h fun _ => drift_addProcessor, addProcessor_processors]
    simp only [List.mem_singleton, List.mem_append, KeepsUnits]
    exact ⟨fun hp => hp.1 p rfl, fun hp => ⟨fun q hq => hq ▸ hp, fun q hq => hq.elim (hunits q) fun hq => hq ▸ hp⟩⟩
  | setProcessors processors =>
    cases hop
    have hps : (d.setProcessors processors).processors = processors := foldl_updateCounters_processors
    rw [totalsExact_of_counted fun _ => by rw [drift_setProcessors, hps], hps]
    exact Iff.rfl
  | copy =>
    cases hop
    rw [totalsExact_of_counted fun _ => by rw [drift_copy, copy_processors], copy_processors]
    exact iff_of_true hunits trivial
  | mergeMultiConstraints mr2 =>
    cases hop
    rw [totalsExact_of_added h fun _ => drift_mergeMultiConstraints, mergeMultiConstraints_processors]
    exact Iff.rfl
  | multiply amount =>
    cases hop
    rw [totalsExact_of_counted fun _ => by rw [drift_multiply, multiply_processors], multiply_processors,
      List.forall_mem_map]
    exact Iff.rfl
  | increaseDynamic mr2 =>
    cases hop
    rw [totalsExact_of_added h fun _ => drift_increaseDynamic, increaseDynamic_processors]
    exact Iff.rfl
  | reduceDynamic mr2 =>
    obtain ⟨reduced, hreduced, rfl⟩ := Option.map_eq_some_iff.mp hop
    have hadded : ∀ type, (d.reduceDynamic mr2).1.drift type =
        d.drift type + excess type ([] : List (Processor φ)) := fun type => by
      rw [reduceDynamic_drift, excess_nil, Int.add_zero]
    rw [totalsExact_of_added h hadded, reduceDynamic_processors]
    have hfound : Found d.processors mr2.processors := by
      have := (reduceProcessors_processors mr2.processors d new).2.2
      rw [MethodResourceDescription.reduceDynamic] at hreduced
      split at hreduced
      · cases hreduced
      · next he =>
        rw [he] at this
        exact (this _ rfl).1
    rw [takeAll_hasUnits hfound]
    exact and_iff_right fun p hp => absurd hp List.not_mem_nil
  | changedElsewhere processors =>
    cases hop
    rw [totalsExact_iff]
    refine and_congr_left fun _ => forall_congr' fun type => ?_
    have := (totalsExact_iff.mp h).1 type
    simp only [drift] at this ⊢
    omega

/-- The totals of a description are exact over its whole life, and every copy of
it has the same, exactly when no operation adds a processor without units or
leaves one without. -/
theorem totals_exact_iff (d : MethodResourceDescription φ) (ops : List (Operation φ)) :
    Lib.Always operate TotalsExact d.resetProcessors ops ↔ Lib.Along operate KeepsUnits d.resetProcessors ops := by
  refine Lib.always_iff_along (I := TotalsExact) (fun _ h => h) ?_ ?_ ?_
  · exact fun s op t h hop ht => (operate_totalsExact h ht).mpr hop
  · exact fun s op t h hop ht hexact => hop ((operate_totalsExact h ht).mp hexact)
  · exact ⟨fun _ => rfl, fun _ => rfl⟩

end

instance : FloatProduct Int where
  times x amount := x * amount

/-- All units of a processor are taken, and the description is copied: the copy
counts one unit more than there is. -/
theorem copy_counts_emptied_processor :
    ¬ Lib.Always operate TotalsExact (MethodResourceDescription.new : MethodResourceDescription Int).resetProcessors
      [.addProcessor (WorkerRun.named "host" 4),
       .reduceDynamic (MethodResourceDescription.new.addProcessor (WorkerRun.named "host" 4)), .copy] := by
  intro h
  obtain ⟨-, h⟩ := h
  obtain ⟨-, h⟩ := h _ rfl
  obtain ⟨-, h⟩ := h _ rfl
  have hcopy := h _ rfl
  exact absurd (hcopy.exact .cpu) (by decide)

end Compss.Resources
