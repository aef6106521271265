/-
`MethodResourceDescription`: what a worker offers and what a task asks for,
and how the one is checked against, taken from and given back to the other.

A description lists processors and keeps, for each of the four types the code
tells apart, the total of their computing units. A processor that asks is
matched with the first compatible one, whatever its units: this is where a
reservation is taken from and where a release goes. Floats are a parameter of
which only the operations the code uses are known.
-/
import Mathlib

namespace Compss.Resources

/-- Java's `float`. -/
class JavaFloat (φ : Type) where
  ge : φ → φ → Bool
  gt : φ → φ → Bool
  eq : φ → φ → Bool
  add : φ → φ → φ
  sub : φ → φ → φ
  max : φ → φ → φ
  min : φ → φ → φ
  zero : φ
  /-- `UNASSIGNED_FLOAT`. -/
  unassigned : φ

/-- What the floats of a description, which are numbers, keep to. -/
class LawfulJavaFloat (φ : Type) [JavaFloat φ] : Prop where
  ge_self : ∀ x : φ, JavaFloat.ge x x = true
  ge_of_gt : ∀ x y : φ, JavaFloat.gt x y = true → JavaFloat.ge x y = true
  sub_nonneg : ∀ x y : φ, JavaFloat.ge x y = true → JavaFloat.ge (JavaFloat.sub x y) JavaFloat.zero = true
  add_nonneg : ∀ x y : φ, JavaFloat.ge x JavaFloat.zero = true → JavaFloat.ge y JavaFloat.zero = true →
    JavaFloat.ge (JavaFloat.add x y) JavaFloat.zero = true
  eq_unassigned : JavaFloat.eq (JavaFloat.unassigned : φ) JavaFloat.unassigned = true

/-- The floats are numbers, in their order. -/
class LinearJavaFloat (φ : Type) [LinearOrder φ] [JavaFloat φ] : Prop where
  gt_iff : ∀ x y : φ, JavaFloat.gt x y = true ↔ y < x
  ge_iff : ∀ x y : φ, JavaFloat.ge x y = true ↔ y ≤ x
  eq_iff : ∀ x y : φ, JavaFloat.eq x y = true ↔ x = y
  min_eq : ∀ x y : φ, JavaFloat.min x y = min x y
  max_eq : ∀ x y : φ, JavaFloat.max x y = max x y
  sub_self : ∀ x : φ, JavaFloat.sub x x = JavaFloat.zero
  sub_pos : ∀ x y : φ, y < x → JavaFloat.zero < JavaFloat.sub x y
  le_add : ∀ x y : φ, JavaFloat.zero ≤ x → JavaFloat.zero ≤ y → y ≤ JavaFloat.add x y
  unassigned_neg : (JavaFloat.unassigned : φ) < JavaFloat.zero

instance {φ : Type} [LinearOrder φ] [JavaFloat φ] [LinearJavaFloat φ] : LawfulJavaFloat φ where
  ge_self x := (LinearJavaFloat.ge_iff x x).mpr le_rfl
  ge_of_gt x y h := (LinearJavaFloat.ge_iff x y).mpr ((LinearJavaFloat.gt_iff x y).mp h).le
  sub_nonneg x y h := by
    rw [LinearJavaFloat.ge_iff] at h ⊢
    rcases h.lt_or_eq with h | rfl
    · exact (LinearJavaFloat.sub_pos x y h).le
    · exact (LinearJavaFloat.sub_self y).ge
  add_nonneg x y hx hy := by
    rw [LinearJavaFloat.ge_iff] at hx hy ⊢
    exact hy.trans (LinearJavaFloat.le_add x y hx hy)
  eq_unassigned := (LinearJavaFloat.eq_iff _ _).mpr rfl

/-- `UNASSIGNED_STR`. -/
def unassignedStr : String := "[unassigned]"

/-- `UNASSIGNED_INT`. -/
def unassignedInt : Int := -1

/-! ## Processors -/

/-- The types of processors that are counted apart. -/
inductive ProcessorType
  | cpu
  | gpu
  | fpga
  | other
  deriving DecidableEq, Repr

/-- Any other name is of the last type. -/
def ProcessorType.of (type : String) : ProcessorType :=
  if type = "CPU" then .cpu else if type = "GPU" then .gpu else if type = "FPGA" then .fpga else .other

structure Processor (φ : Type) where
  name : String
  computingUnits : Int
  speed : φ
  architecture : String
  type : String
  internalMemory : φ
  propName : String
  propValue : String

namespace Processor

variable {φ : Type}

/-- `new Processor()`. -/
def new [JavaFloat φ] : Processor φ where
  name := unassignedStr
  computingUnits := 0
  speed := JavaFloat.unassigned
  architecture := unassignedStr
  type := "CPU"
  internalMemory := JavaFloat.unassigned
  propName := unassignedStr
  propValue := unassignedStr

def setComputingUnits (p : Processor φ) (cu : Int) : Processor φ := { p with computingUnits := cu }

def addComputingUnits (p : Processor φ) (cu : Int) : Processor φ := { p with computingUnits := p.computingUnits + cu }

def removeComputingUnits (p : Processor φ) (cu : Int) : Processor φ :=
  { p with computingUnits := p.computingUnits - cu }

/-- The type its units are counted under. -/
def countedType (p : Processor φ) : ProcessorType := .of p.type

end Processor

/-! ## Descriptions -/

structure MethodResourceDescription (φ : Type) where
  processors : List (Processor φ)
  /-- `totalCPUComputingUnits` and the like. -/
  totalComputingUnits : ProcessorType → Int
  /-- `totalCPUs` and the like. -/
  totalProcessors : ProcessorType → Int
  memorySize : φ
  memoryType : String
  storageSize : φ
  storageType : String
  operatingSystemType : String
  operatingSystemDistribution : String
  operatingSystemVersion : String
  appSoftware : List String
  hostQueues : List String
  priceTimeUnit : Int
  pricePerUnit : φ
  wallClockLimit : Int
  value : φ

/-! ## Checks -/

section
variable {φ : Type} [JavaFloat φ]

def checkCompatibility (value1 value2 : String) : Bool :=
  value1 = value2 || value1 = unassignedStr || value2 = unassignedStr

/-- An amount of computing units that is not assigned runs nothing. -/
def checkInclusion (value1 value2 : Int) : Bool := value1 ≥ value2 || value2 = unassignedInt

def checkInclusionFloat (value1 value2 : φ) : Bool :=
  JavaFloat.ge value1 value2 || JavaFloat.eq value1 JavaFloat.unassigned || JavaFloat.eq value2 JavaFloat.unassigned

def checkProcessorCompatibility (pThis pRc2 : Processor φ) : Bool :=
  checkCompatibility pThis.name pRc2.name && checkCompatibility pThis.architecture pRc2.architecture &&
    checkInclusionFloat pThis.speed pRc2.speed && checkCompatibility pThis.type pRc2.type &&
    checkInclusionFloat pThis.internalMemory pRc2.internalMemory &&
    checkCompatibility pThis.propName pRc2.propName && checkCompatibility pThis.propValue pRc2.propValue

def checkProcessorContains (pThis pRc2 : Processor φ) : Bool :=
  checkProcessorCompatibility pThis pRc2 && checkInclusion pThis.computingUnits pRc2.computingUnits

/-- The loop over the own processors of `increaseDynamic` and `reduceDynamic`:
the first compatible processor, and the list with `change` made to it. -/
def changeFirst (p : Processor φ) (change : Processor φ → Processor φ) :
    List (Processor φ) → Option (Processor φ × List (Processor φ))
  | [] => none
  | pThis :: processors =>
    if checkProcessorCompatibility pThis p then some (pThis, change pThis :: processors)
    else (changeFirst p change processors).map fun found => (found.1, pThis :: found.2)

end

namespace MethodResourceDescription

variable {φ : Type}

section
variable [JavaFloat φ]

/-- `new MethodResourceDescription()`. -/
def new : MethodResourceDescription φ where
  processors := []
  totalComputingUnits _ := 0
  totalProcessors _ := 0
  memorySize := JavaFloat.unassigned
  memoryType := unassignedStr
  storageSize := JavaFloat.unassigned
  storageType := unassignedStr
  operatingSystemType := unassignedStr
  operatingSystemDistribution := unassignedStr
  operatingSystemVersion := unassignedStr
  appSoftware := []
  hostQueues := []
  priceTimeUnit := unassignedInt
  pricePerUnit := JavaFloat.unassigned
  wallClockLimit := unassignedInt
  value := JavaFloat.zero

end

/-- `updateCounters`: a processor without units counts as one unit. -/
def updateCounters (d : MethodResourceDescription φ) (p : Processor φ) : MethodResourceDescription φ :=
  let type := p.countedType
  { d with
    totalComputingUnits := Function.update d.totalComputingUnits type
      (d.totalComputingUnits type + if p.computingUnits > 0 then p.computingUnits else 1)
    totalProcessors := Function.update d.totalProcessors type (d.totalProcessors type + 1) }

def addProcessor (d : MethodResourceDescription φ) (p : Processor φ) : MethodResourceDescription φ :=
  updateCounters { d with processors := d.processors ++ [p] } p

def initProcessorCounters (d : MethodResourceDescription φ) : MethodResourceDescription φ :=
  { d with totalComputingUnits := fun _ => 0, totalProcessors := fun _ => 0 }

/-- The copy constructor: the processors are added one by one. -/
def copy (d : MethodResourceDescription φ) : MethodResourceDescription φ :=
  d.processors.foldl addProcessor (initProcessorCounters { d with processors := [] })

def totalCPUComputingUnits (d : MethodResourceDescription φ) : Int := d.totalComputingUnits .cpu
def totalGPUComputingUnits (d : MethodResourceDescription φ) : Int := d.totalComputingUnits .gpu
def totalFPGAComputingUnits (d : MethodResourceDescription φ) : Int := d.totalComputingUnits .fpga
def totalOTHERComputingUnits (d : MethodResourceDescription φ) : Int := d.totalComputingUnits .other

/-- `containsCPU` and the like. -/
def containsType (d : MethodResourceDescription φ) (type : ProcessorType) : Bool := d.totalComputingUnits type > 0

def containsCPU (d : MethodResourceDescription φ) : Bool := d.containsType .cpu
def containsGPU (d : MethodResourceDescription φ) : Bool := d.containsType .gpu
def containsFPGA (d : MethodResourceDescription φ) : Bool := d.containsType .fpga
def containsOthers (d : MethodResourceDescription φ) : Bool := d.containsType .other

/-- The total of the type's units grows. -/
def increaseComputingUnits (d : MethodResourceDescription φ) (type : String) (cus : Int) :
    MethodResourceDescription φ :=
  { d with totalComputingUnits :=
      Function.update d.totalComputingUnits (.of type) (d.totalComputingUnits (.of type) + cus) }

def decreaseComputingUnits (d : MethodResourceDescription φ) (type : String) (cus : Int) :
    MethodResourceDescription φ :=
  { d with totalComputingUnits :=
      Function.update d.totalComputingUnits (.of type) (d.totalComputingUnits (.of type) - cus) }

section
variable [JavaFloat φ]

def setMemorySize (d : MethodResourceDescription φ) (memorySize : φ) : MethodResourceDescription φ :=
  if JavaFloat.gt memorySize JavaFloat.zero then { d with memorySize := memorySize } else d

def setMemoryType (d : MethodResourceDescription φ) (memoryType : String) : MethodResourceDescription φ :=
  if memoryType ≠ "" then { d with memoryType := memoryType } else d

def checkProcessor (d : MethodResourceDescription φ) (p : Processor φ) : Bool :=
  d.processors.any fun pThis => checkProcessorContains pThis p

def checkProcessors (d rc2 : MethodResourceDescription φ) : Bool := rc2.processors.all d.checkProcessor

def checkMemory (d rc2 : MethodResourceDescription φ) : Bool :=
  checkInclusionFloat d.memorySize rc2.memorySize && checkCompatibility d.memoryType rc2.memoryType

def containsDynamic (d rc2 : MethodResourceDescription φ) : Bool := d.checkProcessors rc2 && d.checkMemory rc2

/-! ## Giving -/

/-- One processor of `increaseDynamic`. -/
def increaseProcessor (d : MethodResourceDescription φ) (p : Processor φ) : MethodResourceDescription φ :=
  match changeFirst p (·.addComputingUnits p.computingUnits) d.processors with
  | some (pThis, processors) =>
    { d with processors := processors }.increaseComputingUnits pThis.type p.computingUnits
  | none => d.addProcessor p

def increaseDynamic (d mrd2 : MethodResourceDescription φ) : MethodResourceDescription φ :=
  let d := mrd2.processors.foldl increaseProcessor d
  if !JavaFloat.eq d.memorySize JavaFloat.unassigned && !JavaFloat.eq mrd2.memorySize JavaFloat.unassigned then
    { d with memorySize := JavaFloat.add d.memorySize mrd2.memorySize }
  else d

/-- A value that is not assigned is taken from the other description, unless it
is empty there. -/
def assignString (value1 value2 : String) : String :=
  if value1 = unassignedStr ∧ value2 ≠ "" then value2 else value1

/-- `increase`; the version of the operating system is taken when the memory
has a type. -/
def increase (d mrd2 : MethodResourceDescription φ) : MethodResourceDescription φ :=
  let d := d.increaseDynamic mrd2
  { d with
    storageSize := JavaFloat.max d.storageSize mrd2.storageSize
    storageType := assignString d.storageType mrd2.storageType
    operatingSystemType := assignString d.operatingSystemType mrd2.operatingSystemType
    operatingSystemDistribution := assignString d.operatingSystemDistribution mrd2.operatingSystemDistribution
    operatingSystemVersion :=
      if d.operatingSystemVersion = unassignedStr ∧ mrd2.memoryType ≠ "" then mrd2.operatingSystemVersion
      else d.operatingSystemVersion
    appSoftware := mrd2.appSoftware.foldl (fun apps app => if app ∈ apps then apps else apps ++ [app]) d.appSoftware
    hostQueues := mrd2.hostQueues.foldl (fun queues q => if q ∈ queues then queues else queues ++ [q]) d.hostQueues
    pricePerUnit :=
      if JavaFloat.eq d.pricePerUnit JavaFloat.unassigned && JavaFloat.gt mrd2.pricePerUnit JavaFloat.zero then
        mrd2.pricePerUnit
      else d.pricePerUnit
    priceTimeUnit :=
      if d.priceTimeUnit = unassignedInt ∧ 0 < mrd2.priceTimeUnit then mrd2.priceTimeUnit else d.priceTimeUnit
    wallClockLimit := max d.wallClockLimit mrd2.wallClockLimit
    value := JavaFloat.max d.value mrd2.value }

/-! ## Taking -/

/-- The loop over the processors of `reduceDynamic`: what is left, and what has
been taken, unless a processor is not found. -/
def reduceProcessors (d reduced : MethodResourceDescription φ) :
    List (Processor φ) → MethodResourceDescription φ × Option (MethodResourceDescription φ)
  | [] => (d, some reduced)
  | p :: ps =>
    match changeFirst p (·.removeComputingUnits p.computingUnits) d.processors with
    | some (pThis, processors) =>
      reduceProcessors ({ d with processors := processors }.decreaseComputingUnits pThis.type p.computingUnits)
        (reduced.addProcessor (pThis.setComputingUnits p.computingUnits)) ps
    | none => (d, none)

/-- What is left, and the answer; when it is null, what had been taken until
then is not given back. -/
def reduceDynamic (d mrd2 : MethodResourceDescription φ) :
    MethodResourceDescription φ × Option (MethodResourceDescription φ) :=
  match reduceProcessors d new mrd2.processors with
  | (d, none) => (d, none)
  | (d, some reduced) =>
    if d.checkMemory mrd2 then
      let reduced := reduced.setMemoryType d.memoryType
      if JavaFloat.eq mrd2.memorySize JavaFloat.unassigned || JavaFloat.eq d.memorySize JavaFloat.unassigned then
        (d, some (reduced.setMemorySize JavaFloat.unassigned))
      else
        ({ d with memorySize := JavaFloat.sub d.memorySize mrd2.memorySize },
          some (reduced.setMemorySize mrd2.memorySize))
    else (d, none)

/-- `reduce`, whatever `reduceDynamic` answers. -/
def reduce (d mrd2 : MethodResourceDescription φ) : MethodResourceDescription φ :=
  let d := (d.reduceDynamic mrd2).1
  { d with
    storageSize := JavaFloat.min d.storageSize mrd2.storageSize
    storageType := assignString d.storageType mrd2.storageType
    operatingSystemType := assignString d.operatingSystemType mrd2.operatingSystemType
    operatingSystemDistribution := assignString d.operatingSystemDistribution mrd2.operatingSystemDistribution
    operatingSystemVersion :=
      if d.operatingSystemVersion = unassignedStr ∧ mrd2.memoryType ≠ "" then mrd2.operatingSystemVersion
      else d.operatingSystemVersion
    appSoftware := mrd2.appSoftware.foldl List.erase d.appSoftware
    hostQueues := mrd2.hostQueues.foldl List.erase d.hostQueues
    pricePerUnit :=
      if JavaFloat.gt mrd2.pricePerUnit JavaFloat.zero &&
          (JavaFloat.eq d.pricePerUnit JavaFloat.unassigned || JavaFloat.gt d.pricePerUnit mrd2.pricePerUnit) then
        mrd2.pricePerUnit
      else d.pricePerUnit
    priceTimeUnit :=
      if 0 < mrd2.priceTimeUnit ∧ (d.priceTimeUnit = unassignedInt ∨ mrd2.priceTimeUnit < d.priceTimeUnit) then
        mrd2.priceTimeUnit
      else d.priceTimeUnit
    wallClockLimit := min d.wallClockLimit mrd2.wallClockLimit
    value := JavaFloat.min d.value mrd2.value }

end

end MethodResourceDescription

end Compss.Resources
