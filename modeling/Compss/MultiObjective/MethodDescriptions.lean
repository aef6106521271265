/-
The descriptions of methods that ask for the units of one kind of CPU and for
no memory: their amounts are kept account of.

With memory or with processors of several types they are not. A description
whose memory is not assigned takes none when it is increased, and only CPUs,
GPUs and memory count as something to use.
-/
import Compss.Resources.MethodResourceDescription
import Compss.MultiObjective.Descriptions

namespace Compss.Resources.MethodResourceDescription

variable {φ : Type} [JavaFloat φ]

/-- The loop of `getDynamicCommons`, for one processor that is asked for. -/
def addCommonProcessor (d common : MethodResourceDescription φ) (p : Processor φ) : MethodResourceDescription φ :=
  match d.processors.find? (checkProcessorCompatibility · p) with
  | some pThis =>
    let cus := min pThis.computingUnits p.computingUnits
    if cus > 0 then common.addProcessor (pThis.setComputingUnits cus) else common
  | none => common

def getDynamicCommons (d other : MethodResourceDescription φ) : MethodResourceDescription φ :=
  let common := other.processors.foldl d.addCommonProcessor new
  if checkCompatibility d.memoryType other.memoryType then
    (common.setMemoryType d.memoryType).setMemorySize (JavaFloat.min d.memorySize other.memorySize)
  else common

def isDynamicUseless (d : MethodResourceDescription φ) : Bool :=
  JavaFloat.ge JavaFloat.zero d.memorySize && d.totalCPUComputingUnits < 1 && d.totalGPUComputingUnits < 1

def isDynamicConsuming (d : MethodResourceDescription φ) : Bool :=
  JavaFloat.gt d.memorySize JavaFloat.zero || d.totalCPUComputingUnits > 0 || d.totalGPUComputingUnits > 0

end Compss.Resources.MethodResourceDescription

namespace Compss.MultiObjective

open Resources Resources.MethodResourceDescription

variable {φ : Type} [JavaFloat φ]

instance : ResourceDescription (MethodResourceDescription φ) where
  copy := MethodResourceDescription.copy
  getDynamicCommons := MethodResourceDescription.getDynamicCommons
  reduceDynamic d rd := (d.reduceDynamic rd).1
  increaseDynamic := MethodResourceDescription.increaseDynamic
  isDynamicUseless := MethodResourceDescription.isDynamicUseless
  isDynamicConsuming := MethodResourceDescription.isDynamicConsuming

/-- `UNASSIGNED_FLOAT` is negative. -/
class NegativeUnassigned (φ : Type) [JavaFloat φ] : Prop where
  eq_self : JavaFloat.eq (JavaFloat.unassigned : φ) JavaFloat.unassigned = true
  min_self : JavaFloat.min (JavaFloat.unassigned : φ) JavaFloat.unassigned = JavaFloat.unassigned
  not_pos : JavaFloat.gt (JavaFloat.unassigned : φ) JavaFloat.zero = false
  nonpos : JavaFloat.ge JavaFloat.zero (JavaFloat.unassigned : φ) = true

/-- A CPU of the same kind as `k`, or without saying which. -/
structure SameKind (k p : Processor φ) : Prop where
  type : p.type = "CPU"
  name : p.name = k.name ∨ p.name = unassignedStr
  architecture : p.architecture = k.architecture ∨ p.architecture = unassignedStr
  propName : p.propName = k.propName ∨ p.propName = unassignedStr
  propValue : p.propValue = k.propValue ∨ p.propValue = unassignedStr
  speed : p.speed = JavaFloat.unassigned
  internalMemory : p.internalMemory = JavaFloat.unassigned

/-- One CPU of the kind of `k` with `cus` units, and no memory. -/
structure OneCPU (k : Processor φ) (d : MethodResourceDescription φ) (p : Processor φ) : Prop where
  processors : d.processors = [p]
  kind : SameKind k p
  units : 0 ≤ p.computingUnits
  cpu : d.totalComputingUnits .cpu = p.computingUnits
  gpu : d.totalComputingUnits .gpu = 0
  memorySize : d.memorySize = JavaFloat.unassigned
  memoryType : d.memoryType = unassignedStr

section
variable [NegativeUnassigned φ] {k p q : Processor φ} {d e : MethodResourceDescription φ}

theorem checkCompatibility_of_kind {x y z : String} (hx : x = z ∨ x = unassignedStr) (hy : y = z ∨ y = unassignedStr) :
    checkCompatibility x y = true := by
  rcases hx with rfl | rfl <;> rcases hy with rfl | rfl <;> simp [checkCompatibility]

theorem SameKind.compatible (hp : SameKind k p) (hq : SameKind k q) : checkProcessorCompatibility p q = true := by
  have hfloat : checkInclusionFloat (JavaFloat.unassigned : φ) JavaFloat.unassigned = true := by
    simp [checkInclusionFloat, NegativeUnassigned.eq_self]
  have htype : checkCompatibility p.type q.type = true := by simp [checkCompatibility, hp.type, hq.type]
  simp only [checkProcessorCompatibility, checkCompatibility_of_kind hp.name hq.name,
    checkCompatibility_of_kind hp.architecture hq.architecture, checkCompatibility_of_kind hp.propName hq.propName,
    checkCompatibility_of_kind hp.propValue hq.propValue, hp.speed, hq.speed, hp.internalMemory, hq.internalMemory, hfloat,
    htype, Bool.and_self]

theorem SameKind.setComputingUnits (h : SameKind k p) (cus : Int) : SameKind k (p.setComputingUnits cus) :=
  ⟨h.type, h.name, h.architecture, h.propName, h.propValue, h.speed, h.internalMemory⟩

/-- A description of what is taken from others of the kind, or common with them. -/
structure Asks (k : Processor φ) (e : MethodResourceDescription φ) (qs : List (Processor φ)) : Prop where
  processors : e.processors = qs
  kind : ∀ q ∈ qs, SameKind k q
  memorySize : e.memorySize = JavaFloat.unassigned
  memoryType : e.memoryType = unassignedStr

theorem OneCPU.asks (h : OneCPU k d p) : Asks k d [p] :=
  ⟨h.processors, fun _ hq => List.mem_singleton.mp hq ▸ h.kind, h.memorySize, h.memoryType⟩

theorem checkMemory_of_asks (hsize : d.memorySize = JavaFloat.unassigned) (htype : d.memoryType = unassignedStr)
    {qs : List (Processor φ)} (he : Asks k e qs) : d.checkMemory e = true := by
  simp [checkMemory, checkInclusionFloat, checkCompatibility, hsize, he.memorySize, htype, NegativeUnassigned.eq_self]

/-- Taking nothing. -/
theorem reduce_nil (h : OneCPU k d p) (he : Asks k e []) : (d.reduceDynamic e).1 = d := by
  rw [reduceDynamic, he.processors, reduceProcessors]
  simp only [checkMemory_of_asks h.memorySize h.memoryType he, if_true, he.memorySize, NegativeUnassigned.eq_self, Bool.true_or]

/-- Taking units of the CPU. -/
theorem reduce_one (h : OneCPU k d p) (he : Asks k e [q]) (hle : q.computingUnits ≤ p.computingUnits) :
    OneCPU k (d.reduceDynamic e).1 (p.removeComputingUnits q.computingUnits) := by
  have hcompatible := h.kind.compatible (he.kind q (by simp))
  have hreduced : (d.reduceDynamic e).1 = ({ d with processors := [p.removeComputingUnits q.computingUnits] } :
      MethodResourceDescription φ).decreaseComputingUnits p.type q.computingUnits := by
    have hmemory : checkMemory (({ d with processors := [p.removeComputingUnits q.computingUnits] } :
        MethodResourceDescription φ).decreaseComputingUnits p.type q.computingUnits) e = true := checkMemory_of_asks h.memorySize h.memoryType he
    rw [reduceDynamic, he.processors, reduceProcessors, h.processors]
    simp only [changeFirst, hcompatible, if_true, reduceProcessors, hmemory, he.memorySize, NegativeUnassigned.eq_self,
      Bool.true_or]
  rw [hreduced]
  refine ⟨rfl, ⟨h.kind.type, h.kind.name, h.kind.architecture, h.kind.propName, h.kind.propValue, h.kind.speed,
    h.kind.internalMemory⟩, ?_, ?_, ?_, h.memorySize, h.memoryType⟩
  · show 0 ≤ p.computingUnits - q.computingUnits
    omega
  · have htype : ProcessorType.of p.type = .cpu := by rw [h.kind.type]; rfl
    simp [decreaseComputingUnits, htype, h.cpu, Processor.removeComputingUnits]
  · have htype : ProcessorType.of p.type = .cpu := by rw [h.kind.type]; rfl
    simp [decreaseComputingUnits, htype, h.gpu]

/-- Giving units of the CPU. -/
theorem increase_one (h : OneCPU k d p) (he : OneCPU k e q) :
    OneCPU k (d.increaseDynamic e) (p.addComputingUnits q.computingUnits) := by
  have hcompatible := h.kind.compatible he.kind
  have hincreased : d.increaseDynamic e = ({ d with processors := [p.addComputingUnits q.computingUnits] } :
      MethodResourceDescription φ).increaseComputingUnits p.type q.computingUnits := by
    rw [MethodResourceDescription.increaseDynamic, he.processors, List.foldl_cons, List.foldl_nil, increaseProcessor, h.processors]
    simp only [changeFirst, hcompatible, if_true, increaseComputingUnits, he.memorySize, NegativeUnassigned.eq_self,
      Bool.not_true, Bool.and_false, Bool.false_eq_true, if_false]
  have htype : ProcessorType.of p.type = .cpu := by rw [h.kind.type]; rfl
  have hp := h.units
  have hq := he.units
  rw [hincreased]
  refine ⟨rfl, ⟨h.kind.type, h.kind.name, h.kind.architecture, h.kind.propName, h.kind.propValue, h.kind.speed,
    h.kind.internalMemory⟩, ?_, ?_, ?_, h.memorySize, h.memoryType⟩
  · show 0 ≤ p.computingUnits + q.computingUnits
    omega
  · simp [increaseComputingUnits, htype, h.cpu, Processor.addComputingUnits]
  · simp [increaseComputingUnits, htype, h.gpu]

omit [NegativeUnassigned φ] in
/-- A description with one processor of the kind. -/
theorem oneCPU_new (hp : SameKind k p) (hcus : 0 < p.computingUnits) : OneCPU k (new.addProcessor p) p := by
  have htype : p.countedType = .cpu := by rw [Processor.countedType, hp.type]; rfl
  refine ⟨rfl, hp, Int.le_of_lt hcus, ?_, ?_, rfl, rfl⟩
  · simp [addProcessor, updateCounters, htype, new, hcus]
  · simp [addProcessor, updateCounters, htype, new]

theorem commons_eq (hd : OneCPU k d p) (he : OneCPU k e q) : d.getDynamicCommons e =
    if min p.computingUnits q.computingUnits > 0 then new.addProcessor (p.setComputingUnits (min p.computingUnits q.computingUnits))
    else new := by
  have hcompatible := hd.kind.compatible he.kind
  have hmemory : ∀ x : MethodResourceDescription φ, x.memoryType = unassignedStr →
      (x.setMemoryType d.memoryType).setMemorySize (JavaFloat.min d.memorySize e.memorySize) = x := by
    intro x hx
    have hne : unassignedStr ≠ "" := by decide
    rw [hd.memoryType, hd.memorySize, he.memorySize, NegativeUnassigned.min_self, setMemorySize, NegativeUnassigned.not_pos,
      if_neg (by decide), setMemoryType, if_pos hne, ← hx]
  have hcheck : checkCompatibility d.memoryType e.memoryType = true := by simp [checkCompatibility, hd.memoryType]
  rw [getDynamicCommons, he.processors, List.foldl_cons, List.foldl_nil, addCommonProcessor, hd.processors]
  simp only [List.find?_cons, hcompatible, hcheck, if_true]
  split
  · exact hmemory _ rfl
  · exact hmemory _ rfl

/-- What is common, and can be taken from both. -/
theorem commons_asks (hd : OneCPU k d p) (he : OneCPU k e q) :
    (0 < min p.computingUnits q.computingUnits ∧ OneCPU k (d.getDynamicCommons e)
      (p.setComputingUnits (min p.computingUnits q.computingUnits))) ∨
    (min p.computingUnits q.computingUnits = 0 ∧ d.getDynamicCommons e = new ∧ Asks k (d.getDynamicCommons e) []) := by
  have hp := hd.units
  have hq := he.units
  rw [commons_eq hd he]
  by_cases hpos : min p.computingUnits q.computingUnits > 0
  · rw [if_pos hpos]
    exact .inl ⟨hpos, oneCPU_new (hd.kind.setComputingUnits _) hpos⟩
  · rw [if_neg hpos]
    exact .inr ⟨by omega, rfl, rfl, by simp, rfl, rfl⟩

theorem OneCPU.useless_iff (h : OneCPU k d p) : d.isDynamicUseless = true ↔ p.computingUnits = 0 := by
  have hp := h.units
  simp only [MethodResourceDescription.isDynamicUseless, h.memorySize, NegativeUnassigned.nonpos, totalCPUComputingUnits,
    totalGPUComputingUnits, h.cpu, h.gpu, Bool.true_and, Bool.and_eq_true, decide_eq_true_iff]
  omega

theorem OneCPU.consuming_iff (h : OneCPU k d p) : d.isDynamicConsuming = true ↔ 0 < p.computingUnits := by
  simp only [MethodResourceDescription.isDynamicConsuming, h.memorySize, NegativeUnassigned.not_pos, totalCPUComputingUnits,
    totalGPUComputingUnits, h.cpu, h.gpu, Bool.false_or, Bool.or_eq_true, decide_eq_true_iff]
  omega

theorem new_idle : isDynamicConsuming (new : MethodResourceDescription φ) = false := by
  have hmemory : (new : MethodResourceDescription φ).memorySize = JavaFloat.unassigned := rfl
  rw [MethodResourceDescription.isDynamicConsuming, hmemory, NegativeUnassigned.not_pos]
  rfl

theorem new_useless : isDynamicUseless (new : MethodResourceDescription φ) = true := by
  have hmemory : (new : MethodResourceDescription φ).memorySize = JavaFloat.unassigned := rfl
  rw [MethodResourceDescription.isDynamicUseless, hmemory, NegativeUnassigned.nonpos]
  rfl

omit [NegativeUnassigned φ] in
theorem copy_one (h : OneCPU k d p) (hcus : 0 < p.computingUnits) : OneCPU k d.copy p := by
  have htype : p.countedType = .cpu := by rw [Processor.countedType, h.kind.type]; rfl
  refine ⟨?_, h.kind, h.units, ?_, ?_, ?_, ?_⟩ <;> rw [MethodResourceDescription.copy, h.processors, List.foldl_cons, List.foldl_nil]
  · rfl
  · simp [addProcessor, updateCounters, initProcessorCounters, htype, hcus]
  · simp [addProcessor, updateCounters, initProcessorCounters, htype]
  · exact h.memorySize
  · exact h.memoryType

end

/-- The units of the CPUs of one kind. -/
def cpuAccounting [NegativeUnassigned φ] (k : Processor φ) : Accounting (MethodResourceDescription φ) Unit where
  amount d _ := d.totalComputingUnits .cpu
  Valid d := ∃ p, OneCPU k d p
  Whole d := ∃ p, OneCPU k d p ∧ 0 < p.computingUnits
  valid_of_whole := fun ⟨p, h, _⟩ => ⟨p, h⟩
  amount_nonneg := fun ⟨p, h⟩ _ => by rw [h.cpu]; exact h.units
  whole_copy := fun ⟨p, h, hcus⟩ => ⟨p, copy_one h hcus, hcus⟩
  amount_copy := fun ⟨p, h, hcus⟩ _ => (copy_one h hcus).cpu.trans h.cpu.symm
  amount_commons := by
    rintro x y ⟨p, hx⟩ ⟨q, hy⟩ _
    show (x.getDynamicCommons y).totalComputingUnits .cpu = min (x.totalComputingUnits .cpu) (y.totalComputingUnits .cpu)
    rw [hx.cpu, hy.cpu]
    rcases commons_asks hx hy with ⟨hpos, h⟩ | ⟨hzero, heq, -⟩
    · exact h.cpu
    · rw [heq, hzero]
      rfl
  whole_commons := by
    rintro x y ⟨p, hx⟩ ⟨q, hy⟩ hcons
    rcases commons_asks hx hy with ⟨hpos, h⟩ | ⟨hzero, heq, -⟩
    · exact ⟨_, h, hpos⟩
    · change (x.getDynamicCommons y).isDynamicConsuming = true at hcons
      rw [heq, new_idle] at hcons
      cases hcons
  commons_idle := by
    rintro x y ⟨p, hx⟩ ⟨q, hy⟩ hidle _
    change (x.getDynamicCommons y).isDynamicConsuming = false at hidle
    show (x.getDynamicCommons y).totalComputingUnits .cpu = 0
    rcases commons_asks hx hy with ⟨hpos, h⟩ | ⟨hzero, heq, -⟩
    · rw [h.consuming_iff.mpr hpos] at hidle
      cases hidle
    · rw [heq]
      rfl
  commons_useless := by
    rintro x y ⟨p, hx⟩ ⟨q, hy⟩
    show (x.getDynamicCommons y).isDynamicUseless = !(x.getDynamicCommons y).isDynamicConsuming
    rcases commons_asks hx hy with ⟨hpos, h⟩ | ⟨hzero, heq, -⟩
    · rw [h.consuming_iff.mpr hpos, Bool.not_true, ← Bool.not_eq_true, h.useless_iff]
      exact hpos.ne'
    · rw [heq, new_idle, new_useless]
      rfl
  reduce_left := by
    rintro x y ⟨p, hx⟩ ⟨q, hy⟩
    show (∃ p', OneCPU k (x.reduceDynamic (x.getDynamicCommons y)).1 p') ∧ ∀ _ : Unit,
      (x.reduceDynamic (x.getDynamicCommons y)).1.totalComputingUnits .cpu =
        x.totalComputingUnits .cpu - (x.getDynamicCommons y).totalComputingUnits .cpu
    rcases commons_asks hx hy with ⟨hpos, h⟩ | ⟨hzero, heq, hasks⟩
    · have hleft := reduce_one hx h.asks (min_le_left _ _)
      exact ⟨⟨_, hleft⟩, fun _ => by rw [hleft.cpu, hx.cpu, h.cpu]; rfl⟩
    · rw [reduce_nil hx hasks]
      exact ⟨⟨p, hx⟩, fun _ => by rw [heq]; exact (Int.sub_zero _).symm⟩
  reduce_right := by
    rintro x y ⟨p, hx⟩ ⟨q, hy⟩
    show (∃ p', OneCPU k (y.reduceDynamic (x.getDynamicCommons y)).1 p') ∧ ∀ _ : Unit,
      (y.reduceDynamic (x.getDynamicCommons y)).1.totalComputingUnits .cpu =
        y.totalComputingUnits .cpu - (x.getDynamicCommons y).totalComputingUnits .cpu
    rcases commons_asks hx hy with ⟨hpos, h⟩ | ⟨hzero, heq, hasks⟩
    · have hright := reduce_one hy h.asks (min_le_right _ _)
      exact ⟨⟨_, hright⟩, fun _ => by rw [hright.cpu, hy.cpu, h.cpu]; rfl⟩
    · rw [reduce_nil hy hasks]
      exact ⟨⟨q, hy⟩, fun _ => by rw [heq]; exact (Int.sub_zero _).symm⟩
  reduce := by
    rintro x y ⟨p, hx⟩ ⟨q, hy, -⟩ hle
    have hunits : q.computingUnits ≤ p.computingUnits := by
      have := hle ()
      rwa [hx.cpu, hy.cpu] at this
    have hreduced := reduce_one hx hy.asks hunits
    refine ⟨⟨_, hreduced⟩, fun _ => ?_⟩
    show (x.reduceDynamic y).1.totalComputingUnits .cpu = _
    rw [hreduced.cpu, hx.cpu, hy.cpu]
    rfl
  increase := by
    rintro x y ⟨p, hx⟩ ⟨q, hy⟩
    have hincreased := increase_one hx hy
    refine ⟨⟨_, hincreased⟩, fun _ => ?_⟩
    show (x.increaseDynamic y).totalComputingUnits .cpu = _
    rw [hincreased.cpu, hx.cpu, hy.cpu]
    rfl
  useless_iff := by
    rintro x ⟨p, hx⟩
    show x.isDynamicUseless = true ↔ ∀ _ : Unit, x.totalComputingUnits .cpu = 0
    rw [hx.useless_iff, hx.cpu]
    exact ⟨fun h _ => h, fun h => h ()⟩

end Compss.MultiObjective
