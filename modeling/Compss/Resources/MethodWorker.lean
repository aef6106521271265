/-
`MethodWorker`: a worker whose resources tasks take and give back, and its
reset (`releaseAllResources`).

A reset takes what is available from itself and gives the whole description.
Taking goes by the first compatible processor, so that a processor that is not
the first compatible one with itself keeps its units and another pays for them.
The numbers of running tasks it leaves to the method of the superclass, which
does nothing.
-/
import Compss.Resources.Availability

namespace Compss.Resources

variable {φ : Type}

structure MethodWorker (φ : Type) where
  description : MethodResourceDescription φ
  available : MethodResourceDescription φ
  /-- `usedCPUTaskCount` and the like. -/
  usedTaskCount : ProcessorType → Int
  /-- `maxCPUTaskCount` and the like. -/
  maxTaskCount : ProcessorType → Int

namespace MethodWorker

section
variable [JavaFloat φ]

def new (description : MethodResourceDescription φ) (maxTaskCount : ProcessorType → Int) : MethodWorker φ where
  description := description
  available := description.copy
  usedTaskCount _ := 0
  maxTaskCount := maxTaskCount

def hasAvailable (w : MethodWorker φ) (consumption : MethodResourceDescription φ) : Bool :=
  w.available.containsDynamic consumption

def canRunNow (w : MethodWorker φ) (consumption : MethodResourceDescription φ) : Bool :=
  let canRun := w.hasAvailable consumption
  let freeSlot := fun type => w.usedTaskCount type < w.maxTaskCount type
  let canRun := canRun && freeSlot .cpu || !consumption.containsCPU
  let canRun := canRun && (freeSlot .gpu || !consumption.containsGPU)
  let canRun := canRun && (freeSlot .fpga || !consumption.containsFPGA)
  let canRun := canRun && (freeSlot .other || !consumption.containsOthers)
  canRun && w.hasAvailable consumption

def reserveResource (w : MethodWorker φ) (consumption : MethodResourceDescription φ) :
    MethodWorker φ × Option (MethodResourceDescription φ) :=
  if w.hasAvailable consumption then
    let (available, reserved) := w.available.reduceDynamic consumption
    ({ w with available := available }, reserved)
  else (w, none)

def releaseResource (w : MethodWorker φ) (consumption : MethodResourceDescription φ) : MethodWorker φ :=
  { w with available := w.available.increaseDynamic consumption }

/-- `increaseUsedCPUTaskCount` and the like, for the types the task has. -/
def increaseUsedTaskCounts (w : MethodWorker φ) (consumption : MethodResourceDescription φ) : MethodWorker φ :=
  { w with usedTaskCount := fun type =>
      if consumption.containsType type then w.usedTaskCount type + 1 else w.usedTaskCount type }

def decreaseUsedTaskCounts (w : MethodWorker φ) (consumption : MethodResourceDescription φ) : MethodWorker φ :=
  { w with usedTaskCount := fun type =>
      if consumption.containsType type then w.usedTaskCount type - 1 else w.usedTaskCount type }

def runTask (w : MethodWorker φ) (consumption : MethodResourceDescription φ) :
    MethodWorker φ × Option (MethodResourceDescription φ) :=
  match w.reserveResource consumption with
  | (w, some reserved) => (w.increaseUsedTaskCounts consumption, some reserved)
  | (w, none) => (w, none)

def endTask (w : MethodWorker φ) (consumption : MethodResourceDescription φ) : MethodWorker φ :=
  (w.decreaseUsedTaskCounts consumption).releaseResource consumption

/-- `resetUsedTaskCounts` of the superclass. -/
def superResetUsedTaskCounts (w : MethodWorker φ) : MethodWorker φ := w

def resetUsedTaskCounts (w : MethodWorker φ) : MethodWorker φ :=
  { w.superResetUsedTaskCounts with usedTaskCount := fun _ => 0 }

/-- The description is taken from itself: no processor changes before its own
turn, as the first compatible one is not behind it. -/
def releaseAllResources (w : MethodWorker φ) : MethodWorker φ :=
  let w := w.superResetUsedTaskCounts
  { w with available := ((w.available.reduceDynamic w.available).1).increaseDynamic w.description }

end

end MethodWorker

/-! ## Runs -/

/-- The worker, and the reservations of the tasks that run on it. -/
structure MethodWorkerRun (φ : Type) where
  worker : MethodWorker φ
  running : List (MethodResourceDescription φ)

inductive TaskStep (φ : Type)
  | runTask (requirements : MethodResourceDescription φ)
  /-- The task of the reservation at an index ends. -/
  | endTask (i : Nat)

namespace MethodWorkerRun

variable [JavaFloat φ]

def initial (description : MethodResourceDescription φ) (maxTaskCount : ProcessorType → Int) : MethodWorkerRun φ :=
  ⟨.new description maxTaskCount, []⟩

/-- A `runTask` that reserves nothing is no step. -/
def step (c : MethodWorkerRun φ) : TaskStep φ → Option (MethodWorkerRun φ)
  | .runTask requirements =>
    match c.worker.runTask requirements with
    | (worker, some reserved) => some ⟨worker, c.running ++ [reserved]⟩
    | (_, none) => none
  | .endTask i => c.running[i]?.map fun reserved => ⟨c.worker.endTask reserved, c.running.eraseIdx i⟩

/-- What the available description keeps of the worker's: all but the units and
the memory that is taken, and the totals that go with the units. -/
structure Kept (description : MethodResourceDescription φ) (maxTaskCount : ProcessorType → Int)
    (c : MethodWorkerRun φ) : Prop where
  sameDescription : c.worker.description = description
  sameMaximum : c.worker.maxTaskCount = maxTaskCount
  shape : c.worker.available.processors.map Processor.shape = description.processors.map Processor.shape
  drift : ∀ type, c.worker.available.drift type = description.copy.drift type
  memoryType : c.worker.available.memoryType = description.memoryType
  assigned : JavaFloat.eq c.worker.available.memorySize JavaFloat.unassigned =
    JavaFloat.eq description.memorySize JavaFloat.unassigned
  unassigned : JavaFloat.eq description.memorySize JavaFloat.unassigned = true →
    c.worker.available.memorySize = description.memorySize
  memory : MethodResourceDescription.SaneMemory c.worker.available.memorySize
  running : ∀ r ∈ c.running, Found c.worker.available.processors r.processors ∧
    MethodResourceDescription.SaneMemory r.memorySize

end MethodWorkerRun

namespace MethodResourceDescription

theorem foldl_addProcessor_memoryType (ps : List (Processor φ)) (d : MethodResourceDescription φ) :
    (ps.foldl addProcessor d).memoryType = d.memoryType := by
  induction ps generalizing d with
  | nil => rfl
  | cons p ps ih => exact ih _

theorem copy_memoryType (d : MethodResourceDescription φ) : d.copy.memoryType = d.memoryType :=
  foldl_addProcessor_memoryType _ _

section
variable [JavaFloat φ] {d mrd2 : MethodResourceDescription φ}

theorem found_self [LawfulJavaFloat φ] (ps : List (Processor φ)) : Found ps ps := fun p hp =>
  List.find?_isSome.mpr ⟨p, hp, compatible_self p⟩

/-- A description that is given to processors that are found keeps the rest. -/
theorem increaseDynamic_memoryType (hfound : Found d.processors mrd2.processors) :
    (d.increaseDynamic mrd2).memoryType = d.memoryType := by
  obtain ⟨processors, totals, he⟩ := foldl_increaseProcessor_rest mrd2.processors d hfound
  rw [increaseDynamic, he]
  split <;> rfl

theorem giveAll_shape {ps given : List (Processor φ)} (hfound : Found ps given) :
    (given.foldl give ps).map Processor.shape = ps.map Processor.shape := by
  refine List.ext_getElem? fun i => ?_
  rw [List.getElem?_map, giveAll_getElem? given ps i hfound, List.getElem?_map, Option.map_map]
  rfl

end

end MethodResourceDescription

namespace MethodWorkerRun

open MethodResourceDescription

section
variable [JavaFloat φ] [LawfulJavaFloat φ] {description : MethodResourceDescription φ}
  {maxTaskCount : ProcessorType → Int} {c c' : MethodWorkerRun φ}

omit [LawfulJavaFloat φ] in
theorem kept_initial (hsane : SaneMemory description.memorySize) : Kept description maxTaskCount (initial description maxTaskCount) where
  sameDescription := rfl
  sameMaximum := rfl
  shape := congrArg (List.map Processor.shape) (copy_processors description)
  drift _ := rfl
  memoryType := copy_memoryType description
  assigned := congrArg (fun m => JavaFloat.eq m JavaFloat.unassigned) (copy_memorySize description)
  unassigned _ := copy_memorySize description
  memory := copy_memorySize description ▸ hsane
  running _ hr := absurd hr List.not_mem_nil

theorem Kept.runTask (h : Kept description maxTaskCount c)
    (hnegative : ∀ x : φ, JavaFloat.ge x JavaFloat.zero = true → JavaFloat.eq x JavaFloat.unassigned = false)
    {requirements : MethodResourceDescription φ} (hstep : c.step (.runTask requirements) = some c') :
    Kept description maxTaskCount c' := by
  by_cases hc : c.worker.available.containsDynamic requirements = true
  · have hfound := containsDynamic_found hc
    have hm := containsDynamic_memory hc
    have hdrift := reduceDynamic_drift c.worker.available requirements
    have hsane := reduceDynamic_memory h.memory requirements
    obtain ⟨totals, r, he, hprocessors, hmemory⟩ := reduceDynamic_accepted hfound hm
    have hr := reduceDynamic_taken (congrArg Prod.snd he)
    simp only [step, MethodWorker.runTask, MethodWorker.reserveResource, MethodWorker.hasAvailable, hc, if_true, he]
      at hstep
    cases hstep
    rw [he] at hdrift hsane
    have hs : (takeAll c.worker.available.processors requirements.processors).map Processor.shape =
        c.worker.available.processors.map Processor.shape := takeAll_shape
    -- what is left is not negative, and hence assigned when it was
    have hassigned : JavaFloat.eq (memoryLeft c.worker.available requirements) JavaFloat.unassigned =
        JavaFloat.eq c.worker.available.memorySize JavaFloat.unassigned := by
      unfold memoryLeft
      split
      · rfl
      · next hboth =>
        simp only [Bool.or_eq_true, not_or, Bool.not_eq_true] at hboth
        simp only [checkMemory, checkInclusionFloat, hboth.1, hboth.2, Bool.or_false, Bool.and_eq_true] at hm
        rw [hnegative _ (LawfulJavaFloat.sub_nonneg _ _ hm.1), hboth.2]
    exact {
      sameDescription := h.sameDescription
      sameMaximum := h.sameMaximum
      shape := hs.trans h.shape
      drift := fun type => (hdrift type).trans (h.drift type)
      memoryType := h.memoryType
      assigned := hassigned.trans h.assigned
      unassigned := fun hun => by
        refine Eq.trans ?_ (h.unassigned hun)
        have : JavaFloat.eq c.worker.available.memorySize JavaFloat.unassigned = true := h.assigned.trans hun
        simp [MethodWorker.increaseUsedTaskCounts, memoryLeft, this]
      memory := hsane
      running := fun q hq => by
        rcases List.mem_append.mp hq with hq | hq
        · exact ⟨(h.running q hq).1.shape hs.symm, (h.running q hq).2⟩
        · rw [List.mem_singleton.mp hq]
          refine ⟨?_, hr.memory⟩
          rw [hprocessors]
          exact (found_taken hfound).shape hs.symm }
  · have hreserve : c.worker.reserveResource requirements = (c.worker, none) := if_neg hc
    rw [step, MethodWorker.runTask, hreserve] at hstep
    cases hstep

theorem Kept.endTask (h : Kept description maxTaskCount c)
    (hnegative : ∀ x : φ, JavaFloat.ge x JavaFloat.zero = true → JavaFloat.eq x JavaFloat.unassigned = false)
    {i : Nat} (hstep : c.step (.endTask i) = some c') : Kept description maxTaskCount c' := by
  obtain ⟨reserved, hi, rfl⟩ := Option.map_eq_some_iff.mp hstep
  obtain ⟨hfound, hsane⟩ := h.running reserved (List.mem_of_getElem? hi)
  have hs := giveAll_shape hfound
  have hprocessors := increaseDynamic_processors c.worker.available reserved
  have hmemorySize := increaseDynamic_memorySize c.worker.available reserved
  have hassigned : JavaFloat.eq (c.worker.available.increaseDynamic reserved).memorySize JavaFloat.unassigned =
      JavaFloat.eq c.worker.available.memorySize JavaFloat.unassigned := by
    rw [hmemorySize]
    split
    · next hboth =>
      simp only [Bool.and_eq_true, Bool.not_eq_true'] at hboth
      have hge : ∀ {m : φ}, SaneMemory m → JavaFloat.eq m JavaFloat.unassigned = false →
          JavaFloat.ge m JavaFloat.zero = true := fun hm hne => by
        rcases hm with hm | hm
        · rw [hne] at hm; cases hm
        · exact hm
      rw [hnegative _ (LawfulJavaFloat.add_nonneg _ _ (hge h.memory hboth.1) (hge hsane hboth.2)), hboth.1]
    · rfl
  exact {
    sameDescription := h.sameDescription
    sameMaximum := h.sameMaximum
    shape := (congrArg (List.map Processor.shape) hprocessors).trans (hs.trans h.shape)
    drift := fun type => (increaseDynamic_drift hfound type).trans (h.drift type)
    memoryType := (increaseDynamic_memoryType hfound).trans h.memoryType
    assigned := hassigned.trans h.assigned
    unassigned := fun hun => by
      refine Eq.trans ?_ (h.unassigned hun)
      have : JavaFloat.eq c.worker.available.memorySize JavaFloat.unassigned = true := h.assigned.trans hun
      refine hmemorySize.trans ?_
      simp [this]
    memory := increaseDynamic_memory h.memory hsane
    running := fun q hq => by
      obtain ⟨hq1, hq2⟩ := h.running q (List.mem_of_mem_eraseIdx hq)
      refine ⟨?_, hq2⟩
      change Found (c.worker.available.increaseDynamic reserved).processors q.processors
      rw [hprocessors]
      exact hq1.shape hs.symm }

theorem Kept.of_run
    (hnegative : ∀ x : φ, JavaFloat.ge x JavaFloat.zero = true → JavaFloat.eq x JavaFloat.unassigned = false)
    (hsane : SaneMemory description.memorySize) {steps : List (TaskStep φ)}
    (hrun : Lib.run step (initial description maxTaskCount) steps = some c) : Kept description maxTaskCount c := by
  refine Lib.run_invariant_of_step (fun s a t hs hstep => ?_) (kept_initial hsane) hrun
  cases a with
  | runTask requirements => exact hs.runTask hnegative hstep
  | endTask i => exact hs.endTask hnegative hstep

/-! ## The reset -/

/-- The worker is as it was before any task ran. -/
structure Idle (description : MethodResourceDescription φ) (maxTaskCount : ProcessorType → Int) (w : MethodWorker φ) :
    Prop where
  processors : w.available.processors = description.processors
  totals : w.available.totalComputingUnits = description.totalComputingUnits
  memory : w.available.memorySize = description.memorySize
  counts : ∀ type, w.usedTaskCount type = 0
  accepts : ∀ consumption, w.canRunNow consumption = (MethodWorker.new description maxTaskCount).canRunNow consumption

/-- As many tasks of each type have ended as have started; no processor's units
have gone to another's account: at each place, what the processor has beyond
all that is matched with it is what the description's has; and the totals of
the description are those of a copy. -/
structure Resettable (w : MethodWorker φ) : Prop where
  counts : ∀ type, w.usedTaskCount type = 0
  units : ∀ i p q, w.available.processors[i]? = some p → w.description.processors[i]? = some q →
    p.computingUnits - demand w.available.processors w.available.processors i =
      q.computingUnits - demand w.description.processors w.description.processors i
  totals : ∀ type, w.description.copy.totalComputingUnits type = w.description.totalComputingUnits type

/-- What each processor has after a reset. -/
theorem Kept.reset_getElem? (h : Kept description maxTaskCount c) (i : Nat) :
    c.worker.releaseAllResources.available.processors[i]? = (c.worker.available.processors[i]?).map fun p =>
      p.setComputingUnits (p.computingUnits - demand c.worker.available.processors c.worker.available.processors i +
        demand description.processors description.processors i) := by
  have hself := found_self c.worker.available.processors
  have hs : (takeAll c.worker.available.processors c.worker.available.processors).map Processor.shape =
      description.processors.map Processor.shape := takeAll_shape.trans h.shape
  have hfound : Found (takeAll c.worker.available.processors c.worker.available.processors) description.processors :=
    (found_self description.processors).shape hs.symm
  have hprocessors : c.worker.releaseAllResources.available.processors = description.processors.foldl give
      (takeAll c.worker.available.processors c.worker.available.processors) := by
    rw [← reduceDynamic_processors, ← h.sameDescription]
    exact increaseDynamic_processors _ _
  rw [hprocessors, giveAll_getElem? _ _ i hfound, demand_shape hs, takeAll_getElem?, served_of_found hself, Option.map_map]
  rfl

/-- A reset brings the processors back exactly when none has the units of
another. -/
theorem Kept.reset_processors_iff (h : Kept description maxTaskCount c) :
    c.worker.releaseAllResources.available.processors = description.processors ↔
      ∀ i p q, c.worker.available.processors[i]? = some p → description.processors[i]? = some q →
        p.computingUnits - demand c.worker.available.processors c.worker.available.processors i =
          q.computingUnits - demand description.processors description.processors i := by
  have hshape : ∀ i : Nat, (c.worker.available.processors[i]?).map Processor.shape =
      (description.processors[i]?).map Processor.shape := fun i => by
    rw [← List.getElem?_map, ← List.getElem?_map, h.shape]
  constructor
  · intro heq i p q hp hq
    have := h.reset_getElem? i
    rw [heq, hp, hq] at this
    have := congrArg Processor.computingUnits (Option.some.inj this)
    simp only [Processor.setComputingUnits] at this
    omega
  · intro hall
    refine List.ext_getElem? fun i => ?_
    rw [h.reset_getElem?]
    have hi := hshape i
    cases hp : c.worker.available.processors[i]? with
    | none =>
      rw [hp] at hi
      exact (Option.map_eq_none_iff.mp hi.symm).symm
    | some p =>
      rw [hp] at hi
      obtain ⟨q, hq, hqp⟩ := Option.map_eq_some_iff.mp hi.symm
      rw [hq, Option.map_some]
      have hunits := hall i p q hp hq
      congr 1
      -- the two are of one shape, and their units are computed
      have hset : p.setComputingUnits q.computingUnits = q := by
        have := congrArg (·.setComputingUnits q.computingUnits) hqp
        exact this.symm
      rw [← hset]
      have hcu : (p.setComputingUnits q.computingUnits).computingUnits = q.computingUnits := rfl
      congr 1
      omega

/-- Taking a memory from itself and giving the description's. -/
theorem Kept.reset_memorySize (h : Kept description maxTaskCount c)
    (hzero : ∀ x y : φ, JavaFloat.eq x JavaFloat.unassigned = false → JavaFloat.eq y JavaFloat.unassigned = false →
      JavaFloat.eq (JavaFloat.sub x x) JavaFloat.unassigned = false ∧ JavaFloat.add (JavaFloat.sub x x) y = y) :
    c.worker.releaseAllResources.available.memorySize = description.memorySize := by
  have hm : c.worker.available.checkMemory c.worker.available = true := by
    simp [checkMemory, checkInclusionFloat, checkCompatibility, LawfulJavaFloat.ge_self]
  obtain ⟨totals, he⟩ := reduceDynamic_of_found (found_self c.worker.available.processors)
  rw [if_pos hm] at he
  have hreset : c.worker.releaseAllResources.available.memorySize =
      (((c.worker.available.reduceDynamic c.worker.available).1).increaseDynamic description).memorySize := by
    rw [← h.sameDescription]
    rfl
  rw [hreset, increaseDynamic_memorySize, he]
  unfold memoryLeft
  cases hun : JavaFloat.eq description.memorySize JavaFloat.unassigned with
  | true =>
    have := h.assigned.trans hun
    simpa [this] using h.unassigned hun
  | false =>
    have hassigned := h.assigned.trans hun
    obtain ⟨hleft, hsum⟩ := hzero _ _ hassigned hun
    simp [hassigned, hleft, hsum]

theorem Kept.reset_memoryType (h : Kept description maxTaskCount c) :
    c.worker.releaseAllResources.available.memoryType = description.memoryType := by
  have hs : (takeAll c.worker.available.processors c.worker.available.processors).map Processor.shape =
      description.processors.map Processor.shape := takeAll_shape.trans h.shape
  obtain ⟨totals, he⟩ := reduceDynamic_of_found (found_self c.worker.available.processors)
  have hfound : Found (c.worker.available.reduceDynamic c.worker.available).1.processors c.worker.description.processors := by
    rw [he, h.sameDescription]
    exact (found_self description.processors).shape hs.symm
  refine (increaseDynamic_memoryType hfound).trans ?_
  rw [he]
  exact h.memoryType

theorem Kept.reset_drift (h : Kept description maxTaskCount c) (type : ProcessorType) :
    c.worker.releaseAllResources.available.drift type = description.copy.drift type := by
  have hs : (takeAll c.worker.available.processors c.worker.available.processors).map Processor.shape =
      description.processors.map Processor.shape := takeAll_shape.trans h.shape
  have hfound : Found (c.worker.available.reduceDynamic c.worker.available).1.processors c.worker.description.processors := by
    rw [reduceDynamic_processors, h.sameDescription]
    exact (found_self description.processors).shape hs.symm
  exact (increaseDynamic_drift hfound type).trans ((reduceDynamic_drift _ _ type).trans (h.drift type))

omit [LawfulJavaFloat φ] in
/-- What a worker accepts is a matter of its processors, its memory and its counts. -/
theorem canRunNow_congr {w w' : MethodWorker φ} (hprocessors : w.available.processors = w'.available.processors)
    (hmemory : w.available.memorySize = w'.available.memorySize)
    (htype : w.available.memoryType = w'.available.memoryType) (hcounts : w.usedTaskCount = w'.usedTaskCount)
    (hmax : w.maxTaskCount = w'.maxTaskCount) (consumption : MethodResourceDescription φ) :
    w.canRunNow consumption = w'.canRunNow consumption := by
  have hcheck : w.available.checkProcessor = w'.available.checkProcessor := by
    funext p
    rw [checkProcessor, checkProcessor, hprocessors]
  have hcontains : w.available.containsDynamic consumption = w'.available.containsDynamic consumption := by
    rw [containsDynamic, containsDynamic, checkProcessors, checkProcessors, hcheck, checkMemory, checkMemory, hmemory, htype]
  simp only [MethodWorker.canRunNow, MethodWorker.hasAvailable, hcontains, hcounts, hmax]

/-- After any run of tasks, a reset makes the worker idle exactly when it has no
count left, the units of each processor are its own, and the totals of the
description are those of a copy. -/
theorem releaseAllResources_idle_iff
    (hnegative : ∀ x : φ, JavaFloat.ge x JavaFloat.zero = true → JavaFloat.eq x JavaFloat.unassigned = false)
    (hzero : ∀ x y : φ, JavaFloat.eq x JavaFloat.unassigned = false → JavaFloat.eq y JavaFloat.unassigned = false →
      JavaFloat.eq (JavaFloat.sub x x) JavaFloat.unassigned = false ∧ JavaFloat.add (JavaFloat.sub x x) y = y)
    (hsane : SaneMemory description.memorySize) {steps : List (TaskStep φ)}
    (hrun : Lib.run step (initial description maxTaskCount) steps = some c) :
    Idle description maxTaskCount c.worker.releaseAllResources ↔ Resettable c.worker := by
  have h := Kept.of_run hnegative hsane hrun
  have hprocessors := h.reset_processors_iff
  have htotals : c.worker.releaseAllResources.available.processors = description.processors →
      (c.worker.releaseAllResources.available.totalComputingUnits = description.totalComputingUnits ↔
        ∀ type, description.copy.totalComputingUnits type = description.totalComputingUnits type) := by
    intro hps
    rw [funext_iff]
    refine forall_congr' fun type => ?_
    have hdrift := h.reset_drift type
    simp only [drift, hps, copy_processors] at hdrift
    omega
  constructor
  · intro hidle
    refine ⟨hidle.counts, ?_, ?_⟩
    · rw [h.sameDescription]
      exact hprocessors.mp hidle.processors
    · rw [h.sameDescription]
      exact (htotals hidle.processors).mp hidle.totals
  · intro hreset
    have hps := hprocessors.mpr (h.sameDescription ▸ hreset.units)
    refine ⟨hps, (htotals hps).mpr (h.sameDescription ▸ hreset.totals), h.reset_memorySize hzero, hreset.counts, ?_⟩
    refine canRunNow_congr ?_ ?_ ?_ (funext hreset.counts) h.sameMaximum
    · exact hps.trans (copy_processors description).symm
    · exact (h.reset_memorySize hzero).trans (copy_memorySize description).symm
    · exact h.reset_memoryType.trans (copy_memoryType description).symm

end

/-- A processor of so many units. -/
def cpuUnits (cu : Int) : MethodResourceDescription Int := MethodResourceDescription.new.addProcessor (WorkerRun.named "cpu" cu)

/-- A worker of two units on which a task of one has run. -/
theorem releaseAllResources_idle_iff_cpuUnits :
    ∃ c, Lib.run step (initial (cpuUnits 2) fun _ => 2) [.runTask (cpuUnits 1), .endTask 0] = some c ∧
      (Idle (cpuUnits 2) (fun _ => 2) c.worker.releaseAllResources ↔ Resettable c.worker) := by
  have hrun : ∃ c, Lib.run step (initial (cpuUnits 2) fun _ => 2) [.runTask (cpuUnits 1), .endTask 0] = some c := ⟨_, rfl⟩
  obtain ⟨c, hc⟩ := hrun
  refine ⟨c, hc, releaseAllResources_idle_iff (fun x hx => ?_) (fun x y _ _ => ⟨?_, ?_⟩) (.inl rfl) hc⟩
  · exact decide_eq_false fun he => absurd (of_decide_eq_true hx) (he ▸ by decide)
  · exact decide_eq_false fun he => by rw [show JavaFloat.sub x x = 0 from Int.sub_self x] at he; exact absurd he (by decide)
  · rw [show JavaFloat.sub x x = 0 from Int.sub_self x]
    exact Int.zero_add y

/-- A task that is still counted when the worker is reset stays counted. -/
theorem releaseAllResources_keeps_count :
    ¬ ∀ (description : MethodResourceDescription Int) (maxTaskCount : ProcessorType → Int)
      (steps : List (TaskStep Int)) (c : MethodWorkerRun Int),
      Lib.run step (initial description maxTaskCount) steps = some c →
      Idle description maxTaskCount c.worker.releaseAllResources := by
  intro h
  have hidle := h (cpuUnits 2) (fun _ => 2) [.runTask (cpuUnits 1)] _ rfl
  exact absurd (hidle.counts .cpu) (by decide)

end MethodWorkerRun

end Compss.Resources
