/-
`DynamicMethodWorker`: a worker whose resources are reserved for tasks, given
back, reduced and increased.

A worker has a description of what it offers and one of what is available of
it. `runTask` takes the requirements of a task from the available ones and
`endTask` gives back what was taken. A reduction that does not fit while CPU
tasks run is pending until enough is given back, and a query for resources
adds the pending ones to what it is asked, in the description it is asked
about, and takes them out again.
-/
import Compss.Lib.Run
import Compss.Resources.ComputingUnits

namespace Compss.Resources

open Lib

variable {φ : Type}

structure DynamicMethodWorker (φ : Type) where
  description : MethodResourceDescription φ
  available : MethodResourceDescription φ
  /-- `usedCPUTaskCount` and the like. -/
  usedTaskCount : ProcessorType → Int
  /-- `maxCPUTaskCount` and the like. -/
  maxTaskCount : ProcessorType → Int
  toRemove : MethodResourceDescription φ
  pendingReductions : List (MethodResourceDescription φ)

namespace DynamicMethodWorker

def usedCPUTaskCount (w : DynamicMethodWorker φ) : Int := w.usedTaskCount .cpu
def usedGPUTaskCount (w : DynamicMethodWorker φ) : Int := w.usedTaskCount .gpu
def usedFPGATaskCount (w : DynamicMethodWorker φ) : Int := w.usedTaskCount .fpga
def usedOthersTaskCount (w : DynamicMethodWorker φ) : Int := w.usedTaskCount .other

/-- `increaseUsedCPUTaskCount` and the like, for the types the task has. -/
def increaseUsedTaskCounts (w : DynamicMethodWorker φ) (consumption : MethodResourceDescription φ) :
    DynamicMethodWorker φ :=
  { w with usedTaskCount := fun type =>
      if consumption.containsType type then w.usedTaskCount type + 1 else w.usedTaskCount type }

def decreaseUsedTaskCounts (w : DynamicMethodWorker φ) (consumption : MethodResourceDescription φ) :
    DynamicMethodWorker φ :=
  { w with usedTaskCount := fun type =>
      if consumption.containsType type then w.usedTaskCount type - 1 else w.usedTaskCount type }

section
variable [JavaFloat φ]

def new (description : MethodResourceDescription φ) (maxTaskCount : ProcessorType → Int) :
    DynamicMethodWorker φ where
  description := description
  available := description.copy
  usedTaskCount _ := 0
  maxTaskCount := maxTaskCount
  toRemove := .new
  pendingReductions := []

/-! ## Reserving -/

/-- The answer, and the consumption as the query leaves it. -/
def hasAvailable (w : DynamicMethodWorker φ) (consumption : MethodResourceDescription φ) :
    Bool × MethodResourceDescription φ :=
  let increased := consumption.increaseDynamic w.toRemove
  (w.available.containsDynamic increased, (increased.reduceDynamic w.toRemove).1)

/-- The answer, and the consumption as its queries leave it. Free slots of the
other types are asked for only of a task that has no CPU, or finds a slot. -/
def canRunNow (w : DynamicMethodWorker φ) (consumption : MethodResourceDescription φ) :
    Bool × MethodResourceDescription φ :=
  let (canRun, consumption) := w.hasAvailable consumption
  let freeSlot := fun type => w.usedTaskCount type < w.maxTaskCount type || !consumption.containsType type
  let canRun := canRun && w.usedTaskCount .cpu < w.maxTaskCount .cpu || !consumption.containsCPU
  if canRun && freeSlot .gpu && freeSlot .fpga && freeSlot .other then w.hasAvailable consumption
  else (false, consumption)

/-- `reserveResource` of the superclass: the worker, the consumption as it is
left, and what was reserved. -/
def superReserveResource (w : DynamicMethodWorker φ) (consumption : MethodResourceDescription φ) :
    DynamicMethodWorker φ × MethodResourceDescription φ × Option (MethodResourceDescription φ) :=
  let (fits, consumption) := w.hasAvailable consumption
  if fits then
    let (available, reserved) := w.available.reduceDynamic consumption
    ({ w with available := available }, consumption, reserved)
  else (w, consumption, none)

def reserveResource (w : DynamicMethodWorker φ) (consumption : MethodResourceDescription φ) :
    DynamicMethodWorker φ × MethodResourceDescription φ × Option (MethodResourceDescription φ) :=
  let (fits, consumption) := w.hasAvailable consumption
  if fits then w.superReserveResource consumption else (w, consumption, none)

def runTask (w : DynamicMethodWorker φ) (consumption : MethodResourceDescription φ) :
    DynamicMethodWorker φ × MethodResourceDescription φ × Option (MethodResourceDescription φ) :=
  match w.reserveResource consumption with
  | (w, consumption, some reserved) => (w.increaseUsedTaskCounts consumption, consumption, some reserved)
  | (w, consumption, none) => (w, consumption, none)

/-! ## Releasing -/

/-- The loop over the pending reductions: it ends at the first one that is not
available. -/
def performReductions (w : DynamicMethodWorker φ) : List (MethodResourceDescription φ) → DynamicMethodWorker φ
  | [] => { w with pendingReductions := [] }
  | pRed :: pending =>
    if w.available.containsDynamic pRed then
      performReductions { w with available := w.available.reduce pRed, toRemove := w.toRemove.reduce pRed } pending
    else { w with pendingReductions := pRed :: pending }

def releaseResource (w : DynamicMethodWorker φ) (consumption : MethodResourceDescription φ) :
    DynamicMethodWorker φ :=
  performReductions { w with available := w.available.increaseDynamic consumption } w.pendingReductions

def endTask (w : DynamicMethodWorker φ) (consumption : MethodResourceDescription φ) : DynamicMethodWorker φ :=
  (w.decreaseUsedTaskCounts consumption).releaseResource consumption

/-! ## Shrinking and growing -/

def applyReduction (w : DynamicMethodWorker φ) (reduction : MethodResourceDescription φ) : DynamicMethodWorker φ :=
  let w := { w with description := w.description.reduce reduction }
  let (fits, reduction) := w.hasAvailable reduction
  if !fits && w.usedCPUTaskCount > 0 then
    { w with
      toRemove := w.toRemove.increase reduction
      pendingReductions := w.pendingReductions ++ [reduction] }
  else { w with available := w.available.reduce reduction }

def increaseFeatures (w : DynamicMethodWorker φ) (increment : MethodResourceDescription φ) : DynamicMethodWorker φ :=
  { w with available := w.available.increase increment, description := w.description.increase increment }

end

end DynamicMethodWorker

/-! ## Runs -/

/-- The worker, and the reservations of the tasks that run on it. -/
structure WorkerRun (φ : Type) where
  worker : DynamicMethodWorker φ
  running : List (MethodResourceDescription φ)

inductive WorkerStep (φ : Type)
  | runTask (requirements : MethodResourceDescription φ)
  /-- The task of the reservation at an index ends. -/
  | endTask (i : Nat)
  | applyReduction (reduction : MethodResourceDescription φ)
  | increaseFeatures (increment : MethodResourceDescription φ)

namespace WorkerRun

section
variable [JavaFloat φ]

/-- A `runTask` that reserves nothing is no step. -/
def step (c : WorkerRun φ) : WorkerStep φ → Option (WorkerRun φ)
  | .runTask requirements =>
    match c.worker.runTask requirements with
    | (worker, _, some reserved) => some ⟨worker, c.running ++ [reserved]⟩
    | (_, _, none) => none
  | .endTask i => c.running[i]?.map fun reserved => ⟨c.worker.endTask reserved, c.running.eraseIdx i⟩
  | .applyReduction reduction => some { c with worker := c.worker.applyReduction reduction }
  | .increaseFeatures increment => some { c with worker := c.worker.increaseFeatures increment }

/-- A worker as it is created, with no amount below zero. -/
structure Initial (c : WorkerRun φ) : Prop where
  worker : ∃ description maxTaskCount, c.worker = .new description maxTaskCount ∧ (∀ p ∈ description.processors, 0 ≤ p.computingUnits) ∧
    MethodResourceDescription.SaneMemory description.memorySize
  running : c.running = []

/-- The units of a type that descriptions hold together. -/
def totalUnits (type : ProcessorType) (ds : List (MethodResourceDescription φ)) : Int :=
  (ds.map fun d => units type d.processors).sum

/-- Nothing of the worker is lost or made up. -/
structure Conserved (c : WorkerRun φ) : Prop where
  units : ∀ type, Resources.units type c.worker.available.processors + totalUnits type c.running =
    Resources.units type c.worker.description.processors + totalUnits type c.worker.pendingReductions
  nonneg : ∀ p ∈ c.worker.available.processors, 0 ≤ p.computingUnits
  memory : MethodResourceDescription.SaneMemory c.worker.available.memorySize
  slots : ∀ type, c.worker.usedTaskCount type = c.running.countP (·.containsType type)

/-! ## When nothing is lost -/

/-- The requirements as the two queries of `reserveResource` leave them. -/
def asked (w : DynamicMethodWorker φ) (requirements : MethodResourceDescription φ) : MethodResourceDescription φ :=
  (w.hasAvailable (w.hasAvailable requirements).2).2

/-- Each pending reduction that is available is covered. -/
def Resolves : MethodResourceDescription φ → List (MethodResourceDescription φ) → Prop
  | _, [] => True
  | available, pRed :: pending => available.containsDynamic pRed = true →
    Covers available.processors pRed.processors ∧ Resolves (available.reduce pRed) pending

/-- What is asked for is taken from first compatible processors of its own
type, which have as much, and what is given goes to such processors. -/
def Exact (c : WorkerRun φ) : WorkerStep φ → Prop
  | .runTask requirements =>
    Covers c.worker.available.processors (asked c.worker requirements).processors ∧
      (asked c.worker requirements).Counted
  | .endTask i => ∀ reserved, c.running[i]? = some reserved →
    Fits c.worker.available.processors reserved.processors ∧
      Resolves (c.worker.available.increaseDynamic reserved) c.worker.pendingReductions
  | .applyReduction reduction =>
    Matches c.worker.description.processors reduction.processors ∧
      (((c.worker.hasAvailable reduction).1 = true ∨ c.worker.usedCPUTaskCount ≤ 0) →
        Covers c.worker.available.processors (c.worker.hasAvailable reduction).2.processors)
  | .increaseFeatures increment =>
    Fits c.worker.available.processors increment.processors ∧
      Fits c.worker.description.processors increment.processors ∧
      (∀ p ∈ increment.processors, 0 ≤ p.computingUnits) ∧
      MethodResourceDescription.SaneMemory increment.memorySize

end

/-! ## Each method -/

section
variable [JavaFloat φ] [LawfulJavaFloat φ] {w : DynamicMethodWorker φ} {c c' : WorkerRun φ}
  {d r : MethodResourceDescription φ} {l : WorkerStep φ}

@[simp] theorem totalUnits_append (type : ProcessorType) (ds es : List (MethodResourceDescription φ)) :
    totalUnits type (ds ++ es) = totalUnits type ds + totalUnits type es := by simp [totalUnits]

@[simp] theorem totalUnits_cons (type : ProcessorType) (d : MethodResourceDescription φ)
    (ds : List (MethodResourceDescription φ)) :
    totalUnits type (d :: ds) = Resources.units type d.processors + totalUnits type ds := by simp [totalUnits]

/-- A query leaves the units of the description it is asked about as they are. -/
theorem hasAvailable_units (w : DynamicMethodWorker φ) (d : MethodResourceDescription φ) (type : ProcessorType) :
    Resources.units type (w.hasAvailable d).2.processors = Resources.units type d.processors := by
  rw [DynamicMethodWorker.hasAvailable, MethodResourceDescription.reduceDynamic_processors,
    MethodResourceDescription.increaseDynamic_processors]
  exact takeAll_giveAll type _ _

/-- The units a reservation holds are those the worker loses. -/
theorem taken_units {d' : MethodResourceDescription φ} (h : MethodResourceDescription.IsTaken d.processors r.processors d') (type : ProcessorType) :
    Resources.units type (takeAll d.processors r.processors) + Resources.units type d'.processors =
      Resources.units type d.processors := by
  have heq : Resources.units type d'.processors = matchedUnits type d.processors r.processors := by
    rw [h.processors, Resources.units, matchedUnits, List.map_map]
    rfl
  rw [takeAll_units type h.found, heq]
  omega

/-- A reservation as `runTask` makes it. -/
structure IsReserved (r : MethodResourceDescription φ) : Prop where
  nonneg : ∀ p ∈ r.processors, 0 ≤ p.computingUnits
  built : r.Built
  memory : MethodResourceDescription.SaneMemory r.memorySize

/-- The description after a reduction that is covered. -/
theorem reduce_covered (h : Covers d.processors r.processors) (type : ProcessorType) :
    Resources.units type (d.reduce r).processors = Resources.units type d.processors - Resources.units type r.processors := by
  rw [MethodResourceDescription.reduce_processors, takeAll_units type h.matches.found, h.matches.matchedUnits]

/-- Pending reductions that are performed leave the list, and take their units
with them. -/
theorem performReductions_spec : ∀ (pending : List (MethodResourceDescription φ)) (w : DynamicMethodWorker φ),
    Resolves w.available pending → (∀ p ∈ w.available.processors, 0 ≤ p.computingUnits) →
    MethodResourceDescription.SaneMemory w.available.memorySize →
    (∀ type, Resources.units type (w.performReductions pending).available.processors + totalUnits type pending =
      Resources.units type w.available.processors +
        totalUnits type (w.performReductions pending).pendingReductions) ∧
    (∀ p ∈ (w.performReductions pending).available.processors, 0 ≤ p.computingUnits) ∧
    MethodResourceDescription.SaneMemory (w.performReductions pending).available.memorySize ∧
    (w.performReductions pending).description = w.description ∧
    (w.performReductions pending).usedTaskCount = w.usedTaskCount
  | [], w, _, hn, hm => ⟨fun _ => rfl, hn, hm, rfl, rfl⟩
  | pRed :: pending, w, hr, hn, hm => by
    rw [DynamicMethodWorker.performReductions]
    by_cases hc : w.available.containsDynamic pRed = true
    · rw [if_pos hc]
      obtain ⟨hcov, hrest⟩ := hr hc
      have hn' : ∀ p ∈ (w.available.reduce pRed).processors, 0 ≤ p.computingUnits := by
        rw [MethodResourceDescription.reduce_processors]
        exact hcov.nonneg hn
      obtain ⟨hu, h2, h3, h4, h5⟩ := performReductions_spec pending
        { w with available := w.available.reduce pRed, toRemove := w.toRemove.reduce pRed } hrest hn'
        (MethodResourceDescription.reduceDynamic_memory hm pRed)
      refine ⟨fun type => ?_, h2, h3, h4, h5⟩
      have hu := hu type
      simp only [reduce_covered hcov type] at hu
      rw [totalUnits_cons]
      omega
    · rw [if_neg hc]
      exact ⟨fun _ => rfl, hn, hm, rfl, rfl⟩

/-- What a successful `runTask` does. -/
theorem runTask_some {requirements left : MethodResourceDescription φ} {w' : DynamicMethodWorker φ}
    (h : w.runTask requirements = (w', left, some r)) :
    left = asked w requirements ∧ (w.available.reduceDynamic left).2 = some r ∧
      w' = { w with available := (w.available.reduceDynamic left).1 }.increaseUsedTaskCounts left := by
  rw [DynamicMethodWorker.runTask, DynamicMethodWorker.reserveResource] at h
  rcases hq : w.hasAvailable requirements with ⟨fits, left₁⟩
  rw [hq] at h
  cases fits with
  | false => cases h
  | true =>
    rcases hq' : w.hasAvailable left₁ with ⟨fits', left₂⟩
    have hasked : asked w requirements = left₂ := by rw [asked, hq, hq']
    simp only [if_true, DynamicMethodWorker.superReserveResource, hq'] at h
    cases fits' with
    | false => cases h
    | true =>
      rcases hr : w.available.reduceDynamic left₂ with ⟨available, reserved⟩
      simp only [if_true, hr] at h
      cases reserved with
      | none => cases h
      | some reserved =>
        cases h
        exact ⟨hasked.symm, by rw [hr], by rw [hr]⟩

/-- Taken processors are of the types of those asked for, when each is matched
with one of its own. -/
theorem isTaken_types {c₀ : MethodResourceDescription φ} (h : MethodResourceDescription.IsTaken d.processors c₀.processors r)
    (hm : Matches d.processors c₀.processors) (type : ProcessorType) :
    (∃ p ∈ r.processors, p.countedType = type) ↔ ∃ p ∈ c₀.processors, p.countedType = type := by
  rw [h.processors]
  constructor
  · rintro ⟨p, hp, ht⟩
    obtain ⟨q, hq, rfl⟩ := List.mem_map.mp hp
    obtain ⟨q', hq', htype⟩ := hm q hq
    refine ⟨q, hq, ?_⟩
    rw [← htype, ← ht, matched, hq']
    rfl
  · rintro ⟨q, hq, ht⟩
    obtain ⟨q', hq', htype⟩ := hm q hq
    refine ⟨_, List.mem_map.mpr ⟨q, hq, rfl⟩, ?_⟩
    rw [← ht, ← htype, matched, hq']
    rfl

/-- A reservation that is taken out of a list leaves the others. -/
theorem eraseIdx_perm {ds : List (MethodResourceDescription φ)} {i : Nat} (h : ds[i]? = some d) :
    ds.Perm (d :: ds.eraseIdx i) := by
  obtain ⟨hi, rfl⟩ := List.getElem?_eq_some_iff.mp h
  exact (List.getElem_cons_eraseIdx_perm hi).symm

/-! ## The invariant -/

/-- Nothing is lost, and the reservations are as `runTask` makes them. -/
def Kept (c : WorkerRun φ) : Prop := c.Conserved ∧ ∀ r ∈ c.running, IsReserved r

theorem Initial.kept (hc : c.Initial) : c.Kept := by
  obtain ⟨⟨description, maxTaskCount, hw, hn, hm⟩, hr⟩ := hc
  refine ⟨⟨fun type => ?_, ?_, ?_, fun type => ?_⟩, ?_⟩
  · rw [hw, hr]
    simp only [DynamicMethodWorker.new, MethodResourceDescription.copy_processors]
  · rw [hw]
    simp only [DynamicMethodWorker.new, MethodResourceDescription.copy_processors]
    exact hn
  · rw [hw]
    simp only [DynamicMethodWorker.new, MethodResourceDescription.copy_memorySize]
    exact hm
  · rw [hw, hr]
    rfl
  · rw [hr]
    exact fun r h => absurd h List.not_mem_nil

theorem Kept.runTask {requirements left : MethodResourceDescription φ} {w' : DynamicMethodWorker φ} (hc : c.Kept)
    (hg : c.Exact (.runTask requirements)) (h : c.worker.runTask requirements = (w', left, some r)) :
    Kept ⟨w', c.running ++ [r]⟩ := by
  obtain ⟨⟨hu, hn, hm, hs⟩, hres⟩ := hc
  obtain ⟨hcov, hcounted⟩ := hg
  obtain ⟨rfl, hr, rfl⟩ := runTask_some h
  have ht := MethodResourceDescription.reduceDynamic_taken hr
  refine ⟨⟨fun type => ?_, ?_, ?_, fun type => ?_⟩, ?_⟩
  · have hleft : Resources.units type (c.worker.available.reduceDynamic (asked c.worker requirements)).1.processors +
        Resources.units type r.processors = Resources.units type c.worker.available.processors := by
      rw [MethodResourceDescription.reduceDynamic_processors]
      exact taken_units ht type
    have := hu type
    simp only [DynamicMethodWorker.increaseUsedTaskCounts, totalUnits_append, totalUnits_cons]
    simp only [totalUnits, List.map_nil, List.sum_nil] at this ⊢
    omega
  · simp only [DynamicMethodWorker.increaseUsedTaskCounts, MethodResourceDescription.reduceDynamic_processors]
    exact hcov.nonneg hn
  · exact MethodResourceDescription.reduceDynamic_memory hm _
  · -- the slots counted are those of the processors asked for, which are those taken
    have hcontains : (asked c.worker requirements).containsType type = r.containsType type := by
      rw [Bool.eq_iff_iff, hcounted type, ht.built.counted type, isTaken_types ht hcov.matches type]
    have := hs type
    simp only [DynamicMethodWorker.increaseUsedTaskCounts, hcontains, List.countP_append, List.countP_singleton]
    split
    · rw [this]; simp
    · rw [this]; simp
  · intro x hx
    rcases List.mem_append.mp hx with hx | hx
    · exact hres x hx
    · rw [List.mem_singleton.mp hx]
      refine ⟨fun p hp => ?_, ht.built, ht.memory⟩
      rw [ht.processors] at hp
      obtain ⟨q, hq, rfl⟩ := List.mem_map.mp hp
      exact hcov.asked_nonneg q hq

theorem Kept.endTask {i : Nat} (hc : c.Kept) (hg : c.Exact (.endTask i)) (hi : c.running[i]? = some r) :
    Kept ⟨c.worker.endTask r, c.running.eraseIdx i⟩ := by
  obtain ⟨⟨hu, hn, hm, hs⟩, hres⟩ := hc
  obtain ⟨hfits, hresolves⟩ := hg r hi
  have hr := hres r (List.mem_of_getElem? hi)
  have hperm := eraseIdx_perm hi
  obtain ⟨u, hw⟩ : ∃ u : DynamicMethodWorker φ, u =
      { c.worker.decreaseUsedTaskCounts r with available := c.worker.available.increaseDynamic r } := ⟨_, rfl⟩
  have hend : c.worker.endTask r = u.performReductions c.worker.pendingReductions := by rw [hw]; rfl
  obtain ⟨hpu, hpn, hpm, hpd, hps⟩ := performReductions_spec c.worker.pendingReductions u
    (by rw [hw]; exact hresolves)
    (by rw [hw, MethodResourceDescription.increaseDynamic_processors]; exact give_nonneg hn hr.nonneg)
    (by rw [hw]; exact MethodResourceDescription.increaseDynamic_memory hm hr.memory)
  rw [hend]
  refine ⟨⟨fun type => ?_, hpn, hpm, fun type => ?_⟩, fun x hx => hres x (List.mem_of_mem_eraseIdx hx)⟩
  · have hrun : totalUnits type c.running = Resources.units type r.processors + totalUnits type (c.running.eraseIdx i) := by
      rw [totalUnits, (hperm.map _).sum_eq]
      rfl
    have hgive : Resources.units type u.available.processors =
        Resources.units type c.worker.available.processors + Resources.units type r.processors := by
      rw [hw, MethodResourceDescription.increaseDynamic_processors]
      exact hfits.units
    have hdescription : u.description = c.worker.description := by rw [hw]; rfl
    have hpu := hpu type
    have := hu type
    rw [hpd, hdescription]
    dsimp only
    omega
  · have hslots := hs type
    rw [hperm.countP_eq, List.countP_cons] at hslots
    have hused : u.usedTaskCount type =
        if r.containsType type then c.worker.usedTaskCount type - 1 else c.worker.usedTaskCount type := by rw [hw]; rfl
    rw [hps, hused, hslots]
    split
    · simp
    · simp

theorem Kept.applyReduction {reduction : MethodResourceDescription φ} (hc : c.Kept)
    (hg : c.Exact (.applyReduction reduction)) :
    Kept { c with worker := c.worker.applyReduction reduction } := by
  obtain ⟨⟨hu, hn, hm, hs⟩, hres⟩ := hc
  obtain ⟨hmatch, hcov⟩ := hg
  have hdesc : ∀ type, Resources.units type (c.worker.description.reduce reduction).processors =
      Resources.units type c.worker.description.processors - Resources.units type reduction.processors := fun type => by
    rw [MethodResourceDescription.reduce_processors, takeAll_units type hmatch.found, hmatch.matchedUnits]
  have hleft := hasAvailable_units c.worker reduction
  refine ⟨?_, hres⟩
  rw [DynamicMethodWorker.applyReduction]
  dsimp only
  split
  · refine ⟨fun type => ?_, hn, hm, hs⟩
    have h1 := hu type
    have h2 := hdesc type
    have h3 := hleft type
    simp only [totalUnits_append, totalUnits_cons]
    simp only [totalUnits, List.map_nil, List.sum_nil, DynamicMethodWorker.hasAvailable] at h1 h2 h3 ⊢
    omega
  · next hp =>
    simp only [Bool.and_eq_true, Bool.not_eq_true', decide_eq_true_eq, not_and, not_lt] at hp
    have hcov := hcov (by
      by_cases hf : (c.worker.hasAvailable reduction).1 = true
      · exact .inl hf
      · exact .inr (hp (by rw [← Bool.not_eq_true]; exact hf)))
    refine ⟨fun type => ?_, ?_, MethodResourceDescription.reduceDynamic_memory hm _, hs⟩
    · have h1 := hu type
      have h2 := hdesc type
      have h3 := hleft type
      have h4 := reduce_covered hcov type
      simp only [DynamicMethodWorker.hasAvailable] at h3 h4 ⊢
      omega
    · rw [MethodResourceDescription.reduce_processors]
      exact hcov.nonneg hn

theorem Kept.increaseFeatures {increment : MethodResourceDescription φ} (hc : c.Kept)
    (hg : c.Exact (.increaseFeatures increment)) :
    Kept { c with worker := c.worker.increaseFeatures increment } := by
  obtain ⟨⟨hu, hn, hm, hs⟩, hres⟩ := hc
  obtain ⟨havailable, hdescription, hinc, hmem⟩ := hg
  refine ⟨⟨fun type => ?_, ?_, MethodResourceDescription.increaseDynamic_memory hm hmem, hs⟩, hres⟩
  · have := hu type
    simp only [DynamicMethodWorker.increaseFeatures, MethodResourceDescription.increase_processors,
      havailable.units, hdescription.units]
    omega
  · simp only [DynamicMethodWorker.increaseFeatures, MethodResourceDescription.increase_processors]
    exact give_nonneg hn hinc

theorem Kept.step (hc : c.Kept) (hg : c.Exact l) (hst : c.step l = some c') : c'.Kept := by
  cases l with
  | runTask requirements =>
    rw [WorkerRun.step] at hst
    split at hst
    · next h => cases hst; exact hc.runTask hg h
    · cases hst
  | endTask i =>
    obtain ⟨r, hr, rfl⟩ := Option.map_eq_some_iff.mp hst
    exact hc.endTask hg hr
  | applyReduction reduction => cases hst; exact hc.applyReduction hg
  | increaseFeatures increment => cases hst; exact hc.increaseFeatures hg

/-- **Conservation.** Nothing of a worker is lost in a run whose steps take
what they take from processors of its own type that have as much, and give what
they give to such processors. -/
theorem conserved_of_exact (hc : c.Initial) (steps : List (WorkerStep φ)) (hg : Along step Exact c steps) :
    Always step Conserved c steps :=
  always_of_along (fun _ h => h.1) (fun _ _ _ h hl hst => h.step hl hst) hc.kept hg

end

/-! ## A worker with two processors -/

/-- Whole numbers for the floats. -/
instance : JavaFloat Int where
  ge x y := x ≥ y
  gt x y := x > y
  eq x y := x = y
  add x y := x + y
  sub x y := x - y
  max x y := max x y
  min x y := min x y
  zero := 0
  unassigned := -1

instance : LawfulJavaFloat Int where
  ge_self x := decide_eq_true (Int.le_refl x)
  ge_of_gt x y h := decide_eq_true (Int.le_of_lt (of_decide_eq_true h))
  sub_nonneg x y h := decide_eq_true (Int.sub_nonneg_of_le (of_decide_eq_true h))
  add_nonneg x y hx hy := decide_eq_true (Int.add_nonneg (of_decide_eq_true hx) (of_decide_eq_true hy))
  eq_unassigned := rfl

instance : LinearJavaFloat Int where
  gt_iff _ _ := decide_eq_true_iff
  ge_iff _ _ := decide_eq_true_iff
  eq_iff _ _ := decide_eq_true_iff
  min_eq _ _ := rfl
  max_eq _ _ := rfl
  sub_self := Int.sub_self
  sub_pos _ _ := Int.sub_pos_of_lt
  le_add _ _ hx _ := Int.le_add_of_nonneg_left hx
  unassigned_neg := by decide

/-- A processor with some units and a name. -/
def named (name : String) (cu : Int) : Processor Int := { Processor.new with name := name, computingUnits := cu }

/-- A worker of which one processor has a unit and another has four. -/
def twoProcessors : WorkerRun Int where
  worker := .new ((MethodResourceDescription.new.addProcessor (named "A" 1)).addProcessor (named "B" 4)) fun _ => 4
  running := []

theorem twoProcessors_initial : twoProcessors.Initial :=
  ⟨⟨_, _, rfl, by decide, .inl rfl⟩, rfl⟩

/-- A task for that many units of any processor. -/
def anyProcessor (cu : Int) : MethodResourceDescription Int := MethodResourceDescription.new.addProcessor (named "[unassigned]" cu)

/-- A task for one unit runs and ends, and the worker grows and shrinks by one. -/
theorem conserved_of_exact_oneUnit : Always step Conserved twoProcessors
    [.runTask (anyProcessor 1), .endTask 0, .increaseFeatures (anyProcessor 1), .applyReduction (anyProcessor 1)] := by
  have hcounted : (anyProcessor 1).Counted := (MethodResourceDescription.new_built.addProcessor _).counted
  refine conserved_of_exact twoProcessors_initial _ fun c₁ h₁ => ⟨?_, ?_⟩
  · exact ⟨⟨_, _, rfl, rfl, by decide, by decide, trivial⟩, hcounted⟩
  cases h₁
  refine fun c₂ h₂ => ⟨?_, ?_⟩
  · intro reserved hr
    cases hr
    exact ⟨⟨rfl, trivial⟩, trivial⟩
  cases h₂
  refine fun c₃ h₃ => ⟨?_, ?_⟩
  · exact ⟨⟨rfl, trivial⟩, ⟨rfl, trivial⟩, by decide, .inl rfl⟩
  cases h₃
  refine fun c₄ h₄ => ⟨?_, trivial⟩
  refine ⟨fun p hp => ?_, fun _ => ⟨_, _, rfl, rfl, by decide, by decide, trivial⟩⟩
  rw [List.mem_singleton.mp hp]
  exact ⟨_, rfl, rfl⟩

/-- Two units are found on the second processor, and taken from the first. -/
theorem taken_from_first : twoProcessors.Initial ∧
    ¬ Always step Conserved twoProcessors [.runTask (anyProcessor 2)] := by
  refine ⟨twoProcessors_initial, fun h => ?_⟩
  have hlast := h.2 _ rfl
  have hneg : (0 : Int) ≤ -1 := hlast.nonneg _ List.mem_cons_self
  exact absurd hneg (by decide)

end WorkerRun

end Compss.Resources
