/-
What a query for resources leaves behind in the requirements it is asked about.

`DynamicMethodWorker.hasAvailable` gives the pending reductions to the
requirements, looks whether the sum is available, and takes them out again.
What was given to a processor of the requirements is matched with it again,
but a processor that is none of theirs has been added, and stays, without
units.
-/
import Compss.Resources.Reservation

namespace Compss.Resources

variable {φ : Type} [JavaFloat φ] {ps given : List (Processor φ)}

/-! ## Giving and taking -/

/-- A processor that is matched with none is added. -/
theorem giveAll_length (h : ¬ Found ps given) : ps.length < (given.foldl give ps).length := by
  have hgrows : ∀ (given ps : List (Processor φ)), ps.length ≤ (given.foldl give ps).length := fun given ps => by
    simpa using (giveAll_shape_le ps given).length_le
  induction given generalizing ps with
  | nil => exact absurd (fun _ hp => absurd hp List.not_mem_nil) h
  | cons p given ih =>
    rw [List.foldl_cons]
    cases hc : changeFirst p (·.addComputingUnits p.computingUnits) ps with
    | none =>
      have hgive : give ps p = ps ++ [p] := by rw [give, hc]
      have := hgrows given (give ps p)
      rw [hgive, List.length_append, List.length_singleton] at this
      rw [hgive]
      omega
    | some found =>
      have hgive : give ps p = found.2 := by rw [give, hc]
      have hs := shape_changeFirst hc rfl
      have hlength : found.2.length = ps.length := by simpa using congrArg List.length hs
      rw [hgive, ← hlength]
      refine ih fun hfound => h fun q hq => ?_
      rcases List.mem_cons.mp hq with rfl | hq
      · rw [(changeFirst_some hc).1]
        rfl
      · exact hfound.shape hs q hq

theorem takeAll_length (ps asked : List (Processor φ)) : (takeAll ps asked).length = ps.length := by
  simpa using congrArg List.length MethodResourceDescription.takeAll_shape

/-- Processors that are given and taken again are as they were exactly when each
that is given is matched with one of them. -/
theorem takeAll_giveAll_eq_iff : takeAll (given.foldl give ps) given = ps ↔ Found ps given := by
  constructor
  · intro h
    by_contra hfound
    have hlength := giveAll_length hfound
    rw [← takeAll_length (given.foldl give ps) given, h] at hlength
    exact absurd hlength (Nat.lt_irrefl _)
  · intro hfound
    have hs : (given.foldl give ps).map Processor.shape = ps.map Processor.shape := by
      refine List.ext_getElem? fun i => ?_
      rw [List.getElem?_map, giveAll_getElem? given ps i hfound, List.getElem?_map, Option.map_map]
      rfl
    refine List.ext_getElem? fun i => ?_
    rw [takeAll_getElem?, served_of_found (hfound.shape hs.symm), demand_shape hs, giveAll_getElem? _ _ _ hfound,
      Option.map_map]
    cases ps[i]? with
    | none => rfl
    | some q => simp [Processor.addComputingUnits, Processor.removeComputingUnits]

namespace MethodResourceDescription

variable {d mrd2 requirement : MethodResourceDescription φ}

/-- Giving to processors that are found touches them, their totals and the
memory. -/
theorem foldl_increaseProcessor_rest : ∀ (given : List (Processor φ)) (d : MethodResourceDescription φ),
    Found d.processors given → ∃ processors totals, given.foldl increaseProcessor d =
      { d with processors := processors, totalComputingUnits := totals }
  | [], d, _ => ⟨_, _, rfl⟩
  | p :: given, d, hfound => by
    have hp := hfound p List.mem_cons_self
    rw [List.foldl_cons, increaseProcessor]
    cases hc : changeFirst p (·.addComputingUnits p.computingUnits) d.processors with
    | none =>
      rw [changeFirst_none.mp hc] at hp
      cases hp
    | some found =>
      have hrest : Found found.2 given := fun q hq =>
        Found.shape (fun q hq => hfound q (List.mem_cons_of_mem p hq)) (shape_changeFirst hc rfl).symm q hq
      obtain ⟨processors, totals, h⟩ := foldl_increaseProcessor_rest given
        ({ d with processors := found.2 }.increaseComputingUnits found.1.type p.computingUnits) hrest
      exact ⟨processors, totals, h⟩

/-- What a reduction leaves when each processor is found, whether it is accepted
or not. -/
theorem reduceDynamic_of_found (hfound : Found d.processors mrd2.processors) :
    ∃ totals, (d.reduceDynamic mrd2).1 =
      { d with
        processors := takeAll d.processors mrd2.processors, totalComputingUnits := totals,
        memorySize := if d.checkMemory mrd2 then memoryLeft d mrd2 else d.memorySize } := by
  by_cases hm : d.checkMemory mrd2 = true
  · obtain ⟨totals, r, he, -, -⟩ := reduceDynamic_accepted hfound hm
    rw [he, if_pos hm]
    exact ⟨totals, rfl⟩
  · have hnone : (d.reduceDynamic mrd2).2 = none := by
      obtain ⟨processors, totals, hrest⟩ := reduceProcessors_rest mrd2.processors d new
      rw [reduceDynamic]
      split
      · rfl
      · next he =>
        -- the check looks at the memory only, which is as it was
        rw [he] at hrest
        dsimp only at hrest
        rw [if_neg (by rw [hrest]; exact hm)]
    obtain ⟨totals, he⟩ := reduceDynamic_rejected hnone
    rw [he, if_neg hm]
    exact ⟨totals, rfl⟩

/-- The pending memory is taken out of the sum it was added to. -/
def ReturnsMemory (requirement pending : MethodResourceDescription φ) : Prop :=
  let sum := JavaFloat.add requirement.memorySize pending.memorySize
  JavaFloat.eq requirement.memorySize JavaFloat.unassigned = true ∨
    JavaFloat.eq pending.memorySize JavaFloat.unassigned = true ∨
    (if JavaFloat.ge sum pending.memorySize && !JavaFloat.eq sum JavaFloat.unassigned &&
        checkCompatibility requirement.memoryType pending.memoryType then
      JavaFloat.sub sum pending.memorySize
    else sum) = requirement.memorySize

/-- The memory after giving and taking. -/
theorem returnsMemory_iff {increased : MethodResourceDescription φ}
    (hsize : increased.memorySize = (requirement.increaseDynamic mrd2).memorySize)
    (htype : increased.memoryType = requirement.memoryType) :
    (if increased.checkMemory mrd2 then memoryLeft increased mrd2 else increased.memorySize) =
      requirement.memorySize ↔ ReturnsMemory requirement mrd2 := by
  rw [increaseDynamic_memorySize] at hsize
  unfold ReturnsMemory memoryLeft checkMemory checkInclusionFloat
  rw [htype, hsize]
  cases hreq : JavaFloat.eq requirement.memorySize JavaFloat.unassigned with
  | true => simp [hreq]
  | false =>
    cases hpending : JavaFloat.eq mrd2.memorySize JavaFloat.unassigned with
    | true => simp
    | false =>
      cases hsum : JavaFloat.eq (JavaFloat.add requirement.memorySize mrd2.memorySize) JavaFloat.unassigned with
      | true => simp [hsum]
      | false => simp [hsum]

/-- Giving and then taking leaves a description as it was exactly when each
processor that is given is matched with one of its own, and the memory returns. -/
theorem reduceDynamic_increaseDynamic_eq_iff :
    ((requirement.increaseDynamic mrd2).reduceDynamic mrd2).1 = requirement ↔
      Found requirement.processors mrd2.processors ∧ ReturnsMemory requirement mrd2 := by
  by_cases hfound : Found requirement.processors mrd2.processors
  · have hincreased : ∃ totals, requirement.increaseDynamic mrd2 =
        { requirement with
          processors := mrd2.processors.foldl give requirement.processors, totalComputingUnits := totals,
          memorySize := (requirement.increaseDynamic mrd2).memorySize } := by
      obtain ⟨processors, totals, he⟩ := foldl_increaseProcessor_rest mrd2.processors requirement hfound
      refine ⟨totals, ?_⟩
      rw [← increaseDynamic_processors]
      rw [increaseDynamic, he]
      split <;> rfl
    obtain ⟨totals, hincreased⟩ := hincreased
    have hs : (mrd2.processors.foldl give requirement.processors).map Processor.shape =
        requirement.processors.map Processor.shape := by
      refine List.ext_getElem? fun i => ?_
      rw [List.getElem?_map, giveAll_getElem? _ _ i hfound, List.getElem?_map, Option.map_map]
      rfl
    have hfound' : Found (requirement.increaseDynamic mrd2).processors mrd2.processors := by
      rw [increaseDynamic_processors]
      exact hfound.shape hs.symm
    have hprocessors := takeAll_giveAll_eq_iff.mpr hfound
    rw [← increaseDynamic_processors] at hprocessors
    have htotals := totals_of_drift
      (fun type => (reduceDynamic_drift (requirement.increaseDynamic mrd2) mrd2 type).trans
        (increaseDynamic_drift hfound type))
      ((reduceDynamic_processors _ _).trans hprocessors)
    obtain ⟨totals', he⟩ := reduceDynamic_of_found hfound'
    rw [he] at htotals ⊢
    rw [← returnsMemory_iff rfl (by rw [hincreased]), and_iff_right hfound]
    constructor
    · exact fun h => congrArg memorySize h
    · intro hmemory
      rw [hmemory, hprocessors, show totals' = requirement.totalComputingUnits from htotals, hincreased]
  · refine iff_of_false (fun h => ?_) fun h => hfound h.1
    have hprocessors := congrArg processors h
    rw [reduceDynamic_processors, increaseDynamic_processors, takeAll_giveAll_eq_iff] at hprocessors
    exact hfound hprocessors

end MethodResourceDescription

/-! ## The query -/

namespace DynamicMethodWorker

open MethodResourceDescription

/-- A query, which only reads the worker, leaves the requirements as they were,
and answers the same when asked again, exactly when each pending processor is
matched with one that is required, and the memory returns. -/
theorem hasAvailable_unchanged_iff (w : DynamicMethodWorker φ) (requirement : MethodResourceDescription φ) :
    ((w.hasAvailable requirement).2 = requirement ∧
      (w.hasAvailable (w.hasAvailable requirement).2).1 = (w.hasAvailable requirement).1) ↔
      Found requirement.processors w.toRemove.processors ∧ ReturnsMemory requirement w.toRemove := by
  rw [← reduceDynamic_increaseDynamic_eq_iff]
  exact ⟨fun h => h.1, fun h => ⟨h, congrArg (fun d => (w.hasAvailable d).1) h⟩⟩

/-- A worker of two CPU units and one of a GPU: a task takes the CPU units, and
a reduction by a unit of each is pending. -/
def pendingGpu : DynamicMethodWorker Int :=
  let cpu (cu : Int) := MethodResourceDescription.new.addProcessor (WorkerRun.named "cpu" cu)
  let gpu : Processor Int := { WorkerRun.named "gpu" 1 with type := "GPU" }
  let w := (DynamicMethodWorker.new ((cpu 2).addProcessor gpu) fun _ => 2).runTask (cpu 2)
  w.1.applyReduction ((cpu 1).addProcessor gpu)

/-- Requirements of a CPU unit are left with a GPU as well. -/
theorem hasAvailable_adds_processor :
    ¬ ∀ (w : DynamicMethodWorker Int) (requirement : MethodResourceDescription Int),
      (w.hasAvailable requirement).2 = requirement ∧
        (w.hasAvailable (w.hasAvailable requirement).2).1 = (w.hasAvailable requirement).1 := by
  intro h
  have hleft := (h pendingGpu (MethodResourceDescription.new.addProcessor (WorkerRun.named "cpu" 1))).1
  have htypes : ["CPU", "GPU"] = ["CPU"] := congrArg (fun d => d.processors.map Processor.type) hleft
  exact absurd htypes (by decide)

end DynamicMethodWorker

end Compss.Resources
