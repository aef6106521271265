/-
What a reservation takes from each processor of a worker, and what a release
gives back to it.

`reduceDynamic` takes each processor asked for from the first compatible one,
whatever its units, and `increaseDynamic` gives each back in the same way: the
whole of a call is told by the place (`slot`) each processor is matched with.
`containsDynamic` asks instead, for each processor apart, whether some
compatible one has the units.
-/
import Compss.Resources.DynamicMethodWorker

namespace Compss.Resources

variable {φ : Type}

section
variable [JavaFloat φ] {p : Processor φ} {ps qs asked : List (Processor φ)} {change : Processor φ → Processor φ} {i : Nat}

/-- The place of the first compatible processor; past the end when there is none. -/
def slot (p : Processor φ) (ps : List (Processor φ)) : Nat := ps.findIdx fun q => checkProcessorCompatibility q p

/-- The units asked for that are matched with the processor at a place. -/
def demand (ps asked : List (Processor φ)) (i : Nat) : Int :=
  (asked.map fun p => if slot p ps = i then p.computingUnits else 0).sum

/-- The processors asked for ahead of the first that has no compatible one. -/
def served (ps asked : List (Processor φ)) : List (Processor φ) :=
  asked.takeWhile fun p => (firstCompatible p ps).isSome

/-- The units taken that are matched, on their way back, with the processor at
a place: what is given back is described by the processor it was taken from. -/
def returned (ps asked : List (Processor φ)) (i : Nat) : Int :=
  demand ps (asked.map fun p => (matched p ps).setComputingUnits p.computingUnits) i

/-! ## Places -/

theorem slot_shape (h : ps.map Processor.shape = qs.map Processor.shape) : slot p ps = slot p qs := by
  have hmap : ∀ l : List (Processor φ), slot p (l.map Processor.shape) = slot p l := by
    intro l
    simp only [slot, List.findIdx_map]
    rfl
  rw [← hmap ps, ← hmap qs, h]

theorem firstCompatible_eq : firstCompatible p ps = ps[slot p ps]? := by
  induction ps with
  | nil => rfl
  | cons q ps ih =>
    rw [firstCompatible, slot, List.find?_cons, List.findIdx_cons]
    cases checkProcessorCompatibility q p with
    | true => rfl
    | false => simpa [firstCompatible, slot] using ih

theorem changeFirst_eq :
    changeFirst p change ps = (ps[slot p ps]?).map fun q => (q, ps.modify (slot p ps) change) := by
  induction ps with
  | nil => rfl
  | cons q ps ih =>
    rw [changeFirst, slot, List.findIdx_cons]
    cases checkProcessorCompatibility q p with
    | true => rfl
    | false =>
      rw [if_neg Bool.false_ne_true, ih]
      simp [slot, Option.map_map, Function.comp_def]

theorem demand_cons (p : Processor φ) :
    demand ps (p :: asked) i = (if slot p ps = i then p.computingUnits else 0) + demand ps asked i := by
  simp [demand]

theorem demand_shape (h : ps.map Processor.shape = qs.map Processor.shape) : demand ps asked i = demand qs asked i := by
  simp only [demand, slot_shape h]

theorem served_shape (h : ps.map Processor.shape = qs.map Processor.shape) : served ps asked = served qs asked := by
  unfold served
  congr 1
  funext p
  rw [← Option.isSome_map (f := Processor.shape), firstCompatible_shape h, Option.isSome_map]

theorem served_of_found (h : Found ps asked) : served ps asked = asked := List.takeWhile_eq_self_iff.mpr h

/-- A list whose members changed their units only. -/
theorem shape_eq (h : ∀ i : Nat, qs[i]? = (ps[i]?).map change) (hchange : ∀ q, (change q).shape = q.shape) :
    qs.map Processor.shape = ps.map Processor.shape := by
  refine List.ext_getElem? fun i => ?_
  rw [List.getElem?_map, List.getElem?_map, h i, Option.map_map]
  congr 1
  funext q
  exact hchange q

/-! ## What is taken and given at each place -/

/-- A reservation takes at each place what is asked for there. -/
theorem takeAll_getElem? : ∀ (asked ps : List (Processor φ)) (i : Nat),
    (takeAll ps asked)[i]? = (ps[i]?).map (·.removeComputingUnits (demand ps (served ps asked) i))
  | [], ps, i => by simp [takeAll, served, demand, Processor.removeComputingUnits]
  | p :: asked, ps, i => by
    rw [takeAll, served, List.takeWhile_cons, changeFirst_eq, firstCompatible_eq]
    cases hq : ps[slot p ps]? with
    | none => simp [demand, Processor.removeComputingUnits]
    | some q =>
      have hs : (ps.modify (slot p ps) (·.removeComputingUnits p.computingUnits)).map Processor.shape =
          ps.map Processor.shape := by
        have hchange : changeFirst p (·.removeComputingUnits p.computingUnits) ps =
            some (q, ps.modify (slot p ps) (·.removeComputingUnits p.computingUnits)) := by
          rw [changeFirst_eq, hq]
          rfl
        exact shape_changeFirst hchange rfl
      simp only [Option.map_some, Option.isSome_some, if_true]
      rw [takeAll_getElem? asked, served_shape hs, demand_shape hs, demand_cons, List.getElem?_modify,
        Option.map_eq_map, Option.map_map]
      congr 1
      funext r
      simp only [Function.comp_apply, served, Processor.removeComputingUnits]
      split
      · congr 1
        dsimp only
        omega
      · congr 1
        omega

/-- Giving to processors that are found gives at each place what is given there. -/
theorem giveAll_getElem? : ∀ (given ps : List (Processor φ)) (i : Nat), Found ps given →
    (given.foldl give ps)[i]? = (ps[i]?).map (·.addComputingUnits (demand ps given i))
  | [], ps, i, _ => by simp [demand, Processor.addComputingUnits]
  | p :: given, ps, i, hfound => by
    obtain ⟨q, hq⟩ := Option.isSome_iff_exists.mp (hfound p List.mem_cons_self)
    rw [firstCompatible_eq] at hq
    have hchange : changeFirst p (·.addComputingUnits p.computingUnits) ps =
        some (q, ps.modify (slot p ps) (·.addComputingUnits p.computingUnits)) := by
      rw [changeFirst_eq, hq]
      rfl
    have hs := shape_changeFirst hchange rfl
    have hgive : give ps p = ps.modify (slot p ps) (·.addComputingUnits p.computingUnits) := by
      rw [give, hchange]
    have hrest : Found ps given := fun r hr => hfound r (List.mem_cons_of_mem p hr)
    rw [List.foldl_cons, hgive, giveAll_getElem? given _ i (hrest.shape hs.symm), demand_shape hs, demand_cons,
      List.getElem?_modify, Option.map_eq_map, Option.map_map]
    congr 1
    funext r
    simp only [Function.comp_apply, Processor.addComputingUnits]
    split
    · congr 1
      dsimp only
      omega
    · congr 1
      omega

end

namespace MethodResourceDescription

section
variable [JavaFloat φ] {d host req r : MethodResourceDescription φ}

/-! ## The totals -/

/-- What a total counts besides the units of its processors. -/
def drift (d : MethodResourceDescription φ) (type : ProcessorType) : Int :=
  d.totalComputingUnits type - units type d.processors

/-- Units are taken from a processor and from the total of its type alike. -/
theorem reduceProcessors_drift (type : ProcessorType) : ∀ (asked : List (Processor φ))
    (d reduced : MethodResourceDescription φ), drift (reduceProcessors d reduced asked).1 type = drift d type
  | [], d, reduced => rfl
  | p :: asked, d, reduced => by
    rw [reduceProcessors]
    cases hp : changeFirst p (·.removeComputingUnits p.computingUnits) d.processors with
    | none => rfl
    | some found =>
      obtain ⟨pThis, processors⟩ := found
      have hu := units_changeFirst hp rfl type
      dsimp only
      rw [reduceProcessors_drift type asked]
      simp only [drift, decreaseComputingUnits, Function.update_apply, Processor.removeComputingUnits] at hu ⊢
      rw [show ProcessorType.of pThis.type = pThis.countedType from rfl]
      by_cases ht : pThis.countedType = type
      · rw [if_pos ht] at hu
        rw [if_pos ht.symm, ht, hu]
        omega
      · rw [if_neg ht] at hu
        rw [if_neg (Ne.symm ht), hu]
        omega

theorem reduceDynamic_drift (d mrd2 : MethodResourceDescription φ) (type : ProcessorType) :
    drift (d.reduceDynamic mrd2).1 type = drift d type := by
  rw [← reduceProcessors_drift type mrd2.processors d new, reduceDynamic]
  split
  · next he => rw [he]
  · next he =>
    rw [he]
    split
    · split <;> rfl
    · rfl

theorem increaseProcessor_drift {p : Processor φ} (hp : (firstCompatible p d.processors).isSome = true)
    (type : ProcessorType) : drift (d.increaseProcessor p) type = drift d type := by
  rw [increaseProcessor]
  cases hc : changeFirst p (·.addComputingUnits p.computingUnits) d.processors with
  | none =>
    rw [changeFirst_none.mp hc] at hp
    cases hp
  | some found =>
    obtain ⟨pThis, processors⟩ := found
    have hu := units_changeFirst hc rfl type
    simp only [drift, increaseComputingUnits, Function.update_apply, Processor.addComputingUnits] at hu ⊢
    rw [show ProcessorType.of pThis.type = pThis.countedType from rfl]
    by_cases ht : pThis.countedType = type
    · rw [if_pos ht] at hu
      rw [if_pos ht.symm, ht, hu]
      omega
    · rw [if_neg ht] at hu
      rw [if_neg (Ne.symm ht), hu]
      omega

theorem foldl_increaseProcessor_drift (type : ProcessorType) : ∀ (given : List (Processor φ))
    (d : MethodResourceDescription φ), Found d.processors given →
    drift (given.foldl increaseProcessor d) type = drift d type
  | [], d, _ => rfl
  | p :: given, d, hfound => by
    have hp := hfound p List.mem_cons_self
    have hshape : d.processors.map Processor.shape = (d.increaseProcessor p).processors.map Processor.shape := by
      rw [increaseProcessor_processors, give]
      cases hc : changeFirst p (·.addComputingUnits p.computingUnits) d.processors with
      | none =>
        rw [changeFirst_none.mp hc] at hp
        cases hp
      | some found => exact (shape_changeFirst hc rfl).symm
    have hrest : Found (d.increaseProcessor p).processors given :=
      Found.shape (fun q hq => hfound q (List.mem_cons_of_mem p hq)) hshape
    rw [List.foldl_cons, foldl_increaseProcessor_drift type given _ hrest, increaseProcessor_drift hp]

theorem increaseDynamic_drift {mrd2 : MethodResourceDescription φ} (hfound : Found d.processors mrd2.processors)
    (type : ProcessorType) : drift (d.increaseDynamic mrd2) type = drift d type := by
  rw [← foldl_increaseProcessor_drift type mrd2.processors d hfound, increaseDynamic]
  split <;> rfl

/-- With the processors as they were, the totals are as they were. -/
theorem totals_of_drift (hd : ∀ type, drift r type = drift d type) (hp : r.processors = d.processors) :
    r.totalComputingUnits = d.totalComputingUnits := by
  funext type
  have := hd type
  simp only [drift, hp] at this
  omega

/-! ## A call of `reduceDynamic` -/

/-- The processors and their totals are all it touches. -/
theorem reduceProcessors_rest : ∀ (asked : List (Processor φ)) (d reduced : MethodResourceDescription φ),
    ∃ processors totals, (reduceProcessors d reduced asked).1 =
      { d with processors := processors, totalComputingUnits := totals }
  | [], d, reduced => ⟨_, _, rfl⟩
  | p :: asked, d, reduced => by
    rw [reduceProcessors]
    cases changeFirst p (·.removeComputingUnits p.computingUnits) d.processors with
    | none => exact ⟨_, _, rfl⟩
    | some found =>
      obtain ⟨processors, totals, h⟩ := reduceProcessors_rest asked
        ({ d with processors := found.2 }.decreaseComputingUnits found.1.type p.computingUnits)
        (reduced.addProcessor (found.1.setComputingUnits p.computingUnits))
      exact ⟨processors, totals, h⟩

theorem reduceProcessors_found : ∀ (asked : List (Processor φ)) (d reduced : MethodResourceDescription φ),
    Found d.processors asked → ∃ r, (reduceProcessors d reduced asked).2 = some r
  | [], _, reduced, _ => ⟨reduced, rfl⟩
  | p :: asked, d, reduced, hfound => by
    rw [reduceProcessors]
    cases hp : changeFirst p (·.removeComputingUnits p.computingUnits) d.processors with
    | none =>
      have := hfound p List.mem_cons_self
      rw [changeFirst_none.mp hp] at this
      cases this
    | some found =>
      refine reduceProcessors_found asked _ _ ?_
      exact Found.shape (fun q hq => hfound q (List.mem_cons_of_mem p hq)) (shape_changeFirst hp rfl).symm

/-- The memory a reservation leaves. -/
def memoryLeft (host req : MethodResourceDescription φ) : φ :=
  if JavaFloat.eq req.memorySize JavaFloat.unassigned || JavaFloat.eq host.memorySize JavaFloat.unassigned then
    host.memorySize
  else JavaFloat.sub host.memorySize req.memorySize

/-- The memory a reservation answers with: nothing is answered for none, or for
an amount below it. -/
def memoryTaken (host req : MethodResourceDescription φ) : φ :=
  if JavaFloat.eq req.memorySize JavaFloat.unassigned || JavaFloat.eq host.memorySize JavaFloat.unassigned then
    JavaFloat.unassigned
  else if JavaFloat.gt req.memorySize JavaFloat.zero then req.memorySize
  else JavaFloat.unassigned

/-- Accepted, it has taken all it was asked for. -/
theorem reduceDynamic_accepted (hfound : Found host.processors req.processors) (hm : host.checkMemory req = true) :
    ∃ totals r, host.reduceDynamic req =
        ({ host with
            processors := takeAll host.processors req.processors, totalComputingUnits := totals,
            memorySize := memoryLeft host req }, some r) ∧
      r.processors = req.processors.map (fun p => (matched p host.processors).setComputingUnits p.computingUnits) ∧
      r.memorySize = memoryTaken host req := by
  obtain ⟨reduced, hr⟩ := reduceProcessors_found req.processors host new hfound
  obtain ⟨hprocessors, -, htaken⟩ := reduceProcessors_processors req.processors host new
  obtain ⟨processors, totals, hrest⟩ := reduceProcessors_rest req.processors host new
  obtain ⟨-, hreduced⟩ := htaken reduced hr
  rw [hrest] at hprocessors
  have hpair : reduceProcessors host new req.processors =
      ({ host with processors := takeAll host.processors req.processors, totalComputingUnits := totals }, some reduced) := by
    rw [← hprocessors, ← hrest, ← hr]
  have hps : reduced.processors =
      req.processors.map fun p => (matched p host.processors).setComputingUnits p.computingUnits := by
    rw [hreduced, foldl_addProcessor_processors]
    rfl
  have hmem : reduced.memorySize = JavaFloat.unassigned := by
    rw [hreduced, foldl_addProcessor_memorySize]
    rfl
  have hset : ∀ m : φ, ((reduced.setMemoryType host.memoryType).setMemorySize m).memorySize =
      if JavaFloat.gt m JavaFloat.zero then m else JavaFloat.unassigned := by
    intro m
    rw [setMemorySize]
    split
    · rfl
    · rw [setMemoryType_memorySize, hmem]
  rw [reduceDynamic, hpair]
  dsimp only
  unfold memoryLeft memoryTaken
  split
  · split
    · refine ⟨totals, _, rfl, by simpa using hps, ?_⟩
      rw [hset]
      split <;> rfl
    · exact ⟨totals, _, rfl, by simpa using hps, hset _⟩
  · next hc => exact absurd hm hc

/-- Rejected, it leaves what it had taken until then taken. -/
theorem reduceDynamic_rejected (h : (host.reduceDynamic req).2 = none) :
    ∃ totals, (host.reduceDynamic req).1 =
      { host with processors := takeAll host.processors req.processors, totalComputingUnits := totals } := by
  have hprocessors := reduceDynamic_processors host req
  obtain ⟨processors, totals, hrest⟩ := reduceProcessors_rest req.processors host new
  suffices hsame : (host.reduceDynamic req).1 = (reduceProcessors host new req.processors).1 by
    rw [hsame, hrest] at hprocessors
    rw [hsame, hrest, ← hprocessors]
    exact ⟨totals, rfl⟩
  rw [reduceDynamic] at h ⊢
  split
  · next he => rw [he]
  · next he =>
    rw [he] at h ⊢
    dsimp only at h ⊢
    split at h
    · split at h <;> cases h
    · next hc => rw [if_neg hc]

theorem containsDynamic_found (h : host.containsDynamic req = true) : Found host.processors req.processors := by
  simp only [containsDynamic, checkProcessors, checkProcessor, Bool.and_eq_true, List.all_eq_true,
    List.any_eq_true] at h
  intro p hp
  obtain ⟨q, hq, hc⟩ := h.1 p hp
  simp only [checkProcessorContains, Bool.and_eq_true] at hc
  exact List.find?_isSome.mpr ⟨q, hq, hc.1⟩

theorem containsDynamic_memory (h : host.containsDynamic req = true) : host.checkMemory req = true :=
  (Bool.and_eq_true _ _ ▸ h).2

/-! ## What is admitted -/

/-- Each processor has the units that are matched with it, and a memory that is
not asked about is one. -/
def Affords (host req : MethodResourceDescription φ) : Prop :=
  (∀ i q, host.processors[i]? = some q → demand host.processors req.processors i ≤ q.computingUnits) ∧
    (JavaFloat.eq req.memorySize JavaFloat.unassigned = true → SaneMemory host.memorySize)

theorem takeAll_nonneg_iff {ps asked : List (Processor φ)} (hfound : Found ps asked) :
    (∀ q ∈ takeAll ps asked, 0 ≤ q.computingUnits) ↔
      ∀ i q, ps[i]? = some q → demand ps asked i ≤ q.computingUnits := by
  constructor
  · intro h i q hq
    have htaken := takeAll_getElem? asked ps i
    rw [served_of_found hfound, hq, Option.map_some] at htaken
    have := h _ (List.mem_of_getElem? htaken)
    simp only [Processor.removeComputingUnits] at this
    omega
  · intro h q hq
    obtain ⟨i, hi⟩ := List.getElem?_of_mem hq
    rw [takeAll_getElem?, served_of_found hfound] at hi
    obtain ⟨q', hq', rfl⟩ := Option.map_eq_some_iff.mp hi
    have := h i q' hq'
    simp only [Processor.removeComputingUnits]
    omega

theorem memoryLeft_sane_iff [LawfulJavaFloat φ] (hm : host.checkMemory req = true) :
    SaneMemory (memoryLeft host req) ↔
      (JavaFloat.eq req.memorySize JavaFloat.unassigned = true → SaneMemory host.memorySize) := by
  unfold memoryLeft
  cases hreq : JavaFloat.eq req.memorySize JavaFloat.unassigned with
  | true => simp
  | false =>
    cases hhost : JavaFloat.eq host.memorySize JavaFloat.unassigned with
    | true => simpa using! Or.inl hhost
    | false =>
      -- both sizes are assigned, so that the check compared them
      simp only [checkMemory, checkInclusionFloat, hreq, hhost, Bool.or_false, Bool.and_eq_true] at hm
      simpa using! Or.inr (LawfulJavaFloat.sub_nonneg _ _ hm.1)

/-- What `containsDynamic` admits is reserved, and leaves no negative amount
exactly when the processors it is matched with have the units. -/
theorem reduceDynamic_valid_iff [LawfulJavaFloat φ] (h : host.containsDynamic req = true) :
    ((host.reduceDynamic req).2.isSome = true ∧
      (∀ q ∈ (host.reduceDynamic req).1.processors, 0 ≤ q.computingUnits) ∧
      SaneMemory (host.reduceDynamic req).1.memorySize) ↔ Affords host req := by
  have hfound := containsDynamic_found h
  have hm := containsDynamic_memory h
  obtain ⟨totals, r, he, -, -⟩ := reduceDynamic_accepted hfound hm
  rw [he]
  have hunits := takeAll_nonneg_iff hfound
  have hmemory := memoryLeft_sane_iff hm
  constructor
  · rintro ⟨-, hps, hsane⟩
    exact ⟨hunits.mp hps, hmemory.mp hsane⟩
  · rintro ⟨hps, hsane⟩
    exact ⟨rfl, hunits.mpr hps, hmemory.mpr hsane⟩

/-- A worker with a processor of one unit and one of four. -/
def smallFirst : MethodResourceDescription Int :=
  (new.addProcessor (WorkerRun.named "A" 1)).addProcessor (WorkerRun.named "B" 4)

theorem reduceDynamic_valid_iff_one :
    ((smallFirst.reduceDynamic (WorkerRun.anyProcessor 1)).2.isSome = true ∧
      (∀ q ∈ (smallFirst.reduceDynamic (WorkerRun.anyProcessor 1)).1.processors, 0 ≤ q.computingUnits) ∧
      SaneMemory (smallFirst.reduceDynamic (WorkerRun.anyProcessor 1)).1.memorySize) ↔ Affords smallFirst (WorkerRun.anyProcessor 1) :=
  reduceDynamic_valid_iff rfl

/-- The second processor has the two units, and the first one is charged. -/
theorem smallFirst_overdrawn :
    ¬ ∀ host req : MethodResourceDescription Int, host.containsDynamic req = true →
      (host.reduceDynamic req).2.isSome = true ∧
        (∀ q ∈ (host.reduceDynamic req).1.processors, 0 ≤ q.computingUnits) ∧
        SaneMemory (host.reduceDynamic req).1.memorySize := by
  intro h
  have hneg : (0 : Int) ≤ -1 := (h smallFirst (WorkerRun.anyProcessor 2) rfl).2.1 _ List.mem_cons_self
  exact absurd hneg (by decide)

/-! ## What is rejected -/

/-- A processor that is found is matched with one of the list. -/
theorem demand_eq_zero {ps asked : List (Processor φ)} {i : Nat} (hfound : Found ps asked) (hi : ps[i]? = none) :
    demand ps asked i = 0 := by
  refine List.sum_eq_zero fun n hn => ?_
  obtain ⟨p, hp, rfl⟩ := List.mem_map.mp hn
  have hsome := hfound p hp
  rw [if_neg]
  intro hslot
  rw [firstCompatible_eq, hslot, hi] at hsome
  cases hsome

theorem served_found (ps asked : List (Processor φ)) : Found ps (served ps asked) := fun _ hp =>
  List.mem_takeWhile_imp (p := fun p => (firstCompatible p ps).isSome) hp

theorem takeAll_eq_iff {ps asked : List (Processor φ)} :
    takeAll ps asked = ps ↔ ∀ i, demand ps (served ps asked) i = 0 := by
  constructor
  · intro h i
    cases hq : ps[i]? with
    | some q =>
      have htaken := takeAll_getElem? asked ps i
      rw [h, hq, Option.map_some] at htaken
      have := congrArg Processor.computingUnits (Option.some.inj htaken)
      simp only [Processor.removeComputingUnits] at this
      omega
    | none => exact demand_eq_zero (served_found ps asked) hq
  · intro h
    refine List.ext_getElem? fun i => ?_
    rw [takeAll_getElem?, h i]
    simp [Processor.removeComputingUnits]

/-- A call that is rejected leaves the worker as it was exactly when nothing is
asked of any processor ahead of the first one that is not found. -/
theorem reduceDynamic_unchanged_iff (h : (host.reduceDynamic req).2 = none) :
    (host.reduceDynamic req).1 = host ↔
      ∀ i, demand host.processors (served host.processors req.processors) i = 0 := by
  rw [← takeAll_eq_iff]
  constructor
  · intro he
    rw [← reduceDynamic_processors, he]
  · intro hps
    have htotals := totals_of_drift (reduceDynamic_drift host req) (by rw [reduceDynamic_processors, hps])
    obtain ⟨totals, he⟩ := reduceDynamic_rejected h
    rw [he] at htotals ⊢
    rw [hps, show totals = host.totalComputingUnits from htotals]

/-- A processor the worker does not have. -/
def missing : MethodResourceDescription Int := new.addProcessor (WorkerRun.named "C" 1)

theorem reduceDynamic_unchanged_iff_missing :
    (smallFirst.reduceDynamic missing).1 = smallFirst ↔
      ∀ i, demand smallFirst.processors (served smallFirst.processors missing.processors) i = 0 :=
  reduceDynamic_unchanged_iff rfl

/-- The first processor asked for is taken before the second is not found. -/
theorem missing_taken : ¬ ∀ host req : MethodResourceDescription Int, (host.reduceDynamic req).2 = none →
    (host.reduceDynamic req).1 = host := by
  intro h
  have he := h smallFirst ((new.addProcessor (WorkerRun.named "A" 1)).addProcessor (WorkerRun.named "C" 1)) rfl
  have hunits : [(0 : Int), 4] = [1, 4] := congrArg (fun d => d.processors.map Processor.computingUnits) he
  exact absurd hunits (by decide)

/-! ## What is released -/

/-- The arithmetic of the memory gives back what it takes: an amount that is
not positive is not given back. -/
def RestoresMemory (host req : MethodResourceDescription φ) : Prop :=
  JavaFloat.eq req.memorySize JavaFloat.unassigned = true ∨ JavaFloat.eq host.memorySize JavaFloat.unassigned = true ∨
    if JavaFloat.gt req.memorySize JavaFloat.zero then
      JavaFloat.add (JavaFloat.sub host.memorySize req.memorySize) req.memorySize = host.memorySize
    else JavaFloat.sub host.memorySize req.memorySize = host.memorySize

theorem increaseDynamic_memorySize (d mrd2 : MethodResourceDescription φ) :
    (d.increaseDynamic mrd2).memorySize =
      if !JavaFloat.eq d.memorySize JavaFloat.unassigned && !JavaFloat.eq mrd2.memorySize JavaFloat.unassigned then
        JavaFloat.add d.memorySize mrd2.memorySize
      else d.memorySize := by
  rw [← foldl_increaseProcessor_memorySize mrd2.processors d, increaseDynamic]
  split <;> rfl

/-- What is left is not negative, and hence assigned. -/
theorem memory_restored_iff [LawfulJavaFloat φ]
    (hnegative : ∀ x : φ, JavaFloat.ge x JavaFloat.zero = true → JavaFloat.eq x JavaFloat.unassigned = false)
    (hm : host.checkMemory req = true) :
    (if !JavaFloat.eq (memoryLeft host req) JavaFloat.unassigned &&
        !JavaFloat.eq (memoryTaken host req) JavaFloat.unassigned then
      JavaFloat.add (memoryLeft host req) (memoryTaken host req)
    else memoryLeft host req) = host.memorySize ↔ RestoresMemory host req := by
  unfold RestoresMemory memoryLeft memoryTaken
  cases hreq : JavaFloat.eq req.memorySize JavaFloat.unassigned with
  | true => simp [LawfulJavaFloat.eq_unassigned]
  | false =>
    cases hhost : JavaFloat.eq host.memorySize JavaFloat.unassigned with
    | true => simp [LawfulJavaFloat.eq_unassigned]
    | false =>
      simp only [checkMemory, checkInclusionFloat, hreq, hhost, Bool.or_false, Bool.and_eq_true] at hm
      have hleft := hnegative _ (LawfulJavaFloat.sub_nonneg _ _ hm.1)
      cases hgt : JavaFloat.gt req.memorySize JavaFloat.zero with
      | true => simp [hleft, hreq]
      | false => simp [LawfulJavaFloat.eq_unassigned]

/-- Each processor is given the units that were taken from it. -/
def Returns (host req : MethodResourceDescription φ) : Prop :=
  ∀ i, returned host.processors req.processors i = demand host.processors req.processors i

/-- What was taken is compatible with the processor it was taken from. -/
theorem found_taken [LawfulJavaFloat φ] {ps asked : List (Processor φ)} (hfound : Found ps asked) :
    Found ps (asked.map fun p => (matched p ps).setComputingUnits p.computingUnits) := by
  intro q hq
  obtain ⟨p, hp, rfl⟩ := List.mem_map.mp hq
  obtain ⟨r, hr⟩ := Option.isSome_iff_exists.mp (hfound p hp)
  rw [matched, hr, Option.getD_some]
  exact List.find?_isSome.mpr ⟨r, List.mem_of_find?_eq_some hr, compatible_self r⟩

theorem takeAll_shape {ps asked : List (Processor φ)} :
    (takeAll ps asked).map Processor.shape = ps.map Processor.shape := by
  refine List.ext_getElem? fun i => ?_
  rw [List.getElem?_map, takeAll_getElem?, List.getElem?_map, Option.map_map]
  rfl

theorem give_takeAll_eq_iff [LawfulJavaFloat φ] {ps asked : List (Processor φ)} (hfound : Found ps asked) :
    (asked.map fun p => (matched p ps).setComputingUnits p.computingUnits).foldl give (takeAll ps asked) = ps ↔
      ∀ i, returned ps asked i = demand ps asked i := by
  have hget : ∀ i : Nat, ((asked.map fun p => (matched p ps).setComputingUnits p.computingUnits).foldl give
      (takeAll ps asked))[i]? =
      (ps[i]?).map fun q => q.setComputingUnits (q.computingUnits - demand ps asked i + returned ps asked i) := by
    intro i
    rw [giveAll_getElem? _ _ i ((found_taken hfound).shape takeAll_shape.symm), takeAll_getElem?,
      served_of_found hfound, demand_shape takeAll_shape, Option.map_map]
    rfl
  constructor
  · intro h i
    cases hq : ps[i]? with
    | some q =>
      have hi := hget i
      rw [h, hq, Option.map_some] at hi
      have := congrArg Processor.computingUnits (Option.some.inj hi)
      simp only [Processor.setComputingUnits] at this
      omega
    | none => rw [returned, demand_eq_zero (found_taken hfound) hq, demand_eq_zero hfound hq]
  · intro h
    refine List.ext_getElem? fun i => ?_
    rw [hget, h i]
    simp [Processor.setComputingUnits]

/-- Releasing what was reserved gives the processors, the totals and the memory
back exactly when what was taken from a processor is matched with it again, and
the memory adds up. -/
theorem increaseDynamic_restores_iff [LawfulJavaFloat φ]
    (hnegative : ∀ x : φ, JavaFloat.ge x JavaFloat.zero = true → JavaFloat.eq x JavaFloat.unassigned = false)
    (h : host.containsDynamic req = true) (hr : (host.reduceDynamic req).2 = some r) :
    (((host.reduceDynamic req).1.increaseDynamic r).processors = host.processors ∧
      ((host.reduceDynamic req).1.increaseDynamic r).totalComputingUnits = host.totalComputingUnits ∧
      ((host.reduceDynamic req).1.increaseDynamic r).memorySize = host.memorySize) ↔
      Returns host req ∧ RestoresMemory host req := by
  have hfound := containsDynamic_found h
  have hm := containsDynamic_memory h
  obtain ⟨totals, r', he, hprocessors, hmemory⟩ := reduceDynamic_accepted hfound hm
  obtain rfl : r' = r := Option.some.inj ((congrArg Prod.snd he).symm.trans hr)
  have hps : ((host.reduceDynamic req).1.increaseDynamic r').processors = host.processors ↔ Returns host req := by
    rw [increaseDynamic_processors, reduceDynamic_processors, hprocessors]
    exact give_takeAll_eq_iff hfound
  have htotals : ((host.reduceDynamic req).1.increaseDynamic r').processors = host.processors →
      ((host.reduceDynamic req).1.increaseDynamic r').totalComputingUnits = host.totalComputingUnits := by
    refine totals_of_drift fun type => ?_
    rw [increaseDynamic_drift, reduceDynamic_drift]
    rw [reduceDynamic_processors, hprocessors]
    exact (found_taken hfound).shape takeAll_shape.symm
  have hmem : ((host.reduceDynamic req).1.increaseDynamic r').memorySize = host.memorySize ↔ RestoresMemory host req := by
    rw [he, increaseDynamic_memorySize, hmemory]
    exact memory_restored_iff hnegative hm
  rw [hps, hmem]
  constructor
  · rintro ⟨hp, -, hmem⟩
    exact ⟨hp, hmem⟩
  · rintro ⟨hp, hmem⟩
    exact ⟨hp, htotals (hps.mpr hp), hmem⟩

/-- A worker with a processor named "A", and one without a name. -/
def secondAny : MethodResourceDescription Int :=
  (new.addProcessor (WorkerRun.named "A" 1)).addProcessor (WorkerRun.named unassignedStr 4)

theorem increaseDynamic_restores_iff_one :
    (((secondAny.reduceDynamic missing).1.increaseDynamic (WorkerRun.anyProcessor 1)).processors = secondAny.processors ∧
      ((secondAny.reduceDynamic missing).1.increaseDynamic (WorkerRun.anyProcessor 1)).totalComputingUnits =
        secondAny.totalComputingUnits ∧
      ((secondAny.reduceDynamic missing).1.increaseDynamic (WorkerRun.anyProcessor 1)).memorySize =
        secondAny.memorySize) ↔ Returns secondAny missing ∧ RestoresMemory secondAny missing :=
  increaseDynamic_restores_iff (fun x hx => decide_eq_false fun he => absurd (of_decide_eq_true hx) (he ▸ by decide))
    rfl rfl

/-- A unit for "C" is taken from the processor without a name, and given back to
the one named "A". -/
theorem secondAny_misplaced :
    ¬ ∀ host req r : MethodResourceDescription Int, host.containsDynamic req = true →
      (host.reduceDynamic req).2 = some r →
      ((host.reduceDynamic req).1.increaseDynamic r).processors = host.processors ∧
        ((host.reduceDynamic req).1.increaseDynamic r).totalComputingUnits = host.totalComputingUnits ∧
        ((host.reduceDynamic req).1.increaseDynamic r).memorySize = host.memorySize := by
  intro h
  have he := (h secondAny missing (WorkerRun.anyProcessor 1) rfl rfl).1
  have hunits : [(2 : Int), 3] = [1, 4] := congrArg (fun ps => ps.map Processor.computingUnits) he
  exact absurd hunits (by decide)

end

end MethodResourceDescription

end Compss.Resources
