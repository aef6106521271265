/-
A worker that grows by a description (`increase`) and shrinks by it again
(`reduce`): what it offers then, and offered before.

Units, memory and instances are added and taken. The storage grows to the larger
of the two sizes and shrinks to the smaller; software and queues are joined,
and then all of the description's are removed, also those the worker had;
what was not assigned stays as it has been filled in. A processor that is new
stays too, without units. `increase_reduce_iff` says when nothing of it matters.
-/
import Compss.Resources.CloudDescriptions
import Compss.Resources.Reservation

namespace Compss.Resources

variable {φ τ : Type}

section
variable [JavaFloat φ] {p q : Processor φ} {ps qs given : List (Processor φ)} {i : Nat}

/-! ## The processors -/

/-- A place stays the first compatible one when processors are added behind. -/
theorem slot_le (h : ps.map Processor.shape <+: qs.map Processor.shape) (hp : (firstCompatible p ps).isSome = true) :
    slot p qs = slot p ps := by
  obtain ⟨rest, hrest⟩ := h
  obtain ⟨as, bs, rfl, has, -⟩ := List.map_eq_append_iff.mp hrest.symm
  rw [← slot_shape has]
  have hfound : (firstCompatible p as).isSome = true := by
    rwa [← Option.isSome_map (f := Processor.shape), firstCompatible_shape has, Option.isSome_map]
  rw [slot, List.findIdx_append, if_pos (List.findIdx_lt_length.mpr (List.find?_isSome.mp hfound)), ← slot]

/-- What is not among the first processors is behind them. -/
theorem slot_ge (h : ps.map Processor.shape <+: qs.map Processor.shape) (hp : firstCompatible p ps = none) :
    ps.length ≤ slot p qs := by
  obtain ⟨rest, hrest⟩ := h
  obtain ⟨as, bs, rfl, has, -⟩ := List.map_eq_append_iff.mp hrest.symm
  have hlength : as.length = ps.length := by simpa using congrArg List.length has
  have hnone : (firstCompatible p as).map Processor.shape = none := by rw [firstCompatible_shape has, hp, Option.map_none]
  have hfar : ¬ as.findIdx (fun q => checkProcessorCompatibility q p) < as.length := by
    rw [List.findIdx_lt_length, ← List.find?_isSome, ← firstCompatible, Option.map_eq_none_iff.mp hnone]
    exact Bool.false_ne_true
  rw [slot, List.findIdx_append, if_neg hfar, ← hlength]
  exact Nat.le_add_left _ _

/-- The units at a place, and none past the end. -/
def unitsAt (ps : List (Processor φ)) (i : Nat) : Int := (ps[i]?).elim 0 Processor.computingUnits

variable [LawfulJavaFloat φ]

theorem give_unitsAt (ps : List (Processor φ)) (p : Processor φ) (i : Nat) :
    unitsAt (give ps p) i = unitsAt ps i + if slot p (give ps p) = i then p.computingUnits else 0 := by
  cases hfound : ps[slot p ps]? with
  | some q =>
    have hgive : give ps p = ps.modify (slot p ps) (·.addComputingUnits p.computingUnits) := by
      rw [give, changeFirst_eq, hfound]
      rfl
    have hslot : slot p (give ps p) = slot p ps :=
      slot_le (give_shape_le ps p) (by rw [firstCompatible_eq, hfound]; rfl)
    rw [hslot, hgive, unitsAt, List.getElem?_modify, unitsAt]
    by_cases hi : slot p ps = i
    · rw [if_pos hi, ← hi, hfound]
      simp [Processor.addComputingUnits]
    · rw [if_neg hi]
      cases ps[i]? <;> simp [hi]
  | none =>
    have hnone : firstCompatible p ps = none := by rw [firstCompatible_eq, hfound]
    have hgive : give ps p = ps ++ [p] := by rw [give, changeFirst_none.mpr hnone]
    have hslot : slot p (give ps p) = ps.length := by
      have hself : [p].findIdx (fun q => checkProcessorCompatibility q p) = 0 := by
        simp [List.findIdx_cons, compatible_self]
      rw [hgive, slot, List.findIdx_append, if_neg fun hex => ?_, hself, Nat.zero_add]
      rw [List.findIdx_lt_length, ← List.find?_isSome, ← firstCompatible, hnone] at hex
      cases hex
    rw [hslot, hgive, unitsAt, unitsAt, List.getElem?_append]
    by_cases hi : i < ps.length
    · simp [hi, hi.ne']
    · rw [if_neg hi, List.getElem?_eq_none (Nat.le_of_not_lt hi)]
      rcases Nat.eq_or_lt_of_le (Nat.le_of_not_lt hi) with rfl | hlt
      · simp
      · simp [hlt.ne, Nat.sub_ne_zero_of_lt hlt]

/-- What is given is at the place from where it would be taken. -/
theorem giveAll_unitsAt (given ps : List (Processor φ)) (i : Nat) :
    unitsAt (given.foldl give ps) i = unitsAt ps i + demand (given.foldl give ps) given i := by
  induction given generalizing ps with
  | nil => simp [demand]
  | cons p given ih =>
    have hslot : slot p (given.foldl give (give ps p)) = slot p (give ps p) := by
      obtain ⟨r, hr, -⟩ := firstCompatible_give ps p
      exact slot_le (giveAll_shape_le (give ps p) given) (by rw [hr]; rfl)
    rw [List.foldl_cons, ih, give_unitsAt, demand_cons, hslot]
    omega

/-- What is taken leaves at each place the units of before; a new one is left
with none. -/
theorem takeAll_giveAll_unitsAt (hq : (takeAll (given.foldl give ps) given)[i]? = some q) :
    q.computingUnits = unitsAt ps i := by
  rw [takeAll_getElem?, served_of_found (giveAll_units .cpu given ps).1] at hq
  obtain ⟨r, hr, rfl⟩ := Option.map_eq_some_iff.mp hq
  have hunits := giveAll_unitsAt given ps i
  rw [unitsAt, hr, Option.elim_some] at hunits
  rw [Processor.removeComputingUnits, hunits]
  exact Int.add_sub_cancel _ _

omit [LawfulJavaFloat φ] in
theorem giveAll_shape (hfound : Found ps given) :
    (given.foldl give ps).map Processor.shape = ps.map Processor.shape := by
  refine List.ext_getElem? fun i => ?_
  rw [List.getElem?_map, List.getElem?_map, giveAll_getElem? given ps i hfound, Option.map_map]
  rfl

omit [LawfulJavaFloat φ] in
/-- Without a new one nothing has changed. -/
theorem takeAll_giveAll_eq (hfound : Found ps given) : takeAll (given.foldl give ps) given = ps := by
  have hshape := giveAll_shape hfound
  refine List.ext_getElem? fun i => ?_
  rw [takeAll_getElem?, served_of_found (hfound.shape hshape.symm), demand_shape hshape, giveAll_getElem? given ps i hfound,
    Option.map_map]
  cases ps[i]? with
  | none => rfl
  | some q => simp [Processor.addComputingUnits, Processor.removeComputingUnits]

/-- A new processor stays, and is compatible with what asks for no units. -/
theorem exists_new (hp : p ∈ given) (hnone : firstCompatible p ps = none) :
    ∃ q ∈ takeAll (given.foldl give ps) given, checkProcessorCompatibility q p = true ∧ q.computingUnits = 0 := by
  have hfound := (giveAll_units .cpu given ps).1
  obtain ⟨r, hr⟩ := Option.isSome_iff_exists.mp (hfound p hp)
  have hslot := slot_ge (giveAll_shape_le ps given) hnone
  have hcompatible : checkProcessorCompatibility r p = true := by simpa using List.find?_some hr
  rw [firstCompatible_eq] at hr
  have hq := takeAll_getElem? given (given.foldl give ps) (slot p (given.foldl give ps))
  rw [hr, Option.map_some] at hq
  refine ⟨_, List.mem_of_getElem? hq, hcompatible, ?_⟩
  rw [takeAll_giveAll_unitsAt hq, unitsAt, List.getElem?_eq_none hslot]
  rfl

end

namespace MethodResourceDescription

section
variable [JavaFloat φ] {host rd : MethodResourceDescription φ}

/-! ## The other attributes -/

theorem reduceDynamic_rest (d mrd2 : MethodResourceDescription φ) : ∃ processors totals memorySize,
    (d.reduceDynamic mrd2).1 =
      { d with processors := processors, totalComputingUnits := totals, memorySize := memorySize } := by
  obtain ⟨processors, totals, hrest⟩ := reduceProcessors_rest mrd2.processors d new
  rw [reduceDynamic]
  split
  · next d' he =>
    rw [he] at hrest
    exact ⟨processors, totals, d.memorySize, hrest⟩
  · next d' reduced he =>
    rw [he] at hrest
    dsimp only at hrest ⊢
    subst hrest
    split
    · split
      · exact ⟨_, _, _, rfl⟩
      · exact ⟨_, _, _, rfl⟩
    · exact ⟨_, _, _, rfl⟩

theorem increaseDynamic_rest (d mrd2 : MethodResourceDescription φ) : ∃ processors totals counts memorySize,
    d.increaseDynamic mrd2 =
      { d with processors := processors, totalComputingUnits := totals, totalProcessors := counts,
               memorySize := memorySize } := by
  have hloop : ∃ processors totals counts, mrd2.processors.foldl increaseProcessor d =
      { d with processors := processors, totalComputingUnits := totals, totalProcessors := counts } := by
    induction mrd2.processors generalizing d with
    | nil => exact ⟨_, _, _, rfl⟩
    | cons p ps ih =>
      obtain ⟨processors, totals, counts, h⟩ := ih (d.increaseProcessor p)
      rw [List.foldl_cons, h, increaseProcessor]
      split <;> exact ⟨processors, totals, counts, rfl⟩
  obtain ⟨processors, totals, counts, h⟩ := hloop
  rw [increaseDynamic, h]
  split
  · exact ⟨processors, totals, counts, _, rfl⟩
  · exact ⟨processors, totals, counts, _, rfl⟩

/-- What reduces removes, and what increases adds. -/
def addAll (values added : List String) : List String :=
  added.foldl (fun values v => if v ∈ values then values else values ++ [v]) values

/-- `increase` and `reduce`, on the attributes that are no amounts. -/
structure Regrown (host rd d : MethodResourceDescription φ) : Prop where
  memoryType : d.memoryType = host.memoryType
  storageSize : d.storageSize = JavaFloat.min (JavaFloat.max host.storageSize rd.storageSize) rd.storageSize
  storageType : d.storageType = assignString (assignString host.storageType rd.storageType) rd.storageType
  operatingSystemType : d.operatingSystemType =
    assignString (assignString host.operatingSystemType rd.operatingSystemType) rd.operatingSystemType
  operatingSystemDistribution : d.operatingSystemDistribution =
    assignString (assignString host.operatingSystemDistribution rd.operatingSystemDistribution)
      rd.operatingSystemDistribution
  operatingSystemVersion : d.operatingSystemVersion =
    if host.operatingSystemVersion = unassignedStr ∧ rd.memoryType ≠ "" then rd.operatingSystemVersion
    else host.operatingSystemVersion
  appSoftware : d.appSoftware = (addAll host.appSoftware rd.appSoftware).diff rd.appSoftware
  hostQueues : d.hostQueues = (addAll host.hostQueues rd.hostQueues).diff rd.hostQueues

theorem increase_reduce_regrown (host rd : MethodResourceDescription φ) :
    Regrown host rd ((host.increase rd).reduce rd) := by
  obtain ⟨_, _, _, _, hincrease⟩ := increaseDynamic_rest host rd
  generalize hgrown : host.increase rd = grown
  obtain ⟨_, _, _, hreduce⟩ := reduceDynamic_rest grown rd
  constructor <;> simp only [reduce, hreduce] <;> rw [← hgrown] <;> simp only [increase, hincrease]
  · split
    · split <;> rfl
    · rfl
  · rw [List.diff_eq_foldl]
    rfl
  · rw [List.diff_eq_foldl]
    rfl

theorem regrown_processors (host rd : MethodResourceDescription φ) :
    ((host.increase rd).reduce rd).processors =
      takeAll (rd.processors.foldl give host.processors) rd.processors := by
  rw [reduce_processors, increase_processors]

/-! ## Software and queues -/

section
variable {values added : List String} {v : String}

theorem count_addAll : (addAll values added).count v =
    if v ∈ values then values.count v else if v ∈ added then 1 else 0 := by
  induction added generalizing values with
  | nil =>
    by_cases hv : v ∈ values
    · simp [addAll, hv]
    · simp [addAll, hv, List.count_eq_zero_of_not_mem hv]
  | cons w added ih =>
    rw [addAll, List.foldl_cons, ← addAll, ih]
    by_cases hw : w ∈ values
    · rw [if_pos hw]
      by_cases hv : v ∈ values
      · simp [hv]
      · have hne : v ≠ w := fun h => hv (h ▸ hw)
        simp [hv, hne]
    · rw [if_neg hw]
      by_cases hv : v = w
      · subst hv
        simp [hw, List.count_eq_zero_of_not_mem hw]
      · by_cases hmem : v ∈ values <;> simp [hmem, hv, List.count_append, List.count_singleton, Ne.symm hv]

/-- They are the same as before when none is shared that is not listed more
often than it is removed. -/
theorem mem_diff_addAll_iff : (∀ v, v ∈ (addAll values added).diff added ↔ v ∈ values) ↔
    ∀ v ∈ added, v ∈ values → added.count v < values.count v := by
  have hmem : ∀ v, v ∈ (addAll values added).diff added ↔ 0 < (addAll values added).count v - added.count v := fun v => by
    rw [← List.count_diff, List.count_pos_iff]
  simp only [hmem, count_addAll]
  constructor
  · intro h v hadded hv
    have := (h v).mpr hv
    rw [if_pos hv] at this
    omega
  · intro h v
    by_cases hv : v ∈ values
    · rw [if_pos hv, iff_true_right hv]
      by_cases hadded : v ∈ added
      · have := h v hadded hv
        omega
      · rw [List.count_eq_zero_of_not_mem hadded]
        exact List.count_pos_iff.mpr hv
    · rw [if_neg hv, iff_false_right hv]
      by_cases hadded : v ∈ added
      · have := List.count_pos_iff.mpr hadded
        simp only [hadded, if_true]
        omega
      · simp [hadded]

end

/-! ## What a worker offers -/

/-- What `d` offers is what `host` does. -/
structure SameOffer (host d : MethodResourceDescription φ) : Prop where
  units : ∀ type, Resources.units type d.processors = Resources.units type host.processors
  memorySize : d.memorySize = host.memorySize
  storageSize : d.storageSize = host.storageSize
  storageType : d.storageType = host.storageType
  appSoftware : ∀ app, app ∈ d.appSoftware ↔ app ∈ host.appSoftware
  hostQueues : ∀ queue, queue ∈ d.hostQueues ↔ queue ∈ host.hostQueues
  contains : ∀ r, d.contains r = host.contains r

/-- Nothing is filled in: there is a value, or none to fill in. -/
def Settled (value1 value2 : String) : Prop := value1 = unassignedStr → value2 = "" ∨ value2 = unassignedStr

instance (value1 value2 : String) : Decidable (Settled value1 value2) :=
  inferInstanceAs (Decidable (_ → _))

/-- What the host and the description are when nothing is lost or gained. -/
structure Restorable (host rd : MethodResourceDescription φ) : Prop where
  found : Found host.processors rd.processors
  memory : JavaFloat.eq host.memorySize JavaFloat.unassigned = false →
    JavaFloat.eq rd.memorySize JavaFloat.unassigned = false →
    (if checkCompatibility host.memoryType rd.memoryType then
      JavaFloat.sub (JavaFloat.add host.memorySize rd.memorySize) rd.memorySize
    else JavaFloat.add host.memorySize rd.memorySize) = host.memorySize
  storageSize : host.storageSize = rd.storageSize
  storageType : Settled host.storageType rd.storageType
  operatingSystemType : Settled host.operatingSystemType rd.operatingSystemType
  operatingSystemDistribution : Settled host.operatingSystemDistribution rd.operatingSystemDistribution
  operatingSystemVersion : host.operatingSystemVersion = unassignedStr → rd.memoryType ≠ "" →
    rd.operatingSystemVersion = unassignedStr
  appSoftware : ∀ app ∈ rd.appSoftware, app ∈ host.appSoftware → rd.appSoftware.count app < host.appSoftware.count app
  hostQueues : ∀ queue ∈ rd.hostQueues, queue ∈ host.hostQueues → rd.hostQueues.count queue < host.hostQueues.count queue

theorem assignString_twice_iff {value1 value2 : String} :
    assignString (assignString value1 value2) value2 = value1 ↔ Settled value1 value2 := by
  rw [assignString, Settled]
  by_cases h1 : value1 = unassignedStr
  · subst h1
    by_cases h2 : value2 = ""
    · subst h2
      simp [assignString]
    · simp only [assignString, ne_eq, h2, not_false_eq_true, and_true, if_true, ite_self, false_or, forall_const]
  · simp [assignString, h1]

theorem checkCompatibility_unassigned (value : String) : checkCompatibility value unassignedStr = true := by
  simp [checkCompatibility]

/-- Two values that are compatible with the same are the same. -/
theorem checkCompatibility_eq_iff {value1 value2 : String} :
    (∀ s, checkCompatibility value1 s = checkCompatibility value2 s) ↔ value1 = value2 := by
  refine ⟨fun h => ?_, fun h s => by rw [h]⟩
  obtain ⟨s, hs⟩ := Infinite.exists_notMem_finset {value1, value2, unassignedStr}
  simp only [Finset.mem_insert, Finset.mem_singleton, not_or] at hs
  have hother := h s
  have hself := h value2
  simp only [checkCompatibility, Ne.symm hs.1, Ne.symm hs.2.1, hs.2.2, decide_false, Bool.false_or, Bool.or_false,
    decide_eq_decide] at hother
  simp only [checkCompatibility, decide_true, Bool.true_or, Bool.or_eq_true, decide_eq_true_eq] at hself
  rcases hself with (h12 | h1) | h2
  · exact h12
  · exact h1.trans (hother.mp h1).symm
  · exact (hother.mpr h2).trans h2.symm

section
variable [LinearOrder φ] [LinearJavaFloat φ]

omit [LinearOrder φ] [LinearJavaFloat φ] in
theorem reduceDynamic_memorySize (hfound : Found host.processors rd.processors) :
    (host.reduceDynamic rd).1.memorySize = if host.checkMemory rd then memoryLeft host rd else host.memorySize := by
  split
  · next hm =>
    obtain ⟨_, _, he, -, -⟩ := reduceDynamic_accepted hfound hm
    rw [he]
  · next hm =>
    have hrejected : (host.reduceDynamic rd).2 = none := by
      obtain ⟨_, _, hrest⟩ := reduceProcessors_rest rd.processors host new
      rw [reduceDynamic]
      split
      · rfl
      · next d' _ he =>
        rw [he] at hrest
        dsimp only at hrest ⊢
        subst hrest
        exact if_neg hm ▸ rfl
    obtain ⟨_, he⟩ := reduceDynamic_rejected hrejected
    rw [he]

/-- A size that is no amount is not touched, and one that is gets and gives,
unless the types are not compatible: then it only gets. -/
theorem regrown_memorySize (hhost : SaneMemory host.memorySize) (hrd : SaneMemory rd.memorySize) :
    ((host.increase rd).reduce rd).memorySize =
      if JavaFloat.eq host.memorySize JavaFloat.unassigned || JavaFloat.eq rd.memorySize JavaFloat.unassigned then
        host.memorySize
      else if checkCompatibility host.memoryType rd.memoryType then
        JavaFloat.sub (JavaFloat.add host.memorySize rd.memorySize) rd.memorySize
      else JavaFloat.add host.memorySize rd.memorySize := by
  have hfound : Found (host.increase rd).processors rd.processors := by
    rw [increase_processors]
    exact (giveAll_units .cpu rd.processors host.processors).1
  have hsize : (host.increase rd).memorySize = (host.increaseDynamic rd).memorySize := rfl
  have htype : (host.increase rd).memoryType = host.memoryType := by
    obtain ⟨_, _, _, _, hincrease⟩ := increaseDynamic_rest host rd
    simp only [increase, hincrease]
  change ((host.increase rd).reduceDynamic rd).1.memorySize = _
  rw [reduceDynamic_memorySize hfound, checkMemory, memoryLeft, hsize, htype, increaseDynamic_memorySize]
  cases hh : JavaFloat.eq host.memorySize JavaFloat.unassigned with
  | true => simp [hh]
  | false =>
    cases hr : JavaFloat.eq rd.memorySize JavaFloat.unassigned with
    | true => simp
    | false =>
      have hamount : ∀ {x : φ}, SaneMemory x → JavaFloat.eq x JavaFloat.unassigned = false → JavaFloat.zero ≤ x := by
        rintro x (hx | hx) hne
        · rw [hx] at hne
          cases hne
        · exact (LinearJavaFloat.ge_iff _ _).mp hx
      have hle := LinearJavaFloat.le_add _ _ (hamount hhost hh) (hamount hrd hr)
      have hge := (LinearJavaFloat.ge_iff _ _).mpr hle
      have hassigned : JavaFloat.eq (JavaFloat.add host.memorySize rd.memorySize) JavaFloat.unassigned = false := by
        refine Bool.eq_false_of_not_eq_true fun he => ?_
        rw [LinearJavaFloat.eq_iff] at he
        exact (LinearJavaFloat.unassigned_neg.trans_le ((hamount hrd hr).trans hle)).ne' he
      simp [checkInclusionFloat, hge, hassigned]

/-- A request of a processor that asks for no units tells whether there is a
compatible one. -/
theorem contains_processor (d : MethodResourceDescription φ) (p : Processor φ) :
    d.contains { (new : MethodResourceDescription φ) with processors := [p] } =
      d.processors.any fun q => checkProcessorContains q p := by
  simp [contains, new, checkCompatibility_unassigned, checkProcessors, checkProcessor, checkMemory, checkStorage,
    checkInclusionFloat, LawfulJavaFloat.eq_unassigned]

/-- A request that asks for an operating system only. -/
def systemRequest (type distribution version : String) : MethodResourceDescription φ :=
  { new with operatingSystemType := type, operatingSystemDistribution := distribution, operatingSystemVersion := version }

theorem contains_systemRequest (d : MethodResourceDescription φ) (type distribution version : String) :
    d.contains (systemRequest type distribution version) =
      (checkCompatibility d.operatingSystemType type && checkCompatibility d.operatingSystemDistribution distribution &&
        checkCompatibility d.operatingSystemVersion version) := by
  simp [contains, systemRequest, new, checkCompatibility_unassigned, checkProcessors, checkMemory, checkStorage,
    checkInclusionFloat, LawfulJavaFloat.eq_unassigned]

/-- Two descriptions that contain the same are of the same operating system. -/
theorem operatingSystem_eq {d : MethodResourceDescription φ} (h : ∀ r, d.contains r = host.contains r) :
    d.operatingSystemType = host.operatingSystemType ∧
      d.operatingSystemDistribution = host.operatingSystemDistribution ∧
      d.operatingSystemVersion = host.operatingSystemVersion := by
  refine ⟨checkCompatibility_eq_iff.mp fun s => ?_, checkCompatibility_eq_iff.mp fun s => ?_,
    checkCompatibility_eq_iff.mp fun s => ?_⟩
  · have := h (systemRequest s unassignedStr unassignedStr)
    simpa only [contains_systemRequest, checkCompatibility_unassigned, Bool.and_true] using this
  · have := h (systemRequest unassignedStr s unassignedStr)
    simpa only [contains_systemRequest, checkCompatibility_unassigned, Bool.and_true, Bool.true_and] using this
  · have := h (systemRequest unassignedStr unassignedStr s)
    simpa only [contains_systemRequest, checkCompatibility_unassigned, Bool.true_and] using this

omit [LinearOrder φ] [LinearJavaFloat φ] in
/-- What a description contains is told by its attributes, the software and the
queues as sets. -/
theorem contains_congr {d : MethodResourceDescription φ} (hprocessors : d.processors = host.processors)
    (hmemorySize : d.memorySize = host.memorySize) (hmemoryType : d.memoryType = host.memoryType)
    (hstorageSize : d.storageSize = host.storageSize) (hstorageType : d.storageType = host.storageType)
    (htype : d.operatingSystemType = host.operatingSystemType)
    (hdistribution : d.operatingSystemDistribution = host.operatingSystemDistribution)
    (hversion : d.operatingSystemVersion = host.operatingSystemVersion)
    (happs : ∀ app, app ∈ d.appSoftware ↔ app ∈ host.appSoftware)
    (hqueues : ∀ queue, queue ∈ d.hostQueues ↔ queue ∈ host.hostQueues) (r : MethodResourceDescription φ) :
    d.contains r = host.contains r := by
  have happs' : ∀ app, d.appSoftware.contains app = host.appSoftware.contains app := fun app => by
    rw [Bool.eq_iff_iff, List.contains_iff_mem, List.contains_iff_mem, happs]
  have hqueues' : ∀ queue, d.hostQueues.contains queue = host.hostQueues.contains queue := fun queue => by
    rw [Bool.eq_iff_iff, List.contains_iff_mem, List.contains_iff_mem, hqueues]
  have hps : d.checkProcessor = host.checkProcessor := funext fun p => by
    rw [checkProcessor, checkProcessor, hprocessors]
  simp only [contains, checkProcessors, hps, checkMemory, checkStorage, hmemorySize, hmemoryType, hstorageSize,
    hstorageType, htype, hdistribution, hversion, happs', hqueues']

/-- What a worker offers is restored exactly when the host and the description
are such that nothing is lost or gained. -/
theorem sameOffer_iff (hhost : SaneMemory host.memorySize) (hrd : SaneMemory rd.memorySize) :
    SameOffer host ((host.increase rd).reduce rd) ↔ Restorable host rd := by
  have hregrown := increase_reduce_regrown host rd
  have hprocessors := regrown_processors host rd
  have hmemory := regrown_memorySize hhost hrd
  have hversion : ((host.increase rd).reduce rd).operatingSystemVersion = host.operatingSystemVersion ↔
      (host.operatingSystemVersion = unassignedStr → rd.memoryType ≠ "" → rd.operatingSystemVersion = unassignedStr) := by
    rw [hregrown.operatingSystemVersion]
    split
    · next h => exact ⟨fun he _ _ => he.trans h.1, fun he => (he h.1 h.2).trans h.1.symm⟩
    · next h => exact ⟨fun _ h1 h2 => absurd ⟨h1, h2⟩ h, fun _ => rfl⟩
  have hstorage : ((host.increase rd).reduce rd).storageSize = rd.storageSize := by
    rw [hregrown.storageSize, LinearJavaFloat.max_eq, LinearJavaFloat.min_eq]
    exact min_eq_right (le_max_right _ _)
  constructor
  · intro h
    obtain ⟨htype, hdistribution, hv⟩ := operatingSystem_eq h.contains
    refine ⟨?_, fun hh hr => ?_, ?_, ?_, ?_, ?_, hversion.mp hv, ?_, ?_⟩
    · intro p hp
      by_contra hnone
      rw [Bool.not_eq_true, Option.isSome_eq_false_iff, Option.isNone_iff_eq_none] at hnone
      obtain ⟨q, hq, hc, hzero⟩ := exists_new hp hnone
      have hcontains := h.contains { (new : MethodResourceDescription φ) with processors := [p.setComputingUnits 0] }
      rw [contains_processor, contains_processor, hprocessors] at hcontains
      have hafter : ((takeAll (rd.processors.foldl give host.processors) rd.processors).any fun q =>
          checkProcessorContains q (p.setComputingUnits 0)) = true :=
        List.any_eq_true.mpr ⟨q, hq, Bool.and_eq_true_iff.mpr ⟨hc, by rw [hzero]; rfl⟩⟩
      obtain ⟨r, hr, hrc⟩ := List.any_eq_true.mp (hcontains.symm.trans hafter)
      exact List.find?_eq_none.mp hnone r hr (Bool.and_eq_true_iff.mp hrc).1
    · rw [← hmemory.trans (if_neg ?_)]
      · exact h.memorySize
      · simp [hh, hr]
    · exact h.storageSize.symm.trans hstorage
    · exact assignString_twice_iff.mp (hregrown.storageType.symm.trans h.storageType)
    · exact assignString_twice_iff.mp (hregrown.operatingSystemType.symm.trans htype)
    · exact assignString_twice_iff.mp (hregrown.operatingSystemDistribution.symm.trans hdistribution)
    · exact mem_diff_addAll_iff.mp fun app => hregrown.appSoftware ▸ h.appSoftware app
    · exact mem_diff_addAll_iff.mp fun queue => hregrown.hostQueues ▸ h.hostQueues queue
  · intro h
    have hps : ((host.increase rd).reduce rd).processors = host.processors :=
      hprocessors.trans (takeAll_giveAll_eq h.found)
    have hmem : ((host.increase rd).reduce rd).memorySize = host.memorySize := by
      rw [hmemory]
      split
      · rfl
      · next hassigned =>
        simp only [Bool.or_eq_true, not_or, Bool.not_eq_true] at hassigned
        exact h.memory hassigned.1 hassigned.2
    have hsize := hstorage.trans h.storageSize.symm
    have hstorageType := hregrown.storageType.trans (assignString_twice_iff.mpr h.storageType)
    have happs : ∀ app, app ∈ ((host.increase rd).reduce rd).appSoftware ↔ app ∈ host.appSoftware := by
      rw [hregrown.appSoftware]
      exact mem_diff_addAll_iff.mpr h.appSoftware
    have hqueues : ∀ queue, queue ∈ ((host.increase rd).reduce rd).hostQueues ↔ queue ∈ host.hostQueues := by
      rw [hregrown.hostQueues]
      exact mem_diff_addAll_iff.mpr h.hostQueues
    exact ⟨fun type => by rw [hps], hmem, hsize, hstorageType, happs, hqueues,
      contains_congr hps hmem hregrown.memoryType hsize hstorageType
        (hregrown.operatingSystemType.trans (assignString_twice_iff.mpr h.operatingSystemType))
        (hregrown.operatingSystemDistribution.trans (assignString_twice_iff.mpr h.operatingSystemDistribution))
        (hversion.mpr h.operatingSystemVersion) happs hqueues⟩

end

end

end MethodResourceDescription

/-! ## Instances -/

section
variable [DecidableEq τ] {op : TypeComposition τ → τ → Int → TypeComposition τ} {f : Option Int → Int → Option Int}

namespace TypeComposition

theorem addInstances_lookup (c : TypeComposition τ) (type : τ) (count : Int) (u : τ) :
    (c.addInstances type count).lookup u =
      if u = type then some ((c.lookup type).elim count (· + count)) else c.lookup u := by
  rw [addInstances]
  by_cases hu : u = type
  · subst hu
    rw [if_pos rfl]
    cases c.lookup u with
    | none => exact AList.lookup_insert c
    | some counts => exact AList.lookup_insert c
  · rw [if_neg hu]
    cases c.lookup type with
    | none => exact AList.lookup_insert_ne hu
    | some counts => exact AList.lookup_insert_ne hu

theorem removeInstances_lookup (c : TypeComposition τ) (type : τ) (count : Int) (u : τ) :
    (c.removeInstances type count).lookup u =
      if u = type then (c.lookup type).bind fun counts => if counts - count < 1 then none else some (counts - count)
      else c.lookup u := by
  rw [removeInstances]
  by_cases hu : u = type
  · subst hu
    rw [if_pos rfl]
    cases hcounts : c.lookup u with
    | none => exact hcounts
    | some counts =>
      dsimp only [Option.bind_some]
      split
      · exact AList.lookup_erase u c
      · exact AList.lookup_insert c
  · rw [if_neg hu]
    cases c.lookup type with
    | none => rfl
    | some counts =>
      dsimp only
      split
      · exact AList.lookup_erase_ne hu
      · exact AList.lookup_insert_ne hu

/-- A loop over the entries changes the counts of their types, one by one. -/
theorem lookup_foldl_entries (hop : ∀ c type count u,
    (op c type count).lookup u = if u = type then f (c.lookup type) count else c.lookup u)
    {entries : List (Sigma fun _ : τ => Int)} (hkeys : entries.NodupKeys) (c : TypeComposition τ) (u : τ) :
    AList.lookup u (entries.foldl (fun c entry => op c entry.1 entry.2) c) =
      (entries.dlookup u).elim (c.lookup u) (f (c.lookup u)) := by
  induction entries generalizing c with
  | nil => rfl
  | cons entry entries ih =>
    obtain ⟨type, count⟩ := entry
    obtain ⟨hnew, hrest⟩ := List.nodupKeys_cons.mp hkeys
    rw [List.foldl_cons, ih hrest, hop]
    by_cases hu : u = type
    · subst hu
      rw [List.dlookup_eq_none.mpr hnew, List.dlookup_cons_eq, if_pos rfl]
      rfl
    · rw [List.dlookup_cons_ne entries ⟨type, count⟩ hu, if_neg hu]

theorem lookup_foldl (hop : ∀ c type count u,
    (op c type count).lookup u = if u = type then f (c.lookup type) count else c.lookup u)
    (given c : TypeComposition τ) (u : τ) :
    (given.foldl op c).lookup u = (given.lookup u).elim (c.lookup u) (f (c.lookup u)) :=
  lookup_foldl_entries hop given.nodupKeys c u

/-- As many are removed as were added; with none left, or fewer, the type goes. -/
theorem restored_iff (given c : TypeComposition τ) :
    (∀ u, (given.foldl removeInstances (given.foldl addInstances c)).lookup u = c.lookup u) ↔
      ∀ u ∈ given, ∀ counts, c.lookup u = some counts → 1 ≤ counts := by
  have hlookup : ∀ u, (given.foldl removeInstances (given.foldl addInstances c)).lookup u =
      (given.lookup u).elim (c.lookup u) fun _ => (c.lookup u).bind fun counts => if counts < 1 then none else some counts := by
    intro u
    rw [lookup_foldl (f := fun counts count => counts.bind fun n => if n - count < 1 then none else some (n - count))
        removeInstances_lookup,
      lookup_foldl (f := fun counts count => some (counts.elim count (· + count))) addInstances_lookup]
    cases given.lookup u with
    | none => rfl
    | some count => cases c.lookup u <;> simp
  refine forall_congr' fun u => ?_
  rw [hlookup, ← AList.lookup_isSome]
  cases given.lookup u with
  | none => simp
  | some count =>
    cases c.lookup u with
    | none => simp
    | some counts =>
      by_cases hcounts : counts < 1
      · simp [hcounts]
      · simpa [hcounts] using Int.not_lt.mp hcounts

end TypeComposition

end

section
variable [JavaFloat φ] [DecidableEq τ]

/-- What `d` offers is what `host` does, by as many instances. -/
structure SameInstances (host d : CloudMethodResourceDescription φ τ) : Prop where
  offer : host.toMethodResourceDescription.SameOffer d.toMethodResourceDescription
  typeComposition : ∀ type, d.typeComposition.lookup type = host.typeComposition.lookup type

/-- When a worker that has grown and shrunk offers what it did, of methods or of
instances: what is added was compatible with a processor, of the same storage
size, has no software and no queue in common with it, and does not fill in what
was not assigned. -/
theorem increase_reduce_iff [LinearOrder φ] [LinearJavaFloat φ] :
    (∀ host rd : MethodResourceDescription φ,
      MethodResourceDescription.SaneMemory host.memorySize → MethodResourceDescription.SaneMemory rd.memorySize →
      (host.SameOffer ((host.increase rd).reduce rd) ↔ host.Restorable rd)) ∧
    ∀ host rd : CloudMethodResourceDescription φ τ,
      MethodResourceDescription.SaneMemory host.memorySize → MethodResourceDescription.SaneMemory rd.memorySize →
      (SameInstances host ((host.increase rd).reduce rd) ↔
        host.toMethodResourceDescription.Restorable rd.toMethodResourceDescription ∧
          ∀ type ∈ rd.typeComposition, ∀ counts, host.typeComposition.lookup type = some counts → 1 ≤ counts) := by
  refine ⟨fun host rd => MethodResourceDescription.sameOffer_iff, fun host rd hhost hrd => ?_⟩
  rw [← MethodResourceDescription.sameOffer_iff hhost hrd, ← TypeComposition.restored_iff]
  exact ⟨fun h => ⟨h.offer, h.typeComposition⟩, fun h => ⟨h.1, h.2⟩⟩

end

/-! ## Two instances -/

/-- An instance of so many units, of a type. -/
def instanceOf (cu : Int) (appSoftware : List String) : CloudMethodResourceDescription Int Nat :=
  { toMethodResourceDescription :=
      { MethodResourceDescription.new.addProcessor (WorkerRun.named "cpu" cu) with appSoftware := appSoftware }
    name := ""
    typeComposition := AList.singleton 0 1
    image := none }

/-- An instance comes and goes, of the same type and without software. -/
theorem increase_reduce_instance :
    SameInstances (instanceOf 2 []) (((instanceOf 2 []).increase (instanceOf 2 [])).reduce (instanceOf 2 [])) := by
  refine ((increase_reduce_iff (φ := Int) (τ := Nat)).2 (instanceOf 2 []) (instanceOf 2 []) (.inl rfl) (.inl rfl)).mpr
    ⟨⟨?_, ?_, rfl, ?_, ?_, ?_, ?_, ?_, ?_⟩, ?_⟩
  · intro p hp
    rw [List.mem_singleton.mp hp]
    rfl
  · exact fun h => absurd h (by decide)
  · exact fun _ => .inr rfl
  · exact fun _ => .inr rfl
  · exact fun _ => .inr rfl
  · exact fun _ _ => rfl
  · exact fun app happ => absurd happ List.not_mem_nil
  · exact fun queue hqueue => absurd hqueue List.not_mem_nil
  · intro type htype counts hcounts
    have hzero : type = 0 := by simpa [instanceOf, AList.mem_keys] using htype
    subst hzero
    cases hcounts
    decide

/-- The second of two equal instances takes the software of the first with it. -/
theorem increase_reduce_software : ¬ ∀ host rd : MethodResourceDescription Int, host.processors ≠ [] → rd.processors ≠ [] →
    MethodResourceDescription.SaneMemory host.memorySize → MethodResourceDescription.SaneMemory rd.memorySize →
    host.SameOffer ((host.increase rd).reduce rd) := by
  intro h
  have hsame := h (instanceOf 2 ["blast"]).toMethodResourceDescription (instanceOf 2 ["blast"]).toMethodResourceDescription
    (List.cons_ne_nil _ _) (List.cons_ne_nil _ _) (.inl rfl) (.inl rfl)
  exact absurd ((hsame.appSoftware "blast").mpr (List.mem_singleton_self _)) (by decide)

end Compss.Resources
