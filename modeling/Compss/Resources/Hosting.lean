/-
How many copies of a request a description hosts at once
(`canHostSimultaneously`), against how many can be reserved on it one after
another.

The answer is the least of ratios: of a total (the last one that is asked for:
each overwrites the ones before), of the units of each compatible pair of
processors, and of the memory. A reservation takes from the first compatible
processor instead, and a request is contained when each processor it asks for
has some compatible one with the units.
-/
import Compss.Resources.Reservation
import Mathlib

namespace Compss.Resources

variable {φ : Type}

/-! ## The answer -/

/-- The quotients that Java's `float` gives, each cut to an `int`. -/
class JavaQuotient (φ : Type) where
  /-- `(int) (a / (float) b)`. -/
  ratio : Int → Int → Int
  /-- `(int) (float) a`. -/
  whole : Int → Int
  /-- `(int) (a / b)`. -/
  quotient : φ → φ → Int

/-- `Integer.MAX_VALUE`. -/
def maxInt : Int := 2 ^ 31 - 1

namespace MethodResourceDescription

section
variable [JavaFloat φ] [JavaQuotient φ]

/-- One turn of the loops over the pairs of processors: an exception when no
units are asked for. -/
def hostPair (p : Processor φ) (atMost : Int) (pThis : Processor φ) : Option Int :=
  if checkProcessorCompatibility pThis p then
    if p.computingUnits = 0 then none
    else some (min atMost (JavaQuotient.whole φ (pThis.computingUnits.tdiv p.computingUnits)))
  else some atMost

/-- None when an `ArithmeticException` is raised. -/
def canHostSimultaneously (d rc2 : MethodResourceDescription φ) : Option Int := do
  let atMost := maxInt
  let atMost := if rc2.totalCPUComputingUnits ≥ 1 then
    JavaQuotient.ratio φ d.totalCPUComputingUnits rc2.totalCPUComputingUnits else atMost
  let atMost := if rc2.totalGPUComputingUnits ≥ 1 then
    JavaQuotient.ratio φ d.totalGPUComputingUnits rc2.totalGPUComputingUnits else atMost
  let atMost := if rc2.totalFPGAComputingUnits ≥ 1 then
    JavaQuotient.ratio φ d.totalFPGAComputingUnits rc2.totalFPGAComputingUnits else atMost
  let atMost ← rc2.processors.foldlM (fun atMost p => d.processors.foldlM (hostPair p) atMost) atMost
  if !JavaFloat.eq d.memorySize JavaFloat.unassigned && !JavaFloat.eq rc2.memorySize JavaFloat.unassigned &&
      JavaFloat.gt rc2.memorySize JavaFloat.zero then
    some (min atMost (JavaQuotient.quotient d.memorySize rc2.memorySize))
  else some atMost

end

/-! ## What is asked of it -/

section
variable [JavaFloat φ]

/-- A copy of the request is contained, and taken. -/
def reserve (host req : MethodResourceDescription φ) : Option (MethodResourceDescription φ) :=
  if host.containsDynamic req then (host.reduceDynamic req).2.map fun _ => (host.reduceDynamic req).1 else none

/-- So many copies, one after another. -/
def reserveCopies (req : MethodResourceDescription φ) : Nat → MethodResourceDescription φ → Option (MethodResourceDescription φ)
  | 0, host => some host
  | n + 1, host => (host.reserve req).bind (reserveCopies req n)

/-- So many copies can be reserved. -/
def Hosts (host req : MethodResourceDescription φ) (n : Nat) : Prop := (reserveCopies req n host).isSome

/-- What is left of a memory size after a size is reserved. -/
def lessMemory (asked memory : φ) : φ :=
  if JavaFloat.eq asked JavaFloat.unassigned || JavaFloat.eq memory JavaFloat.unassigned then memory
  else JavaFloat.sub memory asked

/-- The request is contained after so many copies have been taken. -/
def ContainsAfter (host req : MethodResourceDescription φ) (k : Nat) : Prop :=
  (∀ p ∈ req.processors, ∃ i q, host.processors[i]? = some q ∧ checkProcessorCompatibility q p = true ∧
      checkInclusion (q.computingUnits - k * demand host.processors req.processors i) p.computingUnits = true) ∧
    checkInclusionFloat ((lessMemory req.memorySize)^[k] host.memorySize) req.memorySize = true ∧
    checkCompatibility host.memoryType req.memoryType = true

variable {host req : MethodResourceDescription φ} {n : Nat}

theorem containsAfter_zero : ContainsAfter host req 0 ↔ host.containsDynamic req = true := by
  simp only [ContainsAfter, containsDynamic, checkProcessors, checkProcessor, checkProcessorContains, checkMemory,
    Bool.and_eq_true, List.all_eq_true, List.any_eq_true, Int.natCast_zero, Int.zero_mul, Int.sub_zero,
    Function.iterate_zero, id_eq]
  refine and_congr_left fun _ => forall_congr' fun p => forall_congr' fun _ => ?_
  constructor
  · rintro ⟨i, q, hq, h⟩
    exact ⟨q, List.mem_of_getElem? hq, h⟩
  · rintro ⟨q, hq, h⟩
    obtain ⟨i, hi⟩ := List.getElem?_of_mem hq
    exact ⟨i, q, hi, h⟩

/-- A copy that is taken is one copy less for those that follow. -/
theorem reserve_containsAfter {left : MethodResourceDescription φ} (h : host.reserve req = some left) (k : Nat) :
    ContainsAfter left req k ↔ ContainsAfter host req (k + 1) := by
  rw [reserve] at h
  split at h
  · next hc =>
    have hfound := containsDynamic_found hc
    obtain ⟨totals, r, he, -, -⟩ := reduceDynamic_accepted hfound (containsDynamic_memory hc)
    rw [he] at h
    cases h
    have htake : ∀ i : Nat, (takeAll host.processors req.processors)[i]? =
        (host.processors[i]?).map fun q => q.removeComputingUnits (demand host.processors req.processors i) := by
      intro i
      rw [takeAll_getElem?, served_of_found hfound]
    have hdemand : ∀ i, demand (takeAll host.processors req.processors) req.processors i =
        demand host.processors req.processors i := fun i => by
      refine demand_shape ?_
      refine List.ext_getElem? fun j => ?_
      rw [List.getElem?_map, List.getElem?_map, htake, Option.map_map]
      rfl
    simp only [ContainsAfter, htake, hdemand]
    refine and_congr (forall_congr' fun p => forall_congr' fun _ => ?_) Iff.rfl
    constructor
    · rintro ⟨i, q, hq, hcompatible, hunits⟩
      obtain ⟨q', hq', rfl⟩ := Option.map_eq_some_iff.mp hq
      refine ⟨i, q', hq', hcompatible, ?_⟩
      rw [← hunits]
      congr 1
      simp only [Processor.removeComputingUnits]
      push_cast
      ring
    · rintro ⟨i, q, hq, hcompatible, hunits⟩
      refine ⟨i, q.removeComputingUnits (demand host.processors req.processors i), by rw [hq]; rfl, hcompatible, ?_⟩
      rw [← hunits]
      congr 1
      simp only [Processor.removeComputingUnits]
      push_cast
      ring
  · cases h

theorem reserve_isSome : (host.reserve req).isSome = true ↔ host.containsDynamic req = true := by
  rw [reserve]
  split
  · next hc =>
    obtain ⟨totals, r, he, -, -⟩ := reduceDynamic_accepted (containsDynamic_found hc) (containsDynamic_memory hc)
    rw [he]
    exact iff_of_true rfl hc
  · next hc => exact iff_of_false (by simp) hc

/-- Copies can be reserved as long as each is contained in what the ones before
it leave. -/
theorem hosts_iff : Hosts host req n ↔ ∀ k < n, ContainsAfter host req k := by
  induction n generalizing host with
  | zero => exact iff_of_true rfl fun k hk => absurd hk (Nat.not_lt_zero k)
  | succ n ih =>
    rw [Hosts, reserveCopies]
    cases h : host.reserve req with
    | none =>
      refine iff_of_false (by simp) fun hall => ?_
      have := reserve_isSome.mpr (containsAfter_zero.mp (hall 0 (Nat.succ_pos n)))
      rw [h] at this
      cases this
    | some left =>
      have hfirst : ContainsAfter host req 0 :=
        containsAfter_zero.mpr (reserve_isSome.mp (by rw [h]; rfl))
      change Hosts left req n ↔ _
      refine ih.trans ⟨fun hall k hk => ?_, fun hall k hk => ?_⟩
      · cases k with
        | zero => exact hfirst
        | succ k => exact (reserve_containsAfter h k).mp (hall k (by omega))
      · exact (reserve_containsAfter h k).mpr (hall (k + 1) (by omega))

end

/-! ## The minimum -/

/-- What the quotients are for numbers that a `float` holds exactly. -/
class LawfulJavaQuotient (φ : Type) [JavaQuotient φ] : Prop where
  ratio_eq : ∀ a b : Int, 0 ≤ a → a ≤ 2 ^ 24 → 0 < b → b ≤ 2 ^ 24 → JavaQuotient.ratio φ a b = a / b
  whole_eq : ∀ a : Int, 0 ≤ a → a ≤ 2 ^ 24 → JavaQuotient.whole φ a = a

section
variable [JavaFloat φ] [JavaQuotient φ] {host req : MethodResourceDescription φ} {asked hosted : List (Processor φ)}
  {p q : Processor φ} {init n : Int}

/-- The least of the ratios with the compatible processors of the host. -/
theorem hostPair_foldlM (hp : p.computingUnits ≠ 0) (hosted : List (Processor φ)) (init : Int) :
    ∃ atMost, hosted.foldlM (hostPair p) init = some atMost ∧ ∀ n, n ≤ atMost ↔ n ≤ init ∧
      ∀ q ∈ hosted, checkProcessorCompatibility q p = true →
        n ≤ JavaQuotient.whole φ (q.computingUnits.tdiv p.computingUnits) := by
  induction hosted generalizing init with
  | nil => exact ⟨init, rfl, by simp⟩
  | cons q hosted ih =>
    rw [List.foldlM_cons, hostPair]
    by_cases hc : checkProcessorCompatibility q p = true
    · rw [if_pos hc, if_neg hp]
      obtain ⟨atMost, hloop, hle⟩ := ih (min init (JavaQuotient.whole φ (q.computingUnits.tdiv p.computingUnits)))
      refine ⟨atMost, hloop, fun n => ?_⟩
      rw [hle n, List.forall_mem_cons, le_min_iff, and_assoc, forall_prop_of_true hc]
    · rw [if_neg hc]
      obtain ⟨atMost, hloop, hle⟩ := ih init
      refine ⟨atMost, hloop, fun n => ?_⟩
      rw [hle n, List.forall_mem_cons, forall_prop_of_false hc]
      simp

/-- The least over all compatible pairs; no pair raises an exception when units
are asked of each. -/
theorem hostPairs_foldlM (hosted : List (Processor φ)) (hasked : ∀ p ∈ asked, p.computingUnits ≠ 0) (init : Int) :
    ∃ atMost, asked.foldlM (fun atMost p => hosted.foldlM (hostPair p) atMost) init = some atMost ∧
      ∀ n, n ≤ atMost ↔ n ≤ init ∧ ∀ p ∈ asked, ∀ q ∈ hosted, checkProcessorCompatibility q p = true →
        n ≤ JavaQuotient.whole φ (q.computingUnits.tdiv p.computingUnits) := by
  induction asked generalizing init with
  | nil => exact ⟨init, rfl, by simp⟩
  | cons p asked ih =>
    obtain ⟨atMost, hpair, hle⟩ := hostPair_foldlM (hasked p List.mem_cons_self) hosted init
    obtain ⟨least, hloop, hleast⟩ := ih (fun q hq => hasked q (List.mem_cons_of_mem p hq)) atMost
    refine ⟨least, ?_, fun n => ?_⟩
    · rw [List.foldlM_cons, hpair]
      exact hloop
    · rw [hleast n, hle n, List.forall_mem_cons, and_assoc]

/-- A processor that asks for no units raises an exception at the first that is
compatible with it. -/
theorem hostPair_foldlM_eq_none (hosted : List (Processor φ)) (init : Int) :
    hosted.foldlM (hostPair p) init = none ↔
      p.computingUnits = 0 ∧ ∃ q ∈ hosted, checkProcessorCompatibility q p = true := by
  by_cases hp : p.computingUnits = 0
  · rw [and_iff_right hp]
    induction hosted with
    | nil => exact iff_of_false (by simp) fun ⟨_, hq, _⟩ => absurd hq List.not_mem_nil
    | cons q hosted ih =>
      rw [List.foldlM_cons, hostPair]
      by_cases hc : checkProcessorCompatibility q p = true
      · rw [if_pos hc, if_pos hp]
        exact iff_of_true rfl ⟨q, List.mem_cons_self, hc⟩
      · rw [if_neg hc]
        refine ih.trans ⟨fun ⟨r, hr, h⟩ => ⟨r, List.mem_cons_of_mem q hr, h⟩, fun ⟨r, hr, h⟩ => ?_⟩
        rcases List.mem_cons.mp hr with rfl | hr
        · exact absurd h hc
        · exact ⟨r, hr, h⟩
  · obtain ⟨atMost, hloop, -⟩ := hostPair_foldlM (φ := φ) hp hosted init
    rw [hloop]
    exact iff_of_false (by simp) fun h => hp h.1

theorem hostPairs_foldlM_eq_none (asked : List (Processor φ)) (init : Int) :
    asked.foldlM (fun atMost p => hosted.foldlM (hostPair p) atMost) init = none ↔
      ∃ p ∈ asked, p.computingUnits = 0 ∧ ∃ q ∈ hosted, checkProcessorCompatibility q p = true := by
  induction asked generalizing init with
  | nil => exact iff_of_false (by simp) fun ⟨_, hp, _⟩ => absurd hp List.not_mem_nil
  | cons p asked ih =>
    rw [List.foldlM_cons, List.exists_mem_cons_iff, ← hostPair_foldlM_eq_none hosted init]
    cases h : hosted.foldlM (hostPair p) init with
    | none => exact iff_of_true rfl (.inl rfl)
    | some atMost => simpa using ih atMost

/-- The answer is an exception exactly when a processor that asks for no units
has a compatible one. -/
theorem canHostSimultaneously_eq_none : host.canHostSimultaneously req = none ↔
    ∃ p ∈ req.processors, p.computingUnits = 0 ∧ ∃ q ∈ host.processors, checkProcessorCompatibility q p = true := by
  rw [← hostPairs_foldlM_eq_none, canHostSimultaneously]
  cases req.processors.foldlM (fun atMost p => host.processors.foldlM (hostPair p) atMost) _ with
  | none => exact iff_of_true rfl rfl
  | some atMost =>
    refine iff_of_false ?_ (by simp)
    simp only [Option.bind_eq_bind, Option.bind_some]
    split <;> simp

/-- Of the totals, the answer is at most the last ratio that is taken. -/
def lastRatio (host req : MethodResourceDescription φ) : Int :=
  let atMost := if req.totalCPUComputingUnits ≥ 1 then
    JavaQuotient.ratio φ host.totalCPUComputingUnits req.totalCPUComputingUnits else maxInt
  let atMost := if req.totalGPUComputingUnits ≥ 1 then
    JavaQuotient.ratio φ host.totalGPUComputingUnits req.totalGPUComputingUnits else atMost
  if req.totalFPGAComputingUnits ≥ 1 then
    JavaQuotient.ratio φ host.totalFPGAComputingUnits req.totalFPGAComputingUnits else atMost

omit [JavaFloat φ] in
theorem le_lastRatio (hmax : n ≤ maxInt) (hratio : ∀ type, 1 ≤ req.totalComputingUnits type →
    n ≤ JavaQuotient.ratio φ (host.totalComputingUnits type) (req.totalComputingUnits type)) :
    n ≤ lastRatio host req := by
  simp only [lastRatio]
  split
  · exact hratio .fpga ‹_›
  · split
    · exact hratio .gpu ‹_›
    · split
      · exact hratio .cpu ‹_›
      · exact hmax

/-- The memory sizes are compared: both are assigned and some is asked for. -/
def memoryBounds (host req : MethodResourceDescription φ) : Bool :=
  !JavaFloat.eq host.memorySize JavaFloat.unassigned && !JavaFloat.eq req.memorySize JavaFloat.unassigned &&
    JavaFloat.gt req.memorySize JavaFloat.zero

/-- The answer, by what is at most it. -/
theorem canHostSimultaneously_spec (host : MethodResourceDescription φ)
    (hasked : ∀ p ∈ req.processors, p.computingUnits ≠ 0) :
    ∃ atMost, host.canHostSimultaneously req = some atMost ∧ ∀ n, n ≤ atMost ↔ n ≤ lastRatio host req ∧
      (∀ p ∈ req.processors, ∀ q ∈ host.processors, checkProcessorCompatibility q p = true →
        n ≤ JavaQuotient.whole φ (q.computingUnits.tdiv p.computingUnits)) ∧
      (memoryBounds host req = true → n ≤ JavaQuotient.quotient host.memorySize req.memorySize) := by
  obtain ⟨atMost, hloop, hle⟩ := hostPairs_foldlM host.processors hasked (lastRatio host req)
  have heq : host.canHostSimultaneously req = if memoryBounds host req then
      some (min atMost (JavaQuotient.quotient host.memorySize req.memorySize)) else some atMost := by
    rw [canHostSimultaneously]
    change ((req.processors.foldlM (fun atMost p => host.processors.foldlM (hostPair p) atMost)
      (lastRatio host req)).bind _) = _
    rw [hloop]
    rfl
  rw [heq]
  cases memoryBounds host req with
  | true => exact ⟨_, rfl, fun n => by simp [hle, and_assoc]⟩
  | false => exact ⟨_, rfl, fun n => by simp [hle]⟩

end

/-! ## One processor for each that is asked for -/

section
variable [JavaFloat φ] {ps asked : List (Processor φ)} {p q : Processor φ} {i : Nat}

/-- Units that are asked for are not `UNASSIGNED_INT`. -/
theorem checkInclusion_of_pos {value1 value2 : Int} (h : 0 < value2) :
    checkInclusion value1 value2 = true ↔ value2 ≤ value1 := by
  have hne : value2 ≠ unassignedInt := by
    rw [unassignedInt]
    omega
  simp [checkInclusion, hne]

theorem compatible_of_slot (hq : ps[slot p ps]? = some q) : checkProcessorCompatibility q p = true := by
  rw [← firstCompatible_eq] at hq
  exact List.find?_some (p := fun q => checkProcessorCompatibility q p) hq

/-- Asked for alone at its place, a processor is all the demand there. -/
theorem demand_of_nodup (h : (asked.map fun p => slot p ps).Nodup) (hp : p ∈ asked) :
    demand ps asked (slot p ps) = p.computingUnits := by
  induction asked with
  | nil => cases hp
  | cons r asked ih =>
    rw [List.map_cons, List.nodup_cons] at h
    have hrest : ∀ i, i ∉ asked.map (fun p => slot p ps) → demand ps asked i = 0 := by
      intro i hi
      refine List.sum_eq_zero fun x hx => ?_
      obtain ⟨r, hr, rfl⟩ := List.mem_map.mp hx
      exact if_neg fun hs => hi (List.mem_map.mpr ⟨r, hr, hs⟩)
    rw [demand_cons]
    rcases List.mem_cons.mp hp with rfl | hp
    · rw [if_pos rfl, hrest _ h.1, Int.add_zero]
    · rw [if_neg fun hs => h.1 (List.mem_map.mpr ⟨p, hp, hs.symm⟩), ih h.2 hp, Int.zero_add]

/-- A list asked for several times over. -/
def scaled (n : Int) (asked : List (Processor φ)) : List (Processor φ) :=
  asked.map fun p => p.setComputingUnits (n * p.computingUnits)

theorem demand_scaled (n : Int) (asked : List (Processor φ)) (i : Nat) :
    demand ps (scaled n asked) i = n * demand ps asked i := by
  induction asked with
  | nil => simp [demand, scaled]
  | cons p asked ih =>
    have hcons : scaled n (p :: asked) = p.setComputingUnits (n * p.computingUnits) :: scaled n asked := rfl
    have hslot : slot (p.setComputingUnits (n * p.computingUnits)) ps = slot p ps := rfl
    rw [hcons, demand_cons, demand_cons, ih, hslot]
    simp only [Processor.setComputingUnits]
    split <;> ring

omit [JavaFloat φ] in
theorem units_scaled (type : ProcessorType) (n : Int) (asked : List (Processor φ)) :
    units type (scaled n asked) = n * units type asked := by
  induction asked with
  | nil => simp [scaled]
  | cons p asked ih =>
    have hcons : scaled n (p :: asked) = p.setComputingUnits (n * p.computingUnits) :: scaled n asked := rfl
    have htype : (p.setComputingUnits (n * p.computingUnits)).countedType = p.countedType := rfl
    rw [hcons, units_cons, units_cons, ih, htype]
    simp only [Processor.setComputingUnits]
    split <;> ring

/-- When every place has the units asked for there, the list has those asked for. -/
theorem units_le_of_demand (h : Matches ps asked) {n : Int}
    (hdemand : ∀ i q, ps[i]? = some q → n * demand ps asked i ≤ q.computingUnits) (type : ProcessorType) :
    n * units type asked ≤ units type ps := by
  have hmatches : Matches ps (scaled n asked) := by
    intro r hr
    obtain ⟨p, hp, rfl⟩ := List.mem_map.mp hr
    exact h p hp
  have hleft : 0 ≤ units type (takeAll ps (scaled n asked)) := by
    refine List.sum_nonneg fun x hx => ?_
    obtain ⟨q, hq, rfl⟩ := List.mem_map.mp hx
    have := (takeAll_nonneg_iff hmatches.found).mpr
      (fun i q hq => by rw [demand_scaled]; exact hdemand i q hq) q hq
    split <;> omega
  rw [takeAll_units type hmatches.found, hmatches.matchedUnits, units_scaled] at hleft
  omega

end

/-! ## When the answer is right -/

section
variable [JavaFloat φ] [JavaQuotient φ] {host req : MethodResourceDescription φ}

/-- The quotient of the memory sizes is how often the one asked for can be
subtracted from the other. -/
def MemoryExact (host req : MethodResourceDescription φ) : Prop :=
  ∀ k : Nat, (∀ j < k, checkInclusionFloat ((lessMemory req.memorySize)^[j] host.memorySize) req.memorySize = true) ↔
    (memoryBounds host req = true → (k : Int) ≤ JavaQuotient.quotient host.memorySize req.memorySize)

/-- Every processor that is asked for asks for units, none of the host is
overdrawn, the totals are those of the processors, and the numbers are such
that a `float` holds them. -/
structure Regular (host req : MethodResourceDescription φ) : Prop where
  asked : req.processors ≠ []
  asks : ∀ p ∈ req.processors, 0 < p.computingUnits
  hosted : ∀ q ∈ host.processors, 0 ≤ q.computingUnits ∧ q.computingUnits ≤ 2 ^ 24
  askedTotals : ∀ type, req.totalComputingUnits type = units type req.processors ∧ units type req.processors ≤ 2 ^ 24
  hostedTotals : ∀ type,
    units type host.processors ≤ host.totalComputingUnits type ∧ host.totalComputingUnits type ≤ 2 ^ 24
  memory : MemoryExact host req

/-- Not one copy fits: of the processors compatible with one that is asked for,
and there are some, none has the units, or the memory is too small. -/
def Exhausted (host req : MethodResourceDescription φ) : Prop :=
  (∃ p ∈ req.processors, (∃ q ∈ host.processors, checkProcessorCompatibility q p = true) ∧
      ∀ q ∈ host.processors, checkProcessorCompatibility q p = true → q.computingUnits < p.computingUnits) ∨
    checkInclusionFloat host.memorySize req.memorySize = false

/-- Each processor that is asked for is compatible with one of the host alone,
of its own type, no two with the same, and so are the memories. -/
structure OneToOne (host req : MethodResourceDescription φ) : Prop where
  only : ∀ p ∈ req.processors, ∃ q, host.processors[slot p host.processors]? = some q ∧
    q.countedType = p.countedType ∧
    ∀ j r, host.processors[j]? = some r → checkProcessorCompatibility r p = true → j = slot p host.processors
  apart : (req.processors.map fun p => slot p host.processors).Nodup
  memoryType : checkCompatibility host.memoryType req.memoryType = true

variable [LawfulJavaQuotient φ]

theorem Regular.whole_tdiv (h : Regular host req) {p q : Processor φ} (hp : p ∈ req.processors)
    (hq : q ∈ host.processors) :
    JavaQuotient.whole φ (q.computingUnits.tdiv p.computingUnits) = q.computingUnits / p.computingUnits := by
  have hpos := h.asks p hp
  obtain ⟨h0, hle⟩ := h.hosted q hq
  rw [Int.tdiv_eq_ediv_of_nonneg h0]
  have hdiv := Int.ediv_le_self p.computingUnits h0
  exact LawfulJavaQuotient.whole_eq _ (Int.ediv_nonneg h0 (Int.le_of_lt hpos)) (by omega)

omit [LawfulJavaQuotient φ] in
theorem Regular.units_nonneg (h : Regular host req) (type : ProcessorType) : 0 ≤ units type host.processors := by
  refine List.sum_nonneg fun x hx => ?_
  obtain ⟨q, hq, rfl⟩ := List.mem_map.mp hx
  have := (h.hosted q hq).1
  split <;> omega

/-- A ratio of totals is at least what the units have room for. -/
theorem Regular.le_ratio (h : Regular host req) {type : ProcessorType} (htype : 1 ≤ req.totalComputingUnits type)
    {n : Int} (hn : n * units type req.processors ≤ units type host.processors) :
    n ≤ JavaQuotient.ratio φ (host.totalComputingUnits type) (req.totalComputingUnits type) := by
  have h0 := h.units_nonneg type
  obtain ⟨hreq, hreqle⟩ := h.askedTotals type
  obtain ⟨hhost, hhostle⟩ := h.hostedTotals type
  rw [LawfulJavaQuotient.ratio_eq _ _ (by omega) hhostle (by omega) (by omega), Int.le_ediv_iff_mul_le (by omega), hreq]
  omega

/-- The answer is not negative. -/
theorem Regular.nonneg (h : Regular host req) {atMost : Int}
    (hle : ∀ n, n ≤ atMost ↔ n ≤ lastRatio host req ∧
      (∀ p ∈ req.processors, ∀ q ∈ host.processors, checkProcessorCompatibility q p = true →
        n ≤ JavaQuotient.whole φ (q.computingUnits.tdiv p.computingUnits)) ∧
      (memoryBounds host req = true → n ≤ JavaQuotient.quotient host.memorySize req.memorySize)) : 0 ≤ atMost := by
  refine (hle 0).mpr ⟨le_lastRatio (by decide) fun type htype => ?_, fun p hp q hq _ => ?_, ?_⟩
  · refine h.le_ratio htype ?_
    rw [Int.zero_mul]
    exact h.units_nonneg type
  · rw [h.whole_tdiv hp hq]
    exact Int.ediv_nonneg (h.hosted q hq).1 (Int.le_of_lt (h.asks p hp))
  · exact (h.memory 0).mp fun j hj => absurd hj (Nat.not_lt_zero j)

/-- Nothing fits: the answer is at most zero, and no copy can be reserved. -/
theorem Regular.exhausted (h : Regular host req) (he : Exhausted host req) {atMost : Int}
    (hle : atMost ≤ lastRatio host req ∧
      (∀ p ∈ req.processors, ∀ q ∈ host.processors, checkProcessorCompatibility q p = true →
        atMost ≤ JavaQuotient.whole φ (q.computingUnits.tdiv p.computingUnits)) ∧
      (memoryBounds host req = true → atMost ≤ JavaQuotient.quotient host.memorySize req.memorySize)) :
    atMost ≤ 0 ∧ ¬ ContainsAfter host req 0 := by
  obtain ⟨-, hpairs, hmemory⟩ := hle
  rcases he with ⟨p, hp, ⟨q, hq, hc⟩, hall⟩ | hshort
  · constructor
    · have := hpairs p hp q hq hc
      rw [h.whole_tdiv hp hq, Int.ediv_eq_zero_of_lt (h.hosted q hq).1 (hall q hq hc)] at this
      exact this
    · rintro ⟨hcontains, -⟩
      obtain ⟨i, r, hr, hcr, hunits⟩ := hcontains p hp
      have hlt := hall r (List.mem_of_getElem? hr) hcr
      have hpos := h.asks p hp
      rw [checkInclusion_of_pos hpos, Int.natCast_zero, Int.zero_mul] at hunits
      omega
  · constructor
    · -- one copy is more than the memory has room for
      have hone : ¬ ∀ j < 1, checkInclusionFloat ((lessMemory req.memorySize)^[j] host.memorySize) req.memorySize =
          true := fun hall => by
        have := hall 0 Nat.one_pos
        rw [Function.iterate_zero, id_eq, hshort] at this
        cases this
      rw [h.memory 1, Classical.not_imp] at hone
      have := hmemory hone.1
      omega
    · rintro ⟨-, hcontains, -⟩
      rw [Function.iterate_zero, id_eq, hshort] at hcontains
      cases hcontains

omit [LawfulJavaQuotient φ] in
/-- With one processor for each, copies fit as long as each of those has the
units and the memory lasts. -/
theorem OneToOne.hosts_iff (ho : OneToOne host req) (h : Regular host req) {n : Nat} :
    Hosts host req n ↔
      (∀ p ∈ req.processors, ∀ q, host.processors[slot p host.processors]? = some q →
        n * p.computingUnits ≤ q.computingUnits) ∧
      ∀ j < n, checkInclusionFloat ((lessMemory req.memorySize)^[j] host.memorySize) req.memorySize = true := by
  rw [MethodResourceDescription.hosts_iff]
  constructor
  · intro hall
    refine ⟨fun p hp q hq => ?_, fun j hj => (hall j hj).2.1⟩
    cases n with
    | zero => simpa using (h.hosted q (List.mem_of_getElem? hq)).1
    | succ n =>
      obtain ⟨i, r, hr, hc, hunits⟩ := (hall n (Nat.lt_succ_self n)).1 p hp
      obtain ⟨-, -, -, honly⟩ := ho.only p hp
      have hi := honly i r hr hc
      subst hi
      rw [hq] at hr
      cases hr
      have hpos := h.asks p hp
      rw [demand_of_nodup ho.apart hp, checkInclusion_of_pos hpos] at hunits
      push_cast
      rw [Int.add_mul]
      omega
  · rintro ⟨hunits, hmemory⟩ k hk
    refine ⟨fun p hp => ?_, hmemory k hk, ho.memoryType⟩
    obtain ⟨q, hq, -, -⟩ := ho.only p hp
    refine ⟨_, q, hq, compatible_of_slot hq, ?_⟩
    have hn := hunits p hp q hq
    have hpos := h.asks p hp
    have hround : ((k : Int) + 1) * p.computingUnits ≤ n * p.computingUnits :=
      Int.mul_le_mul_of_nonneg_right (by omega) (Int.le_of_lt hpos)
    rw [Int.add_mul] at hround
    rw [demand_of_nodup ho.apart hp, checkInclusion_of_pos hpos]
    omega

/-- So many copies are at most the answer exactly when they can be reserved. -/
theorem OneToOne.le_iff (ho : OneToOne host req) (h : Regular host req) {n : Nat} :
    Hosts host req n ↔ (n : Int) ≤ lastRatio host req ∧
      (∀ p ∈ req.processors, ∀ q ∈ host.processors, checkProcessorCompatibility q p = true →
        (n : Int) ≤ JavaQuotient.whole φ (q.computingUnits.tdiv p.computingUnits)) ∧
      (memoryBounds host req = true → (n : Int) ≤ JavaQuotient.quotient host.memorySize req.memorySize) := by
  rw [ho.hosts_iff h, h.memory n]
  constructor
  · rintro ⟨hunits, hmemory⟩
    have hmatches : Matches host.processors req.processors := fun p hp => by
      obtain ⟨q, hq, ht, -⟩ := ho.only p hp
      exact ⟨q, by rw [firstCompatible_eq, hq], ht⟩
    have hdemand : ∀ i q, host.processors[i]? = some q →
        (n : Int) * demand host.processors req.processors i ≤ q.computingUnits := by
      intro i q hq
      by_cases hi : i ∈ req.processors.map fun p => slot p host.processors
      · obtain ⟨p, hp, rfl⟩ := List.mem_map.mp hi
        rw [demand_of_nodup ho.apart hp]
        exact hunits p hp q hq
      · have hnone : demand host.processors req.processors i = 0 := by
          refine List.sum_eq_zero fun x hx => ?_
          obtain ⟨r, hr, rfl⟩ := List.mem_map.mp hx
          exact if_neg fun hs => hi (List.mem_map.mpr ⟨r, hr, hs⟩)
        rw [hnone, Int.mul_zero]
        exact (h.hosted q (List.mem_of_getElem? hq)).1
    refine ⟨le_lastRatio ?_ fun type htype => h.le_ratio htype (units_le_of_demand hmatches hdemand type), ?_, hmemory⟩
    · -- some processor is asked for, and has its place
      obtain ⟨p, hp⟩ := List.exists_mem_of_ne_nil _ h.asked
      obtain ⟨q, hq, -⟩ := ho.only p hp
      have hn := hunits p hp q hq
      have hle := (h.hosted q (List.mem_of_getElem? hq)).2
      have hself : (n : Int) * 1 ≤ n * p.computingUnits :=
        Int.mul_le_mul_of_nonneg_left (h.asks p hp) (Int.natCast_nonneg n)
      rw [maxInt]
      omega
    · intro p hp q hq hc
      rw [h.whole_tdiv hp hq, Int.le_ediv_iff_mul_le (h.asks p hp)]
      obtain ⟨i, hi⟩ := List.getElem?_of_mem hq
      obtain ⟨-, -, -, honly⟩ := ho.only p hp
      exact hunits p hp q (honly i q hi hc ▸ hi)
  · rintro ⟨-, hpairs, hmemory⟩
    refine ⟨fun p hp q hq => ?_, hmemory⟩
    have hmem := List.mem_of_getElem? hq
    have := hpairs p hp q hmem (compatible_of_slot hq)
    rwa [h.whole_tdiv hp hmem, Int.le_ediv_iff_mul_le (h.asks p hp)] at this

end

/-! ## Numbers -/

instance : JavaQuotient Int where
  ratio a b := a.tdiv b
  whole a := a
  quotient a b := a.tdiv b

instance : LawfulJavaQuotient Int where
  ratio_eq _ _ h0 _ _ _ := Int.tdiv_eq_ediv_of_nonneg h0
  whole_eq _ _ _ := rfl

section
variable {host req : MethodResourceDescription Int}

/-- Of numbers, the quotient is how often the one can be subtracted from the other. -/
theorem memoryExact_int (hhost : 0 ≤ host.memorySize) (hreq : 0 < req.memorySize) : MemoryExact host req := by
  have hassigned : ∀ m : Int, 0 ≤ m → JavaFloat.eq m JavaFloat.unassigned = false := fun m hm =>
    decide_eq_false fun h => by rw [h] at hm; exact absurd hm (by decide)
  have hbounds : memoryBounds host req = true := by
    simp only [memoryBounds, hassigned _ hhost, hassigned _ (Int.le_of_lt hreq), Bool.not_false, Bool.true_and]
    exact decide_eq_true hreq
  have hcheck : ∀ m : Int, 0 ≤ m → (checkInclusionFloat m req.memorySize = true ↔ req.memorySize ≤ m) := by
    intro m hm
    simp only [checkInclusionFloat, hassigned _ hm, hassigned _ (Int.le_of_lt hreq), Bool.or_false]
    exact decide_eq_true_iff
  have hless : ∀ m : Int, 0 ≤ m → lessMemory req.memorySize m = m - req.memorySize := by
    intro m hm
    rw [lessMemory, hassigned _ hm, hassigned _ (Int.le_of_lt hreq)]
    rfl
  have hloop : ∀ (k : Nat) (m : Int), 0 ≤ m →
      ((∀ j < k, checkInclusionFloat ((lessMemory req.memorySize)^[j] m) req.memorySize = true) ↔
        k * req.memorySize ≤ m) := by
    intro k
    induction k with
    | zero => intro m hm; simpa using hm
    | succ k ih =>
      intro m hm
      rw [Nat.forall_lt_succ_left, Function.iterate_zero, id_eq, hcheck m hm]
      simp only [Function.iterate_succ_apply, hless m hm]
      push_cast
      rw [Int.add_mul, Int.one_mul]
      constructor
      · rintro ⟨hle, hall⟩
        have := (ih _ (by omega)).mp hall
        omega
      · intro hle
        have hpos : 0 ≤ (k : Int) * req.memorySize := Int.mul_nonneg (Int.natCast_nonneg k) (Int.le_of_lt hreq)
        exact ⟨by omega, (ih _ (by omega)).mpr (by omega)⟩
  intro k
  rw [hloop k _ hhost, forall_prop_of_true hbounds]
  change _ ↔ (k : Int) ≤ host.memorySize.tdiv req.memorySize
  rw [Int.tdiv_eq_ediv_of_nonneg hhost, Int.le_ediv_iff_mul_le hreq]

end

/-- A worker of eight units and ten of memory. -/
def eightUnits : MethodResourceDescription Int := (new.addProcessor (WorkerRun.named "cpu" 8)).setMemorySize 10

/-- Two units and three of memory. -/
def twoUnits : MethodResourceDescription Int := (new.addProcessor (WorkerRun.named "cpu" 2)).setMemorySize 3

/-- A worker of two CPU units and eight of a GPU. -/
def twoKinds : MethodResourceDescription Int :=
  (new.addProcessor (WorkerRun.named "cpu" 2)).addProcessor { WorkerRun.named "gpu" 8 with type := "GPU" }

/-- Two CPUs and a GPU of one unit each. -/
def threeProcessors : MethodResourceDescription Int :=
  ((new.addProcessor (WorkerRun.named "cpu" 1)).addProcessor (WorkerRun.named "cpu" 1)).addProcessor
    { WorkerRun.named "gpu" 1 with type := "GPU" }

end MethodResourceDescription

end Compss.Resources
