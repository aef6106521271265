/-
`reduceCommonDynamics`: what two descriptions have in common is taken from both.

Each processor of the one that is asked for has a share with the first
compatible processor of the other, its partner: the smaller of their units, with
the attributes of the partner. The shares are taken from the first processor
of either description that is compatible with the partner, which need not be the
two they come from, nor be there at all: `reduceCommonDynamics_iff` says when
what is common is what is taken.
-/
import Compss.MultiObjective.MethodDescriptions
import Compss.Resources.Hosting

namespace Compss.Resources

variable {φ : Type} [JavaFloat φ]

/-- The share of a processor that is asked for, when it is not empty. -/
def share (ps : List (Processor φ)) (p : Processor φ) : Option (Processor φ) :=
  match firstCompatible p ps with
  | some pThis =>
    if min pThis.computingUnits p.computingUnits > 0 then
      some (pThis.setComputingUnits (min pThis.computingUnits p.computingUnits))
    else none
  | none => none

def shares (ps asked : List (Processor φ)) : List (Processor φ) := asked.filterMap (share ps)

namespace MethodResourceDescription

/-- Both descriptions after the call, and what is common. -/
def reduceCommonDynamics (gapResource constraints : MethodResourceDescription φ) :
    MethodResourceDescription φ × MethodResourceDescription φ × MethodResourceDescription φ :=
  let commons := gapResource.getDynamicCommons constraints
  ((gapResource.reduceDynamic commons).1, (constraints.reduceDynamic commons).1, commons)

/-- Nothing is left to use: no units of any type, and no memory. -/
def UsedUp (d : MethodResourceDescription φ) : Prop :=
  (∀ type, units type d.processors = 0) ∧ JavaFloat.ge JavaFloat.zero d.memorySize = true

/-- Units and memory that are amounts. -/
structure Amounts (d : MethodResourceDescription φ) : Prop where
  units : ∀ q ∈ d.processors, 0 ≤ q.computingUnits
  memory : SaneMemory d.memorySize

/-- What is common has been taken from `a` and from `b`, which are now `a'` and
`b'`. -/
structure Splits (a b a' b' common : MethodResourceDescription φ) : Prop where
  left : ∀ type, units type a.processors = units type a'.processors + units type common.processors
  right : ∀ type, units type b.processors = units type b'.processors + units type common.processors
  memoryLeft : JavaFloat.eq a.memorySize JavaFloat.unassigned = false →
    JavaFloat.eq b.memorySize JavaFloat.unassigned = false → a'.memorySize = lessMemory common.memorySize a.memorySize
  memoryRight : JavaFloat.eq a.memorySize JavaFloat.unassigned = false →
    JavaFloat.eq b.memorySize JavaFloat.unassigned = false → b'.memorySize = lessMemory common.memorySize b.memorySize
  amountsLeft : a'.Amounts
  amountsRight : b'.Amounts
  usedUp : a.containsDynamic b = true → b'.UsedUp
  useless : b'.isDynamicUseless = true ↔ b'.UsedUp

/-- No memory is asked for, or there is as much of a type that is compatible. -/
def MemoryCovered (a b : MethodResourceDescription φ) : Prop :=
  JavaFloat.ge JavaFloat.zero b.memorySize = true ∨
    checkCompatibility a.memoryType b.memoryType = true ∧ JavaFloat.ge a.memorySize b.memorySize = true

/-- The units that the two have in common. -/
def commonUnits (a b : MethodResourceDescription φ) (type : ProcessorType) : Int :=
  units type (shares a.processors b.processors)

/-- The shares are taken from processors that are there, of the types of the
partners, that have the units; who contains the other has partners with the
units for all that is asked for, and the memory; and CPUs, GPUs and memory are
not all that is used up. -/
structure SharesMatch (a b : MethodResourceDescription φ) : Prop where
  found : Found b.processors (shares a.processors b.processors)
  typesLeft : ∀ type, matchedUnits type a.processors (shares a.processors b.processors) = commonUnits a b type
  typesRight : ∀ type, matchedUnits type b.processors (shares a.processors b.processors) = commonUnits a b type
  roomLeft : ∀ i q, a.processors[i]? = some q →
    demand a.processors (shares a.processors b.processors) i ≤ q.computingUnits
  roomRight : ∀ i q, b.processors[i]? = some q →
    demand b.processors (shares a.processors b.processors) i ≤ q.computingUnits
  partners : a.containsDynamic b = true →
    ∀ p ∈ b.processors, p.computingUnits ≤ (matched p a.processors).computingUnits
  memory : a.containsDynamic b = true → MemoryCovered a b
  rest : MemoryCovered a b →
    ((b.totalComputingUnits .cpu - commonUnits a b .cpu < 1 ∧ b.totalComputingUnits .gpu - commonUnits a b .gpu < 1) ↔
      ∀ type, units type b.processors = commonUnits a b type)

/-! ## What is common -/

section
variable {a b d common : MethodResourceDescription φ} {ps asked : List (Processor φ)} {p q s : Processor φ}

theorem share_eq_some (h : share ps p = some s) :
    ∃ pThis, firstCompatible p ps = some pThis ∧ 0 < min pThis.computingUnits p.computingUnits ∧
      s = pThis.setComputingUnits (min pThis.computingUnits p.computingUnits) := by
  rw [share] at h
  split at h
  · next pThis hfirst =>
    split at h
    · next hpos => exact ⟨pThis, hfirst, hpos, (Option.some.inj h).symm⟩
    · cases h
  · cases h

theorem shares_pos (hs : s ∈ shares ps asked) : 0 < s.computingUnits := by
  obtain ⟨p, -, hp⟩ := List.mem_filterMap.mp hs
  obtain ⟨pThis, -, hpos, rfl⟩ := share_eq_some hp
  exact hpos

/-- A partner is compatible with itself. -/
theorem shares_found [LawfulJavaFloat φ] : Found ps (shares ps asked) := by
  intro s hs
  obtain ⟨p, -, hp⟩ := List.mem_filterMap.mp hs
  obtain ⟨pThis, hfirst, -, rfl⟩ := share_eq_some hp
  exact List.find?_isSome.mpr ⟨pThis, List.mem_of_find?_eq_some hfirst, compatible_self pThis⟩

theorem addCommonProcessor_eq (d common : MethodResourceDescription φ) (p : Processor φ) :
    d.addCommonProcessor common p = (share d.processors p).elim common common.addProcessor := by
  rw [addCommonProcessor, share, firstCompatible]
  cases d.processors.find? (checkProcessorCompatibility · p) with
  | none => rfl
  | some pThis =>
    dsimp only
    split <;> rfl

/-- The processors are the shares; the memory is not touched. -/
theorem foldl_addCommonProcessor (d : MethodResourceDescription φ) (asked : List (Processor φ))
    (common : MethodResourceDescription φ) :
    (asked.foldl d.addCommonProcessor common).processors = common.processors ++ shares d.processors asked ∧
      (asked.foldl d.addCommonProcessor common).memorySize = common.memorySize ∧
      (asked.foldl d.addCommonProcessor common).memoryType = common.memoryType := by
  induction asked generalizing common with
  | nil => exact ⟨(List.append_nil _).symm, rfl, rfl⟩
  | cons p asked ih =>
    obtain ⟨hprocessors, hsize, htype⟩ := ih (d.addCommonProcessor common p)
    rw [List.foldl_cons, hprocessors, hsize, htype, addCommonProcessor_eq]
    cases hs : share d.processors p with
    | none => exact ⟨by simp [shares, hs], rfl, rfl⟩
    | some s => exact ⟨by simp [shares, hs], rfl, rfl⟩

theorem getDynamicCommons_processors (a b : MethodResourceDescription φ) :
    (a.getDynamicCommons b).processors = shares a.processors b.processors := by
  have h := (foldl_addCommonProcessor a b.processors new).1
  rw [getDynamicCommons]
  split
  · rw [setMemorySize_processors, setMemoryType_processors, h]
    rfl
  · exact h

/-- The memory that is common: none when there is not more than nothing, or the
types are not compatible. -/
def commonMemory (a b : MethodResourceDescription φ) : φ :=
  if checkCompatibility a.memoryType b.memoryType && JavaFloat.gt (JavaFloat.min a.memorySize b.memorySize) JavaFloat.zero
  then JavaFloat.min a.memorySize b.memorySize else JavaFloat.unassigned

theorem getDynamicCommons_memorySize (a b : MethodResourceDescription φ) :
    (a.getDynamicCommons b).memorySize = commonMemory a b := by
  have h := (foldl_addCommonProcessor a b.processors new).2.1
  rw [getDynamicCommons, commonMemory]
  cases checkCompatibility a.memoryType b.memoryType with
  | false => exact h
  | true =>
    rw [if_pos rfl, setMemorySize, Bool.true_and]
    split
    · rfl
    · exact (setMemoryType_memorySize _).trans h

omit [JavaFloat φ] in
theorem setMemoryType_memoryType (memoryType : String) : (d.setMemoryType memoryType).memoryType = memoryType ∨
    (d.setMemoryType memoryType).memoryType = d.memoryType := by
  rw [setMemoryType]
  split
  · exact .inl rfl
  · exact .inr rfl

theorem setMemorySize_memoryType (m : φ) : (d.setMemorySize m).memoryType = d.memoryType := by
  rw [setMemorySize]
  split <;> rfl

/-- The type of the common memory is the one of the host, where it matters. -/
theorem getDynamicCommons_memoryType (a b : MethodResourceDescription φ) :
    (a.getDynamicCommons b).memoryType = unassignedStr ∨
      (a.getDynamicCommons b).memoryType = a.memoryType ∧ checkCompatibility a.memoryType b.memoryType = true := by
  have h := (foldl_addCommonProcessor a b.processors new).2.2
  rw [getDynamicCommons]
  split
  · next hc =>
    rw [setMemorySize_memoryType]
    rcases setMemoryType_memoryType (d := b.processors.foldl a.addCommonProcessor new) a.memoryType with ht | ht
    · exact .inr ⟨ht, hc⟩
    · exact .inl (ht.trans h)
  · exact .inl h

end

/-! ## The memory -/

section
variable {a b d : MethodResourceDescription φ} [LinearOrder φ] [LinearJavaFloat φ]

theorem commonMemory_cases (a b : MethodResourceDescription φ) :
    commonMemory a b = JavaFloat.unassigned ∨ checkCompatibility a.memoryType b.memoryType = true ∧
      commonMemory a b = min a.memorySize b.memorySize ∧ JavaFloat.zero < min a.memorySize b.memorySize := by
  rw [commonMemory, LinearJavaFloat.min_eq]
  split
  · next h =>
    rw [Bool.and_eq_true, LinearJavaFloat.gt_iff] at h
    exact .inr ⟨h.1, rfl, h.2⟩
  · exact .inl rfl

theorem eq_unassigned_of_pos {x : φ} (h : JavaFloat.zero < x) : JavaFloat.eq x JavaFloat.unassigned = false := by
  refine Bool.eq_false_of_not_eq_true fun he => ?_
  rw [LinearJavaFloat.eq_iff] at he
  exact (LinearJavaFloat.unassigned_neg.trans h).ne' he

theorem checkInclusionFloat_common {x : φ} (h : min a.memorySize b.memorySize ≤ x) :
    checkInclusionFloat x (commonMemory a b) = true := by
  rcases commonMemory_cases a b with hm | ⟨-, hm, -⟩
  · simp [checkInclusionFloat, hm, LawfulJavaFloat.eq_unassigned]
  · simp [checkInclusionFloat, hm, (LinearJavaFloat.ge_iff _ _).mpr h]

theorem checkMemory_left (a b : MethodResourceDescription φ) : a.checkMemory (a.getDynamicCommons b) = true := by
  rw [checkMemory, getDynamicCommons_memorySize, checkInclusionFloat_common (min_le_left _ _), Bool.true_and]
  rcases getDynamicCommons_memoryType a b with ht | ⟨ht, -⟩ <;> simp [checkCompatibility, ht]

theorem checkMemory_right (a b : MethodResourceDescription φ) : b.checkMemory (a.getDynamicCommons b) = true := by
  rw [checkMemory, getDynamicCommons_memorySize, checkInclusionFloat_common (min_le_right _ _), Bool.true_and]
  rcases getDynamicCommons_memoryType a b with ht | ⟨ht, hc⟩
  · simp [checkCompatibility, ht]
  · rw [ht]
    simp only [checkCompatibility, Bool.or_eq_true, decide_eq_true_eq] at hc ⊢
    rcases hc with (h | h) | h
    · exact .inl (.inl h.symm)
    · exact .inr h
    · exact .inl (.inr h)

/-- What is left of a memory that has the common one is an amount. -/
theorem lessMemory_sane {x : φ} (hx : SaneMemory x) (h : min a.memorySize b.memorySize ≤ x) :
    SaneMemory (lessMemory (commonMemory a b) x) := by
  rw [lessMemory]
  split
  · exact hx
  · next hassigned =>
    rcases commonMemory_cases a b with hm | ⟨-, hm, -⟩
    · rw [hm] at hassigned
      exact absurd (by simp [LawfulJavaFloat.eq_unassigned]) hassigned
    · rw [hm]
      exact .inr (LawfulJavaFloat.sub_nonneg _ _ ((LinearJavaFloat.ge_iff _ _).mpr h))

/-- When no memory is left of what was asked for. -/
theorem lessMemory_nonpos_iff (a b : MethodResourceDescription φ) :
    JavaFloat.ge JavaFloat.zero (lessMemory (commonMemory a b) b.memorySize) = true ↔ MemoryCovered a b := by
  rw [MemoryCovered, LinearJavaFloat.ge_iff, LinearJavaFloat.ge_iff, LinearJavaFloat.ge_iff, lessMemory]
  rcases commonMemory_cases a b with hm | ⟨hc, hm, hpos⟩
  · rw [hm, LawfulJavaFloat.eq_unassigned, Bool.true_or, if_pos rfl]
    refine ⟨.inl, ?_⟩
    rintro (h | ⟨hc, hle⟩)
    · exact h
    · -- a positive size that is there would be common
      by_contra hpos
      rw [commonMemory, hc, LinearJavaFloat.min_eq, min_eq_right hle, Bool.true_and,
        if_pos ((LinearJavaFloat.gt_iff _ _).mpr (not_le.mp hpos))] at hm
      exact (LinearJavaFloat.unassigned_neg.trans (not_le.mp hpos)).ne' hm
  · have hb : JavaFloat.zero < b.memorySize := hpos.trans_le (min_le_right _ _)
    rw [hm, eq_unassigned_of_pos hpos, eq_unassigned_of_pos hb, Bool.or_false, if_neg Bool.false_ne_true]
    rw [or_iff_right hb.not_ge, and_iff_right hc]
    rcases le_or_gt b.memorySize a.memorySize with hle | hlt
    · rw [min_eq_right hle, LinearJavaFloat.sub_self]
      exact iff_of_true le_rfl hle
    · rw [min_eq_left hlt.le]
      exact iff_of_false (LinearJavaFloat.sub_pos _ _ hlt).not_ge hlt.not_ge

end

/-! ## All units together -/

section
variable {ps asked : List (Processor φ)}

/-- The units of all types. -/
def totalUnits (ps : List (Processor φ)) : Int := (ps.map Processor.computingUnits).sum

theorem totalUnits_append (ps qs : List (Processor φ)) : totalUnits (ps ++ qs) = totalUnits ps + totalUnits qs := by
  simp [totalUnits]

theorem totalUnits_pos (hne : ps ≠ []) (h : ∀ p ∈ ps, 0 < p.computingUnits) : 0 < totalUnits ps :=
  List.sum_pos _ (by simpa using h) (by simpa using hne)

theorem sum_units (ps : List (Processor φ)) :
    units .cpu ps + units .gpu ps + units .fpga ps + units .other ps = totalUnits ps := by
  induction ps with
  | nil => rfl
  | cons p ps ih =>
    rw [totalUnits, List.map_cons, List.sum_cons, ← totalUnits, ← ih]
    simp only [units_cons]
    cases p.countedType <;> simp <;> omega

theorem sum_matchedUnits (ps asked : List (Processor φ)) :
    matchedUnits .cpu ps asked + matchedUnits .gpu ps asked + matchedUnits .fpga ps asked + matchedUnits .other ps asked =
      totalUnits asked := by
  induction asked with
  | nil => rfl
  | cons p asked ih =>
    rw [totalUnits, List.map_cons, List.sum_cons, ← totalUnits, ← ih]
    simp only [matchedUnits_cons]
    cases (matched p ps).countedType <;> simp <;> omega

theorem takeAll_served (ps asked : List (Processor φ)) : takeAll ps asked = takeAll ps (served ps asked) := by
  refine List.ext_getElem? fun i => ?_
  rw [takeAll_getElem?, takeAll_getElem?, served_of_found (served_found ps asked)]

/-- Amounts that are all found are split by type when each is matched with its
own, and amounts that are not all found never are. -/
theorem units_takeAll_iff (hpos : ∀ p ∈ asked, 0 < p.computingUnits) :
    (∀ type, units type ps = units type (takeAll ps asked) + units type asked) ↔
      Found ps asked ∧ ∀ type, matchedUnits type ps asked = units type asked := by
  constructor
  · intro h
    have hfound : Found ps asked := by
      have hserved : ∀ type, matchedUnits type ps (served ps asked) = units type asked := fun type => by
        have := h type
        rw [takeAll_served, takeAll_units type (served_found ps asked)] at this
        omega
      have htotal : totalUnits (served ps asked) = totalUnits asked := by
        rw [← sum_matchedUnits ps, ← sum_units asked, hserved, hserved, hserved, hserved]
      have hsplit := List.takeWhile_append_dropWhile (p := fun p => (firstCompatible p ps).isSome) (l := asked)
      have hrest : asked.dropWhile (fun p => (firstCompatible p ps).isSome) = [] := by
        by_contra hne
        have hless := totalUnits_pos hne fun p hp => hpos p ((List.dropWhile_sublist _).subset hp)
        have hsum := congrArg totalUnits hsplit
        rw [totalUnits_append, ← served] at hsum
        omega
      rw [hrest, List.append_nil] at hsplit
      exact List.takeWhile_eq_self_iff.mp hsplit
    refine ⟨hfound, fun type => ?_⟩
    have := h type
    rw [takeAll_units type hfound] at this
    omega
  · rintro ⟨hfound, h⟩ type
    rw [takeAll_units type hfound, h]
    omega

/-- The shares are all that is asked for when the partners have the units. -/
theorem totalUnits_shares (hps : ∀ q ∈ ps, 0 ≤ q.computingUnits) (hasked : ∀ p ∈ asked, 0 ≤ p.computingUnits)
    (hfound : Found ps asked) :
    totalUnits (shares ps asked) ≤ totalUnits asked ∧
      (totalUnits (shares ps asked) = totalUnits asked ↔
        ∀ p ∈ asked, p.computingUnits ≤ (matched p ps).computingUnits) := by
  induction asked with
  | nil => exact ⟨le_rfl, iff_of_true rfl (by simp)⟩
  | cons p asked ih =>
    obtain ⟨q, hq⟩ := Option.isSome_iff_exists.mp (hfound p List.mem_cons_self)
    have hq0 := hps q (List.mem_of_find?_eq_some hq)
    have hp0 := hasked p List.mem_cons_self
    obtain ⟨hle, hiff⟩ := ih (fun r hr => hasked r (List.mem_cons_of_mem p hr))
      fun r hr => hfound r (List.mem_cons_of_mem p hr)
    have hmatched : matched p ps = q := by rw [matched, hq, Option.getD_some]
    have hshare : totalUnits (shares ps (p :: asked)) =
        min q.computingUnits p.computingUnits + totalUnits (shares ps asked) := by
      rw [shares, List.filterMap_cons, share, hq]
      dsimp only
      split
      · next h =>
        split at h
        · cases h
        · rw [← shares]
          omega
      · next s h =>
        split at h
        · cases h
          simp [totalUnits, shares, Processor.setComputingUnits]
        · cases h
    have hcons : totalUnits (p :: asked) = p.computingUnits + totalUnits asked := rfl
    rw [hshare, hcons, List.forall_mem_cons, hmatched, ← hiff]
    omega

theorem units_eq_zero_iff (h : ∀ q ∈ ps, 0 ≤ q.computingUnits) :
    (∀ type, units type ps = 0) ↔ totalUnits ps = 0 := by
  have hnonneg : ∀ type, 0 ≤ units type ps := fun type => by
    refine List.sum_nonneg ?_
    simp only [List.mem_map]
    rintro x ⟨q, hq, rfl⟩
    split
    · exact h q hq
    · exact le_rfl
  have hsum := sum_units ps
  have hcpu := hnonneg .cpu
  have hgpu := hnonneg .gpu
  have hfpga := hnonneg .fpga
  have hother := hnonneg .other
  constructor
  · intro hzero
    rw [← hsum, hzero, hzero, hzero, hzero]
    rfl
  · intro hzero type
    cases type <;> omega

end

/-! ## The two descriptions after the call -/

section
variable {a b : MethodResourceDescription φ} [LinearOrder φ] [LinearJavaFloat φ]

theorem reduceCommons_left (a b : MethodResourceDescription φ) :
    (a.reduceDynamic (a.getDynamicCommons b)).1.processors = takeAll a.processors (shares a.processors b.processors) ∧
      (a.reduceDynamic (a.getDynamicCommons b)).1.memorySize = lessMemory (commonMemory a b) a.memorySize := by
  have hfound : Found a.processors (a.getDynamicCommons b).processors := by
    rw [getDynamicCommons_processors]
    exact shares_found
  obtain ⟨totals, r, he, -, -⟩ := reduceDynamic_accepted hfound (checkMemory_left a b)
  rw [he]
  refine ⟨by rw [getDynamicCommons_processors], ?_⟩
  rw [← getDynamicCommons_memorySize]
  rfl

theorem reduceCommons_right (hfound : Found b.processors (shares a.processors b.processors)) :
    (b.reduceDynamic (a.getDynamicCommons b)).1.memorySize = lessMemory (commonMemory a b) b.memorySize := by
  rw [← getDynamicCommons_processors] at hfound
  obtain ⟨totals, r, he, -, -⟩ := reduceDynamic_accepted hfound (checkMemory_right a b)
  rw [he, ← getDynamicCommons_memorySize]
  rfl

theorem reduceCommons_processors (a b : MethodResourceDescription φ) :
    (b.reduceDynamic (a.getDynamicCommons b)).1.processors = takeAll b.processors (shares a.processors b.processors) := by
  rw [reduceDynamic_processors, getDynamicCommons_processors]

/-- The units that are left, and the totals with them. -/
theorem total_right (type : ProcessorType)
    (hright : units type b.processors =
      units type (takeAll b.processors (shares a.processors b.processors)) + commonUnits a b type) :
    (b.reduceDynamic (a.getDynamicCommons b)).1.totalComputingUnits type =
      b.totalComputingUnits type - commonUnits a b type := by
  have hdrift := reduceDynamic_drift b (a.getDynamicCommons b) type
  simp only [drift, reduceCommons_processors] at hdrift
  omega

/-- The shares are found in what is asked for, and taken from their types. -/
structure TakenRight (a b : MethodResourceDescription φ) : Prop where
  found : Found b.processors (shares a.processors b.processors)
  units : ∀ type, units type b.processors =
    Resources.units type (takeAll b.processors (shares a.processors b.processors)) + commonUnits a b type

/-- What is left of what was asked for is nothing. -/
theorem TakenRight.usedUp_iff (h : TakenRight a b) :
    (b.reduceDynamic (a.getDynamicCommons b)).1.UsedUp ↔
      (∀ type, Resources.units type b.processors = commonUnits a b type) ∧ MemoryCovered a b := by
  rw [UsedUp, reduceCommons_processors, reduceCommons_right h.found, lessMemory_nonpos_iff]
  refine and_congr_left fun _ => forall_congr' fun type => ?_
  have := h.units type
  omega

theorem TakenRight.useless_iff (h : TakenRight a b) :
    (b.reduceDynamic (a.getDynamicCommons b)).1.isDynamicUseless = true ↔
      MemoryCovered a b ∧
        b.totalComputingUnits .cpu - commonUnits a b .cpu < 1 ∧ b.totalComputingUnits .gpu - commonUnits a b .gpu < 1 := by
  rw [isDynamicUseless, reduceCommons_right h.found, totalCPUComputingUnits, totalGPUComputingUnits,
    total_right .cpu (h.units .cpu), total_right .gpu (h.units .gpu), Bool.and_eq_true, Bool.and_eq_true,
    lessMemory_nonpos_iff, decide_eq_true_eq, decide_eq_true_eq, and_assoc]

/-- All units of what is contained are common when the partners have them. -/
theorem TakenRight.partners_iff (h : TakenRight a b) (ha : a.Amounts) (hb : b.Amounts)
    (hleft : ∀ q ∈ takeAll b.processors (shares a.processors b.processors), 0 ≤ q.computingUnits)
    (hcontains : a.containsDynamic b = true) :
    (∀ type, Resources.units type b.processors = commonUnits a b type) ↔
      ∀ p ∈ b.processors, p.computingUnits ≤ (matched p a.processors).computingUnits := by
  have hzero : (∀ type, Resources.units type b.processors = commonUnits a b type) ↔
      totalUnits (takeAll b.processors (shares a.processors b.processors)) = 0 := by
    rw [← units_eq_zero_iff hleft]
    refine forall_congr' fun type => ?_
    have := h.units type
    omega
  have htotal : totalUnits b.processors = totalUnits (takeAll b.processors (shares a.processors b.processors)) +
      totalUnits (shares a.processors b.processors) := by
    simp only [← sum_units, h.units, commonUnits]
    omega
  obtain ⟨-, hiff⟩ := totalUnits_shares ha.units hb.units (containsDynamic_found hcontains)
  rw [hzero, ← hiff]
  omega

/-- What is common is taken from both exactly when the shares match. -/
theorem reduceCommonDynamics_iff (ha : a.Amounts) (hb : b.Amounts) :
    Splits a b (reduceCommonDynamics a b).1 (reduceCommonDynamics a b).2.1 (reduceCommonDynamics a b).2.2 ↔
      SharesMatch a b := by
  obtain ⟨hleft, hmemLeft⟩ := reduceCommons_left a b
  have hpos : ∀ s ∈ shares a.processors b.processors, 0 < s.computingUnits := fun s hs => shares_pos hs
  have hfound : Found a.processors (shares a.processors b.processors) := shares_found
  have hroomLeft := takeAll_nonneg_iff hfound
  constructor
  · intro h
    have hunitsLeft := h.left
    have hunitsRight := h.right
    simp only [reduceCommonDynamics, hleft, reduceCommons_processors, getDynamicCommons_processors]
      at hunitsLeft hunitsRight
    obtain ⟨-, htypesLeft⟩ := (units_takeAll_iff hpos).mp hunitsLeft
    obtain ⟨hfound, htypesRight⟩ := (units_takeAll_iff hpos).mp hunitsRight
    have htaken : TakenRight a b := ⟨hfound, hunitsRight⟩
    have hamounts := h.amountsRight.units
    simp only [reduceCommonDynamics, reduceCommons_processors] at hamounts
    refine ⟨hfound, htypesLeft, htypesRight, hroomLeft.mp ?_, (takeAll_nonneg_iff hfound).mp hamounts, fun hc => ?_,
      fun hc => ?_, fun hcovered => ?_⟩
    · rw [← hleft]
      exact h.amountsLeft.units
    · exact (htaken.partners_iff ha hb hamounts hc).mp (htaken.usedUp_iff.mp (h.usedUp hc)).1
    · exact (htaken.usedUp_iff.mp (h.usedUp hc)).2
    · have huseless := h.useless
      simp only [reduceCommonDynamics, htaken.useless_iff, htaken.usedUp_iff] at huseless
      rwa [and_iff_right hcovered, and_iff_left hcovered] at huseless
  · intro h
    have hunitsLeft := (units_takeAll_iff hpos).mpr ⟨shares_found, h.typesLeft⟩
    have hunitsRight := (units_takeAll_iff hpos).mpr ⟨h.found, h.typesRight⟩
    have htaken : TakenRight a b := ⟨h.found, hunitsRight⟩
    have hamounts := (takeAll_nonneg_iff h.found).mpr h.roomRight
    have hcommon := getDynamicCommons_processors a b
    refine ⟨?_, ?_, fun _ _ => ?_, fun _ _ => ?_, ⟨?_, ?_⟩, ⟨?_, ?_⟩, fun hc => ?_, ?_⟩ <;>
      simp only [reduceCommonDynamics, hleft, hmemLeft, reduceCommons_processors, hcommon, reduceCommons_right h.found,
        getDynamicCommons_memorySize]
    · exact hunitsLeft
    · exact hunitsRight
    · exact hroomLeft.mpr h.roomLeft
    · exact lessMemory_sane ha.memory (min_le_left _ _)
    · exact hamounts
    · exact lessMemory_sane hb.memory (min_le_right _ _)
    · exact htaken.usedUp_iff.mpr ⟨(htaken.partners_iff ha hb hamounts hc).mpr (h.partners hc), h.memory hc⟩
    · rw [htaken.useless_iff, htaken.usedUp_iff]
      constructor
      · rintro ⟨hcovered, htotals⟩
        exact ⟨(h.rest hcovered).mp htotals, hcovered⟩
      · rintro ⟨hunits, hcovered⟩
        exact ⟨hcovered, (h.rest hcovered).mpr hunits⟩

end

/-! ## One processor each -/

/-- So many units of one processor, and no memory. -/
def oneOf (p : Processor Int) (cu : Int) : MethodResourceDescription Int := new.addProcessor (p.setComputingUnits cu)

theorem amounts_oneOf {p : Processor Int} {cu : Int} (h : 0 ≤ cu) : (oneOf p cu).Amounts :=
  ⟨fun q hq => by rw [List.mem_singleton.mp hq]; exact h, .inl rfl⟩

/-- Two units are asked for of a processor that has four. -/
theorem reduceCommonDynamics_four :
    Splits (oneOf .new 4) (oneOf .new 2) (reduceCommonDynamics (oneOf .new 4) (oneOf .new 2)).1
      (reduceCommonDynamics (oneOf .new 4) (oneOf .new 2)).2.1 (reduceCommonDynamics (oneOf .new 4) (oneOf .new 2)).2.2 := by
  refine (reduceCommonDynamics_iff (amounts_oneOf (by decide)) (amounts_oneOf (by decide))).mpr ?_
  have hplace : ∀ (cu least : Int) (i : Nat) (q : Processor Int), least ≤ cu →
      demand (oneOf .new cu).processors (shares (oneOf .new 4).processors (oneOf .new 2).processors) 0 = least →
      (oneOf .new cu).processors[i]? = some q →
      demand (oneOf .new cu).processors (shares (oneOf .new 4).processors (oneOf .new 2).processors) i ≤
        q.computingUnits := by
    intro cu least i q hle hdemand hq
    cases i with
    | zero =>
      cases hq
      rw [hdemand]
      exact hle
    | succ i => cases hq
  refine ⟨?_, fun type => ?_, fun type => ?_, fun i q => hplace 4 2 i q (by decide) (by decide),
    fun i q => hplace 2 2 i q (by decide) (by decide), fun _ => ?_, fun _ => .inl (by decide), fun _ => ?_⟩
  · intro p hp
    rw [show shares (oneOf .new 4).processors (oneOf .new 2).processors = [Processor.new.setComputingUnits 2] from rfl]
      at hp
    rw [List.mem_singleton.mp hp]
    rfl
  · cases type <;> decide
  · cases type <;> decide
  · intro p hp
    rw [List.mem_singleton.mp hp]
    decide
  · refine iff_of_true (by decide) fun type => ?_
    cases type <;> decide

/-- Two units of a processor of speed two are asked for and one of speed three
has them: they are taken from it and stay in the request. -/
theorem reduceCommonDynamics_lost :
    ¬ ∀ a b : MethodResourceDescription Int, a.Amounts → b.Amounts →
      Splits a b (reduceCommonDynamics a b).1 (reduceCommonDynamics a b).2.1 (reduceCommonDynamics a b).2.2 := by
  intro h
  have hsplit := h (oneOf { Processor.new with speed := 3 } 2) (oneOf { Processor.new with speed := 2 } 2)
    (amounts_oneOf (by decide)) (amounts_oneOf (by decide))
  exact absurd (hsplit.right .cpu) (by decide)

/-- Of four units of an FPGA two are left, and count for nothing. -/
example :
    let fpga : Processor Int := { Processor.new with type := "FPGA" }
    let left := (reduceCommonDynamics (oneOf fpga 2) (oneOf fpga 4)).2.1
    left.isDynamicUseless = true ∧ units .fpga left.processors = 2 := by
  decide

end MethodResourceDescription

end Compss.Resources
