/-
How many computing units of each type `increaseDynamic` and `reduceDynamic`
move.

Giving and taking change the units of the first compatible processor and
nothing else of any processor, so that a list keeps its shape: which processor
is the first compatible one is a question about the shape. The units that move
are those asked for; the type they are counted under is that of the processor
they are matched with.
-/
import Compss.Resources.MethodResourceDescription

namespace Compss.Resources

variable {φ : Type}

/-! ## Units -/

/-- The computing units of a type. -/
def units (type : ProcessorType) (ps : List (Processor φ)) : Int :=
  (ps.map fun p => if p.countedType = type then p.computingUnits else 0).sum

section
variable (type : ProcessorType) (p : Processor φ) (ps qs : List (Processor φ))

@[simp] theorem units_nil : units type ([] : List (Processor φ)) = 0 := rfl

@[simp] theorem units_cons :
    units type (p :: ps) = (if p.countedType = type then p.computingUnits else 0) + units type ps := by
  simp [units]

@[simp] theorem units_append : units type (ps ++ qs) = units type ps + units type qs := by
  simp [units]

end

/-! ## The first compatible processor -/

/-- A processor without its units. -/
def Processor.shape (p : Processor φ) : Processor φ := p.setComputingUnits 0

theorem Processor.countedType_shape (p : Processor φ) : p.shape.countedType = p.countedType := rfl

section
variable [JavaFloat φ] {p q pThis : Processor φ} {ps qs processors : List (Processor φ)}
  {change : Processor φ → Processor φ}

theorem compatible_shape : checkProcessorCompatibility q.shape p = checkProcessorCompatibility q p := rfl

/-- A processor is compatible with itself. -/
theorem compatible_self [LawfulJavaFloat φ] (p : Processor φ) : checkProcessorCompatibility p p = true := by
  simp [checkProcessorCompatibility, checkCompatibility, checkInclusionFloat, LawfulJavaFloat.ge_self]

/-- The processor an amount is taken from or given to. -/
def firstCompatible (p : Processor φ) (ps : List (Processor φ)) : Option (Processor φ) :=
  ps.find? fun q => checkProcessorCompatibility q p

theorem changeFirst_none : changeFirst p change ps = none ↔ firstCompatible p ps = none := by
  induction ps with
  | nil => simp [changeFirst, firstCompatible]
  | cons q ps ih =>
    rw [changeFirst, firstCompatible, List.find?_cons]
    cases checkProcessorCompatibility q p with
    | true => simp
    | false => simpa [firstCompatible] using ih

/-- The change is made to the first compatible processor, in its place. -/
theorem changeFirst_some (h : changeFirst p change ps = some (pThis, processors)) :
    firstCompatible p ps = some pThis ∧
      ∃ before after, ps = before ++ pThis :: after ∧ processors = before ++ change pThis :: after := by
  induction ps generalizing processors with
  | nil => cases h
  | cons q ps ih =>
    rw [changeFirst] at h
    rw [firstCompatible, List.find?_cons]
    cases hq : checkProcessorCompatibility q p with
    | true =>
      rw [if_pos hq] at h
      cases h
      exact ⟨rfl, [], ps, rfl, rfl⟩
    | false =>
      rw [if_neg (by simp [hq])] at h
      obtain ⟨⟨r, rs⟩, hr, he⟩ := Option.map_eq_some_iff.mp h
      cases he
      obtain ⟨hfirst, before, after, hps, hprocessors⟩ := ih hr
      exact ⟨hfirst, q :: before, after, by rw [hps]; rfl, by rw [hprocessors]; rfl⟩

/-- A change of the units is a change of the total by as much. -/
theorem units_changeFirst (h : changeFirst p change ps = some (pThis, processors))
    (hchange : (change pThis).countedType = pThis.countedType) (type : ProcessorType) :
    units type processors = units type ps +
      if pThis.countedType = type then (change pThis).computingUnits - pThis.computingUnits else 0 := by
  obtain ⟨-, before, after, hps, hprocessors⟩ := changeFirst_some h
  rw [hps, hprocessors]
  simp only [units_append, units_cons, hchange]
  split <;> omega

theorem shape_changeFirst (h : changeFirst p change ps = some (pThis, processors))
    (hchange : (change pThis).shape = pThis.shape) : processors.map Processor.shape = ps.map Processor.shape := by
  obtain ⟨-, before, after, hps, hprocessors⟩ := changeFirst_some h
  simp [hps, hprocessors, hchange]

/-- A property of processors survives a change that keeps it. -/
theorem forall_changeFirst {P : Processor φ → Prop} (h : changeFirst p change ps = some (pThis, processors))
    (hps : ∀ q ∈ ps, P q) (hchange : P pThis → P (change pThis)) : ∀ q ∈ processors, P q := by
  obtain ⟨-, before, after, rfl, rfl⟩ := changeFirst_some h
  intro q hq
  rcases List.mem_append.mp hq with hq | hq
  · exact hps q (by simp [hq])
  · rcases List.mem_cons.mp hq with rfl | hq
    · exact hchange (hps pThis (by simp))
    · exact hps q (by simp [hq])

/-- Which processor is the first compatible one is a question about the shape. -/
theorem firstCompatible_shape (h : ps.map Processor.shape = qs.map Processor.shape) :
    (firstCompatible p ps).map Processor.shape = (firstCompatible p qs).map Processor.shape := by
  induction ps generalizing qs with
  | nil =>
    cases qs with
    | nil => rfl
    | cons q qs => cases h
  | cons r ps ih =>
    cases qs with
    | nil => cases h
    | cons q qs =>
      simp only [List.map_cons, List.cons.injEq] at h
      have hc : checkProcessorCompatibility r p = checkProcessorCompatibility q p := by
        rw [← compatible_shape (q := r), ← compatible_shape (q := q), h.1]
      rw [firstCompatible, firstCompatible, List.find?_cons, List.find?_cons, hc]
      cases checkProcessorCompatibility q p with
      | true => simp [h.1]
      | false => exact ih h.2

/-- The processor that is given or gives: the first compatible one, or itself
when there is none. -/
def matched (p : Processor φ) (ps : List (Processor φ)) : Processor φ := (firstCompatible p ps).getD p

theorem matched_shape (h : ps.map Processor.shape = qs.map Processor.shape) :
    (matched p ps).shape = (matched p qs).shape := by
  have hs := firstCompatible_shape (p := p) h
  rw [matched, matched]
  cases hp : firstCompatible p ps with
  | none =>
    rw [hp] at hs
    rw [Option.map_eq_none_iff.mp hs.symm]
  | some q =>
    rw [hp] at hs
    obtain ⟨r, hr, hrq⟩ := Option.map_eq_some_iff.mp hs.symm
    rw [hr]
    exact hrq.symm

/-- The units of the processors asked for, each counted under the type of the
processor it is matched with. -/
def matchedUnits (type : ProcessorType) (ps asked : List (Processor φ)) : Int :=
  (asked.map fun p => if (matched p ps).countedType = type then p.computingUnits else 0).sum

theorem matchedUnits_cons (type : ProcessorType) (ps asked : List (Processor φ)) (p : Processor φ) :
    matchedUnits type ps (p :: asked) =
      (if (matched p ps).countedType = type then p.computingUnits else 0) + matchedUnits type ps asked := by
  simp [matchedUnits]

theorem matchedUnits_congr (type : ProcessorType) (asked : List (Processor φ))
    (h : ∀ p ∈ asked, (matched p ps).shape = (matched p qs).shape) :
    matchedUnits type ps asked = matchedUnits type qs asked := by
  rw [matchedUnits, matchedUnits, List.map_congr_left fun p hp => ?_]
  rw [← Processor.countedType_shape, h p hp, Processor.countedType_shape]

/-- Each is matched with one of its own type. -/
theorem matchedUnits_eq (type : ProcessorType) {asked : List (Processor φ)}
    (h : ∀ p ∈ asked, (matched p ps).countedType = p.countedType) : matchedUnits type ps asked = units type asked := by
  rw [matchedUnits, units, List.map_congr_left fun p hp => ?_]
  rw [h p hp]

/-! ## Giving -/

/-- `increaseDynamic` on the list of processors. -/
def give (ps : List (Processor φ)) (p : Processor φ) : List (Processor φ) :=
  match changeFirst p (·.addComputingUnits p.computingUnits) ps with
  | some (_, processors) => processors
  | none => ps ++ [p]

theorem give_units (type : ProcessorType) (ps : List (Processor φ)) (p : Processor φ) :
    units type (give ps p) =
      units type ps + if (matched p ps).countedType = type then p.computingUnits else 0 := by
  rw [give, matched]
  cases h : changeFirst p (·.addComputingUnits p.computingUnits) ps with
  | none =>
    rw [changeFirst_none.mp h]
    simp
  | some found =>
    rw [(changeFirst_some h).1]
    refine (units_changeFirst h rfl type).trans ?_
    simp [Processor.addComputingUnits]

/-- In turn, each is given to a processor of its own type, or added. -/
def Fits : List (Processor φ) → List (Processor φ) → Prop
  | _, [] => True
  | ps, p :: given => (matched p ps).countedType = p.countedType ∧ Fits (give ps p) given

theorem Fits.units {type : ProcessorType} : ∀ {given ps : List (Processor φ)}, Fits ps given →
    Resources.units type (given.foldl give ps) = Resources.units type ps + Resources.units type given
  | [], ps, _ => by simp
  | p :: given, ps, h => by
    rw [List.foldl_cons, h.2.units, give_units, h.1, units_cons]
    omega

theorem give_nonneg {given : List (Processor φ)} (hps : ∀ q ∈ ps, 0 ≤ q.computingUnits)
    (hgiven : ∀ q ∈ given, 0 ≤ q.computingUnits) : ∀ q ∈ given.foldl give ps, 0 ≤ q.computingUnits := by
  induction given generalizing ps with
  | nil => exact hps
  | cons p given ih =>
    have hp := hgiven p (by simp)
    refine ih ?_ fun q hq => hgiven q (by simp [hq])
    rw [give]
    split
    · next h =>
      refine forall_changeFirst h hps fun h0 => ?_
      simp only [Processor.addComputingUnits]
      omega
    · intro q hq
      rcases List.mem_append.mp hq with hq | hq
      · exact hps q hq
      · rw [List.mem_singleton.mp hq]
        exact hp

/-! ## Taking -/

/-- `reduceDynamic` on the list of processors: it ends at the first one that is
not found. -/
def takeAll : List (Processor φ) → List (Processor φ) → List (Processor φ)
  | ps, [] => ps
  | ps, p :: asked =>
    match changeFirst p (·.removeComputingUnits p.computingUnits) ps with
    | some (_, processors) => takeAll processors asked
    | none => ps

/-- Each of the processors asked for is compatible with one of the list. -/
def Found (ps asked : List (Processor φ)) : Prop := ∀ p ∈ asked, (firstCompatible p ps).isSome

theorem Found.shape {asked : List (Processor φ)} (h : Found ps asked)
    (hs : ps.map Processor.shape = qs.map Processor.shape) : Found qs asked := by
  intro p hp
  rw [← Option.isSome_map (f := Processor.shape), ← firstCompatible_shape hs, Option.isSome_map]
  exact h p hp

theorem takeAll_units (type : ProcessorType) : ∀ {asked ps : List (Processor φ)}, Found ps asked →
    units type (takeAll ps asked) = units type ps - matchedUnits type ps asked
  | [], ps, _ => by simp [takeAll, matchedUnits]
  | p :: asked, ps, h => by
    rw [takeAll, matchedUnits_cons, matched]
    cases hp : changeFirst p (·.removeComputingUnits p.computingUnits) ps with
    | none =>
      have := h p (by simp)
      rw [changeFirst_none.mp hp] at this
      cases this
    | some found =>
      have hs := shape_changeFirst hp rfl
      have hu := units_changeFirst hp rfl type
      have hfound : Found found.2 asked := Found.shape (fun q hq => h q (by simp [hq])) hs.symm
      have ih := takeAll_units type hfound
      rw [(changeFirst_some hp).1]
      rw [matchedUnits_congr type asked fun q _ => matched_shape hs] at ih
      simp only [Processor.removeComputingUnits] at hu
      change units type (takeAll found.2 asked) = _
      rw [ih, hu, Option.getD_some]
      split <;> omega

/-- In turn, each is taken from a processor of its own type that has as much. -/
def Covers : List (Processor φ) → List (Processor φ) → Prop
  | _, [] => True
  | ps, p :: asked => ∃ pThis processors,
    changeFirst p (·.removeComputingUnits p.computingUnits) ps = some (pThis, processors) ∧
      pThis.countedType = p.countedType ∧ 0 ≤ p.computingUnits ∧ p.computingUnits ≤ pThis.computingUnits ∧
      Covers processors asked

/-- Each is compatible first with a processor of its own type. -/
def Matches (ps asked : List (Processor φ)) : Prop :=
  ∀ p ∈ asked, ∃ q, firstCompatible p ps = some q ∧ q.countedType = p.countedType

theorem Matches.found {asked : List (Processor φ)} (h : Matches ps asked) : Found ps asked := by
  intro p hp
  obtain ⟨q, hq, -⟩ := h p hp
  rw [hq]
  rfl

theorem Matches.matchedUnits {asked : List (Processor φ)} (h : Matches ps asked) (type : ProcessorType) :
    Resources.matchedUnits type ps asked = units type asked := by
  refine matchedUnits_eq type fun p hp => ?_
  obtain ⟨q, hq, ht⟩ := h p hp
  rw [matched, hq]
  exact ht

theorem Covers.matches : ∀ {asked ps : List (Processor φ)}, Covers ps asked → Matches ps asked
  | [], _, _ => fun p hp => absurd hp List.not_mem_nil
  | p :: asked, ps, ⟨pThis, processors, hp, ht, _, _, h⟩ => by
    intro q hq
    rcases List.mem_cons.mp hq with rfl | hq
    · exact ⟨pThis, (changeFirst_some hp).1, ht⟩
    · obtain ⟨r, hr, hrt⟩ := h.matches q hq
      have hs := firstCompatible_shape (p := q) (shape_changeFirst hp rfl)
      rw [hr] at hs
      obtain ⟨r', hr', hrr⟩ := Option.map_eq_some_iff.mp hs.symm
      exact ⟨r', hr', by rw [← r'.countedType_shape, hrr]; exact hrt⟩

theorem Covers.nonneg : ∀ {asked ps : List (Processor φ)}, Covers ps asked → (∀ q ∈ ps, 0 ≤ q.computingUnits) →
    ∀ q ∈ takeAll ps asked, 0 ≤ q.computingUnits
  | [], _, _, hps => hps
  | p :: asked, ps, ⟨pThis, processors, hp, _, _, hle, h⟩, hps => by
    rw [takeAll, hp]
    refine h.nonneg (forall_changeFirst hp hps fun _ => ?_)
    simp only [Processor.removeComputingUnits]
    omega

theorem Covers.asked_nonneg : ∀ {asked ps : List (Processor φ)}, Covers ps asked → ∀ q ∈ asked, 0 ≤ q.computingUnits
  | [], _, _ => fun _ hq => absurd hq List.not_mem_nil
  | p :: asked, ps, ⟨_, _, _, _, h0, _, h⟩ => by
    intro q hq
    rcases List.mem_cons.mp hq with rfl | hq
    · exact h0
    · exact h.asked_nonneg q hq

/-! ## Giving and taking the same -/

theorem give_shape_le (ps : List (Processor φ)) (p : Processor φ) :
    ps.map Processor.shape <+: (give ps p).map Processor.shape := by
  rw [give]
  cases h : changeFirst p (·.addComputingUnits p.computingUnits) ps with
  | none => simp
  | some found => exact ⟨[], by simpa using (shape_changeFirst h rfl).symm⟩

theorem giveAll_shape_le (ps given : List (Processor φ)) :
    ps.map Processor.shape <+: (given.foldl give ps).map Processor.shape := by
  induction given generalizing ps with
  | nil => exact List.prefix_refl _
  | cons p given ih => exact (give_shape_le ps p).trans (ih (give ps p))

theorem firstCompatible_le (h : ps.map Processor.shape <+: qs.map Processor.shape)
    (hq : firstCompatible p ps = some q) : ∃ r, firstCompatible p qs = some r ∧ r.shape = q.shape := by
  obtain ⟨rest, hrest⟩ := h
  obtain ⟨as, bs, rfl, has, -⟩ := List.map_eq_append_iff.mp hrest.symm
  have hs := firstCompatible_shape (p := p) has
  rw [hq] at hs
  obtain ⟨r, hr, hrq⟩ := Option.map_eq_some_iff.mp hs
  refine ⟨r, ?_, hrq⟩
  rw [firstCompatible] at hr ⊢
  rw [List.find?_append, hr]
  rfl

/-- After a processor has been given it has a compatible one, which is of the
type it was given to. -/
theorem firstCompatible_give [LawfulJavaFloat φ] (ps : List (Processor φ)) (p : Processor φ) :
    ∃ r, firstCompatible p (give ps p) = some r ∧ r.shape = (matched p ps).shape := by
  rw [matched]
  cases hp : firstCompatible p ps with
  | some q => exact firstCompatible_le (give_shape_le ps p) hp
  | none =>
    refine ⟨p, ?_, rfl⟩
    have hc : changeFirst p (·.addComputingUnits p.computingUnits) ps = none := changeFirst_none.mpr hp
    rw [give, hc]
    rw [firstCompatible] at hp ⊢
    rw [List.find?_append, hp]
    simp [compatible_self]

theorem giveAll_units [LawfulJavaFloat φ] (type : ProcessorType) (given ps : List (Processor φ)) :
    Found (given.foldl give ps) given ∧
      units type (given.foldl give ps) = units type ps + matchedUnits type (given.foldl give ps) given := by
  induction given generalizing ps with
  | nil => exact ⟨fun p hp => absurd hp List.not_mem_nil, by simp [matchedUnits]⟩
  | cons p given ih =>
    obtain ⟨hfound, hunits⟩ := ih (give ps p)
    obtain ⟨q, hq, hqs⟩ := firstCompatible_give ps p
    obtain ⟨r, hr, hrs⟩ := firstCompatible_le (giveAll_shape_le (give ps p) given) hq
    rw [List.foldl_cons]
    constructor
    · intro x hx
      rcases List.mem_cons.mp hx with rfl | hx
      · rw [hr]; rfl
      · exact hfound x hx
    · have ht : (matched p (given.foldl give (give ps p))).countedType = (matched p ps).countedType := by
        rw [matched, hr, Option.getD_some, ← r.countedType_shape, hrs, hqs, Processor.countedType_shape]
      rw [hunits, give_units, matchedUnits_cons, ht]
      omega

/-- Units that are given and taken again are as many as before, of every type. -/
theorem takeAll_giveAll [LawfulJavaFloat φ] (type : ProcessorType) (ps given : List (Processor φ)) :
    units type (takeAll (given.foldl give ps) given) = units type ps := by
  obtain ⟨hfound, hunits⟩ := giveAll_units type given ps
  rw [takeAll_units type hfound, hunits]
  omega

end

/-! ## Descriptions -/

namespace MethodResourceDescription

section
variable {d : MethodResourceDescription φ} {p : Processor φ} {type : ProcessorType}

@[simp] theorem addProcessor_processors : (d.addProcessor p).processors = d.processors ++ [p] := rfl
@[simp] theorem addProcessor_memorySize : (d.addProcessor p).memorySize = d.memorySize := rfl

/-- A description built by adding processors: its totals tell which types it has. -/
def Counted (d : MethodResourceDescription φ) : Prop :=
  ∀ type, d.containsType type = true ↔ ∃ p ∈ d.processors, p.countedType = type

/-- The totals are at least the numbers of processors, and no processor is
missing in them. -/
def Built (d : MethodResourceDescription φ) : Prop :=
  ∀ type, 0 ≤ d.totalComputingUnits type ∧ (0 < d.totalComputingUnits type ↔ ∃ p ∈ d.processors, p.countedType = type)

theorem Built.counted (h : d.Built) : d.Counted := fun type => by
  rw [containsType, decide_eq_true_eq]
  exact (h type).2

theorem Built.addProcessor (h : d.Built) (p : Processor φ) : (d.addProcessor p).Built := by
  intro type
  obtain ⟨h0, hiff⟩ := h type
  have hpos : 0 < if p.computingUnits > 0 then p.computingUnits else 1 := by split <;> omega
  by_cases ht : p.countedType = type
  · subst ht
    have htotal : (d.addProcessor p).totalComputingUnits p.countedType = d.totalComputingUnits p.countedType +
        if p.computingUnits > 0 then p.computingUnits else 1 := Function.update_self ..
    rw [htotal]
    refine ⟨by omega, fun _ => ⟨p, by simp, rfl⟩, fun _ => by omega⟩
  · have htotal : (d.addProcessor p).totalComputingUnits type = d.totalComputingUnits type :=
      Function.update_of_ne (Ne.symm ht) ..
    rw [htotal]
    refine ⟨h0, hiff.trans ⟨fun ⟨q, hq, hqt⟩ => ⟨q, by simp [hq], hqt⟩, fun ⟨q, hq, hqt⟩ => ?_⟩⟩
    rcases List.mem_append.mp hq with hq | hq
    · exact ⟨q, hq, hqt⟩
    · rw [List.mem_singleton.mp hq] at hqt
      exact absurd hqt ht

theorem foldl_addProcessor_processors (ps : List (Processor φ)) (d : MethodResourceDescription φ) :
    (ps.foldl addProcessor d).processors = d.processors ++ ps := by
  induction ps generalizing d with
  | nil => simp
  | cons p ps ih => simp [ih]

theorem foldl_addProcessor_memorySize (ps : List (Processor φ)) (d : MethodResourceDescription φ) :
    (ps.foldl addProcessor d).memorySize = d.memorySize := by
  induction ps generalizing d with
  | nil => rfl
  | cons p ps ih => exact ih _

theorem copy_processors (d : MethodResourceDescription φ) : d.copy.processors = d.processors :=
  (foldl_addProcessor_processors _ _).trans (List.nil_append _)

theorem copy_memorySize (d : MethodResourceDescription φ) : d.copy.memorySize = d.memorySize :=
  foldl_addProcessor_memorySize _ _

end

section
variable [JavaFloat φ] {d reduced : MethodResourceDescription φ}

theorem new_built : (new : MethodResourceDescription φ).Built := fun type =>
  ⟨Int.le_refl 0, fun h => absurd h (Int.lt_irrefl 0), fun ⟨_, hp, _⟩ => absurd hp List.not_mem_nil⟩

@[simp] theorem setMemorySize_processors (m : φ) : (d.setMemorySize m).processors = d.processors := by
  rw [setMemorySize]; split <;> rfl

@[simp] theorem setMemoryType_processors (m : String) : (d.setMemoryType m).processors = d.processors := by
  rw [setMemoryType]; split <;> rfl

@[simp] theorem setMemorySize_totalComputingUnits (m : φ) :
    (d.setMemorySize m).totalComputingUnits = d.totalComputingUnits := by rw [setMemorySize]; split <;> rfl

@[simp] theorem setMemoryType_totalComputingUnits (m : String) :
    (d.setMemoryType m).totalComputingUnits = d.totalComputingUnits := by rw [setMemoryType]; split <;> rfl

@[simp] theorem setMemoryType_memorySize (m : String) : (d.setMemoryType m).memorySize = d.memorySize := by
  rw [setMemoryType]; split <;> rfl

theorem increaseProcessor_processors (p : Processor φ) : (d.increaseProcessor p).processors = give d.processors p := by
  rw [increaseProcessor, give]
  split <;> simp_all [increaseComputingUnits]

theorem foldl_increaseProcessor_processors (ps : List (Processor φ)) (d : MethodResourceDescription φ) :
    (ps.foldl increaseProcessor d).processors = ps.foldl give d.processors := by
  induction ps generalizing d with
  | nil => rfl
  | cons p ps ih => rw [List.foldl_cons, ih, increaseProcessor_processors, List.foldl_cons]

theorem increaseDynamic_processors (d mrd2 : MethodResourceDescription φ) :
    (d.increaseDynamic mrd2).processors = mrd2.processors.foldl give d.processors := by
  rw [← foldl_increaseProcessor_processors, increaseDynamic]
  split <;> rfl

theorem increase_processors (d mrd2 : MethodResourceDescription φ) :
    (d.increase mrd2).processors = mrd2.processors.foldl give d.processors :=
  increaseDynamic_processors d mrd2

/-- What `reduceProcessors` leaves, and what it has taken when each processor is
found. -/
theorem reduceProcessors_processors : ∀ (asked : List (Processor φ)) (d reduced : MethodResourceDescription φ),
    (reduceProcessors d reduced asked).1.processors = takeAll d.processors asked ∧
    (reduceProcessors d reduced asked).1.memorySize = d.memorySize ∧
    ∀ r, (reduceProcessors d reduced asked).2 = some r → Found d.processors asked ∧
      r = (asked.map fun p => (matched p d.processors).setComputingUnits p.computingUnits).foldl addProcessor reduced
  | [], d, reduced => ⟨rfl, rfl, fun r hr => by
      cases hr
      exact ⟨fun p hp => absurd hp List.not_mem_nil, rfl⟩⟩
  | p :: asked, d, reduced => by
    rw [reduceProcessors, takeAll]
    cases hp : changeFirst p (·.removeComputingUnits p.computingUnits) d.processors with
    | none => exact ⟨rfl, rfl, fun r hr => by cases hr⟩
    | some found =>
      obtain ⟨pThis, processors⟩ := found
      obtain ⟨hfirst, -⟩ := changeFirst_some hp
      have hs := shape_changeFirst hp rfl
      obtain ⟨h1, h2, h3⟩ := reduceProcessors_processors asked
        ({ d with processors := processors }.decreaseComputingUnits pThis.type p.computingUnits)
        (reduced.addProcessor (pThis.setComputingUnits p.computingUnits))
      refine ⟨h1, h2, fun r hr => ?_⟩
      obtain ⟨hfound, hr⟩ := h3 r hr
      have hfound := Found.shape hfound hs
      refine ⟨fun q hq => ?_, ?_⟩
      · rcases List.mem_cons.mp hq with rfl | hq
        · rw [hfirst]; rfl
        · exact hfound q hq
      · rw [hr, List.map_cons, List.foldl_cons]
        have hp' : matched p d.processors = pThis := by rw [matched, hfirst, Option.getD_some]
        rw [hp']
        congr 1
        refine List.map_congr_left fun q _ => ?_
        exact congrArg (·.setComputingUnits q.computingUnits) (matched_shape (p := q) hs)

theorem reduceDynamic_processors (d mrd2 : MethodResourceDescription φ) :
    (d.reduceDynamic mrd2).1.processors = takeAll d.processors mrd2.processors := by
  obtain ⟨h, -, -⟩ := reduceProcessors_processors mrd2.processors d new
  rw [← h, reduceDynamic]
  split
  · next he => rw [he]
  · next he =>
    rw [he]
    split
    · split <;> rfl
    · rfl

theorem reduce_processors (d mrd2 : MethodResourceDescription φ) :
    (d.reduce mrd2).processors = takeAll d.processors mrd2.processors := reduceDynamic_processors d mrd2

/-- A memory size that is not assigned, or not negative. -/
def SaneMemory (m : φ) : Prop := JavaFloat.eq m JavaFloat.unassigned = true ∨ JavaFloat.ge m JavaFloat.zero = true

/-- What has been taken: for each processor asked for, that many units of the
one it is matched with. -/
structure IsTaken (ps : List (Processor φ)) (asked : List (Processor φ)) (r : MethodResourceDescription φ) : Prop where
  found : Found ps asked
  processors : r.processors = asked.map fun p => (matched p ps).setComputingUnits p.computingUnits
  built : r.Built
  memory : SaneMemory r.memorySize

theorem setMemorySize_sane [LawfulJavaFloat φ] (h : SaneMemory d.memorySize) (m : φ) :
    SaneMemory (d.setMemorySize m).memorySize := by
  rw [setMemorySize]
  split
  · next hgt => exact .inr (LawfulJavaFloat.ge_of_gt _ _ hgt)
  · exact h

theorem reduceDynamic_taken [LawfulJavaFloat φ] {mrd2 r : MethodResourceDescription φ}
    (h : (d.reduceDynamic mrd2).2 = some r) : IsTaken d.processors mrd2.processors r := by
  obtain ⟨-, -, hsome⟩ := reduceProcessors_processors mrd2.processors d new
  rw [reduceDynamic] at h
  split at h
  · cases h
  · next d' reduced he =>
    rw [he] at hsome
    obtain ⟨hfound, hr⟩ := hsome reduced rfl
    have hprocessors : reduced.processors =
        mrd2.processors.map fun p => (matched p d.processors).setComputingUnits p.computingUnits := by
      rw [hr, foldl_addProcessor_processors]
      rfl
    have hbuilt : reduced.Built := by
      rw [hr]
      generalize mrd2.processors.map _ = ps
      generalize hn : (new : MethodResourceDescription φ) = n
      have hb : n.Built := hn ▸ new_built
      clear hn
      induction ps generalizing n with
      | nil => exact hb
      | cons p ps ih => exact ih _ (hb.addProcessor p)
    have hmemory : SaneMemory reduced.memorySize := by
      rw [hr, foldl_addProcessor_memorySize]
      exact .inl LawfulJavaFloat.eq_unassigned
    -- the memory is set, the processors stay
    have htaken : ∀ (t : String) (m : φ), IsTaken d.processors mrd2.processors ((reduced.setMemoryType t).setMemorySize m) :=
      fun t m => ⟨hfound, by simpa using hprocessors, by simpa [Built] using hbuilt,
        setMemorySize_sane (by simpa using hmemory) m⟩
    split at h
    · split at h
      · cases h; exact htaken _ _
      · cases h; exact htaken _ _
    · cases h

theorem reduceDynamic_memory [LawfulJavaFloat φ] (h : SaneMemory d.memorySize) (mrd2 : MethodResourceDescription φ) :
    SaneMemory (d.reduceDynamic mrd2).1.memorySize := by
  obtain ⟨-, hm, -⟩ := reduceProcessors_processors mrd2.processors d new
  rw [reduceDynamic]
  split
  · next d' he => rw [he] at hm; rw [hm]; exact h
  · next d' reduced he =>
    rw [he] at hm
    dsimp only at hm
    split
    · next hc =>
      split
      · rw [hm]; exact h
      · next hassigned =>
        -- both sizes are assigned, so that the check compared them
        simp only [Bool.or_eq_true, not_or, Bool.not_eq_true] at hassigned
        simp only [checkMemory, checkInclusionFloat, Bool.and_eq_true, Bool.or_eq_true] at hc
        rcases hc.1 with (hge | hun) | hun
        · exact .inr (LawfulJavaFloat.sub_nonneg _ _ hge)
        · rw [hassigned.2] at hun; cases hun
        · rw [hassigned.1] at hun; cases hun
    · rw [hm]; exact h

theorem foldl_increaseProcessor_memorySize (ps : List (Processor φ)) (d : MethodResourceDescription φ) :
    (ps.foldl increaseProcessor d).memorySize = d.memorySize := by
  induction ps generalizing d with
  | nil => rfl
  | cons p ps ih =>
    rw [List.foldl_cons, ih, increaseProcessor]
    split <;> rfl

theorem increaseDynamic_memory [LawfulJavaFloat φ] {mrd2 : MethodResourceDescription φ} (h : SaneMemory d.memorySize)
    (h2 : SaneMemory mrd2.memorySize) : SaneMemory (d.increaseDynamic mrd2).memorySize := by
  have hm := foldl_increaseProcessor_memorySize mrd2.processors d
  rw [increaseDynamic]
  split
  · next hassigned =>
    simp only [hm, Bool.and_eq_true, Bool.not_eq_true'] at hassigned
    rcases h with h | h
    · rw [hassigned.1] at h; cases h
    · rcases h2 with h2 | h2
      · rw [hassigned.2] at h2; cases h2
      · rw [hm]; exact .inr (LawfulJavaFloat.add_nonneg _ _ h h2)
  · rw [hm]; exact h

end

end MethodResourceDescription

end Compss.Resources
