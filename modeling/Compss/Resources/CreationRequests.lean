/-
`ResourceOptimizer.askForResources`: which instance is requested for a number of
slots, and of which provider.

Each provider that can host more instances selects one of its compatible types
by the distance of its slots to the amount, and the provider of the least cost
gets the request. The selector for a resource that is contained in the request
skips the types with too few slots and the selector for a containing one those
with too many: `askForResources_iff` says when what is requested is what was
asked for all the same.

What an instance costs is answered by a connector, and is a parameter.
-/
import Compss.Resources.BestDestruction
import Compss.Resources.CloudDescriptions
import Compss.Resources.Hosting
import Mathlib

namespace Compss.Resources

open JavaFloat OptimizerFloat

/-- Nothing costs less than the most there is. -/
class LinearOptimizerFloat (φ : Type) [LinearOrder φ] [JavaFloat φ] [OptimizerFloat φ] : Prop extends
    LinearJavaFloat φ where
  zero_lt_maxValue : (zero : φ) < maxValue

/-- `Integer.MIN_VALUE`. -/
def minInt : Int := -2 ^ 31

/-- What the optimizer reads of a provider; the types and the images in the
order in which their tables give them. -/
structure CloudProvider (φ : Type) where
  name : String
  limitOfVMs : Option Int
  currentVMCount : Int
  types : List (CloudInstanceTypeDescription φ)
  images : List CloudImageDescription

abbrev InstanceRequest (φ : Type) := CloudMethodResourceDescription φ (CloudInstanceTypeDescription φ)

section
variable {φ : Type} [JavaFloat φ] [JavaQuotient φ] [OptimizerFloat φ]

namespace CloudProvider

def canHostMoreInstances (cp : CloudProvider φ) : Bool :=
  match cp.limitOfVMs with
  | none => true
  | some limit => limit = -1 || cp.currentVMCount < limit

omit [JavaQuotient φ] [OptimizerFloat φ] in
/-- A provider without types makes one up of what is requested. -/
def compatibleTypes (cp : CloudProvider φ) (requested : MethodResourceDescription φ) :
    List (CloudInstanceTypeDescription φ) :=
  if cp.types.isEmpty then [⟨"NO TYPE", requested⟩] else cp.types.filter fun type => type.rd.contains requested

/-- A type that is made up counts its slots for every implementation that is
registered, which can raise an exception: `none`. -/
def getCompatibleTypes (coreRequirements : List (MethodResourceDescription φ)) (cp : CloudProvider φ)
    (requested : MethodResourceDescription φ) : Option (List (CloudInstanceTypeDescription φ)) :=
  if cp.types.isEmpty && coreRequirements.any fun reqs => (requested.canHostSimultaneously reqs).isNone then none
  else some (cp.compatibleTypes requested)

def isCompatible (cid : CloudImageDescription) (requested : MethodResourceDescription φ) : Bool :=
  checkCompatibility cid.operatingSystemType requested.operatingSystemType &&
    checkCompatibility cid.operatingSystemDistribution requested.operatingSystemDistribution &&
    checkCompatibility cid.operatingSystemVersion requested.operatingSystemVersion &&
    requested.appSoftware.all (cid.appSoftware.contains ·) &&
    (requested.hostQueues.isEmpty || requested.hostQueues.any (cid.queues.contains ·))

def getCompatibleImages (cp : CloudProvider φ) (requested : MethodResourceDescription φ) : List CloudImageDescription :=
  cp.images.filter fun cid => isCompatible cid requested

end CloudProvider

namespace ResourceOptimizer

/-- What tells the two selectors apart. -/
structure Selector (φ : Type) where
  skips : φ → Bool
  nearer : φ → φ → Bool
  /-- The best distance before any type is selected. -/
  farthest : φ

/-- The variables of a selector; the best description is the one of `result`. -/
structure Selection (φ : Type) where
  result : Option (CloudInstanceTypeDescription φ)
  bestDistance : φ

/-- The `int` difference, as a `float`. -/
def distance (slots amount : Int) : φ := ofInt ((slots - amount).bmod (2 ^ 32))

/-- A turn of the loop over the types. -/
def selectTurn (sel : Selector φ) (constraints : MethodResourceDescription φ) (amount : Int) (s : Selection φ)
    (type : CloudInstanceTypeDescription φ) : Option (Selection φ) :=
  (type.rd.canHostSimultaneously constraints).map fun slots =>
    let distance : φ := distance slots amount
    if sel.skips distance then s
    else if sel.nearer distance s.bestDistance then ⟨some type, distance⟩
    else
      match s.result with
      | some best =>
        if eq distance s.bestDistance && gt best.rd.value type.rd.value then ⟨some type, distance⟩ else s
      | none => s

def selectInstance (sel : Selector φ) (instances : List (CloudInstanceTypeDescription φ))
    (constraints : MethodResourceDescription φ) (amount : Int) : Option (Option (CloudInstanceTypeDescription φ)) :=
  (instances.foldlM (selectTurn sel constraints amount) ⟨none, sel.farthest⟩).map Selection.result

omit [JavaQuotient φ] in
def containing : Selector φ := ⟨fun distance => gt distance zero, fun distance best => gt distance best, ofInt minInt⟩

omit [JavaQuotient φ] in
def contained : Selector φ := ⟨fun distance => gt zero distance, fun distance best => gt best distance, ofInt maxInt⟩

def selectContainingInstance : List (CloudInstanceTypeDescription φ) → MethodResourceDescription φ → Int →
    Option (Option (CloudInstanceTypeDescription φ)) := selectInstance containing

def selectContainedInstance : List (CloudInstanceTypeDescription φ) → MethodResourceDescription φ → Int →
    Option (Option (CloudInstanceTypeDescription φ)) := selectInstance contained

variable (coreRequirements : List (MethodResourceDescription φ))
  (getInstanceCostPerHour : CloudProvider φ → InstanceRequest φ → φ)

def getBestIncreaseOnProvider (cp : CloudProvider φ) (amount : Int) (requirements : MethodResourceDescription φ)
    (contained : Bool) : Option (Option (InstanceRequest φ)) :=
  if cp.canHostMoreInstances then do
    let instances ← cp.getCompatibleTypes coreRequirements requirements
    if instances.isEmpty then some none
    else
      let type ← if contained then selectContainedInstance instances requirements amount
        else selectContainingInstance instances requirements amount
      match type, cp.getCompatibleImages requirements with
      | some type, image :: _ =>
        let result := CloudMethodResourceDescription.ofType type type.rd image
        some (some (result.setValue (getInstanceCostPerHour cp result)))
      | _, _ => some none
  else some none

/-- The variables of `askForResources`. -/
structure BestProvider (φ : Type) where
  best : Option (CloudProvider φ × InstanceRequest φ)
  bestValue : φ

def askTurn (amount : Int) (requirements : MethodResourceDescription φ) (contained : Bool) (s : BestProvider φ)
    (cp : CloudProvider φ) : Option (BestProvider φ) :=
  (getBestIncreaseOnProvider coreRequirements getInstanceCostPerHour cp amount requirements contained).map fun
    | some rc => if gt s.bestValue rc.value || s.best.isNone then ⟨some (cp, rc), rc.value⟩ else s
    | none => s

/-- The request that is made, and of whom; none when an exception is raised. -/
def askForResources (providers : List (CloudProvider φ)) (amount : Int) (requirements : MethodResourceDescription φ)
    (contained : Bool) : Option (Option (CloudProvider φ × InstanceRequest φ)) :=
  (providers.foldlM (askTurn coreRequirements getInstanceCostPerHour amount requirements contained)
    ⟨none, maxValue⟩).map BestProvider.best

/-! ## What is selected -/

/-- The slots of a type for the requirements, and none when counting them
raises. -/
def slots (constraints : MethodResourceDescription φ) (type : CloudInstanceTypeDescription φ) : Int :=
  (type.rd.canHostSimultaneously constraints).getD 0

def distanceOf (constraints : MethodResourceDescription φ) (amount : Int) (type : CloudInstanceTypeDescription φ) : φ :=
  distance (slots constraints type) amount

/-- A selector does not pass over the type. -/
def Fits (sel : Selector φ) (constraints : MethodResourceDescription φ) (amount : Int)
    (type : CloudInstanceTypeDescription φ) : Bool :=
  !sel.skips (distanceOf constraints amount type) && sel.nearer (distanceOf constraints amount type) sel.farthest

/-- The types that a selector chooses from. -/
def candidates (sel : Selector φ) (constraints : MethodResourceDescription φ) (amount : Int)
    (types : List (CloudInstanceTypeDescription φ)) : List (CloudInstanceTypeDescription φ) :=
  types.filter (Fits sel constraints amount)

/-- The selectors compare distances by an order of their own. -/
structure Selector.Ordered {ψ : Type} [LinearOrder ψ] (sel : Selector φ) (κ : φ → ψ) : Prop where
  injective : Function.Injective κ
  nearer_iff : ∀ x y, sel.nearer x y = true ↔ κ x < κ y

section
variable [LinearOrder φ] [LinearOptimizerFloat φ] {ψ : Type} [LinearOrder ψ] {sel : Selector φ} {κ : φ → ψ}
  {constraints : MethodResourceDescription φ} {amount : Int} {types : List (CloudInstanceTypeDescription φ)}

open Classical in
/-- Nearer, or as near and of less value, or the same in both and earlier. -/
def Outranks (sel : Selector φ) (constraints : MethodResourceDescription φ) (amount : Int)
    (types : List (CloudInstanceTypeDescription φ)) (t u : CloudInstanceTypeDescription φ) : Prop :=
  sel.nearer (distanceOf constraints amount t) (distanceOf constraints amount u) = true ∨
    (distanceOf constraints amount t : φ) = distanceOf constraints amount u ∧
      (t.rd.value < u.rd.value ∨ t.rd.value = u.rd.value ∧ types.idxOf t < types.idxOf u)

/-- What is compared, but for the positions. -/
def rank (κ : φ → ψ) (constraints : MethodResourceDescription φ) (amount : Int)
    (type : CloudInstanceTypeDescription φ) : ψ ×ₗ φ :=
  toLex (κ (distanceOf constraints amount type), type.rd.value)

/-- The variables after a loop over types. -/
def selected (sel : Selector φ) (κ : φ → ψ) (constraints : MethodResourceDescription φ) (amount : Int)
    (types : List (CloudInstanceTypeDescription φ)) : Selection φ :=
  match (candidates sel constraints amount types).argmin (rank κ constraints amount) with
  | none => ⟨none, sel.farthest⟩
  | some type => ⟨some type, distanceOf constraints amount type⟩

variable (constraints amount) in
theorem rank_lt_iff (h : Selector.Ordered sel κ) (t u : CloudInstanceTypeDescription φ) :
    rank κ constraints amount t < rank κ constraints amount u ↔
      sel.nearer (distanceOf constraints amount t) (distanceOf constraints amount u) = true ∨
        (distanceOf constraints amount t : φ) = distanceOf constraints amount u ∧ t.rd.value < u.rd.value := by
  rw [rank, rank, Prod.Lex.toLex_lt_toLex, h.nearer_iff, h.injective.eq_iff]

/-- The loop keeps the first of the least candidates. -/
theorem selected_concat (type : CloudInstanceTypeDescription φ) :
    selected sel κ constraints amount (types ++ [type]) =
      if Fits sel constraints amount type then
        match (candidates sel constraints amount types).argmin (rank κ constraints amount) with
        | none => ⟨some type, distanceOf constraints amount type⟩
        | some best =>
          if rank κ constraints amount type < rank κ constraints amount best then
            ⟨some type, distanceOf constraints amount type⟩
          else ⟨some best, distanceOf constraints amount best⟩
      else selected sel κ constraints amount types := by
  rw [selected, candidates, List.filter_append]
  by_cases hfits : Fits sel constraints amount type = true
  · rw [if_pos hfits, List.filter_singleton, hfits, cond_true, List.argmin_concat, ← candidates]
    cases (candidates sel constraints amount types).argmin (rank κ constraints amount) with
    | none => rfl
    | some best =>
      dsimp only
      by_cases hlt : rank κ constraints amount type < rank κ constraints amount best
      · rw [if_pos hlt, if_pos hlt]
      · rw [if_neg hlt, if_neg hlt]
  · rw [if_neg hfits, List.filter_singleton, Bool.eq_false_of_not_eq_true hfits, cond_false, List.append_nil]
    rfl

theorem selectTurn_selected (h : Selector.Ordered sel κ) {type : CloudInstanceTypeDescription φ}
    (hslots : (type.rd.canHostSimultaneously constraints).isSome = true) :
    selectTurn sel constraints amount (selected sel κ constraints amount types) type =
      some (selected sel κ constraints amount (types ++ [type])) := by
  obtain ⟨n, hn⟩ := Option.isSome_iff_exists.mp hslots
  have hdistance : (distance n amount : φ) = distanceOf constraints amount type := by
    rw [distanceOf, slots, hn]
    rfl
  rw [selectTurn, hn, Option.map_some, hdistance, selected_concat]
  congr 1
  dsimp only
  by_cases hskips : sel.skips (distanceOf constraints amount type) = true
  · have hfits : Fits sel constraints amount type = false := by simp [Fits, hskips]
    rw [if_pos hskips, hfits, if_neg Bool.false_ne_true]
  · have hfits : Fits sel constraints amount type =
        sel.nearer (distanceOf constraints amount type) sel.farthest := by
      simp [Fits, hskips]
    rw [if_neg hskips, hfits, selected]
    cases hbest : (candidates sel constraints amount types).argmin (rank κ constraints amount) with
    | none => rfl
    | some best =>
      have hnearer : sel.nearer (distanceOf constraints amount best) sel.farthest = true := by
        have := (List.mem_filter.mp (List.argmin_mem hbest)).2
        simp only [Fits, Bool.and_eq_true] at this
        exact this.2
      have hlt := rank_lt_iff constraints amount h type best
      dsimp only
      by_cases hn : sel.nearer (distanceOf constraints amount type) (distanceOf constraints amount best) = true
      · have hfar : sel.nearer (distanceOf constraints amount type) sel.farthest = true :=
          (h.nearer_iff _ _).mpr (((h.nearer_iff _ _).mp hn).trans ((h.nearer_iff _ _).mp hnearer))
        rw [if_pos hn, if_pos hfar, if_pos (hlt.mpr (.inl hn))]
      · rw [if_neg hn]
        by_cases heq : (distanceOf constraints amount type : φ) = distanceOf constraints amount best ∧
            type.rd.value < best.rd.value
        · have hcheaper : (eq (distanceOf constraints amount type) (distanceOf constraints amount best) &&
              gt best.rd.value type.rd.value) = true := by
            rw [Bool.and_eq_true, LinearJavaFloat.eq_iff, LinearJavaFloat.gt_iff]
            exact heq
          rw [if_pos hcheaper, heq.1, if_pos hnearer, if_pos (hlt.mpr (.inr heq)), ← heq.1]
        · have hcheaper : ¬ (eq (distanceOf constraints amount type) (distanceOf constraints amount best) &&
              gt best.rd.value type.rd.value) = true := by
            rw [Bool.and_eq_true, LinearJavaFloat.eq_iff, LinearJavaFloat.gt_iff]
            exact heq
          rw [if_neg hcheaper, if_neg fun hr => (hlt.mp hr).elim hn heq]
          split <;> rfl

theorem selectTurns (h : Selector.Ordered sel κ)
    (hslots : ∀ type ∈ types, (type.rd.canHostSimultaneously constraints).isSome = true) :
    types.foldlM (selectTurn sel constraints amount) ⟨none, sel.farthest⟩ =
      some (selected sel κ constraints amount types) := by
  induction types using List.reverseRecOn with
  | nil => rfl
  | append_singleton types type ih =>
    rw [List.foldlM_append, ih fun t ht => hslots t (List.mem_append_left _ ht)]
    exact (bind_pure _).trans (selectTurn_selected h (hslots type (by simp)))

/-- The candidate that is selected outranks the others. -/
theorem selectInstance_spec (h : Selector.Ordered sel κ)
    (hslots : ∀ type ∈ types, (type.rd.canHostSimultaneously constraints).isSome = true) :
    ∃ result, selectInstance sel types constraints amount = some result ∧
      (result = none → candidates sel constraints amount types = []) ∧
      ∀ best, result = some best → best ∈ candidates sel constraints amount types ∧
        ∀ u ∈ candidates sel constraints amount types, u ≠ best →
          Outranks sel constraints amount (candidates sel constraints amount types) best u := by
  classical
  refine ⟨(candidates sel constraints amount types).argmin (rank κ constraints amount), ?_, List.argmin_eq_none.mp,
    fun best hbest => ⟨List.argmin_mem hbest, fun u hu hne => ?_⟩⟩
  · rw [selectInstance, selectTurns h hslots, Option.map_some, selected]
    cases (candidates sel constraints amount types).argmin (rank κ constraints amount) <;> rfl
  · rcases (List.le_of_mem_argmin hu hbest).lt_or_eq with hlt | heq
    · exact ((rank_lt_iff _ _ h best u).mp hlt).imp_right fun hcheaper => ⟨hcheaper.1, .inl hcheaper.2⟩
    · have hboth := Prod.ext_iff.mp (toLex_inj.mp heq)
      refine .inr ⟨h.injective hboth.1, .inr ⟨hboth.2, ?_⟩⟩
      have hindex := List.index_of_argmin hbest hu heq.ge
      convert lt_of_le_of_ne hindex fun he => hne ((List.idxOf_inj (List.argmin_mem hbest)).mp he).symm

theorem Outranks.asymm {t u : CloudInstanceTypeDescription φ} (h : Selector.Ordered sel κ)
    (htu : Outranks sel constraints amount types t u) : ¬ Outranks sel constraints amount types u t := by
  simp only [Outranks, h.nearer_iff] at htu ⊢
  rintro hut
  rcases htu with htu | ⟨heq, htu | ⟨hvalue, htu⟩⟩ <;> rcases hut with hut | ⟨heq', hut | ⟨hvalue', hut⟩⟩
  · exact htu.asymm hut
  · exact htu.ne (congrArg κ heq'.symm)
  · exact htu.ne (congrArg κ heq'.symm)
  · exact hut.ne (congrArg κ heq.symm)
  · exact htu.asymm hut
  · exact htu.ne hvalue'.symm
  · exact hut.ne (congrArg κ heq.symm)
  · exact hut.ne hvalue.symm
  · exact htu.asymm hut

/-- What is selected has a property when it outranks, among the candidates,
all that have not. -/
theorem selectInstance_iff (h : Selector.Ordered sel κ)
    (hslots : ∀ type ∈ types, (type.rd.canHostSimultaneously constraints).isSome = true)
    (good : CloudInstanceTypeDescription φ → Prop) :
    (∀ best, selectInstance sel types constraints amount = some (some best) → good best) ↔
      ∀ u ∈ candidates sel constraints amount types, ¬ good u →
        ∃ t ∈ candidates sel constraints amount types, good t ∧
          Outranks sel constraints amount (candidates sel constraints amount types) t u := by
  obtain ⟨result, hresult, hnone, hsome⟩ := selectInstance_spec h hslots
  rw [hresult]
  cases result with
  | none =>
    rw [hnone rfl]
    exact iff_of_true (by simp) (by simp)
  | some best =>
    obtain ⟨hmem, hbest⟩ := hsome best rfl
    constructor
    · intro hgood u hu hbad
      have hne : u ≠ best := fun he => hbad (he ▸ hgood best rfl)
      exact ⟨best, hmem, hgood best rfl, hbest u hu hne⟩
    · intro hall best' he
      cases he
      by_contra hbad
      obtain ⟨t, ht, hgood, hrank⟩ := hall best hmem hbad
      have hne : t ≠ best := fun he => hbad (he ▸ hgood)
      exact hrank.asymm h (hbest t ht hne)

end

section
variable [LinearOrder φ] [LinearOptimizerFloat φ]

omit [JavaQuotient φ] in
theorem containing_ordered : (containing : Selector φ).Ordered OrderDual.toDual where
  injective := OrderDual.toDual.injective
  nearer_iff x y := LinearJavaFloat.gt_iff x y

omit [JavaQuotient φ] in
theorem contained_ordered : (contained : Selector φ).Ordered (id : φ → φ) where
  injective := Function.injective_id
  nearer_iff x y := LinearJavaFloat.gt_iff y x

end

/-! ## What is asked for -/

/-- A provider that can host more instances, with an image that is compatible. -/
structure Eligible (requirements : MethodResourceDescription φ) (cp : CloudProvider φ) : Prop where
  hosts : cp.canHostMoreInstances = true
  image : cp.getCompatibleImages requirements ≠ []

/-- An eligible provider has a type that can run the requirements at least
once. -/
def Satisfiable (providers : List (CloudProvider φ)) (requirements : MethodResourceDescription φ) : Prop :=
  ∃ cp ∈ providers, Eligible requirements cp ∧ ∃ t ∈ cp.compatibleTypes requirements, 1 ≤ slots requirements t

/-- An eligible provider has a type with some slots, and not more than the
amount. -/
def Fillable (providers : List (CloudProvider φ)) (amount : Int) (requirements : MethodResourceDescription φ) : Prop :=
  ∃ cp ∈ providers, Eligible requirements cp ∧
    ∃ t ∈ cp.compatibleTypes requirements, 1 ≤ slots requirements t ∧ slots requirements t ≤ amount

/-- What the instance that is requested should cover. -/
def Wanted (providers : List (CloudProvider φ)) (amount : Int) (requirements : MethodResourceDescription φ)
    (contained : Bool) (type : CloudInstanceTypeDescription φ) : Prop :=
  1 ≤ slots requirements type ∧
    (contained = true → Fillable providers amount requirements → slots requirements type ≤ amount)

/-- A request has been made, of an instance that covers what it should. -/
def Served (providers : List (CloudProvider φ)) (amount : Int) (requirements : MethodResourceDescription φ)
    (contained : Bool) (answer : Option (Option (CloudProvider φ × InstanceRequest φ))) : Prop :=
  ∃ cp rc type, answer = some (some (cp, rc)) ∧ rc.typeComposition = AList.singleton type 1 ∧
    Wanted providers amount requirements contained type

def selector (contained : Bool) : Selector φ := if contained then ResourceOptimizer.contained else containing

/-- The types that a provider's selector chooses from. -/
def offered (amount : Int) (requirements : MethodResourceDescription φ) (contained : Bool) (cp : CloudProvider φ) :
    List (CloudInstanceTypeDescription φ) :=
  candidates (selector contained) requirements amount (cp.compatibleTypes requirements)

/-- No provider that would make up a type meets an implementation that cannot be
counted, some eligible provider has a type that its selector does not pass
over, and in each one those that are wanted outrank those that are not. -/
structure Matches [LinearOrder φ] (coreRequirements : List (MethodResourceDescription φ))
    (providers : List (CloudProvider φ)) (amount : Int) (requirements : MethodResourceDescription φ)
    (contained : Bool) : Prop where
  counted : ∀ cp ∈ providers, cp.canHostMoreInstances = true → cp.types = [] →
    ∀ reqs ∈ coreRequirements, (requirements.canHostSimultaneously reqs).isSome = true
  offers : ∃ cp ∈ providers, Eligible requirements cp ∧ offered amount requirements contained cp ≠ []
  wanted : ∀ cp ∈ providers, Eligible requirements cp → ∀ u ∈ offered amount requirements contained cp,
    ¬ Wanted providers amount requirements contained u →
    ∃ t ∈ offered amount requirements contained cp, Wanted providers amount requirements contained t ∧
      Outranks (selector contained) requirements amount (offered amount requirements contained cp) t u

/-! ## What a provider offers -/

section
variable {coreRequirements : List (MethodResourceDescription φ)}
  {getInstanceCostPerHour : CloudProvider φ → InstanceRequest φ → φ} {providers : List (CloudProvider φ)}
  {cp : CloudProvider φ} {amount : Int} {requirements : MethodResourceDescription φ} {contained : Bool}
  [LinearOrder φ] [LinearOptimizerFloat φ]

/-- A type that contains the requirements has a processor for each they ask for,
and so has one that is made of them. -/
theorem exists_compatible {t : CloudInstanceTypeDescription φ} (ht : t ∈ cp.compatibleTypes requirements)
    {p : Processor φ} (hp : p ∈ requirements.processors) :
    ∃ q ∈ t.rd.processors, checkProcessorCompatibility q p = true := by
  rw [CloudProvider.compatibleTypes] at ht
  split at ht
  · rw [List.mem_singleton.mp ht]
    exact ⟨p, hp, compatible_self p⟩
  · have hcontains := MethodResourceDescription.contains_checkProcessors (List.mem_filter.mp ht).2
    have hprocessor := List.all_eq_true.mp hcontains p hp
    obtain ⟨q, hq, hc⟩ := List.any_eq_true.mp hprocessor
    exact ⟨q, hq, (Bool.and_eq_true _ _ ▸ hc).1⟩

/-- A type that has slots tells that units are asked for of each processor, and
so the slots of every compatible type can be counted. -/
theorem Satisfiable.counted (h : Satisfiable providers requirements) (cp : CloudProvider φ) :
    ∀ t ∈ cp.compatibleTypes requirements, (t.rd.canHostSimultaneously requirements).isSome = true := by
  obtain ⟨cp', -, -, t', ht', hslots⟩ := h
  intro t ht
  rw [Option.isSome_iff_ne_none, Ne, MethodResourceDescription.canHostSimultaneously_eq_none]
  rintro ⟨p, hp, hzero, -⟩
  have hnone : t'.rd.canHostSimultaneously requirements = none :=
    MethodResourceDescription.canHostSimultaneously_eq_none.mpr ⟨p, hp, hzero, exists_compatible ht' hp⟩
  rw [slots, hnone] at hslots
  exact absurd hslots (by decide)

theorem selectInstance_selector_iff (hslots : ∀ t ∈ cp.compatibleTypes requirements,
    (t.rd.canHostSimultaneously requirements).isSome = true) (good : CloudInstanceTypeDescription φ → Prop) :
    (∀ best, selectInstance (selector contained) (cp.compatibleTypes requirements) requirements amount =
      some (some best) → good best) ↔
      ∀ u ∈ offered amount requirements contained cp, ¬ good u →
        ∃ t ∈ offered amount requirements contained cp, good t ∧
          Outranks (selector contained) requirements amount (offered amount requirements contained cp) t u := by
  cases contained with
  | true => exact selectInstance_iff contained_ordered hslots good
  | false => exact selectInstance_iff containing_ordered hslots good

variable (contained amount) in
theorem selectInstance_selector_spec (hslots : ∀ t ∈ cp.compatibleTypes requirements,
    (t.rd.canHostSimultaneously requirements).isSome = true) :
    ∃ result, selectInstance (selector contained) (cp.compatibleTypes requirements) requirements amount = some result ∧
      (result = none → offered amount requirements contained cp = []) ∧
      ∀ best, result = some best → best ∈ offered amount requirements contained cp := by
  cases contained with
  | true =>
    obtain ⟨result, h, hnone, hsome⟩ := selectInstance_spec (contained_ordered (φ := φ)) hslots
    exact ⟨result, h, hnone, fun best hb => (hsome best hb).1⟩
  | false =>
    obtain ⟨result, h, hnone, hsome⟩ := selectInstance_spec (containing_ordered (φ := φ)) hslots
    exact ⟨result, h, hnone, fun best hb => (hsome best hb).1⟩

omit [LinearOrder φ] [LinearOptimizerFloat φ] in
/-- Both selectors at once. -/
theorem getBestIncreaseOnProvider_eq (cp : CloudProvider φ) :
    getBestIncreaseOnProvider coreRequirements getInstanceCostPerHour cp amount requirements contained =
      if cp.canHostMoreInstances then
        (cp.getCompatibleTypes coreRequirements requirements).bind fun instances =>
          if instances.isEmpty then some none
          else
            (selectInstance (selector contained) instances requirements amount).bind fun type =>
              match type, cp.getCompatibleImages requirements with
              | some type, image :: _ =>
                some (some ((CloudMethodResourceDescription.ofType type type.rd image).setValue
                  (getInstanceCostPerHour cp (CloudMethodResourceDescription.ofType type type.rd image))))
              | _, _ => some none
      else some none := by
  cases contained <;> rfl

omit [LinearOrder φ] [LinearOptimizerFloat φ] in
/-- An exception is raised where a type is made up that cannot be counted. -/
theorem getCompatibleTypes_eq : cp.getCompatibleTypes coreRequirements requirements =
    if cp.types = [] ∧ ∃ reqs ∈ coreRequirements, (requirements.canHostSimultaneously reqs).isSome = false then none
    else some (cp.compatibleTypes requirements) := by
  rw [CloudProvider.getCompatibleTypes]
  refine if_congr ?_ rfl rfl
  simp [List.isEmpty_iff]

theorem getBestIncreaseOnProvider_isSome (hsat : Satisfiable providers requirements) (cp : CloudProvider φ) :
    (getBestIncreaseOnProvider coreRequirements getInstanceCostPerHour cp amount requirements contained).isSome = true ↔
      (cp.canHostMoreInstances = true → cp.types = [] →
        ∀ reqs ∈ coreRequirements, (requirements.canHostSimultaneously reqs).isSome = true) := by
  rw [getBestIncreaseOnProvider_eq, getCompatibleTypes_eq]
  by_cases hhosts : cp.canHostMoreInstances = true
  · rw [if_pos hhosts, forall_prop_of_true hhosts]
    split
    · next hraises =>
      obtain ⟨htypes, reqs, hreqs, hnone⟩ := hraises
      refine iff_of_false (by simp) fun h => ?_
      rw [h htypes reqs hreqs] at hnone
      cases hnone
    · next hcounted =>
      push Not at hcounted
      refine iff_of_true ?_ fun htypes reqs hreqs => Bool.not_eq_false _ ▸ hcounted htypes reqs hreqs
      rw [Option.bind_some]
      split
      · rfl
      · obtain ⟨result, hresult, -, -⟩ := selectInstance_selector_spec amount contained
          (hsat.counted cp)
        rw [hresult, Option.bind_some]
        split <;> rfl
  · rw [if_neg hhosts]
    exact iff_of_true rfl fun h => absurd h hhosts

/-- What a provider offers: an instance of the selected type, if it is eligible. -/
theorem getBestIncreaseOnProvider_spec (hsat : Satisfiable providers requirements) {r : Option (InstanceRequest φ)}
    (h : getBestIncreaseOnProvider coreRequirements getInstanceCostPerHour cp amount requirements contained = some r) :
    (r = none → Eligible requirements cp → offered amount requirements contained cp = []) ∧
      ∀ rc, r = some rc → Eligible requirements cp ∧ ∃ t request,
        selectInstance (selector contained) (cp.compatibleTypes requirements) requirements amount = some (some t) ∧
        rc.typeComposition = AList.singleton t 1 ∧ rc.value = getInstanceCostPerHour cp request := by
  rw [getBestIncreaseOnProvider_eq, getCompatibleTypes_eq] at h
  split at h
  · next hhosts =>
    split at h
    · cases h
    · rw [Option.bind_some] at h
      split at h
      · next hempty =>
        cases h
        refine ⟨fun _ _ => ?_, by simp⟩
        rw [offered, List.isEmpty_iff.mp hempty]
        rfl
      · obtain ⟨result, hresult, hnone, -⟩ := selectInstance_selector_spec amount contained
          (hsat.counted cp)
        rw [hresult, Option.bind_some] at h
        cases result with
        | none =>
          cases h
          exact ⟨fun _ _ => hnone rfl, by simp⟩
        | some type =>
          cases himages : cp.getCompatibleImages requirements with
          | nil =>
            rw [himages] at h
            cases h
            exact ⟨fun _ heligible => absurd himages heligible.image, by simp⟩
          | cons image images =>
            rw [himages] at h
            cases h
            refine ⟨by simp, ?_⟩
            rintro rc ⟨⟩
            exact ⟨⟨hhosts, by simp [himages]⟩, type, _, hresult, rfl, rfl⟩
  · next hhosts =>
    cases h
    exact ⟨fun _ heligible => absurd heligible.hosts hhosts, by simp⟩

/-! ## The provider of the least cost -/

omit [LinearOrder φ] [LinearOptimizerFloat φ] in
/-- Every provider is examined, and the one that is kept has made an offer. -/
theorem askTurns_spec {s : BestProvider φ}
    (h : providers.foldlM (askTurn coreRequirements getInstanceCostPerHour amount requirements contained)
      ⟨none, maxValue⟩ = some s) :
    (∀ cp ∈ providers, (getBestIncreaseOnProvider coreRequirements getInstanceCostPerHour cp amount requirements
      contained).isSome = true) ∧
    (s.best = none → ∀ cp ∈ providers, getBestIncreaseOnProvider coreRequirements getInstanceCostPerHour cp amount
      requirements contained = some none) ∧
    ∀ cp rc, s.best = some (cp, rc) → cp ∈ providers ∧
      getBestIncreaseOnProvider coreRequirements getInstanceCostPerHour cp amount requirements contained =
        some (some rc) := by
  induction providers using List.reverseRecOn generalizing s with
  | nil =>
    cases h
    simp
  | append_singleton providers cp ih =>
    rw [List.foldlM_append] at h
    obtain ⟨s', hs', hturn⟩ := Option.bind_eq_some_iff.mp h
    replace hturn : askTurn coreRequirements getInstanceCostPerHour amount requirements contained s' cp = some s := by
      simpa using hturn
    obtain ⟨hsome, hnone, hbest⟩ := ih hs'
    obtain ⟨r, hr, hnext⟩ := Option.map_eq_some_iff.mp hturn
    refine ⟨fun cp' hcp' => ?_, fun hs cp' hcp' => ?_, fun cp' rc hs => ?_⟩
    · rcases List.mem_append.mp hcp' with hcp' | hcp'
      · exact hsome cp' hcp'
      · rw [List.mem_singleton.mp hcp', hr]
        rfl
    · cases r with
      | none =>
        cases hnext
        rcases List.mem_append.mp hcp' with hcp' | hcp'
        · exact hnone hs cp' hcp'
        · rw [List.mem_singleton.mp hcp', hr]
      | some rc =>
        dsimp only at hnext
        split at hnext
        · rw [← hnext] at hs
          cases hs
        · next hkept =>
          rw [← hnext] at hs
          rw [hs] at hkept
          exact absurd (Bool.or_true _) hkept
    · have hold (hkept : s' = s) : cp' ∈ providers ++ [cp] ∧ getBestIncreaseOnProvider coreRequirements
          getInstanceCostPerHour cp' amount requirements contained = some (some rc) :=
        (hbest cp' rc (hkept ▸ hs)).imp_left (List.mem_append_left _)
      cases r with
      | none => exact hold hnext
      | some rc' =>
        dsimp only at hnext
        split at hnext
        · rw [← hnext] at hs
          cases hs
          exact ⟨by simp, hr⟩
        · exact hold hnext

omit [LinearOrder φ] [LinearOptimizerFloat φ] in
theorem askTurns_isSome (h : ∀ cp ∈ providers, (getBestIncreaseOnProvider coreRequirements getInstanceCostPerHour cp
    amount requirements contained).isSome = true) (s : BestProvider φ) :
    (providers.foldlM (askTurn coreRequirements getInstanceCostPerHour amount requirements contained) s).isSome =
      true := by
  induction providers generalizing s with
  | nil => rfl
  | cons cp providers ih =>
    obtain ⟨r, hr⟩ := Option.isSome_iff_exists.mp (h cp List.mem_cons_self)
    rw [List.foldlM_cons, askTurn, hr]
    exact ih (fun cp' hcp' => h cp' (List.mem_cons_of_mem cp hcp')) _

/-- A provider whose offer is the only one that costs nothing gets the request. -/
theorem askTurns_cheapest {rc : InstanceRequest φ} (hcp : cp ∈ providers)
    (hoffer : getBestIncreaseOnProvider coreRequirements getInstanceCostPerHour cp amount requirements contained =
      some (some rc)) (hfree : rc.value = zero)
    (hothers : ∀ cp' ≠ cp, ∀ rc', getBestIncreaseOnProvider coreRequirements getInstanceCostPerHour cp' amount
      requirements contained = some (some rc') → rc'.value = maxValue) {s : BestProvider φ}
    (h : providers.foldlM (askTurn coreRequirements getInstanceCostPerHour amount requirements contained)
      ⟨none, maxValue⟩ = some s) : s.best = some (cp, rc) := by
  have hless : ∀ x y : φ, x ≤ y → gt x y = false := fun x y hxy =>
    Bool.eq_false_of_not_eq_true fun hgt => ((LinearJavaFloat.gt_iff x y).mp hgt).not_ge hxy
  have hloop : (cp ∈ providers → s = ⟨some (cp, rc), zero⟩) ∧ (cp ∉ providers → s.bestValue = maxValue) := by
    clear hcp
    induction providers using List.reverseRecOn generalizing s with
    | nil =>
      cases h
      simp
    | append_singleton providers cp' ih =>
      rw [List.foldlM_append] at h
      obtain ⟨s', hs', hturn⟩ := Option.bind_eq_some_iff.mp h
      replace hturn : askTurn coreRequirements getInstanceCostPerHour amount requirements contained s' cp' = some s := by
        simpa using hturn
      obtain ⟨hin, hout⟩ := ih hs'
      obtain ⟨r, hr, hnext⟩ := Option.map_eq_some_iff.mp hturn
      by_cases hsame : cp' = cp
      · subst hsame
        rw [hoffer] at hr
        cases hr
        refine ⟨fun _ => ?_, by simp⟩
        by_cases hmem : cp' ∈ providers
        · rw [← hnext, hin hmem]
          simp [hfree, hless]
        · rw [← hnext]
          dsimp only
          rw [hout hmem, hfree, (LinearJavaFloat.gt_iff _ _).mpr LinearOptimizerFloat.zero_lt_maxValue]
          rfl
      · have hmem : cp ∈ providers ++ [cp'] ↔ cp ∈ providers := by simp [Ne.symm hsame]
        rw [hmem]
        cases r with
        | none =>
          cases hnext
          exact ⟨hin, hout⟩
        | some rc' =>
          have hvalue : rc'.value = maxValue := hothers cp' hsame rc' hr
          refine ⟨fun hmem => ?_, fun hmem => ?_⟩
          · rw [← hnext, hin hmem]
            dsimp only
            rw [hvalue]
            simp [hless _ _ LinearOptimizerFloat.zero_lt_maxValue.le]
          · rw [← hnext]
            dsimp only
            split
            · exact hvalue
            · exact hout hmem
  exact congrArg BestProvider.best (hloop.1 hcp)

/-- When a request is made, whatever the instances cost, and covers what it
should. -/
theorem askForResources_iff (coreRequirements : List (MethodResourceDescription φ))
    (providers : List (CloudProvider φ)) (amount : Int) (requirements : MethodResourceDescription φ)
    (contained : Bool) :
    (Satisfiable providers requirements → ∀ getInstanceCostPerHour,
      Served providers amount requirements contained
        (askForResources coreRequirements getInstanceCostPerHour providers amount requirements contained)) ↔
    (Satisfiable providers requirements → Matches coreRequirements providers amount requirements contained) := by
  refine forall_congr' fun hsat => ⟨fun hserved => ?_, fun hmatches getInstanceCostPerHour => ?_⟩
  · refine ⟨fun cp hcp => ?_, ?_, fun cp hcp heligible => ?_⟩
    · obtain ⟨_, _, _, hask, -, -⟩ := hserved fun _ _ => zero
      obtain ⟨s, hs, -⟩ := Option.map_eq_some_iff.mp hask
      exact (getBestIncreaseOnProvider_isSome hsat cp).mp ((askTurns_spec hs).1 cp hcp)
    · obtain ⟨cp, rc, _, hask, -, -⟩ := hserved fun _ _ => zero
      obtain ⟨s, hs, hbest⟩ := Option.map_eq_some_iff.mp hask
      obtain ⟨hcp, hoffer⟩ := (askTurns_spec hs).2.2 cp rc hbest
      obtain ⟨heligible, t, _, hselect, -, -⟩ := (getBestIncreaseOnProvider_spec hsat hoffer).2 rc rfl
      obtain ⟨result, hresult, -, hmem⟩ := selectInstance_selector_spec amount contained
        (hsat.counted cp)
      rw [hselect] at hresult
      exact ⟨cp, hcp, heligible, List.ne_nil_of_mem (hmem t (Option.some.inj hresult).symm)⟩
    · -- the connector asks for nothing where the provider is, and for all there is elsewhere
      refine (selectInstance_selector_iff (hsat.counted cp) _).mp fun best hselect => ?_
      classical
      let cost : CloudProvider φ → InstanceRequest φ → φ := fun cp' _ => if cp' = cp then zero else maxValue
      obtain ⟨cp', rc', type, hask, hcomposition, hwanted⟩ := hserved cost
      obtain ⟨s, hs, hbest⟩ := Option.map_eq_some_iff.mp hask
      obtain ⟨r, hr⟩ := Option.isSome_iff_exists.mp ((askTurns_spec hs).1 cp hcp)
      obtain ⟨hnone, hsome⟩ := getBestIncreaseOnProvider_spec hsat hr
      cases r with
      | none =>
        obtain ⟨result, hresult, -, hmem⟩ := selectInstance_selector_spec amount contained
          (hsat.counted cp)
        rw [hselect] at hresult
        have := hmem best (Option.some.inj hresult).symm
        rw [hnone rfl heligible] at this
        exact absurd this List.not_mem_nil
      | some rc =>
        obtain ⟨-, t, _, ht, hone, hvalue⟩ := hsome rc rfl
        have hcheapest : s.best = some (cp, rc) := by
          refine askTurns_cheapest hcp hr (hvalue.trans (if_pos rfl)) (fun cp'' hne rc'' hr'' => ?_) hs
          obtain ⟨-, _, _, -, -, hvalue''⟩ := (getBestIncreaseOnProvider_spec hsat hr'').2 rc'' rfl
          exact hvalue''.trans (if_neg hne)
        rw [hcheapest] at hbest
        cases hbest
        rw [hselect] at ht
        cases ht
        rw [hone] at hcomposition
        cases hcomposition
        exact hwanted
  · have hall : ∀ cp ∈ providers, (getBestIncreaseOnProvider coreRequirements getInstanceCostPerHour cp amount
        requirements contained).isSome = true := fun cp hcp =>
      (getBestIncreaseOnProvider_isSome hsat cp).mpr (hmatches.counted cp hcp)
    obtain ⟨s, hs⟩ := Option.isSome_iff_exists.mp (askTurns_isSome hall ⟨none, maxValue⟩)
    obtain ⟨-, hnone, hsome⟩ := askTurns_spec hs
    cases hbest : s.best with
    | none =>
      obtain ⟨cp, hcp, heligible, hoffered⟩ := hmatches.offers
      exact absurd ((getBestIncreaseOnProvider_spec hsat (hnone hbest cp hcp)).1 rfl heligible) hoffered
    | some offer =>
      obtain ⟨cp, rc⟩ := offer
      obtain ⟨hcp, hoffer⟩ := hsome cp rc hbest
      obtain ⟨heligible, t, _, hselect, hone, -⟩ := (getBestIncreaseOnProvider_spec hsat hoffer).2 rc rfl
      refine ⟨cp, rc, t, ?_, hone, ?_⟩
      · rw [askForResources, hs, Option.map_some, hbest]
      · exact (selectInstance_selector_iff (hsat.counted cp) _).mpr (hmatches.wanted cp hcp heligible) t hselect

end

end ResourceOptimizer

end

/-! ## One provider -/

instance : LinearOptimizerFloat Int where
  zero_lt_maxValue := by decide

namespace ResourceOptimizer

/-- So many units of a processor. -/
def units (cu : Int) : MethodResourceDescription Int := MethodResourceDescription.new.addProcessor (WorkerRun.named "cpu" cu)

/-- A provider of an image on which all runs, and of one type. -/
def oneType (cu : Int) : CloudProvider Int where
  name := "provider"
  limitOfVMs := none
  currentVMCount := 0
  types := [⟨"type", units cu⟩]
  images := [⟨"image", unassignedStr, unassignedStr, unassignedStr, [], []⟩]

theorem eligible_oneType {cu : Int} : Eligible (units 1) (oneType cu) where
  hosts := rfl
  image := List.cons_ne_nil _ _

theorem satisfiable_oneType_two : Satisfiable [oneType 2] (units 1) :=
  ⟨oneType 2, List.mem_singleton_self _, eligible_oneType, ⟨"type", units 2⟩, List.Mem.head _, by decide⟩

/-- Three slots are asked for, and an instance of two is requested. -/
theorem askForResources_two :
    Served [oneType 2] 3 (units 1) false
      (askForResources [] (fun _ _ => 1) [oneType 2] 3 (units 1) false) := by
  refine (askForResources_iff [] [oneType 2] 3 (units 1) false).mpr (fun _ => ?_) satisfiable_oneType_two fun _ _ => 1
  have htype : ∀ u ∈ offered 3 (units 1) false (oneType 2), u = ⟨"type", units 2⟩ := fun u hu => by
    obtain ⟨hmem, -⟩ := List.mem_filter.mp (List.mem_filter.mp hu).1
    exact List.mem_singleton.mp hmem
  refine ⟨by simp, ⟨oneType 2, List.mem_singleton_self _, eligible_oneType, List.cons_ne_nil _ _⟩, ?_⟩
  intro cp hcp _ u hu hunwanted
  rw [List.mem_singleton.mp hcp] at hu
  refine absurd ?_ hunwanted
  rw [htype u hu]
  exact ⟨by decide, by simp⟩

/-- One slot is asked for and the type has four; five are and it has two: no
request is made, of a resource that contains the requirements, or is contained. -/
theorem askForResources_refused :
    ¬ (Satisfiable [oneType 4] (units 1) → Served [oneType 4] 1 (units 1) false
      (askForResources [] (fun _ _ => 1) [oneType 4] 1 (units 1) false)) ∧
    ¬ (Satisfiable [oneType 2] (units 1) → Served [oneType 2] 5 (units 1) true
      (askForResources [] (fun _ _ => 1) [oneType 2] 5 (units 1) true)) := by
  constructor
  · intro h
    obtain ⟨cp, rc, t, hask, -, -⟩ := h ⟨oneType 4, List.mem_singleton_self _, eligible_oneType, ⟨"type", units 4⟩,
      List.Mem.head _, by decide⟩
    have hnone : ((askForResources [] (fun _ _ => 1) [oneType 4] 1 (units 1) false).map Option.isNone) = some true := by
      decide
    rw [hask] at hnone
    cases hnone
  · intro h
    obtain ⟨cp, rc, t, hask, -, -⟩ := h satisfiable_oneType_two
    have hnone : ((askForResources [] (fun _ _ => 1) [oneType 2] 5 (units 1) true).map Option.isNone) = some true := by
      decide
    rw [hask] at hnone
    cases hnone

end ResourceOptimizer

end Compss.Resources
