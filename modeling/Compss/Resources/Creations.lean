/-
`ResourceOptimizer.mandatoryIncrease`: in which order resources are asked for.

The recommendations of all cores go into a priority queue and are polled until
one request succeeds. Their order is by the flag `prioritary` and then by their
value, and the queue polls the least one first. Which cores are required is
collected but given to no recommendation. So they are served by their values,
the smallest first: `mandatoryIncrease_iff` says when this is the order that is
wanted.
-/
import Compss.Lib.PriorityQueue
import Compss.Resources.DynamicMethodWorker

namespace Compss.Resources

open Lib

/-- The sign of a difference compares floats that are numbers. -/
class OrderedJavaFloat (φ : Type) [LinearOrder φ] [JavaFloat φ] : Prop where
  gt_sub : ∀ x y : φ, JavaFloat.gt (JavaFloat.sub x y) JavaFloat.zero = true ↔ y < x
  lt_sub : ∀ x y : φ, JavaFloat.gt JavaFloat.zero (JavaFloat.sub x y) = true ↔ x < y

inductive TaskType
  | METHOD
  | SERVICE
  deriving DecidableEq, Repr

/-- An implementation of a core, with what it asks for. -/
structure CoreImplementation (κ : Type) where
  taskType : TaskType
  requirements : κ
  deriving DecidableEq, Repr

/-- A recommendation. The core it is for is not kept by the source. -/
structure ValueResourceDescription (κ φ : Type) where
  coreId : Nat
  constraints : κ
  value : φ
  prioritary : Bool
  deriving DecidableEq, Repr

namespace ValueResourceDescription

variable {κ φ : Type} [JavaFloat φ]

def compareTo (a o : ValueResourceDescription κ φ) : Ordering :=
  if a.prioritary && !o.prioritary then .gt
  else if !a.prioritary && o.prioritary then .lt
  else
    let dif := JavaFloat.sub a.value o.value
    if JavaFloat.gt dif JavaFloat.zero then .gt
    else if JavaFloat.gt JavaFloat.zero dif then .lt
    else .eq

variable [LinearOrder φ] [OrderedJavaFloat φ]

/-- What is compared: first the flag, then the value. -/
def rank (a : ValueResourceDescription κ φ) : Bool ×ₗ φ := toLex (a.prioritary, a.value)

theorem compareTo_eq (a o : ValueResourceDescription κ φ) : a.compareTo o = compare a.rank o.rank := by
  have hvalue : (if JavaFloat.gt (JavaFloat.sub a.value o.value) JavaFloat.zero then Ordering.gt
      else if JavaFloat.gt JavaFloat.zero (JavaFloat.sub a.value o.value) then .lt else .eq) =
      compare a.value o.value := by
    rcases lt_trichotomy a.value o.value with h | h | h
    · rw [if_neg fun hgt => h.not_gt ((OrderedJavaFloat.gt_sub _ _).mp hgt),
        if_pos ((OrderedJavaFloat.lt_sub _ _).mpr h), compare_lt_iff_lt.mpr h]
    · rw [if_neg fun hgt => ((OrderedJavaFloat.gt_sub _ _).mp hgt).ne h.symm,
        if_neg fun hlt => ((OrderedJavaFloat.lt_sub _ _).mp hlt).ne h, compare_eq_iff_eq.mpr h]
    · rw [if_pos ((OrderedJavaFloat.gt_sub _ _).mpr h), compare_gt_iff_gt.mpr h]
  have hrank : compare a.rank o.rank = (compare a.prioritary o.prioritary).then (compare a.value o.value) := rfl
  unfold compareTo
  dsimp only
  rw [hvalue, hrank]
  cases a.prioritary <;> cases o.prioritary <;> rfl

instance : Std.TransCmp (compareTo (κ := κ) (φ := φ)) where
  eq_swap := fun {a b} => by
    rw [compareTo_eq, compareTo_eq]
    exact Std.OrientedCmp.eq_swap
  isLE_trans := fun {a b c} hab hbc => by
    rw [compareTo_eq] at hab hbc ⊢
    exact Std.TransCmp.isLE_trans hab hbc

end ValueResourceDescription

/-- A request, with the recommendations that still wait in the queue. -/
structure Attempt (κ φ : Type) where
  recommendation : ValueResourceDescription κ φ
  waiting : List (ValueResourceDescription κ φ)
  deriving DecidableEq, Repr

namespace ResourceOptimizer

open ValueResourceDescription

variable {κ φ : Type} [JavaFloat φ] [LinearOrder φ] [OrderedJavaFloat φ]

abbrev CreationQueue (κ φ : Type) [JavaFloat φ] := PriorityQueue (compareTo (κ := κ) (φ := φ))

/-- `ask` says whether `askForResources` answers the recommendation with a
request. The attempts are in the order in which they are made. -/
def requestOneCreation (ask : ValueResourceDescription κ φ → Bool) : Nat → CreationQueue κ φ → List (Attempt κ φ) × Bool
  | 0, _ => ([], false)
  | n + 1, pq =>
    match pq.peek with
    | none => ([], false)
    | some v =>
      let attempt := ⟨v, pq.poll.toList⟩
      if ask v then ([attempt], true)
      else
        let (attempts, requested) := requestOneCreation ask n pq.poll
        (attempt :: attempts, requested)

/-- The recommendations, in the order in which they are added to the queue. -/
def recommendations (getCoreImplementations : Nat → List (CoreImplementation κ)) (creationRecommendations : List φ) :
    List (ValueResourceDescription κ φ) :=
  creationRecommendations.zipIdx.flatMap fun (value, coreId) =>
    ((getCoreImplementations coreId).filter fun impl => impl.taskType ≠ .SERVICE).map fun impl =>
      ⟨coreId, impl.requirements, value, false⟩

/-- The cores of `requiredVMs` are marked in an array that nothing reads. -/
def mandatoryIncrease (getCoreImplementations : Nat → List (CoreImplementation κ))
    (ask : ValueResourceDescription κ φ → Bool) (creationRecommendations : List φ) (_requiredVMs : List Nat) :
    List (Attempt κ φ) × Bool :=
  let pq := (recommendations getCoreImplementations creationRecommendations).foldl PriorityQueue.add
    (PriorityQueue.empty : CreationQueue κ φ)
  requestOneCreation ask pq.size pq

/-! ## The order that is wanted -/

/-- The core of `b` is required and the one of `a` is not; or both are, or
neither, and `b` recommends more. -/
def ComesFirst (requiredVMs : List Nat) (b a : ValueResourceDescription κ φ) : Prop :=
  b.coreId ∈ requiredVMs ∧ a.coreId ∉ requiredVMs ∨
    (b.coreId ∈ requiredVMs ↔ a.coreId ∈ requiredVMs) ∧ a.value < b.value

instance (requiredVMs : List Nat) (b a : ValueResourceDescription κ φ) : Decidable (ComesFirst requiredVMs b a) := by
  unfold ComesFirst
  infer_instance

/-- Nothing that waits should have come before an attempt. -/
def StrongestFirst (requiredVMs : List Nat) (attempts : List (Attempt κ φ)) : Prop :=
  ∀ t ∈ attempts, ∀ b ∈ t.waiting, ¬ ComesFirst requiredVMs b t.recommendation

instance (requiredVMs : List Nat) (attempts : List (Attempt κ φ)) : Decidable (StrongestFirst requiredVMs attempts) := by
  unfold StrongestFirst
  infer_instance

/-- Of two recommendations of required cores, or of others, none is stronger. -/
def LevelClasses (requiredVMs : List Nat) (recs : List (ValueResourceDescription κ φ)) : Prop :=
  ∀ a ∈ recs, ∀ b ∈ recs, (a.coreId ∈ requiredVMs ↔ b.coreId ∈ requiredVMs) → a.value = b.value

/-- Those of required cores come first: their values are smaller, or all values
are the same and they come first when the recommendations are read from the
last one backwards, after the first one. -/
def RequiredFirst (requiredVMs : List Nat) (recs : List (ValueResourceDescription κ φ)) : Prop :=
  (∀ a ∈ recs, ∀ b ∈ recs, a.coreId ∈ requiredVMs → b.coreId ∉ requiredVMs → a.value < b.value) ∨
  (∀ a ∈ recs, ∀ b ∈ recs, a.value = b.value) ∧
    (PriorityQueue.firstThenBackwards recs).Pairwise fun a b => b.coreId ∈ requiredVMs → a.coreId ∈ requiredVMs

/-! ## The order of the attempts -/

section
variable {requiredVMs : List Nat} {recs : List (ValueResourceDescription κ φ)} {q : CreationQueue κ φ}

/-- A request that succeeds cuts the attempts short, and changes none of them. -/
theorem requestOneCreation_subset (ask : ValueResourceDescription κ φ → Bool) (n : Nat) (q : CreationQueue κ φ) :
    ∀ t ∈ (requestOneCreation ask n q).1, t ∈ (requestOneCreation (fun _ => false) n q).1 := by
  induction n generalizing q with
  | zero => exact fun _ h => h
  | succ n ih =>
    intro t ht
    rw [requestOneCreation] at ht ⊢
    cases hpeek : q.peek with
    | none => simp [hpeek] at ht
    | some v =>
      simp only [hpeek, Bool.false_eq_true, if_false, List.mem_cons] at ht ⊢
      split at ht
      next => exact .inl (List.mem_singleton.mp ht)
      next => exact (List.mem_cons.mp ht).imp_right (ih q.poll t)

/-- Without a success the whole queue is polled. -/
theorem strongestFirst_refused_iff {n : Nat} (hn : q.size ≤ n) :
    StrongestFirst requiredVMs (requestOneCreation (fun _ => false) n q).1 ↔
      (PriorityQueue.pollAll n q).Pairwise fun a b => ¬ ComesFirst requiredVMs b a := by
  induction n generalizing q with
  | zero => simp [StrongestFirst, requestOneCreation, PriorityQueue.pollAll]
  | succ n ih =>
    rw [requestOneCreation, PriorityQueue.pollAll]
    cases hpeek : q.peek with
    | none => simp [StrongestFirst]
    | some v =>
      have hsize := PriorityQueue.size_poll hpeek
      have hperm : (PriorityQueue.pollAll n q.poll).Perm q.poll.toList := PriorityQueue.pollAll_perm (by omega)
      simp only [Bool.false_eq_true, if_false, List.pairwise_cons, ← ih (q := q.poll) (by omega)]
      rw [StrongestFirst, List.forall_mem_cons]
      refine and_congr_left fun _ => ?_
      simp only [hperm.mem_iff]

/-- All answers are served well when the refusals are. -/
theorem strongestFirst_iff {n : Nat} (hn : q.size ≤ n) :
    (∀ ask, StrongestFirst requiredVMs (requestOneCreation ask n q).1) ↔
      (PriorityQueue.pollAll n q).Pairwise fun a b => ¬ ComesFirst requiredVMs b a := by
  rw [← strongestFirst_refused_iff hn]
  exact ⟨fun h => h _, fun h ask t ht => h t (requestOneCreation_subset ask n q t ht)⟩

/-- Level recommendations that have no flag compare by their values. -/
theorem compareTo_isLE {a b : ValueResourceDescription κ φ} (ha : a.prioritary = false) (hb : b.prioritary = false) :
    (a.compareTo b).isLE ↔ a.value ≤ b.value := by
  have hrank : a.rank ≤ b.rank ↔ a.value ≤ b.value := by
    rw [rank, rank, ha, hb, Prod.Lex.toLex_le_toLex]
    simp
  rw [compareTo_eq, Ordering.isLE_iff_ne_gt, ← hrank]
  exact compare_le_iff_le

theorem compareTo_eq_eq {a b : ValueResourceDescription κ φ} (ha : a.prioritary = false) (hb : b.prioritary = false)
    (h : a.value = b.value) : a.compareTo b = .eq := by
  rw [compareTo_eq, rank, rank, ha, hb, h]
  exact compare_eq_iff_eq.mpr rfl

omit [JavaFloat φ] [OrderedJavaFloat φ] in
/-- When an order that goes up by values is the one that is wanted. -/
theorem levelClasses_of_pairwise {order : List (ValueResourceDescription κ φ)}
    (hsorted : order.Pairwise fun a b => a.value ≤ b.value)
    (h : order.Pairwise fun a b => ¬ ComesFirst requiredVMs b a) : LevelClasses requiredVMs order := by
  have hlevel : order.Pairwise fun a b => (a.coreId ∈ requiredVMs ↔ b.coreId ∈ requiredVMs) → a.value = b.value :=
    (hsorted.and h).imp fun ⟨hle, hfirst⟩ hsame =>
      hle.antisymm (not_lt.mp fun hlt => hfirst (.inr ⟨hsame.symm, hlt⟩))
  have hsymm : Std.Symm fun a b : ValueResourceDescription κ φ =>
      (a.coreId ∈ requiredVMs ↔ b.coreId ∈ requiredVMs) → a.value = b.value :=
    ⟨fun _ _ h hsame => (h hsame.symm).symm⟩
  exact fun a ha b hb => hlevel.forall_of_forall (fun _ _ _ => rfl) ha hb

omit [JavaFloat φ] [OrderedJavaFloat φ] in
/-- No required recommendation is stronger than one that is not. -/
theorem value_le_of_pairwise {order : List (ValueResourceDescription κ φ)}
    (hsorted : order.Pairwise fun a b => a.value ≤ b.value)
    (h : order.Pairwise fun a b => ¬ ComesFirst requiredVMs b a) {a b : ValueResourceDescription κ φ}
    (ha : a ∈ order) (hb : b ∈ order) (hra : a.coreId ∈ requiredVMs) (hrb : b.coreId ∉ requiredVMs) :
    a.value ≤ b.value := by
  let Weaker (a b : ValueResourceDescription κ φ) : Prop :=
    a.coreId ∈ requiredVMs → b.coreId ∉ requiredVMs → a.value ≤ b.value
  have hboth : order.Pairwise fun a b => Weaker a b ∧ Weaker b a :=
    (hsorted.and h).imp fun ⟨hle, hfirst⟩ =>
      ⟨fun _ _ => hle, fun hb ha => absurd (.inl ⟨hb, ha⟩) hfirst⟩
  have hsymm : Std.Symm fun a b => Weaker a b ∧ Weaker b a := ⟨fun _ _ h => h.symm⟩
  exact (hboth.forall_of_forall (fun _ _ => ⟨fun _ _ => le_rfl, fun _ _ => le_rfl⟩) ha hb).1 hra hrb

omit [JavaFloat φ] [OrderedJavaFloat φ] in
/-- The order in which the recommendations are polled. -/
theorem pairwise_iff {order : List (ValueResourceDescription κ φ)} (hperm : order.Perm recs)
    (hsorted : order.Pairwise fun a b => a.value ≤ b.value)
    (hlevel : (∀ a ∈ recs, ∀ b ∈ recs, a.value = b.value) → order = PriorityQueue.firstThenBackwards recs) :
    (order.Pairwise fun a b => ¬ ComesFirst requiredVMs b a) ↔
      LevelClasses requiredVMs recs ∧ RequiredFirst requiredVMs recs := by
  constructor
  · intro h
    have hclasses : LevelClasses requiredVMs recs := fun a ha b hb =>
      levelClasses_of_pairwise hsorted h a (hperm.mem_iff.mpr ha) b (hperm.mem_iff.mpr hb)
    refine ⟨hclasses, or_iff_not_imp_left.mpr fun hlt => ?_⟩
    push Not at hlt
    obtain ⟨a, ha, b, hb, hra, hrb, hle⟩ := hlt
    have heq : a.value = b.value := le_antisymm
      (value_le_of_pairwise hsorted h (hperm.mem_iff.mpr ha) (hperm.mem_iff.mpr hb) hra hrb) hle
    -- every value is the one of its class, and these two are the same
    have hvalue : ∀ c ∈ recs, c.value = a.value := fun c hc => by
      by_cases hrc : c.coreId ∈ requiredVMs
      · exact hclasses c hc a ha (iff_of_true hrc hra)
      · exact (hclasses c hc b hb (iff_of_false hrc hrb)).trans heq.symm
    have hall : ∀ c ∈ recs, ∀ d ∈ recs, c.value = d.value := fun c hc d hd => (hvalue c hc).trans (hvalue d hd).symm
    refine ⟨hall, ?_⟩
    rw [← hlevel hall]
    exact h.imp fun hfirst hrd => Classical.not_not.mp fun hrc => hfirst (.inl ⟨hrd, hrc⟩)
  · rintro ⟨hclasses, hfirst⟩
    have hmem : order.Pairwise fun a b => a ∈ recs ∧ b ∈ recs :=
      List.pairwise_of_forall_mem_list fun a ha b hb => ⟨hperm.mem_iff.mp ha, hperm.mem_iff.mp hb⟩
    have hnotStronger : ∀ a ∈ recs, ∀ b ∈ recs,
        ¬ ((b.coreId ∈ requiredVMs ↔ a.coreId ∈ requiredVMs) ∧ a.value < b.value) := fun a ha b hb hcomes =>
      hcomes.2.ne (hclasses b hb a ha hcomes.1).symm
    rcases hfirst with hlt | ⟨hall, hrequired⟩
    · refine (hmem.and hsorted).imp fun ⟨⟨ha, hb⟩, hle⟩ hcomes => ?_
      rcases hcomes with ⟨hrb, hra⟩ | hcomes
      · exact (hlt _ hb _ ha hrb hra).not_ge hle
      · exact hnotStronger _ ha _ hb hcomes
    · rw [← hlevel hall] at hrequired
      refine (hmem.and hrequired).imp fun ⟨⟨ha, hb⟩, hrequired⟩ hcomes => ?_
      rcases hcomes with ⟨hrb, hra⟩ | hcomes
      · exact hra (hrequired hrb)
      · exact hnotStronger _ ha _ hb hcomes

end

/-- When the strongest need is served first, whatever is answered. -/
theorem mandatoryIncrease_iff (getCoreImplementations : Nat → List (CoreImplementation κ))
    (creationRecommendations : List φ) (requiredVMs : List Nat) :
    (∀ ask, StrongestFirst requiredVMs
      (mandatoryIncrease getCoreImplementations ask creationRecommendations requiredVMs).1) ↔
    LevelClasses requiredVMs (recommendations getCoreImplementations creationRecommendations) ∧
      RequiredFirst requiredVMs (recommendations getCoreImplementations creationRecommendations) := by
  unfold mandatoryIncrease
  dsimp only
  generalize hrecs : recommendations getCoreImplementations creationRecommendations = recs
  have hflag : ∀ a ∈ recs, a.prioritary = false := by
    intro a ha
    rw [← hrecs, recommendations] at ha
    simp only [List.mem_flatMap, List.mem_map] at ha
    obtain ⟨entry, _, impl, _, rfl⟩ := ha
    rfl
  have hqueue : (recs.foldl PriorityQueue.add (PriorityQueue.empty : CreationQueue κ φ)).toList.Perm recs :=
    PriorityQueue.toList_foldl_add recs
  rw [strongestFirst_iff le_rfl]
  have hperm := (PriorityQueue.pollAll_perm le_rfl).trans hqueue
  refine pairwise_iff hperm ?_ fun hall => ?_
  · refine List.Pairwise.imp_of_mem (fun ha hb hle => ?_) (PriorityQueue.pollAll_sorted le_rfl)
    exact (compareTo_isLE (hflag _ (hperm.mem_iff.mp ha)) (hflag _ (hperm.mem_iff.mp hb))).mp hle
  · have heq : ∀ a ∈ recs, ∀ b ∈ recs, a.compareTo b = .eq := fun a ha b hb =>
      compareTo_eq_eq (hflag a ha) (hflag b hb) (hall a ha b hb)
    have hlist : (recs.foldl PriorityQueue.add (PriorityQueue.empty : CreationQueue κ φ)).toList = recs :=
      PriorityQueue.toList_foldl_add_level heq
    rw [PriorityQueue.pollAll_level le_rfl (by rw [hlist]; exact heq), hlist]

/-! ## Two cores -/

instance : OrderedJavaFloat Int where
  gt_sub x y := by simp [JavaFloat.gt, JavaFloat.sub, JavaFloat.zero]
  lt_sub x y := by simp [JavaFloat.gt, JavaFloat.sub, JavaFloat.zero]

/-- Each core has one implementation, that asks for itself. -/
def oneImplementation (coreId : Nat) : List (CoreImplementation Nat) := [⟨.METHOD, coreId⟩]

/-- The required core recommends less than the other one. -/
theorem mandatoryIncrease_weaker :
    StrongestFirst [0] (mandatoryIncrease oneImplementation (fun _ => true) [(1 : Int), 2] [0]).1 :=
  (mandatoryIncrease_iff oneImplementation [(1 : Int), 2] [0]).mpr (by
    unfold LevelClasses RequiredFirst
    decide) fun _ => true

/-- The core that recommends two slots waits behind the one that recommends
one, and so does a required core. -/
theorem mandatoryIncrease_ascending :
    ¬ StrongestFirst [] (mandatoryIncrease oneImplementation (fun _ => true) [(1 : Int), 2] []).1 ∧
    ¬ StrongestFirst [1] (mandatoryIncrease oneImplementation (fun _ => true) [(1 : Int), 2] [1]).1 := by
  decide +kernel

end ResourceOptimizer

end Compss.Resources
