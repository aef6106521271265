/-
`MOResourceOptimizer.generatePossibleResourceReleases`: for each instance of a
type that a cloud worker could give up, the cost of the load without it.

A worker that has nothing left is taken out of the array. Any other one is
replaced in the array by a clone with what is left, and put back after the
simulation. The clone has no profiles: the simulation clears it first, and
raises (`simulate_of_null`). The clone stays in the array then.
-/
import Compss.MultiObjective.LoadAssignment

namespace Compss.MultiObjective

open Lib

/-- `MOCloudTypeProfile`, and how many executions of an implementation the
description of the type hosts. -/
structure CloudTypeProfile where
  idlePower : ℚ
  idlePrice : ℚ
  implProfiles : Nat → Nat → MOProfile ℚ
  canHostSimultaneously : Nat → Nat → Int

/-- What does not change meanwhile. -/
structure ReleaseContext where
  optimization : OptimizationParameter
  coreCount : Nat
  coreImplementations : Nat → Nat
  getCloudTypeProfile : InstanceType → CloudTypeProfile
  load : Nat → Nat

/-- The objects, the array, and the number of the next object. -/
structure Optimizer where
  objects : ResourceId → Resource
  allResources : List ResourceId
  next : ResourceId

/-- `ActionRemove`. What stood in the place of the worker in the simulation is
kept with it: nothing, where the worker was taken out. -/
structure ActionRemove where
  res : ResourceId
  citd : InstanceType
  cost : ConfigurationSums
  simulated : Option Resource

namespace CloudMethodResourceDescription

def removeInstances (type : InstanceType) (count : Int) : List (InstanceType × Int) → List (InstanceType × Int)
  | [] => []
  | (t, c) :: typeComposition =>
    if t = type then if c - count < 1 then typeComposition else (t, c - count) :: typeComposition
    else (t, c) :: removeInstances type count typeComposition

end CloudMethodResourceDescription

open CloudMethodResourceDescription

/-- The composition of a cloud worker that can be reduced. -/
def Resource.composition (r : Resource) : List (InstanceType × Int) :=
  match r.worker with
  | some w => if w.hasPendingModifications then [] else w.typeComposition.getD []
  | none => []

namespace ReleaseContext

variable (ctx : ReleaseContext)

/-- `getBestImplementation`, by the places in the list. -/
def getBestImplementation (profiles : Nat → MOProfile ℚ) (impls : Nat) : Nat :=
  let first := profiles 0
  ((List.range impls).tail.foldl
    (fun (best : Nat × MOScore ℚ) i =>
      let length := (profiles i).averageExecutionTime
      let score := MOScore.new 0 0 0 length ((profiles i).power * length.toInt) (profiles i).price
      if MOScore.isBetterOrNull ctx.optimization (some score) (some best.2) then (i, score) else best)
    (0, MOScore.new 0 0 0 first.averageExecutionTime first.power first.price)).1

/-- What one instance of the type adds to the capacity for a core. -/
def capacity (type : InstanceType) (coreId : Nat) : Int :=
  let profile := ctx.getCloudTypeProfile type
  profile.canHostSimultaneously coreId
    (ctx.getBestImplementation (profile.implProfiles coreId) (ctx.coreImplementations coreId))

def reduceResourceForComponent (excludedWorker : Resource) (composition : List (InstanceType × Int)) : Resource :=
  composition.foldl
    (fun clone (type, count) =>
      let moCloudTypeProf := ctx.getCloudTypeProfile type
      { clone with
        idlePower := clone.idlePower - moCloudTypeProf.idlePower * count
        idlePrice := clone.idlePrice - moCloudTypeProf.idlePrice * count
        capacity := fun coreId => clone.capacity coreId - ctx.capacity type coreId * count })
    { excludedWorker with profiles := none }

end ReleaseContext

namespace MOResourceOptimizer

/-- A call that reaches the objects only. -/
def onObjects {α : Type} (x : Java OptimizerThrown (ResourceId → Resource) α) : Java OptimizerThrown Optimizer α := fun s =>
  match x s.objects with
  | .ok a o => .ok a { s with objects := o }
  | .error e o => .error e { s with objects := o }

variable (ctx : ReleaseContext) (fuel : Nat)

/-- The body of the loops: one instance less of a type. -/
def releaseOne (i : Nat) (r : ResourceId) (composition : List (InstanceType × Int)) (type : InstanceType) :
    Java OptimizerThrown Optimizer ActionRemove := do
  let s ← get
  let excludedWorker := s.objects r
  let reduced := removeInstances type 1 composition
  let time := excludedWorker.startTime
  let energy := excludedWorker.idlePower * time.toInt + excludedWorker.startEnergy
  let cost := excludedWorker.startCost
  if reduced = [] then
    let cc ← onObjects (simulate fuel ctx.coreCount ctx.load (s.allResources.eraseIdx i) time energy cost)
    return ⟨r, type, cc.1, none⟩
  else
    let clone := ctx.reduceResourceForComponent excludedWorker reduced
    set ({ objects := Function.update s.objects s.next clone
           allResources := s.allResources.set i s.next
           next := s.next + 1 } : Optimizer)
    let cc ← onObjects
      (simulate fuel ctx.coreCount ctx.load (s.allResources.set i s.next) time energy cost)
    modify fun s => { s with allResources := s.allResources.set i r }
    return ⟨r, type, cc.1, some clone⟩

def releaseTypes (i : Nat) (r : ResourceId) (composition : List (InstanceType × Int)) :
    List InstanceType → Java OptimizerThrown Optimizer (List ActionRemove)
  | [] => pure []
  | type :: types => do
    let a ← releaseOne ctx fuel i r composition type
    let actions ← releaseTypes i r composition types
    return a :: actions

def releaseWorkers : List Nat → Java OptimizerThrown Optimizer (List ActionRemove)
  | [] => pure []
  | i :: is => do
    let s ← get
    match s.allResources[i]? with
    | none => throw .arrayIndexOutOfBounds
    | some r =>
      let composition := (s.objects r).composition
      let actions ← releaseTypes ctx fuel i r composition (composition.map Prod.fst)
      let rest ← releaseWorkers is
      return actions ++ rest

def generatePossibleResourceReleases : Java OptimizerThrown Optimizer (List ActionRemove) := do
  let s ← get
  releaseWorkers ctx fuel (List.range s.allResources.length)

/-! ## When a simulation returns -/

section
variable {fuel : Nat} {o o' : ResourceId → Resource} {resources : List ResourceId} {coreCount : Nat}
  {load : Nat → Nat}

/-- The simulation of this load on these resources ends without an exception. -/
def Returns (fuel coreCount : Nat) (load : Nat → Nat) (resources : List ResourceId) (o : ResourceId → Resource) :
    Prop :=
  ∃ result o', simulate fuel coreCount load resources 0 0 0 o = .ok result o'

/-- A resource without profiles cannot be cleared. -/
theorem clearAll_of_null {r : ResourceId} (hr : r ∈ resources) (h : (o r).profiles = none) :
    ∃ o', resources.forM clear o = .error .nullPointer o' := by
  induction resources generalizing o with
  | nil => cases hr
  | cons q resources ih =>
    change ∃ o', (clear q >>= fun _ => resources.forM clear) o = _
    cases hq : (o q).profiles with
    | none =>
      have hclear : clear q o = .error .nullPointer (Function.update o q { o q with time := (o q).startTime }) := by
        simp [clear, Java.bind_run, hq]
      exact ⟨_, Java.bind_error hclear⟩
    | some profiles =>
      rw [Java.bind_ok (clear_run (by simp [hq]))]
      have hne : r ≠ q := fun he => by simp [← he, h] at hq
      exact ih ((List.mem_cons.mp hr).resolve_left hne) (by rw [Function.update_of_ne hne]; exact h)

variable (fuel coreCount load o) in
/-- The simulation raises when a resource of the array has no profiles. -/
theorem simulate_of_null {r : ResourceId} (hr : r ∈ resources) (h : (o r).profiles = none) (minTime : Int64)
    (minEnergy minCost : ℚ) :
    ∃ o', simulate fuel coreCount load resources minTime minEnergy minCost o = .error .nullPointer o' := by
  obtain ⟨o', ho'⟩ := clearAll_of_null hr h
  exact ⟨o', Java.bind_error ho'⟩

theorem simulate_ok_iff (minTime : Int64) (minEnergy minCost : ℚ) :
    (∃ result o', simulate fuel coreCount load resources minTime minEnergy minCost o = .ok result o') ↔
      (∀ r ∈ resources, (o r).profiles ≠ none) ∧
      ¬ (executable o resources = [] ∧ ∃ c ∈ List.range coreCount, 0 < load c) ∧
      ∃ t, (List.range coreCount).foldlM (Simulation.assignLoad load fuel) (begun o resources) = some t := by
  by_cases hprofiles : ∀ r ∈ resources, (o r).profiles ≠ none
  · rw [simulate_eq hprofiles]
    by_cases hnone : executable o resources = [] ∧ ∃ c ∈ List.range coreCount, 0 < load c
    · rw [if_pos hnone]
      refine iff_of_false ?_ fun h => h.2.1 hnone
      rintro ⟨result, o', hrun⟩
      cases hrun
    · rw [if_neg hnone]
      cases (List.range coreCount).foldlM (Simulation.assignLoad load fuel) (begun o resources) with
      | none => simp
      | some t => exact iff_of_true ⟨_, _, rfl⟩ ⟨hprofiles, hnone, t, rfl⟩
  · refine iff_of_false ?_ fun h => hprofiles h.1
    push Not at hprofiles
    obtain ⟨r, hr, hnull⟩ := hprofiles
    rintro ⟨result, o', hrun⟩
    obtain ⟨o'', herror⟩ := simulate_of_null _ _ _ _ hr hnull minTime minEnergy minCost
    rw [herror] at hrun
    cases hrun

/-- Whether a simulation returns does not depend on where it begins to count. -/
theorem returns_iff (minTime : Int64) (minEnergy minCost : ℚ) :
    Returns fuel coreCount load resources o ↔
      ∃ result o', simulate fuel coreCount load resources minTime minEnergy minCost o = .ok result o' :=
  (simulate_ok_iff 0 0 0).trans (simulate_ok_iff minTime minEnergy minCost).symm

theorem Returns.mono {fuel' : Nat} (hle : fuel ≤ fuel') (h : Returns fuel coreCount load resources o) :
    Returns fuel' coreCount load resources o := by
  obtain ⟨hprofiles, hnone, t, ht⟩ := (simulate_ok_iff 0 0 0).mp h
  exact (simulate_ok_iff 0 0 0).mpr ⟨hprofiles, hnone, t, foldlM_assignLoad_mono hle _ ht⟩

theorem assign_unchanged {coreId : Nat} {s : Simulation} (h : Unchanged o s.resources) :
    Unchanged o (s.assign coreId).resources := by
  cases hvalues : s.values with
  | nil =>
    have hsame : s.assign coreId = s := by
      unfold Simulation.assign
      rw [hvalues]
    rw [hsame]
    exact h
  | cons r rest =>
    rw [assign_cons hvalues]
    exact h.update _ _ _

theorem assignAll_unchanged {s t : Simulation} (h : Unchanged o s.resources) {cores : List Nat}
    (hrun : cores.foldlM (Simulation.assignLoad load fuel) s = some t) : Unchanged o t.resources := by
  induction cores generalizing s with
  | nil =>
    cases hrun
    exact h
  | cons c cores ih =>
    rw [List.foldlM_cons, Option.bind_eq_bind, Option.bind_eq_some_iff] at hrun
    obtain ⟨u, hu, hrun⟩ := hrun
    exact ih (whileLoop_invariant (I := fun s : Simulation => Unchanged o s.resources)
      (fun _ h _ => assign_unchanged h) hu h).1 hrun

/-- A simulation that returns changes times and counts only. -/
theorem simulate_unchanged {minTime : Int64} {minEnergy minCost : ℚ} {result : ConfigurationSums × List ResourceId}
    (h : simulate fuel coreCount load resources minTime minEnergy minCost o = .ok result o') : Unchanged o o' := by
  obtain ⟨hprofiles, hnone, t, ht⟩ := (simulate_ok_iff minTime minEnergy minCost).mp ⟨_, _, h⟩
  rw [simulate_eq hprofiles, if_neg hnone, ht] at h
  cases h
  exact assignAll_unchanged (unchanged_cleared o resources) ht

/-! ## What a simulation depends on -/

/-- Two loops over the resources of an array that cannot be told apart. -/
structure Alike (resources : List ResourceId) (s s' : Simulation) : Prop where
  values : s.values = s'.values
  workingCount : s.workingCount = s'.workingCount
  mem : ∀ r ∈ s.values, r ∈ resources
  objects : ∀ r ∈ resources, s.resources r = s'.resources r

theorem Alike.assign {coreId : Nat} {s s' : Simulation} (h : Alike resources s s') :
    Alike resources (s.assign coreId) (s'.assign coreId) := by
  cases hvalues : s.values with
  | nil =>
    have hsame : ∀ u : Simulation, u.values = [] → u.assign coreId = u := fun u hu => by
      unfold Simulation.assign
      rw [hu]
    rw [hsame s hvalues, hsame s' (h.values ▸ hvalues)]
    exact h
  | cons r rest =>
    have hmem : ∀ q ∈ r :: rest, q ∈ resources := fun q hq => h.mem q (hvalues ▸ hq)
    have hr := h.objects r (hmem r (List.mem_cons_self ..))
    have hgiven : ∀ q ∈ resources, given coreId s r q = given coreId s' r q := by
      intro q hq
      by_cases hqr : q = r
      · subst hqr
        simp only [given, Function.update_self, hr, h.workingCount]
      · rw [given_of_ne hqr, given_of_ne hqr]
        exact h.objects q hq
    rw [assign_cons hvalues, assign_cons (h.values ▸ hvalues)]
    constructor
    case values => exact SortedList.insert_congr fun q hq => by rw [hgiven q (hmem q hq)]
    case workingCount => rw [hr, h.workingCount]
    case mem => exact fun q hq => hmem q (List.mem_cons.mpr ((SortedList.mem_insert _).mp hq))
    case objects => exact hgiven

theorem Alike.assignAll {s s' t : Simulation} (h : Alike resources s s') {cores : List Nat}
    (hrun : cores.foldlM (Simulation.assignLoad load fuel) s = some t) :
    ∃ t', cores.foldlM (Simulation.assignLoad load fuel) s' = some t' := by
  induction cores generalizing s s' with
  | nil => exact ⟨s', rfl⟩
  | cons c cores ih =>
    rw [List.foldlM_cons, Option.bind_eq_bind, Option.bind_eq_some_iff] at hrun
    obtain ⟨u, hu, hrun⟩ := hrun
    have hstart : Alike resources { s with workingCount := (load c : Int) } { s' with workingCount := load c } :=
      ⟨h.values, rfl, h.mem, h.objects⟩
    obtain ⟨u', hu', halike⟩ := whileLoop_rel (R := Alike resources)
      (fun s s' h => by rw [h.workingCount]) (fun s s' h => h.assign) hstart hu
    obtain ⟨t', ht'⟩ := ih halike hrun
    exact ⟨t', by rw [List.foldlM_cons, Simulation.assignLoad, hu']; exact ht'⟩

theorem begun_alike (h : Unchanged o o') : Alike resources (begun o resources) (begun o' resources) := by
  have hobjects : ∀ r ∈ resources, cleared o resources r = cleared o' resources r := by
    intro r hr
    simp only [cleared, if_pos hr]
    rw [h r]
  have hexecutable : executable o' resources = executable o resources :=
    List.filter_congr fun r _ => h.canExecute r
  constructor
  case values =>
    unfold begun
    rw [hexecutable]
    exact SortedList.init_congr fun q hq => by rw [hobjects q (mem_of_executable hq)]
  case workingCount => rfl
  case mem => exact fun r hr => mem_of_executable ((SortedList.init_perm _ _).mem_iff.mp hr)
  case objects => exact hobjects

/-- Only times and counts may differ, and these are cleared. -/
theorem Returns.unchanged (h : Unchanged o o') (hret : Returns fuel coreCount load resources o) :
    Returns fuel coreCount load resources o' := by
  obtain ⟨hprofiles, hnone, t, ht⟩ := (simulate_ok_iff 0 0 0).mp hret
  have hexecutable : executable o' resources = executable o resources :=
    List.filter_congr fun r _ => h.canExecute r
  refine (simulate_ok_iff 0 0 0).mpr ⟨fun r hr => ?_, ?_, (begun_alike h).assignAll ht⟩
  · rw [h.profiles]
    exact hprofiles r hr
  · rw [hexecutable]
    exact hnone

end

/-! ## One instance less -/

/-- The array is the same, and the resources but for times and counts. -/
structure SameResources (s s' : Optimizer) : Prop where
  allResources : s'.allResources = s.allResources
  objects : Unchanged s.objects s'.objects

namespace SameResources

variable {s s' s'' : Optimizer}

theorem refl (s : Optimizer) : SameResources s s := ⟨rfl, .refl _⟩

theorem symm (h : SameResources s s') : SameResources s' s := ⟨h.allResources.symm, h.objects.symm⟩

theorem trans (h : SameResources s s') (h' : SameResources s' s'') : SameResources s s'' :=
  ⟨h'.allResources.trans h.allResources, h.objects.trans h'.objects⟩

theorem composition (h : SameResources s s') (r : ResourceId) :
    (s'.objects r).composition = (s.objects r).composition := by
  unfold Resource.composition
  rw [h.objects r]

end SameResources

/-- Nothing is left of the worker without one instance of the type, and the
simulation without the worker returns. -/
structure Removable (ctx : ReleaseContext) (fuel : Nat) (s : Optimizer) (i : Nat)
    (composition : List (InstanceType × Int)) (type : InstanceType) : Prop where
  nothing : removeInstances type 1 composition = []
  returns : Returns fuel ctx.coreCount ctx.load (s.allResources.eraseIdx i) s.objects

/-- The actions are these releases, and were simulated without the workers. -/
structure TakenOut (releases : List (ResourceId × InstanceType)) (actions : List ActionRemove) : Prop where
  released : actions.map (fun a => (a.res, a.citd)) = releases
  simulated : ∀ a ∈ actions, a.simulated = none

theorem TakenOut.append {releases releases' : List (ResourceId × InstanceType)} {actions actions' : List ActionRemove}
    (h : TakenOut releases actions) (h' : TakenOut releases' actions') :
    TakenOut (releases ++ releases') (actions ++ actions') :=
  ⟨by rw [List.map_append, h.released, h'.released], List.forall_mem_append.mpr ⟨h.simulated, h'.simulated⟩⟩

section
variable {ctx : ReleaseContext} {fuel : Nat} {s s' : Optimizer} {i : Nat} {r : ResourceId}
  {composition : List (InstanceType × Int)} {type : InstanceType} {types : List InstanceType} {is : List Nat}
  {a : ActionRemove} {actions : List ActionRemove}

theorem Removable.same (h : Removable ctx fuel s i composition type) (hs : SameResources s s') :
    Removable ctx fuel s' i composition type :=
  ⟨h.nothing, hs.allResources ▸ h.returns.unchanged hs.objects⟩

theorem reduceResourceForComponent_profiles (excludedWorker : Resource) :
    (ctx.reduceResourceForComponent excludedWorker composition).profiles = none := by
  unfold ReleaseContext.reduceResourceForComponent
  refine List.foldlRecOn (motive := fun clone : Resource => clone.profiles = none) composition _ rfl ?_
  intro clone h _ _
  exact h

/-- The clone is less by all that is left, not by the instance that goes. -/
theorem reduceResourceForComponent_idlePower (excludedWorker : Resource) :
    (ctx.reduceResourceForComponent excludedWorker composition).idlePower = excludedWorker.idlePower -
      (composition.map fun entry => (ctx.getCloudTypeProfile entry.1).idlePower * entry.2).sum := by
  have hgen : ∀ clone : Resource, (composition.foldl
      (fun clone (entry : InstanceType × Int) =>
        { clone with
          idlePower := clone.idlePower - (ctx.getCloudTypeProfile entry.1).idlePower * entry.2
          idlePrice := clone.idlePrice - (ctx.getCloudTypeProfile entry.1).idlePrice * entry.2
          capacity := fun coreId => clone.capacity coreId - ctx.capacity entry.1 coreId * entry.2 })
      clone).idlePower = clone.idlePower -
        (composition.map fun entry => (ctx.getCloudTypeProfile entry.1).idlePower * entry.2).sum := by
    induction composition with
    | nil => simp
    | cons entry composition ih =>
      intro clone
      rw [List.foldl_cons, ih, List.map_cons, List.sum_cons]
      ring
  exact hgen _

theorem releaseOne_removable (hrem : Removable ctx fuel s i composition type) :
    ∃ a s', releaseOne ctx fuel i r composition type s = .ok a s' := by
  obtain ⟨cc, o', hrun⟩ := (returns_iff (s.objects r).startTime
    ((s.objects r).idlePower * (s.objects r).startTime.toInt + (s.objects r).startEnergy)
    (s.objects r).startCost).mp hrem.returns
  have hsim : onObjects (simulate fuel ctx.coreCount ctx.load (s.allResources.eraseIdx i) (s.objects r).startTime
      ((s.objects r).idlePower * (s.objects r).startTime.toInt + (s.objects r).startEnergy)
      (s.objects r).startCost) s = .ok cc { s with objects := o' } := by
    rw [onObjects, hrun]
  refine ⟨⟨r, type, cc.1, none⟩, { s with objects := o' }, ?_⟩
  rw [releaseOne, Java.bind_ok (Java.get_run s), if_pos hrem.nothing, Java.bind_ok hsim]
  rfl

theorem releaseOne_ok (hi : i < s.allResources.length) (h : releaseOne ctx fuel i r composition type s = .ok a s') :
    Removable ctx fuel s i composition type ∧ SameResources s s' ∧ TakenOut [(r, type)] [a] := by
  rw [releaseOne, Java.bind_ok (Java.get_run s)] at h
  by_cases hnothing : removeInstances type 1 composition = []
  · rw [if_pos hnothing] at h
    obtain ⟨cc, t, hsim, h⟩ := Java.bind_eq_ok.mp h
    cases h
    rw [onObjects] at hsim
    split at hsim
    next cc' o' hrun =>
      cases hsim
      exact ⟨⟨hnothing, (returns_iff _ _ _).mpr ⟨_, _, hrun⟩⟩, ⟨rfl, simulate_unchanged hrun⟩, ⟨rfl, by simp⟩⟩
    next => cases hsim
  · -- the clone is in the array, and has no profiles
    rw [if_neg hnothing, Java.bind_ok (Java.set_run _ _)] at h
    obtain ⟨o', herror⟩ := simulate_of_null fuel
      (Function.update s.objects s.next
        (ctx.reduceResourceForComponent (s.objects r) (removeInstances type 1 composition)))
      ctx.coreCount ctx.load (List.mem_set hi _)
      (by rw [Function.update_self]; exact reduceResourceForComponent_profiles _)
      (s.objects r).startTime
      ((s.objects r).idlePower * (s.objects r).startTime.toInt + (s.objects r).startEnergy)
      (s.objects r).startCost
    obtain ⟨cc, t, hsim, h⟩ := Java.bind_eq_ok.mp h
    rw [onObjects, herror] at hsim
    cases hsim

variable (r) in
/-- All the types of a worker. -/
theorem releaseTypes_removable (h : ∀ type ∈ types, Removable ctx fuel s i composition type)
    (hi : i < s.allResources.length) :
    ∃ actions s', releaseTypes ctx fuel i r composition types s = .ok actions s' := by
  induction types generalizing s with
  | nil => exact ⟨[], s, rfl⟩
  | cons type types ih =>
    obtain ⟨a, t, ha⟩ := releaseOne_removable (r := r) (h type (by simp))
    obtain ⟨-, hsame, -⟩ := releaseOne_ok hi ha
    obtain ⟨actions, s', hactions⟩ := ih (fun type htype => (h type (by simp [htype])).same hsame)
      (by rw [hsame.allResources]; exact hi)
    exact ⟨a :: actions, s', by rw [releaseTypes, Java.bind_ok ha, Java.bind_ok hactions]; rfl⟩

theorem releaseTypes_ok (hi : i < s.allResources.length)
    (h : releaseTypes ctx fuel i r composition types s = .ok actions s') :
    (∀ type ∈ types, Removable ctx fuel s i composition type) ∧ SameResources s s' ∧
      TakenOut (types.map fun type => (r, type)) actions := by
  induction types generalizing s actions with
  | nil =>
    cases h
    exact ⟨by simp, .refl _, rfl, by simp⟩
  | cons type types ih =>
    rw [releaseTypes] at h
    obtain ⟨a, t, ha, h⟩ := Java.bind_eq_ok.mp h
    obtain ⟨rest, u, hrest, h⟩ := Java.bind_eq_ok.mp h
    cases h
    obtain ⟨hrem, hsame, haction⟩ := releaseOne_ok hi ha
    obtain ⟨hrems, hsames, hactions⟩ := ih (by rw [hsame.allResources]; exact hi) hrest
    refine ⟨?_, hsame.trans hsames, haction.append hactions⟩
    intro type' htype'
    rcases List.mem_cons.mp htype' with rfl | htype'
    · exact hrem
    · exact (hrems type' htype').same hsame.symm

/-! ## All the workers -/

/-- The releases that are possible, of one instance each. -/
def possibleReleases (s : Optimizer) (is : List Nat) : List (ResourceId × InstanceType) :=
  is.flatMap fun i => match s.allResources[i]? with
    | some r => (s.objects r).composition.map fun entry => (r, entry.1)
    | none => []

theorem SameResources.possibleReleases (h : SameResources s s') (is : List Nat) :
    MOResourceOptimizer.possibleReleases s' is = MOResourceOptimizer.possibleReleases s is := by
  unfold MOResourceOptimizer.possibleReleases
  simp only [h.allResources, h.composition]

/-- Every instance of the worker in this place can be removed. -/
def AllRemovable (ctx : ReleaseContext) (fuel : Nat) (s : Optimizer) (i : Nat) : Prop :=
  ∀ r, s.allResources[i]? = some r → ∀ entry ∈ (s.objects r).composition,
    Removable ctx fuel s i (s.objects r).composition entry.1

theorem AllRemovable.same (h : AllRemovable ctx fuel s i) (hs : SameResources s s') : AllRemovable ctx fuel s' i := by
  intro r hr entry hentry
  rw [hs.allResources] at hr
  rw [hs.composition] at hentry ⊢
  exact (h r hr entry hentry).same hs

theorem releaseWorkers_removable (h : ∀ i ∈ is, AllRemovable ctx fuel s i)
    (hi : ∀ i ∈ is, i < s.allResources.length) :
    ∃ actions s', releaseWorkers ctx fuel is s = .ok actions s' := by
  induction is generalizing s with
  | nil => exact ⟨[], s, rfl⟩
  | cons i is ih =>
    have hlt := hi i (by simp)
    have hr : s.allResources[i]? = some s.allResources[i] := List.getElem?_eq_getElem hlt
    obtain ⟨actions, t, hactions⟩ := releaseTypes_removable s.allResources[i] (fun type htype => by
        obtain ⟨entry, hentry, rfl⟩ := List.mem_map.mp htype
        exact h i (by simp) _ hr entry hentry) hlt
    obtain ⟨-, hsame, -⟩ := releaseTypes_ok hlt hactions
    obtain ⟨rest, s', hrest⟩ := ih (fun j hj => (h j (by simp [hj])).same hsame)
      (fun j hj => by rw [hsame.allResources]; exact hi j (by simp [hj]))
    refine ⟨actions ++ rest, s', ?_⟩
    rw [releaseWorkers, Java.bind_ok (Java.get_run s), hr]
    dsimp only
    rw [Java.bind_ok hactions, Java.bind_ok hrest]
    rfl

theorem releaseWorkers_ok (hi : ∀ i ∈ is, i < s.allResources.length)
    (h : releaseWorkers ctx fuel is s = .ok actions s') :
    (∀ i ∈ is, AllRemovable ctx fuel s i) ∧ SameResources s s' ∧
      TakenOut (possibleReleases s is) actions := by
  induction is generalizing s actions with
  | nil =>
    cases h
    exact ⟨by simp, .refl _, rfl, by simp⟩
  | cons i is ih =>
    have hlt := hi i (by simp)
    have hr : s.allResources[i]? = some s.allResources[i] := List.getElem?_eq_getElem hlt
    rw [releaseWorkers, Java.bind_ok (Java.get_run s), hr] at h
    dsimp only at h
    obtain ⟨first, t, hfirst, h⟩ := Java.bind_eq_ok.mp h
    obtain ⟨rest, u, hrest, h⟩ := Java.bind_eq_ok.mp h
    cases h
    obtain ⟨hrem, hsame, hactions⟩ := releaseTypes_ok hlt hfirst
    obtain ⟨hrems, hsames, hactionss⟩ := ih (fun j hj => by rw [hsame.allResources]; exact hi j (by simp [hj])) hrest
    refine ⟨?_, hsame.trans hsames, ?_⟩
    · intro j hj
      rcases List.mem_cons.mp hj with rfl | hj
      · intro r' hr' entry hentry
        rw [hr] at hr'
        cases hr'
        exact hrem entry.1 (List.mem_map.mpr ⟨entry, hentry, rfl⟩)
      · exact (hrems j hj).same hsame.symm
    · rw [hsame.possibleReleases] at hactionss
      rw [List.map_map] at hactions
      rw [possibleReleases, List.flatMap_cons, hr]
      exact hactions.append hactionss

end

/-! ## The releases -/

/-- The simulation of a release had this in the place of the worker: nothing,
if there is nothing left; else a resource that is less by one instance. -/
def SimulatesRelease (ctx : ReleaseContext) (worker : Resource) (a : ActionRemove) : Prop :=
  match a.simulated with
  | none => removeInstances a.citd 1 worker.composition = []
  | some clone =>
    clone.idlePower = worker.idlePower - (ctx.getCloudTypeProfile a.citd).idlePower ∧
      clone.idlePrice = worker.idlePrice - (ctx.getCloudTypeProfile a.citd).idlePrice ∧
      ∀ coreId < ctx.coreCount, clone.capacity coreId = worker.capacity coreId - ctx.capacity a.citd coreId

/-- What is asked of the actions that are generated, and of the state after. -/
structure ModelsReleases (ctx : ReleaseContext) (s : Optimizer) (actions : List ActionRemove) (s' : Optimizer) :
    Prop where
  allResources : s'.allResources = s.allResources
  objects : ∀ r ∈ s.allResources,
    s'.objects r = { s.objects r with time := (s'.objects r).time, counts := (s'.objects r).counts }
  complete : actions.map (fun a => (a.res, a.citd)) = possibleReleases s (List.range s.allResources.length)
  simulated : ∀ a ∈ actions, SimulatesRelease ctx (s.objects a.res) a

/-- A cloud worker in this place is made of one instance, and the simulation of
the load without it returns. -/
def OneInstance (ctx : ReleaseContext) (s : Optimizer) (i : Nat) : Prop :=
  ∀ r, s.allResources[i]? = some r → (s.objects r).composition ≠ [] →
    (∃ type count, (s.objects r).composition = [(type, count)] ∧ count ≤ 1) ∧
    ∃ fuel, Returns fuel ctx.coreCount ctx.load (s.allResources.eraseIdx i) s.objects

/-- Every instance is the last one. -/
theorem removeInstances_eq_nil_iff {composition : List (InstanceType × Int)} (hne : composition ≠ []) :
    (∀ entry ∈ composition, removeInstances entry.1 1 composition = []) ↔
      ∃ type count, composition = [(type, count)] ∧ count ≤ 1 := by
  obtain ⟨⟨type, count⟩, rest, rfl⟩ := List.exists_cons_of_ne_nil hne
  constructor
  · intro h
    have hfirst := h (type, count) (List.mem_cons_self ..)
    rw [removeInstances, if_pos rfl] at hfirst
    split at hfirst
    next hlt =>
      subst hfirst
      exact ⟨type, count, rfl, by omega⟩
    next => cases hfirst
  · rintro ⟨_, _, heq, hle⟩ entry hentry
    cases heq
    obtain rfl := List.mem_singleton.mp hentry
    rw [removeInstances, if_pos rfl, if_pos (by omega)]

theorem Returns.exists_fuel {P : Nat → Nat → Prop} (hmono : ∀ i n m, n ≤ m → P i n → P i m) {is : List Nat}
    (h : ∀ i ∈ is, ∃ fuel, P i fuel) : ∃ fuel, ∀ i ∈ is, P i fuel := by
  induction is with
  | nil => exact ⟨0, by simp⟩
  | cons i is ih =>
    obtain ⟨n, hn⟩ := h i (by simp)
    obtain ⟨m, hm⟩ := ih fun j hj => h j (by simp [hj])
    refine ⟨max n m, fun j hj => ?_⟩
    rcases List.mem_cons.mp hj with rfl | hj
    · exact hmono _ _ _ (le_max_left _ _) hn
    · exact hmono _ _ _ (le_max_right _ _) (hm j hj)

theorem allRemovable_iff {ctx : ReleaseContext} {s : Optimizer} {i : Nat} :
    (∃ fuel, AllRemovable ctx fuel s i) ↔ OneInstance ctx s i := by
  constructor
  · rintro ⟨fuel, h⟩ r hr hne
    refine ⟨(removeInstances_eq_nil_iff hne).mp fun entry hentry => (h r hr entry hentry).nothing, fuel, ?_⟩
    obtain ⟨entry, hentry⟩ := List.exists_mem_of_ne_nil _ hne
    exact (h r hr entry hentry).returns
  · intro h
    cases hr : s.allResources[i]? with
    | none => exact ⟨0, fun r hr' => by rw [hr] at hr'; cases hr'⟩
    | some r =>
      by_cases hne : (s.objects r).composition = []
      · refine ⟨0, fun r' hr' entry hentry => ?_⟩
        rw [hr] at hr'
        cases hr'
        rw [hne] at hentry
        cases hentry
      · obtain ⟨hone, fuel, hret⟩ := h r hr hne
        refine ⟨fuel, fun r' hr' entry hentry => ?_⟩
        rw [hr] at hr'
        cases hr'
        exact ⟨(removeInstances_eq_nil_iff hne).mpr hone entry hentry, hret⟩

/-- When the possible releases are generated, and modelled by what is simulated. -/
theorem generatePossibleResourceReleases_iff (ctx : ReleaseContext) (s : Optimizer) :
    (∃ fuel actions s', generatePossibleResourceReleases ctx fuel s = .ok actions s' ∧
      ModelsReleases ctx s actions s') ↔
    ∀ i < s.allResources.length, OneInstance ctx s i := by
  have hplaces : ∀ i ∈ List.range s.allResources.length, i < s.allResources.length := fun i => List.mem_range.mp
  constructor
  · rintro ⟨fuel, actions, s', hrun, -⟩ i hi
    rw [generatePossibleResourceReleases, Java.bind_ok (Java.get_run s)] at hrun
    obtain ⟨hall, -, -⟩ := releaseWorkers_ok hplaces hrun
    exact allRemovable_iff.mp ⟨fuel, hall i (List.mem_range.mpr hi)⟩
  · intro h
    obtain ⟨fuel, hall⟩ := Returns.exists_fuel (P := fun i fuel => AllRemovable ctx fuel s i)
      (fun i n m hle hn r hr entry hentry =>
        ⟨(hn r hr entry hentry).nothing, (hn r hr entry hentry).returns.mono hle⟩)
      fun i hi => allRemovable_iff.mpr (h i (hplaces i hi))
    obtain ⟨actions, s', hrun⟩ := releaseWorkers_removable hall hplaces
    obtain ⟨-, hsame, hactions⟩ := releaseWorkers_ok hplaces hrun
    refine ⟨fuel, actions, s', by rw [generatePossibleResourceReleases, Java.bind_ok (Java.get_run s), hrun],
      hsame.allResources, fun r _ => hsame.objects r, hactions.released, fun a ha => ?_⟩
    have hmem : (a.res, a.citd) ∈ possibleReleases s (List.range s.allResources.length) :=
      hactions.released ▸ List.mem_map.mpr ⟨a, ha, rfl⟩
    rw [SimulatesRelease, hactions.simulated a ha]
    obtain ⟨i, hi, hrelease⟩ := List.mem_flatMap.mp hmem
    have hlt := hplaces i hi
    have hr : s.allResources[i]? = some s.allResources[i] := List.getElem?_eq_getElem hlt
    rw [hr] at hrelease
    obtain ⟨entry, hentry, heq⟩ := List.mem_map.mp hrelease
    obtain ⟨hres, hcitd⟩ := Prod.mk.inj heq
    have hnothing := (hall i hi _ hr entry hentry).nothing
    rw [hres, hcitd] at hnothing
    exact hnothing

/-- A worker of two instances of one type. -/
def twoInstances : Optimizer where
  objects _ :=
    { worker := some ⟨"worker", false, some [("small", 2)]⟩
      idlePower := 2
      idlePrice := 2
      profiles := some fun _ => ⟨10, 1, 1⟩
      capacity := fun _ => 2
      startTime := 0
      startEnergy := 0
      startCost := 0
      time := 0
      counts := fun _ => 0 }
  allResources := [0]
  next := 1

def noLoad : ReleaseContext where
  optimization := .TIME
  coreCount := 1
  coreImplementations _ := 1
  getCloudTypeProfile _ := ⟨1, 1, fun _ _ => ⟨10, 1, 1⟩, fun _ _ => 1⟩
  load _ := 0

/-- The release of one of the two raises, and its clone stays in the array. -/
theorem not_modelsReleases :
    (∀ fuel, ∃ s', generatePossibleResourceReleases noLoad fuel twoInstances = .error .nullPointer s' ∧
      s'.allResources = [1]) ∧
    ¬ ∃ fuel actions s', generatePossibleResourceReleases noLoad fuel twoInstances = .ok actions s' ∧
      ModelsReleases noLoad twoInstances actions s' := by
  have herror : ∀ fuel, ∃ s', generatePossibleResourceReleases noLoad fuel twoInstances = .error .nullPointer s' ∧
      s'.allResources = [1] := fun fuel => ⟨_, rfl, rfl⟩
  refine ⟨herror, ?_⟩
  rintro ⟨fuel, actions, s', hrun, -⟩
  obtain ⟨_, h, -⟩ := herror fuel
  rw [h] at hrun
  cases hrun

end MOResourceOptimizer

end Compss.MultiObjective
