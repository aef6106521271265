/-
`MOResourceOptimizer.simulate`: how long the resources would take for the load,
and at what cost, when each execution goes to the resource that is free first.

The objects `Resource` are mutable and are named by numbers; arrays indexed by
a core are functions. The resources that can execute stand in a `SortedList`,
an array in the order of their times, of which the first is taken and put back.
The doubles are rationals. What `ConfigurationCost` is made from is returned,
and beside it the sorted list as it is left.
-/
import Compss.Lib.Java
import Compss.Lib.While
import Compss.MultiObjective.ScalingActions
import Mathlib.Data.List.Sort

namespace Compss.MultiObjective

open Lib

abbrev ResourceId := Nat

/-- The exceptions of the optimizer, all of them unchecked. -/
inductive OptimizerThrown
  | nullPointer
  | arrayIndexOutOfBounds
  /-- Not a Java exception: the call was still looping when its fuel ended. -/
  | noReturn
  deriving DecidableEq, Repr

/-- A cloud instance type, by its name. -/
abbrev InstanceType := String

/-- What the optimizer asks of the scheduler of a worker. -/
structure OptimizedWorker where
  name : String
  hasPendingModifications : Bool
  /-- How many instances of each type a cloud worker is made of. -/
  typeComposition : Option (List (InstanceType × Int))
  deriving DecidableEq, Repr

/-- `MOResourceOptimizer.Resource`. Without a worker it is being created. -/
structure Resource where
  worker : Option OptimizedWorker
  idlePower : ℚ
  idlePrice : ℚ
  profiles : Option (Nat → MOProfile ℚ)
  capacity : Nat → Int
  startTime : Int64
  startEnergy : ℚ
  startCost : ℚ
  time : Int64
  counts : Nat → Int

namespace Resource

def canExecute (r : Resource) : Bool :=
  match r.worker with
  | some w => !w.hasPendingModifications
  | none => true

def hasPendingModifications (r : Resource) : Bool :=
  match r.worker with
  | some w => w.hasPendingModifications
  | none => true

/-- Of a resource that has profiles. -/
def averageExecutionTime (r : Resource) (coreId : Nat) : Int64 :=
  match r.profiles with
  | some profiles => (profiles coreId).averageExecutionTime
  | none => 0

end Resource

/-! ## The sorted list -/

namespace SortedList

/-- From the first entry on: the entries that come before `r` move one place to
the left. There is a first entry, and it is free. -/
def initialAdd (time : ResourceId → Int64) (r : ResourceId) : List (Option ResourceId) → List (Option ResourceId)
  | [] => []
  | [_] => [some r]
  | _ :: none :: values => none :: initialAdd time r (none :: values)
  | _ :: some next :: values =>
    if time r < time next then some r :: some next :: values
    else some next :: initialAdd time r (some next :: values)

/-- The array has no free entries; `r` was its first one. -/
def add (time : ResourceId → Int64) (r : ResourceId) : List ResourceId → List ResourceId
  | [] => []
  | [_] => [r]
  | _ :: next :: values =>
    if time r < time next then r :: next :: values else next :: add time r (next :: values)

/-- The array after the resources are added, without the entries left free. -/
def init (time : ResourceId → Int64) (executable : List ResourceId) : List ResourceId :=
  (executable.foldl (fun values r => initialAdd time r values) (List.replicate executable.length none)).reduceOption

end SortedList

/-! ## The simulation -/

/-- The `while` loop for one core. -/
structure Simulation where
  resources : ResourceId → Resource
  values : List ResourceId
  workingCount : Int

namespace Simulation

def time (s : Simulation) (r : ResourceId) : Int64 := (s.resources r).time

/-- The first of the list is given as many executions as it has room for. -/
def assign (coreId : Nat) (s : Simulation) : Simulation :=
  match s.values with
  | [] => s
  | r :: _ =>
    let res := s.resources r
    let resources := Function.update s.resources r
      { res with
        time := res.time + res.averageExecutionTime coreId
        counts := Function.update res.counts coreId
          (res.counts coreId + min (res.capacity coreId) s.workingCount) }
    { resources := resources
      values := SortedList.add (fun q => (resources q).time) r s.values
      workingCount := s.workingCount - res.capacity coreId }

def assignLoad (load : Nat → Nat) (fuel : Nat) (s : Simulation) (coreId : Nat) : Option Simulation :=
  whileLoop (fun s => 0 < s.workingCount) (assign coreId) fuel { s with workingCount := load coreId }

end Simulation

/-- The arguments of the constructor of `ConfigurationCost`. -/
structure ConfigurationSums where
  time : Int64
  idlePower : ℚ
  fixedEnergy : ℚ
  idlePrice : ℚ
  fixedCost : ℚ
  deriving DecidableEq, Repr

namespace MOResourceOptimizer

def clear (r : ResourceId) : Java OptimizerThrown (ResourceId → Resource) Unit := do
  modify fun o => Function.update o r { o r with time := (o r).startTime }
  let o ← get
  match (o r).profiles with
  | none => throw .nullPointer
  | some _ => set (Function.update o r { o r with counts := fun _ => 0 })

/-- Energy or cost of the executions of a resource, at this rate. -/
def actionsAt (rate : MOProfile ℚ → ℚ) (coreCount : Nat) (r : Resource) : ℚ :=
  match r.profiles with
  | some profiles =>
    ((List.range coreCount).map fun coreId =>
      r.counts coreId * rate (profiles coreId) * (profiles coreId).averageExecutionTime.toInt).sum
  | none => 0

def summary (coreCount : Nat) (resources : List Resource) (minTime : Int64) (minEnergy minCost : ℚ) :
    ConfigurationSums where
  time := resources.foldl (fun time r => max time r.time) minTime
  idlePower := (resources.map (·.idlePower)).sum
  fixedEnergy := (resources.map fun r => r.startEnergy + actionsAt (·.power) coreCount r).sum + minEnergy
  idlePrice := (resources.map (·.idlePrice)).sum
  fixedCost := (resources.map fun r => r.startCost + actionsAt (·.price) coreCount r).sum + minCost

def executable (o : ResourceId → Resource) (resources : List ResourceId) : List ResourceId :=
  resources.filter fun r => (o r).canExecute

def simulate (fuel coreCount : Nat) (load : Nat → Nat) (resources : List ResourceId) (minTime : Int64)
    (minEnergy minCost : ℚ) :
    Java OptimizerThrown (ResourceId → Resource) (ConfigurationSums × List ResourceId) := do
  resources.forM clear
  let o ← get
  let working := executable o resources
  -- `peek` on an array without entries
  if working = [] ∧ ∃ coreId ∈ List.range coreCount, 0 < load coreId then throw .arrayIndexOutOfBounds
  else
    match (List.range coreCount).foldlM (Simulation.assignLoad load fuel)
        ⟨o, SortedList.init (fun r => (o r).time) working, 0⟩ with
    | none => throw .noReturn
    | some s =>
      set s.resources
      return (summary coreCount (resources.map s.resources) minTime minEnergy minCost, s.values)

end MOResourceOptimizer

/-! ## The list is sorted -/

namespace SortedList

variable (time : ResourceId → Int64)

/-- In the order of the times. -/
def Sorted (values : List ResourceId) : Prop := values.Pairwise fun q r => time q ≤ time r

/-- Behind the entries that are not later. -/
def insert (r : ResourceId) (values : List ResourceId) : List ResourceId :=
  values.orderedInsert (fun q r => time q < time r) r

theorem add_cons (r q : ResourceId) (values : List ResourceId) :
    add time r (q :: values) = insert time r values := by
  induction values generalizing q with
  | nil => rfl
  | cons next values ih =>
    rw [add, insert, List.orderedInsert_cons, ih next]
    rfl

theorem initialAdd_replicate (r : ResourceId) (n : Nat) (values : List ResourceId) :
    initialAdd time r (List.replicate (n + 1) none ++ values.map some) =
      List.replicate n none ++ (insert time r values).map some := by
  induction n with
  | zero =>
    rw [List.replicate_one, List.singleton_append, List.replicate_zero, List.nil_append]
    generalize (none : Option ResourceId) = free
    induction values generalizing free with
    | nil => rfl
    | cons next values ih =>
      rw [List.map_cons, initialAdd, ih, insert, insert, List.orderedInsert_cons]
      split <;> rfl
  | succ n ih =>
    rw [List.replicate_succ, List.replicate_succ, List.cons_append, List.cons_append, initialAdd,
      ← List.cons_append, ← List.replicate_succ, ih, List.replicate_succ, List.cons_append]

theorem init_eq (executable : List ResourceId) :
    init time executable = executable.foldl (fun values r => insert time r values) [] := by
  have hgen : ∀ (rs : List ResourceId) (values : List ResourceId),
      rs.foldl (fun values r => initialAdd time r values) (List.replicate rs.length none ++ values.map some) =
        (rs.foldl (fun values r => insert time r values) values).map some := by
    intro rs
    induction rs with
    | nil => simp
    | cons r rs ih =>
      intro values
      rw [List.foldl_cons, List.foldl_cons, List.length_cons, initialAdd_replicate, ih]
  have h := hgen executable []
  rw [List.map_nil, List.append_nil] at h
  rw [init, h]
  simp [List.reduceOption]

theorem insert_perm (r : ResourceId) (values : List ResourceId) : (insert time r values).Perm (r :: values) :=
  List.perm_orderedInsert _ _ _

theorem mem_insert {q r : ResourceId} {values : List ResourceId} : q ∈ insert time r values ↔ q = r ∨ q ∈ values := by
  rw [(insert_perm time r values).mem_iff, List.mem_cons]

theorem Sorted.insert {r : ResourceId} {values : List ResourceId} (h : Sorted time values) :
    Sorted time (insert time r values) := by
  induction values with
  | nil => exact List.pairwise_singleton _ _
  | cons next values ih =>
    rw [Sorted, List.pairwise_cons] at h
    rw [SortedList.insert, List.orderedInsert_cons]
    split
    next hlt =>
      refine List.pairwise_cons.mpr ⟨fun q hq => ?_, List.pairwise_cons.mpr h⟩
      rcases List.mem_cons.mp hq with rfl | hq
      · exact Int64.le_of_lt hlt
      · exact Int64.le_trans (Int64.le_of_lt hlt) (h.1 q hq)
    next hle =>
      refine List.pairwise_cons.mpr ⟨fun q hq => ?_, ih h.2⟩
      rcases (mem_insert time).mp hq with rfl | hq
      · exact Int64.not_lt.mp hle
      · exact h.1 q hq

theorem init_perm (executable : List ResourceId) : (init time executable).Perm executable := by
  have hgen : ∀ (rs values : List ResourceId),
      (rs.foldl (fun values r => insert time r values) values).Perm (values ++ rs) := by
    intro rs
    induction rs with
    | nil => simp
    | cons r rs ih =>
      intro values
      exact (ih _).trans (((insert_perm time r values).append_right rs).trans List.perm_middle.symm)
  rw [init_eq]
  exact hgen executable []

theorem init_sorted (executable : List ResourceId) : Sorted time (init time executable) := by
  rw [init_eq]
  exact List.foldlRecOn executable _ .nil fun _ h _ _ => h.insert time

variable {time} in
/-- Only the times of the entries matter. -/
theorem insert_congr {time' : ResourceId → Int64} {r : ResourceId} {values : List ResourceId}
    (h : ∀ q ∈ r :: values, time q = time' q) : insert time r values = insert time' r values := by
  induction values with
  | nil => rw [insert, insert, List.orderedInsert_nil, List.orderedInsert_nil]
  | cons next values ih =>
    have hr := h r (List.mem_cons_self ..)
    have hnext := h next (List.mem_cons_of_mem _ (List.mem_cons_self ..))
    have hvalues := ih fun q hq => h q ((List.mem_cons.mp hq).elim (fun he => List.mem_cons.mpr (.inl he)) fun hq =>
      List.mem_cons_of_mem _ (List.mem_cons_of_mem _ hq))
    rw [insert, insert, List.orderedInsert_cons, List.orderedInsert_cons]
    by_cases hlt : time r < time next
    · have hlt' : time' r < time' next := by rwa [← hr, ← hnext]
      rw [if_pos hlt, if_pos hlt']
    · have hlt' : ¬ time' r < time' next := by rwa [← hr, ← hnext]
      rw [if_neg hlt, if_neg hlt']
      exact congrArg (next :: ·) hvalues

variable {time} in
theorem init_congr {time' : ResourceId → Int64} {executable : List ResourceId}
    (h : ∀ q ∈ executable, time q = time' q) : init time executable = init time' executable := by
  have hgen : ∀ (rs values : List ResourceId), (∀ q ∈ rs ++ values, time q = time' q) →
      rs.foldl (fun values r => insert time r values) values = rs.foldl (fun values r => insert time' r values) values := by
    intro rs
    induction rs with
    | nil => simp
    | cons r rs ih =>
      intro values hrs
      rw [List.cons_append, List.forall_mem_cons, List.forall_mem_append] at hrs
      have hvalues : ∀ q ∈ r :: values, time q = time' q := List.forall_mem_cons.mpr ⟨hrs.1, hrs.2.2⟩
      rw [List.foldl_cons, List.foldl_cons, ← insert_congr hvalues]
      exact ih _ (List.forall_mem_append.mpr
        ⟨hrs.2.1, fun q hq => hvalues q (List.mem_cons.mpr ((mem_insert time).mp hq))⟩)
  rw [init_eq, init_eq]
  exact hgen executable [] (by simpa using h)

theorem Sorted.congr {time time' : ResourceId → Int64} {values : List ResourceId} (h : Sorted time values)
    (heq : ∀ r ∈ values, time' r = time r) : Sorted time' values :=
  List.Pairwise.imp_of_mem (fun hq hr hle => by rw [heq _ hq, heq _ hr]; exact hle) h

end SortedList

end Compss.MultiObjective
