/-
The objects of the task scheduler: allocatable actions, resource schedulers,
the set of blocked actions, and the state the task dispatcher's thread works
on.

Actions, resource schedulers and cores are named by numbers. A worker is
generic in its description `δ` and in the resource descriptions `τ` it is
asked about (`Worker<T extends WorkerResourceDescription>`): what it answers
is a parameter, `WorkerOps`. Arrays indexed by a core are functions: they are
extended with empty entries whenever cores are registered.
-/
import Compss.Lib.LinkedList
import Mathlib.Logic.Function.Basic
import Mathlib.Data.List.Sort

namespace Compss.Scheduler

open Lib

abbrev ActionId := Nat
abbrev WorkerId := Nat
abbrev CoreId := Nat

/-- The exceptions of the scheduler, checked and unchecked. -/
inductive Thrown
  | actionNotFound
  | actionNotWaiting
  | blockedAction
  | failedAction
  | invalidScheduling
  | unassignedAction
  | concurrentModification
  | nullPointer
  /-- Not a Java exception: the call was still looping when its fuel ended. -/
  | noReturn
  deriving DecidableEq, Repr

/-! ## Scores -/

structure Score where
  actionScore : Int
  resourceScore : Int
  waitingScore : Int
  implementationScore : Int
  deriving DecidableEq, Repr

namespace Score

def isBetter (a b : Score) : Bool :=
  if a.actionScore ≠ b.actionScore then a.actionScore > b.actionScore
  else if a.resourceScore ≠ b.resourceScore then a.resourceScore > b.resourceScore
  else if a.waitingScore ≠ b.waitingScore then a.waitingScore > b.waitingScore
  else a.implementationScore > b.implementationScore

/-- The static `isBetter`, on scores that may be null. -/
def isBetterOrNull : Option Score → Option Score → Bool
  | none, _ => false
  | some _, none => true
  | some a, some b => a.isBetter b

/-- A better score compares as greater. -/
def compareTo (a b : Score) : Ordering :=
  if a = b then .eq else if a.isBetter b then .gt else .lt

end Score

/-! ## Workers -/

/-- `coreId` is null for the implementations the worker actions make
themselves. -/
structure Implementation (τ : Type) where
  coreId : Option CoreId
  implementationId : Nat
  requirements : τ

/-- The methods of a `Worker` the scheduler calls. -/
structure WorkerOps (δ τ : Type) where
  canRunCore : δ → CoreId → Bool
  canRun : δ → Implementation τ → Bool
  canRunNow : δ → τ → Bool
  runTask : δ → τ → δ × Option τ
  endTask : δ → τ → δ
  executableCores : δ → List CoreId
  executableImpls : δ → CoreId → List (Implementation τ)
  shouldBeStopped : δ → Bool
  /-- What a `StartWorkerAction` asks for. -/
  startRequirements : δ → τ
  /-- What a `StopWorkerAction` asks for. -/
  stopRequirements : τ

/-- What a score depends on beyond the scheduler: the data a worker holds and
the execution times it has been profiled with. -/
structure Outside (τ : Type) where
  dataLocality : ActionId → WorkerId → Int
  averageExecutionTime : WorkerId → Implementation τ → Int

/-- The outside with the workers and the registered implementations, of which
each core has a list of requirements. -/
structure Ctx (δ τ : Type) extends Outside τ where
  ops : WorkerOps δ τ
  coreImplementations : CoreId → List τ

/-- `CoreManager.getCoreImplementations`. -/
def Ctx.implementationsOf {δ τ : Type} (ctx : Ctx δ τ) (c : CoreId) : List (Implementation τ) :=
  (ctx.coreImplementations c).mapIdx fun i requirements => ⟨some c, i, requirements⟩

inductive UpdateType
  | increase
  | reduce
  deriving DecidableEq, Repr

structure ResourceUpdate (τ : Type) where
  type : UpdateType
  modification : τ

structure ResourceScheduler (δ : Type) where
  myWorker : δ
  assignedAppId : Option Int
  running : List ActionId
  /-- The priority queue of the actions waiting on the worker, in order of arrival. -/
  blocked : List ActionId

/-! ## Actions -/

inductive ActionState
  | runnable
  | waiting
  | running
  | finished
  | failed
  deriving DecidableEq, Repr

inductive ActionKind (τ : Type)
  | execution (coreId : CoreId) (appId : Int) (hasPriority : Bool)
  | startWorker (worker : WorkerId) (impl : Implementation τ)
  | reduceWorker (worker : WorkerId) (impl : Implementation τ) (ru : ResourceUpdate τ)
  | stopWorker (worker : WorkerId) (impl : Implementation τ)

structure Action (τ : Type) where
  kind : ActionKind τ
  state : ActionState
  dataPredecessors : List ActionId
  dataSuccessors : LinkedList ActionId
  constrainingPredecessors : List ActionId
  enforcedTargetResource : Option WorkerId
  selectedResource : Option WorkerId
  selectedImpl : Option (Implementation τ)
  resourceConsumption : Option τ
  executingResources : List WorkerId

namespace Action

variable {τ : Type}

/-- The constructor of `AllocatableAction`. -/
def new (kind : ActionKind τ) (constrainingPredecessors : List ActionId) (enforced : Option WorkerId) :
    Action τ where
  kind := kind
  state := .runnable
  dataPredecessors := []
  dataSuccessors := .empty
  constrainingPredecessors := constrainingPredecessors
  enforcedTargetResource := enforced
  selectedResource := none
  selectedImpl := none
  resourceConsumption := none
  executingResources := []

def isPending (x : Action τ) : Bool := x.state ≠ .failed && x.state ≠ .finished

def hasDataPredecessors (x : Action τ) : Bool := !x.dataPredecessors.isEmpty

def coreId (x : Action τ) : Option CoreId :=
  match x.kind with
  | .execution coreId _ _ => some coreId
  | .startWorker .. | .reduceWorker .. | .stopWorker .. => none

/-- The worker actions have the highest priority, `Integer.MAX_VALUE`. -/
def priority (x : Action τ) : Int :=
  match x.kind with
  | .execution _ _ hasPriority => if hasPriority then 1 else 0
  | .startWorker .. | .reduceWorker .. | .stopWorker .. => 2147483647

def isToReserveResources (x : Action τ) : Bool :=
  match x.kind with
  | .execution .. | .startWorker .. | .reduceWorker .. => true
  | .stopWorker .. => false

def isToReleaseResources (x : Action τ) : Bool :=
  match x.kind with
  | .execution .. | .startWorker .. => true
  | .reduceWorker .. | .stopWorker .. => false

def implementations {δ : Type} (ctx : Ctx δ τ) (x : Action τ) : List (Implementation τ) :=
  match x.kind with
  | .execution coreId _ _ => ctx.implementationsOf coreId
  | .startWorker _ impl | .reduceWorker _ impl _ | .stopWorker _ impl => [impl]

def isTargetResourceEnforced (x : Action τ) : Bool := x.enforcedTargetResource.isSome

def isSchedulingConstrained (x : Action τ) : Bool := !x.constrainingPredecessors.isEmpty

/-- `generateActionScore`, and `generateBlockedScore`. -/
def actionScore (x : Action τ) : Score := ⟨x.priority, 0, 0, 0⟩

end Action

/-! ## Blocked actions -/

structure ActionSet where
  noCore : List ActionId
  coreIndexed : CoreId → List ActionId
  counts : CoreId → Int
  totalActions : Int

namespace ActionSet

def empty : ActionSet := ⟨[], fun _ => [], fun _ => 0, 0⟩

def addAction (set : ActionSet) (core : Option CoreId) (a : ActionId) : ActionSet :=
  match core with
  | none => { set with noCore := set.noCore ++ [a], totalActions := set.totalActions + 1 }
  | some c =>
    { set with
      coreIndexed := Function.update set.coreIndexed c (set.coreIndexed c ++ [a]),
      counts := Function.update set.counts c (set.counts c + 1), totalActions := set.totalActions + 1 }

/-- The loop over the cores of `removeAllCompatibleActions`. -/
def removeCores (set : ActionSet) : List CoreId → ActionSet × List ActionId
  | [] => (set, [])
  | c :: cores =>
    let rest := removeCores
      { set with
        coreIndexed := Function.update set.coreIndexed c [], counts := Function.update set.counts c 0,
        totalActions := set.totalActions - set.counts c } cores
    (rest.1, set.coreIndexed c ++ rest.2)

/-- The set left, and the actions taken out of it. -/
def removeAllCompatibleActions (set : ActionSet) (isCompatible : ActionId → Bool)
    (executableCores : List CoreId) : ActionSet × List ActionId :=
  let taken := set.noCore.filter isCompatible
  let rest := removeCores
    { set with noCore := set.noCore.filter fun a => !isCompatible a,
               totalActions := set.totalActions - taken.length } executableCores
  (rest.1, taken ++ rest.2)

/-- Membership: the action is among those of its core. -/
def Mem (set : ActionSet) (core : Option CoreId) (a : ActionId) : Prop :=
  match core with
  | none => a ∈ set.noCore
  | some c => a ∈ set.coreIndexed c

instance (set : ActionSet) (core : Option CoreId) (a : ActionId) : Decidable (set.Mem core a) := by
  unfold Mem; split <;> infer_instance

end ActionSet

/-! ## The scheduler -/

/-- The calls the scheduler makes on an action's own code. -/
inductive Call
  | doAction (a : ActionId)
  | doCompleted (a : ActionId)
  | doError (a : ActionId)
  | doFailed (a : ActionId)
  deriving DecidableEq, Repr

structure TaskScheduler (δ τ : Type) where
  /-- `AllocatableAction.NEXT_ID`. -/
  nextId : ActionId
  action : ActionId → Action τ
  resource : WorkerId → ResourceScheduler δ
  /-- The keys of `workers`. -/
  workers : List WorkerId
  /-- `SchedulingInformation.CORE_TO_WORKERS`. -/
  coreToWorkers : CoreId → List WorkerId
  blockedActions : ActionSet
  readyCounts : CoreId → Int
  /-- The calls made so far, the last one first. -/
  calls : List Call
  /-- The actions `lostAllocatableAction` was told about. -/
  lost : List ActionId

namespace TaskScheduler

variable {δ τ : Type}

/-- Methods, of the scheduler and of its parts. -/
abbrev M (δ τ : Type) := Java Thrown (TaskScheduler δ τ)

def setAction (s : TaskScheduler δ τ) (a : ActionId) (x : Action τ) : TaskScheduler δ τ :=
  { s with action := Function.update s.action a x }

def setResource (s : TaskScheduler δ τ) (w : WorkerId) (r : ResourceScheduler δ) : TaskScheduler δ τ :=
  { s with resource := Function.update s.resource w r }

def modifyAction (a : ActionId) (f : Action τ → Action τ) : M δ τ Unit :=
  modify fun s => s.setAction a (f (s.action a))

def modifyResource (w : WorkerId) (f : ResourceScheduler δ → ResourceScheduler δ) : M δ τ Unit :=
  modify fun s => s.setResource w (f (s.resource w))

/-- A call on an action's own code. -/
def call (c : Call) : M δ τ Unit := modify fun s => { s with calls := c :: s.calls }

/-- The action is in `blockedActions`. -/
def IsBlocked (s : TaskScheduler δ τ) (a : ActionId) : Prop := s.blockedActions.Mem (s.action a).coreId a

instance (s : TaskScheduler δ τ) (a : ActionId) : Decidable (s.IsBlocked a) :=
  inferInstanceAs (Decidable (s.blockedActions.Mem _ a))

section
variable (s : TaskScheduler δ τ) (a b : ActionId) (x : Action τ) (w : WorkerId) (r : ResourceScheduler δ)

theorem setAction_action : (s.setAction a x).action b = if b = a then x else s.action b := by
  simp [setAction, Function.update_apply]

@[simp] theorem setAction_self : (s.setAction a x).action a = x := by simp [setAction]
@[simp] theorem setAction_resource : (s.setAction a x).resource = s.resource := rfl
@[simp] theorem setAction_blockedActions : (s.setAction a x).blockedActions = s.blockedActions := rfl
@[simp] theorem setAction_readyCounts : (s.setAction a x).readyCounts = s.readyCounts := rfl
@[simp] theorem setAction_calls : (s.setAction a x).calls = s.calls := rfl
@[simp] theorem setResource_action : (s.setResource w r).action = s.action := rfl
@[simp] theorem setResource_blockedActions : (s.setResource w r).blockedActions = s.blockedActions := rfl
@[simp] theorem setResource_readyCounts : (s.setResource w r).readyCounts = s.readyCounts := rfl
@[simp] theorem setResource_calls : (s.setResource w r).calls = s.calls := rfl

@[simp] theorem setAction_setAction (y : Action τ) : (s.setAction a x).setAction a y = s.setAction a y := by
  simp [setAction]

@[simp] theorem setAction_eq_self : s.setAction a (s.action a) = s := by simp [setAction]

theorem modifyAction_run (f : Action τ → Action τ) :
    modifyAction a f s = .ok () (s.setAction a (f (s.action a))) := rfl

theorem modifyResource_run (f : ResourceScheduler δ → ResourceScheduler δ) :
    modifyResource w f s = .ok () (s.setResource w (f (s.resource w))) := rfl

theorem call_run (c : Call) : call c s = .ok () { s with calls := c :: s.calls } := rfl

end

end TaskScheduler

end Compss.Scheduler
