/-
`AllocatableAction` and `ResourceScheduler`: how an action is scheduled,
launched, put to wait on a full worker, resumed and failed.

A `tryToLaunch` or a `schedule` that finds the action in a state it is not for
does nothing: assignments are made to `RUNNABLE` actions only, launches from
there only, and resumptions from `WAITING` only.
-/
import Compss.Scheduler.Types

namespace Compss.Scheduler

open Lib

variable {δ τ : Type}

namespace TaskScheduler

/-! ## Data dependencies -/

/-- Only a predecessor that is still pending is one. -/
def addDataPredecessor (a predecessor : ActionId) : M δ τ Unit := do
  let s ← get
  if (s.action predecessor).isPending then do
    modifyAction a fun x =>
      if predecessor ∈ x.dataPredecessors then x
      else { x with dataPredecessors := x.dataPredecessors ++ [predecessor] }
    modifyAction predecessor fun x =>
      if a ∈ x.dataSuccessors.elems then x else { x with dataSuccessors := x.dataSuccessors.add a }

/-- `new ExecutionAction(..)`: the next id, and the executions of the tasks it
depends on as predecessors. -/
def newExecutionAction (coreId : CoreId) (appId : Int) (hasPriority : Bool)
    (constrainingPredecessors : List ActionId) (enforced : Option WorkerId) (predecessors : List ActionId) :
    M δ τ ActionId := do
  let a := (← get).nextId
  modify fun s =>
    { s.setAction a (Action.new (.execution coreId appId hasPriority) constrainingPredecessors enforced) with
      nextId := a + 1 }
  predecessors.forM (addDataPredecessor a)
  return a

def dataPredecessorDone (a finishedAction : ActionId) : M δ τ Unit :=
  modifyAction a fun x => { x with dataPredecessors := x.dataPredecessors.filter (· ≠ finishedAction) }

/-! ## The queue of a worker -/

/-- The head of the queue: an action whose score compares as least, the
earliest of them. -/
def peek (s : TaskScheduler δ τ) : List ActionId → Option ActionId
  | [] => none
  | a :: as =>
    match peek s as with
    | none => some a
    | some b => if (s.action b).actionScore.compareTo (s.action a).actionScore = .lt then some b else some a

def waitOnResource (w : WorkerId) (a : ActionId) : M δ τ Unit :=
  modifyResource w fun r => { r with blocked := r.blocked ++ [a] }

def hostAction (w : WorkerId) (a : ActionId) : M δ τ Unit :=
  modifyResource w fun r => { r with running := r.running ++ [a] }

def unhostAction (w : WorkerId) (a : ActionId) : M δ τ Unit :=
  modifyResource w fun r => { r with running := r.running.erase a }

/-- `removeFirstBlocked`. -/
def removeFirstBlocked (w : WorkerId) : M δ τ Unit := do
  let s ← get
  match peek s (s.resource w).blocked with
  | none => return
  | some a => modifyResource w fun r => { r with blocked := r.blocked.erase a }

/-- The base scheduler plans nothing, so that there is nothing to unschedule
but the place in the queue. -/
def cancelAction (w : WorkerId) (a : ActionId) : M δ τ Unit :=
  modifyResource w fun r => { r with blocked := r.blocked.erase a }

/-! ## Launching -/

/-- None of the constraining predecessors is assigned the action's resource. -/
def unrequiredResource (s : TaskScheduler δ τ) (a : ActionId) : Bool :=
  (s.action a).constrainingPredecessors.all fun p =>
    (s.action p).selectedResource ≠ (s.action a).selectedResource

section
variable (ctx : Ctx δ τ)

def reserveResources (w : WorkerId) (a : ActionId) : M δ τ Unit := do
  let s ← get
  if (s.action a).isToReserveResources then
    match (s.action a).selectedImpl with
    | none => throw .nullPointer
    | some impl =>
      let (worker, consumption) := ctx.ops.runTask (s.resource w).myWorker impl.requirements
      modifyResource w fun r => { r with myWorker := worker }
      modifyAction a fun x => { x with resourceConsumption := consumption }

def releaseResources (w : WorkerId) (a : ActionId) : M δ τ Unit := do
  let s ← get
  if (s.action a).isToReleaseResources then
    match (s.action a).resourceConsumption with
    | none => throw .nullPointer
    | some consumption =>
      modifyResource w fun r => { r with myWorker := ctx.ops.endTask r.myWorker consumption }

/-- `AllocatableAction.run`. -/
def run (w : WorkerId) (a : ActionId) : M δ τ Unit := do
  modifyAction a fun x => { x with state := .running }
  reserveResources ctx w a
  hostAction w a
  call (.doAction a)

/-- `areEnoughResources`. -/
def areEnoughResources (w : WorkerId) (a : ActionId) : M δ τ Bool := do
  let s ← get
  match (s.action a).selectedImpl with
  | none => throw .nullPointer
  | some impl => return ctx.ops.canRunNow (s.resource w).myWorker impl.requirements

def execute (w : WorkerId) (a : ActionId) : M δ τ Unit := do
  let s ← get
  let reserve := (s.action a).isToReserveResources
  let blocked := reserve && !(s.resource w).blocked.isEmpty
  let enoughResources ← if reserve then areEnoughResources ctx w a else pure false
  if !reserve || (!blocked && enoughResources) then
    modifyAction a fun x => { x with executingResources := x.executingResources ++ [w] }
    run ctx w a
  else
    modifyAction a fun x => { x with state := .waiting }
    waitOnResource w a

/-- `AllocatableAction.tryToLaunch`. -/
def tryToLaunchAction (a : ActionId) : M δ τ Unit := do
  let s ← get
  let x := s.action a
  match x.selectedResource with
  | none => return
  | some w =>
    if x.state = .runnable ∧ x.hasDataPredecessors = false then
      if (x.isSchedulingConstrained && unrequiredResource s a) ||
          (x.isTargetResourceEnforced && x.enforcedTargetResource ≠ some w) then
        throw .invalidScheduling
      else
        execute ctx w a

def resumeExecution (a : ActionId) : M δ τ Unit := do
  let x := (← get).action a
  if x.state = .waiting then
    match x.selectedResource with
    | none => throw .nullPointer
    | some w => run ctx w a
  else
    throw .actionNotWaiting

/-- The loop of `tryToLaunchBlockedActions`. -/
def tryToLaunchBlockedActions (w : WorkerId) : (fuel : Nat) → M δ τ Unit
  | 0 => throw .noReturn
  | fuel + 1 => do
    let s ← get
    match peek s (s.resource w).blocked with
    | none => return
    | some firstBlocked =>
      let x := s.action firstBlocked
      let fits ←
        if x.isToReserveResources then
          match x.selectedImpl with
          | none => throw .nullPointer
          | some impl => pure (ctx.ops.canRunNow (s.resource w).myWorker impl.requirements)
        else pure true
      if fits then
        tryCatch
          (do
            resumeExecution ctx firstBlocked
            removeFirstBlocked w)
          fun e => if e = .actionNotWaiting then pure () else throw e
        tryToLaunchBlockedActions w fuel

/-! ## Scheduling -/

def assignImplementation (a : ActionId) (impl : Implementation τ) : M δ τ Unit :=
  modifyAction a fun x => if x.state = .runnable then { x with selectedImpl := some impl } else x

def assignResource (a : ActionId) (w : WorkerId) : M δ τ Unit :=
  modifyAction a fun x => if x.state = .runnable then { x with selectedResource := some w } else x

def generateResourceScore (s : TaskScheduler δ τ) (w : WorkerId) (a : ActionId) (actionScore : Score) :
    Score :=
  ⟨actionScore.actionScore, ctx.dataLocality a w, -((s.resource w).blocked.length : Int), 0⟩

def generateImplementationScore (s : TaskScheduler δ τ) (w : WorkerId) (impl : Implementation τ)
    (resourceScore : Score) : Score :=
  { resourceScore with
    resourceScore :=
      if ctx.ops.canRunNow (s.resource w).myWorker impl.requirements then resourceScore.resourceScore
      else resourceScore.resourceScore - 2147483647,
    implementationScore := -ctx.averageExecutionTime w impl }

/-- The workers of the core that serve the application. -/
def getCompatibleWorkers (s : TaskScheduler δ τ) (coreId : CoreId) (appId : Int) : List WorkerId :=
  (s.coreToWorkers coreId).filter fun w =>
    (s.resource w).assignedAppId = none || (s.resource w).assignedAppId = some appId

/-- The candidates of `ExecutionAction.schedule`; a constraining predecessor
with no resource yet gives a null one. -/
def candidates (s : TaskScheduler δ τ) (x : Action τ) (coreId : CoreId) (appId : Int) :
    List (Option WorkerId) :=
  if x.isTargetResourceEnforced then [x.enforcedTargetResource]
  else if x.isSchedulingConstrained then
    x.constrainingPredecessors.map fun p => (s.action p).selectedResource
  else (getCompatibleWorkers s coreId appId).map some

/-- A worker and an implementation, with their score. -/
abbrev Choice (τ : Type) := WorkerId × Implementation τ × Score

/-- The implementations of one candidate. -/
def bestImplementation (s : TaskScheduler δ τ) (w : WorkerId) (resourceScore : Score) :
    Option (Choice τ) → List (Implementation τ) → Option (Choice τ)
  | best, [] => best
  | best, impl :: impls =>
    let implScore := generateImplementationScore ctx s w impl resourceScore
    let best' :=
      if Score.isBetterOrNull (some implScore) (best.map fun c => c.2.2) then some (w, impl, implScore)
      else best
    bestImplementation s w resourceScore best' impls

/-- The loop over the candidates: the best choice, and how many were useful. -/
def bestChoice (s : TaskScheduler δ τ) (a : ActionId) (coreId : CoreId) (actionScore : Score) :
    Option (Choice τ) → (usefulResources : Nat) → List (Option WorkerId) → M δ τ (Option (Choice τ) × Nat)
  | best, useful, [] => return (best, useful)
  | _, _, none :: _ => throw .nullPointer
  | best, useful, some w :: ws =>
    if w ∈ (s.action a).executingResources then bestChoice s a coreId actionScore best useful ws
    else
      let resourceScore := generateResourceScore ctx s w a actionScore
      let impls := ctx.ops.executableImpls (s.resource w).myWorker coreId
      bestChoice s a coreId actionScore (bestImplementation ctx s w resourceScore best impls) (useful + 1) ws

/-- `ExecutionAction.schedule(targetWorker, impl)`. -/
def scheduleImplementation (a : ActionId) (w : WorkerId) (impl : Implementation τ) : M δ τ Unit := do
  let s ← get
  if !ctx.ops.canRun (s.resource w).myWorker impl || w ∈ (s.action a).executingResources then
    throw .unassignedAction
  else
    assignImplementation a impl
    assignResource a w

/-- `ExecutionAction.schedule(actionScore)`. -/
def scheduleExecution (a : ActionId) (coreId : CoreId) (appId : Int) (actionScore : Score) : M δ τ Unit := do
  let s ← get
  let (best, usefulResources) ←
    bestChoice ctx s a coreId actionScore none 0 (candidates s (s.action a) coreId appId)
  match best with
  | none => if usefulResources = 0 then throw .blockedAction else throw .unassignedAction
  | some (w, impl, _) => scheduleImplementation ctx a w impl

/-- `schedule(targetWorker, impl)` of the worker actions. -/
def scheduleWorkerAction (a : ActionId) (w : WorkerId) (impl : Implementation τ) : M δ τ Unit := do
  let x := (← get).action a
  if x.enforcedTargetResource = some w then
    assignResource a w
    assignImplementation a impl
  else
    throw .unassignedAction

/-- `AllocatableAction.schedule(actionScore)`. -/
def schedule (a : ActionId) (actionScore : Score) : M δ τ Unit := do
  match ((← get).action a).kind with
  | .execution coreId appId _ => scheduleExecution ctx a coreId appId actionScore
  | .startWorker w impl | .reduceWorker w impl _ | .stopWorker w impl => scheduleWorkerAction a w impl

end

/-! ## Failing -/

/-- Its place in the queue of the worker it is assigned to. -/
def cancelOnResource (a : ActionId) : M δ τ Unit := do
  match ((← get).action a).selectedResource with
  | none => return
  | some w => cancelAction w a

/-- The first half of `failed`: the action is cancelled and its predecessors
forget it. -/
def withdraw (a : ActionId) : M δ τ Unit := do
  modifyAction a fun x => { x with state := .failed }
  cancelOnResource a
  ((← get).action a).dataPredecessors.forM fun pred =>
    modifyAction pred fun x => { x with dataSuccessors := x.dataSuccessors.remove a }

/-- `AllocatableAction.failed`, with what the class does in `doFailed`. The
answer lists the failed actions. -/
def failed (doFailed : ActionId → M δ τ Unit) : (fuel : Nat) → ActionId → M δ τ (List ActionId)
  | 0, _ => throw .noReturn
  | fuel + 1, a => do
    withdraw a
    let successors := fun s : TaskScheduler δ τ => (s.action a).dataSuccessors
    let failedActions ← Java.forEach successors
      (fun failedActions succ => do return failedActions ++ (← failed doFailed fuel succ))
      .concurrentModification .noReturn fuel (successors (← get)).iterator []
    modifyAction a fun x => { x with dataPredecessors := [], dataSuccessors := x.dataSuccessors.clear }
    call (.doFailed a)
    doFailed a
    return failedActions ++ [a]

end TaskScheduler

end Compss.Scheduler
