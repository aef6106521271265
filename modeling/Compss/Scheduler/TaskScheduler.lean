/-
`TaskScheduler`: what the task dispatcher's thread does when an action is
new, completed or in error, and when the resources of a worker change.

The base scheduler keeps no plan beyond the worker an action is assigned to:
`unscheduleAction` does nothing and frees no action, and an action is lost
only by name (`lostAllocatableAction` reports a fatal error that another
thread acts on, and the thread goes on).
-/
import Compss.Scheduler.Action

namespace Compss.Scheduler

open Lib

variable {δ τ : Type}

namespace TaskScheduler

/-! ## Ready counts -/

def addToReady (a : ActionId) : M δ τ Unit := do
  match ((← get).action a).coreId with
  | none => return
  | some c => modify fun s => { s with readyCounts := Function.update s.readyCounts c (s.readyCounts c + 1) }

def addToBlocked (a : ActionId) : M δ τ Unit :=
  modify fun s => { s with blockedActions := s.blockedActions.addAction (s.action a).coreId a }

section
variable (ctx : Ctx δ τ)

/-- The core is that of the first implementation. -/
def removeFromReady (a : ActionId) : M δ τ Unit := do
  match ((← get).action a).implementations ctx with
  | [] => return
  | impl :: _ =>
    match impl.coreId with
    | none => return
    | some c =>
      modify fun s => { s with readyCounts := Function.update s.readyCounts c (s.readyCounts c - 1) }

/-! ## Scheduling -/

/-- `scheduleAction`; an action that stays unassigned is lost. -/
def scheduleAction (a : ActionId) (actionScore : Score) : M δ τ Unit :=
  tryCatch (schedule ctx a actionScore) fun e =>
    if e = .unassignedAction then modify fun s => { s with lost := a :: s.lost } else throw e

def tryToLaunch (a : ActionId) : M δ τ Unit :=
  tryCatch (tryToLaunchAction ctx a) fun e =>
    if e = .invalidScheduling then
      tryCatch (do scheduleAction ctx a ((← get).action a).actionScore) fun e =>
        if e = .blockedAction then addToBlocked a else throw e
    else throw e

/-- What every caller that places an action does: an action no worker can run
is taken out of the ready ones, if `unready`, and blocked. -/
def placeAction (a : ActionId) (actionScore : Score) (unready : M δ τ Unit) : M δ τ Unit :=
  tryCatch
    (do
      scheduleAction ctx a actionScore
      tryToLaunch ctx a)
    fun e =>
      if e = .blockedAction then do
        unready
        addToBlocked a
      else throw e

/-- `ObjectValue` scores, the best first. -/
def byScore {α : Type} (scored : List (α × Option Score)) : List α :=
  (scored.insertionSort fun x y => Score.isBetterOrNull y.2 x.2 = false).map Prod.fst

/-- `schedulingScore`: a worker action has none. -/
def schedulingScore (s : TaskScheduler δ τ) (w : WorkerId) (a : ActionId) : Option Score :=
  match (s.action a).kind with
  | .execution .. => some (generateResourceScore ctx s w a (s.action a).actionScore)
  | .startWorker .. | .reduceWorker .. | .stopWorker .. => none

/-- The base scheduler has no actions free of resource dependencies, and
blocks no candidate. -/
def handleDependencyFreeActions (dataFreeActions : List ActionId) (w : WorkerId) : M δ τ Unit := do
  let s ← get
  (byScore (dataFreeActions.map fun a => (a, schedulingScore ctx s w a))).forM (tryToLaunch ctx)

/-- What a new action and one taken back from the blocked ones have in common. -/
def placeReady (a : ActionId) : M δ τ Unit := do
  if ((← get).action a).hasDataPredecessors = false then
    addToReady a
  placeAction ctx a ((← get).action a).actionScore (removeFromReady ctx a)

def newAllocatableAction (a : ActionId) : M δ τ Unit := placeReady ctx a

/-! ## Worker updates -/

/-- `new StopWorkerAction(..)` and the like: the next id, constrained to its
worker. -/
def newWorkerAction (kind : ActionKind τ) (w : WorkerId) : M δ τ ActionId := do
  let a := (← get).nextId
  modify fun s => { s.setAction a (Action.new kind [] (some w)) with nextId := a + 1 }
  return a

/-- Schedules and launches a worker action, whose failures to be placed are
dropped. -/
def launchWorkerAction (a : ActionId) (w : WorkerId) (impl : Implementation τ) : M δ τ Unit :=
  tryCatch
    (do
      scheduleWorkerAction a w impl
      tryToLaunchAction ctx a)
    fun e =>
      if e = .blockedAction ∨ e = .unassignedAction ∨ e = .invalidScheduling then pure () else throw e

/-- `SchedulingInformation.changesOnWorker`. -/
def changesOnWorker (w : WorkerId) : M δ τ Unit :=
  modify fun s =>
    let cores := ctx.ops.executableCores (s.resource w).myWorker
    { s with coreToWorkers := fun c =>
        (s.coreToWorkers c).erase w ++ List.replicate (cores.count c) w }

/-- `isCompatible` of an action without a core. -/
def isWorkerOf (s : TaskScheduler δ τ) (w : WorkerId) (a : ActionId) : Bool :=
  match (s.action a).kind with
  | .execution .. => false
  | .startWorker v _ | .reduceWorker v _ _ | .stopWorker v _ => v = w

def increasedWorkerResources (w : WorkerId) : M δ τ Unit := do
  let s ← get
  let cores := ctx.ops.executableCores (s.resource w).myWorker
  if cores.isEmpty then
    return
  else
    let (rest, compatibleActions) := s.blockedActions.removeAllCompatibleActions (isWorkerOf s w) cores
    modify fun s => { s with blockedActions := rest }
    (byScore (compatibleActions.map fun a => (a, some (s.action a).actionScore))).forM (placeReady ctx)

/-- One action of the queue of a removed worker. It stays in the queue:
`unscheduleAction` does nothing. -/
def placeRemoved (a : ActionId) : M δ τ Unit := do
  let x := (← get).action a
  placeAction ctx a x.actionScore (if x.hasDataPredecessors = false then removeFromReady ctx a else pure ())

/-- The iterator of the queue gives its actions in no particular order. -/
def workerRemoved (w : WorkerId) : M δ τ Unit := do
  ((← get).resource w).blocked.forM (placeRemoved ctx)

/-- A worker that keeps resources destroys the ones taken from it; only a
worker left with none gives its actions back. -/
def reducedWorkerResources (w : WorkerId) : M δ τ Unit := do
  if ctx.ops.shouldBeStopped ((← get).resource w).myWorker then
    modify fun s => { s with workers := s.workers.filter (· ≠ w) }
    workerRemoved ctx w
    let impl : Implementation τ := ⟨none, 0, ctx.ops.stopRequirements⟩
    let action ← newWorkerAction (.stopWorker w impl) w
    launchWorkerAction ctx action w impl

def completedResourceUpdate (w : WorkerId) (ru : ResourceUpdate τ) : M δ τ Unit := do
  changesOnWorker ctx w
  match ru.type with
  | .increase => increasedWorkerResources ctx w
  | .reduce => reducedWorkerResources ctx w

/-- `reduceWorkerResources`, the pending reduction. -/
def pendingResourceUpdate (w : WorkerId) (ru : ResourceUpdate τ) : M δ τ Unit := do
  match ru.type with
  | .increase => return
  | .reduce =>
    let impl : Implementation τ := ⟨none, 0, ru.modification⟩
    let action ← newWorkerAction (.reduceWorker w impl ru) w
    launchWorkerAction ctx action w impl

/-- A worker seen for the first time: `addWorker` and `startWorker`. -/
def addWorker (w : WorkerId) : M δ τ Unit := do
  modify fun s => { s with workers := w :: s.workers }
  let impl : Implementation τ := ⟨none, 0, ctx.ops.startRequirements ((← get).resource w).myWorker⟩
  let action ← newWorkerAction (.startWorker w impl) w
  launchWorkerAction ctx action w impl

/-! ## The end of an action -/

/-- `doCompleted`: the execution of a task notifies its end, a completed
reduction is applied. -/
def doCompleted (a : ActionId) : M δ τ Unit := do
  call (.doCompleted a)
  match ((← get).action a).kind with
  | .execution .. | .startWorker .. | .stopWorker .. => return
  | .reduceWorker w _ ru => completedResourceUpdate ctx w ru

/-- `ExecutionAction.SCHEDULING_CHANCES`. -/
def schedulingChances : Nat := 2

def doError (a : ActionId) : M δ τ Unit := do
  call (.doError a)
  let x := (← get).action a
  match x.kind with
  | .execution .. => if schedulingChances ≤ x.executingResources.length then throw .failedAction
  | .startWorker .. | .reduceWorker .. | .stopWorker .. => throw .failedAction

/-- `doFailed`, after the call. -/
def doFailed (a : ActionId) : M δ τ Unit := do
  match ((← get).action a).kind with
  | .execution .. | .startWorker .. | .stopWorker .. => return
  | .reduceWorker w _ ru => completedResourceUpdate ctx w ru

/-- The beginning `completed` and `error` share: the resources are released
and the queue of the worker is tried. -/
def leaveResource (a : ActionId) (state : ActionState) : M δ τ Unit := do
  modifyAction a fun x => { x with state := state }
  match ((← get).action a).selectedResource with
  | none => throw .nullPointer
  | some w =>
    releaseResources ctx w a
    unhostAction w a
    tryToLaunchBlockedActions ctx w (((← get).resource w).blocked.length + 1)

/-- The successors that lose their last predecessor. -/
def releaseSuccessors (a : ActionId) : List ActionId → M δ τ (List ActionId)
  | [] => return []
  | aa :: successors => do
    dataPredecessorDone aa a
    if ((← get).action aa).hasDataPredecessors = false then
      return aa :: (← releaseSuccessors a successors)
    else
      releaseSuccessors a successors

def completed (a : ActionId) : M δ τ (List ActionId) := do
  leaveResource ctx a .finished
  doCompleted ctx a
  let freeTasks ← releaseSuccessors a ((← get).action a).dataSuccessors.elems
  modifyAction a fun x => { x with dataSuccessors := x.dataSuccessors.clear }
  return freeTasks

def error (a : ActionId) : M δ τ Unit := do
  leaveResource ctx a .runnable
  doError a

def actionCompleted (a : ActionId) : M δ τ Unit := do
  removeFromReady ctx a
  match ((← get).action a).selectedResource with
  | none => throw .nullPointer
  | some w =>
    let dataFreeActions ← completed ctx a
    dataFreeActions.forM addToReady
    handleDependencyFreeActions ctx dataFreeActions w

/-- The action processes its error; the answer says whether it has failed.
`fuel` is for the cascade over its successors. -/
def processError (fuel : Nat) (a : ActionId) : M δ τ Bool :=
  tryCatch
    (do
      error ctx a
      return false)
    fun e =>
      if e = .failedAction then do
        removeFromReady ctx a
        let _ ← failed (doFailed ctx) fuel a
        return true
      else throw e

def errorOnAction (fuel : Nat) (a : ActionId) : M δ τ Unit := do
  let isFailed ← processError ctx fuel a
  if isFailed then
    return
  else
    placeAction ctx a ((← get).action a).actionScore (removeFromReady ctx a)

end

end TaskScheduler

end Compss.Scheduler
