/-
`Task` and `TaskAnalyser`: the data dependencies between the tasks of the
applications, the ends of the tasks, and who waits for them.

The table of last writers decides what a new task depends on. A wait of the
main program in mode `RW` sets its entry to null. The end of a task is decided
on two fields of the `Task` object that the task dispatcher's thread writes:
the count of its executions and its status.

The graph the analyser draws is only written; of the drawing, the
synchronization ids and what may raise are kept. So are, of the task counts,
those that decide a release.
-/
import Compss.Data.Bookkeeping

namespace Compss.Runtime

open Lib

abbrev TaskId := Nat
abbrev AppId := Int
abbrev SemaphoreId := Nat
abbrev ExecutionId := Nat

/-- `Task.TaskState`. -/
inductive TaskState
  | toAnalyse
  | toExecute
  | finished
  | failed
  deriving DecidableEq, Repr

inductive DataDirection
  | IN
  | OUT
  | INOUT
  deriving DecidableEq, Repr

/-- A parameter of a basic type has no datum. -/
structure Parameter where
  direction : DataDirection
  ref : Option DataRef
  dataAccessId : Option DataAccessId
  deriving DecidableEq, Repr

/-- `Task`, with what its `TaskDescription` says. -/
structure Task where
  appId : AppId
  isService : Bool
  hasTarget : Bool
  hasReturn : Bool
  numNodes : Nat
  isReplicated : Bool
  parameters : List Parameter
  status : TaskState
  predecessors : List TaskId
  successors : List TaskId
  synchronizationId : Int
  enforcingTask : Option TaskId
  executions : List ExecutionId
  executionCount : Int
  deriving DecidableEq, Repr

namespace Task

/-- The constructors. -/
def new (appId : AppId) (isService hasTarget hasReturn : Bool) (numNodes : Nat) (isReplicated : Bool)
    (parameters : List (DataDirection × Option DataRef)) : Task where
  appId := appId
  isService := isService
  hasTarget := hasTarget
  hasReturn := hasReturn
  numNodes := numNodes
  isReplicated := isReplicated
  parameters := parameters.map fun p => ⟨p.1, p.2, none⟩
  status := .toAnalyse
  predecessors := []
  successors := []
  synchronizationId := 0
  enforcingTask := none
  executions := []
  executionCount := 0

def isFree (x : Task) : Bool := x.executionCount == 0

/-- The accesses registered for the parameters. -/
def accesses (x : Task) : List DataAccessId := x.parameters.filterMap Parameter.dataAccessId

end Task

/-- A semaphore released: that of a wait for a datum, or the one an
application is stopped on at a barrier or at its end. -/
inductive Release
  | datum (sem : SemaphoreId)
  | application (appId : AppId) (sem : SemaphoreId)
  deriving DecidableEq, Repr

structure TaskAnalyser where
  dip : DataInfoProvider
  /-- The `Task` objects. -/
  task : TaskId → Task
  /-- The last writers; an entry may be null. -/
  writers : List (Nat × Option TaskId)
  appIdToTaskCount : AppId → Option Int
  appIdToSemaphore : AppId → Option SemaphoreId
  appIdBarrierFlags : AppId → Bool
  waitedTasks : TaskId → Option (List SemaphoreId)
  synchronizationId : Int
  taskDetectedAfterSync : Bool
  /-- The tasks counted, in order. -/
  analysed : List TaskId
  /-- The tasks whose end was treated, once for each time. -/
  ended : List TaskId
  /-- The tasks reported as failed, once for each time. -/
  reported : List TaskId
  released : List Release

namespace TaskAnalyser

/-- Methods of the analyser. -/
abbrev M := Java Raised TaskAnalyser

def init : TaskAnalyser where
  dip := DataInfoProvider.init
  task _ := Task.new 0 false false false 1 false []
  writers := []
  appIdToTaskCount _ := none
  appIdToSemaphore _ := none
  appIdBarrierFlags _ := false
  waitedTasks _ := none
  synchronizationId := 0
  taskDetectedAfterSync := false
  analysed := []
  ended := []
  reported := []
  released := []

/-- `writers.get(d)`, null also without an entry. -/
def writer (s : TaskAnalyser) (d : Nat) : Option TaskId := (s.writers.lookup d).join

/-- `writers.put(d, w)`. -/
def putWriter (s : TaskAnalyser) (d : Nat) (w : Option TaskId) : TaskAnalyser :=
  { s with writers := (d, w) :: s.writers.filter (·.1 ≠ d) }

def setTask (s : TaskAnalyser) (t : TaskId) (x : Task) : TaskAnalyser :=
  { s with task := Function.update s.task t x }

def modifyTask (t : TaskId) (f : Task → Task) : M Unit := modify fun s => s.setTask t (f (s.task t))

def release (r : Release) : M Unit := modify fun s => { s with released := r :: s.released }

/-- A call of the data info provider. -/
def onDip {α : Type} (x : DataInfoProvider.M α) : M α := fun s =>
  match x s.dip with
  | .ok a p => .ok a { s with dip := p }
  | .error e p => .error e { s with dip := p }

/-! ## The graph -/

def addNewTask (t : TaskId) : M Unit := do
  let s ← get
  modifyTask t fun x => { x with synchronizationId := s.synchronizationId }
  modify fun s => { s with taskDetectedAfterSync := true }

def addEdgeFromTaskToMain : M Unit := do
  if (← get).taskDetectedAfterSync then
    modify fun s => { s with taskDetectedAfterSync := false, synchronizationId := s.synchronizationId + 1 }

/-- The last writers are asked for their synchronization ids. -/
def addNewBarrier : M Unit := do
  modify fun s => { s with synchronizationId := s.synchronizationId + 1, taskDetectedAfterSync := false }
  if (← get).writers.any fun entry => entry.2.isNone then
    throw .nullPointer

/-! ## New tasks -/

def accessMode : DataDirection → AccessMode
  | .IN => .R
  | .OUT => .W
  | .INOUT => .RW

/-- The index of the parameter that enforces the resource of a service task, or
`-1`. -/
def constrainingParam (x : Task) : Int :=
  if x.isService && x.hasTarget then
    if x.hasReturn then x.parameters.length - 2 else x.parameters.length - 1
  else -1

/-- `Task.addDataDependency`. -/
def addDataDependency (t producer : TaskId) : M Unit := do
  modifyTask producer fun x => { x with successors := x.successors ++ [t] }
  modifyTask t fun x => { x with predecessors := x.predecessors ++ [producer] }

def checkDependencyForRead (t : TaskId) (daId : DataAccessId) : M Unit := do
  match (← get).writer daId.dataId with
  | none => return
  | some lastWriter => if lastWriter ≠ t then addDataDependency t lastWriter

def registerOutputValues (t : TaskId) (daId : DataAccessId) : M Unit :=
  modify fun s => s.putWriter daId.dataId (some t)

/-- A target object that a task has written enforces the resource of that task. -/
def checkSchedulingEnforcing (t : TaskId) (daId : DataAccessId) : M Unit := do
  match daId.readVersion with
  | none => return
  | some versionId =>
    if versionId > 1 then
      let s ← get
      modifyTask t fun x => { x with enforcingTask := s.writer daId.dataId }

def setDataAccessId (x : Task) (paramIdx : Nat) (daId : DataAccessId) : Task :=
  { x with parameters := x.parameters.modify paramIdx fun p => { p with dataAccessId := some daId } }

/-- One round of the loop over the parameters. -/
def processParameter (t : TaskId) (constrainingParam : Int) (paramIdx : Nat) : M Unit := do
  match ((← get).task t).parameters[paramIdx]? with
  | none => return
  | some p =>
    match p.ref with
    | none => return
    | some ref =>
      let am := accessMode p.direction
      let daId ← onDip (Ledger.registerAccess am ref)
      modifyTask t fun x => setDataAccessId x paramIdx daId
      match am with
      | .R => do
        checkDependencyForRead t daId
        if (paramIdx : Int) = constrainingParam then
          checkSchedulingEnforcing t daId
      | .RW => do
        checkDependencyForRead t daId
        if (paramIdx : Int) = constrainingParam then
          checkSchedulingEnforcing t daId
        registerOutputValues t daId
      | .W => registerOutputValues t daId

def processTask (drawGraph : Bool) (t : TaskId) : M Unit := do
  if drawGraph then
    addNewTask t
  let x := (← get).task t
  modify fun s =>
    { s with
      appIdToTaskCount :=
        Function.update s.appIdToTaskCount x.appId (some ((s.appIdToTaskCount x.appId).getD 0 + 1)),
      analysed := s.analysed ++ [t] }
  (List.range x.parameters.length).forM (processParameter t (constrainingParam x))

/-! ## The end of a task -/

/-- The application of a task has one task less; at none left it goes on. -/
def countEnd (appId : AppId) : M Unit := do
  match (← get).appIdToTaskCount appId with
  | none => throw .nullPointer
  | some count =>
    modify fun s => { s with appIdToTaskCount := Function.update s.appIdToTaskCount appId (some (count - 1)) }
    if count - 1 = 0 then
      modify fun s => { s with appIdBarrierFlags := Function.update s.appIdBarrierFlags appId false }
      match (← get).appIdToSemaphore appId with
      | none => return
      | some sem =>
        modify fun s =>
          { s with
            appIdToSemaphore := Function.update s.appIdToSemaphore appId none,
            appIdToTaskCount := Function.update s.appIdToTaskCount appId none }
        release (.application appId sem)

/-- The waits for the task are over. -/
def releaseWaits (t : TaskId) : M Unit := do
  match (← get).waitedTasks t with
  | none => return
  | some sems => do
    modify fun s => { s with waitedTasks := Function.update s.waitedTasks t none }
    sems.forM fun sem => release (.datum sem)

def accessed (p : Parameter) : M Unit :=
  match p.ref with
  | none => return
  | some _ =>
    match p.dataAccessId with
    | none => throw .nullPointer
    | some daId => onDip (DataInfoProvider.dataHasBeenAccessed daId)

/-- The files the task was the last to write. -/
def resultFiles (s : TaskAnalyser) (t : TaskId) : List Nat :=
  (s.task t).parameters.filterMap fun p =>
    match p.ref, p.direction, p.dataAccessId with
    | some (.file _), .INOUT, some daId | some (.file _), .OUT, some daId =>
      if s.writer daId.dataId = some t then some daId.dataId else none
    | _, _, _ => none

/-- `checkResultFileTransfer`; what a transfer raises is logged. -/
def checkResultFileTransfer (env : TransferEnv) (fuel : Nat) (t : TaskId) : M Unit := do
  (resultFiles (← get) t).forM fun d =>
    tryCatch
      (do
        let _ ← onDip (DataInfoProvider.blockDataAndGetResultFile env fuel d)
        onDip (DataInfoProvider.unblockDataId d))
      fun e => if e = .noReturn then throw e else pure ()

/-- `Task.releaseDataDependents`. -/
def releaseDataDependents (t : TaskId) : M Unit := do
  ((← get).task t).successors.forM fun successor =>
    modifyTask successor fun x => { x with predecessors := x.predecessors.erase t }
  modifyTask t fun x => { x with successors := [] }

/-- What `endTask` does for a task that is free and has not failed. -/
def treatEnd (env : TransferEnv) (fuel : Nat) (t : TaskId) : M Unit := do
  modify fun s => { s with ended := t :: s.ended }
  let x := (← get).task t
  countEnd x.appId
  releaseWaits t
  x.parameters.forM accessed
  let s ← get
  if (s.appIdToSemaphore x.appId).isSome && !s.appIdBarrierFlags x.appId then
    checkResultFileTransfer env fuel t
  releaseDataDependents t

/-- The count is read before the status; it does not change any more once it is
zero, so that both are read at one time. -/
def endTask (env : TransferEnv) (fuel : Nat) (t : TaskId) : M Unit := do
  let x := (← get).task t
  if !x.isFree then
    return
  else if x.status = .failed then
    modify fun s => { s with reported := t :: s.reported }
  else
    treatEnd env fuel t

/-! ## Waits -/

def findWaitedTask (drawGraph : Bool) (dataId : Nat) (am : AccessMode) (sem : SemaphoreId) : M Unit := do
  match (← get).writer dataId with
  | none => release (.datum sem)
  | some lastWriter => do
    if am = .RW then
      modify fun s => s.putWriter dataId none
    if drawGraph then
      addEdgeFromTaskToMain
    if ((← get).task lastWriter).status = .finished then
      release (.datum sem)
    else
      modify fun s =>
        { s with
          waitedTasks := Function.update s.waitedTasks lastWriter (some ((s.waitedTasks lastWriter).getD [] ++ [sem])) }

def barrier (drawGraph : Bool) (appId : AppId) (sem : SemaphoreId) : M Unit := do
  let count := (← get).appIdToTaskCount appId
  if drawGraph then
    addNewBarrier
  if count.getD 0 = 0 then
    release (.application appId sem)
  else
    modify fun s =>
      { s with
        appIdBarrierFlags := Function.update s.appIdBarrierFlags appId true,
        appIdToSemaphore := Function.update s.appIdToSemaphore appId (some sem) }

def noMoreTasks (appId : AppId) (sem : SemaphoreId) : M Unit := do
  let count := (← get).appIdToTaskCount appId
  if count.getD 0 = 0 then
    modify fun s => { s with appIdToTaskCount := Function.update s.appIdToTaskCount appId none }
    release (.application appId sem)
  else
    modify fun s => { s with appIdToSemaphore := Function.update s.appIdToSemaphore appId (some sem) }

end TaskAnalyser

end Compss.Runtime
