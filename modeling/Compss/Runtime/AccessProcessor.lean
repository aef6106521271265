/-
The threads of the access processor and of the task dispatcher, and the
queues between them.

The access processor takes its requests one by one; what a request raises is
caught, and the next one is taken. A task that has been analysed is handed to
the task dispatcher, which makes its executions, runs them and tells the
access processor of their ends. An action that ends is several steps of the
dispatcher's thread, between which the access processor runs: the count of the
task is decreased, its status is set, and the end is notified.

Which execution is launched, on which worker it waits before it runs, and
which successors of a failed one are reached by the cascade is the scheduler's;
here any order is possible.
-/
import Compss.Lib.Run
import Compss.Runtime.MultiNodeGroup
import Compss.Runtime.TaskAnalyser
import Compss.Scheduler.Types

namespace Compss.Runtime

open Lib
open Scheduler (ActionState)

/-- The requests to the access processor. -/
inductive APRequest
  | analyseTask (t : TaskId)
  | taskEnd (t : TaskId)
  | waitForTask (dataId : Nat) (am : AccessMode) (sem : SemaphoreId)
  | barrier (appId : AppId) (sem : SemaphoreId)
  | endOfApp (appId : AppId) (sem : SemaphoreId)
  | registerDataAccess (am : AccessMode) (ref : DataRef)
  deriving DecidableEq, Repr

def APRequest.process (drawGraph : Bool) (env : TransferEnv) (fuel : Nat) : APRequest → TaskAnalyser.M Unit
  | .analyseTask t => TaskAnalyser.processTask drawGraph t
  | .taskEnd t => TaskAnalyser.endTask env fuel t
  | .waitForTask dataId am sem => TaskAnalyser.findWaitedTask drawGraph dataId am sem
  | .barrier appId sem => TaskAnalyser.barrier drawGraph appId sem
  | .endOfApp appId sem => TaskAnalyser.noMoreTasks appId sem
  | .registerDataAccess am ref => do
    let _ ← TaskAnalyser.onDip (Ledger.registerAccess am ref)

/-- `ExecutionAction` and `MultiNodeExecutionAction`. -/
structure Execution where
  task : TaskId
  /-- The first execution of its multi-node group, if it is in one. -/
  group : Option ExecutionId
  multiNodeId : Int
  state : ActionState
  dataPredecessors : List ExecutionId
  /-- `doCompleted` or `doFailed` has begun. -/
  triggered : Bool
  /-- It has decreased the count of its task. -/
  counted : Bool

namespace Execution

def new (task : TaskId) (group : Option ExecutionId) (dataPredecessors : List ExecutionId) : Execution where
  task := task
  group := group
  multiNodeId := MultiNode.unassignedId
  state := .runnable
  dataPredecessors := dataPredecessors
  triggered := false
  counted := false

def isPending (x : Execution) : Bool := x.state ≠ .failed && x.state ≠ .finished

/-- The slaves of a multi-node group notify nothing. -/
def notifies (x : Execution) : Bool := x.group.isNone || x.multiNodeId == MultiNode.masterGroupId

end Execution

/-- The steps of `doCompleted`, `doFailed` and `completed`. -/
inductive Instr
  | decreaseExecutionCount (e : ExecutionId)
  | setStatus (e : ExecutionId) (status : TaskState)
  | notifyTaskEnd (e : ExecutionId)
  | releaseSuccessors (e : ExecutionId)
  deriving DecidableEq, Repr

/-- `completed`, from `doCompleted` on. -/
def Execution.onCompleted (x : Execution) (e : ExecutionId) : List Instr :=
  if x.notifies then
    [.decreaseExecutionCount e, .setStatus e .finished, .notifyTaskEnd e, .releaseSuccessors e]
  else [.decreaseExecutionCount e, .releaseSuccessors e]

/-- `doFailed`: a slave marks the task first. -/
def Execution.onFailed (x : Execution) (e : ExecutionId) : List Instr :=
  if x.notifies then [.decreaseExecutionCount e, .setStatus e .failed, .notifyTaskEnd e]
  else [.setStatus e .failed, .decreaseExecutionCount e]

structure AccessProcessor where
  analyser : TaskAnalyser
  /-- The queue of the access processor. -/
  requests : List APRequest
  /-- The queue of the task dispatcher: the tasks to execute. -/
  submitted : List TaskId
  execution : ExecutionId → Execution
  group : ExecutionId → MultiNode.MultiNodeGroup
  nextTask : TaskId
  nextExecution : ExecutionId
  nextSemaphore : SemaphoreId
  /-- What the task dispatcher has still to do for the action that has ended. -/
  todo : List Instr
  /-- The requests processed, the last one first. -/
  handled : List APRequest
  /-- Those of them that raised. -/
  raised : List APRequest
  /-- The waits processed, with the last task that had written the datum then. -/
  awaited : List (SemaphoreId × Option TaskId)

/-- What happens next. -/
inductive Label
  | newTask (appId : AppId) (isService hasTarget hasReturn : Bool) (numNodes : Nat) (isReplicated : Bool)
      (parameters : List (DataDirection × Option DataRef))
  | waitForTask (dataId : Nat) (am : AccessMode)
  | barrier (appId : AppId)
  | noMoreTasks (appId : AppId)
  | registerDataAccess (am : AccessMode) (ref : DataRef)
  /-- The access processor takes a request. -/
  | process (env : TransferEnv) (fuel : Nat)
  /-- The task dispatcher makes the executions of a task, on so many workers. -/
  | executeTask (workers : Nat)
  | launch (e : ExecutionId)
  | completed (e : ExecutionId)
  /-- The execution failed and is rescheduled. -/
  | error (e : ExecutionId)
  /-- The execution failed for good, or one it depends on did. -/
  | failed (e : ExecutionId)
  | doFailed (e : ExecutionId)
  /-- The task dispatcher does its next step. -/
  | dispatch

namespace AccessProcessor

def init : AccessProcessor where
  analyser := TaskAnalyser.init
  requests := []
  submitted := []
  execution _ := Execution.new 0 none []
  group _ := MultiNode.MultiNodeGroup.new 0
  nextTask := 1
  nextExecution := 0
  nextSemaphore := 0
  todo := []
  handled := []
  raised := []
  awaited := []

/-- The last task that has written the datum. -/
def lastWriter (a : TaskAnalyser) (dataId : Nat) : Option TaskId :=
  a.analysed.reverse.find? fun t => (a.task t).accesses.any fun id => id.dataId == dataId && id.writtenVersion.isSome

/-- A request of the application's. -/
def offer (s : AccessProcessor) (r : APRequest) : AccessProcessor := { s with requests := s.requests ++ [r] }

/-- A request has been processed, and left `a` behind. -/
def processed (s : AccessProcessor) (r : APRequest) (rs : List APRequest) (a : TaskAnalyser) : AccessProcessor :=
  { s with
    analyser := a, requests := rs, handled := r :: s.handled,
    awaited := match r with
      | .waitForTask dataId _ sem => (sem, lastWriter s.analyser dataId) :: s.awaited
      | .analyseTask _ | .taskEnd _ | .barrier .. | .endOfApp .. | .registerDataAccess .. => s.awaited }

/-- A request is processed. Only a task whose analysis returned is handed on;
a call that does not return has no next state. -/
def process (drawGraph : Bool) (env : TransferEnv) (fuel : Nat) (s : AccessProcessor) (r : APRequest)
    (rs : List APRequest) : Option AccessProcessor :=
  match r.process drawGraph env fuel s.analyser with
  | .ok _ a =>
    match r with
    | .analyseTask t => some { s.processed r rs a with submitted := s.submitted ++ [t] }
    | .taskEnd _ | .waitForTask .. | .barrier .. | .endOfApp .. | .registerDataAccess .. => some (s.processed r rs a)
  | .error e a => if e = .noReturn then none else some { s.processed r rs a with raised := r :: s.raised }

def setTask (s : AccessProcessor) (t : TaskId) (x : Task) : AccessProcessor :=
  { s with analyser := s.analyser.setTask t x }

def setExecution (s : AccessProcessor) (e : ExecutionId) (x : Execution) : AccessProcessor :=
  { s with execution := Function.update s.execution e x }

/-- How many executions `ExecuteTasksRequest` makes. -/
def numExecutions (x : Task) (workers : Nat) : Nat := if x.isReplicated then workers * x.numNodes else x.numNodes

/-- The executions a new one waits for: those of the predecessors of its task
that have not ended. -/
def pendingPredecessors (s : AccessProcessor) (x : Task) : List ExecutionId :=
  (x.predecessors.flatMap fun p => (s.analyser.task p).executions.filter fun e => (s.execution e).isPending).dedup

/-- `ExecuteTasksRequest.process`. A task of several nodes has one group for
each worker it is replicated on. -/
def execute (s : AccessProcessor) (t : TaskId) (workers : Nat) : AccessProcessor :=
  let x := s.analyser.task t
  let n := numExecutions x workers
  let first := s.nextExecution
  let group (e : ExecutionId) : Option ExecutionId :=
    if x.numNodes = 1 then none else some (first + (e - first) / x.numNodes * x.numNodes)
  let x' :=
    { x with status := .toExecute, executionCount := n, executions := x.executions ++ List.range' first n }
  { s.setTask t x' with
    execution := fun e =>
      if first ≤ e ∧ e < first + n then Execution.new t (group e) (s.pendingPredecessors x) else s.execution e,
    group := fun e => if first ≤ e ∧ e < first + n then MultiNode.MultiNodeGroup.new x.numNodes else s.group e,
    nextExecution := first + n }

/-- `doAction`: a member of a group registers there. -/
def doAction (s : AccessProcessor) (e : ExecutionId) : AccessProcessor :=
  let x := s.execution e
  match x.group with
  | none => s.setExecution e { x with state := .running }
  | some g =>
    let r := (s.group g).registerProcess e
    { s.setExecution e { x with state := .running, multiNodeId := r.2 } with group := Function.update s.group g r.1 }

/-- One step of the action that has ended. -/
def run (s : AccessProcessor) : Instr → AccessProcessor
  | .decreaseExecutionCount e =>
    let x := s.execution e
    let y := s.analyser.task x.task
    (s.setTask x.task { y with executionCount := y.executionCount - 1 }).setExecution e { x with counted := true }
  | .setStatus e status =>
    let t := (s.execution e).task
    s.setTask t { s.analyser.task t with status := status }
  | .notifyTaskEnd e => s.offer (.taskEnd (s.execution e).task)
  | .releaseSuccessors e =>
    { s with execution := fun f =>
        { s.execution f with dataPredecessors := (s.execution f).dataPredecessors.filter (· ≠ e) } }

/-- The execution exists, and the task dispatcher is done with the last one. -/
def canEnd (s : AccessProcessor) (e : ExecutionId) : Prop := e < s.nextExecution ∧ s.todo = []

instance (s : AccessProcessor) (e : ExecutionId) : Decidable (s.canEnd e) := by unfold canEnd; infer_instance

/-- An execution fails while it runs, or after one it depends on. -/
def canFail (s : AccessProcessor) (e : ExecutionId) : Prop :=
  (s.execution e).state = .running ∨
    (s.execution e).state = .runnable ∧ ∃ p ∈ (s.execution e).dataPredecessors, (s.execution p).state = .failed

instance (s : AccessProcessor) (e : ExecutionId) : Decidable (s.canFail e) := by unfold canFail; infer_instance

def step (drawGraph : Bool) (s : AccessProcessor) : Label → Option AccessProcessor
  | .newTask appId isService hasTarget hasReturn numNodes isReplicated parameters =>
    if 0 < numNodes then
      let x := Task.new appId isService hasTarget hasReturn numNodes isReplicated parameters
      some { (s.setTask s.nextTask x).offer (.analyseTask s.nextTask) with nextTask := s.nextTask + 1 }
    else none
  | .waitForTask dataId am =>
    some { s.offer (.waitForTask dataId am s.nextSemaphore) with nextSemaphore := s.nextSemaphore + 1 }
  | .barrier appId => some { s.offer (.barrier appId s.nextSemaphore) with nextSemaphore := s.nextSemaphore + 1 }
  | .noMoreTasks appId => some { s.offer (.endOfApp appId s.nextSemaphore) with nextSemaphore := s.nextSemaphore + 1 }
  | .registerDataAccess am ref => some (s.offer (.registerDataAccess am ref))
  | .process env fuel =>
    match s.requests with
    | [] => none
    | r :: rs => s.process drawGraph env fuel r rs
  | .executeTask workers =>
    match s.submitted with
    | [] => none
    | t :: ts => if s.todo = [] ∧ 0 < workers then some { s.execute t workers with submitted := ts } else none
  | .launch e =>
    let x := s.execution e
    if e < s.nextExecution ∧ x.state = .runnable ∧ x.dataPredecessors = [] then some (s.doAction e) else none
  | .completed e =>
    let x := s.execution e
    if s.canEnd e ∧ x.state = .running then
      some { s.setExecution e { x with state := .finished, triggered := true } with todo := x.onCompleted e }
    else none
  | .error e =>
    let x := s.execution e
    if s.canEnd e ∧ x.state = .running then some (s.setExecution e { x with state := .runnable }) else none
  | .failed e =>
    if s.canEnd e ∧ s.canFail e then some (s.setExecution e { s.execution e with state := .failed }) else none
  | .doFailed e =>
    let x := s.execution e
    if s.canEnd e ∧ x.state = .failed ∧ x.triggered = false then
      some { s.setExecution e { x with triggered := true } with todo := x.onFailed e }
    else none
  | .dispatch =>
    match s.todo with
    | [] => none
    | i :: is => some { s.run i with todo := is }

end AccessProcessor

end Compss.Runtime
