/-
`MOResourceScheduler.rescheduleTasks`, with `LocalOptimizationState` and
`SchedulingEvent`: the actions of one worker are scheduled again by a simulation
of what starts and ends on it.

The fields of the `MOSchedulingInformation` of the actions are functions of the
action. Every action has an implementation. A priority queue is a list in the
order of its comparator, and the actions that wait for resources stand in one
list instead of one for each core. Nothing ends or is unscheduled meanwhile, so
locks and the gaps that are open are left out, and what the actions cost.
-/
import Compss.MultiObjective.GapScheduling
import Mathlib.Data.List.Sort

namespace Compss.MultiObjective

open ResourceDescription

/-- The actions of the worker, in the order in which they are scanned, and what
does not change. Without a profile an action has no average time. -/
structure OptimizedActions (ρ : Type) extends Actions ρ where
  actions : List ActionId
  scheduled : ActionId → Bool
  averageExecutionTime : ActionId → Option Int
  startTime : ActionId → Option Int
  coreId : ActionId → Option Nat
  priority : ActionId → Int
  dataPredecessors : ActionId → List DataPredecessor
  /-- `tryToLaunch`: whether it is launched here. -/
  tryToLaunch : ActionId → Bool

/-- A gap up to an end. -/
structure TmpGap (ρ : Type) extends Gap ρ where
  endTime : Int
  deriving DecidableEq, Repr

inductive SchedulingEvent
  | Start (expectedTimeStamp : Int) (action : ActionId)
  | End (expectedTimeStamp : Int) (action : ActionId)
  deriving DecidableEq, Repr

namespace SchedulingEvent

def expectedTimeStamp : SchedulingEvent → Int
  | .Start t _ => t
  | .End t _ => t

def getPriority : SchedulingEvent → Int
  | .Start _ _ => 1
  | .End _ _ => 0

/-- `compareTo` is negative. -/
def before (e f : SchedulingEvent) : Bool :=
  e.expectedTimeStamp < f.expectedTimeStamp ||
    (e.expectedTimeStamp = f.expectedTimeStamp && e.getPriority < f.getPriority)

end SchedulingEvent

structure LocalOptimizationState (ρ : Type) where
  id : Int
  gaps : List (Gap ρ)
  action : Option ActionId
  missingResources : Option ρ
  topStartTime : Int
  runningActions : List ActionId
  readyActions : List ActionId
  selectableActions : List ActionId
  rescheduledActions : List ActionId
  expectedStart : ActionId → Int
  expectedEnd : ActionId → Int
  toReschedule : ActionId → Bool
  onOptimization : ActionId → Bool
  optimizingSuccessors : ActionId → List ActionId
  predecessors : ActionId → List (Gap ρ)
  successors : Origin → List ActionId

variable {ρ : Type} [ResourceDescription ρ]

/-- `reserveResources`, for the requirements that are left: the gaps
afterwards, and what is taken from them. -/
def reserveGaps (startTime : Int) : List (Gap ρ) → ρ → List (Gap ρ) × List (TmpGap ρ)
  | [], _ => ([], [])
  | g :: gaps, requirements =>
    if isDynamicUseless requirements then (g :: gaps, [])
    else
      let (rd, requirements, reduction) := reduceCommonDynamics g.resources requirements
      let (gaps, previousGaps) := reserveGaps startTime gaps requirements
      if isDynamicUseless reduction then ({ g with resources := rd } :: gaps, previousGaps)
      else
        (if isDynamicUseless rd then gaps else { g with resources := rd } :: gaps,
          ⟨{ g with resources := reduction }, startTime⟩ :: previousGaps)

/-- The loop of `replaceAction`: what is still missing, and when the last gap
begins that was looked at. -/
def searchGaps : List (Gap ρ) → ρ → Int → ρ × Int
  | [], missingResources, topStartTime => (missingResources, topStartTime)
  | gap :: gaps, missingResources, _ =>
    let (_, missingResources, _) := reduceCommonDynamics (copy gap.resources) missingResources
    if isDynamicUseless missingResources then (missingResources, gap.initialTime)
    else searchGaps gaps missingResources gap.initialTime

namespace LocalOptimizationState

variable (w : OptimizedActions ρ)

/-! ## Gaps -/

def reserveResources (s : LocalOptimizationState ρ) (resources : ρ) (startTime : Int) :
    LocalOptimizationState ρ × List (TmpGap ρ) :=
  let (gaps, previousGaps) := reserveGaps startTime s.gaps (copy resources)
  ({ s with gaps := gaps }, previousGaps)

def releaseResources (s : LocalOptimizationState ρ) (expectedStart : Int) (a : ActionId) : LocalOptimizationState ρ :=
  let gap : Gap ρ := ⟨expectedStart, some (.action a), copy (w.requirements a)⟩
  match s.missingResources with
  | none => { s with gaps := s.gaps ++ [gap] }
  | some missingResources =>
    let (_, missingResources, _) := reduceCommonDynamics (copy gap.resources) missingResources
    { s with gaps := s.gaps ++ [gap], topStartTime := gap.initialTime, missingResources := some missingResources }

def replaceAction (s : LocalOptimizationState ρ) : Option ActionId → LocalOptimizationState ρ
  | some a =>
    let (missingResources, topStartTime) := searchGaps s.gaps (copy (w.requirements a)) s.topStartTime
    { s with action := some a, missingResources := some missingResources, topStartTime := topStartTime }
  | none => { s with action := none, missingResources := none, topStartTime := 0 }

def canActionRun (s : LocalOptimizationState ρ) : Bool := s.missingResources.any isDynamicUseless

omit [ResourceDescription ρ]

def getActionStartTime (s : LocalOptimizationState ρ) : Int := max s.topStartTime (s.action.elim 0 s.expectedStart)

/-! ## Actions that wait -/

/-- `getReadyComparator`. -/
def readyBefore (s : LocalOptimizationState ρ) (a b : ActionId) : Bool :=
  s.expectedStart a < s.expectedStart b || (s.expectedStart a = s.expectedStart b && a < b)

/-- `getSelectionComparator`. -/
def selectedBefore (a b : ActionId) : Bool :=
  w.priority b < w.priority a || (w.priority a = w.priority b && a < b)

def offerReady (s : LocalOptimizationState ρ) (a : ActionId) : LocalOptimizationState ρ :=
  { s with readyActions := s.readyActions.orderedInsert (fun a b => s.readyBefore a b) a }

/-- `PriorityActionSet.offer`. -/
def offerSelectable (s : LocalOptimizationState ρ) (a : ActionId) : LocalOptimizationState ρ :=
  if s.toReschedule a then
    { s with selectableActions := s.selectableActions.orderedInsert (fun a b => selectedBefore w a b) a }
  else s

/-- `PriorityActionSet.peek`; the actions that are not to be rescheduled any
more are removed on the way. -/
def peek (s : LocalOptimizationState ρ) : Option ActionId × LocalOptimizationState ρ :=
  let selectableActions := s.selectableActions.dropWhile fun a => !s.toReschedule a
  (selectableActions.head?, { s with selectableActions := selectableActions })

/-- `PriorityActionSet.poll`. -/
def pollSelectable (s : LocalOptimizationState ρ) : LocalOptimizationState ρ :=
  { s with selectableActions := (s.selectableActions.dropWhile fun a => !s.toReschedule a).tail }

/-- `PriorityActionSet.removeFirst`. -/
def removeFirst (s : LocalOptimizationState ρ) (coreId : Option Nat) : LocalOptimizationState ρ :=
  { s with selectableActions := s.selectableActions.eraseP fun a => w.coreId a = coreId }

def clearPredecessors (s : LocalOptimizationState ρ) (a : ActionId) : LocalOptimizationState ρ :=
  { s with predecessors := Function.update s.predecessors a [] }

def clearSuccessors (s : LocalOptimizationState ρ) (a : ActionId) : LocalOptimizationState ρ :=
  { s with successors := Function.update s.successors (.action a) [] }

def setInterval (s : LocalOptimizationState ρ) (a : ActionId) (expectedStart expectedEnd : Int) : LocalOptimizationState ρ :=
  { s with expectedStart := Function.update s.expectedStart a expectedStart,
           expectedEnd := Function.update s.expectedEnd a expectedEnd }

/-- `pred` becomes a resource predecessor of `a`. -/
def link (a : ActionId) (s : LocalOptimizationState ρ) (g : Gap ρ) : LocalOptimizationState ρ :=
  match g.origin with
  | some pred =>
    { s with successors := Function.update s.successors pred (s.successors pred ++ [a]),
             predecessors := Function.update s.predecessors a (s.predecessors a ++ [g]) }
  | none => s

/-- `resourceBlockedAction` and `dataBlockedAction`. -/
def blockedAction (blockingAction : Origin) (s : LocalOptimizationState ρ) (a : ActionId) (requirements : ρ) :
    LocalOptimizationState ρ :=
  { s with successors := Function.update s.successors blockingAction (s.successors blockingAction ++ [a]),
           predecessors := Function.update s.predecessors a (s.predecessors a ++ [⟨0, some blockingAction, requirements⟩]) }

def progressOnTime (s : LocalOptimizationState ρ) (time : Int) : LocalOptimizationState ρ :=
  let due := s.readyActions.takeWhile fun a => s.expectedStart a ≤ time
  let rest := s.readyActions.dropWhile fun a => s.expectedStart a ≤ time
  due.foldl (offerSelectable w) { s with readyActions := rest }

/-- One data predecessor more: how many have still to be rescheduled, and when
the data of the others are there. -/
def addDataPredecessor (s : LocalOptimizationState ρ) (x : Nat × Int) : DataPredecessor → Nat × Int
  | .elsewhere _ expectedEnd => (x.1, max x.2 expectedEnd)
  | .here p => if s.onOptimization p then (x.1 + 1, x.2) else (x.1, max x.2 (s.expectedEnd p))

/-- One round of `releaseDataSuccessors`. -/
def releaseSuccessor (timeLimit : Int) (s : LocalOptimizationState ρ) (successor : ActionId) : LocalOptimizationState ρ :=
  let (missingParams, startTime) := (w.dataPredecessors successor).foldl s.addDataPredecessor (0, 0)
  let s := { s with expectedStart := Function.update s.expectedStart successor startTime }
  if missingParams = 0 then
    if startTime ≤ timeLimit then s.offerSelectable w successor else s.offerReady successor
  else s

def releaseDataSuccessors (s : LocalOptimizationState ρ) (a : ActionId) (timeLimit : Int) : LocalOptimizationState ρ :=
  let s := (s.optimizingSuccessors a).foldl (releaseSuccessor w timeLimit) s
  { s with optimizingSuccessors := Function.update s.optimizingSuccessors a [] }

variable [ResourceDescription ρ]

/-- `blockDataSuccessors`, to a depth. -/
def blockSuccessors : Nat → LocalOptimizationState ρ → ActionId → LocalOptimizationState ρ
  | 0, s, _ => s
  | depth + 1, s, a =>
    (s.optimizingSuccessors a).foldl (fun s successor =>
      if s.onOptimization successor then
        let s := (s.clearPredecessors successor).clearSuccessors successor
        let s := blockedAction .dataBlockingAction s successor (copy (w.requirements successor))
        let s := blockSuccessors depth s successor
        let s := s.setInterval successor maxTime maxTime
        { s with onOptimization := Function.update s.onOptimization successor false }
      else s) s

/-- No chain of successors is longer than there are actions. -/
def blockDataSuccessors (s : LocalOptimizationState ρ) (a : ActionId) : LocalOptimizationState ρ :=
  blockSuccessors w w.actions.length s a

/-! ## Classification -/

/-- The state of an optimisation: the blocking actions are new. -/
def new (id : Int) (description : ρ) (s : LocalOptimizationState ρ) : LocalOptimizationState ρ :=
  { s with
    id := id, gaps := [⟨0, none, copy description⟩], action := none, missingResources := none, topStartTime := 0,
    runningActions := [], readyActions := [], selectableActions := [], rescheduledActions := [],
    successors := Function.update (Function.update s.successors .resourceBlockingAction []) .dataBlockingAction [] }

def classifyAction (s : LocalOptimizationState ρ) (a : ActionId) (hasInternal hasExternal hasResourcePredecessors : Bool)
    (startTime : Int) : LocalOptimizationState ρ :=
  if !hasInternal then
    if hasExternal then
      if startTime = 0 then s.offerSelectable w a
      else if startTime = maxTime then blockedAction .dataBlockingAction s a (copy (w.requirements a))
      else s.offerReady a
    else if hasResourcePredecessors then s.offerSelectable w a
    else { s with runningActions := s.runningActions ++ [a] }
  else s

omit [ResourceDescription ρ] in
/-- The data predecessors on this worker, and whether others are elsewhere. -/
def internal (a : ActionId) : List ActionId :=
  (w.dataPredecessors a).filterMap fun p => match p with
    | .here p => if w.scheduled p then some p else none
    | .elsewhere _ _ => none

omit [ResourceDescription ρ] in
def hasExternal (a : ActionId) : Bool :=
  (w.dataPredecessors a).any fun p => match p with
    | .here _ => false
    | .elsewhere _ _ => true

omit [ResourceDescription ρ] in
def externalStart (a : ActionId) : Int :=
  (w.dataPredecessors a).foldl (fun startTime p => match p with
    | .here _ => startTime
    | .elsewhere _ expectedEnd => max startTime expectedEnd) 0

/-- One round of `scanActions`. -/
def scanAction (s : LocalOptimizationState ρ) (a : ActionId) : LocalOptimizationState ρ :=
  let internal := internal w a
  let s := internal.foldl (fun s p =>
    { s with optimizingSuccessors := Function.update s.optimizingSuccessors p (s.optimizingSuccessors p ++ [a]) }) s
  let hasResourcePredecessors := (s.predecessors a).any fun g => g.origin.any fun o => match o with
    | .action p => w.scheduled p
    | _ => true
  let s := { s with
    expectedStart := Function.update s.expectedStart a (externalStart w a)
    toReschedule := Function.update s.toReschedule a true
    onOptimization := Function.update s.onOptimization a true }
  s.classifyAction w a (!internal.isEmpty) (hasExternal w a) hasResourcePredecessors (externalStart w a)

def scanActions (s : LocalOptimizationState ρ) : LocalOptimizationState ρ := w.actions.foldl (scanAction w) s

/-! ## Running actions -/

def manageRunningAction (s : LocalOptimizationState ρ) (a : ActionId) : LocalOptimizationState ρ :=
  let start := (w.startTime a).elim 0 (· - s.id)
  let endTime := (w.averageExecutionTime a).elim start (addTime start)
  let s := s.setInterval a start (if endTime < 0 then 0 else endTime)
  let s := (s.clearPredecessors a).clearSuccessors a
  let s := { s with toReschedule := Function.update s.toReschedule a false }
  (s.reserveResources (w.requirements a) 0).1

/-! ## Events -/

variable (fillGap : LocalOptimizationState ρ → TmpGap ρ → LocalOptimizationState ρ × List (Gap ρ))

omit [ResourceDescription ρ] in
def getExpectedEnd (a : ActionId) (expectedStart : Int) : Int :=
  let theoreticalEnd :=
    if w.isToReleaseResources a then
      let endTime := (w.averageExecutionTime a).elim expectedStart (addTime expectedStart)
      if endTime < 0 then 0 else endTime
    else maxTime
  if theoreticalEnd < expectedStart then maxTime else theoreticalEnd

omit [ResourceDescription ρ] in
/-- One round of the loop over the gaps that were taken. -/
def linkTmpGap (expectedTimeStamp : Int) (a : ActionId) (s : LocalOptimizationState ρ) (tmpGap : TmpGap ρ) :
    LocalOptimizationState ρ :=
  if expectedTimeStamp = tmpGap.endTime then link a s tmpGap.toGap
  else
    let (s, outGaps) := fillGap s tmpGap
    outGaps.foldl (link a) s

/-- `Start.process`. -/
def processStart (s : LocalOptimizationState ρ) (expectedTimeStamp : Int) (a : ActionId) :
    LocalOptimizationState ρ × List SchedulingEvent :=
  let expectedEndTime := getExpectedEnd w a expectedTimeStamp
  let s := s.setInterval a expectedTimeStamp expectedEndTime
  let s := (s.clearPredecessors a).clearSuccessors a
  let (s, tmpGaps) := s.reserveResources (w.requirements a) expectedTimeStamp
  let s := tmpGaps.foldl (linkTmpGap fillGap expectedTimeStamp a) s
  ({ s with rescheduledActions := s.rescheduledActions ++ [a] }, [.End expectedEndTime a])

/-- `ResourceBlocked.process`. -/
def processResourceBlocked (s : LocalOptimizationState ρ) (a : ActionId) : LocalOptimizationState ρ :=
  let s := { s with onOptimization := Function.update s.onOptimization a false }
  let s := (s.clearPredecessors a).clearSuccessors a
  let s := s.setInterval a maxTime maxTime
  let s := blockedAction .resourceBlockingAction s a (copy (w.requirements a))
  let s := s.blockDataSuccessors w a
  { s with rescheduledActions := s.rescheduledActions ++ [a] }

/-- The loop of `End.process`, at most `n` times: the first of the actions that
wait starts as long as it can, or is blocked when `a` keeps its resources. -/
def startTops (a : ActionId) : Nat → Option ActionId → LocalOptimizationState ρ →
    LocalOptimizationState ρ × List SchedulingEvent
  | n + 1, some currentTop, s =>
    if s.canActionRun then
      let s := s.removeFirst w (w.coreId currentTop)
      let s := { s with toReschedule := Function.update s.toReschedule currentTop false }
      let (s, enabledEvents) :=
        if w.isToReleaseResources a then s.processStart w fillGap s.getActionStartTime currentTop
        else (s.processResourceBlocked w currentTop, [])
      let (currentTop, s) := s.peek
      let (s, more) := startTops a n currentTop (s.replaceAction w currentTop)
      (s, enabledEvents ++ more)
    else (s, [])
  | _, _, s => (s, [])

/-- `End.process`. -/
def processEnd (s : LocalOptimizationState ρ) (expectedTimeStamp : Int) (a : ActionId) :
    LocalOptimizationState ρ × List SchedulingEvent :=
  let s := { s with onOptimization := Function.update s.onOptimization a false }
  let s := s.progressOnTime w expectedTimeStamp
  let s := s.releaseDataSuccessors w a expectedTimeStamp
  let (currentTop, s) := s.peek
  let s := if s.action ≠ currentTop then s.replaceAction w currentTop else s
  let s := s.releaseResources w expectedTimeStamp a
  startTops w fillGap a s.selectableActions.length currentTop s

def process (s : LocalOptimizationState ρ) : SchedulingEvent → LocalOptimizationState ρ × List SchedulingEvent
  | .Start t a => s.processStart w fillGap t a
  | .End t a => s.processEnd w fillGap t a

end LocalOptimizationState

/-! ## The simulation -/

structure Optimization (ρ : Type) where
  state : LocalOptimizationState ρ
  schedulingQueue : List SchedulingEvent

namespace Optimization

variable (w : OptimizedActions ρ) (fillGap : LocalOptimizationState ρ → TmpGap ρ → LocalOptimizationState ρ × List (Gap ρ))

def offer (schedulingQueue : List SchedulingEvent) (e : SchedulingEvent) : List SchedulingEvent :=
  schedulingQueue.orderedInsert (fun e f => e.before f) e

/-- The loop over the running actions. -/
def manageRunningActions (s : LocalOptimizationState ρ) : Optimization ρ :=
  s.runningActions.foldl (fun o a =>
    let s := o.state.manageRunningAction w a
    ⟨s, offer o.schedulingQueue (.End (s.expectedEnd a) a)⟩) ⟨s, []⟩

/-- The loop that starts what can run now, at most `n` times; `gapResource` is
what is left of the first gap. -/
def launchActions : Nat → Optimization ρ → Optimization ρ
  | n + 1, o =>
    if !o.state.selectableActions.isEmpty && o.state.gaps.any fun gap => !isDynamicUseless gap.resources then
      let (top, s) := o.state.peek
      let s := s.replaceAction w top
      match top with
      | some top =>
        if s.canActionRun then
          let s := s.pollSelectable.manageRunningAction w top
          launchActions n
            ⟨s, if w.tryToLaunch top then offer o.schedulingQueue (.End (s.expectedEnd top) top) else o.schedulingQueue⟩
        else ⟨s, o.schedulingQueue⟩
      | none => ⟨s, o.schedulingQueue⟩
    else o
  | 0, o => o

/-- The first two loops of `rescheduleTasks`. -/
def begin (s : LocalOptimizationState ρ) : Optimization ρ :=
  launchActions w s.selectableActions.length (manageRunningActions w s)

/-- One round of the last loop: the next event, or else the earliest action
that is ready. -/
def next (o : Optimization ρ) : Option (Optimization ρ) :=
  match o.schedulingQueue with
  | e :: schedulingQueue =>
    let (s, result) := o.state.process w fillGap e
    some ⟨s, result.foldl offer schedulingQueue⟩
  | [] =>
    match o.state.readyActions with
    | topAction :: readyActions =>
      let s := { o.state with readyActions := readyActions,
                              toReschedule := Function.update o.state.toReschedule topAction false }
      some ⟨s, [.Start (s.expectedStart topAction) topAction]⟩
    | [] => none

/-- `rescheduleTasks` after `n` rounds, if it has returned by then. -/
def rescheduleTasks (n : Nat) (s : LocalOptimizationState ρ) : Option (LocalOptimizationState ρ) :=
  go n (begin w s)
where
  go : Nat → Optimization ρ → Option (LocalOptimizationState ρ)
    | n, o => match next w fillGap o, n with
      | none, _ => some o.state
      | some _, 0 => none
      | some o, n + 1 => go n o

end Optimization

end Compss.MultiObjective
