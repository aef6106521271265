/-
`MOResourceScheduler` with its descriptions as objects: a gap refers to one, and
the operations change it where it is. What an implementation asks for is such an
object, too, which all its actions and workers share, so that a gap is to have a
copy of it.

The scheduler, the actions and the state of an optimisation are one state, and
the methods are computations over it. An optimisation is begun and ended apart
from `rescheduleTasks`, so that actions can be scheduled meanwhile. Which actions
it takes up, what it knows of them and what a call reads besides are given. Every
action has an implementation, priority queues are lists in the order of their
comparator, as in `LocalOptimization`, and locks, open gaps, costs and the list of
the actions that were rescheduled are left out.
-/
import Compss.Lib.Memory
import Compss.MultiObjective.LocalOptimization

namespace Compss.MultiObjective.ByReference

open Lib

abbrev ImplementationId := Nat

/-- A description: the requirements of an implementation, or one made since. -/
abbrev Ref := Lib.Ref ImplementationId

/-- One of the actions, or an `OptimizationAction`. -/
inductive AllocatableAction
  | action (a : ActionId)
  | optimizationAction (n : Nat)
  deriving DecidableEq

def AllocatableAction.isOptimizationAction : AllocatableAction → Bool
  | .action _ => false
  | .optimizationAction _ => true

structure Gap where
  initialTime : Int
  endTime : Int
  origin : Option AllocatableAction
  resources : Ref
  deriving DecidableEq

structure MOSchedulingInformation where
  scheduled : Bool
  expectedStart : Int
  expectedEnd : Int
  resourcePredecessors : List Gap
  resourceSuccessors : List ActionId
  onOptimization : Bool
  toReschedule : Bool
  optimizingSuccessors : List ActionId

/-- `new MOSchedulingInformation()`. -/
def MOSchedulingInformation.new : MOSchedulingInformation := ⟨false, 0, 0, [], [], false, false, []⟩

structure LocalOptimizationState where
  id : Int
  gaps : List Gap
  action : Option ActionId
  missingResources : Option Ref
  topStartTime : Int
  runningActions : List ActionId
  readyActions : List ActionId
  selectableActions : List ActionId
  resourceBlockingAction : AllocatableAction
  dataBlockingAction : AllocatableAction

/-- The scheduler, with the last optimisation and the information of all
actions. -/
structure MOResourceScheduler (ρ : Type) where
  memory : Memory ImplementationId ρ
  assignedImplementation : ActionId → ImplementationId
  info : AllocatableAction → MOSchedulingInformation
  optimizationActions : Nat
  gaps : List Gap
  opAction : Option AllocatableAction
  resourceBlockingAction : AllocatableAction
  dataBlockingAction : AllocatableAction
  state : LocalOptimizationState

/-- What becomes of an action that is launched: if the scheduling is invalid, it is
scheduled again with an implementation, on this worker or on another one. -/
inductive Launch
  | launched
  | rescheduled (implementation : ImplementationId) (here : Bool)

/-- What a call reads besides. -/
structure Surroundings (ρ : Type) where
  isToReleaseResources : ActionId → Bool
  coreId : ActionId → Option Nat
  averageExecutionTime : ImplementationId → Option Int
  startTime : ActionId → Option Int
  dataPredecessors : ActionId → List DataPredecessor
  /-- The comparator of the actions that can be selected. -/
  selectedBefore : ActionId → ActionId → Bool
  canHostDynamic : ρ → ρ → Bool
  tryToLaunch : ActionId → Launch

abbrev M (ρ : Type) := StateM (MOResourceScheduler ρ)

variable {ρ : Type}

/-! ## Descriptions -/

def read (r : Ref) : M ρ ρ := return (← get).memory.object r

def write (r : Ref) (x : ρ) : M ρ Unit := modify fun s => { s with memory := s.memory.write r x }

def make (x : ρ) : M ρ Ref := do
  let r := (← get).memory.next
  modify fun s => { s with memory := s.memory.make x }
  return r

/-- The object that an action shares with the other ones of its implementation. -/
def requirements (a : ActionId) : M ρ Ref := return .given ((← get).assignedImplementation a)

section
variable [ResourceDescription ρ]

def copy (r : Ref) : M ρ Ref := do make (ResourceDescription.copy (← read r))

def isDynamicUseless (r : Ref) : M ρ Bool := return ResourceDescription.isDynamicUseless (← read r)

def isDynamicConsuming (r : Ref) : M ρ Bool := return ResourceDescription.isDynamicConsuming (← read r)

def reduceDynamic (r rd : Ref) : M ρ Unit := do write r (ResourceDescription.reduceDynamic (← read r) (← read rd))

def increaseDynamic (r rd : Ref) : M ρ Unit := do write r (ResourceDescription.increaseDynamic (← read r) (← read rd))

def reduceCommonDynamics (gapResource constraints : Ref) : M ρ Ref := do
  let commons ← make (ResourceDescription.getDynamicCommons (← read gapResource) (← read constraints))
  reduceDynamic gapResource commons
  reduceDynamic constraints commons
  return commons

end

/-! ## Scheduling information -/

def getInfo (o : AllocatableAction) : M ρ MOSchedulingInformation := return (← get).info o

def setInfo (o : AllocatableAction) (f : MOSchedulingInformation → MOSchedulingInformation) : M ρ Unit :=
  modify fun s => { s with info := Function.update s.info o (f (s.info o)) }

def addPredecessor (a : ActionId) (predecessor : Gap) : M ρ Unit :=
  setInfo (.action a) fun i => { i with resourcePredecessors := i.resourcePredecessors ++ [predecessor] }

/-- The gaps of the successor are removed; the last gap of all is returned. -/
def removePredecessor (a : ActionId) (successor : AllocatableAction) : M ρ (Option Gap) := do
  let resourcePredecessors := (← getInfo (.action a)).resourcePredecessors
  setInfo (.action a) fun i =>
    { i with resourcePredecessors := i.resourcePredecessors.filter fun g => g.origin ≠ some successor }
  return resourcePredecessors.getLast?

def clearPredecessors (a : ActionId) : M ρ Unit := setInfo (.action a) fun i => { i with resourcePredecessors := [] }

def addSuccessor (o : AllocatableAction) (successor : ActionId) : M ρ Unit :=
  setInfo o fun i => { i with resourceSuccessors := i.resourceSuccessors ++ [successor] }

def removeSuccessor (o : AllocatableAction) (successor : ActionId) : M ρ Unit :=
  setInfo o fun i => { i with resourceSuccessors := i.resourceSuccessors.erase successor }

def clearSuccessors (o : AllocatableAction) : M ρ Unit := setInfo o fun i => { i with resourceSuccessors := [] }

def setInterval (a : ActionId) (expectedStart expectedEnd : Int) : M ρ Unit :=
  setInfo (.action a) fun i => { i with expectedStart := expectedStart, expectedEnd := expectedEnd }

def setToReschedule (a : ActionId) (b : Bool) : M ρ Unit := setInfo (.action a) fun i => { i with toReschedule := b }

def setOnOptimization (a : ActionId) (b : Bool) : M ρ Unit := setInfo (.action a) fun i => { i with onOptimization := b }

def setScheduled (a : ActionId) : M ρ Unit := setInfo (.action a) fun i => { i with scheduled := true }

def unscheduled (a : ActionId) : M ρ Unit :=
  setInfo (.action a) fun i => { i with scheduled := false, resourcePredecessors := [], resourceSuccessors := [] }

def isExecutable (a : ActionId) : M ρ Bool :=
  return (← getInfo (.action a)).resourcePredecessors.all fun g => g.origin.isNone

/-- `new OptimizationAction()`. -/
def newOptimizationAction : M ρ AllocatableAction := do
  let o := AllocatableAction.optimizationAction (← get).optimizationActions
  modify fun s => { s with optimizationActions := s.optimizationActions + 1 }
  setInfo o fun _ => { MOSchedulingInformation.new with scheduled := true, onOptimization := true, expectedEnd := maxTime }
  return o

def assignImplementation (a : ActionId) (implementation : ImplementationId) : M ρ Unit :=
  modify fun s => { s with assignedImplementation := Function.update s.assignedImplementation a implementation }

/-! ## Scheduling -/

def setGaps (gaps : List Gap) : M ρ Unit := modify fun s => { s with gaps := gaps }

/-- Behind the gaps that begin before it or with it. -/
def insertGap (g : Gap) : List Gap → List Gap
  | [] => [g]
  | gap :: gaps => if gap.initialTime ≤ g.initialTime then gap :: insertGap g gaps else g :: gap :: gaps

/-- When the data predecessors end. -/
def dataStart (dataPredecessors : List DataPredecessor) : M ρ Int := do
  let s ← get
  return dataPredecessors.foldl (fun expectedStart p =>
    let (scheduled, expectedEnd) := match p with
      | .here a => ((s.info (.action a)).scheduled, (s.info (.action a)).expectedEnd)
      | .elsewhere scheduled expectedEnd => (scheduled, expectedEnd)
    if scheduled then max expectedStart expectedEnd else expectedStart) 0

/-- One round of the loop that adds the dependencies; the start is put off to
the end of the predecessor. -/
def addDependency (a : ActionId) (expectedStart : Int) (g : Gap) : M ρ Int := do
  match g.origin with
  | some o =>
    let i ← getInfo o
    if i.scheduled then
      addSuccessor o a
      addPredecessor a g
      return max expectedStart i.expectedEnd
    else
      addPredecessor a g
      return expectedStart
  | none =>
    addPredecessor a g
    return expectedStart

/-- The action waits for a blocking action. -/
def block (a : ActionId) (blockingAction : AllocatableAction) (resources : Ref) : M ρ Unit := do
  addSuccessor blockingAction a
  addPredecessor a ⟨0, 0, some blockingAction, resources⟩
  setInterval a maxTime maxTime
  setScheduled a

/-- The origin of a gap is a predecessor of the action. -/
def link (a : ActionId) (g : Gap) : M ρ Unit := do
  match g.origin with
  | some pred =>
    addSuccessor pred a
    addPredecessor a g
  | none => pure ()

/-- A walk over the gaps: those that are kept, and the predecessors that were
made. -/
structure Walk where
  gaps : List Gap
  predecessors : List Gap
  fullyCoveredReqs : Bool

variable [ResourceDescription ρ]

def addGap (g : Gap) : M ρ Unit := do
  match (← get).gaps.find? fun registeredGap => registeredGap.origin = g.origin with
  | some registeredGap => increaseDynamic registeredGap.resources g.resources
  | none => modify fun s => { s with gaps := insertGap g s.gaps }

/-- `useGap`: the predecessor that is made. -/
def useGap (gap : Gap) (resources : Ref) : M ρ (List Gap) := do
  let usedResources ← reduceCommonDynamics gap.resources resources
  if ← isDynamicConsuming usedResources then return [{ gap with endTime := maxTime, resources := usedResources }]
  else return []

/-- The loops of `scheduleUsingGaps` over the gaps that begin in time. -/
def useGaps (inTime : Int → Bool) (constraints : Ref) : List Gap → M ρ Walk
  | [] => return ⟨[], [], false⟩
  | gap :: gaps => do
    if inTime gap.initialTime then
      let predecessors ← useGap gap constraints
      let fullyCoveredReqs ← isDynamicUseless constraints
      let kept := if ← isDynamicUseless gap.resources then [] else [gap]
      if fullyCoveredReqs then return ⟨kept ++ gaps, predecessors, true⟩
      else
        let rest ← useGaps inTime constraints gaps
        return ⟨kept ++ rest.gaps, predecessors ++ rest.predecessors, rest.fullyCoveredReqs⟩
    else
      let rest ← useGaps inTime constraints gaps
      return { rest with gaps := gap :: rest.gaps }

/-- The gaps that begin before the data are there, from the last one on; then
the later ones. -/
def walkGaps (expectedStart : Int) (constraints : Ref) : M ρ Walk := do
  let early ← useGaps (fun t => t ≤ expectedStart) constraints (← get).gaps.reverse
  if early.fullyCoveredReqs then return { early with gaps := early.gaps.reverse }
  else
    let late ← useGaps (fun t => expectedStart < t && t < maxTime) constraints early.gaps.reverse
    return { late with predecessors := early.predecessors ++ late.predecessors }

def scheduleUsingGaps (w : Surroundings ρ) (a : ActionId) : M ρ Unit := do
  let expectedStart ← dataStart (w.dataPredecessors a)
  if expectedStart = maxTime then
    let requirements ← copy (← requirements a)
    block a (← get).dataBlockingAction requirements
  else
    let constraints ← copy (← requirements a)
    let walk ← walkGaps expectedStart constraints
    setGaps walk.gaps
    if walk.fullyCoveredReqs then
      setScheduled a
      let expectedStart ← walk.predecessors.foldlM (addDependency a) expectedStart
      let averageTime := w.averageExecutionTime ((← get).assignedImplementation a)
      let expectedEnd := averageTime.elim expectedStart (addTime expectedStart)
      setInterval a expectedStart expectedEnd
      let initialTime := if w.isToReleaseResources a then expectedEnd else maxTime
      let released ← copy (← requirements a)
      addGap ⟨initialTime, maxTime, some (.action a), released⟩
    else
      walk.predecessors.forM addGap
      -- The requirements themselves, no copy.
      let requirements ← requirements a
      block a (← get).resourceBlockingAction requirements

def scheduleAction (w : Surroundings ρ) (a : ActionId) : M ρ Unit := do
  match (← get).opAction with
  | some opAction =>
    addSuccessor opAction a
    let requirements ← copy (← requirements a)
    addPredecessor a ⟨0, 0, some opAction, requirements⟩
  | none => scheduleUsingGaps w a

/-! ## Unscheduling -/

/-- The loop over the predecessors: what comes from other actions. -/
def holdGaps (a : ActionId) (unassignedResources : Ref) : List Gap → M ρ (List Gap)
  | [] => return []
  | pGap :: predecessors => do
    match pGap.origin with
    | some pred =>
      if pred.isOptimizationAction then
        removeSuccessor pred a
        holdGaps a unassignedResources predecessors
      else
        let held ← copy pGap.resources
        reduceDynamic unassignedResources pGap.resources
        removeSuccessor pred a
        let resources ← holdGaps a unassignedResources predecessors
        return { pGap with endTime := maxTime, resources := held } :: resources
    | none => holdGaps a unassignedResources predecessors

/-- The walk over the released resources that covers what a successor had: what
is left of them. -/
def cover (successor : ActionId) (resToCover : Ref) : List Gap → M ρ (List Gap)
  | [] => return []
  | availableGap :: resources => do
    let usedResources ← reduceCommonDynamics availableGap.resources resToCover
    if ← isDynamicUseless usedResources then
      let resources ← cover successor resToCover resources
      return availableGap :: resources
    else
      link successor { availableGap with endTime := maxTime, resources := usedResources }
      let kept := if ← isDynamicUseless availableGap.resources then [] else [availableGap]
      if ← isDynamicUseless resToCover then return kept ++ resources
      else
        let resources ← cover successor resToCover resources
        return kept ++ resources

/-- A successor had no predecessors, or has a gap to be covered. -/
def coverGap (successor : ActionId) (resources : List Gap) : Option Gap → M ρ (List Gap)
  | some toCover => cover successor toCover.resources resources
  | none => return resources

/-- One round of the loop over the successors: the resources that are left, and
the actions that are free. -/
def coverSuccessor (a : ActionId) (x : List Gap × List ActionId) (successor : ActionId) :
    M ρ (List Gap × List ActionId) := do
  let resources ← coverGap successor x.1 (← removePredecessor successor (.action a))
  if ← isExecutable successor then return (resources, x.2 ++ [successor])
  else return (resources, x.2)

/-- `unscheduleAction`: the actions that are free now; none for
`ActionNotFoundException`. -/
def unscheduleAction (a : ActionId) (assignedHere : Bool) : M ρ (Option (List ActionId)) := do
  let actionDSI ← getInfo (.action a)
  if !actionDSI.scheduled || !assignedHere then
    unscheduled a
    return none
  else
    let unassignedResources ← copy (← requirements a)
    let held ← holdGaps a unassignedResources actionDSI.resourcePredecessors
    clearPredecessors a
    let (resources, freeActions) ←
      (← getInfo (.action a)).resourceSuccessors.foldlM (coverSuccessor a)
        (held ++ [⟨minTime, maxTime, none, unassignedResources⟩], [])
    unscheduled a
    setGaps ((← get).gaps.filter fun g => g.origin ≠ some (.action a))
    resources.forM addGap
    return some freeActions

/-! ## The state of an optimisation -/

def getState : M ρ LocalOptimizationState := return (← get).state

def setState (f : LocalOptimizationState → LocalOptimizationState) : M ρ Unit :=
  modify fun s => { s with state := f s.state }

/-- The description of the worker. -/
def description : Ref := .made 0

/-- `new LocalOptimizationState`. -/
def newState (updateId : Int) : M ρ Unit := do
  let rd ← copy description
  let resourceBlockingAction ← newOptimizationAction
  let dataBlockingAction ← newOptimizationAction
  setState fun _ => ⟨updateId, [⟨0, maxTime, none, rd⟩], none, none, 0, [], [], [], resourceBlockingAction, dataBlockingAction⟩

/-- The loop of `reserveResources`: the gaps afterwards, and what is taken from
them. -/
def reserveGaps (requirements : Ref) (startTime : Int) : List Gap → M ρ (List Gap × List Gap)
  | [] => return ([], [])
  | g :: gaps => do
    if ← isDynamicUseless requirements then return (g :: gaps, [])
    else
      let reduction ← reduceCommonDynamics g.resources requirements
      if ← isDynamicUseless reduction then
        let (gaps, previousGaps) ← reserveGaps requirements startTime gaps
        return (g :: gaps, previousGaps)
      else
        let kept := if ← isDynamicUseless g.resources then [] else [g]
        let (gaps, previousGaps) ← reserveGaps requirements startTime gaps
        return (kept ++ gaps, { g with endTime := startTime, resources := reduction } :: previousGaps)

def reserveResources (resources : Ref) (startTime : Int) : M ρ (List Gap) := do
  let requirements ← copy resources
  let (gaps, previousGaps) ← reserveGaps requirements startTime (← getState).gaps
  setState fun s => { s with gaps := gaps }
  return previousGaps

/-- A copy of a gap is taken from what is missing. -/
def takeFromMissing (missingResources : Ref) (gap : Gap) : M ρ Unit := do
  let empty ← copy gap.resources
  setState fun s => { s with topStartTime := gap.initialTime }
  let _ ← reduceCommonDynamics empty missingResources

def releaseResources (expectedStart : Int) (a : ActionId) : M ρ Unit := do
  let released ← copy (← requirements a)
  let gap : Gap := ⟨expectedStart, maxTime, some (.action a), released⟩
  setState fun s => { s with gaps := s.gaps ++ [gap] }
  match (← getState).missingResources with
  | some missingResources => takeFromMissing missingResources gap
  | none => pure ()

/-- The loop of `replaceAction`. -/
def searchGaps (missingResources : Ref) : List Gap → M ρ Unit
  | [] => pure ()
  | gap :: gaps => do
    takeFromMissing missingResources gap
    if ← isDynamicUseless missingResources then pure () else searchGaps missingResources gaps

def replaceAction : Option ActionId → M ρ Unit
  | some a => do
    let missingResources ← copy (← requirements a)
    setState fun s => { s with action := some a, missingResources := some missingResources }
    searchGaps missingResources (← getState).gaps
  | none => setState fun s => { s with action := none, missingResources := none, topStartTime := 0 }

def canActionRun : M ρ Bool := do
  match (← getState).missingResources with
  | some missingResources => isDynamicUseless missingResources
  | none => return false

omit [ResourceDescription ρ] in
def getActionStartTime : M ρ Int := do
  let s ← get
  return max s.state.topStartTime (s.state.action.elim 0 fun a => (s.info (.action a)).expectedStart)

/-! ## Actions that wait -/

omit [ResourceDescription ρ]

variable (w : Surroundings ρ)

/-- `getReadyComparator`. -/
def readyBefore (info : AllocatableAction → MOSchedulingInformation) (a b : ActionId) : Bool :=
  (info (.action a)).expectedStart < (info (.action b)).expectedStart ||
    ((info (.action a)).expectedStart = (info (.action b)).expectedStart && a < b)

def offerReady (a : ActionId) : M ρ Unit := do
  let info := (← get).info
  setState fun s => { s with readyActions := s.readyActions.orderedInsert (fun a b => readyBefore info a b) a }

/-- `PriorityActionSet.offer`. -/
def offerSelectable (a : ActionId) : M ρ Unit := do
  if (← getInfo (.action a)).toReschedule then
    setState fun s => { s with selectableActions := s.selectableActions.orderedInsert (fun a b => w.selectedBefore a b) a }

/-- The actions from the first one on that is to be rescheduled. -/
def selectable : M ρ (List ActionId) := do
  let s ← get
  return s.state.selectableActions.dropWhile fun a => !(s.info (.action a)).toReschedule

/-- `PriorityActionSet.peek`. -/
def peek : M ρ (Option ActionId) := do
  let actions ← selectable
  setState fun s => { s with selectableActions := actions }
  return actions.head?

/-- `PriorityActionSet.poll`. -/
def pollSelectable : M ρ Unit := do
  let actions ← selectable
  setState fun s => { s with selectableActions := actions.tail }

/-- `PriorityActionSet.removeFirst`. -/
def removeFirst (coreId : Option Nat) : M ρ Unit :=
  setState fun s => { s with selectableActions := s.selectableActions.eraseP fun a => w.coreId a = coreId }

/-- The first action of each core. -/
def firstOfCores : List ActionId → List ActionId
  | [] => []
  | a :: actions => a :: (firstOfCores actions).filter fun b => w.coreId b ≠ w.coreId a

/-- `PriorityActionSet.peekAll`: of each core, one first action is removed if it is
not to be rescheduled. -/
def peekAll : M ρ (List ActionId) := do
  let s ← get
  let removed := (firstOfCores w s.state.selectableActions).filter fun a => !(s.info (.action a)).toReschedule
  let actions := removed.foldl List.erase s.state.selectableActions
  setState fun s => { s with selectableActions := actions }
  return firstOfCores w actions

/-- The loop of `pollActionForGap`. -/
def findCandidate (gap : Gap) : List ActionId → M ρ (Option ActionId)
  | [] => return none
  | candidate :: peeks => do
    let start := (← getInfo (.action candidate)).expectedStart
    let expectedLength := (w.averageExecutionTime ((← get).assignedImplementation candidate)).getD 0
    if start > gap.endTime || addTime gap.endTime (-gap.initialTime) < expectedLength ||
        addTime start expectedLength > gap.endTime then
      findCandidate gap peeks
    else
      let required ← read (← requirements candidate)
      if w.canHostDynamic (← read gap.resources) required then
        removeFirst w (w.coreId candidate)
        return some candidate
      else findCandidate gap peeks

def pollActionForGap (gap : Gap) : M ρ (Option ActionId) := do
  findCandidate w gap (← peekAll w)

def progressOnTime (time : Int) : M ρ Unit := do
  let s ← get
  let due := s.state.readyActions.takeWhile fun a => (s.info (.action a)).expectedStart ≤ time
  let rest := s.state.readyActions.dropWhile fun a => (s.info (.action a)).expectedStart ≤ time
  setState fun s => { s with readyActions := rest }
  due.forM (offerSelectable w)

/-- One data predecessor more: how many have still to be rescheduled, and when
the data of the others are there. -/
def addDataPredecessor (info : AllocatableAction → MOSchedulingInformation) (x : Nat × Int) : DataPredecessor → Nat × Int
  | .elsewhere _ expectedEnd => (x.1, max x.2 expectedEnd)
  | .here p =>
    if (info (.action p)).onOptimization then (x.1 + 1, x.2) else (x.1, max x.2 (info (.action p)).expectedEnd)

/-- One round of `releaseDataSuccessors`. -/
def releaseSuccessor (timeLimit : Int) (successor : ActionId) : M ρ Unit := do
  let (missingParams, startTime) := (w.dataPredecessors successor).foldl (addDataPredecessor (← get).info) (0, 0)
  setInfo (.action successor) fun i => { i with expectedStart := startTime }
  if missingParams = 0 then
    if startTime ≤ timeLimit then offerSelectable w successor else offerReady successor

def releaseDataSuccessors (a : ActionId) (timeLimit : Int) : M ρ Unit := do
  (← getInfo (.action a)).optimizingSuccessors.forM (releaseSuccessor w timeLimit)
  setInfo (.action a) fun i => { i with optimizingSuccessors := [] }

variable [ResourceDescription ρ]

/-- `resourceBlockedAction` and `dataBlockedAction`. -/
def blockedAction (blockingAction : AllocatableAction) (a : ActionId) : M ρ Unit := do
  addSuccessor blockingAction a
  let requirements ← copy (← requirements a)
  addPredecessor a ⟨0, 0, some blockingAction, requirements⟩

/-- `blockDataSuccessors`, to a depth. -/
def blockDataSuccessors : Nat → ActionId → M ρ Unit
  | 0, _ => pure ()
  | depth + 1, a => do
    (← getInfo (.action a)).optimizingSuccessors.forM fun successor => do
      if (← getInfo (.action successor)).onOptimization then
        clearPredecessors successor
        clearSuccessors (.action successor)
        blockedAction (← getState).dataBlockingAction successor
        blockDataSuccessors depth successor
        setInterval successor maxTime maxTime
        setOnOptimization successor false

def classifyAction (a : ActionId) (hasInternal hasExternal hasResourcePredecessors : Bool) (startTime : Int) :
    M ρ Unit := do
  if !hasInternal then
    if hasExternal then
      if startTime = 0 then offerSelectable w a
      else if startTime = maxTime then blockedAction (← getState).dataBlockingAction a
      else offerReady a
    else if hasResourcePredecessors then offerSelectable w a
    else setState fun s => { s with runningActions := s.runningActions ++ [a] }

/-- What is known of an action that is taken up: its data predecessors on this
worker that are scheduled, and whether it has others. -/
structure Classified where
  action : ActionId
  internal : List ActionId
  hasExternal : Bool
  hasResourcePredecessors : Bool
  startTime : Int

/-- One round of `scanActions` or `classifyPendingSchedulings`. -/
def classify (c : Classified) : M ρ Unit := do
  c.internal.forM fun p =>
    setInfo (.action p) fun i => { i with optimizingSuccessors := i.optimizingSuccessors ++ [c.action] }
  setInfo (.action c.action) fun i =>
    { i with scheduled := true, onOptimization := true, toReschedule := true, expectedStart := c.startTime }
  classifyAction w c.action (!c.internal.isEmpty) c.hasExternal c.hasResourcePredecessors c.startTime

/-! ## Events -/

omit [ResourceDescription ρ] in
def getExpectedEnd (a : ActionId) (expectedStart : Int) : M ρ Int := do
  let averageTime := w.averageExecutionTime ((← get).assignedImplementation a)
  let theoreticalEnd :=
    if w.isToReleaseResources a then
      let endTime := averageTime.elim expectedStart (addTime expectedStart)
      if endTime < 0 then 0 else endTime
    else maxTime
  return if theoreticalEnd < expectedStart then maxTime else theoreticalEnd

/-- The loop of `fillGap` that takes what the action needs, at most `n` times. -/
def takeGaps (gapAction : ActionId) (desc : Ref) : Nat → List Gap → M ρ (List Gap)
  | n + 1, peekGap :: availableGaps => do
    if ← isDynamicUseless desc then return peekGap :: availableGaps
    else
      link gapAction peekGap
      let _ ← reduceCommonDynamics desc peekGap.resources
      if ← isDynamicUseless peekGap.resources then takeGaps gapAction desc n availableGaps
      else takeGaps gapAction desc n (peekGap :: availableGaps)
  | _, availableGaps => return availableGaps

/-- The gaps in the order in which they begin. -/
def addAvailable (availableGaps gaps : List Gap) : List Gap :=
  gaps.foldl (fun availableGaps g => availableGaps.orderedInsert (fun a b => a.initialTime ≤ b.initialTime) g) availableGaps

/-- `fillGap`, to a depth. -/
def fillGap : Nat → Gap → M ρ (List Gap)
  | 0, gap => return [gap]
  | depth + 1, gap => do
    match ← pollActionForGap w gap with
    | none => return [gap]
    | some gapAction =>
      setToReschedule gapAction false
      let gapActionStart := max (← getInfo (.action gapAction)).expectedStart gap.initialTime
      -- before the action
      let availableGaps ←
        if gap.initialTime ≠ gapActionStart then do
          let resources ← copy gap.resources
          fillGap depth { gap with endTime := gapActionStart, resources := resources }
        else pure [gap]
      let expectedEnd ← getExpectedEnd w gapAction gapActionStart
      setInterval gapAction gapActionStart expectedEnd
      clearPredecessors gapAction
      let desc ← copy (← requirements gapAction)
      let availableGaps ← takeGaps gapAction desc depth availableGaps
      -- beside it
      let beside ← availableGaps.foldlM (fun filled g => do
        let gaps ← fillGap depth { g with endTime := gap.endTime }
        return addAvailable filled gaps) []
      clearSuccessors (.action gapAction)
      setOnOptimization gapAction false
      releaseDataSuccessors w gapAction expectedEnd
      -- and after it: the requirements themselves, no copy
      let resources ← requirements gapAction
      let after ← fillGap depth ⟨expectedEnd, gap.endTime, some (.action gapAction), resources⟩
      return addAvailable beside after

/-- `Start.process`; gaps are filled to a depth. -/
def processStart (depth : Nat) (expectedTimeStamp : Int) (a : ActionId) : M ρ (List SchedulingEvent) := do
  let expectedEndTime ← getExpectedEnd w a expectedTimeStamp
  setInterval a expectedTimeStamp expectedEndTime
  clearPredecessors a
  clearSuccessors (.action a)
  let tmpGaps ← reserveResources (← requirements a) expectedTimeStamp
  tmpGaps.forM fun tmpGap => do
    if expectedTimeStamp = tmpGap.endTime then link a tmpGap
    else
      let outGaps ← fillGap w depth tmpGap
      outGaps.forM (link a)
  return [.End expectedEndTime a]

/-- `ResourceBlocked.process`. -/
def processResourceBlocked (depth : Nat) (a : ActionId) : M ρ Unit := do
  setOnOptimization a false
  clearPredecessors a
  clearSuccessors (.action a)
  setInterval a maxTime maxTime
  blockedAction (← getState).resourceBlockingAction a
  blockDataSuccessors depth a

/-- The loop of `End.process`, at most `n` times: the first of the actions that
wait starts as long as it can, or is blocked when `a` keeps its resources. -/
def startTops (depth : Nat) (a : ActionId) : Nat → Option ActionId → M ρ (List SchedulingEvent)
  | n + 1, some currentTop => do
    if ← canActionRun then
      removeFirst w (w.coreId currentTop)
      setToReschedule currentTop false
      let enabledEvents ←
        if w.isToReleaseResources a then processStart w depth (← getActionStartTime) currentTop
        else do
          processResourceBlocked depth currentTop
          pure []
      let currentTop ← peek
      replaceAction currentTop
      let more ← startTops depth a n currentTop
      return enabledEvents ++ more
    else return []
  | _, _ => return []

/-- `End.process`. -/
def processEnd (n : Nat) (expectedTimeStamp : Int) (a : ActionId) : M ρ (List SchedulingEvent) := do
  setOnOptimization a false
  progressOnTime w expectedTimeStamp
  releaseDataSuccessors w a expectedTimeStamp
  let currentTop ← peek
  if (← getState).action ≠ currentTop then replaceAction currentTop
  releaseResources expectedTimeStamp a
  startTops w n a n currentTop

def process (n : Nat) : SchedulingEvent → M ρ (List SchedulingEvent)
  | .Start t a => processStart w n t a
  | .End t a => processEnd w n t a

/-! ## Rescheduling -/

def manageRunningAction (a : ActionId) : M ρ Unit := do
  let s ← get
  let start := (w.startTime a).elim 0 (· - s.state.id)
  let endTime := (w.averageExecutionTime (s.assignedImplementation a)).elim start (addTime start)
  setInterval a start (if endTime < 0 then 0 else endTime)
  clearPredecessors a
  clearSuccessors (.action a)
  setToReschedule a false
  let _ ← reserveResources (← requirements a) 0

/-- Whether the action is launched as it is scheduled. -/
def tryToLaunch (a : ActionId) : M ρ Bool := do
  match w.tryToLaunch a with
  | .launched => return true
  | .rescheduled implementation here =>
    assignImplementation a implementation
    if here then scheduleAction w a
    return false

/-- The loop over the running actions: their ends. -/
def manageRunningActions (queue : List SchedulingEvent) (a : ActionId) : M ρ (List SchedulingEvent) := do
  manageRunningAction w a
  return Optimization.offer queue (.End (← getInfo (.action a)).expectedEnd a)

/-- The loop that starts what can run now, at most `n` times; `gapResource` is
what the first gap had. -/
def launchActions (gapResource : Ref) : Nat → List SchedulingEvent → M ρ (List SchedulingEvent)
  | 0, queue => return queue
  | n + 1, queue => do
    let useless ← isDynamicUseless gapResource
    if (← getState).selectableActions.isEmpty || useless then return queue
    else
      let top ← peek
      replaceAction top
      match top with
      | some top =>
        if ← canActionRun then
          pollSelectable
          clearPredecessors top
          manageRunningAction w top
          let launched ← tryToLaunch w top
          let expectedEnd := (← getInfo (.action top)).expectedEnd
          launchActions gapResource n (if launched then Optimization.offer queue (.End expectedEnd top) else queue)
        else return queue
      | none => return queue

/-- The loop over the events and over the actions that are ready, `n` rounds at
most; whether there are none left. -/
def processAll (depth : Nat) : Nat → List SchedulingEvent → M ρ Bool
  | 0, _ => return false
  | n + 1, e :: queue => do
    let result ← process w depth e
    processAll depth n (result.foldl Optimization.offer queue)
  | n + 1, [] => do
    match (← getState).readyActions with
    | topAction :: readyActions =>
      setState fun s => { s with readyActions := readyActions }
      setToReschedule topAction false
      processAll depth n [.Start (← getInfo (.action topAction)).expectedStart topAction]
    | [] => return true

/-- `rescheduleTasks` for a state that has gaps, after `n` rounds: whether it has
returned. -/
def rescheduleTasks (n : Nat) : M ρ Bool := do
  match (← getState).gaps with
  | [] => return false
  | gap :: _ =>
    let queue ← (← getState).runningActions.foldlM (manageRunningActions w) []
    let queue ← launchActions w gap.resources n queue
    let returned ← processAll w n n queue
    if returned then
      modify fun s => { s with
        resourceBlockingAction := s.state.resourceBlockingAction
        dataBlockingAction := s.state.dataBlockingAction }
    return returned

/-! ## Optimisations -/

omit [ResourceDescription ρ] in
/-- The first part of `localOptimization`: actions that are scheduled wait. -/
def beginOptimization : M ρ Unit := do
  let opAction ← newOptimizationAction
  modify fun s => { s with opAction := some opAction }

/-- Its second part: the actions that wait are taken up, with those that are
scheduled. -/
def optimize (updateId : Int) (actions : List Classified) (n : Nat) : M ρ Unit := do
  newState updateId
  match (← get).opAction with
  | some opAction => clearSuccessors opAction
  | none => pure ()
  actions.forM (classify w)
  let _ ← rescheduleTasks w n

/-- Its last part: the gaps are those of the state, and what waits is scheduled. -/
def endOptimization : M ρ Unit := do
  match (← get).opAction with
  | some opAction =>
    setGaps (← getState).gaps
    (← getInfo opAction).resourceSuccessors.forM fun a => do
      let _ ← removePredecessor a opAction
      scheduleUsingGaps w a
    clearSuccessors opAction
    modify fun s => { s with opAction := none }
  | none => pure ()

/-! ## Runs -/

inductive Label (ρ : Type)
  /-- The action is given an implementation and scheduled. -/
  | scheduleAction (w : Surroundings ρ) (a : ActionId) (implementation : ImplementationId)
  | unscheduleAction (a : ActionId) (assignedHere : Bool)
  | beginOptimization
  | rescheduleTasks (w : Surroundings ρ) (updateId : Int) (actions : List Classified) (n : Nat)
  | endOptimization (w : Surroundings ρ)

def perform : Label ρ → M ρ Unit
  | .scheduleAction w a implementation => do
    assignImplementation a implementation
    scheduleAction w a
  | .unscheduleAction a assignedHere => do
    let _ ← unscheduleAction a assignedHere
  | .beginOptimization => beginOptimization
  | .rescheduleTasks w updateId actions n => optimize w updateId actions n
  | .endOptimization w => endOptimization w

def step (s : MOResourceScheduler ρ) (l : Label ρ) : Option (MOResourceScheduler ρ) := some ((perform l).run s).2

/-- A worker without actions: its own description, and the copy of it that is its
first gap. -/
def init (implementations : ImplementationId → ρ) (worker : ρ) : MOResourceScheduler ρ where
  memory := ⟨fun
    | .given i => implementations i
    | .made 0 => worker
    | .made _ => ResourceDescription.copy worker, 2⟩
  assignedImplementation _ := 0
  info
    | .action _ => MOSchedulingInformation.new
    | .optimizationAction _ =>
      { MOSchedulingInformation.new with scheduled := true, onOptimization := true, expectedEnd := maxTime }
  optimizationActions := 2
  gaps := [⟨minTime, maxTime, none, .made 1⟩]
  opAction := none
  resourceBlockingAction := .optimizationAction 0
  dataBlockingAction := .optimizationAction 1
  state := ⟨0, [], none, none, 0, [], [], [], .optimizationAction 0, .optimizationAction 1⟩

end Compss.MultiObjective.ByReference
