/-
`MOResourceScheduler`: the gaps of a worker, from which actions that are
scheduled take their resources and to which they give them back.

A gap is free from its initial time on, when the action it comes from ends; the
gaps without origin are free from the beginning. An action keeps the parts of
gaps it was made of as its predecessors, and every action it takes from knows it
as a successor. There is no local optimisation in progress. The end of a gap
and its capacity are not read here, nor is what the actions cost.
-/
import Compss.Lib.Run
import Compss.MultiObjective.Descriptions
import Mathlib.Algebra.Order.Ring.Int
import Mathlib.Logic.Function.Basic

namespace Compss.MultiObjective

open ResourceDescription

abbrev ActionId := Nat

/-- Where the resources of a gap come from: an action, or one of the two
`OptimizationAction`s that block the actions depending on them. -/
inductive Origin
  | action (a : ActionId)
  | resourceBlockingAction
  | dataBlockingAction
  deriving DecidableEq, Repr

def Origin.isBlocking : Origin → Bool
  | .action _ => false
  | _ => true

/-- `Long.MAX_VALUE`. -/
def maxTime : Int := 2 ^ 63 - 1

/-- `Long.MIN_VALUE`. -/
def minTime : Int := -2 ^ 63

/-- Addition of `long`s. -/
def addTime (x y : Int) : Int := (x + y + 2 ^ 63) % 2 ^ 64 - 2 ^ 63

structure Gap (ρ : Type) where
  initialTime : Int
  origin : Option Origin
  resources : ρ
  deriving DecidableEq, Repr

structure MOSchedulingInformation (ρ : Type) where
  scheduled : Bool
  expectedStart : Int
  expectedEnd : Int
  resourcePredecessors : List (Gap ρ)
  resourceSuccessors : List ActionId
  deriving DecidableEq, Repr

structure MOResourceScheduler (ρ : Type) where
  gaps : List (Gap ρ)
  info : Origin → MOSchedulingInformation ρ

/-- The implementations that are assigned to the actions: what they ask for,
and whether it is given back at the end. -/
structure Actions (ρ : Type) where
  requirements : ActionId → ρ
  isToReleaseResources : ActionId → Bool

/-- A data predecessor of an action: one of this worker, or one of another
worker with what its scheduling information says. -/
inductive DataPredecessor
  | here (a : ActionId)
  | elsewhere (scheduled : Bool) (expectedEnd : Int)
  deriving DecidableEq, Repr

variable {ρ : Type} [ResourceDescription ρ]

/-! ## Gaps -/

/-- The first gap of the same origin is increased, if there is one. -/
def mergeGap (g : Gap ρ) : List (Gap ρ) → Option (List (Gap ρ))
  | [] => none
  | registered :: gaps =>
    if registered.origin = g.origin then
      some ({ registered with resources := increaseDynamic registered.resources g.resources } :: gaps)
    else (mergeGap g gaps).map (registered :: ·)

omit [ResourceDescription ρ] in
/-- Behind the gaps that begin before it or with it. -/
def insertGap (g : Gap ρ) : List (Gap ρ) → List (Gap ρ)
  | [] => [g]
  | gap :: gaps => if gap.initialTime ≤ g.initialTime then gap :: insertGap g gaps else g :: gap :: gaps

def addGap (gaps : List (Gap ρ)) (g : Gap ρ) : List (Gap ρ) := (mergeGap g gaps).getD (insertGap g gaps)

/-- A walk over the gaps: the gaps afterwards, what is still needed, and the
predecessors that were made. -/
structure Walk (ρ : Type) where
  gaps : List (Gap ρ)
  constraints : ρ
  predecessors : List (Gap ρ)
  fullyCoveredReqs : Bool

/-- The loops of `scheduleUsingGaps` over the gaps that begin in time, with
`useGap`. -/
def useGaps (inTime : Int → Bool) : List (Gap ρ) → ρ → Walk ρ
  | [], constraints => ⟨[], constraints, [], false⟩
  | gap :: gaps, constraints =>
    if inTime gap.initialTime then
      let (gapResource, constraints, usedResources) := reduceCommonDynamics gap.resources constraints
      let predecessors := if isDynamicConsuming usedResources then [{ gap with resources := usedResources }] else []
      let kept := if isDynamicUseless gapResource then [] else [{ gap with resources := gapResource }]
      if isDynamicUseless constraints then ⟨kept ++ gaps, constraints, predecessors, true⟩
      else
        let rest := useGaps inTime gaps constraints
        { rest with gaps := kept ++ rest.gaps, predecessors := predecessors ++ rest.predecessors }
    else
      let rest := useGaps inTime gaps constraints
      { rest with gaps := gap :: rest.gaps }

/-- The gaps that begin before the data are there, from the last one on; then
the later ones. -/
def walkGaps (gaps : List (Gap ρ)) (expectedStart : Int) (constraints : ρ) : Walk ρ :=
  let early := useGaps (fun t => t ≤ expectedStart) gaps.reverse constraints
  if early.fullyCoveredReqs then { early with gaps := early.gaps.reverse }
  else
    let late := useGaps (fun t => expectedStart < t && t < maxTime) early.gaps.reverse early.constraints
    { late with predecessors := early.predecessors ++ late.predecessors }

namespace MOResourceScheduler

/-! ## Scheduling information -/

omit [ResourceDescription ρ]

def predecessors (s : MOResourceScheduler ρ) (a : ActionId) : List (Gap ρ) := (s.info (.action a)).resourcePredecessors

def successors (s : MOResourceScheduler ρ) (o : Origin) : List ActionId := (s.info o).resourceSuccessors

def isScheduled (s : MOResourceScheduler ρ) (a : ActionId) : Bool := (s.info (.action a)).scheduled

def setInfo (s : MOResourceScheduler ρ) (o : Origin) (f : MOSchedulingInformation ρ → MOSchedulingInformation ρ) :
    MOResourceScheduler ρ :=
  { s with info := Function.update s.info o (f (s.info o)) }

def addPredecessor (s : MOResourceScheduler ρ) (a : ActionId) (g : Gap ρ) : MOResourceScheduler ρ :=
  s.setInfo (.action a) fun i => { i with resourcePredecessors := i.resourcePredecessors ++ [g] }

def setPredecessors (s : MOResourceScheduler ρ) (a : ActionId) (gs : List (Gap ρ)) : MOResourceScheduler ρ :=
  s.setInfo (.action a) fun i => { i with resourcePredecessors := gs }

def addSuccessor (s : MOResourceScheduler ρ) (o : Origin) (a : ActionId) : MOResourceScheduler ρ :=
  s.setInfo o fun i => { i with resourceSuccessors := i.resourceSuccessors ++ [a] }

def removeSuccessor (s : MOResourceScheduler ρ) (o : Origin) (a : ActionId) : MOResourceScheduler ρ :=
  s.setInfo o fun i => { i with resourceSuccessors := i.resourceSuccessors.erase a }

/-- `scheduled`, with the interval. -/
def scheduled (s : MOResourceScheduler ρ) (a : ActionId) (expectedStart expectedEnd : Int) : MOResourceScheduler ρ :=
  s.setInfo (.action a) fun i => { i with scheduled := true, expectedStart := expectedStart, expectedEnd := expectedEnd }

def unscheduled (s : MOResourceScheduler ρ) (a : ActionId) : MOResourceScheduler ρ :=
  s.setInfo (.action a) fun i => { i with scheduled := false, resourcePredecessors := [], resourceSuccessors := [] }

def isExecutable (s : MOResourceScheduler ρ) (a : ActionId) : Bool :=
  (s.predecessors a).all fun g => g.origin.isNone

/-- The action is blocked: it waits for one of the blocking actions. -/
def isBlocked (s : MOResourceScheduler ρ) (a : ActionId) : Bool :=
  (s.predecessors a).any fun g => g.origin.any Origin.isBlocking

/-- A blocking action becomes the predecessor. -/
def block (s : MOResourceScheduler ρ) (a : ActionId) (o : Origin) (requirements : ρ) : MOResourceScheduler ρ :=
  ((s.addSuccessor o a).addPredecessor a ⟨0, some o, requirements⟩).scheduled a maxTime maxTime

/-! ## Scheduling -/

/-- When the data predecessors end. -/
def dataStart (s : MOResourceScheduler ρ) (dataPredecessors : List DataPredecessor) : Int :=
  dataPredecessors.foldl (fun expectedStart p =>
    let (scheduled, expectedEnd) := match p with
      | .here a => (s.isScheduled a, (s.info (.action a)).expectedEnd)
      | .elsewhere scheduled expectedEnd => (scheduled, expectedEnd)
    if scheduled then max expectedStart expectedEnd else expectedStart) 0

/-- One round of the loop that adds the dependencies; the start is put off to
the end of the predecessor. -/
def addDependency (a : ActionId) (x : MOResourceScheduler ρ × Int) (g : Gap ρ) : MOResourceScheduler ρ × Int :=
  let (s, expectedStart) := x
  match g.origin with
  | some o =>
    if (s.info o).scheduled then
      ((s.addSuccessor o a).addPredecessor a g, max expectedStart (s.info o).expectedEnd)
    else (s.addPredecessor a g, expectedStart)
  | none => (s.addPredecessor a g, expectedStart)

/-- The origins of the gaps lose the action as a successor. -/
def leave (s : MOResourceScheduler ρ) (a : ActionId) (gs : List (Gap ρ)) : MOResourceScheduler ρ :=
  gs.foldl (fun s g => match g.origin with
    | some o => s.removeSuccessor o a
    | none => s) s

/-- The origins of the gaps gain the action as a successor. -/
def join (s : MOResourceScheduler ρ) (a : ActionId) (gs : List (Gap ρ)) : MOResourceScheduler ρ :=
  gs.foldl (fun s g => match g.origin with
    | some o => s.addSuccessor o a
    | none => s) s

variable [ResourceDescription ρ]

/-- `scheduleUsingGaps`. Without a profile the action takes no time. -/
def scheduleAction (actions : Actions ρ) (s : MOResourceScheduler ρ) (a : ActionId) (averageTime : Option Int)
    (dataPredecessors : List DataPredecessor) : MOResourceScheduler ρ :=
  let requirements := actions.requirements a
  let expectedStart := s.dataStart dataPredecessors
  if expectedStart = maxTime then s.block a .dataBlockingAction (copy requirements)
  else
    let walk := walkGaps s.gaps expectedStart (copy requirements)
    if walk.fullyCoveredReqs then
      let (s, expectedStart) := walk.predecessors.foldl (addDependency a) ({ s with gaps := walk.gaps }, expectedStart)
      let expectedEnd := averageTime.elim expectedStart (addTime expectedStart)
      let s := s.scheduled a expectedStart expectedEnd
      let initialTime := if actions.isToReleaseResources a then expectedEnd else maxTime
      { s with gaps := addGap s.gaps ⟨initialTime, some (.action a), copy requirements⟩ }
    else
      -- What had been taken is given back.
      { s with gaps := walk.predecessors.foldl addGap walk.gaps }.block a .resourceBlockingAction requirements

/-! ## Unscheduling -/

/-- The resources that depend on other actions, and those that do not. -/
def heldResources (requirements : ρ) (predecessors : List (Gap ρ)) : List (Gap ρ) :=
  let held := predecessors.filter fun g => g.origin.any fun o => !o.isBlocking
  held.map (fun g => { g with resources := copy g.resources }) ++
    [⟨minTime, none, held.foldl (fun unassigned g => reduceDynamic unassigned g.resources) (copy requirements)⟩]

/-- The walk over the released resources that covers what a successor had: what
is left of them, what is not covered, and the parts that were taken. -/
def cover : List (Gap ρ) → ρ → List (Gap ρ) × ρ × List (Gap ρ)
  | [], resToCover => ([], resToCover, [])
  | available :: resources, resToCover =>
    let (availableDesc, resToCover, usedResources) := reduceCommonDynamics available.resources resToCover
    if isDynamicUseless usedResources then
      let (resources, resToCover, used) := cover resources resToCover
      ({ available with resources := availableDesc } :: resources, resToCover, used)
    else
      let kept := if isDynamicUseless availableDesc then [] else [{ available with resources := availableDesc }]
      if isDynamicUseless resToCover then (kept ++ resources, resToCover, [{ available with resources := usedResources }])
      else
        let (resources, resToCover, used) := cover resources resToCover
        (kept ++ resources, resToCover, { available with resources := usedResources } :: used)

/-- One round of the loop over the successors. `removePredecessor` removes the
gaps that come from the action but returns the last gap of all; what is taken
without origin makes no predecessor. -/
def coverSuccessor (a : ActionId) (x : MOResourceScheduler ρ × List (Gap ρ) × List ActionId) (successor : ActionId) :
    MOResourceScheduler ρ × List (Gap ρ) × List ActionId :=
  let (s, resources, freeActions) := x
  let predecessors := s.predecessors successor
  let kept := predecessors.filter fun g => g.origin ≠ some (.action a)
  let (s, resources) := match predecessors.getLast? with
    | none => (s, resources)
    | some toCover =>
      let (resources, resToCover, used) := cover resources toCover.resources
      -- A gap that is not removed is covered itself.
      let kept := if toCover.origin = some (.action a) then kept
        else kept.dropLast ++ [{ toCover with resources := resToCover }]
      let taken := used.filter fun g => g.origin.isSome
      ((s.join successor taken).setPredecessors successor (kept ++ taken), resources)
  (s, resources, if s.isExecutable successor then freeActions ++ [successor] else freeActions)

/-- `unscheduleAction`: the state, and the actions that are free now; null for
`ActionNotFoundException`. -/
def unscheduleAction (actions : Actions ρ) (s : MOResourceScheduler ρ) (a : ActionId) :
    MOResourceScheduler ρ × Option (List ActionId) :=
  if !s.isScheduled a then (s.unscheduled a, none)
  else
    let predecessors := s.predecessors a
    let resources := heldResources (actions.requirements a) predecessors
    let s := (s.leave a predecessors).setPredecessors a []
    let (s, resources, freeActions) :=
      (s.successors (.action a)).foldl (coverSuccessor a) (s, resources, [])
    let s := s.unscheduled a
    let gaps := s.gaps.filter fun g => g.origin ≠ some (.action a)
    ({ s with gaps := resources.foldl addGap gaps }, some freeActions)

/-! ## Runs -/

/-- A worker without actions. -/
def init (description : ρ) : MOResourceScheduler ρ where
  gaps := addGap [] ⟨minTime, none, copy description⟩
  info
    | .action _ => ⟨false, 0, 0, [], []⟩
    | _ => ⟨true, 0, maxTime, [], []⟩

inductive Label
  | scheduleAction (a : ActionId) (averageTime : Option Int) (dataPredecessors : List DataPredecessor)
  | unscheduleAction (a : ActionId)
  deriving DecidableEq, Repr

/-- An action is not scheduled twice. -/
def step (actions : Actions ρ) (s : MOResourceScheduler ρ) : Label → Option (MOResourceScheduler ρ)
  | .scheduleAction a averageTime dataPredecessors =>
    if s.isScheduled a then none else some (s.scheduleAction actions a averageTime dataPredecessors)
  | .unscheduleAction a => some (s.unscheduleAction actions a).1

/-! ## What the operations change -/

section
variable {s : MOResourceScheduler ρ} {a : ActionId} {o : Origin} {g : Gap ρ} {gs : List (Gap ρ)} {start end_ : Int}

omit [ResourceDescription ρ]

@[simp] theorem predecessors_setPredecessors :
    (s.setPredecessors a gs).predecessors = Function.update s.predecessors a gs := by
  funext b
  by_cases h : b = a <;> simp [predecessors, setPredecessors, setInfo, Function.update_apply, h]

@[simp] theorem predecessors_addPredecessor :
    (s.addPredecessor a g).predecessors = Function.update s.predecessors a (s.predecessors a ++ [g]) := by
  funext b
  by_cases h : b = a <;> simp [predecessors, addPredecessor, setInfo, Function.update_apply, h]

@[simp] theorem predecessors_addSuccessor : (s.addSuccessor o a).predecessors = s.predecessors := by
  funext b
  by_cases h : Origin.action b = o <;> simp [predecessors, addSuccessor, setInfo, Function.update_apply, h]

@[simp] theorem predecessors_removeSuccessor : (s.removeSuccessor o a).predecessors = s.predecessors := by
  funext b
  by_cases h : Origin.action b = o <;> simp [predecessors, removeSuccessor, setInfo, Function.update_apply, h]

@[simp] theorem predecessors_scheduled : (s.scheduled a start end_).predecessors = s.predecessors := by
  funext b
  by_cases h : b = a <;> simp [predecessors, scheduled, setInfo, Function.update_apply, h]

@[simp] theorem predecessors_unscheduled : (s.unscheduled a).predecessors = Function.update s.predecessors a [] := by
  funext b
  by_cases h : b = a <;> simp [predecessors, unscheduled, setInfo, Function.update_apply, h]

@[simp] theorem successors_setPredecessors : (s.setPredecessors a gs).successors = s.successors := by
  funext o
  by_cases h : o = .action a <;> simp [successors, setPredecessors, setInfo, Function.update_apply, h]

@[simp] theorem successors_addPredecessor : (s.addPredecessor a g).successors = s.successors := by
  funext o
  by_cases h : o = .action a <;> simp [successors, addPredecessor, setInfo, Function.update_apply, h]

@[simp] theorem successors_addSuccessor :
    (s.addSuccessor o a).successors = Function.update s.successors o (s.successors o ++ [a]) := by
  funext o'
  by_cases h : o' = o <;> simp [successors, addSuccessor, setInfo, Function.update_apply, h]

@[simp] theorem successors_removeSuccessor :
    (s.removeSuccessor o a).successors = Function.update s.successors o ((s.successors o).erase a) := by
  funext o'
  by_cases h : o' = o <;> simp [successors, removeSuccessor, setInfo, Function.update_apply, h]

@[simp] theorem successors_scheduled : (s.scheduled a start end_).successors = s.successors := by
  funext o
  by_cases h : o = .action a <;> simp [successors, scheduled, setInfo, Function.update_apply, h]

@[simp] theorem successors_unscheduled :
    (s.unscheduled a).successors = Function.update s.successors (.action a) [] := by
  funext o
  by_cases h : o = .action a <;> simp [successors, unscheduled, setInfo, Function.update_apply, h]

@[simp] theorem isScheduled_setPredecessors : (s.setPredecessors a gs).isScheduled = s.isScheduled := by
  funext b
  by_cases h : b = a <;> simp [isScheduled, setPredecessors, setInfo, Function.update_apply, h]

@[simp] theorem isScheduled_addPredecessor : (s.addPredecessor a g).isScheduled = s.isScheduled := by
  funext b
  by_cases h : b = a <;> simp [isScheduled, addPredecessor, setInfo, Function.update_apply, h]

@[simp] theorem isScheduled_addSuccessor : (s.addSuccessor o a).isScheduled = s.isScheduled := by
  funext b
  by_cases h : Origin.action b = o <;> simp [isScheduled, addSuccessor, setInfo, Function.update_apply, h]

@[simp] theorem isScheduled_removeSuccessor : (s.removeSuccessor o a).isScheduled = s.isScheduled := by
  funext b
  by_cases h : Origin.action b = o <;> simp [isScheduled, removeSuccessor, setInfo, Function.update_apply, h]

@[simp] theorem isScheduled_scheduled :
    (s.scheduled a start end_).isScheduled = Function.update s.isScheduled a true := by
  funext b
  by_cases h : b = a <;> simp [isScheduled, scheduled, setInfo, Function.update_apply, h]

@[simp] theorem isScheduled_unscheduled : (s.unscheduled a).isScheduled = Function.update s.isScheduled a false := by
  funext b
  by_cases h : b = a <;> simp [isScheduled, unscheduled, setInfo, Function.update_apply, h]

@[simp] theorem info_scheduled_addSuccessor {o' : Origin} :
    ((s.addSuccessor o a).info o').scheduled = (s.info o').scheduled := by
  by_cases h : o' = o <;> simp [addSuccessor, setInfo, Function.update_apply, h]

@[simp] theorem info_scheduled_addPredecessor {o' : Origin} :
    ((s.addPredecessor a g).info o').scheduled = (s.info o').scheduled := by
  by_cases h : o' = .action a <;> simp [addPredecessor, setInfo, Function.update_apply, h]

@[simp] theorem gaps_setPredecessors : (s.setPredecessors a gs).gaps = s.gaps := rfl
@[simp] theorem gaps_addPredecessor : (s.addPredecessor a g).gaps = s.gaps := rfl
@[simp] theorem gaps_addSuccessor : (s.addSuccessor o a).gaps = s.gaps := rfl
@[simp] theorem gaps_removeSuccessor : (s.removeSuccessor o a).gaps = s.gaps := rfl
@[simp] theorem gaps_scheduled : (s.scheduled a start end_).gaps = s.gaps := rfl
@[simp] theorem gaps_unscheduled : (s.unscheduled a).gaps = s.gaps := rfl

/-- How often `a` is made a successor by the gaps. -/
def links (gs : List (Gap ρ)) (o : Origin) : Nat := gs.countP fun g => g.origin = some o

theorem links_cons : links (g :: gs) o = links gs o + if g.origin = some o then 1 else 0 := by
  simp [links, List.countP_cons]

@[simp] theorem links_append {hs : List (Gap ρ)} : links (gs ++ hs) o = links gs o + links hs o := List.countP_append

theorem join_fields : ∀ (gs : List (Gap ρ)) (s : MOResourceScheduler ρ),
    (s.join a gs).predecessors = s.predecessors ∧ (s.join a gs).isScheduled = s.isScheduled ∧
      (s.join a gs).gaps = s.gaps ∧
      ∀ o b, ((s.join a gs).successors o).count b = (s.successors o).count b + if b = a then links gs o else 0
  | [], s => ⟨rfl, rfl, rfl, fun o b => by simp [join, links]⟩
  | g :: gs, s => by
    rw [join, List.foldl_cons, ← join]
    cases ho : g.origin with
    | none =>
      obtain ⟨hpre, hsched, hgaps, hcount⟩ := join_fields gs s
      refine ⟨hpre, hsched, hgaps, fun o b => ?_⟩
      rw [hcount, links_cons, ho]
      simp
    | some p =>
      obtain ⟨hpre, hsched, hgaps, hcount⟩ := join_fields gs (s.addSuccessor p a)
      refine ⟨by simpa using hpre, by simpa using hsched, by simpa using hgaps, fun o b => ?_⟩
      simp only [hcount, links_cons, ho, successors_addSuccessor, Function.update_apply, Option.some.injEq]
      by_cases hop : o = p
      · subst hop
        by_cases hb : b = a
        · simp [hb]
          omega
        · simp [hb, List.count_singleton, Ne.symm hb]
      · simp [hop, Ne.symm hop]

theorem leave_fields : ∀ (gs : List (Gap ρ)) (s : MOResourceScheduler ρ),
    (s.leave a gs).predecessors = s.predecessors ∧ (s.leave a gs).isScheduled = s.isScheduled ∧
      (s.leave a gs).gaps = s.gaps ∧
      ∀ o b, ((s.leave a gs).successors o).count b = (s.successors o).count b - if b = a then links gs o else 0
  | [], s => ⟨rfl, rfl, rfl, fun o b => by simp [leave, links]⟩
  | g :: gs, s => by
    rw [leave, List.foldl_cons, ← leave]
    cases ho : g.origin with
    | none =>
      obtain ⟨hpre, hsched, hgaps, hcount⟩ := leave_fields gs s
      refine ⟨hpre, hsched, hgaps, fun o b => ?_⟩
      rw [hcount, links_cons, ho]
      simp
    | some p =>
      obtain ⟨hpre, hsched, hgaps, hcount⟩ := leave_fields gs (s.removeSuccessor p a)
      refine ⟨by simpa using hpre, by simpa using hsched, by simpa using hgaps, fun o b => ?_⟩
      simp only [hcount, links_cons, ho, successors_removeSuccessor, Function.update_apply, Option.some.injEq]
      by_cases hop : o = p
      · subst hop
        by_cases hb : b = a
        · simp [hb]
          omega
        · simp [hb, List.count_erase_of_ne hb]
      · simp [hop, Ne.symm hop]

theorem successors_leave : ∀ {gs : List (Gap ρ)} {s : MOResourceScheduler ρ}, (∀ g ∈ gs, g.origin ≠ some o) →
    (s.leave a gs).successors o = s.successors o
  | [], _, _ => rfl
  | g :: gs, s, h => by
    rw [leave, List.foldl_cons, ← leave, successors_leave fun x hx => h x (List.mem_cons_of_mem g hx)]
    cases ho : g.origin with
    | none => rfl
    | some p =>
      have hop : o ≠ p := fun heq => h g (by simp) (heq ▸ ho)
      rw [successors_removeSuccessor, Function.update_of_ne hop]

end

end MOResourceScheduler

end Compss.MultiObjective
