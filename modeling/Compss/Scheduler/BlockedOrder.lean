/-
In which order the actions that wait on a worker are resumed.

They wait in a priority queue whose comparator is `Score.compareTo` on their
blocked scores. A better score compares as greater and the queue serves the
least first, so that it is the worst action that is tried first:
`ObjectValue.compareTo`, the order of the ready actions, turns the sign.

An action that waits has a state and an assigned implementation, which
`WaitingAction` carries. What a scheduler overrides `generateBlockedScore` with
depends on the action and on the number of blocked actions, the same for the
two that are compared: it is a parameter here.
-/
import Compss.Lib.PriorityQueue
import Compss.Scheduler.Queue

namespace Compss.Scheduler

open Lib

variable {δ τ : Type}

/-! ## The order of scores -/

namespace Score

variable {a b c : Score}

theorem isBetter_iff : a.isBetter b = true ↔
    b.actionScore < a.actionScore ∨ b.actionScore = a.actionScore ∧ (b.resourceScore < a.resourceScore ∨
      b.resourceScore = a.resourceScore ∧ (b.waitingScore < a.waitingScore ∨
        b.waitingScore = a.waitingScore ∧ b.implementationScore < a.implementationScore)) := by
  rw [isBetter]
  split_ifs <;> simp only [decide_eq_true_eq] <;> omega

theorem eq_iff : a = b ↔ a.actionScore = b.actionScore ∧ a.resourceScore = b.resourceScore ∧
    a.waitingScore = b.waitingScore ∧ a.implementationScore = b.implementationScore := by
  cases a
  cases b
  simp

theorem isBetter_irrefl (a : Score) : ¬ a.isBetter a = true := by
  rw [isBetter_iff]
  omega

theorem compareTo_isLE : (a.compareTo b).isLE ↔ ¬ a.isBetter b = true := by
  rw [compareTo]
  split
  · next h =>
    subst h
    simp [isBetter_irrefl]
  · split <;> simp [*]

/-- Neither of two scores is better exactly when they are equal. -/
theorem eq_of_not_isBetter (hab : ¬ a.isBetter b = true) (hba : ¬ b.isBetter a = true) : a = b := by
  rw [isBetter_iff] at hab hba
  rw [eq_iff]
  omega

/-- The number of blocked actions, which some schedulers put in both of the
scores they compare, does not change their order. -/
theorem compareTo_waitingScore (p q r r' w w' i i' : Int) :
    (⟨p, r, w, i⟩ : Score).compareTo ⟨q, r', w, i'⟩ = (⟨p, r, w', i⟩ : Score).compareTo ⟨q, r', w', i'⟩ := by
  simp [compareTo, isBetter]

instance : Std.TransCmp compareTo where
  eq_swap := fun {a b} => by
    have hasymm : a.isBetter b = true → ¬ b.isBetter a = true := fun h => by
      rw [isBetter_iff] at h ⊢
      omega
    by_cases h : a = b
    · subst h
      simp [compareTo]
    · have htotal : ¬ a.isBetter b = true → b.isBetter a = true := fun hab =>
        Classical.not_not.mp fun hba => h (eq_of_not_isBetter hab hba)
      rw [compareTo, compareTo, if_neg h, if_neg (Ne.symm h)]
      by_cases hab : a.isBetter b = true
      · rw [if_pos hab, if_neg (hasymm hab)]
        rfl
      · rw [if_neg hab, if_pos (htotal hab)]
        rfl
  isLE_trans := fun {a b c} hab hbc => by
    rw [compareTo_isLE, isBetter_iff] at hab hbc ⊢
    omega

end Score

/-! ## The actions waiting on a worker -/

/-- An action in the queue of a worker. -/
structure WaitingAction (τ : Type) where
  id : ActionId
  action : Action τ
  assignedImplementation : Implementation τ
  isWaiting : action.state = .waiting
  isAssigned : action.selectedImpl = some assignedImplementation

/-- The comparator of `blocked`. -/
def compareBlocked {β : Type} (generateBlockedScore : β → Score) (a1 a2 : β) : Ordering :=
  (generateBlockedScore a1).compareTo (generateBlockedScore a2)

instance {β : Type} (generateBlockedScore : β → Score) : Std.TransCmp (compareBlocked generateBlockedScore) where
  eq_swap := fun {a b} => by
    change (generateBlockedScore a).compareTo _ = ((generateBlockedScore b).compareTo _).swap
    exact Std.OrientedCmp.eq_swap
  isLE_trans := fun {a b c} hab hbc => by
    change ((generateBlockedScore a).compareTo (generateBlockedScore b)).isLE at hab
    change ((generateBlockedScore b).compareTo (generateBlockedScore c)).isLE at hbc
    change ((generateBlockedScore a).compareTo (generateBlockedScore c)).isLE
    exact Std.TransCmp.isLE_trans hab hbc

/-- What `tryToLaunchBlockedActions` works on: the worker, the actions it hosts
and the queue, with the actions `doAction` has been called on. -/
structure WorkerQueue (δ τ : Type) (generateBlockedScore : WaitingAction τ → Score) where
  myWorker : δ
  running : List (ActionId × Action τ)
  blocked : PriorityQueue (compareBlocked generateBlockedScore)
  launched : List (WaitingAction τ)

namespace WorkerQueue

variable (ops : WorkerOps δ τ) {generateBlockedScore : WaitingAction τ → Score}

def waitOnResource (s : WorkerQueue δ τ generateBlockedScore) (a : WaitingAction τ) :
    WorkerQueue δ τ generateBlockedScore :=
  { s with blocked := s.blocked.add a }

def removeFirstBlocked (s : WorkerQueue δ τ generateBlockedScore) : WorkerQueue δ τ generateBlockedScore :=
  { s with blocked := s.blocked.poll }

/-- `resumeExecution` of an action that waits: it runs. -/
def resumeExecution (s : WorkerQueue δ τ generateBlockedScore) (a : WaitingAction τ) :
    WorkerQueue δ τ generateBlockedScore :=
  let reserved :=
    if a.action.isToReserveResources then ops.runTask s.myWorker a.assignedImplementation.requirements
    else (s.myWorker, a.action.resourceConsumption)
  { s with
    myWorker := reserved.1
    running := s.running ++ [(a.id, { a.action with state := .running, resourceConsumption := reserved.2 })]
    launched := s.launched ++ [a] }

/-- The action could go on now. -/
def fits (s : WorkerQueue δ τ generateBlockedScore) (a : WaitingAction τ) : Bool :=
  !a.action.isToReserveResources || ops.canRunNow s.myWorker a.assignedImplementation.requirements

def tryToLaunchBlockedActions (s : WorkerQueue δ τ generateBlockedScore) : WorkerQueue δ τ generateBlockedScore :=
  match h : s.blocked.peek with
  | none => s
  | some firstBlocked =>
    if s.fits ops firstBlocked then
      have : s.blocked.poll.size < s.blocked.size := PriorityQueue.size_poll h
      tryToLaunchBlockedActions (s.resumeExecution ops firstBlocked).removeFirstBlocked
    else s
termination_by s.blocked.size

/-- `t` is a state in which the loop begins a turn. -/
inductive Turn : WorkerQueue δ τ generateBlockedScore → WorkerQueue δ τ generateBlockedScore → Prop
  | first (s) : Turn s s
  | next {s t a} (hpeek : s.blocked.peek = some a) (hfits : s.fits ops a = true)
      (hrest : Turn (s.resumeExecution ops a).removeFirstBlocked t) : Turn s t

/-- No waiting action is better. -/
def Best (s : WorkerQueue δ τ generateBlockedScore) (a : WaitingAction τ) : Prop :=
  ∀ b ∈ s.blocked.toList, ¬ (generateBlockedScore b).isBetter (generateBlockedScore a) = true

/-- The waiting actions are resumed by priority: every turn tries the best of
them, none is resumed before a better one, and the loop ends with nothing
waiting or with a best action that does not fit. -/
structure ResumesByPriority (s : WorkerQueue δ τ generateBlockedScore) : Prop where
  tried : ∀ t, Turn ops s t → ∀ a, t.blocked.peek = some a → t.Best a
  resumed : ∀ l, (s.tryToLaunchBlockedActions ops).launched = s.launched ++ l →
    l.Pairwise fun a b => ¬ (generateBlockedScore b).isBetter (generateBlockedScore a) = true
  stops : (s.tryToLaunchBlockedActions ops).blocked.toList = [] ∨
    ∃ a ∈ (s.tryToLaunchBlockedActions ops).blocked.toList,
      (s.tryToLaunchBlockedActions ops).Best a ∧ (s.tryToLaunchBlockedActions ops).fits ops a = false

section
variable {ops} {s t : WorkerQueue δ τ generateBlockedScore} {a b : WaitingAction τ}

theorem tryToLaunchBlockedActions_of_none (h : s.blocked.peek = none) : s.tryToLaunchBlockedActions ops = s := by
  rw [tryToLaunchBlockedActions]
  split
  · rfl
  · next h' => rw [h] at h'; cases h'

theorem tryToLaunchBlockedActions_of_some (h : s.blocked.peek = some a) : s.tryToLaunchBlockedActions ops =
    if s.fits ops a then (s.resumeExecution ops a).removeFirstBlocked.tryToLaunchBlockedActions ops else s := by
  rw [tryToLaunchBlockedActions]
  split
  · next h' => rw [h] at h'; cases h'
  · next h' =>
    rw [h] at h'
    cases h'
    rfl

/-- Nothing that waits is worse than the head of the queue. -/
theorem not_isBetter_of_peek (h : s.blocked.peek = some a) (hb : b ∈ s.blocked.toList) :
    ¬ (generateBlockedScore a).isBetter (generateBlockedScore b) = true := by
  have hle : (compareBlocked generateBlockedScore a b).isLE := PriorityQueue.peek_le h hb
  rwa [compareBlocked, Score.compareTo_isLE] at hle

/-- What the loop does: the resumed actions leave the queue in the order of
their scores, the worst first, and it ends with nothing waiting or with a head
that does not fit. -/
theorem tryToLaunchBlockedActions_spec (ops : WorkerOps δ τ) (s : WorkerQueue δ τ generateBlockedScore) :
    ∃ resumed, (s.tryToLaunchBlockedActions ops).launched = s.launched ++ resumed ∧
      s.blocked.toList.Perm (resumed ++ (s.tryToLaunchBlockedActions ops).blocked.toList) ∧
      resumed.Pairwise (fun a b => ¬ (generateBlockedScore a).isBetter (generateBlockedScore b) = true) ∧
      ((s.tryToLaunchBlockedActions ops).blocked.peek = none ∨
        ∃ a, (s.tryToLaunchBlockedActions ops).blocked.peek = some a ∧
          (s.tryToLaunchBlockedActions ops).fits ops a = false) := by
  induction hn : s.blocked.size using Nat.strongRecOn generalizing s with
  | ind n ih =>
    cases h : s.blocked.peek with
    | none =>
      rw [tryToLaunchBlockedActions_of_none h]
      exact ⟨[], by simp, List.Perm.refl _, List.Pairwise.nil, .inl h⟩
    | some a =>
      rw [tryToLaunchBlockedActions_of_some h]
      split
      · next hfits =>
        obtain ⟨resumed, hlaunched, hperm, hsorted, hend⟩ :=
          ih _ (hn ▸ PriorityQueue.size_poll h) (s.resumeExecution ops a).removeFirstBlocked rfl
        have hpoll := PriorityQueue.toList_poll h
        refine ⟨a :: resumed, ?_, hpoll.trans (hperm.cons a), ?_, hend⟩
        · rw [hlaunched]
          simp [removeFirstBlocked, resumeExecution]
        · refine List.Pairwise.cons (fun b hb => not_isBetter_of_peek h ?_) hsorted
          exact hpoll.mem_iff.mpr (List.mem_cons_of_mem a (hperm.mem_iff.mpr (List.mem_append_left _ hb)))
      · next hfits => exact ⟨[], by simp, List.Perm.refl _, List.Pairwise.nil, .inr ⟨a, h, by simpa using hfits⟩⟩

/-- What waits at a turn waited from the beginning. -/
theorem Turn.mem (h : Turn ops s t) (ha : a ∈ t.blocked.toList) : a ∈ s.blocked.toList := by
  induction h with
  | first => exact ha
  | next hpeek hfits hrest ih =>
    exact (PriorityQueue.toList_poll hpeek).mem_iff.mpr (List.mem_cons_of_mem _ (ih ha))

/-- Waiting actions are resumed by priority exactly when they all have the same
score: the action tried first is one that is better than no other. -/
theorem resumesByPriority_iff : ResumesByPriority ops s ↔
    ∀ a ∈ s.blocked.toList, ∀ b ∈ s.blocked.toList, generateBlockedScore a = generateBlockedScore b := by
  constructor
  · intro h a ha b hb
    cases hpeek : s.blocked.peek with
    | none => rw [PriorityQueue.peek_eq_none.mp hpeek] at ha; cases ha
    | some first =>
      have hfirst : ∀ c ∈ s.blocked.toList, generateBlockedScore c = generateBlockedScore first := fun c hc =>
        Score.eq_of_not_isBetter (h.tried s (.first s) first hpeek c hc) (not_isBetter_of_peek hpeek hc)
      rw [hfirst a ha, hfirst b hb]
  · intro h
    have hlevel : ∀ a ∈ s.blocked.toList, ∀ b ∈ s.blocked.toList,
        ¬ (generateBlockedScore a).isBetter (generateBlockedScore b) = true := fun a ha b hb => by
      rw [h a ha b hb]
      exact Score.isBetter_irrefl _
    obtain ⟨resumed, hlaunched, hperm, -, hend⟩ := tryToLaunchBlockedActions_spec ops s
    have hresumed : ∀ a ∈ resumed, a ∈ s.blocked.toList := fun a ha => hperm.mem_iff.mpr (List.mem_append_left _ ha)
    have hleft : ∀ a ∈ (s.tryToLaunchBlockedActions ops).blocked.toList, a ∈ s.blocked.toList := fun a ha =>
      hperm.mem_iff.mpr (List.mem_append_right _ ha)
    refine ⟨fun t ht a ha b hb => hlevel b (ht.mem hb) a (ht.mem (PriorityQueue.mem_of_peek ha)), fun l hl => ?_, ?_⟩
    · obtain rfl : l = resumed := List.append_cancel_left (hl.symm.trans hlaunched)
      exact List.pairwise_of_forall_mem_list fun a ha b hb => hlevel b (hresumed b hb) a (hresumed a ha)
    · rcases hend with hnone | ⟨a, hpeek, hfits⟩
      · exact .inl (PriorityQueue.peek_eq_none.mp hnone)
      · have ha := PriorityQueue.mem_of_peek hpeek
        exact .inr ⟨a, ha, fun b hb => hlevel b (hleft b hb) a (hleft a ha), hfits⟩

end

/-! ## Two waiting executions -/

/-- A worker with a number of free slots, of which every requirement takes one. -/
def slots : WorkerOps Nat Unit where
  canRunCore _ _ := true
  canRun _ _ := true
  canRunNow free _ := 0 < free
  runTask free _ := (free - 1, some ())
  endTask free _ := free + 1
  executableCores _ := []
  executableImpls _ _ := []
  shouldBeStopped _ := false
  startRequirements _ := ()
  stopRequirements := ()

def waitingExecution (id : ActionId) (hasPriority : Bool) : WaitingAction Unit where
  id := id
  action := { Action.new (.execution 0 0 hasPriority) [] none with
    state := .waiting, selectedImpl := some ⟨some 0, 0, ()⟩ }
  assignedImplementation := ⟨some 0, 0, ()⟩
  isWaiting := rfl
  isAssigned := rfl

/-- Execution 0 has priority and execution 1 has not; there is room for one. -/
def twoWaiting : WorkerQueue Nat Unit fun a => a.action.actionScore :=
  let idle : WorkerQueue Nat Unit fun a => a.action.actionScore := ⟨1, [], PriorityQueue.empty, []⟩
  (idle.waitOnResource (waitingExecution 0 true)).waitOnResource (waitingExecution 1 false)

/-- The execution without priority is resumed, and the one with priority waits. -/
theorem twoWaiting_worstFirst :
    (twoWaiting.tryToLaunchBlockedActions slots).launched.map (·.id) = [1] ∧
      (twoWaiting.tryToLaunchBlockedActions slots).blocked.toList.map (·.id) = [0] ∧
      ¬ ResumesByPriority slots twoWaiting := by
  refine ⟨by decide +kernel, by decide +kernel, fun h => ?_⟩
  have hbest : (twoWaiting.blocked.toList.any fun b => b.action.actionScore = ⟨1, 0, 0, 0⟩) = true := by
    decide +kernel
  have hhead : twoWaiting.blocked.peek.map (·.action.actionScore) = some ⟨0, 0, 0, 0⟩ := by decide +kernel
  obtain ⟨b, hb, hscore⟩ := List.any_eq_true.mp hbest
  obtain ⟨a, ha, hworst⟩ := Option.map_eq_some_iff.mp hhead
  refine h.tried twoWaiting (.first _) a ha b hb ?_
  dsimp only
  rw [of_decide_eq_true hscore, hworst]
  decide

end WorkerQueue

/-! ## The queue as a list

`TaskScheduler` keeps the queue as a list in order of arrival. The heap holds
the same actions after each operation, and serves one of the same score. -/

section
variable {β : Type} {cmp : β → β → Ordering} [Std.TransCmp cmp] {q : PriorityQueue cmp} {l : List β} {a : β}

theorem add_perm_append (hl : q.toList.Perm l) (a : β) : (q.add a).toList.Perm (l ++ [a]) :=
  (PriorityQueue.toList_add.trans (hl.cons a)).trans (List.perm_append_singleton a l).symm

theorem poll_perm_erase [DecidableEq β] (hl : q.toList.Perm l) (h : q.peek = some a) :
    q.poll.toList.Perm (l.erase a) := by
  have hcons := (PriorityQueue.toList_poll h).symm.trans hl
  have herase := hcons.erase a
  rwa [List.erase_cons_head] at herase

end

/-- The head of the heap has the score of the one `TaskScheduler.peek` finds in
any list of the same actions. -/
theorem TaskScheduler.peek_score {s : TaskScheduler δ τ}
    {q : PriorityQueue (compareBlocked fun a => (s.action a).actionScore)} {l : List ActionId} {a : ActionId}
    (hl : q.toList.Perm l) (h : q.peek = some a) :
    ∃ b, peek s l = some b ∧ (s.action b).actionScore = (s.action a).actionScore := by
  have ha : a ∈ l := hl.mem_iff.mp (PriorityQueue.mem_of_peek h)
  cases hb : peek s l with
  | none => rw [peek_eq_none.mp hb] at ha; cases ha
  | some b =>
    have hle : (compareBlocked (fun a => (s.action a).actionScore) a b).isLE :=
      PriorityQueue.peek_le h (hl.mem_iff.mpr (mem_of_peek hb))
    rw [compareBlocked, Score.compareTo_isLE] at hle
    refine ⟨b, rfl, (Score.eq_of_not_isBetter hle ?_).symm⟩
    have hpriority := peek_le hb a ha
    rw [Score.isBetter_iff]
    simp only [Action.actionScore]
    omega

end Compss.Scheduler
