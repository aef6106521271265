/-
The queues of the workers: they hold exactly the actions that wait, and the
head of each cannot run now.

The methods are cut into moves, the points where a queue, a waiting action or
the room on a worker changes. The queues are exact after every move. The head
of a queue is looked at when an action leaves the worker, and at no other
point: an action that goes before the head although there is room for it, a
head that is cancelled and a worker that grows leave a queue that could go on
and does not.
-/
import Mathlib.Logic.Relation
import Compss.Scheduler.History
import Compss.Scheduler.ReadyCounts

namespace Compss.Scheduler

open Lib

variable {δ τ : Type}

namespace TaskScheduler

/-! ## The head of a queue -/

section
variable {s t : TaskScheduler δ τ} {a b c : ActionId} {l : List ActionId}

theorem compareTo_lt : (s.action b).actionScore.compareTo (s.action a).actionScore = .lt ↔
    (s.action b).priority < (s.action a).priority := by
  unfold Score.compareTo Score.isBetter Action.actionScore
  simp only [Score.mk.injEq, and_true]
  split
  · next h => simp [h]
  · next h =>
    simp only [ne_eq, h, not_false_eq_true, if_true, decide_eq_true_eq]
    split
    · simp; omega
    · simp; omega

/-- The rest of the queue goes first when its head has a lower priority. -/
theorem peek_cons (s : TaskScheduler δ τ) (a : ActionId) (l : List ActionId) : peek s (a :: l) =
    match peek s l with
    | none => some a
    | some b => if (s.action b).priority < (s.action a).priority then some b else some a := by
  rw [peek]
  cases peek s l with
  | none => rfl
  | some b => simp only [compareTo_lt]

theorem peek_eq_none : peek s l = none ↔ l = [] := by
  cases l with
  | nil => simp [peek]
  | cons a l =>
    rw [peek_cons]
    cases peek s l with
    | none => simp
    | some b => simp only [reduceCtorEq, iff_false]; split <;> simp

/-- Nothing in the queue has a lower priority than its head. -/
theorem peek_le (h : peek s l = some a) : ∀ b ∈ l, (s.action a).priority ≤ (s.action b).priority := by
  induction l generalizing a with
  | nil => cases h
  | cons c l ih =>
    rw [peek_cons] at h
    intro b hb
    cases hp : peek s l with
    | none =>
      rw [hp] at h
      cases h
      rw [peek_eq_none.mp hp] at hb
      rw [List.mem_singleton.mp hb]
    | some d =>
      rw [hp] at h
      dsimp only at h
      have hd := ih hp
      rcases List.mem_cons.mp hb with rfl | hb
      · split at h
        · next hlt => cases h; omega
        · cases h; omega
      · have := hd b hb
        split at h
        · cases h; exact this
        · next hlt => cases h; omega

/-- An action added to the queue is the head, or the head is who it was. -/
theorem peek_append (h : peek s (l ++ [a]) = some b) : b = a ∨ peek s l = some b := by
  induction l generalizing b with
  | nil => exact .inl (Option.some.inj h).symm
  | cons c l ih =>
    rw [List.cons_append, peek_cons] at h
    cases hp : peek s (l ++ [a]) with
    | none => exact absurd (peek_eq_none.mp hp) (by simp)
    | some d =>
      rw [hp] at h
      dsimp only at h
      rw [peek_cons]
      rcases ih hp with rfl | hl
      · split at h
        · cases h; exact .inl rfl
        · next hlt =>
          cases h
          right
          cases he : peek s l with
          | none => rfl
          | some e =>
            have := peek_le hp e (by simp [mem_of_peek he])
            dsimp only
            rw [if_neg (by omega)]
      · rw [hl]
        exact .inr h

/-- The head stays when another action is taken off the queue. -/
theorem peek_erase (h : peek s l = some b) (hne : a ≠ b) : peek s (l.erase a) = some b := by
  induction l generalizing b with
  | nil => cases h
  | cons c l ih =>
    rw [peek_cons] at h
    by_cases hca : c = a
    · subst hca
      rw [List.erase_cons_head]
      cases hp : peek s l with
      | none => rw [hp] at h; cases h; exact absurd rfl hne
      | some d =>
        rw [hp] at h
        dsimp only at h
        split at h
        · exact h
        · cases h; exact absurd rfl hne
    · rw [List.erase_cons_tail (by simpa using hca), peek_cons]
      cases hp : peek s l with
      | none =>
        rw [hp] at h
        rw [peek_eq_none.mp hp]
        exact h
      | some d =>
        rw [hp] at h
        dsimp only at h
        by_cases had : a = d
        · subst had
          split at h
          · cases h; exact absurd rfl hne
          · next hlt =>
            cases h
            cases he : peek s (l.erase a) with
            | none => rfl
            | some e =>
              have := peek_le hp e (List.mem_of_mem_erase (mem_of_peek he))
              dsimp only
              rw [if_neg (by omega)]
        · rw [ih hp had]
          exact h

theorem peek_congr_of_mem (hk : ∀ b ∈ l, (t.action b).kind = (s.action b).kind) : peek t l = peek s l := by
  induction l with
  | nil => rfl
  | cons a l ih =>
    have hp : ∀ b ∈ a :: l, (t.action b).priority = (s.action b).priority := fun b hb => by
      simp only [Action.priority, hk b hb]
    rw [peek_cons, peek_cons, ih fun b hb => hk b (by simp [hb])]
    cases h : peek s l with
    | none => rfl
    | some b =>
      have hb := mem_of_peek h
      dsimp only
      rw [hp a (by simp), hp b (by simp [hb])]

end

/-! ## Exact queues -/

/-- Every queue holds exactly the actions that wait for its worker, each once. -/
structure QueuesExact (s : TaskScheduler δ τ) : Prop where
  queue : ∀ w a, a ∈ (s.resource w).blocked ↔
    (s.action a).state = .waiting ∧ (s.action a).selectedResource = some w
  nodup : ∀ w, (s.resource w).blocked.Nodup

/-- Exact queues, of actions that can be looked at. -/
structure QueuesSound (s : TaskScheduler δ τ) : Prop extends QueuesExact s where
  assigned : ∀ a, (s.action a).selectedResource.isSome → (s.action a).selectedImpl.isSome
  reserves : ∀ a, (s.action a).state = .waiting → (s.action a).isToReserveResources = true
  registered : ∀ a, (s.action a).state ≠ .runnable ∨ (s.action a).selectedResource.isSome → a < s.nextId

/-- The action reserves resources, and cannot run now on the worker. -/
def CannotRun (ctx : Ctx δ τ) (s : TaskScheduler δ τ) (w : WorkerId) (a : ActionId) : Prop :=
  (s.action a).isToReserveResources = true ∧ ∃ impl, (s.action a).selectedImpl = some impl ∧
    ctx.ops.canRunNow (s.resource w).myWorker impl.requirements = false

/-- The head of the queue has reason to wait. -/
def HeadWaits (ctx : Ctx δ τ) (s : TaskScheduler δ τ) (w : WorkerId) : Prop :=
  ∀ a, peek s (s.resource w).blocked = some a → s.CannotRun ctx w a

/-- The loop over the queue of `w` has resumed some actions of it. -/
structure Resumed (w : WorkerId) (s t : TaskScheduler δ τ) : Prop where
  resource : ∀ v ≠ w, t.resource v = s.resource v
  nextId : t.nextId = s.nextId
  blockedActions : t.blockedActions = s.blockedActions
  kind : ∀ a, (t.action a).kind = (s.action a).kind
  selectedResource : ∀ a, (t.action a).selectedResource = (s.action a).selectedResource
  selectedImpl : ∀ a, (t.action a).selectedImpl = (s.action a).selectedImpl
  dataSuccessors : ∀ a, (t.action a).dataSuccessors = (s.action a).dataSuccessors
  state : ∀ a, (t.action a).state = (s.action a).state ∨
    (s.action a).state = .waiting ∧ (s.action a).selectedResource = some w ∧ (t.action a).state = .running

section
variable {ctx : Ctx δ τ} {s t u : TaskScheduler δ τ} {a : ActionId} {w : WorkerId}

theorem Resumed.refl (w : WorkerId) (s : TaskScheduler δ τ) : Resumed w s s :=
  ⟨fun _ _ => rfl, rfl, rfl, fun _ => rfl, fun _ => rfl, fun _ => rfl, fun _ => rfl, fun _ => .inl rfl⟩

theorem Resumed.trans (h : Resumed w s t) (h' : Resumed w t u) : Resumed w s u where
  resource v hv := (h'.resource v hv).trans (h.resource v hv)
  nextId := h'.nextId.trans h.nextId
  blockedActions := h'.blockedActions.trans h.blockedActions
  kind a := (h'.kind a).trans (h.kind a)
  selectedResource a := (h'.selectedResource a).trans (h.selectedResource a)
  selectedImpl a := (h'.selectedImpl a).trans (h.selectedImpl a)
  dataSuccessors a := (h'.dataSuccessors a).trans (h.dataSuccessors a)
  state a := by
    rcases h'.state a with he | ⟨hw, hs, hr⟩
    · rw [he]
      exact h.state a
    · rcases h.state a with he' | ⟨-, -, hr'⟩
      · exact .inr ⟨he'.symm.trans hw, (h.selectedResource a).symm.trans hs, hr⟩
      · rw [hr'] at hw
        cases hw

/-- An update of one action, and of the queue of one worker. -/
theorem QueuesSound.change (hs : QueuesSound s) (hact : ∀ b ≠ a, t.action b = s.action b)
    (hqueue : ∀ v ≠ w, (t.resource v).blocked = (s.resource v).blocked) (hid : t.nextId = s.nextId)
    (hother : ∀ v ≠ w, a ∉ (s.resource v).blocked)
    (hin : ∀ b ≠ a, b ∈ (t.resource w).blocked ↔ b ∈ (s.resource w).blocked)
    (ha : a ∈ (t.resource w).blocked ↔ (t.action a).state = .waiting)
    (hwait : (t.action a).state = .waiting →
      (t.action a).selectedResource = some w ∧ (t.action a).isToReserveResources = true)
    (hnodup : (t.resource w).blocked.Nodup)
    (himpl : (t.action a).selectedResource.isSome → (t.action a).selectedImpl.isSome)
    (hreg : (t.action a).state ≠ .runnable ∨ (t.action a).selectedResource.isSome → a < s.nextId) :
    QueuesSound t where
  queue v b := by
    by_cases hb : b = a
    · subst hb
      by_cases hv : v = w
      · subst hv
        exact ha.trans ⟨fun h => ⟨h, (hwait h).1⟩, And.left⟩
      · rw [hqueue v hv]
        refine iff_of_false (hother v hv) fun ⟨h, hsel⟩ => hv ?_
        exact Option.some.inj (hsel.symm.trans (hwait h).1)
    · rw [hact b hb]
      by_cases hv : v = w
      · subst hv
        exact (hin b hb).trans (hs.queue v b)
      · rw [hqueue v hv]
        exact hs.queue v b
  nodup v := by
    by_cases hv : v = w
    · subst hv; exact hnodup
    · rw [hqueue v hv]; exact hs.nodup v
  assigned b := by
    by_cases hb : b = a
    · subst hb; exact himpl
    · rw [hact b hb]; exact hs.assigned b
  reserves b := by
    by_cases hb : b = a
    · subst hb; exact fun h => (hwait h).2
    · rw [hact b hb]; exact hs.reserves b
  registered b := by
    rw [hid]
    by_cases hb : b = a
    · subst hb; exact hreg
    · rw [hact b hb]; exact hs.registered b

/-- What waits is in no other queue. -/
theorem QueuesExact.not_mem_of_ne (hs : QueuesExact s) (hsel : (s.action a).selectedResource = some w) :
    ∀ v ≠ w, a ∉ (s.resource v).blocked := fun v hv ha =>
  hv (Option.some.inj (((hs.queue v a).mp ha).2.symm.trans hsel))

theorem QueuesExact.not_mem (hs : QueuesExact s) (ha : (s.action a).state ≠ .waiting) (v : WorkerId) :
    a ∉ (s.resource v).blocked := fun h => ha ((hs.queue v a).mp h).1

theorem CannotRun.congr (h : s.CannotRun ctx w a) (hworker : (t.resource w).myWorker = (s.resource w).myWorker)
    (hk : (t.action a).kind = (s.action a).kind) (himpl : (t.action a).selectedImpl = (s.action a).selectedImpl) :
    t.CannotRun ctx w a := by
  obtain ⟨hr, impl, hi, hc⟩ := h
  exact ⟨by rw [Action.isToReserveResources, hk]; exact hr, impl, himpl.trans hi, by rw [hworker]; exact hc⟩

theorem HeadWaits.congr (h : HeadWaits ctx s w) (hq : (t.resource w).blocked = (s.resource w).blocked)
    (hworker : (t.resource w).myWorker = (s.resource w).myWorker)
    (hact : ∀ b ∈ (s.resource w).blocked, (t.action b).kind = (s.action b).kind ∧
      (t.action b).selectedImpl = (s.action b).selectedImpl) : HeadWaits ctx t w := by
  intro b hb
  rw [hq, peek_congr_of_mem fun b hb => (hact b hb).1] at hb
  obtain ⟨hk, himpl⟩ := hact b (mem_of_peek hb)
  exact (h b hb).congr hworker hk himpl

/-! ## Resuming -/

/-- The head of a queue is resumed. -/
theorem QueuesSound.resume (ctx : Ctx δ τ) (hs : QueuesSound s) (ha : a ∈ (s.resource w).blocked) :
    Resumed w s (ran ctx (dequeued s w a) w a) ∧ QueuesSound (ran ctx (dequeued s w a) w a) ∧
      ((ran ctx (dequeued s w a) w a).resource w).blocked = (s.resource w).blocked.erase a := by
  obtain ⟨hwait, hsel⟩ := (hs.queue w a).mp ha
  have hact : ∀ b ≠ a, (ran ctx (dequeued s w a) w a).action b = s.action b := fun b hb => by
    change ((s.dequeued w a).setAction a _).action b = _
    rw [setAction_action, if_neg hb]
    rfl
  have hself : (ran ctx (dequeued s w a) w a).action a = ranAction ctx (dequeued s w a) w (s.action a) := by
    change ((s.dequeued w a).setAction a _).action a = _
    rw [setAction_self]
    rfl
  have hres : ∀ v ≠ w, (ran ctx (dequeued s w a) w a).resource v = s.resource v := fun v hv => by
    simp [ran, dequeued, setResource, hv]
  have hqueue : ((ran ctx (dequeued s w a) w a).resource w).blocked = (s.resource w).blocked.erase a := by
    simp [ran, dequeued, setResource, ranOn]
  have hfield : ∀ {β : Type} (f : Action τ → β), f (ranAction ctx (dequeued s w a) w (s.action a)) = f (s.action a) →
      ∀ b, f ((ran ctx (dequeued s w a) w a).action b) = f (s.action b) := by
    intro β f hf b
    by_cases hb : b = a
    · rw [hb, hself, hf]
    · rw [hact b hb]
  refine ⟨⟨hres, rfl, rfl, hfield _ rfl, hfield _ rfl, hfield _ rfl, hfield _ rfl, fun b => ?_⟩, ?_, hqueue⟩
  · by_cases hb : b = a
    · subst hb
      exact .inr ⟨hwait, hsel, by rw [hself]; rfl⟩
    · exact .inl (by rw [hact b hb])
  · refine hs.change hact (fun v hv => by rw [hres v hv]) rfl (hs.not_mem_of_ne hsel) (fun b hb => ?_) ?_ ?_ ?_ ?_ ?_
    · rw [hqueue]
      exact List.mem_erase_of_ne hb
    · rw [hqueue, hself]
      exact iff_of_false (hs.nodup w).not_mem_erase (by simp [ranAction])
    · rw [hself]
      exact fun h => by cases h
    · rw [hqueue]
      exact (hs.nodup w).erase a
    · rw [hself]
      exact hs.assigned a
    · exact fun _ => hs.registered a (.inl (by rw [hwait]; decide))

/-- The loop over a queue ends, at a head that waits, and has resumed what it
has taken off. -/
theorem tryToLaunchBlockedActions_spec (ctx : Ctx δ τ) (w : WorkerId) : ∀ (fuel : Nat) (s : TaskScheduler δ τ), QueuesSound s →
    (s.resource w).blocked.length < fuel → ∃ t, tryToLaunchBlockedActions ctx w fuel s = .ok () t ∧
      Resumed w s t ∧ QueuesSound t ∧ HeadWaits ctx t w
  | 0, _, _, h => absurd h (Nat.not_lt_zero _)
  | fuel + 1, s, hs, hlen => by
    cases hpeek : peek s (s.resource w).blocked with
    | none =>
      refine ⟨s, tryToLaunchBlockedActions_nil ctx hpeek fuel, .refl w s, hs, fun a ha => ?_⟩
      rw [hpeek] at ha
      cases ha
    | some a =>
      have ha := mem_of_peek hpeek
      obtain ⟨hwait, hsel⟩ := (hs.queue w a).mp ha
      obtain ⟨impl, hi⟩ := Option.isSome_iff_exists.mp (hs.assigned a (by rw [hsel]; rfl))
      rw [tryToLaunchBlockedActions_cons ctx hpeek hwait hsel hi]
      split
      · next hc =>
        refine ⟨s, rfl, .refl w s, hs, fun b hb => ?_⟩
        rw [hpeek] at hb
        cases hb
        exact ⟨hc.1, impl, hi, hc.2⟩
      · obtain ⟨hres, hsound, hqueue⟩ := hs.resume ctx ha
        obtain ⟨t, ht, htr, hts, hth⟩ := tryToLaunchBlockedActions_spec ctx w fuel _ hsound (by
          rw [hqueue, List.length_erase_of_mem ha]
          have := List.length_pos_of_mem ha
          omega)
        exact ⟨t, ht, hres.trans htr, hts, hth⟩

end

/-! ## Moves -/

/-- `t` is `s` but for what the queues do not depend on; what is `RUNNABLE` may
have been assigned. -/
structure SameQueues (s t : TaskScheduler δ τ) : Prop where
  nextId : t.nextId = s.nextId
  resource : t.resource = s.resource
  kind : ∀ a, (t.action a).kind = (s.action a).kind
  state : ∀ a, (t.action a).state = (s.action a).state
  selected : ∀ a, (t.action a).selectedResource = (s.action a).selectedResource ∧
      (t.action a).selectedImpl = (s.action a).selectedImpl ∨
    (s.action a).state = .runnable ∧ a < s.nextId ∧ (t.action a).selectedImpl.isSome

/-- What a method does to the queues, the actions that wait and the workers. -/
inductive QueueMove (δ τ : Type)
  | create (x : Action τ)
  | elsewhere (t : TaskScheduler δ τ)
  | tryToLaunch (a : ActionId)
  /-- `completed` or `error`, until the queue of the worker has been tried. -/
  | leave (a : ActionId) (state : ActionState)
  /-- `failed`, until the action has been cancelled. -/
  | cancel (a : ActionId)
  | update (w : WorkerId) (description : δ)

/-- The action would be the head of a queue that is not empty, although the
worker can run it now. -/
def Overtakes (ctx : Ctx δ τ) (s : TaskScheduler δ τ) (w : WorkerId) (a : ActionId) : Prop :=
  (s.action a).selectedResource = some w ∧ (s.action a).state = .runnable ∧
    (s.action a).hasDataPredecessors = false ∧ (s.action a).isToReserveResources = true ∧
    (s.resource w).blocked ≠ [] ∧ peek s ((s.resource w).blocked ++ [a]) = some a ∧
    ∃ impl, (s.action a).selectedImpl = some impl ∧
      ctx.ops.canRunNow (s.resource w).myWorker impl.requirements = true

namespace QueueMove

def Enabled (s : TaskScheduler δ τ) : QueueMove δ τ → Prop
  | .create x => x.state = .runnable ∧ x.selectedResource = none
  | .elsewhere t => SameQueues s t
  | .leave a state => (s.action a).state = .running ∧ (state = .finished ∨ state = .runnable)
  | .cancel a => a < s.nextId
  | .tryToLaunch _ | .update .. => True

def next (ctx : Ctx δ τ) (s : TaskScheduler δ τ) : QueueMove δ τ → TaskScheduler δ τ
  | .create x => created s x
  | .elsewhere t => t
  | .tryToLaunch a => Java.final (tryToLaunchAction ctx a s)
  | .leave a state => Java.final (leaveResource ctx a state s)
  | .cancel a => cancelled a (s.setAction a { s.action a with state := .failed })
  | .update w description => s.setResource w { s.resource w with myWorker := description }

/-- The move leaves no queue that could go on: no action overtakes the head
while it can run, no head is cancelled before one that can, and a worker gets
no room for the head. -/
def Careful (ctx : Ctx δ τ) (s : TaskScheduler δ τ) : QueueMove δ τ → Prop
  | .tryToLaunch a => ∀ w, ¬ Overtakes ctx s w a
  | .cancel a => ∀ w, (s.action a).selectedResource = some w → peek s (s.resource w).blocked = some a →
    ∀ b, peek s ((s.resource w).blocked.erase a) = some b → s.CannotRun ctx w b
  | .update w description => ∀ a impl, peek s (s.resource w).blocked = some a →
    (s.action a).selectedImpl = some impl → ctx.ops.canRunNow description impl.requirements = false
  | .create _ | .elsewhere _ | .leave .. => True

end QueueMove

section
variable {ctx : Ctx δ τ} {s t : TaskScheduler δ τ} {a : ActionId} {w : WorkerId} {x : Action τ}

/-- An action that is in no queue, and is not made to wait, is updated. -/
theorem QueuesSound.setAction (hs : QueuesSound s) (hnot : ∀ v, a ∉ (s.resource v).blocked) (hx : x.state ≠ .waiting)
    (himpl : x.selectedResource.isSome → x.selectedImpl.isSome)
    (hreg : x.state ≠ .runnable ∨ x.selectedResource.isSome → a < s.nextId) : QueuesSound (s.setAction a x) := by
  have hself := setAction_self s a x
  refine hs.change (w := 0) (fun b hb => by rw [setAction_action, if_neg hb]) (fun _ _ => rfl) rfl (fun v _ => hnot v)
    (fun _ _ => Iff.rfl) ?_ ?_ (hs.nodup 0) ?_ ?_
  · rw [hself]
    exact iff_of_false (hnot 0) hx
  · rw [hself]
    exact fun h => absurd h hx
  · rw [hself]
    exact himpl
  · rw [hself]
    exact hreg

/-- What the queues do not depend on may change. -/
theorem QueuesSound.congr (hs : QueuesSound s) (haction : t.action = s.action) (hid : t.nextId = s.nextId)
    (hqueue : ∀ v, (t.resource v).blocked = (s.resource v).blocked) : QueuesSound t where
  queue v b := by rw [hqueue, haction]; exact hs.queue v b
  nodup v := by rw [hqueue]; exact hs.nodup v
  assigned b := by rw [haction]; exact hs.assigned b
  reserves b := by rw [haction]; exact hs.reserves b
  registered b := by rw [haction, hid]; exact hs.registered b

theorem QueuesSound.created (ctx : Ctx δ τ) (hs : QueuesSound s) (hx : x.state = .runnable) (hsel : x.selectedResource = none) :
    QueuesSound (created s x) ∧ ∀ v, HeadWaits ctx s v → HeadWaits ctx (created s x) v := by
  have hnot : (s.action s.nextId).state = .runnable := by
    by_contra h
    exact Nat.lt_irrefl _ (hs.registered s.nextId (.inl h))
  have hset : QueuesSound (s.setAction s.nextId x) :=
    hs.setAction (hs.not_mem (by rw [hnot]; decide)) (by rw [hx]; decide) (by rw [hsel]; exact fun h => by cases h)
      (by rw [hx, hsel]; simp)
  refine ⟨⟨⟨hset.queue, hset.nodup⟩, hset.assigned, hset.reserves, fun b hb =>
    Nat.lt_succ_of_lt (hset.registered b hb)⟩, fun v hv => hv.congr rfl rfl fun b hb => ?_⟩
  have hne : b ≠ s.nextId := by
    rintro rfl
    exact hs.not_mem (by rw [hnot]; decide) v hb
  have : (TaskScheduler.created s x).action b = s.action b := by
    change (s.setAction s.nextId x).action b = _
    rw [setAction_action, if_neg hne]
  rw [this]
  exact ⟨rfl, rfl⟩

theorem QueuesSound.sameQueues (ctx : Ctx δ τ) (hs : QueuesSound s) (h : SameQueues s t) :
    QueuesSound t ∧ ∀ v, HeadWaits ctx s v → HeadWaits ctx t v := by
  have hwaiting : ∀ b, (s.action b).state = .waiting →
      (t.action b).selectedResource = (s.action b).selectedResource ∧ (t.action b).selectedImpl = (s.action b).selectedImpl :=
    fun b hb => (h.selected b).resolve_right fun hr => by rw [hb] at hr; cases hr.1
  refine ⟨⟨⟨fun v b => ?_, fun v => ?_⟩, fun b hb => ?_, fun b hb => ?_, fun b hb => ?_⟩, fun v hv => ?_⟩
  · rw [h.resource, hs.queue, h.state]
    exact and_congr_right fun hb => by rw [(hwaiting b hb).1]
  · rw [h.resource]
    exact hs.nodup v
  · rcases h.selected b with ⟨hsel, himpl⟩ | ⟨-, -, himpl⟩
    · rw [hsel] at hb
      rw [himpl]
      exact hs.assigned b hb
    · exact himpl
  · rw [h.state] at hb
    rw [Action.isToReserveResources, h.kind]
    exact hs.reserves b hb
  · rw [h.state] at hb
    rw [h.nextId]
    rcases h.selected b with ⟨hsel, -⟩ | ⟨-, hlt, -⟩
    · rw [hsel] at hb
      exact hs.registered b hb
    · exact hlt
  · refine hv.congr (by rw [h.resource]) (by rw [h.resource]) fun b hb => ⟨h.kind b, ?_⟩
    exact (hwaiting b ((hs.queue v b).mp hb).1).2

/-- An action is put to wait at the end of a queue. -/
theorem QueuesSound.waited (ctx : Ctx δ τ) (hs : QueuesSound s) (hsel : (s.action a).selectedResource = some w)
    (hr : (s.action a).state = .runnable) (hk : (s.action a).isToReserveResources = true) :
    QueuesSound (waited s w a) ∧ (∀ v ≠ w, HeadWaits ctx s v → HeadWaits ctx (waited s w a) v) ∧
      (HeadWaits ctx s w → (peek s ((s.resource w).blocked ++ [a]) = some a → s.CannotRun ctx w a) →
        HeadWaits ctx (waited s w a) w) := by
  have hnot := hs.not_mem (a := a) (by rw [hr]; decide)
  have hact : ∀ b ≠ a, (TaskScheduler.waited s w a).action b = s.action b := fun b hb => by
    rw [TaskScheduler.waited, setResource_action, setAction_action, if_neg hb]
  have hself : (TaskScheduler.waited s w a).action a = { s.action a with state := .waiting } := by
    rw [TaskScheduler.waited, setResource_action, setAction_self]
  have hres : ∀ v ≠ w, (TaskScheduler.waited s w a).resource v = s.resource v := fun v hv => by
    simp [TaskScheduler.waited, setResource, hv]
  have hresw : (TaskScheduler.waited s w a).resource w =
      { s.resource w with blocked := (s.resource w).blocked ++ [a] } := by
    simp [TaskScheduler.waited, setResource]
  have hkind : ∀ b, ((TaskScheduler.waited s w a).action b).kind = (s.action b).kind ∧
      ((TaskScheduler.waited s w a).action b).selectedImpl = (s.action b).selectedImpl := fun b => by
    by_cases hb : b = a
    · rw [hb, hself]; exact ⟨rfl, rfl⟩
    · rw [hact b hb]; exact ⟨rfl, rfl⟩
  refine ⟨?_, fun v hv h => h.congr (by rw [hres v hv]) (by rw [hres v hv]) fun b _ => hkind b, fun h hover b hb => ?_⟩
  · refine hs.change hact (fun v hv => by rw [hres v hv]) rfl (fun v _ => hnot v) (fun b hb => ?_) ?_ ?_ ?_ ?_ ?_
    · simp [hresw, hb]
    · simp [hresw, hself]
    · rw [hself]
      exact fun _ => ⟨hsel, hk⟩
    · rw [hresw]
      refine List.nodup_append.mpr ⟨hs.nodup w, by simp, fun b hb c hc => ?_⟩
      rw [List.mem_singleton.mp hc]
      rintro rfl
      exact hnot w hb
    · rw [hself]
      exact hs.assigned a
    · exact fun _ => hs.registered a (.inr (by rw [hsel]; rfl))
  · rw [hresw, peek_congr_of_mem fun b _ => (hkind b).1] at hb
    have hcannot : s.CannotRun ctx w b := by
      rcases peek_append hb with rfl | hb
      · exact hover hb
      · exact h b hb
    exact hcannot.congr (by rw [hresw]) (hkind b).1 (hkind b).2

/-- An action that does not wait runs. -/
theorem QueuesSound.ran (hs : QueuesSound s) (ha : (s.action a).state ≠ .waiting)
    (hsel : (s.action a).selectedResource.isSome) : QueuesSound (ran ctx s w a) := by
  have hset : QueuesSound (s.setAction a (ranAction ctx s w (s.action a))) :=
    hs.setAction (hs.not_mem ha) (fun h => by cases h) (hs.assigned a) fun _ => hs.registered a (.inr hsel)
  refine hset.congr rfl rfl fun v => ?_
  simp only [TaskScheduler.ran, setResource, setAction_resource, Function.update_apply]
  split
  · next hv => rw [hv]; rfl
  · rfl

/-- A queue that is not empty keeps its head when an action runs that reserves nothing. -/
theorem HeadWaits.ran {v : WorkerId} (h : HeadWaits ctx s v)
    (hc : (s.action a).isToReserveResources = false ∨ (s.resource w).blocked = []) :
    HeadWaits ctx (ran ctx s w a) v := by
  have hact : ∀ b, ((TaskScheduler.ran ctx s w a).action b).kind = (s.action b).kind ∧
      ((TaskScheduler.ran ctx s w a).action b).selectedImpl = (s.action b).selectedImpl :=
    forall_setAction (P := fun b y => y.kind = (s.action b).kind ∧ y.selectedImpl = (s.action b).selectedImpl)
      ⟨rfl, rfl⟩ fun _ _ => ⟨rfl, rfl⟩
  by_cases hv : v = w
  · subst hv
    have hres : (TaskScheduler.ran ctx s v a).resource v = ranOn ctx s v a := by simp [TaskScheduler.ran, setResource]
    rcases hc with hk | hq
    · refine h.congr (by rw [hres]; rfl) ?_ fun b _ => hact b
      rw [hres, ranOn]
      simp [reserved, hk]
    · intro b hb
      have hnil : (ranOn ctx s v a).blocked = [] := hq
      rw [hres, hnil] at hb
      cases hb
  · have hres : (TaskScheduler.ran ctx s w a).resource v = s.resource v := by simp [TaskScheduler.ran, setResource, hv]
    exact h.congr (by rw [hres]) (by rw [hres]) fun b _ => hact b

/-! ## Launching -/

/-- The worker is noted on the action before it runs. -/
def noted (s : TaskScheduler δ τ) (w : WorkerId) (a : ActionId) : TaskScheduler δ τ :=
  s.setAction a { s.action a with executingResources := (s.action a).executingResources ++ [w] }

theorem execute_eq (ctx : Ctx δ τ) {impl : Implementation τ} (hi : (s.action a).selectedImpl = some impl) :
    execute ctx w a s = .ok () (if (s.action a).isToReserveResources = false ∨
        (s.resource w).blocked = [] ∧ ctx.ops.canRunNow (s.resource w).myWorker impl.requirements = true
      then TaskScheduler.ran ctx (noted s w a) w a else TaskScheduler.waited s w a) := by
  have hrun : (do
      modifyAction a fun x => { x with executingResources := x.executingResources ++ [w] }
      run ctx w a : M δ τ Unit) s = .ok () (TaskScheduler.ran ctx (noted s w a) w a) := by
    rw [Java.bind_ok (modifyAction_run ..), run_run ctx (by simp [hi])]
    rfl
  rw [execute, Java.bind_ok (Java.get_run s)]
  by_cases hk : (s.action a).isToReserveResources = true
  · rw [if_pos hk, Java.bind_ok (areEnoughResources_run ctx hi)]
    simp only [hk, Bool.not_true, Bool.true_and, Bool.false_or, Bool.and_eq_true, Bool.not_not, List.isEmpty_iff,
      Bool.true_eq_false, false_or]
    split
    · exact hrun
    · rfl
  · have hk' : (s.action a).isToReserveResources = false := by simpa using hk
    rw [if_neg hk]
    simp only [hk', Bool.not_false, Bool.true_or, if_true, true_or]
    exact hrun

/-- A launch that is not skipped: the action runs on its worker, or waits there. -/
theorem tryToLaunchAction_final (ctx : Ctx δ τ) (hs : QueuesSound s) (a : ActionId) :
    Java.final (tryToLaunchAction ctx a s) = s ∨ ∃ w impl, (s.action a).selectedResource = some w ∧
      (s.action a).state = .runnable ∧ (s.action a).hasDataPredecessors = false ∧
      (s.action a).selectedImpl = some impl ∧ Java.final (tryToLaunchAction ctx a s) =
        if (s.action a).isToReserveResources = false ∨
          (s.resource w).blocked = [] ∧ ctx.ops.canRunNow (s.resource w).myWorker impl.requirements = true
        then TaskScheduler.ran ctx (noted s w a) w a else TaskScheduler.waited s w a := by
  by_cases hc : (s.action a).state = .runnable ∧ (s.action a).hasDataPredecessors = false
  · cases hw : (s.action a).selectedResource with
    | none => exact .inl (by rw [tryToLaunchAction_none ctx hw, Java.final_ok])
    | some w =>
      obtain ⟨impl, hi⟩ := Option.isSome_iff_exists.mp (hs.assigned a (by rw [hw]; rfl))
      rw [tryToLaunchAction_eq ctx hw hc]
      by_cases hm : ((s.action a).isSchedulingConstrained && unrequiredResource s a ||
          (s.action a).isTargetResourceEnforced && (s.action a).enforcedTargetResource ≠ some w) = true
      · rw [if_pos hm]
        exact .inl rfl
      · rw [if_neg hm, execute_eq ctx hi]
        exact .inr ⟨w, impl, rfl, hc.1, hc.2, hi, rfl⟩
  · exact .inl (by rw [tryToLaunchAction_skip ctx hc, Java.final_ok])

/-! ## Leaving -/

/-- An action that has left its worker, which is `d` now. -/
def left (s : TaskScheduler δ τ) (a : ActionId) (state : ActionState) (w : WorkerId) (d : δ) : TaskScheduler δ τ :=
  (s.setAction a { s.action a with state := state }).setResource w
    { s.resource w with myWorker := d, running := (s.resource w).running.erase a }

/-- An action without a worker, or without the resources it is to give back,
does not leave. -/
theorem leave_cases (ctx : Ctx δ τ) (a : ActionId) (state : ActionState) (s : TaskScheduler δ τ) :
    leave ctx a state s = .error .nullPointer (s.setAction a { s.action a with state := state }) ∨
    ∃ w d, (s.action a).selectedResource = some w ∧ leave ctx a state s = .ok w (left s a state w d) := by
  obtain ⟨u, hu⟩ : ∃ u, u = s.setAction a { s.action a with state := state } := ⟨_, rfl⟩
  have hua : u.action a = { s.action a with state := state } := by rw [hu, setAction_self]
  rw [leave, Java.bind_ok (modifyAction_run ..), Java.bind_ok (Java.get_run _), ← hu]
  cases hw : (s.action a).selectedResource with
  | none =>
    refine .inl ?_
    conv_lhs => simp only [hua, hw]
    rfl
  | some w =>
    have hrelease : releaseResources ctx w a u = .error .nullPointer u ∨
        ∃ d, releaseResources ctx w a u = .ok () (u.setResource w { u.resource w with myWorker := d }) := by
      rw [releaseResources, Java.bind_ok (Java.get_run u)]
      split
      · cases hc : (u.action a).resourceConsumption with
        | none => exact .inl rfl
        | some consumption => exact .inr ⟨_, modifyResource_run ..⟩
      · exact .inr ⟨(u.resource w).myWorker, by simp [setResource]⟩
    rcases hrelease with he | ⟨d, hd⟩
    · refine .inl ?_
      conv_lhs => simp only [hua, hw]
      exact Java.bind_error he
    · refine .inr ⟨w, d, rfl, ?_⟩
      conv_lhs => simp only [hua, hw]
      rw [Java.bind_ok hd, unhostAction, Java.bind_ok (modifyResource_run ..), hu]
      simp [left, setResource, setAction]

theorem QueuesSound.left (hs : QueuesSound s) (hr : (s.action a).state = .running) {state : ActionState}
    (hstate : state = .finished ∨ state = .runnable) (w : WorkerId) (d : δ) :
    QueuesSound (s.setAction a { s.action a with state := state }) ∧ QueuesSound (left s a state w d) := by
  have hne : state ≠ .waiting := by rcases hstate with rfl | rfl <;> decide
  have hset : QueuesSound (s.setAction a { s.action a with state := state }) :=
    hs.setAction (hs.not_mem (by rw [hr]; decide)) hne (hs.assigned a)
      fun _ => hs.registered a (.inl (by rw [hr]; decide))
  refine ⟨hset, hset.congr rfl rfl fun v => ?_⟩
  simp only [TaskScheduler.left, setResource, setAction_resource, Function.update_apply]
  split
  · next hv => rw [hv]
  · rfl

/-- When an action leaves a worker, the actions that wait there are tried, until
the head waits. -/
theorem leaveResource_final (ctx : Ctx δ τ) (hs : QueuesSound s) (hr : (s.action a).state = .running) {state : ActionState}
    (hstate : state = .finished ∨ state = .runnable) :
    leaveResource ctx a state s = .error .nullPointer (s.setAction a { s.action a with state := state }) ∨
    ∃ w d t, leaveResource ctx a state s = .ok () t ∧ Resumed w (left s a state w d) t ∧ QueuesSound t ∧
      HeadWaits ctx t w := by
  rw [leaveResource_eq]
  rcases leave_cases ctx a state s with he | ⟨w, d, -, hl⟩
  · exact .inl (Java.bind_error he)
  · obtain ⟨t, ht, hres, hst, hhead⟩ := tryToLaunchBlockedActions_spec ctx w _ _
      (hs.left hr hstate w d).2 (Nat.lt_succ_self _)
    exact .inr ⟨w, d, t, (Java.bind_ok hl).trans ((Java.bind_ok (Java.get_run _)).trans ht), hres, hst, hhead⟩

/-! ## What the moves keep -/

theorem HeadWaits.setAction {v : WorkerId} (h : HeadWaits ctx s v) (hk : x.kind = (s.action a).kind)
    (himpl : x.selectedImpl = (s.action a).selectedImpl) : HeadWaits ctx (s.setAction a x) v :=
  h.congr rfl rfl fun b _ => forall_setAction
    (P := fun b y => y.kind = (s.action b).kind ∧ y.selectedImpl = (s.action b).selectedImpl) ⟨hk, himpl⟩
    (fun _ _ => ⟨rfl, rfl⟩) b

theorem Resumed.headWaits {v : WorkerId} (h : Resumed w s t) (hv : v ≠ w) (hh : HeadWaits ctx s v) :
    HeadWaits ctx t v :=
  hh.congr (by rw [h.resource v hv]) (by rw [h.resource v hv]) fun b _ => ⟨h.kind b, h.selectedImpl b⟩

/-- A cancelled action is in no queue any more; the heads of the others are
who they were. -/
theorem QueuesSound.cancelled (ctx : Ctx δ τ) (hs : QueuesSound s) (ha : a < s.nextId) :
    QueuesSound (cancelled a (s.setAction a { s.action a with state := .failed })) ∧
      ((∀ w, (s.action a).selectedResource = some w → peek s (s.resource w).blocked = some a →
        ∀ b, peek s ((s.resource w).blocked.erase a) = some b → s.CannotRun ctx w b) →
        ∀ v, HeadWaits ctx s v →
          HeadWaits ctx (TaskScheduler.cancelled a (s.setAction a { s.action a with state := .failed })) v) := by
  cases hw : (s.action a).selectedResource with
  | none =>
    have hnot : ∀ v, a ∉ (s.resource v).blocked := fun v h => by
      have := ((hs.queue v a).mp h).2
      rw [hw] at this
      cases this
    have hc : TaskScheduler.cancelled a (s.setAction a { s.action a with state := .failed }) =
        s.setAction a { s.action a with state := .failed } := by
      rw [TaskScheduler.cancelled, setAction_self]
      simp only [hw]
    rw [hc]
    exact ⟨hs.setAction hnot (fun h => by cases h) (hs.assigned a) fun _ => ha, fun _ v hv => hv.setAction rfl rfl⟩
  | some w =>
    obtain ⟨t, ht⟩ : ∃ t, t = TaskScheduler.cancelled a (s.setAction a { s.action a with state := .failed }) := ⟨_, rfl⟩
    have hc : t = (s.setAction a { s.action a with state := .failed }).setResource w
        { s.resource w with blocked := (s.resource w).blocked.erase a } := by
      rw [ht, TaskScheduler.cancelled, setAction_self]
      simp only [hw]
      rfl
    have hact : ∀ b ≠ a, t.action b = s.action b := fun b hb => by
      rw [hc, setResource_action, setAction_action, if_neg hb]
    have hself : t.action a = { s.action a with state := .failed } := by rw [hc, setResource_action, setAction_self]
    have hres : ∀ v ≠ w, t.resource v = s.resource v := fun v hv => by simp [hc, setResource, hv]
    have hresw : t.resource w = { s.resource w with blocked := (s.resource w).blocked.erase a } := by
      simp [hc, setResource]
    have hsame : ∀ b, (t.action b).kind = (s.action b).kind ∧ (t.action b).selectedImpl = (s.action b).selectedImpl :=
      fun b => by
        by_cases hb : b = a
        · rw [hb, hself]; exact ⟨rfl, rfl⟩
        · rw [hact b hb]; exact ⟨rfl, rfl⟩
    rw [← ht]
    refine ⟨?_, fun hcareful v hv => ?_⟩
    · refine hs.change hact (fun v hv => by rw [hres v hv]) (by rw [hc]; rfl) (hs.not_mem_of_ne hw) (fun b hb => ?_) ?_ ?_ ?_ ?_ ?_
      · rw [hresw]
        exact List.mem_erase_of_ne hb
      · rw [hresw, hself]
        exact iff_of_false (hs.nodup w).not_mem_erase fun h => by cases h
      · rw [hself]
        exact fun h => by cases h
      · rw [hresw]
        exact (hs.nodup w).erase a
      · rw [hself]
        exact hs.assigned a
      · exact fun _ => ha
    · by_cases hvw : v = w
      · subst hvw
        intro b hb
        rw [hresw, peek_congr_of_mem fun b _ => (hsame b).1] at hb
        have hcannot : s.CannotRun ctx v b := by
          cases hp : peek s (s.resource v).blocked with
          | none =>
            rw [peek_eq_none.mp hp] at hb
            cases hb
          | some c =>
            by_cases hca : a = c
            · subst hca
              exact hcareful v rfl hp b hb
            · rw [peek_erase hp hca] at hb
              cases hb
              exact hv _ hp
        exact hcannot.congr (by rw [hresw]) (hsame b).1 (hsame b).2
      · exact hv.congr (by rw [hres v hvw]) (by rw [hres v hvw]) fun b _ => hsame b

/-- A launch keeps the queues exact; their heads wait unless the action
overtakes one. -/
theorem QueuesSound.launched (ctx : Ctx δ τ) (hs : QueuesSound s) (a : ActionId) :
    QueuesSound (Java.final (tryToLaunchAction ctx a s)) ∧ ((∀ w, ¬ Overtakes ctx s w a) →
      (∀ v, HeadWaits ctx s v) → ∀ v, HeadWaits ctx (Java.final (tryToLaunchAction ctx a s)) v) := by
  rcases tryToLaunchAction_final ctx hs a with h | ⟨w, impl, hsel, hr, hp, hi, h⟩
  · rw [h]
    exact ⟨hs, fun _ hh => hh⟩
  · have hsome : (s.action a).selectedResource.isSome := by rw [hsel]; rfl
    have hrun : (s.action a).state ≠ .waiting := by rw [hr]; decide
    rw [h]
    split
    · next hc =>
      have hself : (noted s w a).action a =
          { s.action a with executingResources := (s.action a).executingResources ++ [w] } := setAction_self ..
      have hset : QueuesSound (noted s w a) :=
        hs.setAction (hs.not_mem hrun) hrun (hs.assigned a) fun _ => hs.registered a (.inr hsome)
      refine ⟨hset.ran (by rw [hself]; exact hrun) (by rw [hself]; exact hsome), fun _ hh v => ?_⟩
      refine HeadWaits.ran ((hh v).setAction rfl rfl) ?_
      rw [hself]
      exact hc.imp_right And.left
    · next hc =>
      simp only [not_or, not_and, Bool.not_eq_false, Bool.not_eq_true] at hc
      obtain ⟨hk, hroom⟩ := hc
      obtain ⟨hst, hother, hown⟩ := hs.waited ctx hsel hr hk
      refine ⟨hst, fun hover hh v => ?_⟩
      by_cases hv : v = w
      · subst hv
        refine hown (hh v) fun hpeek => ⟨hk, impl, hi, ?_⟩
        by_cases hq : (s.resource v).blocked = []
        · exact hroom hq
        · by_contra hcan
          exact hover v ⟨hsel, hr, hp, hk, hq, hpeek, impl, hi, by simpa using hcan⟩
      · exact hother v hv (hh v)

/-- Every move keeps the queues exact. -/
theorem QueueMove.Enabled.queuesSound {l : QueueMove δ τ} (hl : l.Enabled s) (hs : QueuesSound s) :
    QueuesSound (l.next ctx s) := by
  cases l with
  | create x => exact (hs.created ctx hl.1 hl.2).1
  | elsewhere t => exact (hs.sameQueues ctx hl).1
  | tryToLaunch a => exact (hs.launched ctx a).1
  | leave a state =>
    rcases leaveResource_final ctx hs hl.1 hl.2 with h | ⟨w, d, t, h, -, hst, -⟩
    · rw [next, h]
      exact (hs.left hl.1 hl.2 0 (s.resource 0).myWorker).1
    · rw [next, h]
      exact hst
  | cancel a => exact (hs.cancelled ctx hl).1
  | update w description =>
    refine hs.congr rfl rfl fun v => ?_
    simp only [next, setResource, Function.update_apply]
    split
    · next hv => rw [hv]
    · rfl

/-- Every careful move leaves heads that wait. -/
theorem QueueMove.Careful.headWaits {l : QueueMove δ τ} (hc : l.Careful ctx s) (hl : l.Enabled s) (hs : QueuesSound s)
    (hh : ∀ v, HeadWaits ctx s v) (v : WorkerId) : HeadWaits ctx (l.next ctx s) v := by
  cases l with
  | create x => exact (hs.created ctx hl.1 hl.2).2 v (hh v)
  | elsewhere t => exact (hs.sameQueues ctx hl).2 v (hh v)
  | tryToLaunch a => exact (hs.launched ctx a).2 hc hh v
  | leave a state =>
    have hset : HeadWaits ctx (s.setAction a { s.action a with state := state }) v := (hh v).setAction rfl rfl
    rcases leaveResource_final ctx hs hl.1 hl.2 with h | ⟨w, d, t, h, hres, -, hhead⟩
    · rw [next, h]
      exact hset
    · rw [next, h]
      by_cases hv : v = w
      · rw [hv]
        exact hhead
      · have hleft : (left s a state w d).resource v = s.resource v := by simp [left, setResource, hv]
        exact hres.headWaits hv (hset.congr (by rw [hleft]; rfl) (by rw [hleft]; rfl) fun _ _ => ⟨rfl, rfl⟩)
  | cancel a => exact (hs.cancelled ctx hl).2 hc v (hh v)
  | update w description =>
    by_cases hv : v = w
    · subst hv
      intro b hb
      have hres : (next ctx s (.update v description)).resource v = { s.resource v with myWorker := description } := by
        simp [next, setResource]
      rw [hres] at hb
      have hpeek : peek (next ctx s (.update v description)) (s.resource v).blocked = peek s (s.resource v).blocked :=
        peek_congr_of_mem fun _ _ => rfl
      have hb : peek s (s.resource v).blocked = some b := hpeek.symm.trans hb
      obtain ⟨hr, impl, hi, -⟩ := hh v b hb
      exact ⟨hr, impl, hi, by rw [hres]; exact hc b impl hb hi⟩
    · have hres : (next ctx s (.update w description)).resource v = s.resource v := by simp [next, setResource, hv]
      exact (hh v).congr (by rw [hres]) (by rw [hres]) fun _ _ => ⟨rfl, rfl⟩

end

end TaskScheduler

end Compss.Scheduler
