/-
What the reduction of a worker does to the actions waiting on it.

A removed worker gives its queue back action by action: each is scheduled and
launched again. But an action that waits is not `RUNNABLE`, so that the new
assignment and the launch do nothing, and it stays where it was. It is safe
only when it is blocked. A worker that keeps resources keeps its queue, whether
it can still host it or not.
-/
import Compss.Scheduler.Invariant

namespace Compss.Scheduler

open Lib

variable {δ τ : Type}

namespace TaskScheduler

/-- The action runs on a worker of the pool that can host it, or waits there. -/
def Hosted (ctx : Ctx δ τ) (s : TaskScheduler δ τ) (a : ActionId) : Prop :=
  ∃ w ∈ s.workers, (s.action a).selectedResource = some w ∧
    (∃ impl, (s.action a).selectedImpl = some impl ∧ ctx.ops.canRun (s.resource w).myWorker impl = true) ∧
    ((s.action a).state = .running ∨ (s.action a).state = .waiting ∧ a ∈ (s.resource w).blocked)

/-- The scheduler has not lost the action. -/
def NotLost (ctx : Ctx δ τ) (s : TaskScheduler δ τ) (a : ActionId) : Prop := s.Hosted ctx a ∨ s.IsBlocked a

/-- The queue of a worker holds registered actions assigned to it, which wait. -/
def QueueWaits (s : TaskScheduler δ τ) (w : WorkerId) : Prop :=
  ∀ a ∈ (s.resource w).blocked, a < s.nextId ∧ (s.action a).state = .waiting ∧ (s.action a).selectedResource = some w

/-- The walk over the queue comes to the action: none before it makes it raise. -/
def Reaches (s : TaskScheduler δ τ) (queue : List ActionId) (a : ActionId) : Prop :=
  ∃ before after, queue = before ++ a :: after ∧ ∀ b ∈ before, ¬ s.MeetsNull (s.action b)

theorem Sound.queueWaits {impls : CoreId → List τ} {s : TaskScheduler δ τ} (hs : Sound impls s) (w : WorkerId) :
    s.QueueWaits w := fun a ha =>
  ⟨(hs.assigned a (by rw [(hs.queued w a ha).2]; rfl)).1, hs.queued w a ha⟩

/-! ## The queue of a removed worker -/

section
variable (ctx : Ctx δ τ) {s t : TaskScheduler δ τ} {a b : ActionId} {w : WorkerId} {l : List ActionId}

theorem removeFromReady_ok (a : ActionId) (s : TaskScheduler δ τ) :
    ∃ counts, removeFromReady ctx a s = .ok () { s with readyCounts := counts } := by
  cases hi : (s.action a).implementations ctx with
  | nil =>
    refine ⟨s.readyCounts, ?_⟩
    rw [removeFromReady, Java.bind_ok (Java.get_run s)]
    conv_lhs => simp only [hi]
    rfl
  | cons impl impls =>
    cases hc : impl.coreId with
    | none =>
      refine ⟨s.readyCounts, ?_⟩
      rw [removeFromReady, Java.bind_ok (Java.get_run s)]
      conv_lhs => simp only [hi, hc]
      rfl
    | some c =>
      refine ⟨Function.update s.readyCounts c (s.readyCounts c - 1), ?_⟩
      rw [removeFromReady, Java.bind_ok (Java.get_run s)]
      conv_lhs => simp only [hi, hc]
      rfl

theorem MeetsNull.not_allExecuted {x : Action τ} (h : s.MeetsNull x) : ¬ s.AllExecuted x := by
  rintro ⟨coreId, appId, priority, hk, hall⟩
  obtain ⟨coreId', appId', priority', hk', hn⟩ := h
  rw [hk] at hk'
  cases hk'
  obtain ⟨w, -, hw⟩ := hall none hn
  cases hw

theorem reaches_cons : s.Reaches (a :: l) b ↔ b = a ∨ ¬ s.MeetsNull (s.action a) ∧ s.Reaches l b := by
  constructor
  · rintro ⟨before, after, hl, hb⟩
    cases before with
    | nil => cases hl; exact .inl rfl
    | cons c before =>
      cases hl
      exact .inr ⟨hb _ (by simp), before, after, rfl, fun d hd => hb d (by simp [hd])⟩
  · rintro (rfl | ⟨ha, before, after, rfl, hb⟩)
    · exact ⟨[], l, rfl, by simp⟩
    · exact ⟨a :: before, after, rfl, fun d hd => (List.mem_cons.mp hd).elim (fun h => h ▸ ha) (hb d)⟩

/-- From `s` to `t` some actions of a queue were blocked, and nothing else
happened that an action sees. -/
structure Swept (s : TaskScheduler δ τ) (l : List ActionId) (t : TaskScheduler δ τ) : Prop where
  nextId : t.nextId = s.nextId
  action : t.action = s.action
  resource : t.resource = s.resource
  workers : t.workers = s.workers
  isBlocked : ∀ b, t.IsBlocked b ↔ s.IsBlocked b ∨ s.AllExecuted (s.action b) ∧ s.Reaches l b

/-- An action of a queue, when the walk comes to it: it raises, it is left
where it is, or it is blocked. -/
theorem placeRemoved_cases (hw : (s.action a).state = .waiting) :
    (s.MeetsNull (s.action a) ∧ placeRemoved ctx a s = .error .nullPointer s) ∨
    (¬ s.MeetsNull (s.action a) ∧ ¬ s.AllExecuted (s.action a) ∧
      ∃ lost, placeRemoved ctx a s = .ok () { s with lost := lost }) ∨
    (¬ s.MeetsNull (s.action a) ∧ s.AllExecuted (s.action a) ∧
      ∃ counts, placeRemoved ctx a s = .ok () (block { s with readyCounts := counts } a)) := by
  rcases placeRemoved_waiting ctx hw with ⟨hb, ⟨lost, hr⟩ | ⟨hr, hn⟩⟩ | ⟨hb, hr⟩
  · refine .inr (.inl ⟨fun hn => ?_, hb, lost, hr⟩)
    have hsched : scheduleAction ctx a (s.action a).actionScore s = .error .nullPointer s :=
      Java.tryCatch_error (schedule_null ctx hn)
    have hnull : placeRemoved ctx a s = .error .nullPointer s := Java.tryCatch_error (Java.bind_error hsched)
    rw [hnull] at hr
    cases hr
  · exact .inl ⟨hn, hr⟩
  · refine .inr (.inr ⟨fun hn => hn.not_allExecuted hb, hb, ?_⟩)
    obtain ⟨counts, hc⟩ := removeFromReady_ok ctx a s
    rw [hr]
    split
    · exact ⟨counts, Java.bind_ok hc⟩
    · exact ⟨s.readyCounts, rfl⟩

theorem forM_placeRemoved_swept : ∀ (l : List ActionId) (s : TaskScheduler δ τ),
    (∀ b ∈ l, (s.action b).state = .waiting) → Swept s l (Java.final (l.forM (placeRemoved ctx) s))
  | [], s, _ => by
    refine ⟨rfl, rfl, rfl, rfl, fun b => ⟨.inl, ?_⟩⟩
    rintro (h | ⟨-, before, after, hl, -⟩)
    · exact h
    · cases before <;> cases hl
  | a :: l, s, hl => by
    change Swept s (a :: l) (Java.final ((placeRemoved ctx a >>= fun _ => l.forM (placeRemoved ctx)) s))
    rcases placeRemoved_cases ctx (hl a (by simp)) with ⟨hn, hr⟩ | ⟨hn, hb, lost, hr⟩ | ⟨hn, hb, counts, hr⟩
    · rw [Java.bind_error hr]
      refine ⟨rfl, rfl, rfl, rfl, fun b => ⟨.inl, ?_⟩⟩
      rintro (h | ⟨hb, hreach⟩)
      · exact h
      · rcases reaches_cons.mp hreach with rfl | ⟨hn', -⟩
        · exact absurd hb hn.not_allExecuted
        · exact absurd hn hn'
    · rw [Java.bind_ok hr]
      obtain ⟨h1, h2, h3, h4, h5⟩ := forM_placeRemoved_swept l { s with lost := lost } fun b hb => hl b (by simp [hb])
      refine ⟨h1, h2, h3, h4, fun b => (h5 b).trans (or_congr Iff.rfl ?_)⟩
      refine and_congr_right fun hb' => ?_
      rw [reaches_cons]
      have hba : b ≠ a := by rintro rfl; exact hb hb'
      simp only [hba, hn, not_false_eq_true, true_and, false_or]
      exact Iff.rfl
    · rw [Java.bind_ok hr]
      obtain ⟨h1, h2, h3, h4, h5⟩ := forM_placeRemoved_swept l (block { s with readyCounts := counts } a)
        fun b hb => hl b (by simp [hb])
      refine ⟨h1, h2, h3, h4, fun b => (h5 b).trans ((or_congr isBlocked_block Iff.rfl).trans ?_)⟩
      change (s.IsBlocked b ∨ b = a) ∨ s.AllExecuted (s.action b) ∧ s.Reaches l b ↔ _
      rw [reaches_cons]
      by_cases hba : b = a
      · subst hba; simp [hb]
      · simp [hba, hn]

end

/-! ## The action that stops the worker -/

section
variable (ctx : Ctx δ τ) {s t : TaskScheduler δ τ} {n : ActionId}

/-- Only the action `n` was updated, and workers' own data. -/
structure Untouched (n : ActionId) (s t : TaskScheduler δ τ) : Prop where
  action : ∀ b ≠ n, t.action b = s.action b
  workers : t.workers = s.workers
  blockedActions : t.blockedActions = s.blockedActions

theorem untouched_local : Local (Untouched n s) n where
  action f _ := .modify fun t ht => ⟨fun b hb => by
    rw [setAction_action, if_neg hb]
    exact ht.action b hb, ht.workers, ht.blockedActions⟩
  resource _ _ := .modify fun _ ht => ⟨ht.action, ht.workers, ht.blockedActions⟩
  call _ := .modify fun _ ht => ⟨ht.action, ht.workers, ht.blockedActions⟩

/-- A worker action that is created and launched touches no other. -/
theorem newWorkerAction_untouched (kind : ActionKind τ) (w : WorkerId) (impl : Implementation τ) :
    Untouched s.nextId s (Java.final ((do
      let action ← newWorkerAction kind w
      launchWorkerAction ctx action w impl : M δ τ Unit) s)) := by
  refine launchWorkerAction_local ctx untouched_local w impl (created s (Action.new kind [] (some w)))
    ⟨fun b hb => ?_, rfl, rfl⟩
  exact (setAction_action ..).trans (if_neg hb)

end

/-! ## The reduction -/

section
variable (ctx : Ctx δ τ) {s : TaskScheduler δ τ} {w : WorkerId}

/-- The actions of the worker's queue that a reduction does not lose: they are
blocked, or are blocked now, or the worker keeps resources that can host them. -/
def KeepsQueue (s : TaskScheduler δ τ) (w : WorkerId) : Prop :=
  ∀ a ∈ (s.resource w).blocked, s.IsBlocked a ∨
    if ctx.ops.shouldBeStopped (s.resource w).myWorker then
      s.AllExecuted (s.action a) ∧ s.Reaches (s.resource w).blocked a
    else
      w ∈ s.workers ∧
        ∃ impl, (s.action a).selectedImpl = some impl ∧ ctx.ops.canRun (s.resource w).myWorker impl = true

/-- After a total reduction an action of the queue is assigned to a worker
that is gone; only the blocked ones are held somewhere. -/
theorem notLost_removed (hq : s.QueueWaits w) (hstop : ctx.ops.shouldBeStopped (s.resource w).myWorker = true)
    {a : ActionId} (ha : a ∈ (s.resource w).blocked) :
    NotLost ctx (Java.final (reducedWorkerResources ctx w s)) a ↔
      s.IsBlocked a ∨ s.AllExecuted (s.action a) ∧ s.Reaches (s.resource w).blocked a := by
  obtain ⟨hlt, -, hsel⟩ := hq a ha
  obtain ⟨u, hu⟩ : ∃ u : TaskScheduler δ τ, u = { s with workers := s.workers.filter (· ≠ w) } := ⟨_, rfl⟩
  have hswept : Swept u (u.resource w).blocked (Java.final (workerRemoved ctx w u)) := by
    rw [workerRemoved, Java.bind_ok (Java.get_run u)]
    refine forM_placeRemoved_swept ctx _ u fun b hb => ?_
    rw [hu] at hb ⊢
    exact (hq b hb).2.1
  have hrun : reducedWorkerResources ctx w s = (do
      workerRemoved ctx w
      let action ← newWorkerAction (.stopWorker w ⟨none, 0, ctx.ops.stopRequirements⟩) w
      launchWorkerAction ctx action w ⟨none, 0, ctx.ops.stopRequirements⟩ : M δ τ Unit) u := by
    rw [reducedWorkerResources, Java.bind_ok (Java.get_run s), if_pos hstop, Java.bind_ok (Java.modify_run _ s), hu]
  -- the stop action, if it comes to it, is another one
  have hfinal : ∀ t, t = Java.final (reducedWorkerResources ctx w s) →
      t.action a = s.action a ∧ t.workers = s.workers.filter (· ≠ w) ∧
        t.blockedActions = (Java.final (workerRemoved ctx w u)).blockedActions := by
    rintro t rfl
    rw [hrun]
    cases hr : workerRemoved ctx w u with
    | error e v =>
      rw [hr, Java.final_error] at hswept
      rw [Java.bind_error hr]
      exact ⟨by rw [Java.final_error, hswept.action, hu], by rw [Java.final_error, hswept.workers, hu], rfl⟩
    | ok _ v =>
      rw [hr, Java.final_ok] at hswept
      rw [Java.bind_ok hr]
      have hun := newWorkerAction_untouched ctx (s := v) (.stopWorker w ⟨none, 0, ctx.ops.stopRequirements⟩) w
        ⟨none, 0, ctx.ops.stopRequirements⟩
      have hne : a ≠ v.nextId := by rw [hswept.nextId, hu]; exact Nat.ne_of_lt hlt
      exact ⟨by rw [hun.action a hne, hswept.action, hu], by rw [hun.workers, hswept.workers, hu], hun.blockedActions⟩
  obtain ⟨h1, h2, h3⟩ := hfinal _ rfl
  have hnot : ¬ Hosted ctx (Java.final (reducedWorkerResources ctx w s)) a := by
    rintro ⟨v, hv, hsv, -⟩
    rw [h1, hsel] at hsv
    rw [h2, ← Option.some.inj hsv] at hv
    simp at hv
  rw [NotLost, IsBlocked, h1, h3]
  simp only [hnot, false_or]
  have hblk := hswept.isBlocked a
  rw [IsBlocked, hswept.action, hu] at hblk
  rw [hu]
  exact hblk

/-- **Shrinking a worker.** From a state where the queue of `w` holds actions
that wait for `w`, `reducedWorkerResources` loses none of them exactly when
each is blocked already, or, for a worker that is removed, is reached by the
walk over the queue and blocked then, or, for a worker that keeps resources,
can still be hosted there. -/
theorem reducedWorkerResources_keeps_iff (hq : s.QueueWaits w) :
    (∀ a ∈ (s.resource w).blocked, NotLost ctx (Java.final (reducedWorkerResources ctx w s)) a) ↔
      s.KeepsQueue ctx w := by
  refine forall_congr' fun a => forall_congr' fun ha => ?_
  by_cases hstop : ctx.ops.shouldBeStopped (s.resource w).myWorker = true
  · rw [notLost_removed ctx hq hstop ha, if_pos hstop]
  · have hrun : reducedWorkerResources ctx w s = .ok () s := by
      rw [reducedWorkerResources, Java.bind_ok (Java.get_run s), if_neg hstop]
      rfl
    obtain ⟨-, hwait, hsel⟩ := hq a ha
    rw [hrun, Java.final_ok, if_neg hstop, NotLost, or_comm]
    refine or_congr Iff.rfl ⟨?_, fun ⟨hw, himpl⟩ => ⟨w, hw, hsel, himpl, .inr ⟨hwait, ha⟩⟩⟩
    rintro ⟨v, hv, hsv, himpl, -⟩
    obtain rfl := Option.some.inj (hsel.symm.trans hsv)
    exact ⟨hv, himpl⟩

end

/-- Workers without limits for the core `0`; the description says whether the
worker is to be stopped. -/
def elastic : Ctx Bool Unit where
  dataLocality _ _ := 0
  averageExecutionTime _ _ := 0
  ops :=
    { canRunCore := fun _ c => c = 0
      canRun := fun _ _ => true
      canRunNow := fun _ _ => true
      runTask := fun d _ => (d, some ())
      endTask := fun d _ => d
      executableCores := fun d => if d then [] else [0]
      executableImpls := fun _ c => if c = 0 then [⟨some c, 0, ()⟩] else []
      shouldBeStopped := fun d => d
      startRequirements := fun _ => ()
      stopRequirements := () }
  coreImplementations c := if c = 0 then [()] else []

/-- Two workers that run the core `0`; an action waits on the worker `0`, which
may be about to stop. -/
def pool (stopped : Bool) : TaskScheduler Bool Unit where
  nextId := 1
  action _ := { Action.new (.execution 0 0 false) [] none with
    state := .waiting, selectedResource := some 0, selectedImpl := some ⟨some 0, 0, ()⟩ }
  resource w := ⟨w = 0 && stopped, none, [], if w = 0 then [0] else []⟩
  workers := [0, 1]
  coreToWorkers c := if c = 0 then (if stopped then [1] else [0, 1]) else []
  blockedActions := .empty
  readyCounts c := if c = 0 then 1 else 0
  calls := []
  lost := []

theorem queueWaits_pool (stopped : Bool) : (pool stopped).QueueWaits 0 := by
  intro a ha
  obtain rfl := List.mem_singleton.mp (show a ∈ [0] from ha)
  exact ⟨Nat.zero_lt_one, rfl, rfl⟩

/-- A worker that keeps resources keeps its action. -/
theorem reducedWorkerResources_keeps_iff_partial :
    (∀ a ∈ ((pool false).resource 0).blocked,
      NotLost elastic (Java.final (reducedWorkerResources elastic 0 (pool false))) a) ↔
      (pool false).KeepsQueue elastic 0 :=
  reducedWorkerResources_keeps_iff elastic (queueWaits_pool false)

/-- The worker is removed: its action goes on waiting for it, and the other
worker, which could run it, never gets it. -/
theorem waiting_left_behind : (pool true).QueueWaits 0 ∧ ¬ ∀ a ∈ ((pool true).resource 0).blocked,
    NotLost elastic (Java.final (reducedWorkerResources elastic 0 (pool true))) a := by
  refine ⟨queueWaits_pool true, fun h => ?_⟩
  rcases h 0 (by decide) with ⟨w, hw, hsel, -⟩ | hb
  · obtain rfl : 0 = w := Option.some.inj hsel
    exact absurd hw (by decide)
  · exact absurd hb (by decide)

end TaskScheduler

end Compss.Scheduler
