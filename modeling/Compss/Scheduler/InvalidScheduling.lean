/-
A launch that finds its action on the wrong worker: `tryToLaunch` schedules it
once more, and leaves it there.

`errorOnAction` and the other callers of `scheduleAction` launch what they have
scheduled. The handler of `InvalidSchedulingException` does not, so that the
action it has placed stays `RUNNABLE` on its new worker; only an action that no
worker is left for is blocked, and found again.
-/
import Compss.Scheduler.QueueMoves

namespace Compss.Scheduler

open Lib

variable {δ τ : Type}

namespace TaskScheduler

section
variable (ctx : Ctx δ τ) {s t u : TaskScheduler δ τ} {a : ActionId} {w : WorkerId}

theorem reserveResources_error {e : Thrown} (h : reserveResources ctx w a s = .error e u) : e = .nullPointer := by
  rw [reserveResources, Java.bind_ok (Java.get_run s)] at h
  split at h
  · cases hi : (s.action a).selectedImpl with
    | none =>
      simp only [hi] at h
      cases h
      rfl
    | some impl =>
      simp only [hi] at h
      cases h
  · cases h

theorem run_error {e : Thrown} (h : run ctx w a s = .error e u) : e = .nullPointer := by
  rw [run, Java.bind_ok (modifyAction_run ..)] at h
  cases hr : reserveResources ctx w a (s.setAction a { s.action a with state := .running }) with
  | ok r v =>
    rw [Java.bind_ok hr] at h
    cases h
  | error e' v =>
    rw [Java.bind_error hr] at h
    cases h
    exact reserveResources_error ctx hr

/-- Only an action without an implementation makes `execute` raise. -/
theorem execute_error {e : Thrown} (h : execute ctx w a s = .error e u) : e = .nullPointer := by
  cases hi : (s.action a).selectedImpl with
  | some impl =>
    rw [execute_eq ctx hi] at h
    cases h
  | none =>
    rw [execute, Java.bind_ok (Java.get_run s)] at h
    by_cases hk : (s.action a).isToReserveResources = true
    · have harea : areEnoughResources ctx w a s = .error .nullPointer s := by
        rw [areEnoughResources, Java.bind_ok (Java.get_run s)]
        simp only [hi]
        rfl
      rw [if_pos hk, Java.bind_error harea] at h
      cases h
      rfl
    · rw [if_neg hk, Java.bind_ok (Java.pure_run _ _)] at h
      simp only [hk, Bool.not_false, Bool.true_or, if_true] at h
      rw [Java.bind_ok (modifyAction_run ..)] at h
      exact run_error ctx h

/-- The exception is raised before anything has changed, on an action that has
not been launched. -/
theorem tryToLaunchAction_invalid (h : tryToLaunchAction ctx a s = .error .invalidScheduling u) :
    u = s ∧ (s.action a).state = .runnable := by
  by_cases hc : (s.action a).state = .runnable ∧ (s.action a).hasDataPredecessors = false
  · cases hw : (s.action a).selectedResource with
    | none =>
      rw [tryToLaunchAction_none ctx hw] at h
      cases h
    | some w =>
      rw [tryToLaunchAction_eq ctx hw hc] at h
      split at h
      · cases h
        exact ⟨rfl, hc.1⟩
      · cases execute_error ctx h
  · rw [tryToLaunchAction_skip ctx hc] at h
    cases h

/-- The action runs, waits on its worker or is among the blocked ones. -/
def Kept (s : TaskScheduler δ τ) (a : ActionId) : Prop :=
  (s.action a).state = .running ∨ (s.action a).state = .waiting ∨ s.IsBlocked a

/-- A placement blocks nothing. -/
theorem Placed.isBlocked (ht : Placed s a t) : t.IsBlocked a ↔ s.IsBlocked a := by
  obtain ⟨y, lost, hy, rfl⟩ := ht
  have hcore : y.coreId = (s.action a).coreId := by rw [Action.coreId, hy.alike.kind, Action.coreId]
  simp [IsBlocked, hcore]

/-- A placed action is `RUNNABLE` as before. -/
theorem not_kept_of_placed (ht : Placed s a t) (hs : (s.action a).state = .runnable) (hb : ¬ s.IsBlocked a) :
    ¬ t.Kept a := by
  have hblocked := ht.isBlocked
  obtain ⟨y, lost, hy, rfl⟩ := ht
  have hstate : (({ s.setAction a y with lost := lost } : TaskScheduler δ τ).action a).state = .runnable := by
    rw [show TaskScheduler.action { s.setAction a y with lost := lost } a = y by simp, hy.state_eq, hs]
  rintro (h | h | h)
  · rw [hstate] at h
    cases h
  · rw [hstate] at h
    cases h
  · exact hb (hblocked.mp h)

/-- An invalid scheduling keeps the action exactly when it is blocked already or
no worker is left for it. -/
theorem tryToLaunch_kept_iff (hraise : tryToLaunchAction ctx a s = .error .invalidScheduling u)
    (hreturn : tryToLaunch ctx a s = .ok () t) : t.Kept a ↔ s.IsBlocked a ∨ s.AllExecuted (s.action a) := by
  obtain ⟨rfl, hrun⟩ := tryToLaunchAction_invalid ctx hraise
  rw [tryToLaunch, Java.tryCatch_error hraise, if_pos rfl] at hreturn
  by_cases hall : u.AllExecuted (u.action a)
  · rw [Java.tryCatch_error ((Java.bind_ok (Java.get_run u)).trans (scheduleAction_blocked ctx hall)), if_pos rfl] at hreturn
    cases hreturn
    have hb : (block u a).IsBlocked a := isBlocked_block.mpr (.inr rfl)
    exact ⟨fun _ => .inr hall, fun _ => .inr (.inr hb)⟩
  · rcases scheduleAction_cases ctx (u.action a).actionScore hall with ⟨v, hr, hv⟩ | ⟨hr, -⟩
    · rw [Java.tryCatch_ok ((Java.bind_ok (Java.get_run u)).trans hr)] at hreturn
      cases hreturn
      constructor
      · intro hk
        by_contra hn
        exact not_kept_of_placed hv hrun (fun hb => hn (.inl hb)) hk
      · rintro (hb | h)
        · exact .inr (.inr (hv.isBlocked.mpr hb))
        · exact absurd h hall
    · rw [Java.tryCatch_error ((Java.bind_ok (Java.get_run u)).trans hr), if_neg (by decide)] at hreturn
      cases hreturn

end

/-! ## A constraining predecessor that has moved -/

/-- The execution `0` has been run again on the worker `0`, after an error on the
worker `1`, where the execution `1`, which has to run with it, is assigned. -/
def migrated : TaskScheduler Nat Unit :=
  { (initial [0, 1] (fun _ => 1) (fun _ => none) fun c => if c = 0 then [0, 1] else [] : TaskScheduler Nat Unit) with
    nextId := 2
    action := fun a =>
      if a = 0 then
        { Action.new (.execution 0 0 false) [] none with
          state := .finished, selectedResource := some 0, selectedImpl := some ⟨some 0, 0, ()⟩,
          executingResources := [1, 0] }
      else
        { Action.new (.execution 0 0 false) [0] none with
          selectedResource := some 1, selectedImpl := some ⟨some 0, 0, ()⟩ }
    readyCounts := fun c => if c = 0 then 1 else 0 }

theorem migrated_raises :
    tryToLaunchAction Chronicle.slots 1 migrated = .error .invalidScheduling migrated := rfl

theorem tryToLaunch_kept_iff_migrated :
    (Java.final (tryToLaunch Chronicle.slots 1 migrated)).Kept 1 ↔
      migrated.IsBlocked 1 ∨ migrated.AllExecuted (migrated.action 1) :=
  tryToLaunch_kept_iff Chronicle.slots migrated_raises rfl

/-- The execution is assigned the worker `0`, and nothing launches it. -/
theorem migrated_lost : ¬ ∀ (s t u : TaskScheduler Nat Unit) (a : ActionId),
    tryToLaunchAction Chronicle.slots a s = .error .invalidScheduling u →
    tryToLaunch Chronicle.slots a s = .ok () t → t.Kept a := by
  intro h
  have hkept := h migrated (Java.final (tryToLaunch Chronicle.slots 1 migrated)) migrated 1 migrated_raises rfl
  have hstate : ((Java.final (tryToLaunch Chronicle.slots 1 migrated)).action 1).state = .runnable := rfl
  rcases hkept with hk | hk | hk
  · rw [hstate] at hk
    cases hk
  · rw [hstate] at hk
    cases hk
  · exact absurd hk (by decide)

end TaskScheduler

end Compss.Scheduler
