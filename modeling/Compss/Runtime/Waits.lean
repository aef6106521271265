/-
Waits of the main program for a datum: which of them are released before the task
that had written the datum last is over.

The semaphore of a wait is released at once when the table of last writers has no
task for the datum, or when the status of that task is `FINISHED`; otherwise with
the end of the task. Neither of the first two says that the task is over: an
earlier wait in mode `RW` may have taken it out of the table, and any one of its
executions sets its status.
-/
import Compss.Runtime.Launches

namespace Compss.Runtime

open Lib
open Scheduler (ActionState)

/-- The semaphore of a wait for a datum. -/
def APRequest.waitSem? : APRequest → Option SemaphoreId
  | .waitForTask _ _ sem => some sem
  | .analyseTask _ | .taskEnd _ | .barrier .. | .endOfApp .. | .registerDataAccess .. => none

namespace TaskAnalyser

/-- The waits stay as they are. -/
structure WaitsKept (a b : TaskAnalyser) : Prop where
  waitedTasks : b.waitedTasks = a.waitedTasks
  released : ∀ sem, .datum sem ∈ b.released ↔ .datum sem ∈ a.released

section
variable {a b c : TaskAnalyser} {t : TaskId} {sem : SemaphoreId}

theorem WaitsKept.refl (a : TaskAnalyser) : WaitsKept a a := ⟨rfl, fun _ => Iff.rfl⟩

theorem WaitsKept.aside (h : WaitsKept a b) (hbc : Aside b c) : WaitsKept a c where
  waitedTasks := hbc.waitedTasks.trans h.waitedTasks
  released sem := by
    rw [hbc.released]
    exact h.released sem

theorem stopped_waitsKept (a : TaskAnalyser) (appId : AppId) (sem : SemaphoreId) : WaitsKept a (stopped a appId sem) := by
  unfold stopped
  split
  · exact ⟨rfl, fun _ => by simp⟩
  · exact ⟨rfl, fun _ => Iff.rfl⟩

/-- The end of a task releases the waits for it, and no others. -/
theorem waitsReleased_countedEnd_released (a : TaskAnalyser) (appId : AppId) (count : Int) :
    .datum sem ∈ (waitsReleased (countedEnd a appId count) t).released ↔
      (∃ sems, a.waitedTasks t = some sems ∧ sem ∈ sems) ∨ .datum sem ∈ a.released := by
  have hwaited : (countedEnd a appId count).waitedTasks = a.waitedTasks := by
    obtain ⟨_, _, _, _, he⟩ := countedEnd_eq a appId count
    rw [he]
  have happs : .datum sem ∉ (if count = 0 then (a.appIdToSemaphore appId).toList.map (Release.application appId) else []) := by
    split
    · simp
    · exact List.not_mem_nil
  unfold waitsReleased
  simp only [List.mem_append, hwaited, countedEnd_released]
  rw [or_iff_right happs]
  cases a.waitedTasks t with
  | none => simp
  | some sems => simp

theorem waitsReleased_countedEnd_waitedTasks (a : TaskAnalyser) (appId : AppId) (count : Int) (t : TaskId) :
    (waitsReleased (countedEnd a appId count) t).waitedTasks = Function.update a.waitedTasks t none := by
  obtain ⟨_, _, _, _, he⟩ := countedEnd_eq a appId count
  rw [waitsReleased, he]

end

end TaskAnalyser

namespace AccessProcessor

/-- The semaphores of the waits, of those processed first. -/
def waitSems (s : AccessProcessor) : List SemaphoreId :=
  s.awaited.map Prod.fst ++ s.requests.filterMap APRequest.waitSem?

/-- A wait that has been released waited for a task that is over, or for none. -/
def ReleasedInTime (s : AccessProcessor) : Prop :=
  ∀ sem w, (sem, some w) ∈ s.awaited → .datum sem ∈ s.analyser.released → s.Over w

/-- The datum the next request waits for. -/
def waitedFor (s : AccessProcessor) : Option Nat :=
  match s.requests with
  | .waitForTask dataId _ _ :: _ => some dataId
  | .analyseTask _ :: _ | .taskEnd _ :: _ | .barrier .. :: _ | .endOfApp .. :: _ | .registerDataAccess .. :: _ | [] => none

/-- A last writer that is not in the table any more, or has the status `FINISHED`,
is over when a wait for its datum is processed. -/
def WaitsForPending (s : AccessProcessor) (l : Label) : Prop :=
  l.processes = true → ∀ d ∈ s.waitedFor, ∀ w ∈ lastWriter s.analyser d,
    s.analyser.writer d = none ∨ (s.analyser.task w).status = .finished → s.Over w

/-- The waits registered for a task are for that task, and no two waits have one
semaphore. -/
structure Waiting (s : AccessProcessor) : Prop where
  linked : TaskAnalyser.Linked (fun _ => True) s.analyser
  made : ∀ sem ∈ s.waitSems, sem < s.nextSemaphore
  nodup : s.waitSems.Nodup
  released : ∀ sem, .datum sem ∈ s.analyser.released → sem ∈ s.awaited.map Prod.fst
  waited : ∀ t sems, s.analyser.waitedTasks t = some sems → ∀ sem ∈ sems, (sem, some t) ∈ s.awaited
  inTime : s.ReleasedInTime

section
variable {s s' : AccessProcessor} {t u w : TaskId} {e : ExecutionId} {sem : SemaphoreId} {d : Nat} {drawGraph : Bool}
  {l : Label} {env : TransferEnv} {fuel : Nat} {r : APRequest} {rs : List APRequest}

theorem init_waiting : Waiting init where
  linked := init_linked
  made sem hm := (List.not_mem_nil hm).elim
  nodup := .nil
  released sem hm := (List.not_mem_nil hm).elim
  waited t sems hs := (by cases hs)
  inTime sem w hm := (List.not_mem_nil hm).elim

/-- A processed wait has one last writer. -/
theorem Waiting.awaited_unique (h : Waiting s) (ht : (sem, some t) ∈ s.awaited) (hw : (sem, some w) ∈ s.awaited) : t = w := by
  have hnodup := (List.nodup_append.mp h.nodup).1
  exact Option.some.inj (congrArg Prod.snd (List.inj_on_of_nodup_map hnodup ht hw rfl))

/-! ## Steps without a request -/

/-- A wait that is offered brings a new semaphore. -/
theorem step_waitSems (hl : l.processes = false) (hstep : s.step drawGraph l = some s') :
    s'.waitSems = s.waitSems ∧ s.nextSemaphore ≤ s'.nextSemaphore ∨
      s'.waitSems = s.waitSems ++ [s.nextSemaphore] ∧ s'.nextSemaphore = s.nextSemaphore + 1 := by
  have hoffer : ∀ r : APRequest, r.waitSem? = none → (s.offer r).waitSems = s.waitSems := by
    intro r hr
    simp [waitSems, offer, hr]
  cases l with
  | newTask =>
    simp only [step] at hstep
    split at hstep
    · cases hstep
      exact .inl ⟨hoffer (.analyseTask s.nextTask) rfl, Nat.le_refl _⟩
    · cases hstep
  | waitForTask dataId am =>
    cases hstep
    exact .inr ⟨by simp [waitSems, offer, APRequest.waitSem?], rfl⟩
  | barrier appId =>
    cases hstep
    exact .inl ⟨hoffer _ rfl, Nat.le_succ _⟩
  | noMoreTasks appId =>
    cases hstep
    exact .inl ⟨hoffer _ rfl, Nat.le_succ _⟩
  | registerDataAccess am ref =>
    cases hstep
    exact .inl ⟨hoffer _ rfl, Nat.le_refl _⟩
  | process => cases hl
  | executeTask workers =>
    simp only [step] at hstep
    split at hstep
    · cases hstep
    · split at hstep
      · cases hstep
        exact .inl ⟨rfl, Nat.le_refl _⟩
      · cases hstep
  | launch e =>
    simp only [step] at hstep
    split at hstep
    · cases hstep
      obtain ⟨id, group, he⟩ := doAction_eq s e
      rw [he]
      exact .inl ⟨rfl, Nat.le_refl _⟩
    · cases hstep
  | completed | error | failed | doFailed =>
    simp only [step] at hstep
    split at hstep
    · cases hstep
      exact .inl ⟨rfl, Nat.le_refl _⟩
    · cases hstep
  | dispatch =>
    simp only [step] at hstep
    split at hstep
    · cases hstep
    · next i is htodo =>
      cases hstep
      cases i with
      | notifyTaskEnd e => exact .inl ⟨hoffer (.taskEnd (s.execution e).task) rfl, Nat.le_refl _⟩
      | decreaseExecutionCount | setStatus | releaseSuccessors => exact .inl ⟨rfl, Nat.le_refl _⟩

theorem Waiting.unprocessed (h : Waiting s) (hc : Consistent s) (hl : l.processes = false)
    (hstep : s.step drawGraph l = some s') : Waiting s' := by
  have hu : Unprocessed s s' := by
    obtain hu | ⟨env, fuel, r, rs, rfl, -⟩ := (hc.move hstep).unprocessed
    · exact hu
    · cases hl
  have hsems := step_waitSems hl hstep
  refine ⟨hc.linked_step h.linked (fun _ _ => trivial) (fun _ _ _ _ _ _ _ _ _ => trivial) hstep, ?_, ?_, ?_, ?_, ?_⟩
  · intro sem hm
    obtain ⟨heq, hle⟩ | ⟨heq, hnext⟩ := hsems
    · exact Nat.lt_of_lt_of_le (h.made sem (heq ▸ hm)) hle
    · rw [heq] at hm
      rw [hnext]
      obtain hm | hm := List.mem_append.mp hm
      · exact Nat.lt_succ_of_lt (h.made sem hm)
      · exact List.mem_singleton.mp hm ▸ Nat.lt_succ_self _
  · obtain ⟨heq, -⟩ | ⟨heq, -⟩ := hsems
    · rw [heq]
      exact h.nodup
    · rw [heq]
      refine List.nodup_append.mpr ⟨h.nodup, List.nodup_singleton _, ?_⟩
      rintro sem hm _ hm' rfl
      exact Nat.lt_irrefl _ (List.mem_singleton.mp hm' ▸ h.made sem hm)
  · rw [hu.released, hu.awaited]
    exact h.released
  · rw [hu.waitedTasks, hu.awaited]
    exact h.waited
  · intro sem w
    rw [hu.released, hu.awaited]
    exact fun hm hr => hc.over_step hstep (h.inTime sem w hm hr)

/-! ## Requests -/

/-- A request leaves the waits alone, unless it is a wait or the end of a task that is
free. -/
theorem process_waitsKept (hr : ∀ d am sem, r ≠ .waitForTask d am sem) (a : TaskAnalyser)
    (hend : ∀ t, r = .taskEnd t → (a.task t).isFree = false) :
    TaskAnalyser.WaitsKept a (Java.final (r.process drawGraph env fuel a)) := by
  cases r with
  | analyseTask t =>
    have h : TaskAnalyser.WaitsKept a (TaskAnalyser.counted a t) := ⟨rfl, fun _ => Iff.rfl⟩
    exact h.aside (TaskAnalyser.processTask_aside drawGraph t a)
  | taskEnd t =>
    change TaskAnalyser.WaitsKept a (Java.final (TaskAnalyser.endTask env fuel t a))
    rw [TaskAnalyser.endTask_notFree (hend t rfl)]
    exact .refl a
  | waitForTask d am sem => exact (hr d am sem rfl).elim
  | barrier appId sem =>
    obtain h | h := TaskAnalyser.barrier_aside drawGraph appId sem a
    · exact (TaskAnalyser.WaitsKept.refl a).aside h
    · exact (TaskAnalyser.stopped_waitsKept a appId sem).aside h
  | endOfApp appId sem => exact (TaskAnalyser.stopped_waitsKept a appId sem).aside (TaskAnalyser.noMoreTasks_aside appId sem a)
  | registerDataAccess am ref =>
    exact (TaskAnalyser.WaitsKept.refl a).aside (Java.Keeps.final_bind (TaskAnalyser.onDip_aside _ a (.refl a)) fun _ => .pure _)

/-- What a request that is no wait does to the record of the waits. -/
theorem process_awaited (hrs : s.requests = r :: rs) (hr : ∀ d am sem, r ≠ .waitForTask d am sem)
    (hp : s.process drawGraph env fuel r rs = some s') :
    s'.awaited = s.awaited ∧ s'.waitSems = s.waitSems ∧ s'.nextSemaphore = s.nextSemaphore := by
  obtain ⟨submitted, raised, rfl, -, -⟩ := process_cases hp
  have hnone : r.waitSem? = none := by
    cases r with
    | waitForTask d am sem => exact (hr d am sem rfl).elim
    | analyseTask | taskEnd | barrier | endOfApp | registerDataAccess => rfl
  have hawaited : (s.processed r rs (Java.final (r.process drawGraph env fuel s.analyser))).awaited = s.awaited := by
    cases r with
    | waitForTask d am sem => exact (hr d am sem rfl).elim
    | analyseTask | taskEnd | barrier | endOfApp | registerDataAccess => rfl
  refine ⟨hawaited, ?_, rfl⟩
  change (s.processed r rs (Java.final (r.process drawGraph env fuel s.analyser))).awaited.map Prod.fst ++
    rs.filterMap APRequest.waitSem? = _
  rw [hawaited, waitSems, hrs, List.filterMap_cons, hnone]

/-- A request that is no wait, and releases at most the waits for tasks that are over. -/
theorem Waiting.process (h : Waiting s) (hc : Consistent s) (hrs : s.requests = r :: rs)
    (hr : ∀ d am sem, r ≠ .waitForTask d am sem) (hstep : s.step drawGraph (.process env fuel) = some s')
    (hp : s.process drawGraph env fuel r rs = some s')
    (hkept : ∀ t sems, s'.analyser.waitedTasks t = some sems → s.analyser.waitedTasks t = some sems)
    (hreleased : ∀ sem, .datum sem ∈ s'.analyser.released →
      .datum sem ∈ s.analyser.released ∨ ∃ t sems, s.Over t ∧ s.analyser.waitedTasks t = some sems ∧ sem ∈ sems) :
    Waiting s' := by
  obtain ⟨hawaited, hsems, hnext⟩ := process_awaited hrs hr hp
  refine ⟨hc.linked_step h.linked (fun _ _ => trivial) (fun _ _ _ _ _ _ _ _ _ => trivial) hstep, ?_, ?_, ?_, ?_, ?_⟩
  · rw [hsems, hnext]
    exact h.made
  · rw [hsems]
    exact h.nodup
  · intro sem hm
    rw [hawaited]
    obtain hm | ⟨t, sems, -, ht, hsem⟩ := hreleased sem hm
    · exact h.released sem hm
    · exact List.mem_map_of_mem (f := Prod.fst) (h.waited t sems ht sem hsem)
  · intro t sems ht
    rw [hawaited]
    exact h.waited t sems (hkept t sems ht)
  · intro sem w hm hrel
    rw [hawaited] at hm
    refine hc.over_step hstep ?_
    obtain hrel | ⟨t, sems, ho, ht, hsem⟩ := hreleased sem hrel
    · exact h.inTime sem w hm hrel
    · exact h.awaited_unique (h.waited t sems ht sem hsem) hm ▸ ho

/-- The end of a task. -/
theorem Waiting.taskEnd (h : Waiting s) (hc : Consistent s) (hrs : s.requests = .taskEnd t :: rs)
    (hstep : s.step drawGraph (.process env fuel) = some s') (hp : s.process drawGraph env fuel (.taskEnd t) rs = some s') :
    Waiting s' := by
  obtain ⟨-, ha⟩ := process_takes hrs hp
  have hwait : ∀ d am sem, APRequest.taskEnd t ≠ .waitForTask d am sem := fun _ _ _ => APRequest.noConfusion
  change s'.analyser = Java.final (TaskAnalyser.endTask env fuel t s.analyser) at ha
  have same : s'.analyser.waitedTasks = s.analyser.waitedTasks → s'.analyser.released = s.analyser.released → Waiting s' :=
    fun hw hrel => h.process hc hrs hwait hstep hp (fun u sems hu => hw ▸ hu) fun sem hm => .inl (hrel ▸ hm)
  cases hfree : (s.analyser.task t).isFree with
  | false =>
    rw [TaskAnalyser.endTask_notFree hfree, Java.final_ok] at ha
    exact same (by rw [ha]) (by rw [ha])
  | true =>
    by_cases hf : (s.analyser.task t).status = .failed
    · rw [TaskAnalyser.endTask_failed hfree hf, Java.final_ok] at ha
      exact same (by rw [ha]) (by rw [ha])
    · rw [TaskAnalyser.endTask_free hfree hf] at ha
      obtain ⟨-, he⟩ | ⟨count, -, he⟩ := TaskAnalyser.treatEnd_aside env fuel t s.analyser
      · rw [he] at ha
        exact same (by rw [ha]) (by rw [ha])
      · rw [← ha] at he
        have ho : s.Over t := (hc.over_iff (hc.notified t (hrs ▸ List.mem_cons_self))).mpr hfree
        refine h.process hc hrs hwait hstep hp (fun u sems hu => ?_) fun sem hm => ?_
        · rw [he.waitedTasks, TaskAnalyser.waitsReleased_countedEnd_waitedTasks, Function.update_apply] at hu
          split at hu
          · cases hu
          · exact hu
        · rw [he.released, TaskAnalyser.waitsReleased_countedEnd_released] at hm
          exact hm.symm.imp_right fun ⟨sems, hs, hmem⟩ => ⟨t, sems, ho, hs, hmem⟩

/-! ## Waits -/

/-- What a wait leaves behind. -/
structure Waited (s s' : AccessProcessor) (d : Nat) (sem : SemaphoreId) : Prop where
  awaited : s'.awaited = (sem, lastWriter s.analyser d) :: s.awaited
  waitSems : s'.waitSems = sem :: s.awaited.map Prod.fst ++ s'.requests.filterMap APRequest.waitSem?
  nextSemaphore : s'.nextSemaphore = s.nextSemaphore
  waitedTasks : s'.analyser.waitedTasks = (TaskAnalyser.foundWaited s.analyser d sem).waitedTasks
  released : s'.analyser.released = (TaskAnalyser.foundWaited s.analyser d sem).released
  isOver : ∀ t, s'.Over t ↔ s.Over t

theorem process_waited {am : AccessMode} (hrs : s.requests = .waitForTask d am sem :: rs)
    (hp : s.process drawGraph env fuel (.waitForTask d am sem) rs = some s') : Waited s s' d sem := by
  obtain ⟨htake, ha⟩ := process_takes hrs hp
  change s'.analyser = Java.final (TaskAnalyser.findWaitedTask drawGraph d am sem s.analyser) at ha
  have haside := TaskAnalyser.findWaitedTask_aside drawGraph d am sem s.analyser
  rw [← ha] at haside
  obtain ⟨submitted, raised, rfl, -, -⟩ := process_cases hp
  exact ⟨rfl, rfl, rfl, haside.waitedTasks, haside.released, htake.isOver⟩

/-- The wait is over at once, or waits for the last writer. -/
theorem foundWaited_cases (a : TaskAnalyser) (d : Nat) (sem : SemaphoreId) :
    (a.writer d = none ∨ ∃ w, a.writer d = some w ∧ (a.task w).status = .finished) ∧
        (TaskAnalyser.foundWaited a d sem).waitedTasks = a.waitedTasks ∧
        (TaskAnalyser.foundWaited a d sem).released = .datum sem :: a.released ∨
      ∃ w, a.writer d = some w ∧ (a.task w).status ≠ .finished ∧
        (TaskAnalyser.foundWaited a d sem).waitedTasks =
          Function.update a.waitedTasks w (some ((a.waitedTasks w).getD [] ++ [sem])) ∧
        (TaskAnalyser.foundWaited a d sem).released = a.released := by
  unfold TaskAnalyser.foundWaited
  cases hw : a.writer d with
  | none => exact .inl ⟨.inl rfl, rfl, rfl⟩
  | some w =>
    dsimp only
    by_cases hst : (a.task w).status = .finished
    · rw [if_pos hst]
      exact .inl ⟨.inr ⟨w, rfl, hst⟩, rfl, rfl⟩
    · rw [if_neg hst]
      exact .inr ⟨w, rfl, hst, rfl, rfl⟩

theorem Waiting.wait (h : Waiting s) (hc : Consistent s) {am : AccessMode} (hrs : s.requests = .waitForTask d am sem :: rs)
    (hl : s.WaitsForPending (.process env fuel)) (hstep : s.step drawGraph (.process env fuel) = some s')
    (hp : s.process drawGraph env fuel (.waitForTask d am sem) rs = some s') : Waiting s' := by
  have hwaited := process_waited hrs hp
  have hover : ∀ w, lastWriter s.analyser d = some w →
      s.analyser.writer d = none ∨ (s.analyser.task w).status = .finished → s.Over w :=
    hl rfl d (by rw [waitedFor, hrs]; rfl)
  have hperm : s'.waitSems.Perm s.waitSems := by
    rw [hwaited.waitSems, waitSems, hrs, (process_takes hrs hp).1.requests.symm.trans hrs |> List.cons.inj |>.2]
    exact List.perm_middle.symm
  have hnodup := hperm.nodup_iff.mpr h.nodup
  have hfresh : sem ∉ s.awaited.map Prod.fst := by
    rw [hwaited.waitSems, List.cons_append] at hnodup
    exact fun hm => (List.nodup_cons.mp hnodup).1 (List.mem_append_left _ hm)
  have hmem : ∀ e ∈ s.awaited, e ∈ s'.awaited := fun e he => hwaited.awaited ▸ List.mem_cons_of_mem _ he
  refine ⟨hc.linked_step h.linked (fun _ _ => trivial) (fun _ _ _ _ _ _ _ _ _ => trivial) hstep, ?_, hnodup, ?_, ?_, ?_⟩
  · intro x hx
    rw [hwaited.nextSemaphore]
    exact h.made x (hperm.mem_iff.mp hx)
  · intro x hx
    rw [hwaited.awaited]
    rw [hwaited.released] at hx
    obtain ⟨-, -, hrel⟩ | ⟨w, -, -, -, hrel⟩ := foundWaited_cases s.analyser d sem
    · rw [hrel] at hx
      obtain hx | hx := List.mem_cons.mp hx
      · cases hx
        exact List.mem_cons_self
      · exact List.mem_cons_of_mem _ (h.released x hx)
    · rw [hrel] at hx
      exact List.mem_cons_of_mem _ (h.released x hx)
  · intro t sems ht x hx
    rw [hwaited.waitedTasks] at ht
    obtain ⟨-, hw, -⟩ | ⟨w, hwriter, -, hw, -⟩ := foundWaited_cases s.analyser d sem
    · rw [hw] at ht
      exact hmem _ (h.waited t sems ht x hx)
    · rw [hw, Function.update_apply] at ht
      split at ht
      · next htw =>
        cases ht
        obtain hx | hx := List.mem_append.mp hx
        · cases hold : s.analyser.waitedTasks w with
          | none =>
            rw [hold] at hx
            exact (List.not_mem_nil hx).elim
          | some sems =>
            rw [hold] at hx
            exact htw ▸ hmem _ (h.waited w sems hold x hx)
        · -- The new wait, for the last writer.
          rw [List.mem_singleton.mp hx, htw, hwaited.awaited, h.linked.last d w hwriter]
          exact List.mem_cons_self
      · exact hmem _ (h.waited t sems ht x hx)
  · intro x w hm hrel
    rw [hwaited.isOver]
    rw [hwaited.released] at hrel
    rw [hwaited.awaited] at hm
    obtain ⟨hnow, -, hreleased⟩ | ⟨w', -, -, -, hreleased⟩ := foundWaited_cases s.analyser d sem
    · rw [hreleased] at hrel
      obtain hm | hm := List.mem_cons.mp hm
      · obtain ⟨-, hw⟩ := Prod.mk.inj hm
        refine hover w hw.symm (hnow.imp_right ?_)
        rintro ⟨w', hwriter, hst⟩
        obtain rfl : w = w' := Option.some.inj (hw.trans (h.linked.last d w' hwriter))
        exact hst
      · obtain hx | hx := List.mem_cons.mp hrel
        · cases hx
          exact (hfresh (List.mem_map_of_mem (f := Prod.fst) hm)).elim
        · exact h.inTime x w hm hx
    · rw [hreleased] at hrel
      obtain hm | hm := List.mem_cons.mp hm
      · exact (hfresh ((Prod.mk.inj hm).1 ▸ h.released x hrel)).elim
      · exact h.inTime x w hm hrel

theorem Waiting.step (h : Waiting s) (hc : Consistent s) (hl : s.WaitsForPending l) (hstep : s.step drawGraph l = some s') :
    Waiting s' := by
  cases hlp : l.processes with
  | false => exact h.unprocessed hc hlp hstep
  | true =>
    obtain ⟨env, fuel, rfl⟩ : ∃ env fuel, l = .process env fuel := by
      cases l with
      | process env fuel => exact ⟨env, fuel, rfl⟩
      | newTask | waitForTask | barrier | noMoreTasks | registerDataAccess | executeTask | launch | completed | error
      | failed | doFailed | dispatch => cases hlp
    have hp := hstep
    simp only [AccessProcessor.step] at hp
    split at hp
    · cases hp
    · next r rs hrs =>
      cases r with
      | waitForTask d am sem => exact h.wait hc hrs hl hstep hp
      | taskEnd t => exact h.taskEnd hc hrs hstep hp
      | analyseTask | barrier | endOfApp | registerDataAccess =>
        have hkept : TaskAnalyser.WaitsKept s.analyser s'.analyser := by
          rw [(process_takes hrs hp).2]
          refine process_waitsKept ?_ s.analyser ?_
          · exact fun _ _ _ => APRequest.noConfusion
          · exact fun _ => APRequest.noConfusion
        refine h.process hc hrs (fun _ _ _ => APRequest.noConfusion) hstep hp (fun t sems ht => ?_) fun sem hm => ?_
        · rw [hkept.waitedTasks] at ht
          exact ht
        · exact .inl ((hkept.released sem).mp hm)

/-- A wait for a last writer that is pending, and has a status or an entry that is not, is released
too early. -/
theorem Waiting.early (h : Waiting s) (hl : ¬ s.WaitsForPending l) (hstep : s.step drawGraph l = some s') :
    ¬ s'.ReleasedInTime := by
  unfold WaitsForPending at hl
  push Not at hl
  obtain ⟨hlp, d, hd, w, hw, hnow, hnot⟩ := hl
  obtain ⟨env, fuel, rfl⟩ : ∃ env fuel, l = .process env fuel := by
    cases l with
    | process env fuel => exact ⟨env, fuel, rfl⟩
    | newTask | waitForTask | barrier | noMoreTasks | registerDataAccess | executeTask | launch | completed | error
    | failed | doFailed | dispatch => cases hlp
  obtain ⟨am, sem, rs, hrs⟩ : ∃ am sem rs, s.requests = .waitForTask d am sem :: rs := by
    unfold waitedFor at hd
    split at hd
    · next dataId am sem rs hrs =>
      cases hd
      exact ⟨am, sem, rs, hrs⟩
    all_goals cases hd
  have hp : s.process drawGraph env fuel (.waitForTask d am sem) rs = some s' := by
    simp only [AccessProcessor.step, hrs] at hstep
    exact hstep
  have hwaited := process_waited hrs hp
  intro hin
  refine hnot ((hwaited.isOver w).mp (hin sem w ?_ ?_))
  · rw [hwaited.awaited, hw]
    exact List.mem_cons_self
  · rw [hwaited.released]
    obtain ⟨-, -, hreleased⟩ | ⟨w', hwriter, hst, -, -⟩ := foundWaited_cases s.analyser d sem
    · rw [hreleased]
      exact List.mem_cons_self
    · have hlast := h.linked.last d w' hwriter
      rw [hw] at hlast
      cases hlast
      obtain hnone | hfin := hnow
      · rw [hnone] at hwriter
        cases hwriter
      · exact (hst hfin).elim

end

/-- **When a wait is released too early.** Whatever the order of the steps of the
application, the access processor and the task dispatcher: the waits that have been
released waited for tasks all of whose executions have ended, in every state of
the run, exactly when no wait is processed of which the last writer is pending
and has been taken out of the table or has the status `FINISHED` already. -/
theorem releasedInTime_iff (drawGraph : Bool) (labels : List Label) :
    Always (step drawGraph) ReleasedInTime init labels ↔ Along (step drawGraph) WaitsForPending init labels := by
  refine always_iff_along (I := fun s => s.Waiting ∧ Consistent s) (fun _ hs => hs.1.inTime) ?_ ?_
    ⟨init_waiting, init_consistent⟩
  · exact fun s l s' hs hl hst => ⟨hs.1.step hs.2 hl hst, hs.2.step hst⟩
  · exact fun s l s' hs hl hst => hs.1.early hl hst

end AccessProcessor

end Compss.Runtime
