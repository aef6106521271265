/-
What holds in every state of the two threads, whatever the order of their
steps.

`Consistent` relates the objects the threads share: the tasks are analysed in
the order of their creation, the executions listed by a task are those made for
it, its count is the number of those that have not decreased it, and what the
task dispatcher has still to do belongs to executions that have ended.
-/
import Compss.Runtime.Requests

namespace Compss.Runtime

open Lib
open Scheduler (ActionState)

/-- The execution the dispatcher works on. -/
def Instr.execution : Instr → ExecutionId
  | .decreaseExecutionCount e | .setStatus e _ | .notifyTaskEnd e | .releaseSuccessors e => e

/-- The task to analyse. -/
def APRequest.task? : APRequest → Option TaskId
  | .analyseTask t => some t
  | .taskEnd _ | .waitForTask .. | .barrier .. | .endOfApp .. | .registerDataAccess .. => none

/-- An execution that has ended neither runs again nor ends again. -/
structure Execution.Sound (x : Execution) : Prop where
  triggered : x.triggered = true → x.isPending = false
  counted : x.counted = true → x.triggered = true
  finished : x.state = .finished → x.triggered = true

/-- `y` is `x`, which may have been launched, rescheduled or cancelled. -/
structure Execution.Moved (x y : Execution) : Prop where
  task : y.task = x.task
  triggered : y.triggered = x.triggered
  counted : y.counted = x.counted
  ended : x.isPending = false → y.state = x.state
  finished : y.state = .finished → x.state = .finished

namespace Execution

variable {x y : Execution}

theorem Moved.refl (x : Execution) : x.Moved x := ⟨rfl, rfl, rfl, fun _ => rfl, id⟩

theorem isPending_eq_false : x.isPending = false ↔ x.state = .failed ∨ x.state = .finished := by
  unfold isPending
  cases x.state <;> simp

theorem isPending_congr (h : y.state = x.state) : y.isPending = x.isPending := by rw [isPending, isPending, h]

theorem Moved.sound (h : x.Moved y) (hx : x.Sound) : y.Sound where
  triggered ht := by
    have hp := hx.triggered (h.triggered ▸ ht)
    rw [isPending_congr (h.ended hp), hp]
  counted hc := h.triggered ▸ hx.counted (h.counted ▸ hc)
  finished hf := h.triggered ▸ hx.finished (h.finished hf)

theorem moved_of_pending (h : x.isPending = true) (state : ActionState) (hs : state ≠ .finished) (id : Int) :
    x.Moved { x with state := state, multiNodeId := id } :=
  ⟨rfl, rfl, rfl, fun hp => absurd hp (by simp [h]), fun hf => (hs hf).elim⟩

theorem new_sound (t : TaskId) (group : Option ExecutionId) (preds : List ExecutionId) : (new t group preds).Sound :=
  ⟨fun h => (Bool.false_ne_true h).elim, fun h => (Bool.false_ne_true h).elim, fun h => ActionState.noConfusion h⟩

theorem onCompleted_execution {e : ExecutionId} {i : Instr} (h : i ∈ x.onCompleted e) : i.execution = e := by
  unfold onCompleted at h
  split at h
  · simp only [List.mem_cons, List.not_mem_nil, or_false] at h
    obtain rfl | rfl | rfl | rfl := h <;> rfl
  · simp only [List.mem_cons, List.not_mem_nil, or_false] at h
    obtain rfl | rfl := h <;> rfl

theorem onFailed_execution {e : ExecutionId} {i : Instr} (h : i ∈ x.onFailed e) : i.execution = e := by
  unfold onFailed at h
  split at h
  · simp only [List.mem_cons, List.not_mem_nil, or_false] at h
    obtain rfl | rfl | rfl := h <;> rfl
  · simp only [List.mem_cons, List.not_mem_nil, or_false] at h
    obtain rfl | rfl := h <;> rfl

end Execution

namespace AccessProcessor

/-- The tasks still to be analysed, in order. -/
def toAnalyse (s : AccessProcessor) : List TaskId := s.requests.filterMap APRequest.task?

/-- The executions made for the task, in order. -/
def executionsOf (s : AccessProcessor) (t : TaskId) : List ExecutionId :=
  (List.range s.nextExecution).filter fun e => (s.execution e).task = t

/-- How many of them have not decreased the count. -/
def uncounted (s : AccessProcessor) (t : TaskId) : Nat :=
  (s.executionsOf t).countP fun e => !(s.execution e).counted

/-- What the task dispatcher has still to do. -/
structure Dispatching (s : AccessProcessor) : Prop where
  nodup : s.todo.Nodup
  made : ∀ i ∈ s.todo, i.execution < s.nextExecution
  decrease : ∀ e < s.nextExecution,
    .decreaseExecutionCount e ∈ s.todo ↔ (s.execution e).triggered = true ∧ (s.execution e).counted = false
  status : ∀ e status, .setStatus e status ∈ s.todo →
    status = .finished ∧ (s.execution e).state = .finished ∨ status = .failed ∧ (s.execution e).state = .failed

structure Consistent (s : AccessProcessor) : Prop where
  tasks : (s.analyser.analysed ++ s.toAnalyse).Pairwise (· < ·)
  known : ∀ t ∈ s.analyser.analysed ++ s.toAnalyse, t < s.nextTask
  nodes : ∀ t < s.nextTask, 0 < (s.analyser.task t).numNodes
  submitted : ∀ t ∈ s.submitted, t ∈ s.analyser.analysed ∧ s.executionsOf t = []
  submittedOnce : s.submitted.Nodup
  made : ∀ e < s.nextExecution, (s.execution e).task ∈ s.analyser.analysed
  executions : ∀ t, (s.analyser.task t).executions = s.executionsOf t
  count : ∀ t, (s.analyser.task t).executionCount = s.uncounted t
  notified : ∀ t, .taskEnd t ∈ s.requests → s.executionsOf t ≠ []
  sound : ∀ e < s.nextExecution, (s.execution e).Sound
  dispatching : s.Dispatching

section
variable {s s' : AccessProcessor} {t u : TaskId} {e f : ExecutionId} {x : Execution}

theorem mem_executionsOf : e ∈ s.executionsOf t ↔ e < s.nextExecution ∧ (s.execution e).task = t := by
  simp [executionsOf]

theorem executionsOf_congr (hn : s'.nextExecution = s.nextExecution)
    (hx : ∀ e < s.nextExecution, (s'.execution e).task = (s.execution e).task) (t : TaskId) :
    s'.executionsOf t = s.executionsOf t := by
  unfold executionsOf
  rw [hn]
  refine List.filter_congr fun e he => ?_
  rw [hx e (List.mem_range.mp he)]

theorem uncounted_congr (hn : s'.nextExecution = s.nextExecution)
    (hx : ∀ e < s.nextExecution, (s'.execution e).task = (s.execution e).task)
    (hc : ∀ e ∈ s.executionsOf t, (s'.execution e).counted = (s.execution e).counted) :
    s'.uncounted t = s.uncounted t := by
  unfold uncounted
  rw [executionsOf_congr hn hx]
  refine List.countP_congr fun e he => ?_
  rw [hc e he]

/-- The count of a task reaches zero with its last execution. -/
theorem uncounted_eq_zero : s.uncounted t = 0 ↔ ∀ e ∈ s.executionsOf t, (s.execution e).counted = true := by
  simp [uncounted, List.countP_eq_zero]

theorem Consistent.isFree (h : Consistent s) (t : TaskId) :
    (s.analyser.task t).isFree = true ↔ ∀ e ∈ s.executionsOf t, (s.execution e).counted = true := by
  rw [← uncounted_eq_zero, Task.isFree, h.count t]
  simp

theorem Consistent.created_lt (h : Consistent s) (he : s.executionsOf t ≠ []) : t < s.nextTask := by
  obtain ⟨e, he⟩ := List.exists_mem_of_ne_nil _ he
  obtain ⟨hn, rfl⟩ := mem_executionsOf.mp he
  exact h.known _ (List.mem_append_left _ (h.made e hn))

theorem Consistent.analysed_nodup (h : Consistent s) : s.analyser.analysed.Nodup :=
  (List.pairwise_append.mp h.tasks).1.imp Nat.ne_of_lt

/-- A task is analysed once. -/
theorem Consistent.not_analysed (h : Consistent s) {rs : List APRequest} (hrs : s.requests = .analyseTask t :: rs) :
    t ∉ s.analyser.analysed := fun ht =>
  (List.pairwise_append.mp h.tasks).2.2 t ht t (by simp [toAnalyse, hrs, APRequest.task?]) |>.ne rfl

theorem Consistent.executionsOf_of_not_analysed (h : Consistent s) (ht : t ∉ s.analyser.analysed) :
    s.executionsOf t = [] := by
  rw [List.eq_nil_iff_forall_not_mem]
  intro e he
  obtain ⟨hn, rfl⟩ := mem_executionsOf.mp he
  exact ht (h.made e hn)

theorem uncounted_of_nil (h : s.executionsOf t = []) : s.uncounted t = 0 := by simp [uncounted, h]

theorem init_consistent : Consistent init where
  tasks := by simp [init, TaskAnalyser.init, toAnalyse]
  known := by simp [init, TaskAnalyser.init, toAnalyse]
  nodes t _ := Nat.one_pos
  submitted t ht := (List.not_mem_nil ht).elim
  submittedOnce := .nil
  made e he := (Nat.not_lt_zero e he).elim
  executions _ := rfl
  count _ := rfl
  notified t ht := (List.not_mem_nil ht).elim
  sound e he := (Nat.not_lt_zero e he).elim
  dispatching := ⟨.nil, fun i hi => (List.not_mem_nil hi).elim, fun e he => (Nat.not_lt_zero e he).elim,
    fun e status h => (List.not_mem_nil h).elim⟩

/-! ## Parts of steps -/

/-- The tasks may change aside. -/
theorem Consistent.analyser (h : Consistent s) {a : TaskAnalyser}
    (ht : ∀ t, (s.analyser.task t).Alike (a.task t)) (ha : a.analysed = s.analyser.analysed) :
    Consistent { s with analyser := a } :=
  { h with
    tasks := by
      change (a.analysed ++ s.toAnalyse).Pairwise (· < ·)
      rw [ha]
      exact h.tasks
    known := by
      change ∀ t ∈ a.analysed ++ s.toAnalyse, t < s.nextTask
      rw [ha]
      exact h.known
    nodes := fun t hn => (ht t).numNodes ▸ h.nodes t hn
    submitted := fun t hs => ha ▸ h.submitted t hs
    made := fun e he => ha ▸ h.made e he
    executions := fun t => (ht t).executions.trans (h.executions t)
    count := fun t => (ht t).executionCount.trans (h.count t)
    dispatching := { h.dispatching with } }

/-- A request other than a task's. -/
theorem Consistent.offer (h : Consistent s) {r : APRequest} (hr : r.task? = none) (hend : ∀ t, r ≠ .taskEnd t) :
    Consistent (s.offer r) := by
  have htodo : (s.offer r).toAnalyse = s.toAnalyse := by simp [toAnalyse, AccessProcessor.offer, hr]
  exact
    { h with
      tasks := htodo ▸ h.tasks
      known := htodo ▸ h.known
      notified := fun t ht => by
        obtain ht | ht := List.mem_append.mp ht
        · exact h.notified t ht
        · exact (hend t (List.mem_singleton.mp ht).symm).elim
      dispatching := { h.dispatching with } }

/-- A request is taken that brings no task. -/
theorem Consistent.take (h : Consistent s) {r : APRequest} {rs : List APRequest} (hrs : s.requests = r :: rs)
    (hr : r.task? = none) : Consistent { s with requests := rs } := by
  have htodo : ({ s with requests := rs } : AccessProcessor).toAnalyse = s.toAnalyse := by
    simp [toAnalyse, hrs, hr]
  exact
    { h with
      tasks := htodo ▸ h.tasks
      known := htodo ▸ h.known
      notified := fun t ht => h.notified t (hrs ▸ List.mem_cons_of_mem r ht)
      dispatching := { h.dispatching with } }

theorem Dispatching.moved (h : s.Dispatching) {y : ExecutionId → Execution}
    (hy : ∀ e, (s.execution e).Moved (y e)) {group : ExecutionId → MultiNode.MultiNodeGroup} :
    ({ s with execution := y, group := group } : AccessProcessor).Dispatching where
  nodup := h.nodup
  made := h.made
  decrease e he := by
    rw [(hy e).triggered, (hy e).counted]
    exact h.decrease e he
  status e status hs := by
    have hst := h.status e status hs
    have hp : (s.execution e).isPending = false :=
      Execution.isPending_eq_false.mpr (hst.elim (fun h => .inr h.2) fun h => .inl h.2)
    change _ ∧ (y e).state = _ ∨ _ ∧ (y e).state = _
    rw [(hy e).ended hp]
    exact hst

theorem Consistent.moved (h : Consistent s) {y : ExecutionId → Execution} (hy : ∀ e, (s.execution e).Moved (y e))
    {group : ExecutionId → MultiNode.MultiNodeGroup} : Consistent { s with execution := y, group := group } := by
  have hof : ∀ t, ({ s with execution := y, group := group } : AccessProcessor).executionsOf t = s.executionsOf t :=
    executionsOf_congr rfl fun e _ => (hy e).task
  have hun : ∀ t, ({ s with execution := y, group := group } : AccessProcessor).uncounted t = s.uncounted t :=
    fun t => uncounted_congr rfl (fun e _ => (hy e).task) fun e _ => (hy e).counted
  exact
    { h with
      submitted := fun t ht => (hof t) ▸ h.submitted t ht
      made := fun e he => (hy e).task ▸ h.made e he
      executions := fun t => (h.executions t).trans (hof t).symm
      count := fun t => (h.count t).trans (congrArg Nat.cast (hun t).symm)
      notified := fun t ht => (hof t) ▸ h.notified t ht
      sound := fun e he => (hy e).sound (h.sound e he)
      dispatching := h.dispatching.moved hy }

theorem moved_update (hx : (s.execution e).Moved x) (f : ExecutionId) :
    (s.execution f).Moved (Function.update s.execution e x f) := by
  rw [Function.update_apply]
  split
  · next he => subst he; exact hx
  · exact .refl _

/-! ## The access processor -/

/-- What a request leaves of the tasks, but for their links. -/
structure KeepsTasks (a b : TaskAnalyser) : Prop where
  task : ∀ t, (a.task t).Alike (b.task t)
  analysed : b.analysed = a.analysed

theorem KeepsTasks.of_aside {a b c : TaskAnalyser} (hb : b.task = a.task) (hn : b.analysed = a.analysed)
    (h : TaskAnalyser.Aside b c) : KeepsTasks a c :=
  ⟨fun t => hb ▸ h.task t, h.analysed.trans hn⟩

theorem treatEnd_keepsTasks (env : TransferEnv) (fuel : Nat) (t : TaskId) (a : TaskAnalyser) :
    KeepsTasks a (Java.final (TaskAnalyser.treatEnd env fuel t a)) := by
  obtain ⟨-, h⟩ | ⟨count, -, h⟩ := TaskAnalyser.treatEnd_aside env fuel t a
  · rw [h]
    exact ⟨fun t => .refl _, rfl⟩
  · obtain ⟨_, _, _, _, he⟩ := TaskAnalyser.countedEnd_eq { a with ended := t :: a.ended } (a.task t).appId (count - 1)
    refine .of_aside ?_ ?_ h
    · rw [TaskAnalyser.waitsReleased, he]
    · rw [TaskAnalyser.waitsReleased, he]

theorem endTask_keepsTasks (env : TransferEnv) (fuel : Nat) (t : TaskId) (a : TaskAnalyser) :
    KeepsTasks a (Java.final (TaskAnalyser.endTask env fuel t a)) := by
  cases hfree : (a.task t).isFree with
  | false =>
    rw [TaskAnalyser.endTask_notFree hfree]
    exact ⟨fun t => .refl _, rfl⟩
  | true =>
    by_cases hf : (a.task t).status = .failed
    · rw [TaskAnalyser.endTask_failed hfree hf]
      exact ⟨fun t => .refl _, rfl⟩
    · rw [TaskAnalyser.endTask_free hfree hf]
      exact treatEnd_keepsTasks env fuel t a

/-- A request that is not of a task touches the waits only. -/
theorem process_aside (drawGraph : Bool) (env : TransferEnv) (fuel : Nat) {r : APRequest} (hr : r.task? = none)
    (hend : ∀ t, r ≠ .taskEnd t) (a : TaskAnalyser) :
    ∃ waited sems released, TaskAnalyser.Aside
      { a with waitedTasks := waited, appIdToSemaphore := sems, released := released }
      (Java.final (r.process drawGraph env fuel a)) := by
  cases r with
  | analyseTask t => cases hr
  | taskEnd t => exact (hend t rfl).elim
  | waitForTask dataId am sem =>
    obtain ⟨waited, released, he⟩ := TaskAnalyser.foundWaited_eq a dataId sem
    refine ⟨waited, a.appIdToSemaphore, released, ?_⟩
    exact he ▸ TaskAnalyser.findWaitedTask_aside drawGraph dataId am sem a
  | barrier appId sem =>
    obtain ⟨sems, released, he⟩ := TaskAnalyser.stopped_eq a appId sem
    obtain h | h := TaskAnalyser.barrier_aside drawGraph appId sem a
    · exact ⟨a.waitedTasks, a.appIdToSemaphore, a.released, h⟩
    · exact ⟨a.waitedTasks, sems, released, he ▸ h⟩
  | endOfApp appId sem =>
    obtain ⟨sems, released, he⟩ := TaskAnalyser.stopped_eq a appId sem
    exact ⟨a.waitedTasks, sems, released, he ▸ TaskAnalyser.noMoreTasks_aside appId sem a⟩
  | registerDataAccess am ref =>
    refine ⟨a.waitedTasks, a.appIdToSemaphore, a.released, ?_⟩
    exact Java.Keeps.final_bind (TaskAnalyser.onDip_aside _ a (.refl a)) fun _ => .pure _

theorem process_keepsTasks (drawGraph : Bool) (env : TransferEnv) (fuel : Nat) {r : APRequest} (hr : r.task? = none)
    (a : TaskAnalyser) : KeepsTasks a (Java.final (r.process drawGraph env fuel a)) := by
  by_cases hend : ∃ t, r = .taskEnd t
  · obtain ⟨t, rfl⟩ := hend
    exact endTask_keepsTasks env fuel t a
  · obtain ⟨_, _, _, h⟩ := process_aside drawGraph env fuel hr (fun t he => hend ⟨t, he⟩) a
    exact ⟨h.task, h.analysed⟩

/-- Only a task whose analysis returned is handed on, and what a request
raises is caught. -/
theorem process_cases {drawGraph : Bool} {env : TransferEnv} {fuel : Nat} {r : APRequest} {rs : List APRequest}
    (h : s.process drawGraph env fuel r rs = some s') :
    ∃ submitted raised,
      s' = { s.processed r rs (Java.final (r.process drawGraph env fuel s.analyser)) with
        submitted := submitted, raised := raised } ∧
      (submitted = s.submitted ∨ ∃ t, r = .analyseTask t ∧ submitted = s.submitted ++ [t]) ∧
      (raised = s.raised ∨
        raised = r :: s.raised ∧ ∃ e a, r.process drawGraph env fuel s.analyser = .error e a) := by
  unfold process at h
  cases hp : r.process drawGraph env fuel s.analyser with
  | ok v a =>
    rw [hp] at h
    cases r with
    | analyseTask t =>
      cases h
      exact ⟨_, _, rfl, .inr ⟨t, rfl, rfl⟩, .inl rfl⟩
    | taskEnd | waitForTask | barrier | endOfApp | registerDataAccess =>
      cases h
      exact ⟨_, _, rfl, .inl rfl, .inl rfl⟩
  | error e a =>
    rw [hp] at h
    dsimp only at h
    split at h
    · cases h
    · cases h
      exact ⟨_, _, rfl, .inl rfl, .inr ⟨rfl, e, a, rfl⟩⟩

theorem Consistent.processTask (h : Consistent s) {rs : List APRequest} (hrs : s.requests = .analyseTask t :: rs)
    {a : TaskAnalyser} (ha : TaskAnalyser.Aside (TaskAnalyser.counted s.analyser t) a) {submitted : List TaskId}
    (hs : submitted = s.submitted ∨ submitted = s.submitted ++ [t]) :
    Consistent { s with analyser := a, requests := rs, submitted := submitted } := by
  have htodo : s.toAnalyse = t :: rs.filterMap APRequest.task? := by simp [toAnalyse, hrs, APRequest.task?]
  have hana : a.analysed = s.analyser.analysed ++ [t] := ha.analysed
  have hlist : a.analysed ++ rs.filterMap APRequest.task? = s.analyser.analysed ++ s.toAnalyse := by
    rw [hana, htodo, List.append_assoc, List.singleton_append]
  have hnew := h.not_analysed hrs
  have hnil := h.executionsOf_of_not_analysed hnew
  have hmem : ∀ u ∈ s.analyser.analysed, u ∈ a.analysed := fun u hu => hana ▸ List.mem_append_left _ hu
  exact
    { h with
      tasks := by
        change (a.analysed ++ rs.filterMap APRequest.task?).Pairwise (· < ·)
        rw [hlist]
        exact h.tasks
      known := by
        change ∀ u ∈ a.analysed ++ rs.filterMap APRequest.task?, u < s.nextTask
        rw [hlist]
        exact h.known
      nodes := fun u hu => (ha.task u).numNodes ▸ h.nodes u hu
      submitted := by
        intro u hu
        obtain rfl | rfl := hs
        · exact ⟨hmem u (h.submitted u hu).1, (h.submitted u hu).2⟩
        · obtain hu | hu := List.mem_append.mp hu
          · exact ⟨hmem u (h.submitted u hu).1, (h.submitted u hu).2⟩
          · obtain rfl := List.mem_singleton.mp hu
            exact ⟨hana ▸ List.mem_append_right _ hu, hnil⟩
      submittedOnce := by
        obtain rfl | rfl := hs
        · exact h.submittedOnce
        · refine List.nodup_append.mpr ⟨h.submittedOnce, List.nodup_singleton t, ?_⟩
          rintro u hu v hv rfl
          exact hnew (List.mem_singleton.mp hv ▸ (h.submitted u hu).1)
      made := fun e he => hmem _ (h.made e he)
      executions := fun u => (ha.task u).executions.trans (h.executions u)
      count := fun u => (ha.task u).executionCount.trans (h.count u)
      notified := fun u hu => h.notified u (hrs ▸ List.mem_cons_of_mem _ hu)
      dispatching := { h.dispatching with } }

theorem Consistent.process (h : Consistent s) {drawGraph : Bool} {env : TransferEnv} {fuel : Nat} {r : APRequest}
    {rs : List APRequest} (hrs : s.requests = r :: rs) (hp : s.process drawGraph env fuel r rs = some s') :
    Consistent s' := by
  obtain ⟨submitted, raised, rfl, hs, -⟩ := process_cases hp
  cases hr : r.task? with
  | none =>
    have hk := process_keepsTasks drawGraph env fuel hr s.analyser
    have hsub : submitted = s.submitted := by
      obtain hs | ⟨t, rfl, -⟩ := hs
      · exact hs
      · cases hr
    subst hsub
    have := (h.take hrs hr).analyser hk.task hk.analysed
    exact { this with dispatching := { this.dispatching with } }
  | some t =>
    obtain rfl : r = .analyseTask t := by
      cases r with
      | analyseTask u => cases hr; rfl
      | taskEnd | waitForTask | barrier | endOfApp | registerDataAccess => cases hr
    have hs : submitted = s.submitted ∨ submitted = s.submitted ++ [t] := by
      obtain hs | ⟨u, hu, hs⟩ := hs
      · exact .inl hs
      · cases hu
        exact .inr hs
    have := h.processTask hrs (TaskAnalyser.processTask_aside drawGraph t s.analyser) hs
    exact { this with dispatching := { this.dispatching with } }

/-! ## New tasks and executions -/

theorem Consistent.newTask (h : Consistent s) {x : Task} (hx : x.executions = []) (hc : x.executionCount = 0)
    (hn : 0 < x.numNodes) :
    Consistent { (s.setTask s.nextTask x).offer (.analyseTask s.nextTask) with nextTask := s.nextTask + 1 } := by
  have hnil : s.executionsOf s.nextTask = [] := by
    refine h.executionsOf_of_not_analysed fun ht => ?_
    exact (h.known _ (List.mem_append_left _ ht)).ne rfl
  have htodo : (s.requests ++ [APRequest.analyseTask s.nextTask]).filterMap APRequest.task? = s.toAnalyse ++ [s.nextTask] := by
    simp [toAnalyse, APRequest.task?]
  exact
    { h with
      tasks := by
        change (s.analyser.analysed ++
          (s.requests ++ [APRequest.analyseTask s.nextTask]).filterMap APRequest.task?).Pairwise (· < ·)
        rw [htodo, ← List.append_assoc, List.pairwise_append]
        refine ⟨h.tasks, List.pairwise_singleton _ _, ?_⟩
        rintro u hu v hv
        rw [List.mem_singleton.mp hv]
        exact h.known u hu
      known := by
        change ∀ u ∈ s.analyser.analysed ++
          (s.requests ++ [APRequest.analyseTask s.nextTask]).filterMap APRequest.task?, u < s.nextTask + 1
        rw [htodo, ← List.append_assoc]
        intro u hu
        obtain hu | hu := List.mem_append.mp hu
        · exact Nat.lt_succ_of_lt (h.known u hu)
        · rw [List.mem_singleton.mp hu]
          exact Nat.lt_succ_self _
      nodes := TaskAnalyser.forall_setTask (P := fun u y => u < s.nextTask + 1 → 0 < y.numNodes) (fun _ => hn)
        fun u hu hlt => h.nodes u (Nat.lt_of_le_of_ne (Nat.le_of_lt_succ hlt) hu)
      executions := TaskAnalyser.forall_setTask (P := fun u y => y.executions = s.executionsOf u) (hx.trans hnil.symm)
        fun u _ => h.executions u
      count := TaskAnalyser.forall_setTask (P := fun u y => y.executionCount = s.uncounted u)
        (by rw [hc, uncounted_of_nil hnil]; rfl) fun u _ => h.count u
      notified := by
        intro u hu
        obtain hu | hu := List.mem_append.mp hu
        · exact h.notified u hu
        · cases List.mem_singleton.mp hu
      dispatching := { h.dispatching with } }

theorem execute_execution_old {workers : Nat} (he : e < s.nextExecution) :
    (s.execute t workers).execution e = s.execution e := by
  simp only [execute]
  rw [if_neg fun h => absurd h.1 (Nat.not_le.mpr he)]

/-- An execution that has just been made. -/
theorem execute_execution_new {workers : Nat} (he : s.nextExecution ≤ e) (hlt : e < (s.execute t workers).nextExecution) :
    ∃ group, (s.execute t workers).execution e =
      Execution.new t group (s.pendingPredecessors (s.analyser.task t)) := by
  simp only [execute] at hlt ⊢
  rw [if_pos ⟨he, hlt⟩]
  exact ⟨_, rfl⟩

theorem forall_execute {P : ExecutionId → Execution → Prop} {workers : Nat}
    (hold : ∀ e < s.nextExecution, P e (s.execution e))
    (hnew : ∀ e group, P e (Execution.new t group (s.pendingPredecessors (s.analyser.task t)))) :
    ∀ e < (s.execute t workers).nextExecution, P e ((s.execute t workers).execution e) := by
  intro e he
  by_cases hlt : e < s.nextExecution
  · rw [execute_execution_old hlt]
    exact hold e hlt
  · obtain ⟨group, hg⟩ := execute_execution_new (Nat.not_lt.mp hlt) he
    rw [hg]
    exact hnew e group

theorem mem_newExecutions {workers : Nat}
    (he : e ∈ List.range' s.nextExecution (numExecutions (s.analyser.task t) workers)) :
    ∃ group, (s.execute t workers).execution e =
      Execution.new t group (s.pendingPredecessors (s.analyser.task t)) := by
  obtain ⟨hle, hlt⟩ := List.mem_range'_1.mp he
  exact execute_execution_new hle hlt

/-- The executions made are added to those of their task. -/
theorem execute_executionsOf (s : AccessProcessor) (t : TaskId) (workers : Nat) (u : TaskId) :
    (s.execute t workers).executionsOf u = s.executionsOf u ++
      if u = t then List.range' s.nextExecution (numExecutions (s.analyser.task t) workers) else [] := by
  have hnext : (s.execute t workers).nextExecution =
      s.nextExecution + numExecutions (s.analyser.task t) workers := rfl
  unfold executionsOf
  rw [hnext, List.range_add, List.filter_append]
  congr 1
  · refine List.filter_congr fun e he => ?_
    rw [execute_execution_old (List.mem_range.mp he)]
  · rw [← List.range'_eq_map_range]
    split
    · next hu =>
      rw [List.filter_eq_self]
      intro e he
      obtain ⟨group, hg⟩ := mem_newExecutions he
      rw [hg, hu]
      simp [Execution.new]
    · next hu =>
      rw [List.filter_eq_nil_iff]
      intro e he
      obtain ⟨group, hg⟩ := mem_newExecutions he
      rw [hg]
      simp [Execution.new, Ne.symm hu]

theorem numExecutions_pos {y : Task} {workers : Nat} (hn : 0 < y.numNodes) (hw : 0 < workers) :
    0 < numExecutions y workers := by
  unfold numExecutions
  split
  · exact Nat.mul_pos hw hn
  · exact hn

theorem execute_uncounted (s : AccessProcessor) (t : TaskId) (workers : Nat) (u : TaskId) :
    (s.execute t workers).uncounted u = s.uncounted u +
      if u = t then numExecutions (s.analyser.task t) workers else 0 := by
  unfold uncounted
  rw [execute_executionsOf, List.countP_append]
  congr 1
  · refine List.countP_congr fun e he => ?_
    rw [execute_execution_old (mem_executionsOf.mp he).1]
  · split
    · have hall : ∀ e ∈ List.range' s.nextExecution (numExecutions (s.analyser.task t) workers),
          (!((s.execute t workers).execution e).counted) = true := by
        intro e he
        obtain ⟨group, hg⟩ := mem_newExecutions he
        rw [hg]
        rfl
      rw [List.countP_eq_length.mpr hall, List.length_range']
    · rfl

theorem Consistent.execute (h : Consistent s) {ts : List TaskId} (hs : s.submitted = t :: ts) (htodo : s.todo = [])
    (workers : Nat) : Consistent { s.execute t workers with submitted := ts } := by
  have ht := h.submitted t (hs ▸ List.mem_cons_self)
  have hts : ∀ u ∈ ts, u ∈ s.submitted := fun u hu => hs ▸ List.mem_cons_of_mem t hu
  have hnodup : t ∉ ts ∧ ts.Nodup := List.nodup_cons.mp (hs ▸ h.submittedOnce)
  have hof := execute_executionsOf s t workers
  have hsound : ∀ e < (s.execute t workers).nextExecution, ((s.execute t workers).execution e).Sound :=
    forall_execute h.sound fun e group => Execution.new_sound t group _
  exact
    { h with
      nodes := TaskAnalyser.forall_setTask (P := fun u y => u < s.nextTask → 0 < y.numNodes) (h.nodes t)
        fun u _ => h.nodes u
      submitted := by
        intro u hu
        refine ⟨(h.submitted u (hts u hu)).1, ?_⟩
        change (s.execute t workers).executionsOf u = []
        rw [hof u, if_neg (fun he : u = t => hnodup.1 (he ▸ hu)), (h.submitted u (hts u hu)).2]
        rfl
      submittedOnce := hnodup.2
      made := forall_execute (P := fun _ x => x.task ∈ s.analyser.analysed) h.made fun _ _ => ht.1
      executions := by
        intro u
        change ((s.execute t workers).analyser.task u).executions = (s.execute t workers).executionsOf u
        rw [hof u]
        simp only [AccessProcessor.execute, AccessProcessor.setTask, TaskAnalyser.setTask_task]
        by_cases he : u = t
        · rw [if_pos he, if_pos he, he, h.executions t]
        · rw [if_neg he, if_neg he, h.executions u, List.append_nil]
      count := by
        intro u
        change ((s.execute t workers).analyser.task u).executionCount = (s.execute t workers).uncounted u
        rw [execute_uncounted]
        simp only [AccessProcessor.execute, AccessProcessor.setTask, TaskAnalyser.setTask_task]
        by_cases he : u = t
        · subst he
          simp [uncounted_of_nil ht.2]
        · simpa [he] using h.count u
      notified := by
        intro u hu hnil
        have : (s.execute t workers).executionsOf u = [] := hnil
        rw [hof u, List.append_eq_nil_iff] at this
        exact h.notified u hu this.1
      sound := hsound
      dispatching :=
        { nodup := h.dispatching.nodup
          made := by simp [AccessProcessor.execute, AccessProcessor.setTask, htodo]
          decrease := by
            refine forall_execute (P := fun e x => .decreaseExecutionCount e ∈ s.todo ↔
              x.triggered = true ∧ x.counted = false) h.dispatching.decrease fun e group => ?_
            simp [htodo, Execution.new]
          status := by simp [AccessProcessor.execute, AccessProcessor.setTask, htodo] } }

/-! ## The task dispatcher -/

theorem setExecution_executionsOf (hx : x.task = (s.execution e).task) (t : TaskId) :
    (s.setExecution e x).executionsOf t = s.executionsOf t := by
  refine executionsOf_congr ?_ (fun f _ => ?_) t
  · rfl
  · simp only [setExecution, Function.update_apply]
    split
    · next hf => rw [hf, hx]
    · rfl

theorem setExecution_uncounted (hx : x.task = (s.execution e).task) (hc : x.counted = (s.execution e).counted)
    (t : TaskId) : (s.setExecution e x).uncounted t = s.uncounted t := by
  unfold uncounted
  rw [setExecution_executionsOf hx]
  refine List.countP_congr fun f _ => ?_
  simp only [setExecution, Function.update_apply]
  split
  · next hf => rw [hf, hc]
  · rfl

theorem forall_setExecution {P : ExecutionId → Execution → Prop} (hx : P e x) (h : ∀ f < s.nextExecution, P f (s.execution f)) :
    ∀ f < s.nextExecution, P f ((s.setExecution e x).execution f) := by
  intro f hf
  simp only [setExecution, Function.update_apply]
  split
  · next he => rw [he]; exact hx
  · exact h f hf

/-- The dispatcher has nothing to do, and an execution ends. -/
theorem Consistent.trigger (h : Consistent s) (hcan : s.canEnd e) (ht : (s.execution e).triggered = false)
    {state : ActionState} (hst : state = .finished ∨ state = .failed) {todo : List Instr} (hnodup : todo.Nodup)
    (hmade : ∀ i ∈ todo, i.execution = e) (hdec : .decreaseExecutionCount e ∈ todo)
    (hstatus : ∀ f status, .setStatus f status ∈ todo →
      status = .finished ∧ state = .finished ∨ status = .failed ∧ state = .failed) :
    Consistent { s.setExecution e { s.execution e with state := state, triggered := true } with todo := todo } := by
  obtain ⟨hlt, hnil⟩ := hcan
  obtain ⟨x, hx⟩ : ∃ x, x = { s.execution e with state := state, triggered := true } := ⟨_, rfl⟩
  have htask : x.task = (s.execution e).task := by rw [hx]
  have hcounted : x.counted = (s.execution e).counted := by rw [hx]
  have huncounted : (s.execution e).counted = false := by
    cases hc : (s.execution e).counted with
    | false => rfl
    | true => exact absurd ((h.sound e hlt).counted hc) (by simp [ht])
  have hof := setExecution_executionsOf (s := s) htask
  rw [← hx]
  exact
    { h with
      submitted := fun u hu => (hof u) ▸ h.submitted u hu
      made := forall_setExecution (P := fun _ y => y.task ∈ s.analyser.analysed) (htask ▸ h.made e hlt) h.made
      executions := fun u => (h.executions u).trans (hof u).symm
      count := fun u => (h.count u).trans (congrArg Nat.cast (setExecution_uncounted htask hcounted u).symm)
      notified := fun u hu => (hof u) ▸ h.notified u hu
      sound := by
        refine forall_setExecution (P := fun _ y => y.Sound) ?_ h.sound
        rw [hx]
        exact ⟨fun _ => Execution.isPending_eq_false.mpr hst.symm, fun _ => rfl, fun _ => rfl⟩
      dispatching :=
        { nodup := hnodup
          made := fun i hi => hmade i hi ▸ hlt
          decrease := by
            intro f hf
            by_cases he : f = e
            · subst he
              simp [setExecution, hx, hdec, huncounted]
            · have hnot : Instr.decreaseExecutionCount f ∉ todo := fun hm => he (hmade _ hm)
              have hold := h.dispatching.decrease f hf
              rw [hnil] at hold
              simp only [setExecution, Function.update_of_ne he, hnot, false_iff]
              exact fun hc => List.not_mem_nil (hold.mpr hc)
          status := by
            intro f status hm
            have he : f = e := hmade _ hm
            subst he
            simpa [setExecution, hx] using hstatus f status hm } }

/-- The dispatcher's next instruction, unless that decreases a count. -/
theorem Consistent.pop (h : Consistent s) {i : Instr} {is : List Instr} (htodo : s.todo = i :: is)
    (hi : ∀ e, i ≠ .decreaseExecutionCount e) : Consistent { s with todo := is } := by
  have hmem : ∀ j ∈ is, j ∈ s.todo := fun j hj => htodo ▸ List.mem_cons_of_mem i hj
  exact
    { h with
      dispatching :=
        { nodup := (List.nodup_cons.mp (htodo ▸ h.dispatching.nodup)).2
          made := fun j hj => h.dispatching.made j (hmem j hj)
          decrease := by
            intro e he
            rw [← h.dispatching.decrease e he, htodo, List.mem_cons]
            exact ⟨.inr, fun hm => hm.resolve_left fun heq => hi e heq.symm⟩
          status := fun e status hm => h.dispatching.status e status (hmem _ hm) } }

theorem Consistent.setTask (h : Consistent s) {y : Task} (hy : (s.analyser.task t).executions = y.executions)
    (hc : (s.analyser.task t).executionCount = y.executionCount) (hn : (s.analyser.task t).numNodes = y.numNodes) :
    Consistent (s.setTask t y) :=
  { h with
    nodes := TaskAnalyser.forall_setTask (P := fun u y => u < s.nextTask → 0 < y.numNodes) (hn ▸ h.nodes t)
      fun u _ => h.nodes u
    executions := TaskAnalyser.forall_setTask (P := fun u y => y.executions = s.executionsOf u)
      (hy ▸ h.executions t) fun u _ => h.executions u
    count := TaskAnalyser.forall_setTask (P := fun u y => y.executionCount = s.uncounted u) (hc ▸ h.count t)
      fun u _ => h.count u
    dispatching := { h.dispatching with } }

/-- An element that is no longer counted. -/
theorem countP_clear {α : Type} {p q : α → Bool} {a : α} (hp : p a = true) (hq : q a = false) :
    ∀ {l : List α}, l.Nodup → a ∈ l → (∀ b ∈ l, b ≠ a → q b = p b) → l.countP q + 1 = l.countP p
  | b :: l, hn, hm, h => by
    obtain ⟨hb, hn⟩ := List.nodup_cons.mp hn
    rw [List.countP_cons, List.countP_cons]
    obtain rfl | hm := List.mem_cons.mp hm
    · have hl : l.countP q = l.countP p :=
        List.countP_congr fun c hc => by
          rw [h c (List.mem_cons_of_mem a hc) fun he => hb (he ▸ hc)]
      simp [hp, hq, hl]
    · have ih := countP_clear hp hq hn hm fun c hc => h c (List.mem_cons_of_mem b hc)
      rw [h b List.mem_cons_self fun he => hb (he ▸ hm)]
      omega

theorem executionsOf_nodup (s : AccessProcessor) (t : TaskId) : (s.executionsOf t).Nodup :=
  List.nodup_range.filter _

/-- The count of its task goes down with the execution. -/
theorem run_decrease_task (s : AccessProcessor) (e : ExecutionId) (u : TaskId) :
    (s.run (.decreaseExecutionCount e)).analyser.task u =
      if u = (s.execution e).task then
        { s.analyser.task u with executionCount := (s.analyser.task u).executionCount - 1 }
      else s.analyser.task u := by
  simp only [run, setExecution, setTask, TaskAnalyser.setTask_task]
  split
  · next h => rw [h]
  · rfl

theorem run_decrease_execution (s : AccessProcessor) (e f : ExecutionId) :
    (s.run (.decreaseExecutionCount e)).execution f =
      if f = e then { s.execution f with counted := true } else s.execution f := by
  simp only [run, setExecution, setTask, Function.update_apply]
  split
  · next h => rw [h]
  · rfl

theorem run_decrease_executionsOf (s : AccessProcessor) (e : ExecutionId) (u : TaskId) :
    (s.run (.decreaseExecutionCount e)).executionsOf u = s.executionsOf u := by
  refine executionsOf_congr ?_ (fun f _ => ?_) u
  · rfl
  · rw [run_decrease_execution]
    split <;> rfl

theorem run_decrease_uncounted (he : e < s.nextExecution) (hc : (s.execution e).counted = false) (u : TaskId) :
    (s.run (.decreaseExecutionCount e)).uncounted u + (if u = (s.execution e).task then 1 else 0) = s.uncounted u := by
  have hother : ∀ f, f ≠ e → ((s.run (.decreaseExecutionCount e)).execution f).counted = (s.execution f).counted := by
    intro f hf
    rw [run_decrease_execution, if_neg hf]
  unfold uncounted
  rw [run_decrease_executionsOf]
  split
  · next hu =>
    subst hu
    refine countP_clear (a := e) (by simp [hc]) (by simp [run_decrease_execution]) (executionsOf_nodup s _)
      (mem_executionsOf.mpr ⟨he, rfl⟩) fun f _ hf => ?_
    rw [hother f hf]
  · next hu =>
    refine List.countP_congr fun f hf => ?_
    rw [hother f fun hfe => hu (by rw [← (mem_executionsOf.mp hf).2, hfe])]

theorem Dispatching.decreased (h : s.Dispatching) {is : List Instr} (htodo : s.todo = .decreaseExecutionCount e :: is) :
    ({ s.run (.decreaseExecutionCount e) with todo := is } : AccessProcessor).Dispatching := by
  obtain ⟨hnot, hnodup⟩ := List.nodup_cons.mp (htodo ▸ h.nodup)
  have hmem : ∀ j ∈ is, j ∈ s.todo := fun j hj => htodo ▸ List.mem_cons_of_mem _ hj
  refine ⟨hnodup, fun j hj => h.made j (hmem j hj), ?_, ?_⟩
  · intro f hf
    change _ ↔ ((s.run (.decreaseExecutionCount e)).execution f).triggered = true ∧
      ((s.run (.decreaseExecutionCount e)).execution f).counted = false
    rw [run_decrease_execution]
    split
    · next hfe => simp [hfe, hnot]
    · next hfe =>
      rw [← h.decrease f hf, htodo, List.mem_cons, or_iff_right fun heq => hfe (Instr.decreaseExecutionCount.inj heq)]
  · intro f status hm
    have hst : ((s.run (.decreaseExecutionCount e)).execution f).state = (s.execution f).state := by
      rw [run_decrease_execution]
      split <;> rfl
    change _ ∧ ((s.run (.decreaseExecutionCount e)).execution f).state = _ ∨ _
    rw [hst]
    exact h.status f status (hmem _ hm)

theorem Consistent.decrease (h : Consistent s) {is : List Instr} (htodo : s.todo = .decreaseExecutionCount e :: is) :
    Consistent { s.run (.decreaseExecutionCount e) with todo := is } := by
  have hhead : .decreaseExecutionCount e ∈ s.todo := htodo ▸ List.mem_cons_self
  have he : e < s.nextExecution := h.dispatching.made _ hhead
  obtain ⟨ht, hc⟩ := (h.dispatching.decrease e he).mp hhead
  have hof := run_decrease_executionsOf s e
  have htask : ∀ u, ((s.run (.decreaseExecutionCount e)).analyser.task u).numNodes = (s.analyser.task u).numNodes ∧
      ((s.run (.decreaseExecutionCount e)).analyser.task u).executions = (s.analyser.task u).executions := by
    intro u
    rw [run_decrease_task]
    split <;> exact ⟨rfl, rfl⟩
  have hexec : ∀ f < s.nextExecution, ((s.run (.decreaseExecutionCount e)).execution f).task = (s.execution f).task ∧
      ((s.run (.decreaseExecutionCount e)).execution f).Sound := by
    intro f hf
    rw [run_decrease_execution]
    split
    · next hfe =>
      subst hfe
      exact ⟨rfl, { h.sound f hf with counted := fun _ => ht }⟩
    · exact ⟨rfl, h.sound f hf⟩
  exact
    { h with
      nodes := fun u hu => (htask u).1 ▸ h.nodes u hu
      submitted := fun u hu => (hof u) ▸ h.submitted u hu
      made := fun f hf => (hexec f hf).1 ▸ h.made f hf
      executions := fun u => (htask u).2.trans ((h.executions u).trans (hof u).symm)
      count := fun u => by
        change ((s.run (.decreaseExecutionCount e)).analyser.task u).executionCount =
          ((s.run (.decreaseExecutionCount e)).uncounted u : Int)
        have hu := run_decrease_uncounted he hc u
        have hcount := h.count u
        rw [run_decrease_task]
        split
        · next heq =>
          rw [if_pos heq] at hu
          dsimp only
          omega
        · next hne =>
          rw [if_neg hne] at hu
          omega
      notified := fun u hu => (hof u) ▸ h.notified u hu
      sound := fun f hf => (hexec f hf).2
      dispatching := h.dispatching.decreased htodo }

theorem Consistent.notify (h : Consistent s) (he : e < s.nextExecution) : Consistent (s.run (.notifyTaskEnd e)) := by
  have htodo : (s.run (.notifyTaskEnd e)).toAnalyse = s.toAnalyse := by
    simp [toAnalyse, run, AccessProcessor.offer, APRequest.task?]
  exact
    { h with
      tasks := htodo ▸ h.tasks
      known := htodo ▸ h.known
      notified := fun t ht => by
        obtain ht | ht := List.mem_append.mp ht
        · exact h.notified t ht
        · obtain rfl : t = (s.execution e).task := APRequest.taskEnd.inj (List.mem_singleton.mp ht)
          exact List.ne_nil_of_mem (mem_executionsOf.mpr ⟨he, rfl⟩)
      dispatching := { h.dispatching with } }

theorem Consistent.dispatch (h : Consistent s) {i : Instr} {is : List Instr} (htodo : s.todo = i :: is) :
    Consistent { s.run i with todo := is } := by
  have he : i.execution < s.nextExecution := h.dispatching.made i (htodo ▸ List.mem_cons_self)
  cases i with
  | decreaseExecutionCount e => exact h.decrease htodo
  | setStatus e status =>
    exact (h.pop htodo fun f => Instr.noConfusion).setTask rfl rfl rfl
  | notifyTaskEnd e => exact (h.pop htodo fun f => Instr.noConfusion).notify he
  | releaseSuccessors e =>
    exact (h.pop htodo fun f => Instr.noConfusion).moved
      (y := fun f => { s.execution f with dataPredecessors := (s.execution f).dataPredecessors.filter (· ≠ e) })
      fun f => ⟨rfl, rfl, rfl, fun _ => rfl, id⟩

theorem onCompleted_nodup (x : Execution) (e : ExecutionId) : (x.onCompleted e).Nodup := by
  unfold Execution.onCompleted
  split <;> simp

theorem onFailed_nodup (x : Execution) (e : ExecutionId) : (x.onFailed e).Nodup := by
  unfold Execution.onFailed
  split <;> simp

/-- A launched execution runs, and may have been given its place in its group. -/
theorem doAction_eq (s : AccessProcessor) (e : ExecutionId) :
    ∃ id group, s.doAction e =
      { s with
        execution := Function.update s.execution e { s.execution e with state := .running, multiNodeId := id },
        group := group } := by
  simp only [AccessProcessor.doAction]
  split
  · exact ⟨(s.execution e).multiNodeId, s.group, rfl⟩
  · exact ⟨_, _, rfl⟩

/-- The steps, by what they change. -/
inductive Move (drawGraph : Bool) (s : AccessProcessor) : Label → AccessProcessor → Prop
  | newTask {l : Label} (x : Task) (hx : x.executions = [] ∧ x.executionCount = 0 ∧ x.accesses = [])
      (hn : 0 < x.numNodes) :
      Move drawGraph s l { (s.setTask s.nextTask x).offer (.analyseTask s.nextTask) with nextTask := s.nextTask + 1 }
  | offered {l : Label} (r : APRequest) (n : SemaphoreId) (hr : r.task? = none) (hend : ∀ t, r ≠ .taskEnd t) :
      Move drawGraph s l { s.offer r with nextSemaphore := n }
  | processed {env : TransferEnv} {fuel : Nat} {s' : AccessProcessor} (r : APRequest) (rs : List APRequest)
      (hrs : s.requests = r :: rs) (hp : s.process drawGraph env fuel r rs = some s') :
      Move drawGraph s (.process env fuel) s'
  | executed {workers : Nat} (t : TaskId) (ts : List TaskId) (hs : s.submitted = t :: ts) (htodo : s.todo = [])
      (hw : 0 < workers) : Move drawGraph s (.executeTask workers) { s.execute t workers with submitted := ts }
  | moved {l : Label} (e : ExecutionId) (x : Execution) (group : ExecutionId → MultiNode.MultiNodeGroup)
      (hx : (s.execution e).Moved x) (hd : x.dataPredecessors = (s.execution e).dataPredecessors) :
      Move drawGraph s l { s with execution := Function.update s.execution e x, group := group }
  | ended {l : Label} (e : ExecutionId) (state : ActionState) (todo : List Instr) (hcan : s.canEnd e)
      (ht : (s.execution e).triggered = false)
      (hs : state = .finished ∧ todo = (s.execution e).onCompleted e ∨
        state = .failed ∧ todo = (s.execution e).onFailed e) :
      Move drawGraph s l
        { s.setExecution e { s.execution e with state := state, triggered := true } with todo := todo }
  | dispatched (i : Instr) (is : List Instr) (htodo : s.todo = i :: is) :
      Move drawGraph s .dispatch { s.run i with todo := is }

/-- A step in which the access processor takes no request. -/
structure Unprocessed (s s' : AccessProcessor) : Prop where
  handled : s'.handled = s.handled
  raised : s'.raised = s.raised
  awaited : s'.awaited = s.awaited
  released : s'.analyser.released = s.analyser.released
  analysed : s'.analyser.analysed = s.analyser.analysed
  writers : s'.analyser.writers = s.analyser.writers
  taskCount : s'.analyser.appIdToTaskCount = s.analyser.appIdToTaskCount
  appIdToSemaphore : s'.analyser.appIdToSemaphore = s.analyser.appIdToSemaphore
  waitedTasks : s'.analyser.waitedTasks = s.analyser.waitedTasks

theorem Move.unprocessed {drawGraph : Bool} {l : Label} (hm : Move drawGraph s l s') :
    Unprocessed s s' ∨ ∃ env fuel r rs, l = .process env fuel ∧ s.requests = r :: rs ∧
      s.process drawGraph env fuel r rs = some s' := by
  cases hm with
  | processed r rs hrs hp => exact .inr ⟨_, _, r, rs, rfl, hrs, hp⟩
  | newTask | offered | executed | moved | ended => exact .inl ⟨rfl, rfl, rfl, rfl, rfl, rfl, rfl, rfl, rfl⟩
  | dispatched i is htodo =>
    refine .inl ?_
    cases i with
    | decreaseExecutionCount | setStatus | notifyTaskEnd | releaseSuccessors =>
      exact ⟨rfl, rfl, rfl, rfl, rfl, rfl, rfl, rfl, rfl⟩

theorem Consistent.not_triggered (h : Consistent s) (he : e < s.nextExecution) (hp : (s.execution e).isPending = true) :
    (s.execution e).triggered = false := by
  cases ht : (s.execution e).triggered with
  | false => rfl
  | true => exact absurd ((h.sound e he).triggered ht) (by simp [hp])

theorem Consistent.move (h : Consistent s) {drawGraph : Bool} {l : Label} (hstep : s.step drawGraph l = some s') :
    Move drawGraph s l s' := by
  cases l with
  | newTask appId isService hasTarget hasReturn numNodes isReplicated parameters =>
    simp only [step] at hstep
    split at hstep
    · next hn =>
      cases hstep
      refine .newTask _ ⟨rfl, rfl, ?_⟩ hn
      simp [Task.accesses, Task.new, List.filterMap_map, Function.comp_def]
    · cases hstep
  | waitForTask dataId am =>
    cases hstep
    exact .offered (.waitForTask dataId am s.nextSemaphore) _ rfl fun t => APRequest.noConfusion
  | barrier appId =>
    cases hstep
    exact .offered (.barrier appId s.nextSemaphore) _ rfl fun t => APRequest.noConfusion
  | noMoreTasks appId =>
    cases hstep
    exact .offered (.endOfApp appId s.nextSemaphore) _ rfl fun t => APRequest.noConfusion
  | registerDataAccess am ref =>
    cases hstep
    exact .offered (.registerDataAccess am ref) s.nextSemaphore rfl fun t => APRequest.noConfusion
  | process env fuel =>
    simp only [step] at hstep
    cases hrs : s.requests with
    | nil => rw [hrs] at hstep; cases hstep
    | cons r rs =>
      rw [hrs] at hstep
      exact .processed r rs hrs hstep
  | executeTask workers =>
    simp only [step] at hstep
    cases hs : s.submitted with
    | nil => rw [hs] at hstep; cases hstep
    | cons t ts =>
      rw [hs] at hstep
      dsimp only at hstep
      split at hstep
      · next hc =>
        cases hstep
        exact .executed t ts hs hc.1 hc.2
      · cases hstep
  | launch e =>
    simp only [step] at hstep
    split at hstep
    · next hc =>
      cases hstep
      have hp : (s.execution e).isPending = true := by simp [Execution.isPending, hc.2.1]
      obtain ⟨id, group, he⟩ := doAction_eq s e
      rw [he]
      exact .moved e _ group (Execution.moved_of_pending hp .running nofun id) rfl
    · cases hstep
  | completed e =>
    simp only [step] at hstep
    split at hstep
    · next hc =>
      cases hstep
      have hp : (s.execution e).isPending = true := by simp [Execution.isPending, hc.2]
      exact .ended e .finished _ hc.1 (h.not_triggered hc.1.1 hp) (.inl ⟨rfl, rfl⟩)
    · cases hstep
  | error e =>
    simp only [step] at hstep
    split at hstep
    · next hc =>
      cases hstep
      have hp : (s.execution e).isPending = true := by simp [Execution.isPending, hc.2]
      exact .moved e _ s.group (Execution.moved_of_pending hp .runnable nofun _) rfl
    · cases hstep
  | failed e =>
    simp only [step] at hstep
    split at hstep
    · next hc =>
      cases hstep
      have hp : (s.execution e).isPending = true := by
        obtain hr | hr := hc.2
        · simp [Execution.isPending, hr]
        · simp [Execution.isPending, hr.1]
      exact .moved e _ s.group (Execution.moved_of_pending hp .failed nofun _) rfl
    · cases hstep
  | doFailed e =>
    simp only [step] at hstep
    split at hstep
    · next hc =>
      cases hstep
      have heq : { s.execution e with triggered := true } =
          { s.execution e with state := .failed, triggered := true } := by rw [← hc.2.1]
      rw [heq]
      exact .ended e .failed _ hc.1 hc.2.2 (.inr ⟨rfl, rfl⟩)
    · cases hstep
  | dispatch =>
    simp only [step] at hstep
    cases htodo : s.todo with
    | nil => rw [htodo] at hstep; cases hstep
    | cons i is =>
      rw [htodo] at hstep
      cases hstep
      exact .dispatched i is htodo

theorem mem_onCompleted_status {status : TaskState} (h : .setStatus f status ∈ x.onCompleted e) :
    f = e ∧ status = .finished := by
  unfold Execution.onCompleted at h
  split at h
  · simpa using h
  · simp at h

theorem mem_onFailed_status {status : TaskState} (h : .setStatus f status ∈ x.onFailed e) :
    f = e ∧ status = .failed := by
  unfold Execution.onFailed at h
  split at h
  · simpa using h
  · simpa using h

theorem decrease_mem_onCompleted (x : Execution) (e : ExecutionId) : .decreaseExecutionCount e ∈ x.onCompleted e := by
  unfold Execution.onCompleted
  split <;> simp

theorem decrease_mem_onFailed (x : Execution) (e : ExecutionId) : .decreaseExecutionCount e ∈ x.onFailed e := by
  unfold Execution.onFailed
  split <;> simp

/-- Every step keeps the two threads consistent. -/
theorem Consistent.step (h : Consistent s) {drawGraph : Bool} {l : Label} (hstep : s.step drawGraph l = some s') :
    Consistent s' := by
  cases h.move hstep with
  | newTask x hx hn => exact h.newTask hx.1 hx.2.1 hn
  | offered r n hr hend =>
    have := h.offer hr hend
    exact { this with dispatching := { this.dispatching with } }
  | processed r rs hrs hp => exact h.process hrs hp
  | executed t ts hs htodo hw => exact h.execute hs htodo _
  | moved e x group hx hd => exact h.moved (moved_update hx)
  | ended e state todo hcan ht hs =>
    obtain ⟨rfl, rfl⟩ | ⟨rfl, rfl⟩ := hs
    · exact h.trigger hcan ht (.inl rfl) (onCompleted_nodup _ e) (fun i => Execution.onCompleted_execution)
        (decrease_mem_onCompleted _ e) fun f status hm => .inl ⟨(mem_onCompleted_status hm).2, rfl⟩
    · exact h.trigger hcan ht (.inr rfl) (onFailed_nodup _ e) (fun i => Execution.onFailed_execution)
        (decrease_mem_onFailed _ e) fun f status hm => .inr ⟨(mem_onFailed_status hm).2, rfl⟩
  | dispatched i is htodo => exact h.dispatch htodo

end

end AccessProcessor

end Compss.Runtime
