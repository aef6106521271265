/-
What each request to the access processor does, apart from the links between
tasks, the data and the table of last writers.

`Aside a b` says that nothing else happened from `a` to `b`. Every method ends
aside of a state that is written down here, whether it returns or raises.
-/
import Compss.Runtime.AccessProcessor

namespace Compss.Runtime

open Lib

/-- `y` is `x` but for its links, its accesses and its place in the graph. -/
structure Task.Alike (x y : Task) : Prop where
  appId : y.appId = x.appId
  numNodes : y.numNodes = x.numNodes
  isReplicated : y.isReplicated = x.isReplicated
  status : y.status = x.status
  executions : y.executions = x.executions
  executionCount : y.executionCount = x.executionCount

theorem Task.Alike.refl (x : Task) : x.Alike x := ⟨rfl, rfl, rfl, rfl, rfl, rfl⟩

theorem Task.Alike.trans {x y z : Task} (h : x.Alike y) (h' : y.Alike z) : x.Alike z where
  appId := h'.appId.trans h.appId
  numNodes := h'.numNodes.trans h.numNodes
  isReplicated := h'.isReplicated.trans h.isReplicated
  status := h'.status.trans h.status
  executions := h'.executions.trans h.executions
  executionCount := h'.executionCount.trans h.executionCount

theorem Task.Alike.isFree {x y : Task} (h : x.Alike y) : y.isFree = x.isFree := by
  rw [Task.isFree, h.executionCount, Task.isFree]

namespace TaskAnalyser

structure Aside (a b : TaskAnalyser) : Prop where
  task : ∀ t, (a.task t).Alike (b.task t)
  taskCount : ∀ appId, (b.appIdToTaskCount appId).getD 0 = (a.appIdToTaskCount appId).getD 0
  appIdToSemaphore : b.appIdToSemaphore = a.appIdToSemaphore
  waitedTasks : b.waitedTasks = a.waitedTasks
  analysed : b.analysed = a.analysed
  ended : b.ended = a.ended
  reported : b.reported = a.reported
  released : b.released = a.released

section
variable {a b c s : TaskAnalyser} {t u : TaskId} {appId : AppId} {sem : SemaphoreId} {x : Task}

theorem setTask_task : (s.setTask t x).task u = if u = t then x else s.task u := by
  simp [setTask, Function.update_apply]

@[simp] theorem setTask_self : (s.setTask t x).task t = x := by simp [setTask]

theorem forall_setTask {P : TaskId → Task → Prop} (hx : P t x) (h : ∀ u, u ≠ t → P u (s.task u)) (u : TaskId) :
    P u ((s.setTask t x).task u) := by
  rw [setTask_task]
  split
  · next he => subst he; exact hx
  · next he => exact h u he

theorem Aside.refl (a : TaskAnalyser) : Aside a a := ⟨fun _ => .refl _, fun _ => rfl, rfl, rfl, rfl, rfl, rfl, rfl⟩

theorem Aside.trans (h : Aside a b) (h' : Aside b c) : Aside a c where
  task t := (h.task t).trans (h'.task t)
  taskCount appId := (h'.taskCount appId).trans (h.taskCount appId)
  appIdToSemaphore := h'.appIdToSemaphore.trans h.appIdToSemaphore
  waitedTasks := h'.waitedTasks.trans h.waitedTasks
  analysed := h'.analysed.trans h.analysed
  ended := h'.ended.trans h.ended
  reported := h'.reported.trans h.reported
  released := h'.released.trans h.released

/-! ## Steps aside -/

theorem modifyTask_run (f : Task → Task) : modifyTask t f s = .ok () (s.setTask t (f (s.task t))) := rfl

theorem modifyTask_aside {f : Task → Task} (hf : ∀ x : Task, x.Alike (f x)) : Java.Keeps (Aside a) (modifyTask t f) :=
  .modify fun b hb =>
    { hb with task := forall_setTask (P := fun u y => (a.task u).Alike y) ((hb.task t).trans (hf _)) fun u _ => hb.task u }

theorem modify_aside {f : TaskAnalyser → TaskAnalyser} (hf : ∀ b, Aside b (f b)) :
    Java.Keeps (Aside a) (modify f : M PUnit) := .modify fun b hb => hb.trans (hf b)

/-- The data are aside. -/
theorem onDip_aside {α : Type} (x : DataInfoProvider.M α) : Java.Keeps (Aside a) (onDip x) := by
  intro b hb
  unfold onDip
  cases x b.dip with
  | ok r p => exact { hb with }
  | error e p => exact { hb with }

theorem addNewTask_aside (t : TaskId) : Java.Keeps (Aside a) (addNewTask t) := by
  refine .bind .get fun s => .bind (modifyTask_aside fun x => ⟨rfl, rfl, rfl, rfl, rfl, rfl⟩) fun _ => ?_
  exact modify_aside fun b => { Aside.refl b with }

theorem addEdgeFromTaskToMain_aside : Java.Keeps (Aside a) addEdgeFromTaskToMain :=
  .bind .get fun s => .ite (fun _ => modify_aside fun b => { Aside.refl b with }) fun _ => .pure _

theorem addNewBarrier_aside : Java.Keeps (Aside a) addNewBarrier := by
  refine .bind (modify_aside fun b => { Aside.refl b with }) fun _ => .bind .get fun s => ?_
  exact .ite (fun _ => .throw _) fun _ => .pure _

theorem addDataDependency_aside (t producer : TaskId) : Java.Keeps (Aside a) (addDataDependency t producer) :=
  .bind (modifyTask_aside fun x => ⟨rfl, rfl, rfl, rfl, rfl, rfl⟩)
    fun _ => modifyTask_aside fun x => ⟨rfl, rfl, rfl, rfl, rfl, rfl⟩

theorem checkDependencyForRead_aside (t : TaskId) (daId : DataAccessId) :
    Java.Keeps (Aside a) (checkDependencyForRead t daId) := by
  refine .bind .get fun s => ?_
  cases s.writer daId.dataId with
  | none => exact .pure _
  | some w => exact .ite (fun _ => addDataDependency_aside t w) fun _ => .pure _

theorem checkSchedulingEnforcing_aside (t : TaskId) (daId : DataAccessId) :
    Java.Keeps (Aside a) (checkSchedulingEnforcing t daId) := by
  unfold checkSchedulingEnforcing
  cases daId.readVersion with
  | none => exact .pure _
  | some v =>
    refine .ite (fun _ => .bind .get fun s => ?_) fun _ => .pure _
    exact modifyTask_aside fun x => ⟨rfl, rfl, rfl, rfl, rfl, rfl⟩

theorem registerOutputValues_aside (t : TaskId) (daId : DataAccessId) :
    Java.Keeps (Aside a) (registerOutputValues t daId) := modify_aside fun b => { Aside.refl b with }

theorem processParameter_aside (t : TaskId) (constrainingParam : Int) (paramIdx : Nat) :
    Java.Keeps (Aside a) (processParameter t constrainingParam paramIdx) := by
  refine .bind .get fun s => ?_
  cases (s.task t).parameters[paramIdx]? with
  | none => exact .pure _
  | some p =>
    dsimp only
    cases p.ref with
    | none => exact .pure _
    | some ref =>
      refine .bind (onDip_aside _) fun daId => .bind (modifyTask_aside fun x => ⟨rfl, rfl, rfl, rfl, rfl, rfl⟩) fun _ => ?_
      cases accessMode p.direction with
      | R =>
        refine .bind (checkDependencyForRead_aside t daId) fun _ => ?_
        exact .ite (fun _ => checkSchedulingEnforcing_aside t daId) fun _ => .pure _
      | W => exact registerOutputValues_aside t daId
      | RW =>
        refine .bind (checkDependencyForRead_aside t daId) fun _ => .ite (fun _ => ?_) fun _ => ?_
        · exact .bind (checkSchedulingEnforcing_aside t daId) fun _ => registerOutputValues_aside t daId
        · exact registerOutputValues_aside t daId

theorem accessed_aside (p : Parameter) : Java.Keeps (Aside a) (accessed p) := by
  unfold accessed
  cases p.ref with
  | none => exact .pure _
  | some ref =>
    cases p.dataAccessId with
    | none => exact .throw _
    | some daId => exact onDip_aside _

theorem checkResultFileTransfer_aside (env : TransferEnv) (fuel : Nat) (t : TaskId) :
    Java.Keeps (Aside a) (checkResultFileTransfer env fuel t) := by
  refine .bind .get fun s => .forM _ fun d _ => .tryCatch ?_ fun e => .ite (fun _ => .throw _) fun _ => .pure _
  exact .bind (onDip_aside _) fun _ => onDip_aside _

theorem releaseDataDependents_aside (t : TaskId) : Java.Keeps (Aside a) (releaseDataDependents t) := by
  refine .bind .get fun s => .bind (.forM _ fun u _ => ?_) fun _ => ?_
  · exact modifyTask_aside fun x => ⟨rfl, rfl, rfl, rfl, rfl, rfl⟩
  · exact modifyTask_aside fun x => ⟨rfl, rfl, rfl, rfl, rfl, rfl⟩

/-! ## New tasks -/

/-- The task has been counted. -/
def counted (s : TaskAnalyser) (t : TaskId) : TaskAnalyser :=
  let appId := (s.task t).appId
  { s with
    appIdToTaskCount := Function.update s.appIdToTaskCount appId (some ((s.appIdToTaskCount appId).getD 0 + 1)),
    analysed := s.analysed ++ [t] }

theorem Aside.counted (h : Aside a b) (t : TaskId) : Aside (counted a t) (counted b t) :=
  { h with
    taskCount := fun appId => by
      simp only [TaskAnalyser.counted, (h.task t).appId, Function.update_apply]
      split
      · rw [h.taskCount]
      · exact h.taskCount appId
    analysed := by simp only [TaskAnalyser.counted, h.analysed] }

theorem processTask_aside (drawGraph : Bool) (t : TaskId) (s : TaskAnalyser) :
    Aside (counted s t) (Java.final (processTask drawGraph t s)) := by
  have hrest : ∀ b, Aside s b → Aside (counted s t) (Java.final ((do
      let x := (← get).task t
      modify fun s =>
        { s with
          appIdToTaskCount :=
            Function.update s.appIdToTaskCount x.appId (some ((s.appIdToTaskCount x.appId).getD 0 + 1)),
          analysed := s.analysed ++ [t] }
      (List.range x.parameters.length).forM (processParameter t (constrainingParam x)) : M Unit) b)) := by
    intro b hb
    rw [Java.bind_ok (Java.get_run b), Java.bind_ok (Java.modify_run _ b)]
    exact Java.Keeps.forM _ (fun i _ => processParameter_aside t _ i) (counted b t) (hb.counted t)
  unfold processTask
  cases drawGraph with
  | true =>
    obtain ⟨b, hb⟩ : ∃ b, addNewTask t s = .ok () b := ⟨_, rfl⟩
    have hab := addNewTask_aside (a := s) t s (.refl s)
    rw [hb] at hab
    rw [if_pos rfl, Java.bind_ok hb]
    exact hrest b hab
  | false => exact hrest s (.refl s)

/-! ## The end of a task -/

/-- The state `countEnd` leaves, with `count` the tasks of the application that
are left. -/
def countedEnd (s : TaskAnalyser) (appId : AppId) (count : Int) : TaskAnalyser :=
  if count = 0 then
    match s.appIdToSemaphore appId with
    | none =>
      { s with
        appIdToTaskCount := Function.update s.appIdToTaskCount appId (some 0),
        appIdBarrierFlags := Function.update s.appIdBarrierFlags appId false }
    | some sem =>
      { s with
        appIdToTaskCount := Function.update s.appIdToTaskCount appId none,
        appIdToSemaphore := Function.update s.appIdToSemaphore appId none,
        appIdBarrierFlags := Function.update s.appIdBarrierFlags appId false,
        released := .application appId sem :: s.released }
  else { s with appIdToTaskCount := Function.update s.appIdToTaskCount appId (some count) }

/-- The tasks, their ends and the waits for them stay. -/
theorem countedEnd_eq (s : TaskAnalyser) (appId : AppId) (count : Int) :
    ∃ counts sems flags released, countedEnd s appId count =
      { s with
        appIdToTaskCount := counts, appIdToSemaphore := sems, appIdBarrierFlags := flags, released := released } := by
  unfold countedEnd
  split
  · cases s.appIdToSemaphore appId with
    | none => exact ⟨_, _, _, _, rfl⟩
    | some sem => exact ⟨_, _, _, _, rfl⟩
  · exact ⟨_, _, _, _, rfl⟩

theorem countedEnd_count (s : TaskAnalyser) (appId : AppId) (count : Int) (app : AppId) :
    ((countedEnd s appId count).appIdToTaskCount app).getD 0 =
      if app = appId then count else (s.appIdToTaskCount app).getD 0 := by
  unfold countedEnd
  split
  · next hc =>
    cases s.appIdToSemaphore appId with
    | none =>
      simp only [Function.update_apply]
      split
      · rw [hc]; rfl
      · rfl
    | some sem =>
      simp only [Function.update_apply]
      split
      · rw [hc]; rfl
      · rfl
  · simp only [Function.update_apply]
    split <;> rfl

/-- At no task left, who waits for the application is released. -/
theorem countedEnd_released (s : TaskAnalyser) (appId : AppId) (count : Int) :
    (countedEnd s appId count).released =
      (if count = 0 then (s.appIdToSemaphore appId).toList.map (Release.application appId) else []) ++ s.released := by
  unfold countedEnd
  split
  · cases s.appIdToSemaphore appId <;> rfl
  · rfl

theorem countedEnd_semaphore (s : TaskAnalyser) (appId : AppId) (count : Int) (app : AppId) :
    (countedEnd s appId count).appIdToSemaphore app =
      if app = appId ∧ count = 0 then none else s.appIdToSemaphore app := by
  unfold countedEnd
  split
  · next hc =>
    cases hsem : s.appIdToSemaphore appId with
    | none =>
      by_cases ha : app = appId
      · simp [ha, hc, hsem]
      · simp [ha]
    | some sem => simp [Function.update_apply, hc]
  · next hc => simp [hc]

theorem countEnd_none (h : s.appIdToTaskCount appId = none) : countEnd appId s = .error .nullPointer s := by
  rw [countEnd, Java.bind_ok (Java.get_run s)]
  conv_lhs => simp only [h]
  rfl

theorem countEnd_some {count : Int} (h : s.appIdToTaskCount appId = some count) :
    countEnd appId s = .ok () (countedEnd s appId (count - 1)) := by
  rw [countEnd, Java.bind_ok (Java.get_run s)]
  conv_lhs => simp only [h]
  rw [Java.bind_ok (Java.modify_run _ s), countedEnd]
  split
  · next hc =>
    rw [Java.bind_ok (Java.modify_run _ _), Java.bind_ok (Java.get_run _)]
    cases hsem : s.appIdToSemaphore appId with
    | none =>
      simp only [hc]
      rfl
    | some sem =>
      simp only
      rw [Java.bind_ok (Java.modify_run _ _), release, Java.modify_run]
      simp only [Function.update_idem]
  · rfl

/-- The waits for the task are over. -/
def waitsReleased (s : TaskAnalyser) (t : TaskId) : TaskAnalyser :=
  { s with
    waitedTasks := Function.update s.waitedTasks t none,
    released := ((s.waitedTasks t).getD []).reverse.map Release.datum ++ s.released }

theorem releaseAll_run : ∀ (sems : List SemaphoreId) (s : TaskAnalyser),
    (sems.forM fun sem => release (.datum sem)) s =
      .ok () { s with released := sems.reverse.map Release.datum ++ s.released }
  | [], s => rfl
  | sem :: sems, s => by
    change ((release (.datum sem) >>= fun _ => sems.forM fun sem => release (.datum sem)) : M Unit) s = _
    rw [release, Java.bind_ok (Java.modify_run _ s), releaseAll_run sems]
    simp

theorem releaseWaits_run (t : TaskId) (s : TaskAnalyser) : releaseWaits t s = .ok () (waitsReleased s t) := by
  rw [releaseWaits, Java.bind_ok (Java.get_run s)]
  cases h : s.waitedTasks t with
  | none =>
    have hup : Function.update s.waitedTasks t none = s.waitedTasks := by rw [← h, Function.update_eq_self]
    simp [waitsReleased, h, hup]
  | some sems =>
    simp only
    rw [Java.bind_ok (Java.modify_run _ s), releaseAll_run]
    simp [waitsReleased, h]

/-- The end of a task that is free and has not failed. An application without
a count makes it raise at once. -/
theorem treatEnd_aside (env : TransferEnv) (fuel : Nat) (t : TaskId) (s : TaskAnalyser) :
    (s.appIdToTaskCount (s.task t).appId = none ∧
      Java.final (treatEnd env fuel t s) = { s with ended := t :: s.ended }) ∨
    ∃ count, s.appIdToTaskCount (s.task t).appId = some count ∧
      Aside (waitsReleased (countedEnd { s with ended := t :: s.ended } (s.task t).appId (count - 1)) t)
        (Java.final (treatEnd env fuel t s)) := by
  obtain ⟨u, hu⟩ : ∃ u : TaskAnalyser, u = { s with ended := t :: s.ended } := ⟨_, rfl⟩
  rw [treatEnd, Java.bind_ok (Java.modify_run _ s), Java.bind_ok (Java.get_run _), ← hu]
  have hcount : u.appIdToTaskCount (u.task t).appId = s.appIdToTaskCount (s.task t).appId := by rw [hu]
  cases hc : s.appIdToTaskCount (s.task t).appId with
  | none =>
    rw [hc] at hcount
    rw [Java.bind_error (countEnd_none hcount)]
    exact .inl ⟨rfl, rfl⟩
  | some count =>
    rw [hc] at hcount
    rw [Java.bind_ok (countEnd_some hcount), Java.bind_ok (releaseWaits_run t _)]
    refine .inr ⟨count, rfl, ?_⟩
    have happ : (u.task t).appId = (s.task t).appId := by rw [hu]
    rw [← happ]
    refine Java.Keeps.bind (.forM _ fun p _ => accessed_aside p) (fun _ => .bind .get fun v => .ite (fun _ => ?_) fun _ => ?_) _ (.refl _)
    · exact .bind (checkResultFileTransfer_aside env fuel t) fun _ => releaseDataDependents_aside t
    · exact releaseDataDependents_aside t

theorem endTask_notFree {env : TransferEnv} {fuel : Nat} (h : (s.task t).isFree = false) :
    endTask env fuel t s = .ok () s := by
  rw [endTask, Java.bind_ok (Java.get_run s)]
  simp only [h, Bool.not_false, if_true, Java.pure_run]

theorem endTask_failed {env : TransferEnv} {fuel : Nat} (h : (s.task t).isFree = true)
    (hf : (s.task t).status = .failed) : endTask env fuel t s = .ok () { s with reported := t :: s.reported } := by
  rw [endTask, Java.bind_ok (Java.get_run s)]
  simp only [h, hf, Bool.not_true, Bool.false_eq_true, if_false, if_true]
  rfl

theorem endTask_free {env : TransferEnv} {fuel : Nat} (h : (s.task t).isFree = true)
    (hf : (s.task t).status ≠ .failed) : endTask env fuel t s = treatEnd env fuel t s := by
  rw [endTask, Java.bind_ok (Java.get_run s)]
  simp only [h, hf, Bool.not_true, Bool.false_eq_true, if_false]

/-! ## Waits -/

/-- The wait is over at once, or is noted for the end of the last writer. -/
def foundWaited (s : TaskAnalyser) (dataId : Nat) (sem : SemaphoreId) : TaskAnalyser :=
  match s.writer dataId with
  | none => { s with released := .datum sem :: s.released }
  | some w =>
    if (s.task w).status = .finished then { s with released := .datum sem :: s.released }
    else { s with waitedTasks := Function.update s.waitedTasks w (some ((s.waitedTasks w).getD [] ++ [sem])) }

/-- The table of last writers after a wait. -/
def waitedWriters (s : TaskAnalyser) (dataId : Nat) (am : AccessMode) : List (Nat × Option TaskId) :=
  if (s.writer dataId).isSome ∧ am = .RW then (s.putWriter dataId none).writers else s.writers

/-- A wait leaves the tasks and their ends as they are. -/
theorem foundWaited_eq (s : TaskAnalyser) (dataId : Nat) (sem : SemaphoreId) :
    ∃ waited released, foundWaited s dataId sem = { s with waitedTasks := waited, released := released } := by
  unfold foundWaited
  cases s.writer dataId with
  | none => exact ⟨_, _, rfl⟩
  | some w =>
    dsimp only
    split
    · exact ⟨_, _, rfl⟩
    · exact ⟨_, _, rfl⟩

theorem addEdgeFromTaskToMain_run (s : TaskAnalyser) :
    ∃ n detected, addEdgeFromTaskToMain s =
      .ok () { s with synchronizationId := n, taskDetectedAfterSync := detected } := by
  rw [addEdgeFromTaskToMain, Java.bind_ok (Java.get_run s)]
  by_cases hd : s.taskDetectedAfterSync = true
  · rw [if_pos hd, Java.modify_run]
    exact ⟨_, _, rfl⟩
  · rw [if_neg hd, Java.pure_run]
    exact ⟨_, _, rfl⟩

theorem findWaitedTask_run (drawGraph : Bool) (dataId : Nat) (am : AccessMode) (sem : SemaphoreId) (s : TaskAnalyser) :
    ∃ n detected, findWaitedTask drawGraph dataId am sem s = .ok ()
      { foundWaited s dataId sem with
        writers := waitedWriters s dataId am, synchronizationId := n, taskDetectedAfterSync := detected } := by
  rw [findWaitedTask, Java.bind_ok (Java.get_run s)]
  cases hw : s.writer dataId with
  | none =>
    refine ⟨s.synchronizationId, s.taskDetectedAfterSync, ?_⟩
    simp only [foundWaited, hw, waitedWriters, release, Option.isSome_none, Bool.false_eq_true, false_and, if_false]
    rfl
  | some w =>
    -- the wait itself, after the table and the graph have been touched
    have hrest : ∀ ws n detected, (do
        if ((← get).task w).status = .finished then
          release (.datum sem)
        else
          modify fun s =>
            { s with
              waitedTasks :=
                Function.update s.waitedTasks w (some ((s.waitedTasks w).getD [] ++ [sem])) } : M Unit)
        { s with writers := ws, synchronizationId := n, taskDetectedAfterSync := detected } = .ok ()
          { foundWaited s dataId sem with
            writers := ws, synchronizationId := n, taskDetectedAfterSync := detected } := by
      intro ws n detected
      rw [Java.bind_ok (Java.get_run _)]
      simp only [foundWaited, hw]
      split
      · rfl
      · rfl
    have hgraph : ∀ u : TaskAnalyser, ∀ f : M Unit, ∃ n detected,
        (if drawGraph then addEdgeFromTaskToMain >>= fun _ => f else f) u =
          f { u with synchronizationId := n, taskDetectedAfterSync := detected } := by
      intro u f
      cases drawGraph with
      | true =>
        obtain ⟨n, detected, h⟩ := addEdgeFromTaskToMain_run u
        exact ⟨n, detected, Java.bind_ok h⟩
      | false => exact ⟨u.synchronizationId, u.taskDetectedAfterSync, rfl⟩
    simp only [waitedWriters, hw, Option.isSome_some, true_and]
    split
    · obtain ⟨n, detected, h⟩ := hgraph (s.putWriter dataId none) _
      refine ⟨n, detected, ?_⟩
      rw [Java.bind_ok (Java.modify_run _ s)]
      exact h.trans (hrest _ n detected)
    · obtain ⟨n, detected, h⟩ := hgraph s _
      exact ⟨n, detected, h.trans (hrest _ n detected)⟩

theorem findWaitedTask_aside (drawGraph : Bool) (dataId : Nat) (am : AccessMode) (sem : SemaphoreId)
    (s : TaskAnalyser) :
    Aside (foundWaited s dataId sem) (Java.final (findWaitedTask drawGraph dataId am sem s)) := by
  obtain ⟨n, detected, h⟩ := findWaitedTask_run drawGraph dataId am sem s
  rw [h]
  exact { Aside.refl (foundWaited s dataId sem) with }

/-! ## Barriers -/

/-- The application goes on at once, or is stopped until its tasks have ended. -/
def stopped (s : TaskAnalyser) (appId : AppId) (sem : SemaphoreId) : TaskAnalyser :=
  if (s.appIdToTaskCount appId).getD 0 = 0 then { s with released := .application appId sem :: s.released }
  else { s with appIdToSemaphore := Function.update s.appIdToSemaphore appId (some sem) }

theorem stopped_eq (s : TaskAnalyser) (appId : AppId) (sem : SemaphoreId) :
    ∃ sems released, stopped s appId sem = { s with appIdToSemaphore := sems, released := released } := by
  unfold stopped
  split
  · exact ⟨_, _, rfl⟩
  · exact ⟨_, _, rfl⟩

theorem addNewBarrier_raises (h : ∃ entry ∈ s.writers, entry.2 = none) :
    ∃ n, addNewBarrier s = .error .nullPointer { s with synchronizationId := n, taskDetectedAfterSync := false } := by
  refine ⟨s.synchronizationId + 1, ?_⟩
  rw [addNewBarrier, Java.bind_ok (Java.modify_run _ s), Java.bind_ok (Java.get_run _), if_pos (by simpa using h)]
  rfl

theorem addNewBarrier_run (h : ∀ entry ∈ s.writers, entry.2 ≠ none) :
    ∃ n, addNewBarrier s = .ok () { s with synchronizationId := n, taskDetectedAfterSync := false } := by
  refine ⟨s.synchronizationId + 1, ?_⟩
  rw [addNewBarrier, Java.bind_ok (Java.modify_run _ s), Java.bind_ok (Java.get_run _), 
    if_neg (by simpa using fun d hd => h (d, none) hd rfl)]
  rfl

theorem barrier_raises (h : ∃ entry ∈ s.writers, entry.2 = none) (appId : AppId) (sem : SemaphoreId) :
    ∃ b, barrier true appId sem s = .error .nullPointer b ∧ Aside s b := by
  obtain ⟨n, hb⟩ := addNewBarrier_raises h
  refine ⟨{ s with synchronizationId := n, taskDetectedAfterSync := false }, ?_, { Aside.refl s with }⟩
  rw [barrier, Java.bind_ok (Java.get_run s)]
  simp only [if_true]
  exact Java.bind_error hb

theorem barrier_run {drawGraph : Bool} (h : drawGraph = true → ∀ entry ∈ s.writers, entry.2 ≠ none) (appId : AppId)
    (sem : SemaphoreId) :
    ∃ b, barrier drawGraph appId sem s = .ok () b ∧ Aside (stopped s appId sem) b := by
  have hrest : ∀ n detected, ∃ b, (do
      if (s.appIdToTaskCount appId).getD 0 = 0 then
        release (.application appId sem)
      else
        modify fun s =>
          { s with
            appIdBarrierFlags := Function.update s.appIdBarrierFlags appId true,
            appIdToSemaphore := Function.update s.appIdToSemaphore appId (some sem) } : M Unit)
      { s with synchronizationId := n, taskDetectedAfterSync := detected } = .ok () b ∧
        Aside (stopped s appId sem) b := by
    intro n detected
    unfold stopped
    split
    · exact ⟨_, rfl, { Aside.refl _ with }⟩
    · exact ⟨_, rfl, { Aside.refl _ with }⟩
  rw [barrier, Java.bind_ok (Java.get_run s)]
  cases drawGraph with
  | true =>
    obtain ⟨n, hb⟩ := addNewBarrier_run (h rfl)
    simp only [if_true]
    rw [Java.bind_ok hb]
    exact hrest n false
  | false => exact hrest s.synchronizationId s.taskDetectedAfterSync

theorem barrier_aside (drawGraph : Bool) (appId : AppId) (sem : SemaphoreId) (s : TaskAnalyser) :
    Aside s (Java.final (barrier drawGraph appId sem s)) ∨
      Aside (stopped s appId sem) (Java.final (barrier drawGraph appId sem s)) := by
  by_cases h : drawGraph = true ∧ ∃ entry ∈ s.writers, entry.2 = none
  · obtain ⟨rfl, h⟩ := h
    obtain ⟨b, hb, ha⟩ := barrier_raises h appId sem
    rw [hb]
    exact .inl ha
  · have hw : drawGraph = true → ∀ entry ∈ s.writers, entry.2 ≠ none := fun hd entry he hn => h ⟨hd, entry, he, hn⟩
    obtain ⟨b, hb, ha⟩ := barrier_run hw appId sem
    rw [hb]
    exact .inr ha

theorem noMoreTasks_aside (appId : AppId) (sem : SemaphoreId) (s : TaskAnalyser) :
    Aside (stopped s appId sem) (Java.final (noMoreTasks appId sem s)) := by
  rw [noMoreTasks, Java.bind_ok (Java.get_run s)]
  simp only [stopped]
  split
  · next h =>
    refine { Aside.refl { s with released := .application appId sem :: s.released } with taskCount := fun app => ?_ }
    change (Function.update s.appIdToTaskCount appId none app).getD 0 = _
    rw [Function.update_apply]
    split
    · next he => rw [he, h]; rfl
    · rfl
  · exact { Aside.refl { s with appIdToSemaphore := Function.update s.appIdToSemaphore appId (some sem) } with }

end

end TaskAnalyser

end Compss.Runtime
