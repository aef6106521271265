/-
The ends of tasks: how often the end of a task is treated, and after what.

`endTask` looks at the count of a task when it takes the notification of one
of its executions, not when that was sent. A task whose count has reached zero
is treated once for every notification still to be taken, and never when there
is none. `Careful` is when exactly one is left: an earlier notification must
have been taken before the last execution decreases the count, and the last
execution must notify unless such a notification is still to be taken.

What happens to a task between its last execution and its end is counted in
`OneEnd`; every step of the two threads keeps it.
-/
import Compss.Runtime.Consistency

namespace Compss.Runtime

open Lib
open Scheduler (ActionState)

/-- The dispatcher will notify the end of `t`. -/
def Instr.notifies (task : ExecutionId → TaskId) (t : TaskId) : Instr → Bool
  | .notifyTaskEnd e => task e = t
  | .decreaseExecutionCount _ | .setStatus .. | .releaseSuccessors _ => false

namespace TaskAnalyser

/-- The tasks of the application that have been analysed and have not ended. -/
def unended (a : TaskAnalyser) (appId : AppId) : Nat :=
  a.analysed.countP fun t => (a.task t).appId = appId && t ∉ a.ended

theorem unended_congr {a b : TaskAnalyser} {appId : AppId} (hn : b.analysed = a.analysed) (he : b.ended = a.ended)
    (ht : ∀ t ∈ a.analysed, (b.task t).appId = (a.task t).appId) : b.unended appId = a.unended appId := by
  unfold unended
  rw [hn, he]
  refine List.countP_congr fun t hm => ?_
  rw [ht t hm]

/-- A new task has not ended. -/
theorem unended_analysed {a b : TaskAnalyser} {t : TaskId} (appId : AppId) (hn : b.analysed = a.analysed ++ [t])
    (he : b.ended = a.ended) (ht : t ∉ a.ended) (happ : ∀ u, (b.task u).appId = (a.task u).appId) :
    b.unended appId = a.unended appId + if (a.task t).appId = appId then 1 else 0 := by
  unfold unended
  rw [hn, he, List.countP_append, List.countP_singleton]
  simp [happ, ht]

/-- A task ends once. -/
theorem unended_ended {a b : TaskAnalyser} {t : TaskId} (appId : AppId) (hnodup : a.analysed.Nodup)
    (hn : b.analysed = a.analysed) (he : b.ended = t :: a.ended) (ht : t ∉ a.ended) (hm : t ∈ a.analysed)
    (happ : ∀ u, (b.task u).appId = (a.task u).appId) :
    b.unended appId + (if (a.task t).appId = appId then 1 else 0) = a.unended appId := by
  unfold unended
  rw [hn, he]
  split
  · next hta =>
    refine AccessProcessor.countP_clear (a := t) (by simp [hta, ht]) (by simp) hnodup hm fun u _ hu => ?_
    simp [happ, hu]
  · next hta =>
    refine List.countP_congr fun u _ => ?_
    by_cases hu : u = t
    · simp [happ, hu, hta]
    · simp [happ, hu]

/-- Those that were analysed without those that have ended. -/
theorem unended_eq {a : TaskAnalyser} (hn : a.analysed.Nodup) (he : a.ended.Nodup) (hsub : ∀ t ∈ a.ended, t ∈ a.analysed)
    (appId : AppId) :
    (a.unended appId : Int) = a.analysed.countP (fun t => (a.task t).appId = appId) -
      a.ended.countP fun t => (a.task t).appId = appId := by
  have hperm : (a.analysed.filter fun t => t ∈ a.ended).Perm a.ended :=
    (List.perm_ext_iff_of_nodup (hn.filter _) he).mpr fun t => by simpa using hsub t
  have hsplit := List.countP_eq_countP_filter_add a.analysed (fun t => (a.task t).appId = appId) fun t => t ∈ a.ended
  rw [hperm.countP_eq, List.countP_filter] at hsplit
  have hrest : a.unended appId = a.analysed.countP fun t => decide ((a.task t).appId = appId) && !decide (t ∈ a.ended) := by
    simp [unended]
  rw [hsplit, hrest]
  push_cast
  omega

theorem unended_pos {a : TaskAnalyser} {t : TaskId} (hm : t ∈ a.analysed) (ht : t ∉ a.ended) :
    0 < a.unended (a.task t).appId :=
  List.countP_pos_iff.mpr ⟨t, hm, by simp [ht]⟩

theorem unended_eq_zero {a : TaskAnalyser} {appId : AppId} :
    a.unended appId = 0 ↔ ∀ t ∈ a.analysed, (a.task t).appId = appId → t ∈ a.ended := by
  simp [unended, List.countP_eq_zero]

end TaskAnalyser

namespace AccessProcessor

/-- The notifications of ends of `t` that are still to be taken. -/
def notices (s : AccessProcessor) (t : TaskId) : Nat :=
  s.requests.count (.taskEnd t) + s.todo.countP (Instr.notifies (fun e => (s.execution e).task) t)

/-- All executions of the task have ended. -/
def Over (s : AccessProcessor) (t : TaskId) : Prop := s.executionsOf t ≠ [] ∧ s.uncounted t = 0

section
variable {s s' : AccessProcessor} {t u : TaskId} {e : ExecutionId} {drawGraph : Bool} {l : Label}

theorem over_congr (hn : s'.nextExecution = s.nextExecution)
    (hx : ∀ e < s.nextExecution, (s'.execution e).task = (s.execution e).task)
    (hc : ∀ e < s.nextExecution, (s'.execution e).counted = (s.execution e).counted) (t : TaskId) :
    s'.Over t ↔ s.Over t := by
  unfold Over
  rw [executionsOf_congr hn hx, uncounted_congr hn hx fun e he => hc e (mem_executionsOf.mp he).1]

theorem Over.counted (h : s.Over t) : ∀ e ∈ s.executionsOf t, (s.execution e).counted = true :=
  uncounted_eq_zero.mp h.2

theorem Consistent.over_iff (h : Consistent s) (hne : s.executionsOf t ≠ []) :
    s.Over t ↔ (s.analyser.task t).isFree = true := by
  rw [h.isFree, ← uncounted_eq_zero]
  exact ⟨And.right, fun h0 => ⟨hne, h0⟩⟩

/-- A task that is over ran, and no execution of it runs any more. -/
theorem Consistent.not_pending (h : Consistent s) (ho : s.Over t) :
    ∀ e ∈ s.executionsOf t, (s.execution e).isPending = false := by
  intro e he
  have hs := h.sound e (mem_executionsOf.mp he).1
  exact hs.triggered (hs.counted (ho.counted e he))

/-! ## What the steps do to the ends -/

/-- No execution ends for its task, and no end is treated. -/
structure Quiet (s s' : AccessProcessor) : Prop where
  isOver : ∀ t, s'.Over t ↔ s.Over t
  notices : ∀ t, s.Over t → s'.notices t = s.notices t
  analysed : s'.analyser.analysed = s.analyser.analysed
  ended : s'.analyser.ended = s.analyser.ended
  reported : s'.analyser.reported = s.analyser.reported
  released : s'.analyser.released = s.analyser.released
  taskCount : s'.analyser.appIdToTaskCount = s.analyser.appIdToTaskCount
  appId : ∀ t ∈ s.analyser.analysed, (s'.analyser.task t).appId = (s.analyser.task t).appId

theorem Consistent.quiet_newTask (h : Consistent s) (x : Task) :
    Quiet s { (s.setTask s.nextTask x).offer (.analyseTask s.nextTask) with nextTask := s.nextTask + 1 } where
  isOver t := Iff.rfl
  notices t _ := by simp [AccessProcessor.notices, AccessProcessor.offer, AccessProcessor.setTask]
  analysed := rfl
  ended := rfl
  reported := rfl
  released := rfl
  taskCount := rfl
  appId t ht := by
    simp only [AccessProcessor.offer, AccessProcessor.setTask, TaskAnalyser.setTask_task]
    rw [if_neg (h.known t (List.mem_append_left _ ht)).ne]

theorem quiet_offer {r : APRequest} (hend : ∀ t, r ≠ .taskEnd t) (n : SemaphoreId) :
    Quiet s { s.offer r with nextSemaphore := n } where
  isOver t := Iff.rfl
  notices t _ := by simp [AccessProcessor.notices, offer, List.count_cons, hend t]
  analysed := rfl
  ended := rfl
  reported := rfl
  released := rfl
  taskCount := rfl
  appId _ _ := rfl

theorem quiet_moved {x : Execution} (hx : (s.execution e).Moved x) (group : ExecutionId → MultiNode.MultiNodeGroup) :
    Quiet s { s with execution := Function.update s.execution e x, group := group } := by
  have hm := moved_update hx
  have htask : (fun f => (Function.update s.execution e x f).task) = fun f => (s.execution f).task :=
    funext fun f => (hm f).task
  exact
    { isOver := over_congr rfl (fun f _ => (hm f).task) fun f _ => (hm f).counted
      notices := fun t _ => by simp only [AccessProcessor.notices, htask]
      analysed := rfl
      ended := rfl
      reported := rfl
      released := rfl
      taskCount := rfl
      appId := fun _ _ => rfl }

theorem Consistent.quiet_execute (h : Consistent s) {ts : List TaskId} (hs : s.submitted = t :: ts) (htodo : s.todo = [])
    {workers : Nat} (hw : 0 < workers) : Quiet s { s.execute t workers with submitted := ts } where
  isOver u := by
    change (s.execute t workers).Over u ↔ s.Over u
    have ht := h.submitted t (hs ▸ List.mem_cons_self)
    have hpos : 0 < numExecutions (s.analyser.task t) workers :=
      numExecutions_pos (h.nodes t (h.known t (List.mem_append_left _ ht.1))) hw
    unfold Over
    rw [execute_executionsOf, execute_uncounted]
    by_cases hu : u = t
    · subst hu
      simp only [ht.2, ne_eq, not_true_eq_false, false_and, iff_false, if_true]
      omega
    · simp [hu]
  notices u _ := by simp [AccessProcessor.notices, AccessProcessor.execute, AccessProcessor.setTask, htodo]
  analysed := rfl
  ended := rfl
  reported := rfl
  released := rfl
  taskCount := rfl
  appId u _ := by
    simp only [AccessProcessor.execute, AccessProcessor.setTask, TaskAnalyser.setTask_task]
    split
    · next hu => rw [hu]
    · rfl

/-- An execution that ends has not decreased the count yet, so that its task is
not over. -/
theorem Consistent.quiet_trigger (h : Consistent s) (hcan : s.canEnd e) (ht : (s.execution e).triggered = false)
    {state : ActionState} {todo : List Instr} (hmade : ∀ i ∈ todo, i.execution = e) :
    Quiet s { s.setExecution e { s.execution e with state := state, triggered := true } with todo := todo } := by
  obtain ⟨hlt, hnil⟩ := hcan
  have htask : ∀ f, ((s.setExecution e { s.execution e with state := state, triggered := true }).execution f).task =
      (s.execution f).task := by
    intro f
    simp only [setExecution, Function.update_apply]
    split
    · next hf => rw [hf]
    · rfl
  have hcounted : ∀ f, ((s.setExecution e { s.execution e with state := state, triggered := true }).execution f).counted =
      (s.execution f).counted := by
    intro f
    simp only [setExecution, Function.update_apply]
    split
    · next hf => rw [hf]
    · rfl
  refine ⟨over_congr rfl (fun f _ => htask f) fun f _ => hcounted f, fun u hu => ?_, rfl, rfl, rfl, rfl, rfl,
    fun _ _ => rfl⟩
  have hne : (s.execution e).task ≠ u := by
    intro he
    have hc := hu.counted e (mem_executionsOf.mpr ⟨hlt, he⟩)
    exact absurd ((h.sound e hlt).counted hc) (by simp [ht])
  have hzero : todo.countP (Instr.notifies (fun f =>
      ((s.setExecution e { s.execution e with state := state, triggered := true }).execution f).task) u) = 0 := by
    rw [List.countP_eq_zero]
    intro i hi
    have hie := hmade i hi
    cases i with
    | notifyTaskEnd f =>
      obtain rfl : f = e := hie
      simp [Instr.notifies, htask, hne]
    | decreaseExecutionCount | setStatus | releaseSuccessors => simp [Instr.notifies]
  unfold AccessProcessor.notices
  rw [hnil]
  change _ + todo.countP _ = _
  rw [hzero]
  rfl

/-- The dispatcher's steps but one. -/
theorem quiet_dispatch {i : Instr} {is : List Instr} (htodo : s.todo = i :: is)
    (hi : ∀ e, i ≠ .decreaseExecutionCount e) : Quiet s { s.run i with todo := is } := by
  cases i with
  | decreaseExecutionCount e => exact (hi e rfl).elim
  | setStatus e status =>
    refine ⟨fun _ => Iff.rfl, fun u _ => ?_, rfl, rfl, rfl, rfl, rfl, fun u _ => ?_⟩
    · simp [AccessProcessor.notices, run, setTask, htodo, Instr.notifies]
    · simp only [run, setTask, TaskAnalyser.setTask_task]
      split
      · next hu => rw [hu]
      · rfl
  | notifyTaskEnd e =>
    refine ⟨fun _ => Iff.rfl, fun u _ => ?_, rfl, rfl, rfl, rfl, rfl, fun _ _ => rfl⟩
    simp only [AccessProcessor.notices, run, offer, htodo, List.count_append, List.countP_cons, Instr.notifies,
      List.count_singleton, beq_iff_eq, APRequest.taskEnd.injEq, decide_eq_true_eq]
    omega
  | releaseSuccessors e =>
    refine ⟨fun _ => over_congr rfl (fun _ _ => rfl) (fun _ _ => rfl) _, fun u _ => ?_, rfl, rfl, rfl, rfl, rfl,
      fun _ _ => rfl⟩
    simp [AccessProcessor.notices, run, htodo, Instr.notifies]

/-- A step treats no end and decreases no count, or it is one of the two that
do. -/
theorem Consistent.quiet (h : Consistent s) (hstep : s.step drawGraph l = some s') :
    Quiet s s' ∨ (∃ env fuel r rs, l = .process env fuel ∧ s.requests = r :: rs ∧
        s.process drawGraph env fuel r rs = some s') ∨
      ∃ e is, l = .dispatch ∧ s.todo = .decreaseExecutionCount e :: is ∧
        s' = { s.run (.decreaseExecutionCount e) with todo := is } := by
  cases h.move hstep with
  | newTask x hx hn => exact .inl (h.quiet_newTask x)
  | offered r n hr hend => exact .inl (quiet_offer hend n)
  | processed r rs hrs hp => exact .inr (.inl ⟨_, _, r, rs, rfl, hrs, hp⟩)
  | executed t ts hs htodo hw => exact .inl (h.quiet_execute hs htodo hw)
  | moved e x group hx hd => exact .inl (quiet_moved hx group)
  | ended e state todo hcan ht hs =>
    refine .inl (h.quiet_trigger hcan ht ?_)
    obtain ⟨-, rfl⟩ | ⟨-, rfl⟩ := hs
    · exact fun i => Execution.onCompleted_execution
    · exact fun i => Execution.onFailed_execution
  | dispatched i is htodo =>
    cases i with
    | decreaseExecutionCount e => exact .inr (.inr ⟨e, is, rfl, htodo, rfl⟩)
    | setStatus | notifyTaskEnd | releaseSuccessors => exact .inl (quiet_dispatch htodo fun e => Instr.noConfusion)

/-! ## One end -/

structure OneEnd (s : AccessProcessor) : Prop where
  pending : ∀ t, ¬ s.Over t → t ∉ s.analyser.ended ∧ t ∉ s.analyser.reported
  isOver : ∀ t, s.Over t → s.analyser.ended.count t + s.analyser.reported.count t + s.notices t = 1
  taskCount : ∀ appId, (s.analyser.appIdToTaskCount appId).getD 0 = s.analyser.unended appId

theorem init_oneEnd : OneEnd init where
  pending t _ := ⟨List.not_mem_nil, List.not_mem_nil⟩
  isOver t h := absurd h.1 (by simp [executionsOf, init])
  taskCount _ := rfl

theorem OneEnd.analysed (h : OneEnd s) (hc : Consistent s) (ht : t ∈ s.analyser.ended) : t ∈ s.analyser.analysed := by
  by_contra hn
  refine (h.pending t fun ho => ho.1 ?_).1 ht
  exact hc.executionsOf_of_not_analysed hn

theorem OneEnd.quiet (h : OneEnd s) (hq : Quiet s s') : OneEnd s' where
  pending t ho := by
    rw [hq.ended, hq.reported]
    exact h.pending t fun hs => ho ((hq.isOver t).mpr hs)
  isOver t ho := by
    have hs := (hq.isOver t).mp ho
    rw [hq.ended, hq.reported, hq.notices t hs]
    exact h.isOver t hs
  taskCount appId := by
    rw [hq.taskCount, h.taskCount, TaskAnalyser.unended_congr hq.analysed hq.ended hq.appId]

/-- A decrease of a count is no notification. -/
theorem notices_decrease {is : List Instr} (htodo : s.todo = .decreaseExecutionCount e :: is) (u : TaskId) :
    ({ s.run (.decreaseExecutionCount e) with todo := is } : AccessProcessor).notices u = s.notices u := by
  have htask : (fun f => ((s.run (.decreaseExecutionCount e)).execution f).task) = fun f => (s.execution f).task := by
    funext f
    rw [run_decrease_execution]
    split <;> rfl
  simp [AccessProcessor.notices, htodo, htask, Instr.notifies]
  rfl

/-- The execution that decreases the count of its task has not done so. -/
theorem Consistent.decreasing (h : Consistent s) {is : List Instr} (htodo : s.todo = .decreaseExecutionCount e :: is) :
    e ∈ s.executionsOf (s.execution e).task ∧ (s.execution e).counted = false := by
  have hhead : .decreaseExecutionCount e ∈ s.todo := htodo ▸ List.mem_cons_self
  have he : e < s.nextExecution := h.dispatching.made _ hhead
  exact ⟨mem_executionsOf.mpr ⟨he, rfl⟩, ((h.dispatching.decrease e he).mp hhead).2⟩

theorem Consistent.not_over_of_decreasing (h : Consistent s) {is : List Instr}
    (htodo : s.todo = .decreaseExecutionCount e :: is) : ¬ s.Over (s.execution e).task := fun ho => by
  obtain ⟨hmem, hcounted⟩ := h.decreasing htodo
  have := ho.counted e hmem
  rw [hcounted] at this
  cases this

/-- A task is over with the last decrease of its count. -/
theorem Consistent.over_decrease (h : Consistent s) {is : List Instr} (htodo : s.todo = .decreaseExecutionCount e :: is)
    (u : TaskId) : ({ s.run (.decreaseExecutionCount e) with todo := is } : AccessProcessor).Over u ↔
      s.Over u ∨ u = (s.execution e).task ∧ s.uncounted u = 1 := by
  obtain ⟨hmem, hcounted⟩ := h.decreasing htodo
  have hu := run_decrease_uncounted (mem_executionsOf.mp hmem).1 hcounted u
  change (s.run (.decreaseExecutionCount e)).Over u ↔ _
  unfold Over
  rw [run_decrease_executionsOf]
  by_cases hut : u = (s.execution e).task
  · subst hut
    have hne := List.ne_nil_of_mem hmem
    simp only [if_true] at hu
    simp only [hne, ne_eq, not_false_eq_true, true_and]
    omega
  · simp only [hut, if_false, Nat.add_zero] at hu
    simp [hut, hu]

/-- One notification is left when the count of a task reaches zero. -/
theorem OneEnd.decrease (h : OneEnd s) (hc : Consistent s) {is : List Instr}
    (htodo : s.todo = .decreaseExecutionCount e :: is)
    (hone : s.uncounted (s.execution e).task = 1 → s.notices (s.execution e).task = 1) :
    OneEnd { s.run (.decreaseExecutionCount e) with todo := is } := by
  have hnot := hc.not_over_of_decreasing htodo
  have hended : ({ s.run (.decreaseExecutionCount e) with todo := is } : AccessProcessor).analyser.ended =
    s.analyser.ended := rfl
  have hreported : ({ s.run (.decreaseExecutionCount e) with todo := is } : AccessProcessor).analyser.reported =
    s.analyser.reported := rfl
  refine ⟨fun u ho => ?_, fun u ho => ?_, fun appId => ?_⟩
  · exact h.pending u fun hs => ho ((hc.over_decrease htodo u).mpr (.inl hs))
  · rw [hended, hreported, notices_decrease htodo]
    obtain ho | ⟨rfl, h1⟩ := (hc.over_decrease htodo u).mp ho
    · exact h.isOver u ho
    · rw [List.count_eq_zero.mpr (h.pending _ hnot).1, List.count_eq_zero.mpr (h.pending _ hnot).2, hone h1]
  · refine (h.taskCount appId).trans (congrArg Nat.cast (TaskAnalyser.unended_congr ?_ ?_ fun u _ => ?_).symm)
    · rfl
    · rfl
    · change ((s.run (.decreaseExecutionCount e)).analyser.task u).appId = _
      rw [run_decrease_task]
      split <;> rfl

/-- The end of a task is treated, as far as the ends and the counts go. -/
structure Treated (t : TaskId) (a b : TaskAnalyser) : Prop where
  task : ∀ u, (a.task u).Alike (b.task u)
  analysed : b.analysed = a.analysed
  ended : b.ended = t :: a.ended
  reported : b.reported = a.reported
  taskCount : ∀ appId, (b.appIdToTaskCount appId).getD 0 =
    (a.appIdToTaskCount appId).getD 0 - if (a.task t).appId = appId then 1 else 0

/-- The end is noted even when counting it raises. -/
theorem treatEnd_ended (env : TransferEnv) (fuel : Nat) (t : TaskId) (a : TaskAnalyser) :
    (Java.final (TaskAnalyser.treatEnd env fuel t a)).ended = t :: a.ended ∧
      (Java.final (TaskAnalyser.treatEnd env fuel t a)).reported = a.reported := by
  obtain ⟨-, h⟩ | ⟨count, -, h⟩ := TaskAnalyser.treatEnd_aside env fuel t a
  · rw [h]
    exact ⟨rfl, rfl⟩
  · obtain ⟨_, _, _, _, he⟩ := TaskAnalyser.countedEnd_eq { a with ended := t :: a.ended } (a.task t).appId (count - 1)
    rw [h.ended, h.reported, TaskAnalyser.waitsReleased, he]
    exact ⟨rfl, rfl⟩

/-- Of an application that still counts tasks. -/
theorem treatEnd_treated {a : TaskAnalyser} (hcount : (a.appIdToTaskCount (a.task t).appId).getD 0 ≠ 0)
    (env : TransferEnv) (fuel : Nat) : Treated t a (Java.final (TaskAnalyser.treatEnd env fuel t a)) := by
  have hk := treatEnd_keepsTasks env fuel t a
  obtain ⟨hended, hreported⟩ := treatEnd_ended env fuel t a
  obtain ⟨hn, -⟩ | ⟨count, hc, h⟩ := TaskAnalyser.treatEnd_aside env fuel t a
  · rw [hn] at hcount
    exact (hcount rfl).elim
  · refine ⟨hk.task, hk.analysed, hended, hreported, fun appId => ?_⟩
    rw [h.taskCount, TaskAnalyser.waitsReleased, TaskAnalyser.countedEnd_count]
    by_cases happ : appId = (a.task t).appId
    · subst happ
      simp [hc]
    · simp [happ, Ne.symm happ]

/-- A request that is not of a task leaves the ends as they are. -/
structure KeepsEnds (a b : TaskAnalyser) : Prop extends KeepsTasks a b where
  ended : b.ended = a.ended
  reported : b.reported = a.reported
  taskCount : ∀ appId, (b.appIdToTaskCount appId).getD 0 = (a.appIdToTaskCount appId).getD 0

theorem process_keepsEnds (drawGraph : Bool) (env : TransferEnv) (fuel : Nat) {r : APRequest} (hr : r.task? = none)
    (hend : ∀ t, r ≠ .taskEnd t) (a : TaskAnalyser) : KeepsEnds a (Java.final (r.process drawGraph env fuel a)) := by
  obtain ⟨_, _, _, h⟩ := process_aside drawGraph env fuel hr hend a
  exact ⟨⟨h.task, h.analysed⟩, h.ended, h.reported, h.taskCount⟩

/-- A request is taken; the task dispatcher does nothing. -/
structure Takes (s s' : AccessProcessor) (r : APRequest) : Prop where
  requests : s.requests = r :: s'.requests
  todo : s'.todo = s.todo
  execution : s'.execution = s.execution
  nextExecution : s'.nextExecution = s.nextExecution

theorem process_takes {env : TransferEnv} {fuel : Nat} {r : APRequest} {rs : List APRequest}
    (hrs : s.requests = r :: rs) (hp : s.process drawGraph env fuel r rs = some s') :
    Takes s s' r ∧ s'.analyser = Java.final (r.process drawGraph env fuel s.analyser) := by
  obtain ⟨submitted, raised, rfl, -, -⟩ := process_cases hp
  exact ⟨⟨hrs, rfl, rfl, rfl⟩, rfl⟩

theorem Takes.isOver {r : APRequest} (h : Takes s s' r) (t : TaskId) : s'.Over t ↔ s.Over t :=
  over_congr h.nextExecution (fun e _ => by rw [h.execution]) (fun e _ => by rw [h.execution]) t

theorem Takes.notices {r : APRequest} (h : Takes s s' r) (t : TaskId) :
    s'.notices t + (if r = .taskEnd t then 1 else 0) = s.notices t := by
  unfold AccessProcessor.notices
  rw [h.requests, h.todo, h.execution, List.count_cons]
  simp only [beq_iff_eq]
  omega

theorem Takes.notices_ne {r : APRequest} (h : Takes s s' r) (ht : r ≠ .taskEnd t) : s'.notices t = s.notices t := by
  have := h.notices t
  rwa [if_neg ht] at this

theorem OneEnd.keeps (h : OneEnd s) {r : APRequest} (htake : Takes s s' r) (hend : ∀ t, r ≠ .taskEnd t)
    (hk : KeepsEnds s.analyser s'.analyser) : OneEnd s' where
  pending t ho := by
    rw [hk.ended, hk.reported]
    exact h.pending t fun hs => ho ((htake.isOver t).mpr hs)
  isOver t ho := by
    rw [hk.ended, hk.reported, htake.notices_ne (hend t)]
    exact h.isOver t ((htake.isOver t).mp ho)
  taskCount appId := by
    rw [hk.taskCount, h.taskCount,
      TaskAnalyser.unended_congr hk.analysed hk.ended fun u _ => (hk.task u).appId]

theorem OneEnd.analyse (h : OneEnd s) (hc : Consistent s) (htake : Takes s s' (.analyseTask t))
    (ha : TaskAnalyser.Aside (TaskAnalyser.counted s.analyser t) s'.analyser) : OneEnd s' where
  pending u ho := by
    rw [ha.ended, ha.reported]
    exact h.pending u fun hs => ho ((htake.isOver u).mpr hs)
  isOver u ho := by
    rw [ha.ended, ha.reported, htake.notices_ne APRequest.noConfusion]
    exact h.isOver u ((htake.isOver u).mp ho)
  taskCount appId := by
    have hended : t ∉ s.analyser.ended := fun ht => hc.not_analysed htake.requests (h.analysed hc ht)
    have hun := TaskAnalyser.unended_analysed appId ha.analysed ha.ended hended fun u => (ha.task u).appId
    rw [ha.taskCount, hun]
    have hold := h.taskCount appId
    simp only [TaskAnalyser.counted, Function.update_apply]
    by_cases happ : appId = (s.analyser.task t).appId
    · subst happ
      simp [hold]
    · simp [happ, Ne.symm happ, hold]

/-- A free task has one notification left, the one that is taken, and has not
ended before. -/
theorem OneEnd.last (h : OneEnd s) {rs : List APRequest} (hrs : s.requests = .taskEnd t :: rs) (ho : s.Over t) :
    t ∉ s.analyser.ended ∧ t ∉ s.analyser.reported ∧ s.notices t = 1 := by
  have hsum := h.isOver t ho
  have hpos : 0 < s.notices t := by
    rw [notices, hrs, List.count_cons_self]
    omega
  refine ⟨List.count_eq_zero.mp ?_, List.count_eq_zero.mp ?_, ?_⟩ <;> omega

/-- Other executions of the task have still to end. -/
theorem OneEnd.notFree (h : OneEnd s) (htake : Takes s s' (.taskEnd t)) (hnot : ¬ s.Over t)
    (ha : s'.analyser = s.analyser) : OneEnd s' where
  pending u ho := by
    rw [ha]
    exact h.pending u fun hs => ho ((htake.isOver u).mpr hs)
  isOver u ho := by
    have hs := (htake.isOver u).mp ho
    rw [ha, htake.notices_ne fun he => hnot (APRequest.taskEnd.inj he ▸ hs)]
    exact h.isOver u hs
  taskCount appId := by
    rw [ha]
    exact h.taskCount appId

/-- The end of the task is treated, or reported. -/
theorem OneEnd.free (h : OneEnd s) (htake : Takes s s' (.taskEnd t)) (ho : s.Over t)
    (ha : s'.analyser.ended = t :: s.analyser.ended ∧ s'.analyser.reported = s.analyser.reported ∨
      s'.analyser.ended = s.analyser.ended ∧ s'.analyser.reported = t :: s.analyser.reported)
    (hcount : ∀ appId, (s'.analyser.appIdToTaskCount appId).getD 0 = s'.analyser.unended appId) : OneEnd s' := by
  obtain ⟨hended, hreported, hone⟩ := h.last htake.requests ho
  have hnone : s'.notices t = 0 := by
    have := htake.notices t
    rw [if_pos rfl, hone] at this
    omega
  refine ⟨fun u hu => ?_, fun u hu => ?_, hcount⟩
  · have hs : ¬ s.Over u := fun hs => hu ((htake.isOver u).mpr hs)
    have hut : u ≠ t := fun he => hs (he ▸ ho)
    obtain ⟨he, hr⟩ := h.pending u hs
    obtain ⟨ha, hb⟩ | ⟨ha, hb⟩ := ha
    · rw [ha, hb]
      exact ⟨by simp [hut, he], hr⟩
    · rw [ha, hb]
      exact ⟨he, by simp [hut, hr]⟩
  · by_cases hut : u = t
    · subst hut
      obtain ⟨ha, hb⟩ | ⟨ha, hb⟩ := ha
      · simp [ha, hb, List.count_eq_zero.mpr hended, List.count_eq_zero.mpr hreported, hnone]
      · simp [ha, hb, List.count_eq_zero.mpr hended, List.count_eq_zero.mpr hreported, hnone]
    · have hsum := h.isOver u ((htake.isOver u).mp hu)
      rw [htake.notices_ne fun he => hut (APRequest.taskEnd.inj he).symm]
      obtain ⟨ha, hb⟩ | ⟨ha, hb⟩ := ha
      · rw [ha, hb, List.count_cons_of_ne (Ne.symm hut)]
        exact hsum
      · rw [ha, hb, List.count_cons_of_ne (Ne.symm hut)]
        exact hsum

/-- The end of a free task is treated on an application that still counts it. -/
theorem OneEnd.treated (h : OneEnd s) (hc : Consistent s) (htake : Takes s s' (.taskEnd t)) (ho : s.Over t)
    {env : TransferEnv} {fuel : Nat} (ha : s'.analyser = Java.final (TaskAnalyser.treatEnd env fuel t s.analyser)) :
    Treated t s.analyser s'.analyser ∧
      ∀ appId, (s'.analyser.appIdToTaskCount appId).getD 0 = s'.analyser.unended appId := by
  obtain ⟨hended, -, -⟩ := h.last htake.requests ho
  have hmem : t ∈ s.analyser.analysed := by
    by_contra hm
    exact ho.1 (hc.executionsOf_of_not_analysed hm)
  have hcount : (s.analyser.appIdToTaskCount (s.analyser.task t).appId).getD 0 ≠ 0 := by
    have := TaskAnalyser.unended_pos hmem hended
    rw [h.taskCount]
    omega
  have htreated : Treated t s.analyser s'.analyser := ha ▸ treatEnd_treated hcount env fuel
  refine ⟨htreated, fun appId => ?_⟩
  have hun := TaskAnalyser.unended_ended appId hc.analysed_nodup htreated.analysed htreated.ended hended hmem
    fun u => (htreated.task u).appId
  rw [htreated.taskCount, h.taskCount, ← hun]
  push_cast
  split <;> omega

theorem OneEnd.endTask (h : OneEnd s) (hc : Consistent s) (htake : Takes s s' (.taskEnd t)) {env : TransferEnv}
    {fuel : Nat} (ha : s'.analyser = Java.final (TaskAnalyser.endTask env fuel t s.analyser)) : OneEnd s' := by
  have hne : s.executionsOf t ≠ [] := hc.notified t (htake.requests ▸ List.mem_cons_self)
  cases hfree : (s.analyser.task t).isFree with
  | false =>
    rw [TaskAnalyser.endTask_notFree hfree] at ha
    refine h.notFree htake (fun ho => ?_) ha
    simp [(hc.over_iff hne).mp ho] at hfree
  | true =>
    have ho : s.Over t := (hc.over_iff hne).mpr hfree
    by_cases hf : (s.analyser.task t).status = .failed
    · rw [TaskAnalyser.endTask_failed hfree hf, Java.final_ok] at ha
      refine h.free htake ho (.inr ?_) fun appId => ?_
      · rw [ha]
        exact ⟨rfl, rfl⟩
      · rw [ha]
        exact h.taskCount appId
    · rw [TaskAnalyser.endTask_free hfree hf] at ha
      obtain ⟨htreated, hcount⟩ := h.treated hc htake ho ha
      exact h.free htake ho (.inl ⟨htreated.ended, htreated.reported⟩) hcount

theorem OneEnd.process (h : OneEnd s) (hc : Consistent s) {env : TransferEnv} {fuel : Nat} {r : APRequest}
    {rs : List APRequest} (hrs : s.requests = r :: rs) (hp : s.process drawGraph env fuel r rs = some s') :
    OneEnd s' := by
  obtain ⟨htake, ha⟩ := process_takes hrs hp
  cases r with
  | analyseTask t => exact h.analyse hc htake (ha ▸ TaskAnalyser.processTask_aside drawGraph t s.analyser)
  | taskEnd t => exact h.endTask hc htake ha
  | waitForTask | barrier | endOfApp | registerDataAccess =>
    exact h.keeps htake (fun t => APRequest.noConfusion)
      (ha ▸ process_keepsEnds drawGraph env fuel rfl (fun t => APRequest.noConfusion) s.analyser)

/-- The dispatcher decreases a count to zero only while one notification of the
task is left. -/
def Careful (s : AccessProcessor) (l : Label) : Prop :=
  ∀ e is, l = .dispatch → s.todo = .decreaseExecutionCount e :: is →
    (s.analyser.task (s.execution e).task).executionCount = 1 → s.notices (s.execution e).task = 1

theorem OneEnd.step (h : OneEnd s) (hc : Consistent s) (hl : s.Careful l) (hstep : s.step drawGraph l = some s') :
    OneEnd s' := by
  obtain hq | ⟨env, fuel, r, rs, rfl, hrs, hp⟩ | ⟨e, is, rfl, htodo, rfl⟩ := hc.quiet hstep
  · exact h.quiet hq
  · exact h.process hc hrs hp
  · refine h.decrease hc htodo fun hone => hl e is rfl htodo ?_
    rw [hc.count, hone]
    rfl

/-! ## Releases -/

end

end AccessProcessor

namespace TaskAnalyser

/-- An application is released only when it has no task left. -/
def Frees (a b : TaskAnalyser) : Prop :=
  ∃ rs, b.released = rs ++ a.released ∧
    ∀ appId sem, .application appId sem ∈ rs → (b.appIdToTaskCount appId).getD 0 = 0

section
variable {a b c : TaskAnalyser} {t : TaskId} {appId : AppId} {sem : SemaphoreId}

theorem frees_of_released (h : b.released = a.released) : Frees a b := ⟨[], h, fun _ _ hm => (List.not_mem_nil hm).elim⟩

theorem Frees.aside (h : Frees a b) (hbc : Aside b c) : Frees a c := by
  obtain ⟨rs, hrs, hfree⟩ := h
  refine ⟨rs, hbc.released.trans hrs, fun appId sem hm => ?_⟩
  rw [hbc.taskCount]
  exact hfree appId sem hm

theorem stopped_frees (a : TaskAnalyser) (appId : AppId) (sem : SemaphoreId) : Frees a (stopped a appId sem) := by
  unfold stopped
  split
  · next hzero =>
    refine ⟨[.application appId sem], rfl, fun appId' sem' hm => ?_⟩
    obtain ⟨rfl, rfl⟩ : appId' = appId ∧ sem' = sem := by simpa using hm
    exact hzero
  · exact frees_of_released rfl

theorem foundWaited_frees (a : TaskAnalyser) (dataId : Nat) (sem : SemaphoreId) : Frees a (foundWaited a dataId sem) := by
  unfold foundWaited
  cases a.writer dataId with
  | none => exact ⟨[.datum sem], rfl, fun _ _ hm => by simp at hm⟩
  | some w =>
    dsimp only
    split
    · exact ⟨[.datum sem], rfl, fun _ _ hm => by simp at hm⟩
    · exact frees_of_released rfl

theorem countedEnd_frees (a : TaskAnalyser) (appId : AppId) (count : Int) : Frees a (countedEnd a appId count) := by
  refine ⟨_, countedEnd_released a appId count, fun appId' sem hm => ?_⟩
  rw [countedEnd_count]
  split at hm
  · next hzero =>
    obtain ⟨_, -, heq⟩ := List.mem_map.mp hm
    cases heq
    rw [if_pos rfl, hzero]
  · cases hm

/-- The waits that are over are none of an application's. -/
theorem Frees.waitsReleased (h : Frees a b) (t : TaskId) : Frees a (waitsReleased b t) := by
  obtain ⟨rs, hrs, hfree⟩ := h
  refine ⟨((b.waitedTasks t).getD []).reverse.map Release.datum ++ rs, ?_, fun appId sem hm => hfree appId sem ?_⟩
  · rw [TaskAnalyser.waitsReleased, hrs, List.append_assoc]
  · simpa using hm

theorem treatEnd_frees (env : TransferEnv) (fuel : Nat) (t : TaskId) (a : TaskAnalyser) :
    Frees a (Java.final (treatEnd env fuel t a)) := by
  obtain ⟨-, h⟩ | ⟨count, -, h⟩ := treatEnd_aside env fuel t a
  · rw [h]
    exact frees_of_released rfl
  · have hcounted := countedEnd_frees { a with ended := t :: a.ended } (a.task t).appId (count - 1)
    exact (Frees.waitsReleased hcounted t).aside h

theorem endTask_frees (env : TransferEnv) (fuel : Nat) (t : TaskId) (a : TaskAnalyser) :
    Frees a (Java.final (endTask env fuel t a)) := by
  cases hfree : (a.task t).isFree with
  | false =>
    rw [endTask_notFree hfree]
    exact frees_of_released rfl
  | true =>
    by_cases hf : (a.task t).status = .failed
    · rw [endTask_failed hfree hf]
      exact frees_of_released rfl
    · rw [endTask_free hfree hf]
      exact treatEnd_frees env fuel t a

theorem process_frees (drawGraph : Bool) (env : TransferEnv) (fuel : Nat) (r : APRequest) (a : TaskAnalyser) :
    Frees a (Java.final (r.process drawGraph env fuel a)) := by
  cases r with
  | analyseTask t =>
    have hcounted : Frees a (counted a t) := frees_of_released rfl
    exact hcounted.aside (processTask_aside drawGraph t a)
  | taskEnd t => exact endTask_frees env fuel t a
  | waitForTask dataId am sem =>
    exact (foundWaited_frees a dataId sem).aside (findWaitedTask_aside drawGraph dataId am sem a)
  | barrier appId sem =>
    obtain h | h := barrier_aside drawGraph appId sem a
    · exact frees_of_released h.released
    · exact (stopped_frees a appId sem).aside h
  | endOfApp appId sem => exact (stopped_frees a appId sem).aside (noMoreTasks_aside appId sem a)
  | registerDataAccess am ref =>
    have h := Java.Keeps.bind (onDip_aside (a := a) (Ledger.registerAccess am ref)) (fun _ => .pure ()) a (.refl a)
    exact frees_of_released h.released

end

end TaskAnalyser

namespace AccessProcessor

/-- The end of a task is treated once, when all its executions have ended, and
the tasks an application counts are those that have not ended. -/
structure EndsOnce (s : AccessProcessor) : Prop where
  once : s.analyser.ended.Nodup
  after : ∀ t ∈ s.analyser.ended, s.Over t
  treated : ∀ t, s.Over t → s.notices t = 0 → t ∈ s.analyser.ended ∨ t ∈ s.analyser.reported
  taskCount : ∀ appId, (s.analyser.appIdToTaskCount appId).getD 0 =
    s.analyser.analysed.countP (fun t => (s.analyser.task t).appId = appId) -
      s.analyser.ended.countP fun t => (s.analyser.task t).appId = appId

/-- What a step releases are no applications with a task that has not ended. -/
def ReleasesEnded (s s' : AccessProcessor) : Prop :=
  ∃ rs, s'.analyser.released = rs ++ s.analyser.released ∧ ∀ appId sem, .application appId sem ∈ rs →
    ∀ t ∈ s'.analyser.analysed, (s'.analyser.task t).appId = appId → t ∈ s'.analyser.ended ∧ s'.Over t

section
variable {s s' : AccessProcessor} {t : TaskId} {drawGraph : Bool} {l : Label}

theorem OneEnd.over_of_ended (h : OneEnd s) (ht : t ∈ s.analyser.ended) : s.Over t := by
  by_contra ho
  exact (h.pending t ho).1 ht

theorem OneEnd.ended_nodup (h : OneEnd s) : s.analyser.ended.Nodup := by
  rw [List.nodup_iff_count_le_one]
  intro t
  by_cases ho : s.Over t
  · have := h.isOver t ho
    omega
  · rw [List.count_eq_zero.mpr (h.pending t ho).1]
    omega

theorem OneEnd.endsOnce (h : OneEnd s) (hc : Consistent s) : EndsOnce s where
  once := h.ended_nodup
  after t ht := h.over_of_ended ht
  treated t ho hnone := by
    have hsum := h.isOver t ho
    by_contra hnot
    rw [not_or] at hnot
    rw [List.count_eq_zero.mpr hnot.1, List.count_eq_zero.mpr hnot.2, hnone] at hsum
    omega
  taskCount appId := by
    rw [h.taskCount]
    exact TaskAnalyser.unended_eq hc.analysed_nodup h.ended_nodup (fun t ht => h.analysed hc ht) appId

theorem OneEnd.releasesEnded (h : OneEnd s) (hc : Consistent s) (hl : s.Careful l)
    (hstep : s.step drawGraph l = some s') : ReleasesEnded s s' := by
  have h' := h.step hc hl hstep
  obtain hq | ⟨env, fuel, r, rs, rfl, hrs, hp⟩ | ⟨e, is, rfl, htodo, rfl⟩ := hc.quiet hstep
  · exact ⟨[], hq.released, fun _ _ hm => (List.not_mem_nil hm).elim⟩
  · obtain ⟨-, ha⟩ := process_takes hrs hp
    obtain ⟨released, heq, hfree⟩ := TaskAnalyser.process_frees drawGraph env fuel r s.analyser
    rw [← ha] at heq hfree
    refine ⟨released, heq, fun appId sem hm t ht happ => ?_⟩
    have hzero := hfree appId sem hm
    rw [h'.taskCount] at hzero
    have hended := TaskAnalyser.unended_eq_zero.mp (Int.natCast_eq_zero.mp hzero) t ht happ
    exact ⟨hended, h'.over_of_ended hended⟩
  · exact ⟨[], rfl, fun _ _ hm => (List.not_mem_nil hm).elim⟩

end

/-- The access processor takes a request; no result is moved. -/
def take : Label := .process ⟨fun _ => false, fun _ => false⟩ 1

/-- A task with one execution ends, and the application goes on. -/
def oneExecution : List Label :=
  [.newTask 7 false false false 1 false [], take, .barrier 7, take, .executeTask 1,
    .launch 0, .completed 0, .dispatch, .dispatch, .dispatch, take]

/-- A task is replicated on two workers. Both executions decrease the count
before the first notification is taken. -/
def bothDecreased : List Label :=
  [.newTask 7 false false false 1 true [], take, .executeTask 2, .launch 0, .launch 1,
    .completed 0, .dispatch, .dispatch, .dispatch, .dispatch, .completed 1, .dispatch, .dispatch, .dispatch, .dispatch,
    take, take]

end AccessProcessor

end Compss.Runtime
