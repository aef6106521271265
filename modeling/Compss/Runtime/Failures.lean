/-
Failures of executions: what `endTask` makes of a task of which an execution has
failed.

The status of a task is one field, which every execution that notifies its end
overwrites, and `endTask` reads it when it finds the task free. A failure is
reported when the status is right from the last decrease of the count on
(`Marked`), set before a notification is taken, and a notification is left.
-/
import Compss.Runtime.TaskEnds

namespace Compss.Runtime

open Lib
open Scheduler (ActionState)

namespace AccessProcessor

/-- An execution of the task has ended in `doFailed`. -/
def Failed (s : AccessProcessor) (t : TaskId) : Prop :=
  ∃ e ∈ s.executionsOf t, (s.execution e).state = .failed ∧ (s.execution e).triggered = true

/-- The status of the task is `FAILED` and stays so, or will be set to it. -/
def Marked (s : AccessProcessor) (t : TaskId) : Prop :=
  ((s.analyser.task t).status = .failed ∧ ∀ e, .setStatus e .finished ∈ s.todo → (s.execution e).task ≠ t) ∨
    ∃ e, (s.execution e).task = t ∧ .setStatus e .failed ∈ s.todo

section
variable {s s' : AccessProcessor} {t u : TaskId} {e f : ExecutionId} {drawGraph : Bool} {l : Label}

theorem Marked.congr (h : s.Marked t) (hstatus : (s'.analyser.task t).status = (s.analyser.task t).status)
    (htask : ∀ e, (s'.execution e).task = (s.execution e).task)
    (htodo : ∀ e status, .setStatus e status ∈ s'.todo ↔ .setStatus e status ∈ s.todo) : s'.Marked t := by
  obtain ⟨hf, hno⟩ | ⟨e, he, hm⟩ := h
  · refine .inl ⟨hstatus.trans hf, fun e he => ?_⟩
    rw [htask]
    exact hno e ((htodo e _).mp he)
  · exact .inr ⟨e, (htask e).trans he, (htodo e _).mpr hm⟩

/-- An execution that has been triggered was so before the step, and has ended as
it had then, or is ended by it. -/
theorem Consistent.triggered_or_ended (h : Consistent s) (hm : Move drawGraph s l s') (hf : f < s'.nextExecution)
    (ht : (s'.execution f).triggered = true) :
    f < s.nextExecution ∧ (s'.execution f).task = (s.execution f).task ∧
      ((s.execution f).triggered = true ∧ (s'.execution f).state = (s.execution f).state ∨
        (s.execution f).triggered = false ∧ s.todo = []) := by
  have same : s'.nextExecution = s.nextExecution → (s'.execution f).task = (s.execution f).task →
      (s'.execution f).state = (s.execution f).state → (s'.execution f).triggered = (s.execution f).triggered →
      f < s.nextExecution ∧ (s'.execution f).task = (s.execution f).task ∧
        ((s.execution f).triggered = true ∧ (s'.execution f).state = (s.execution f).state ∨
          (s.execution f).triggered = false ∧ s.todo = []) := fun hn htask hstate htrig =>
    ⟨hn ▸ hf, htask, .inl ⟨htrig ▸ ht, hstate⟩⟩
  cases hm with
  | newTask | offered => exact same rfl rfl rfl rfl
  | processed r rs hrs hp =>
    obtain ⟨htake, -⟩ := process_takes hrs hp
    exact same htake.nextExecution (by rw [htake.execution]) (by rw [htake.execution]) (by rw [htake.execution])
  | @executed workers t ts hs htodo hw =>
    change ((s.execute t workers).execution f).triggered = true at ht
    by_cases hlt : f < s.nextExecution
    · have hold : (s.execute t workers).execution f = s.execution f := execute_execution_old hlt
      rw [hold] at ht
      exact ⟨hlt, congrArg Execution.task hold, .inl ⟨ht, congrArg Execution.state hold⟩⟩
    · obtain ⟨group, hg⟩ := execute_execution_new (Nat.not_lt.mp hlt) hf
      rw [hg] at ht
      cases ht
  | moved e x group hx hd =>
    have hfx := moved_update hx f
    have htrig : (s.execution f).triggered = true := hfx.triggered ▸ ht
    exact ⟨hf, hfx.task, .inl ⟨htrig, hfx.ended ((h.sound f hf).triggered htrig)⟩⟩
  | ended e state todo hcan htrig hs =>
    by_cases hfe : f = e
    · subst hfe
      exact ⟨hcan.1, by simp [setExecution], .inr ⟨htrig, hcan.2⟩⟩
    · refine same rfl ?_ ?_ ?_ <;> simp [setExecution, Function.update_of_ne hfe]
  | dispatched i is htodo =>
    cases i with
    | decreaseExecutionCount e =>
      have hrun := run_decrease_execution s e f
      refine same rfl ?_ ?_ ?_
      · change ((s.run (.decreaseExecutionCount e)).execution f).task = _
        rw [hrun]
        split <;> rfl
      · change ((s.run (.decreaseExecutionCount e)).execution f).state = _
        rw [hrun]
        split <;> rfl
      · change ((s.run (.decreaseExecutionCount e)).execution f).triggered = _
        rw [hrun]
        split <;> rfl
    | setStatus | notifyTaskEnd | releaseSuccessors => exact same rfl rfl rfl rfl

/-- An execution fails by being ended. -/
theorem Consistent.failed_or_ended (h : Consistent s) (hm : Move drawGraph s l s') (hf : s'.Failed t) :
    s.Failed t ∨ s.todo = [] ∧ ∃ e ∈ s.executionsOf t, (s.execution e).triggered = false := by
  obtain ⟨e, he, hstate, ht⟩ := hf
  obtain ⟨hlt, htask⟩ := mem_executionsOf.mp he
  obtain ⟨hold, hsame, ⟨htrig, hst⟩ | ⟨htrig, htodo⟩⟩ := h.triggered_or_ended hm hlt ht
  · exact .inl ⟨e, mem_executionsOf.mpr ⟨hold, hsame ▸ htask⟩, hst ▸ hstate, htrig⟩
  · exact .inr ⟨htodo, e, mem_executionsOf.mpr ⟨hold, hsame ▸ htask⟩, htrig⟩

/-- A task that is over does not fail any more. -/
theorem Consistent.failed_of_over (h : Consistent s) (hm : Move drawGraph s l s') (ho : s.Over t) (hf : s'.Failed t) :
    s.Failed t := by
  obtain hf | ⟨-, e, he, htrig⟩ := h.failed_or_ended hm hf
  · exact hf
  · have := (h.sound e (mem_executionsOf.mp he).1).counted (ho.counted e he)
    rw [htrig] at this
    cases this

/-- The dispatcher makes nothing fail. -/
theorem Consistent.failed_of_dispatch (h : Consistent s) (hm : Move drawGraph s l s') (htodo : s.todo ≠ [])
    (hf : s'.Failed t) : s.Failed t :=
  (h.failed_or_ended hm hf).resolve_right fun he => htodo he.1

/-! ## The status -/

/-- The dispatcher works on one execution at a time. -/
def Single (s : AccessProcessor) : Prop := ∀ i ∈ s.todo, ∀ j ∈ s.todo, i.execution = j.execution

theorem Single.step (h : s.Single) (hm : Move drawGraph s l s') : s'.Single := by
  cases hm with
  | newTask | offered | executed | moved => exact h
  | processed r rs hrs hp =>
    obtain ⟨htake, -⟩ := process_takes hrs hp
    unfold Single
    rw [htake.todo]
    exact h
  | ended e state todo hcan ht hs =>
    have hmade : ∀ i ∈ todo, i.execution = e := by
      obtain ⟨-, rfl⟩ | ⟨-, rfl⟩ := hs
      · exact fun i => Execution.onCompleted_execution
      · exact fun i => Execution.onFailed_execution
    exact fun i hi j hj => (hmade i hi).trans (hmade j hj).symm
  | dispatched i is htodo =>
    have hsub : ∀ j ∈ is, j ∈ s.todo := fun j hj => htodo ▸ List.mem_cons_of_mem i hj
    exact fun j hj k hk => h j (hsub j hj) k (hsub k hk)

theorem run_setStatus_status (s : AccessProcessor) (e : ExecutionId) (status : TaskState) (t : TaskId) :
    ((s.run (.setStatus e status)).analyser.task t).status =
      if t = (s.execution e).task then status else (s.analyser.task t).status := by
  change ((s.analyser.setTask _ _).task t).status = _
  rw [TaskAnalyser.setTask_task]
  split <;> rfl

/-- The dispatcher's next step leaves the mark. -/
theorem Consistent.marked_dispatch (h : Consistent s) (hsingle : s.Single) {i : Instr} {is : List Instr}
    (htodo : s.todo = i :: is) (hmarked : s.Marked t) : ({ s.run i with todo := is } : AccessProcessor).Marked t := by
  have hsub : ∀ j ∈ is, j ∈ s.todo := fun j hj => htodo ▸ List.mem_cons_of_mem i hj
  have hstate : ∀ e f x y, .setStatus e x ∈ s.todo → .setStatus f y ∈ s.todo → x = y := by
    intro e f x y hx hy
    obtain rfl : e = f := hsingle _ hx _ hy
    obtain ⟨rfl, hfinished⟩ | ⟨rfl, hfailed⟩ := h.dispatching.status e x hx
    · obtain ⟨rfl, -⟩ | ⟨-, hfailed⟩ := h.dispatching.status e y hy
      · rfl
      · cases hfinished.symm.trans hfailed
    · obtain ⟨-, hfinished⟩ | ⟨rfl, -⟩ := h.dispatching.status e y hy
      · cases hfinished.symm.trans hfailed
      · rfl
  cases i with
  | setStatus e status =>
    have hhead : .setStatus e status ∈ s.todo := htodo ▸ List.mem_cons_self
    by_cases het : (s.execution e).task = t
    · -- The status of the task is set, and not again.
      have hfailed : status = .failed := by
        obtain ⟨-, hno⟩ | ⟨f, -, hf⟩ := hmarked
        · obtain ⟨rfl, -⟩ | ⟨rfl, -⟩ := h.dispatching.status e status hhead
          · exact (hno e hhead het).elim
          · rfl
        · exact hstate _ _ _ _ hhead hf
      refine .inl ⟨?_, fun f hf => ?_⟩
      · change ((s.run (.setStatus e status)).analyser.task t).status = _
        rw [run_setStatus_status, if_pos het.symm, hfailed]
      · have := hstate _ _ _ _ (hsub _ hf) hhead
        rw [hfailed] at this
        cases this
    · obtain ⟨hf, hno⟩ | ⟨f, hft, hf⟩ := hmarked
      · refine .inl ⟨?_, fun f hf => hno f (hsub _ hf)⟩
        change ((s.run (.setStatus e status)).analyser.task t).status = _
        rw [run_setStatus_status, if_neg (Ne.symm het), hf]
      · refine .inr ⟨f, hft, ?_⟩
        rw [htodo, List.mem_cons] at hf
        refine hf.resolve_left fun heq => ?_
        cases heq
        exact het hft
  | decreaseExecutionCount e =>
    refine hmarked.congr ?_ (fun f => ?_) fun f status => by simp [htodo]
    · change ((s.run (.decreaseExecutionCount e)).analyser.task t).status = _
      rw [run_decrease_task]
      split <;> rfl
    · change ((s.run (.decreaseExecutionCount e)).execution f).task = _
      rw [run_decrease_execution]
      split <;> rfl
  | notifyTaskEnd | releaseSuccessors =>
    exact hmarked.congr rfl (fun _ => rfl) fun f status => by simp [htodo]

theorem process_alike (drawGraph : Bool) (env : TransferEnv) (fuel : Nat) (r : APRequest) (a : TaskAnalyser) (t : TaskId) :
    (a.task t).Alike ((Java.final (r.process drawGraph env fuel a)).task t) := by
  cases hr : r.task? with
  | none => exact (process_keepsTasks drawGraph env fuel hr a).task t
  | some u =>
    obtain rfl : r = .analyseTask u := by
      cases r with
      | analyseTask v => cases hr; rfl
      | taskEnd | waitForTask | barrier | endOfApp | registerDataAccess => cases hr
    exact (TaskAnalyser.processTask_aside drawGraph u a).task t

/-- The mark of a task that is over stays. -/
theorem Consistent.marked_move (h : Consistent s) (hsingle : s.Single) (hm : Move drawGraph s l s') (ho : s.Over t)
    (hmarked : s.Marked t) : s'.Marked t := by
  cases hm with
  | newTask x hx hn =>
    refine hmarked.congr ?_ (fun _ => rfl) fun _ _ => Iff.rfl
    change ((s.analyser.setTask s.nextTask x).task t).status = _
    rw [TaskAnalyser.setTask_task, if_neg (h.created_lt ho.1).ne]
  | offered => exact hmarked.congr rfl (fun _ => rfl) fun _ _ => Iff.rfl
  | processed r rs hrs hp =>
    obtain ⟨htake, ha⟩ := process_takes hrs hp
    refine hmarked.congr ?_ (fun _ => by rw [htake.execution]) fun _ _ => by rw [htake.todo]
    rw [ha]
    exact (process_alike drawGraph _ _ r s.analyser t).status
  | @executed workers u us hs htodo hw =>
    have hut : t ≠ u := fun he => ho.1 (he ▸ (h.submitted u (hs ▸ List.mem_cons_self)).2)
    obtain ⟨hf, -⟩ | ⟨f, -, hf⟩ := hmarked
    · refine .inl ⟨?_, fun f hf => ?_⟩
      · change ((s.analyser.setTask u _).task t).status = _
        rw [TaskAnalyser.setTask_task, if_neg hut, hf]
      · change _ ∈ s.todo at hf
        rw [htodo] at hf
        cases hf
    · rw [htodo] at hf
      cases hf
  | moved e x group hx hd =>
    exact hmarked.congr rfl (fun f => (moved_update hx f).task) fun _ _ => Iff.rfl
  | ended e state todo hcan ht hs =>
    -- The execution that ends is of another task.
    have hne : (s.execution e).task ≠ t := fun he => by
      have hc := ho.counted e (mem_executionsOf.mpr ⟨hcan.1, he⟩)
      have := (h.sound e hcan.1).counted hc
      rw [ht] at this
      cases this
    have hmade : ∀ i ∈ todo, i.execution = e := by
      obtain ⟨-, rfl⟩ | ⟨-, rfl⟩ := hs
      · exact fun i => Execution.onCompleted_execution
      · exact fun i => Execution.onFailed_execution
    obtain ⟨hf, -⟩ | ⟨f, -, hf⟩ := hmarked
    · refine .inl ⟨hf, fun f hf hft => hne ?_⟩
      obtain rfl : f = e := hmade _ hf
      simpa [setExecution] using hft
    · rw [hcan.2] at hf
      cases hf
  | dispatched i is htodo => exact h.marked_dispatch hsingle htodo hmarked

/-! ## The ends -/

/-- What a request does to the ends: that of a free task is treated or reported,
after its status. -/
inductive EndsBy (a b : TaskAnalyser) : APRequest → Prop
  | kept {r : APRequest} (hended : b.ended = a.ended) (hreported : b.reported = a.reported)
      (hfree : ∀ t, r = .taskEnd t → (a.task t).isFree = false) : EndsBy a b r
  | reported {t : TaskId} (hfree : (a.task t).isFree = true) (hstatus : (a.task t).status = .failed)
      (hended : b.ended = a.ended) (hreported : b.reported = t :: a.reported) : EndsBy a b (.taskEnd t)
  | treated {t : TaskId} (hfree : (a.task t).isFree = true) (hstatus : (a.task t).status ≠ .failed)
      (hended : b.ended = t :: a.ended) (hreported : b.reported = a.reported) : EndsBy a b (.taskEnd t)

theorem process_endsBy (drawGraph : Bool) (env : TransferEnv) (fuel : Nat) (r : APRequest) (a : TaskAnalyser) :
    EndsBy a (Java.final (r.process drawGraph env fuel a)) r := by
  have other : ∀ r : APRequest, r.task? = none → (∀ t, r ≠ .taskEnd t) →
      EndsBy a (Java.final (r.process drawGraph env fuel a)) r := fun r hr hend =>
    have h := process_keepsEnds drawGraph env fuel hr hend a
    .kept h.ended h.reported fun t he => (hend t he).elim
  cases r with
  | analyseTask t =>
    have h := TaskAnalyser.processTask_aside drawGraph t a
    exact .kept h.ended h.reported fun _ => APRequest.noConfusion
  | taskEnd t =>
    change EndsBy a (Java.final (TaskAnalyser.endTask env fuel t a)) _
    cases hfree : (a.task t).isFree with
    | false =>
      rw [TaskAnalyser.endTask_notFree hfree]
      exact .kept rfl rfl fun u hu => by cases hu; exact hfree
    | true =>
      by_cases hf : (a.task t).status = .failed
      · rw [TaskAnalyser.endTask_failed hfree hf]
        exact .reported hfree hf rfl rfl
      · rw [TaskAnalyser.endTask_free hfree hf]
        obtain ⟨hended, hreported⟩ := treatEnd_ended env fuel t a
        exact .treated hfree hf hended hreported
  | waitForTask => exact other _ rfl fun t => APRequest.noConfusion
  | barrier => exact other _ rfl fun t => APRequest.noConfusion
  | endOfApp => exact other _ rfl fun t => APRequest.noConfusion
  | registerDataAccess => exact other _ rfl fun t => APRequest.noConfusion

structure Reporting (s : AccessProcessor) : Prop where
  single : s.Single
  pending : ∀ t, ¬ s.Over t → t ∉ s.analyser.ended ∧ t ∉ s.analyser.reported
  marked : ∀ t, s.Over t → s.Failed t → s.Marked t
  notEnded : ∀ t ∈ s.analyser.ended, ¬ s.Failed t
  reported : ∀ t, s.Over t → s.Failed t → 0 < s.notices t ∨ t ∈ s.analyser.reported

/-- When a task with a failed execution is over its status is right and a
notification is left, and none is taken before the status is set. -/
def Reports (s : AccessProcessor) : Label → Prop
  | .dispatch => ∀ e is, s.todo = .decreaseExecutionCount e :: is →
    (s.analyser.task (s.execution e).task).executionCount = 1 → s.Failed (s.execution e).task →
      s.Marked (s.execution e).task ∧ 0 < s.notices (s.execution e).task
  | .process _ _ => ∀ t rs, s.requests = .taskEnd t :: rs → (s.analyser.task t).isFree = true →
    ∀ e, .setStatus e .failed ∈ s.todo → (s.execution e).task ≠ t
  | _ => True

theorem init_reporting : Reporting init where
  single i hi := (List.not_mem_nil hi).elim
  pending t _ := ⟨List.not_mem_nil, List.not_mem_nil⟩
  marked t h := absurd h.1 (by simp [executionsOf, init])
  notEnded t ht := (List.not_mem_nil ht).elim
  reported t h := absurd h.1 (by simp [executionsOf, init])

theorem Reporting.quiet (h : Reporting s) (hc : Consistent s) (hm : Move drawGraph s l s') (hq : Quiet s s') :
    Reporting s' where
  single := h.single.step hm
  pending t ho := by
    rw [hq.ended, hq.reported]
    exact h.pending t fun hs => ho ((hq.isOver t).mpr hs)
  marked t ho hf := by
    have hs := (hq.isOver t).mp ho
    exact hc.marked_move h.single hm hs (h.marked t hs (hc.failed_of_over hm hs hf))
  notEnded t ht hf := by
    rw [hq.ended] at ht
    have hs : s.Over t := by
      by_contra hn
      exact (h.pending t hn).1 ht
    exact h.notEnded t ht (hc.failed_of_over hm hs hf)
  reported t ho hf := by
    have hs := (hq.isOver t).mp ho
    rw [hq.notices t hs, hq.reported]
    exact h.reported t hs (hc.failed_of_over hm hs hf)

theorem Reporting.decrease (h : Reporting s) (hc : Consistent s) {is : List Instr}
    (htodo : s.todo = .decreaseExecutionCount e :: is) (hl : s.Reports .dispatch) :
    Reporting { s.run (.decreaseExecutionCount e) with todo := is } := by
  have hm : Move false s .dispatch { s.run (.decreaseExecutionCount e) with todo := is } := .dispatched _ is htodo
  have hfailed : ∀ u, ({ s.run (.decreaseExecutionCount e) with todo := is } : AccessProcessor).Failed u → s.Failed u :=
    fun u => hc.failed_of_dispatch hm (by rw [htodo]; exact List.cons_ne_nil _ _)
  -- The task that is over now, if it has failed.
  have hlast : ∀ u, u = (s.execution e).task ∧ s.uncounted u = 1 → s.Failed u → s.Marked u ∧ 0 < s.notices u := by
    intro u hu hf
    obtain ⟨rfl, hone⟩ := hu
    refine hl e is htodo ?_ hf
    rw [hc.count, hone]
    rfl
  refine ⟨h.single.step hm, fun u ho => ?_, fun u ho hf => ?_, fun u hu hf => h.notEnded u hu (hfailed u hf), fun u ho hf => ?_⟩
  · exact h.pending u fun hs => ho ((hc.over_decrease htodo u).mpr (.inl hs))
  · refine hc.marked_dispatch h.single htodo ?_
    obtain hs | hs := (hc.over_decrease htodo u).mp ho
    · exact h.marked u hs (hfailed u hf)
    · exact (hlast u hs (hfailed u hf)).1
  · rw [notices_decrease htodo]
    obtain hs | hs := (hc.over_decrease htodo u).mp ho
    · exact h.reported u hs (hfailed u hf)
    · exact .inl (hlast u hs (hfailed u hf)).2

theorem Takes.failed {r : APRequest} (h : Takes s s' r) (t : TaskId) : s'.Failed t ↔ s.Failed t := by
  have hof : s'.executionsOf t = s.executionsOf t := executionsOf_congr h.nextExecution (fun f _ => by rw [h.execution]) t
  unfold Failed
  rw [hof, h.execution]

theorem Reporting.process (h : Reporting s) (hc : Consistent s) {env : TransferEnv} {fuel : Nat} {r : APRequest}
    {rs : List APRequest} (hrs : s.requests = r :: rs) (hp : s.process drawGraph env fuel r rs = some s')
    (hl : s.Reports (.process env fuel)) : Reporting s' := by
  obtain ⟨htake, ha⟩ := process_takes hrs hp
  have hm : Move drawGraph s (.process env fuel) s' := .processed r rs hrs hp
  have hends := process_endsBy drawGraph env fuel r s.analyser
  rw [← ha] at hends
  have hmarked : ∀ u, s'.Over u → s'.Failed u → s'.Marked u := fun u ho hf => by
    have hs := (htake.isOver u).mp ho
    exact hc.marked_move h.single hm hs (h.marked u hs ((htake.failed u).mp hf))
  cases hends with
  | kept hended hreported hfree =>
    refine ⟨h.single.step hm, fun u ho => ?_, hmarked, fun u hu hf => ?_, fun u ho hf => ?_⟩
    · rw [hended, hreported]
      exact h.pending u fun hs => ho ((htake.isOver u).mpr hs)
    · rw [hended] at hu
      exact h.notEnded u hu ((htake.failed u).mp hf)
    · have hs := (htake.isOver u).mp ho
      rw [hreported]
      obtain hn | hn := h.reported u hs ((htake.failed u).mp hf)
      · refine .inl ?_
        rwa [htake.notices_ne]
        rintro rfl
        have := (hc.over_iff hs.1).mp hs
        rw [hfree u rfl] at this
        cases this
      · exact .inr hn
  | @reported t hfree hstatus hended hreported =>
    have ho : s.Over t := (hc.over_iff (hc.notified t (hrs ▸ List.mem_cons_self))).mpr hfree
    refine ⟨h.single.step hm, fun u hu => ?_, hmarked, fun u hu hf => ?_, fun u hu hf => ?_⟩
    · have hs : ¬ s.Over u := fun hs => hu ((htake.isOver u).mpr hs)
      have hut : u ≠ t := fun he => hs (he ▸ ho)
      rw [hended, hreported]
      exact ⟨(h.pending u hs).1, by simp [hut, (h.pending u hs).2]⟩
    · rw [hended] at hu
      exact h.notEnded u hu ((htake.failed u).mp hf)
    · rw [hreported]
      by_cases hut : u = t
      · exact .inr (hut ▸ List.mem_cons_self)
      · rw [htake.notices_ne fun he => hut (APRequest.taskEnd.inj he).symm]
        exact (h.reported u ((htake.isOver u).mp hu) ((htake.failed u).mp hf)).imp_right (List.mem_cons_of_mem t)
  | @treated t hfree hstatus hended hreported =>
    have ho : s.Over t := (hc.over_iff (hc.notified t (hrs ▸ List.mem_cons_self))).mpr hfree
    -- The status says that no execution has failed, and it is right.
    have hnot : ¬ s.Failed t := fun hf => by
      obtain ⟨hfailed, -⟩ | ⟨e, het, he⟩ := h.marked t ho hf
      · exact hstatus hfailed
      · exact hl t rs hrs hfree e he het
    refine ⟨h.single.step hm, fun u hu => ?_, hmarked, fun u hu hf => ?_, fun u hu hf => ?_⟩
    · have hs : ¬ s.Over u := fun hs => hu ((htake.isOver u).mpr hs)
      have hut : u ≠ t := fun he => hs (he ▸ ho)
      rw [hended, hreported]
      exact ⟨by simp [hut, (h.pending u hs).1], (h.pending u hs).2⟩
    · rw [hended, List.mem_cons] at hu
      have hf' := (htake.failed u).mp hf
      obtain rfl | hu := hu
      · exact hnot hf'
      · exact h.notEnded u hu hf'
    · have hf' := (htake.failed u).mp hf
      rw [hreported, htake.notices_ne fun he => hnot (APRequest.taskEnd.inj he ▸ hf')]
      exact h.reported u ((htake.isOver u).mp hu) hf'

theorem Reporting.step (h : Reporting s) (hc : Consistent s) (hl : s.Reports l)
    (hstep : s.step drawGraph l = some s') : Reporting s' := by
  obtain hq | ⟨env, fuel, r, rs, rfl, hrs, hp⟩ | ⟨e, is, rfl, htodo, rfl⟩ := hc.quiet hstep
  · exact h.quiet hc (hc.move hstep) hq
  · exact h.process hc hrs hp hl
  · exact h.decrease hc htodo hl

/-- The end of a task with a failed execution is not treated, and it is reported
once its executions have ended and their notifications are taken. -/
structure FailuresReported (s : AccessProcessor) : Prop where
  notEnded : ∀ t, s.Failed t → t ∉ s.analyser.ended
  reported : ∀ t, s.Over t → s.Failed t → s.notices t = 0 → t ∈ s.analyser.reported

theorem Reporting.failuresReported (h : Reporting s) : FailuresReported s where
  notEnded t hf ht := h.notEnded t ht hf
  reported t ho hf hnone := (h.reported t ho hf).resolve_left (by omega)

end

/-- **A failure is never masked**, in every run in which, when a task with a
failed execution is over, its status stays `FAILED` or is still to be set so, and a
notification is left, and in which none is taken before the status is set. -/
theorem failuresReported_of_reports (drawGraph : Bool) (labels : List Label) (h : Along (step drawGraph) Reports init labels) :
    Always (step drawGraph) FailuresReported init labels :=
  always_of_along (I := fun s => Reporting s ∧ Consistent s) (fun _ hs => hs.1.failuresReported)
    (fun _ _ _ hs hl hst => ⟨hs.1.step hs.2 hl hst, hs.2.step hst⟩) ⟨init_reporting, init_consistent⟩ h

/-- The only execution of a task fails. -/
def onlyFails : List Label :=
  [.newTask 7 false false false 1 false [], take, .executeTask 1, .launch 0, .failed 0, .doFailed 0, .dispatch, .dispatch,
    .dispatch, take]

theorem failuresReported_of_reports_onlyFails : Along (step false) Reports init onlyFails ∧
    Always (step false) FailuresReported init onlyFails := by
  have h : Along (step false) Reports init onlyFails := by
    refine fun s hs => ⟨trivial, ?_⟩
    cases hs
    refine fun s hs => ⟨fun t rs hrs => (by cases hrs), ?_⟩
    cases hs
    refine fun s hs => ⟨trivial, ?_⟩
    cases hs
    refine fun s hs => ⟨trivial, ?_⟩
    cases hs
    refine fun s hs => ⟨trivial, ?_⟩
    cases hs
    refine fun s hs => ⟨trivial, ?_⟩
    cases hs
    -- The count is decreased: the status is still to be set, and the end to be notified.
    refine fun s hs => ⟨fun e is htodo _ _ => ?_, ?_⟩
    · cases htodo
      exact ⟨.inr ⟨0, rfl, List.mem_cons_of_mem _ List.mem_cons_self⟩, Nat.one_pos⟩
    cases hs
    refine fun s hs => ⟨fun e is htodo => (by cases htodo), ?_⟩
    cases hs
    refine fun s hs => ⟨fun e is htodo => (by cases htodo), ?_⟩
    cases hs
    exact fun s hs => ⟨fun t rs hrs hfree e he => (by cases he), trivial⟩
  exact ⟨h, failuresReported_of_reports false _ h⟩

/-- A task is replicated on two workers. One execution fails, the other completes
after it. -/
def failsThenCompletes : List Label :=
  [.newTask 7 false false false 1 true [], take, .executeTask 2, .launch 0, .launch 1, .failed 0, .doFailed 0, .dispatch,
    .dispatch, .dispatch, take, .completed 1, .dispatch, .dispatch, .dispatch, take]

theorem failsThenCompletes_masked : ¬ Always (step false) FailuresReported init failsThenCompletes := by
  intro h
  have hrun : (Lib.run (step false) init failsThenCompletes).map (fun s => (s.analyser.ended, s.nextExecution,
      (s.execution 0).task, (s.execution 0).state, (s.execution 0).triggered)) =
      some ([1], 2, 1, .failed, true) := by decide +kernel
  obtain ⟨s, hs, heq⟩ := Option.map_eq_some_iff.mp hrun
  simp only [Prod.mk.injEq] at heq
  obtain ⟨hended, hnext, htask, hstate, ht⟩ := heq
  refine (h.of_run hs).notEnded 1 ⟨0, mem_executionsOf.mpr ⟨hnext ▸ Nat.two_pos, htask⟩, hstate, ht⟩ ?_
  rw [hended]
  exact List.mem_cons_self

end AccessProcessor

end Compss.Runtime
