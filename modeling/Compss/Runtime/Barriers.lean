/-
Barriers: who is stopped until the tasks of an application have ended.

An application has one semaphore to be stopped on, which a later stop replaces.
With the graph drawn a barrier asks every last writer for its synchronization id,
and raises where a wait in mode `RW` has left none.
-/
import Compss.Runtime.TaskEnds

namespace Compss.Runtime

open Lib

namespace TaskAnalyser

section
variable {a b c : TaskAnalyser} {appId app : AppId} {sem sem' : SemaphoreId} {t : TaskId}

/-- The semaphore of the application waits for its tasks. -/
def WaitsOn (a : TaskAnalyser) (appId : AppId) (sem : SemaphoreId) : Prop :=
  a.appIdToSemaphore appId = some sem ∧ 0 < (a.appIdToTaskCount appId).getD 0

/-- It has been released, or waits. -/
def Answered (a : TaskAnalyser) (appId : AppId) (sem : SemaphoreId) : Prop :=
  .application appId sem ∈ a.released ∨ a.WaitsOn appId sem

theorem Answered.aside (h : a.Answered appId sem) (hab : Aside a b) : b.Answered appId sem := by
  unfold Answered WaitsOn
  rw [hab.released, hab.appIdToSemaphore, hab.taskCount]
  exact h

theorem Answered.counted (h : a.Answered appId sem) (t : TaskId) : (TaskAnalyser.counted a t).Answered appId sem := by
  refine h.imp_right fun ⟨hsem, hpos⟩ => ⟨hsem, ?_⟩
  simp only [TaskAnalyser.counted, Function.update_apply]
  split
  · next happ =>
    subst happ
    change 0 < (a.appIdToTaskCount _).getD 0 + 1
    omega
  · exact hpos

/-- With the last task the semaphore is released. -/
theorem Answered.countedEnd (h : a.Answered appId sem) {count : Int} (hcount : a.appIdToTaskCount app = some count) :
    (TaskAnalyser.countedEnd a app (count - 1)).Answered appId sem := by
  obtain h | ⟨hsem, hpos⟩ := h
  · refine .inl ?_
    rw [countedEnd_released]
    exact List.mem_append_right _ h
  · unfold Answered WaitsOn
    rw [countedEnd_released, countedEnd_semaphore, countedEnd_count]
    by_cases happ : appId = app
    · subst happ
      rw [hcount] at hpos
      change 0 < count at hpos
      by_cases hzero : count - 1 = 0
      · refine .inl (List.mem_append_left _ ?_)
        simp [hzero, hsem]
      · refine .inr ⟨by rw [if_neg fun h => hzero h.2, hsem], ?_⟩
        rw [if_pos rfl]
        omega
    · exact .inr ⟨by rw [if_neg fun h => happ h.1, hsem], by rw [if_neg happ]; exact hpos⟩

theorem Answered.waitsReleased (h : a.Answered appId sem) (t : TaskId) :
    (TaskAnalyser.waitsReleased a t).Answered appId sem := h.imp_left (List.mem_append_right _)

theorem Answered.endTask (h : a.Answered appId sem) (env : TransferEnv) (fuel : Nat) (t : TaskId) :
    (Java.final (TaskAnalyser.endTask env fuel t a)).Answered appId sem := by
  cases hfree : (a.task t).isFree with
  | false =>
    rw [endTask_notFree hfree]
    exact h
  | true =>
    by_cases hf : (a.task t).status = .failed
    · rw [endTask_failed hfree hf]
      exact h
    · rw [endTask_free hfree hf]
      have hended : ({ a with ended := t :: a.ended } : TaskAnalyser).Answered appId sem := h
      obtain ⟨-, he⟩ | ⟨count, hcount, he⟩ := treatEnd_aside env fuel t a
      · rw [he]
        exact hended
      · exact ((hended.countedEnd hcount).waitsReleased t).aside he

theorem Answered.foundWaited (h : a.Answered appId sem) (dataId : Nat) (sem' : SemaphoreId) :
    (TaskAnalyser.foundWaited a dataId sem').Answered appId sem := by
  unfold TaskAnalyser.foundWaited
  cases a.writer dataId with
  | none => exact h.imp_left (List.mem_cons_of_mem _)
  | some w =>
    dsimp only
    split
    · exact h.imp_left (List.mem_cons_of_mem _)
    · exact h

/-- A stop is answered. -/
theorem stopped_answered (hpos : 0 ≤ (a.appIdToTaskCount appId).getD 0) : (stopped a appId sem).Answered appId sem := by
  unfold stopped
  split
  · exact .inl List.mem_cons_self
  · refine .inr ⟨Function.update_self .., ?_⟩
    change 0 < (a.appIdToTaskCount appId).getD 0
    omega

/-- A stop does not replace that of another application. -/
theorem Answered.stopped (h : a.Answered appId sem) (hnone : a.appIdToSemaphore app = none) (sem' : SemaphoreId) :
    (TaskAnalyser.stopped a app sem').Answered appId sem := by
  unfold TaskAnalyser.stopped
  split
  · exact h.imp_left (List.mem_cons_of_mem _)
  · refine h.imp_right fun ⟨hsem, hpos⟩ => ⟨?_, hpos⟩
    have hne : appId ≠ app := fun he => by
      rw [he, hnone] at hsem
      cases hsem
    exact (Function.update_of_ne hne ..).trans hsem

/-- A request answered stays so, when it is not replaced. -/
theorem Answered.process (h : a.Answered appId sem) (drawGraph : Bool) (env : TransferEnv) (fuel : Nat) {r : APRequest}
    (hr : ∀ app sem', r = .barrier app sem' ∨ r = .endOfApp app sem' → a.appIdToSemaphore app = none) :
    (Java.final (r.process drawGraph env fuel a)).Answered appId sem := by
  cases r with
  | analyseTask t => exact (h.counted t).aside (processTask_aside drawGraph t a)
  | taskEnd t => exact h.endTask env fuel t
  | waitForTask dataId am sem' => exact (h.foundWaited dataId sem').aside (findWaitedTask_aside drawGraph dataId am sem' a)
  | barrier app sem' =>
    obtain he | he := barrier_aside drawGraph app sem' a
    · exact h.aside he
    · exact (h.stopped (hr app sem' (.inl rfl)) sem').aside he
  | endOfApp app sem' => exact (h.stopped (hr app sem' (.inr rfl)) sem').aside (noMoreTasks_aside app sem' a)
  | registerDataAccess am ref =>
    exact h.aside (Java.Keeps.bind (onDip_aside (a := a) (Ledger.registerAccess am ref)) (fun _ => .pure ()) a (.refl a))

end

end TaskAnalyser

namespace AccessProcessor

/-- A count reaches zero only while one notification is left, no last writer is
missing when a barrier draws the graph, and an application is not stopped twice. -/
structure Answers (drawGraph : Bool) (s : AccessProcessor) (l : Label) : Prop where
  careful : s.Careful l
  writers : ∀ env fuel appId sem rs, l = .process env fuel → s.requests = .barrier appId sem :: rs → drawGraph = true →
    ∀ entry ∈ s.analyser.writers, entry.2 ≠ none
  once : ∀ env fuel appId sem rs, l = .process env fuel →
    s.requests = .barrier appId sem :: rs ∨ s.requests = .endOfApp appId sem :: rs → s.analyser.appIdToSemaphore appId = none

/-- Every barrier has been processed without an error, and its semaphore is
released, or registered for the application until its unfinished tasks have ended. -/
def BarriersAnswered (s : AccessProcessor) : Prop :=
  ∀ appId sem, .barrier appId sem ∈ s.handled → .barrier appId sem ∉ s.raised ∧
    (.application appId sem ∈ s.analyser.released ∨
      s.analyser.appIdToSemaphore appId = some sem ∧ 0 < s.analyser.unended appId)

structure Answering (s : AccessProcessor) : Prop where
  ends : OneEnd s
  notRaised : ∀ appId sem, .barrier appId sem ∉ s.raised
  answered : ∀ appId sem, .barrier appId sem ∈ s.handled → s.analyser.Answered appId sem

section
variable {s s' : AccessProcessor} {drawGraph : Bool} {l : Label}

theorem init_answering : Answering init where
  ends := init_oneEnd
  notRaised _ _ h := (List.not_mem_nil h).elim
  answered _ _ h := (List.not_mem_nil h).elim

theorem Answering.unprocessed (h : Answering s) (hends : OneEnd s') (hu : Unprocessed s s') : Answering s' where
  ends := hends
  notRaised appId sem := by
    rw [hu.raised]
    exact h.notRaised appId sem
  answered appId sem hm := by
    rw [hu.handled] at hm
    unfold TaskAnalyser.Answered TaskAnalyser.WaitsOn
    rw [hu.released, hu.appIdToSemaphore, hu.taskCount]
    exact h.answered appId sem hm

theorem Answering.process (h : Answering s) (hends : OneEnd s') {env : TransferEnv} {fuel : Nat} {r : APRequest}
    {rs : List APRequest} (hrs : s.requests = r :: rs) (hp : s.process drawGraph env fuel r rs = some s')
    (hl : s.Answers drawGraph (.process env fuel)) : Answering s' := by
  obtain ⟨submitted, raised, rfl, -, hraised⟩ := process_cases hp
  have hbarrier : ∀ appId sem, r = .barrier appId sem →
      ∃ b, r.process drawGraph env fuel s.analyser = .ok () b ∧ TaskAnalyser.Aside (TaskAnalyser.stopped s.analyser appId sem) b := by
    rintro appId sem rfl
    exact TaskAnalyser.barrier_run (fun hd => hl.writers env fuel appId sem rs rfl hrs hd) appId sem
  refine ⟨hends, fun appId sem hm => ?_, fun appId sem hm => ?_⟩
  · change _ ∈ raised at hm
    obtain rfl | ⟨rfl, e, a, herror⟩ := hraised
    · exact h.notRaised appId sem hm
    · obtain rfl | hm := List.mem_cons.mp hm
      · obtain ⟨b, hb, -⟩ := hbarrier appId sem rfl
        rw [hb] at herror
        cases herror
      · exact h.notRaised appId sem hm
  · change _ ∈ r :: s.handled at hm
    obtain rfl | hm := List.mem_cons.mp hm
    · obtain ⟨b, hb, hab⟩ := hbarrier appId sem rfl
      have hpos : 0 ≤ (s.analyser.appIdToTaskCount appId).getD 0 := by
        rw [h.ends.taskCount]
        exact Int.natCast_nonneg _
      change (Java.final ((APRequest.barrier appId sem).process drawGraph env fuel s.analyser)).Answered appId sem
      rw [hb]
      exact (TaskAnalyser.stopped_answered hpos).aside hab
    · refine (h.answered appId sem hm).process drawGraph env fuel fun app sem' hr => ?_
      refine hl.once env fuel app sem' rs rfl ?_
      rw [hrs]
      exact hr.imp (congrArg (· :: rs)) (congrArg (· :: rs))

theorem Answering.step (h : Answering s) (hc : Consistent s) (hl : s.Answers drawGraph l)
    (hstep : s.step drawGraph l = some s') : Answering s' := by
  have hends := h.ends.step hc hl.careful hstep
  obtain hu | ⟨env, fuel, r, rs, rfl, hrs, hp⟩ := (hc.move hstep).unprocessed
  · exact h.unprocessed hends hu
  · exact h.process hends hrs hp hl

theorem Answering.barriersAnswered (h : Answering s) : BarriersAnswered s := fun appId sem hm =>
  ⟨h.notRaised appId sem, (h.answered appId sem hm).imp_right fun ⟨hsem, hpos⟩ => ⟨hsem, by
    rw [h.ends.taskCount] at hpos
    exact Int.natCast_pos.mp hpos⟩⟩

end

/-- **Barriers are always answered**, and no application goes on with an
unfinished task, in every run in which a count reaches zero only while one
notification is left, no last writer is missing when a barrier draws the graph,
and no application is stopped twice. -/
theorem barriersAnswered_of_answers (drawGraph : Bool) (labels : List Label)
    (h : Along (step drawGraph) (Answers drawGraph) init labels) :
    Always (step drawGraph) BarriersAnswered init labels ∧
      Along (step drawGraph) (fun s l => ∀ s', s.step drawGraph l = some s' → s.ReleasesEnded s') init labels := by
  have hstep : ∀ s l s', Answering s ∧ Consistent s → s.Answers drawGraph l → s.step drawGraph l = some s' →
      Answering s' ∧ Consistent s' := fun s l s' hs hl hst => ⟨hs.1.step hs.2 hl hst, hs.2.step hst⟩
  refine ⟨always_of_along (fun _ hs => hs.1.barriersAnswered) hstep ⟨init_answering, init_consistent⟩ h, ?_⟩
  refine along_of_along (fun s l _ hs hl _ s' hst => ?_) hstep ⟨init_answering, init_consistent⟩ h
  exact hs.1.ends.releasesEnded hs.2 hl.careful hst

/-- A task is analysed before the barrier, and ends after it. -/
def stoppedOnce : List Label :=
  [.newTask 7 false false false 1 false [], take, .barrier 7, take, .executeTask 1, .launch 0, .completed 0, .dispatch,
    .dispatch, .dispatch, take]

theorem barriersAnswered_of_answers_stoppedOnce : Along (step true) (Answers true) init stoppedOnce ∧
    Always (step true) BarriersAnswered init stoppedOnce ∧
      Along (step true) (fun s l => ∀ s', s.step true l = some s' → s.ReleasesEnded s') init stoppedOnce := by
  have h : Along (step true) (Answers true) init stoppedOnce := by
    have other : ∀ {s : AccessProcessor} {l : Label}, l ≠ .dispatch → s.Careful l := fun hne e is hl => absurd hl hne
    have idle : ∀ {s : AccessProcessor} {l : Label}, (∀ env fuel, l ≠ .process env fuel) → s.Careful l → s.Answers true l :=
      fun hne hc => ⟨hc, fun env fuel _ _ _ hl => absurd hl (hne env fuel), fun env fuel _ _ _ hl => absurd hl (hne env fuel)⟩
    refine fun s hs => ⟨idle (fun _ _ => Label.noConfusion) (other Label.noConfusion), ?_⟩
    cases hs
    refine fun s hs => ⟨⟨other Label.noConfusion, fun _ _ _ _ _ _ hrs => (by cases hrs), fun _ _ _ _ _ _ hrs => ?_⟩, ?_⟩
    · obtain hrs | hrs := hrs <;> cases hrs
    cases hs
    refine fun s hs => ⟨idle (fun _ _ => Label.noConfusion) (other Label.noConfusion), ?_⟩
    cases hs
    -- The barrier: there is no last writer, and the application is not stopped.
    refine fun s hs => ⟨⟨other Label.noConfusion, fun _ _ _ _ _ _ _ _ entry he => (by cases he), fun _ _ _ _ _ _ hrs => ?_⟩, ?_⟩
    · obtain hrs | hrs := hrs <;> cases hrs
      rfl
    cases hs
    refine fun s hs => ⟨idle (fun _ _ => Label.noConfusion) (other Label.noConfusion), ?_⟩
    cases hs
    refine fun s hs => ⟨idle (fun _ _ => Label.noConfusion) (other Label.noConfusion), ?_⟩
    cases hs
    refine fun s hs => ⟨idle (fun _ _ => Label.noConfusion) (other Label.noConfusion), ?_⟩
    cases hs
    refine fun s hs => ⟨idle (fun _ _ => Label.noConfusion) fun e is _ htodo _ => ?_, ?_⟩
    · cases htodo
      rfl
    cases hs
    refine fun s hs => ⟨idle (fun _ _ => Label.noConfusion) fun e is _ htodo => (by cases htodo), ?_⟩
    cases hs
    refine fun s hs => ⟨idle (fun _ _ => Label.noConfusion) fun e is _ htodo => (by cases htodo), ?_⟩
    cases hs
    refine fun s hs => ⟨⟨other Label.noConfusion, fun _ _ _ _ _ _ hrs => (by cases hrs), fun _ _ _ _ _ _ hrs => ?_⟩, trivial⟩
    obtain hrs | hrs := hrs <;> cases hrs
  exact ⟨h, barriersAnswered_of_answers true _ h⟩

/-- The main program waits for an object that a task has written, to change it,
and comes to a barrier. -/
def waitsToWrite : List Label :=
  [.newTask 7 false false false 1 false [(.OUT, some (.object 1))], take, .waitForTask 1 .RW, take, .barrier 7, take]

theorem waitsToWrite_raises : ¬ Always (step true) BarriersAnswered init waitsToWrite := by
  intro h
  have hrun : (Lib.run (step true) init waitsToWrite).map (fun s => (s.handled.head?, s.raised)) =
      some (some (.barrier 7 1), [.barrier 7 1]) := by decide +kernel
  obtain ⟨s, hs, heq⟩ := Option.map_eq_some_iff.mp hrun
  simp only [Prod.mk.injEq] at heq
  obtain ⟨hhandled, hraised⟩ := heq
  refine ((h.of_run hs) 7 1 (List.mem_of_head? hhandled)).1 ?_
  rw [hraised]
  exact List.mem_cons_self

end AccessProcessor

end Compss.Runtime
