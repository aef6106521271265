/-
Dependency safety: an execution is launched only when those of the tasks whose
results it reads have ended.

Three tables carry a dependency, one after the other: the last writers, until
the reader is analysed; the predecessors of the reader, until its executions are
made; and the predecessors of an execution, until it is launched. Each may lose
the writer only when the writer is over, which a wait in mode `RW` need not
heed.
-/
import Compss.Runtime.Links
import Compss.Runtime.TaskEnds

namespace Compss.Runtime

open Lib Ledger
open Scheduler (ActionState)

namespace TaskAnalyser

variable {a b c : TaskAnalyser} {t u w : TaskId} {d : Nat} {done done' : TaskId → Prop}

/-! ## The end of a task -/

/-- Data may have been reported, and `t` be no predecessor any more. -/
structure Ending (t : TaskId) (a b : TaskAnalyser) : Prop where
  dip : Settled a.dip b.dip
  writers : b.writers = a.writers
  analysed : b.analysed = a.analysed
  parameters : ∀ u, (b.task u).parameters = (a.task u).parameters
  predecessors : ∀ u, ∀ p ∈ (a.task u).predecessors, p ∈ (b.task u).predecessors ∨ p = t

theorem Ending.refl (h : Named a.dip) (t : TaskId) : Ending t a a :=
  ⟨.refl h, rfl, rfl, fun _ => rfl, fun _ _ hp => .inl hp⟩

theorem Ending.kept (h : Ending t a b) (hbc : Kept b c) : Ending t a c where
  dip := hbc.dip ▸ h.dip
  writers := hbc.writers.trans h.writers
  analysed := hbc.analysed.trans h.analysed
  parameters u := (hbc.parameters u).trans (h.parameters u)
  predecessors u p hp := (h.predecessors u p hp).imp_left (hbc.predecessors u p)

theorem keeps_ending {x : M Unit} (hx : ∀ b, Java.Keeps (Kept b) x) : Java.Keeps (Ending t a) x :=
  fun b hb => hb.kept (hx b b (.refl b))

theorem onDip_ending {α : Type} {x : DataInfoProvider.M α} (hx : ∀ p, Java.Keeps (Settled p) x) :
    Java.Keeps (Ending t a) (onDip x) := by
  intro b hb
  have hset := hx a.dip b.dip hb.dip
  unfold onDip
  cases hr : x b.dip with
  | ok r p =>
    rw [hr] at hset
    exact { hb with dip := hset }
  | error e p =>
    rw [hr] at hset
    exact { hb with dip := hset }

theorem accessed_ending (p : Parameter) : Java.Keeps (Ending t a) (accessed p) := by
  unfold accessed
  cases p.ref with
  | none => exact .pure _
  | some ref =>
    cases p.dataAccessId with
    | none => exact .throw _
    | some daId => exact onDip_ending fun _ => dataHasBeenAccessed_settled daId

theorem checkResultFileTransfer_ending (env : TransferEnv) (fuel : Nat) (u : TaskId) :
    Java.Keeps (Ending t a) (checkResultFileTransfer env fuel u) := by
  refine .bind .get fun s => .forM _ fun d _ => .tryCatch ?_ fun e => .ite (fun _ => .throw _) fun _ => .pure _
  exact .bind (onDip_ending fun _ => blockDataAndGetResultFile_settled env fuel d)
    fun _ => onDip_ending fun _ => unblockDataId_settled d

/-- Only `t` is taken off the predecessors. -/
theorem modifyTask_ending {f : Task → Task} (hx : ∀ x : Task, (f x).parameters = x.parameters)
    (hp : ∀ x : Task, ∀ p ∈ x.predecessors, p ∈ (f x).predecessors ∨ p = t) (u : TaskId) :
    Java.Keeps (Ending t a) (modifyTask u f) := by
  refine .modify fun b hb => { hb with parameters := ?_, predecessors := ?_ }
  · refine forall_setTask (P := fun v y => y.parameters = (a.task v).parameters) ?_ fun v _ => hb.parameters v
    rw [hx, hb.parameters]
  · refine forall_setTask (P := fun v y => ∀ p ∈ (a.task v).predecessors, p ∈ y.predecessors ∨ p = t) (fun p hpa => ?_)
      fun v _ => hb.predecessors v
    exact (hb.predecessors u p hpa).elim (hp _ p) .inr

theorem releaseDataDependents_ending (t : TaskId) : Java.Keeps (Ending t a) (releaseDataDependents t) := by
  refine .bind .get fun s => .bind (.forM _ fun u _ => ?_) fun _ => ?_
  · refine modifyTask_ending ?_ ?_ u
    · exact fun _ => rfl
    intro x p hp
    by_cases hpt : p = t
    · exact .inr hpt
    · exact .inl ((List.mem_erase_of_ne hpt).mpr hp)
  · refine modifyTask_ending ?_ ?_ t
    · exact fun _ => rfl
    · exact fun _ _ hp => .inl hp

theorem treatEnd_ending (env : TransferEnv) (fuel : Nat) (t : TaskId) : Java.Keeps (Ending t a) (treatEnd env fuel t) := by
  refine .bind (keeps_ending fun b => modify_kept fun b => { Kept.refl b with }) fun _ => .bind .get fun x => ?_
  refine .bind (keeps_ending fun _ => countEnd_kept _) fun _ => .bind (keeps_ending fun _ => releaseWaits_kept t) fun _ => ?_
  refine .bind (.forM _ fun p _ => accessed_ending p) fun _ => .bind .get fun s => .ite (fun _ => ?_) fun _ => ?_
  · exact .bind (checkResultFileTransfer_ending env fuel t) fun _ => releaseDataDependents_ending t
  · exact releaseDataDependents_ending t

theorem Linked.ending (h : Linked done a) (hab : Ending t a b) (hdone : done t) : Linked done b := by
  refine h.settled hab.dip hab.writers hab.analysed (fun u => accesses_congr (hab.parameters u)) fun u _ p hp => ?_
  obtain hp | rfl := hab.predecessors u p hp
  · exact .inl hp
  · exact .inr hdone

/-- The end of a task that is free, if it is over then. -/
theorem Linked.endTask (h : Linked done a) (env : TransferEnv) (fuel : Nat) (hdone : (a.task t).isFree = true → done t) :
    Linked done (Java.final (TaskAnalyser.endTask env fuel t a)) := by
  cases hfree : (a.task t).isFree with
  | false =>
    rw [endTask_notFree hfree]
    exact h
  | true =>
    by_cases hf : (a.task t).status = .failed
    · rw [endTask_failed hfree hf]
      exact h.settled (.refl h.named) rfl rfl (fun _ => rfl) fun _ _ _ hp => .inl hp
    · rw [endTask_free hfree hf]
      exact h.ending (treatEnd_ending env fuel t a (.refl h.named t)) (hdone hfree)

/-- A task may change, but not in what the analyser has noted of it. -/
theorem Linked.setTask {x : Task} (h : Linked done a) (hacc : x.accesses = (a.task t).accesses)
    (hpred : x.accesses ≠ [] → x.predecessors = (a.task t).predecessors) : Linked done (a.setTask t x) := by
  have hall : ∀ u, ((a.setTask t x).task u).accesses = (a.task u).accesses :=
    forall_setTask (P := fun u y => y.accesses = (a.task u).accesses) hacc fun _ _ => rfl
  refine h.settled (.refl h.named) rfl rfl hall fun u hu p hp => .inl ?_
  rw [setTask_task]
  split
  · next hut =>
    rw [hut] at hp hu
    rw [hpred (hacc ▸ hu)]
    exact hp
  · exact hp

/-! ## The main program -/

/-- The main program has accessed a datum: what it writes, no task has written. -/
theorem Linked.mainAccess {dip : DataInfoProvider} {mode : AccessMode} {n : Nat} (h : Linked done a)
    (hacc : Accessed a.dip dip mode d n) : Linked done { a with dip := dip } := by
  refine { h with named := hacc.named, versions := fun u x hx => ?_, current := fun w x hx v hv hc => ?_ }
  · obtain ⟨m, hm, hread, hwritten⟩ := h.versions u x hx
    obtain ⟨m', hm', hle⟩ := hacc.current hm
    exact ⟨m', hm', fun v hv => Nat.le_trans (hread v hv) hle, fun v hv => Nat.le_trans (hwritten v hv) hle⟩
  · obtain ⟨m, hm, -, hwritten⟩ := h.versions w x hx
    have hle := hwritten v hv
    refine h.current w x hx v hv ?_
    change currentVersion dip x.dataId = some v at hc
    by_cases hd : x.dataId = d
    · rw [hd] at hm hc ⊢
      obtain rfl := hacc.before m hm
      rw [hacc.after] at hc
      split at hc
      · cases hc
        omega
      · rw [hm, hc]
    · rw [hacc.other _ m hd hm] at hc
      rw [hm, hc]

theorem Linked.registerDataAccess (h : Linked done a) (am : AccessMode) (ref : DataRef) :
    Linked done (Java.final ((do let _ ← onDip (Ledger.registerAccess am ref) : M Unit) a)) := by
  obtain ⟨d, di, dip, hreg, -, hacc⟩ := h.named.registerAccess am ref
  have hrun : onDip (Ledger.registerAccess am ref) a = .ok (accessId d di am) { a with dip := dip } := by
    unfold onDip
    rw [hreg]
  rw [Java.bind_ok hrun]
  exact h.mainAccess hacc

/-- No task that is not done has written the current version of the datum. -/
def Overtaken (done : TaskId → Prop) (a : TaskAnalyser) (d : Nat) : Prop :=
  ∀ w ∈ a.analysed, ∀ x ∈ (a.task w).accesses, x.dataId = d → x.writtenVersion = currentVersion a.dip d → done w

/-- A last writer that is taken out has been overtaken. -/
theorem Linked.findWaitedTask (h : Linked done a) (drawGraph : Bool) (dataId : Nat) (am : AccessMode) (sem : SemaphoreId)
    (hrw : am = .RW → Overtaken done a dataId) :
    Linked done (Java.final (TaskAnalyser.findWaitedTask drawGraph dataId am sem a)) := by
  obtain ⟨n, detected, hrun⟩ := findWaitedTask_run drawGraph dataId am sem a
  obtain ⟨waited, released, he⟩ := foundWaited_eq a dataId sem
  rw [hrun, he]
  have hwriter : ∀ e : Nat, ((waitedWriters a dataId am).lookup e).join =
      if e = dataId ∧ am = .RW then none else a.writer e := by
    intro e
    unfold waitedWriters
    by_cases hout : (a.writer dataId).isSome ∧ am = .RW
    · rw [if_pos hout]
      change (a.putWriter dataId none).writer e = _
      rw [writer_putWriter]
      simp only [hout.2, and_true]
    · rw [if_neg hout]
      change a.writer e = _
      split
      · next hc =>
        obtain ⟨rfl, ham⟩ := hc
        rw [← Option.not_isSome_iff_eq_none]
        exact fun hs => hout ⟨hs, ham⟩
      · rfl
  refine { h with last := fun e w hw => ?_, current := fun w x hx v hv hc => ?_ }
  · change ((waitedWriters a dataId am).lookup e).join = some w at hw
    rw [hwriter] at hw
    split at hw
    · cases hw
    · exact h.last e w hw
  · change ((waitedWriters a dataId am).lookup x.dataId).join = some w ∨ done w
    rw [hwriter]
    split
    · next hd =>
      refine .inr (hrw hd.2 w (h.analysed w (List.ne_nil_of_mem hx)) x hx hd.1 ?_)
      rw [hv, ← hd.1]
      exact hc.symm
    · exact h.current w x hx v hv hc

end TaskAnalyser

/-- The access processor takes a request. -/
def Label.processes : Label → Bool
  | .process _ _ => true
  | .newTask .. | .waitForTask .. | .barrier .. | .noMoreTasks .. | .registerDataAccess .. | .executeTask .. | .launch ..
  | .completed .. | .error .. | .failed .. | .doFailed .. | .dispatch => false

namespace AccessProcessor

/-- The datum whose last writer the next request takes out. -/
def takenOut (s : AccessProcessor) : Option Nat :=
  match s.requests with
  | .waitForTask dataId .RW _ :: _ => some dataId
  | _ => none

/-- A wait takes out the last writer of a datum only when the datum has been
overtaken, as by the access the main program registers before it waits. -/
def WaitsInTime (s : AccessProcessor) (l : Label) : Prop :=
  l.processes = true → ∀ d ∈ s.takenOut, TaskAnalyser.Overtaken s.Over s.analyser d

instance (s : AccessProcessor) (t : TaskId) : Decidable (s.Over t) := inferInstanceAs (Decidable (_ ∧ _))

instance (done : TaskId → Prop) [DecidablePred done] (a : TaskAnalyser) (d : Nat) : Decidable (a.Overtaken done d) :=
  inferInstanceAs (Decidable (∀ w ∈ a.analysed, ∀ x ∈ (a.task w).accesses, _))

instance (s : AccessProcessor) (l : Label) : Decidable (s.WaitsInTime l) :=
  inferInstanceAs (Decidable (l.processes = true → ∀ d ∈ s.takenOut, TaskAnalyser.Overtaken s.Over s.analyser d))

section
variable {s s' : AccessProcessor} {t u w : TaskId} {e f : ExecutionId} {drawGraph : Bool} {l : Label}

theorem produces_accesses {a : TaskAnalyser} (h : a.Produces w t) : (a.task w).accesses ≠ [] ∧ (a.task t).accesses ≠ [] := by
  obtain ⟨-, x, hx, y, hy, -⟩ := h
  exact ⟨List.ne_nil_of_mem hy, List.ne_nil_of_mem hx⟩

theorem produces_congr {a b : TaskAnalyser} (hw : (b.task w).accesses = (a.task w).accesses)
    (ht : (b.task t).accesses = (a.task t).accesses) (hp : b.Produces w t) : a.Produces w t := by
  unfold TaskAnalyser.Produces at hp ⊢
  rwa [hw, ht] at hp

/-! ## The links -/

theorem init_linked {done : TaskId → Prop} : TaskAnalyser.Linked done init.analyser where
  named := .init
  versions t x hx := (List.not_mem_nil hx).elim
  last d w hw := by cases hw
  current w x hx := (List.not_mem_nil hx).elim
  analysed t ht := (ht rfl).elim
  earlier w t hp := ((produces_accesses hp).1 rfl).elim
  depends w t hp := ((produces_accesses hp).1 rfl).elim

/-- A request that is no new task leaves the links and the parameters. -/
theorem process_keepsLinks {done : TaskId → Prop} {a : TaskAnalyser} (h : a.Linked done) (drawGraph : Bool)
    (env : TransferEnv) (fuel : Nat) {r : APRequest} (hr : r.task? = none)
    (hfree : ∀ t, r = .taskEnd t → (a.task t).isFree = true → done t)
    (hrw : ∀ dataId sem, r = .waitForTask dataId .RW sem → TaskAnalyser.Overtaken done a dataId) :
    TaskAnalyser.Linked done (Java.final (r.process drawGraph env fuel a)) ∧
      ∀ u, ((Java.final (r.process drawGraph env fuel a)).task u).parameters = (a.task u).parameters := by
  have hkept : ∀ {x : TaskAnalyser.M Unit}, Java.Keeps (TaskAnalyser.Kept a) x →
      TaskAnalyser.Linked done (Java.final (x a)) ∧ ∀ u, ((Java.final (x a)).task u).parameters = (a.task u).parameters :=
    fun hx => ⟨h.kept (hx a (.refl a)), (hx a (.refl a)).parameters⟩
  cases r with
  | analyseTask t => cases hr
  | taskEnd t =>
    refine ⟨h.endTask env fuel (hfree t rfl), fun u => ?_⟩
    change ((Java.final (TaskAnalyser.endTask env fuel t a)).task u).parameters = _
    cases hf : (a.task t).isFree with
    | false => rw [TaskAnalyser.endTask_notFree hf]; rfl
    | true =>
      by_cases hst : (a.task t).status = .failed
      · rw [TaskAnalyser.endTask_failed hf hst]; rfl
      · rw [TaskAnalyser.endTask_free hf hst]
        exact (TaskAnalyser.treatEnd_ending env fuel t a (.refl h.named t)).parameters u
  | waitForTask dataId am sem =>
    refine ⟨h.findWaitedTask drawGraph dataId am sem fun ham => hrw dataId sem (by rw [ham]), fun u => ?_⟩
    obtain ⟨n, detected, hrun⟩ := TaskAnalyser.findWaitedTask_run drawGraph dataId am sem a
    obtain ⟨waited, released, he⟩ := TaskAnalyser.foundWaited_eq a dataId sem
    change ((Java.final (TaskAnalyser.findWaitedTask drawGraph dataId am sem a)).task u).parameters = _
    rw [hrun, he]
    rfl
  | barrier appId sem => exact hkept (TaskAnalyser.barrier_kept drawGraph appId sem)
  | endOfApp appId sem => exact hkept (TaskAnalyser.noMoreTasks_kept appId sem)
  | registerDataAccess am ref =>
    refine ⟨h.registerDataAccess am ref, fun u => ?_⟩
    obtain ⟨d, di, dip, hreg, -, -⟩ := h.named.registerAccess am ref
    have hrun : TaskAnalyser.onDip (Ledger.registerAccess am ref) a = .ok (accessId d di am) { a with dip := dip } := by
      unfold TaskAnalyser.onDip
      rw [hreg]
    change ((Java.final ((do let _ ← TaskAnalyser.onDip (Ledger.registerAccess am ref) : TaskAnalyser.M Unit) a)).task u).parameters = _
    rw [Java.bind_ok hrun]
    rfl

/-- A request keeps the links; a new task is analysed and handed on, and read by
none that was analysed before. -/
theorem Consistent.process_linked (hc : Consistent s) {done : TaskId → Prop} (h : TaskAnalyser.Linked done s.analyser)
    (hdone : ∀ t, s.Over t → done t) (hrw : ∀ d ∈ s.takenOut, TaskAnalyser.Overtaken done s.analyser d) {env : TransferEnv}
    {fuel : Nat} {r : APRequest} {rs : List APRequest} (hrs : s.requests = r :: rs)
    (hp : s.process drawGraph env fuel r rs = some s') :
    TaskAnalyser.Linked done s'.analyser ∧ s'.analyser.analysed = s.analyser.analysed ++ r.task?.toList ∧
      s'.submitted = s.submitted ++ r.task?.toList ∧
      ∀ u ∈ s.analyser.analysed, ∀ w, s'.analyser.Produces w u → s.analyser.Produces w u := by
  cases hr : r.task? with
  | none =>
    obtain ⟨hlinked, hparams⟩ := process_keepsLinks h drawGraph env fuel hr (fun t hrt hfree => by
        subst hrt
        exact hdone t ((hc.over_iff (hc.notified t (hrs ▸ List.mem_cons_self))).mpr hfree)) fun dataId sem hrt => by
        subst hrt
        exact hrw dataId (by rw [takenOut, hrs]; rfl)
    have hkeep := process_keepsTasks drawGraph env fuel hr s.analyser
    obtain ⟨submitted, raised, rfl, hsub, -⟩ := process_cases hp
    obtain rfl | ⟨t, rfl, -⟩ := hsub
    · refine ⟨hlinked, ?_, ?_, fun u _ w => ?_⟩
      · exact hkeep.analysed.trans (List.append_nil _).symm
      · exact (List.append_nil _).symm
      · exact produces_congr (TaskAnalyser.accesses_congr (hparams w)) (TaskAnalyser.accesses_congr (hparams u))
    · cases hr
  | some t =>
    obtain rfl : r = .analyseTask t := by
      cases r with
      | analyseTask u => cases hr; rfl
      | taskEnd | waitForTask | barrier | endOfApp | registerDataAccess => cases hr
    have hacc : (s.analyser.task t).accesses = [] := by
      by_contra hne
      exact hc.not_analysed hrs (h.analysed t hne)
    have hold : ∀ u ∈ s.analyser.analysed, u < t := fun u hu =>
      (List.pairwise_append.mp hc.tasks).2.2 u hu t (by simp [toAnalyse, hrs, APRequest.task?])
    obtain ⟨b, hb, hlinked, hother⟩ := h.processTask drawGraph hacc hold
    have hana : b.analysed = s.analyser.analysed ++ [t] := by
      have := (TaskAnalyser.processTask_aside drawGraph t s.analyser).analysed
      rw [hb] at this
      exact this
    have hrun : (APRequest.analyseTask t).process drawGraph env fuel s.analyser = .ok () b := hb
    rw [AccessProcessor.process, hrun] at hp
    cases hp
    refine ⟨hlinked, hana, rfl, fun u hu w hw => ?_⟩
    have hwu := hlinked.earlier w u hw
    exact produces_congr (TaskAnalyser.accesses_congr (hother w (Nat.lt_trans hwu (hold u hu)).ne))
      (TaskAnalyser.accesses_congr (hother u (hold u hu).ne)) hw

/-- Every step keeps the links, when a last writer that is taken out has been overtaken. -/
theorem Consistent.linked_step (hc : Consistent s) {done : TaskId → Prop} (h : TaskAnalyser.Linked done s.analyser)
    (hdone : ∀ t, s.Over t → done t)
    (hrw : l.processes = true → ∀ d ∈ s.takenOut, TaskAnalyser.Overtaken done s.analyser d)
    (hstep : s.step drawGraph l = some s') : TaskAnalyser.Linked done s'.analyser := by
  cases hc.move hstep with
  | newTask x hx hn =>
    have hnot : s.nextTask ∉ s.analyser.analysed := fun hm =>
      Nat.lt_irrefl _ (hc.known _ (List.mem_append_left _ hm))
    refine h.setTask ?_ fun hne => (hne hx.2.2).elim
    rw [hx.2.2]
    by_contra hne
    exact hnot (h.analysed _ (Ne.symm hne))
  | offered | moved | ended => exact h
  | processed r rs hrs hp => exact (hc.process_linked h hdone (hrw rfl) hrs hp).1
  | executed => exact h.setTask rfl fun _ => rfl
  | dispatched i is htodo =>
    cases i with
    | decreaseExecutionCount | setStatus => exact h.setTask rfl fun _ => rfl
    | notifyTaskEnd | releaseSuccessors => exact h

/-- A task that is over stays so. -/
theorem Consistent.over_step (h : Consistent s) (hstep : s.step drawGraph l = some s') (ho : s.Over t) : s'.Over t := by
  obtain hq | ⟨env, fuel, r, rs, rfl, hrs, hp⟩ | ⟨e, is, rfl, htodo, rfl⟩ := h.quiet hstep
  · exact (hq.isOver t).mpr ho
  · exact ((process_takes hrs hp).1.isOver t).mpr ho
  · exact (h.over_decrease htodo t).mpr (.inl ho)

/-! ## The executions -/

/-- The analysed tasks get their executions in order, and every execution that
may still wait has all pending executions of the writers of what it reads among
its predecessors. -/
structure Safe (s : AccessProcessor) : Prop where
  linked : TaskAnalyser.Linked s.Over s.analyser
  order : ∃ executed, s.analyser.analysed = executed ++ s.submitted ∧ ∀ t ∈ executed, s.executionsOf t ≠ []
  waits : ∀ e < s.nextExecution, ∀ w, s.analyser.Produces w (s.execution e).task →
    ∀ f ∈ s.executionsOf w, (s.execution f).isPending = true → f ∈ (s.execution e).dataPredecessors
  ended : ∀ i ∈ s.todo, (s.execution i.execution).isPending = false

theorem init_safe : Safe init where
  linked := init_linked
  order := ⟨[], rfl, fun t ht => (List.not_mem_nil ht).elim⟩
  waits e he := (Nat.not_lt_zero e he).elim
  ended i hi := (List.not_mem_nil hi).elim

/-- Of two analysed tasks the earlier one has its executions when the later one has. -/
theorem Safe.executed (h : Safe s) (hc : Consistent s) (hlt : w < t) (hw : w ∈ s.analyser.analysed)
    (ht : t ∈ s.analyser.analysed) (hex : t ∉ s.submitted ∨ ∃ ts, s.submitted = t :: ts) : s.executionsOf w ≠ [] := by
  obtain ⟨executed, hlist, hexec⟩ := h.order
  have hsorted := (List.pairwise_append.mp hc.tasks).1
  rw [hlist] at hw ht hsorted
  refine hexec w ((List.mem_append.mp hw).resolve_right fun hsub => ?_)
  obtain hnot | ⟨ts, hts⟩ := hex
  · have htex := (List.mem_append.mp ht).resolve_right hnot
    exact Nat.lt_asymm hlt ((List.pairwise_append.mp hsorted).2.2 t htex w hsub)
  · rw [hts] at hsub hsorted
    obtain rfl | hmem := List.mem_cons.mp hsub
    · exact Nat.lt_irrefl _ hlt
    · exact Nat.lt_asymm hlt ((List.pairwise_cons.mp (List.pairwise_append.mp hsorted).2.1).1 w hmem)

/-- The writer of what an execution reads has got its executions. -/
theorem Safe.producer_executed (h : Safe s) (hc : Consistent s) (he : e < s.nextExecution)
    (hp : s.analyser.Produces w (s.execution e).task) : s.executionsOf w ≠ [] := by
  have hmem := List.ne_nil_of_mem (mem_executionsOf.mpr ⟨he, rfl⟩)
  refine h.executed hc (h.linked.earlier w _ hp) (h.linked.analysed w (produces_accesses hp).1) (hc.made e he) (.inl fun hsub => ?_)
  exact hmem (hc.submitted _ hsub).2

/-! ## Steps of the task dispatcher -/

/-- The accesses and the links of the tasks stay, and no pending execution is
taken off the predecessors of another. -/
structure Steady (s s' : AccessProcessor) : Prop where
  analysed : s'.analyser.analysed = s.analyser.analysed
  submitted : s'.submitted = s.submitted
  produces : ∀ w t, s'.analyser.Produces w t → s.analyser.Produces w t
  nextExecution : s'.nextExecution = s.nextExecution
  task : ∀ e, (s'.execution e).task = (s.execution e).task
  pending : ∀ e, (s'.execution e).isPending = true → (s.execution e).isPending = true
  dataPredecessors : ∀ e, ∀ f ∈ (s.execution e).dataPredecessors, (s'.execution f).isPending = true →
    f ∈ (s'.execution e).dataPredecessors
  ended : (∀ i ∈ s.todo, (s.execution i.execution).isPending = false) →
    ∀ i ∈ s'.todo, (s'.execution i.execution).isPending = false

theorem Steady.executionsOf (h : Steady s s') (t : TaskId) : s'.executionsOf t = s.executionsOf t :=
  executionsOf_congr h.nextExecution (fun e _ => h.task e) t

theorem Safe.steady (h : Safe s) (hs : Steady s s') (hlinked : TaskAnalyser.Linked s'.Over s'.analyser) : Safe s' where
  linked := hlinked
  order := by
    rw [hs.analysed, hs.submitted]
    simp only [hs.executionsOf]
    exact h.order
  waits e he w hp f hf hpend := by
    rw [hs.task] at hp
    rw [hs.executionsOf] at hf
    refine hs.dataPredecessors e f (h.waits e (hs.nextExecution ▸ he) w (hs.produces w _ hp) f hf (hs.pending f hpend)) hpend
  ended := hs.ended h.ended

theorem steady_setTask {x : Task} (hacc : x.accesses = (s.analyser.task t).accesses) : Steady s (s.setTask t x) := by
  have hall : ∀ u, ((s.analyser.setTask t x).task u).accesses = (s.analyser.task u).accesses :=
    TaskAnalyser.forall_setTask (P := fun u y => y.accesses = (s.analyser.task u).accesses) hacc fun _ _ => rfl
  exact ⟨rfl, rfl, fun w u => produces_congr (hall w) (hall u), rfl, fun _ => rfl, fun _ => id, fun _ _ hf _ => hf, id⟩

/-- One execution may change, but neither its task nor its predecessors, and what
is no longer pending stays so. -/
theorem steady_update {x : Execution} {group : ExecutionId → MultiNode.MultiNodeGroup} {todo : List Instr}
    (ht : x.task = (s.execution e).task) (hd : x.dataPredecessors = (s.execution e).dataPredecessors)
    (hp : x.isPending = true → (s.execution e).isPending = true)
    (htodo : todo = s.todo ∨ ∀ i ∈ todo, i.execution = e ∧ x.isPending = false) :
    Steady s { s with execution := Function.update s.execution e x, group := group, todo := todo } := by
  have hpend : ∀ f, (Function.update s.execution e x f).isPending = true → (s.execution f).isPending = true := by
    intro f hf
    rw [Function.update_apply] at hf
    split at hf
    · next hfe => exact hfe ▸ hp hf
    · exact hf
  refine ⟨rfl, rfl, fun _ _ => id, rfl, fun f => ?_, hpend, fun g f hf _ => ?_, fun hold i hi => ?_⟩
  · change (Function.update s.execution e x f).task = _
    rw [Function.update_apply]
    split
    · next hfe => rw [hfe, ht]
    · rfl
  · change f ∈ (Function.update s.execution e x g).dataPredecessors
    rw [Function.update_apply]
    split
    · next hge => rw [hd, ← hge]; exact hf
    · exact hf
  · change (Function.update s.execution e x i.execution).isPending = false
    obtain rfl | htodo := htodo
    · rw [Bool.eq_false_iff]
      exact fun hc => absurd (hpend _ hc) (by simp [hold i hi])
    · rw [(htodo i hi).1, Function.update_self]
      exact (htodo i hi).2

theorem steady_dispatch (h : Safe s) {i : Instr} {is : List Instr} (htodo : s.todo = i :: is) :
    Steady s { s.run i with todo := is } := by
  have hsub : ∀ j ∈ is, j ∈ s.todo := fun j hj => htodo ▸ List.mem_cons_of_mem _ hj
  cases i with
  | decreaseExecutionCount e =>
    have hset : Steady s (s.setTask (s.execution e).task
        { s.analyser.task (s.execution e).task with
          executionCount := (s.analyser.task (s.execution e).task).executionCount - 1 }) :=
      steady_setTask rfl
    have hexec : ∀ f, ((s.run (.decreaseExecutionCount e)).execution f).task = (s.execution f).task ∧
        ((s.run (.decreaseExecutionCount e)).execution f).isPending = (s.execution f).isPending ∧
        ((s.run (.decreaseExecutionCount e)).execution f).dataPredecessors = (s.execution f).dataPredecessors := by
      intro f
      rw [run_decrease_execution]
      split <;> exact ⟨rfl, rfl, rfl⟩
    refine { hset with task := fun f => (hexec f).1, pending := fun f => ?_, dataPredecessors := fun g f hf _ => ?_, ended := ?_ }
    · exact fun hp => (hexec f).2.1 ▸ hp
    · exact (hexec g).2.2 ▸ hf
    · exact fun hold j hj => (hexec _).2.1.trans (hold j (hsub j hj))
  | setStatus e status =>
    have hset : Steady s (s.setTask (s.execution e).task { s.analyser.task (s.execution e).task with status := status }) :=
      steady_setTask rfl
    exact { hset with ended := fun hold j hj => hold j (hsub j hj) }
  | notifyTaskEnd e =>
    exact ⟨rfl, rfl, fun _ _ => id, rfl, fun _ => rfl, fun _ => id, fun _ _ hf _ => hf,
      fun hold j hj => hold j (hsub j hj)⟩
  | releaseSuccessors e =>
    refine ⟨rfl, rfl, fun _ _ => id, rfl, fun _ => rfl, fun _ => id, fun g f hf hp => ?_,
      fun hold j hj => hold j (hsub j hj)⟩
    -- What is taken off has ended.
    have hended : (s.execution e).isPending = false := h.ended (.releaseSuccessors e) (htodo ▸ List.mem_cons_self)
    refine List.mem_filter.mpr ⟨hf, decide_eq_true ?_⟩
    rintro rfl
    rw [show (s.execution f).isPending = true from hp] at hended
    cases hended

/-- The executions of the first task submitted are made. -/
theorem Safe.execute (h : Safe s) (hc : Consistent s) {ts : List TaskId} (hs : s.submitted = t :: ts) (htodo : s.todo = [])
    {workers : Nat} (hw : 0 < workers)
    (hlinked : TaskAnalyser.Linked ({ s.execute t workers with submitted := ts } : AccessProcessor).Over (s.execute t workers).analyser) :
    Safe { s.execute t workers with submitted := ts } := by
  obtain ⟨hana, hnil⟩ := hc.submitted t (hs ▸ List.mem_cons_self)
  have hof := execute_executionsOf s t workers
  have hset : Steady s (s.setTask t { s.analyser.task t with
      status := .toExecute, executionCount := numExecutions (s.analyser.task t) workers,
      executions := (s.analyser.task t).executions ++ List.range' s.nextExecution (numExecutions (s.analyser.task t) workers) }) :=
    steady_setTask rfl
  have hold : ∀ w u, w ≠ t → s.analyser.Produces w u → ∀ f ∈ (s.execute t workers).executionsOf w,
      f ∈ s.executionsOf w ∧ (s.execute t workers).execution f = s.execution f := by
    intro w u hne hp f hf
    rw [hof, if_neg hne, List.append_nil] at hf
    exact ⟨hf, execute_execution_old (mem_executionsOf.mp hf).1⟩
  refine ⟨hlinked, ?_, ?_, ?_⟩
  · obtain ⟨executed, hlist, hexec⟩ := h.order
    refine ⟨executed ++ [t], ?_, fun u hu => ?_⟩
    · change s.analyser.analysed = _
      rw [hlist, hs]
      simp
    · change (s.execute t workers).executionsOf u ≠ []
      rw [hof]
      obtain hu | hu := List.mem_append.mp hu
      · exact fun hnil => hexec u hu (List.append_eq_nil_iff.mp hnil).1
      · rw [if_pos (List.mem_singleton.mp hu)]
        intro hnil
        have hpos := numExecutions_pos (hc.nodes t (hc.known t (List.mem_append_left _ hana))) hw
        have hlen := congrArg List.length (List.append_eq_nil_iff.mp hnil).2
        rw [List.length_range', List.length_nil] at hlen
        omega
  · refine forall_execute (P := fun _ x => ∀ w, (s.execute t workers).analyser.Produces w x.task →
      ∀ f ∈ (s.execute t workers).executionsOf w, ((s.execute t workers).execution f).isPending = true →
        f ∈ x.dataPredecessors) (fun e he w hp f hf hpend => ?_) fun e group w hp f hf hpend => ?_
    · -- The writer had its executions before.
      have hp := hset.produces w _ hp
      have hne : w ≠ t := fun hwt => h.producer_executed hc he hp (hwt ▸ hnil)
      obtain ⟨hf, heq⟩ := hold w _ hne hp f hf
      exact h.waits e he w hp f hf (heq ▸ hpend)
    · have hp := hset.produces w t hp
      obtain ⟨hf, heq⟩ := hold w t hp.1 hp f hf
      rw [heq] at hpend
      obtain hpred | ho := h.linked.depends w t hp
      · refine List.mem_dedup.mpr (List.mem_flatMap.mpr ⟨w, hpred, List.mem_filter.mpr ⟨?_, hpend⟩⟩)
        rw [hc.executions]
        exact hf
      · rw [hc.not_pending ho f hf] at hpend
        cases hpend
  · intro i hi
    change i ∈ s.todo at hi
    rw [htodo] at hi
    exact (List.not_mem_nil hi).elim

/-! ## Steps of the access processor -/

theorem Safe.process (h : Safe s) (hc : Consistent s) {env : TransferEnv} {fuel : Nat} {r : APRequest} {rs : List APRequest}
    (hl : s.WaitsInTime (.process env fuel)) (hrs : s.requests = r :: rs) (hp : s.process drawGraph env fuel r rs = some s')
    (hlinked : TaskAnalyser.Linked s'.Over s'.analyser) : Safe s' := by
  obtain ⟨htake, -⟩ := process_takes hrs hp
  obtain ⟨-, hana, hsub, hproduces⟩ := hc.process_linked h.linked (fun _ => id) (hl rfl) hrs hp
  have hof : ∀ u, s'.executionsOf u = s.executionsOf u :=
    executionsOf_congr htake.nextExecution fun e _ => by rw [htake.execution]
  refine ⟨hlinked, ?_, fun e he w hw f hf hpend => ?_, ?_⟩
  · obtain ⟨executed, hlist, hexec⟩ := h.order
    refine ⟨executed, ?_, fun u hu => (hof u) ▸ hexec u hu⟩
    rw [hana, hsub, hlist, List.append_assoc]
  · rw [htake.execution] at hw hpend ⊢
    rw [htake.nextExecution] at he
    exact h.waits e he w (hproduces _ (hc.made e he) w hw) f (hof w ▸ hf) hpend
  · rw [htake.todo, htake.execution]
    exact h.ended

theorem Safe.step (h : Safe s) (hc : Consistent s) (hl : s.WaitsInTime l) (hstep : s.step drawGraph l = some s') : Safe s' := by
  have hlinked : TaskAnalyser.Linked s'.Over s'.analyser :=
    (hc.linked_step h.linked (fun _ => id) hl hstep).mono fun t => hc.over_step hstep
  cases hc.move hstep with
  | newTask x hx hn =>
    have hacc : x.accesses = (s.analyser.task s.nextTask).accesses := by
      rw [hx.2.2]
      by_contra hne
      exact Nat.lt_irrefl _ (hc.known _ (List.mem_append_left _ (h.linked.analysed _ (Ne.symm hne))))
    have hset : Steady s (s.setTask s.nextTask x) := steady_setTask hacc
    exact h.steady { hset with } hlinked
  | offered r n hr hend =>
    exact h.steady ⟨rfl, rfl, fun _ _ => id, rfl, fun _ => rfl, fun _ => id, fun _ _ hf _ => hf, id⟩ hlinked
  | processed r rs hrs hp => exact h.process hc hl hrs hp hlinked
  | executed t ts hs htodo hw => exact h.execute hc hs htodo hw hlinked
  | moved e x group hx hd =>
    refine h.steady (steady_update hx.task hd (fun hp => ?_) (.inl rfl)) hlinked
    by_contra hne
    have hnot := Bool.not_eq_true _ ▸ hne
    rw [Execution.isPending_congr (hx.ended hnot)] at hp
    exact hne hp
  | ended e state todo hcan ht hs =>
    have hnot : ({ s.execution e with state := state, triggered := true } : Execution).isPending = false := by
      obtain ⟨rfl, -⟩ | ⟨rfl, -⟩ := hs <;> rfl
    refine h.steady (steady_update rfl rfl (fun hp => ?_) (.inr fun i hi => ⟨?_, hnot⟩)) hlinked
    · rw [hnot] at hp
      cases hp
    · obtain ⟨-, rfl⟩ | ⟨-, rfl⟩ := hs
      · exact Execution.onCompleted_execution hi
      · exact Execution.onFailed_execution hi
  | dispatched i is htodo => exact h.steady (steady_dispatch h htodo) hlinked

/-- A step that launches an execution finds the tasks that have written what it
reads with their executions made, and all of them ended. -/
def LaunchesAfterWriters (drawGraph : Bool) (s : AccessProcessor) (l : Label) : Prop :=
  ∀ e, l = .launch e → (s.step drawGraph l).isSome → ∀ w, s.analyser.Produces w (s.execution e).task →
    s.executionsOf w ≠ [] ∧ ∀ f ∈ s.executionsOf w, (s.execution f).state = .finished ∨ (s.execution f).state = .failed

theorem Safe.launches (h : Safe s) (hc : Consistent s) (l : Label) : LaunchesAfterWriters drawGraph s l := by
  rintro e rfl hstep w hp
  simp only [AccessProcessor.step] at hstep
  split at hstep
  · next hlaunch =>
    obtain ⟨he, -, hnone⟩ := hlaunch
    refine ⟨h.producer_executed hc he hp, fun f hf => (Execution.isPending_eq_false.mp ?_).symm⟩
    rw [Bool.eq_false_iff]
    intro hpend
    have := h.waits e he w hp f hf hpend
    rw [hnone] at this
    exact List.not_mem_nil this
  · cases hstep

theorem not_failed_step (hnone : ∀ e, (s.execution e).state ≠ .failed) (hl : ∀ e, l ≠ .failed e)
    (hstep : s.step drawGraph l = some s') (f : ExecutionId) : (s'.execution f).state ≠ .failed := by
  have hupdate : ∀ {e : ExecutionId} {x : Execution}, x.state ≠ .failed → (Function.update s.execution e x f).state ≠ .failed := by
    intro e x hx
    rw [Function.update_apply]
    split
    · exact hx
    · exact hnone f
  cases l with
  | newTask =>
    simp only [step] at hstep
    split at hstep
    · cases hstep
      exact hnone f
    · cases hstep
  | waitForTask | barrier | noMoreTasks | registerDataAccess =>
    cases hstep
    exact hnone f
  | process env fuel =>
    simp only [step] at hstep
    split at hstep
    · cases hstep
    · next r rs hrs =>
      rw [(process_takes hrs hstep).1.execution]
      exact hnone f
  | executeTask workers =>
    simp only [step] at hstep
    split at hstep
    · cases hstep
    · next t ts hs =>
      split at hstep
      · cases hstep
        simp only [execute]
        split
        · exact ActionState.noConfusion
        · exact hnone f
      · cases hstep
  | launch e =>
    simp only [step] at hstep
    split at hstep
    · cases hstep
      obtain ⟨id, group, he⟩ := doAction_eq s e
      rw [he]
      exact hupdate ActionState.noConfusion
    · cases hstep
  | completed e =>
    simp only [step] at hstep
    split at hstep
    · cases hstep
      exact hupdate ActionState.noConfusion
    · cases hstep
  | error e =>
    simp only [step] at hstep
    split at hstep
    · cases hstep
      exact hupdate ActionState.noConfusion
    · cases hstep
  | failed e => exact (hl e rfl).elim
  | doFailed e =>
    simp only [step] at hstep
    split at hstep
    · next hc => exact (hnone e hc.2.1).elim
    · cases hstep
  | dispatch =>
    simp only [step] at hstep
    split at hstep
    · cases hstep
    · next i is htodo =>
      cases hstep
      cases i with
      | decreaseExecutionCount e =>
        change ((s.run (.decreaseExecutionCount e)).execution f).state ≠ .failed
        rw [run_decrease_execution]
        split <;> exact hnone f
      | setStatus | notifyTaskEnd | releaseSuccessors => exact hnone f

end

/-- A task writes an object and another reads it, and then the main program accesses it to
change it. The last writer is taken out before it has run. -/
def mainOvertakes : List Label :=
  [.newTask 7 false false false 1 false [(.OUT, some (.object 1))], take,
    .newTask 7 false false false 1 false [(.IN, some (.object 1))], take,
    .registerDataAccess .RW (.object 1), take, .waitForTask 1 .RW, take,
    .executeTask 1, .launch 0, .executeTask 1, .completed 0, .dispatch, .dispatch, .dispatch, .dispatch, .launch 1]

end AccessProcessor

end Compss.Runtime
