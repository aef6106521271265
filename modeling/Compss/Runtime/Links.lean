/-
The links between tasks and data: who wrote the current version of a datum, and
on whom a task that reads it depends.

The table of last writers names the task that has written the datum last, unless
a wait in mode `RW` has taken it out; then that task is over when the wait is
processed in time. A task that reads the current version of a datum so depends
on its writer (`Linked`), as long as the writer has not ended.
-/
import Compss.Runtime.Consistency
import Compss.Runtime.Parameters

namespace Compss

open Lib

/-! ## What leaves the versions alone -/

namespace DataInfo

variable {α : Type} {x : M α}

/-- The current version stays. -/
def KeepsVersion (x : M α) : Prop := ∀ c, Java.Keeps (fun di => di.currentVersionId = c) x

theorem removeData_keepsVersion (v : Nat) : KeepsVersion (removeData v) := fun _ =>
  .bind .get fun _ => .ite (fun _ => .modify fun _ h => h) fun _ => .throw _

theorem versionAccessed_keepsVersion (report : DataVersion → DataVersion × Bool) (v : Nat) :
    KeepsVersion (versionAccessed report v) := fun c => by
  refine .bind .get fun di => .ite (fun _ => .bind (.modify fun _ h => h) fun _ => .ite (fun _ => ?_) fun _ => .pure _)
    fun _ => .throw _
  refine .bind (removeData_keepsVersion v c) fun _ => .bind (.modify fun _ h => h) fun _ => ?_
  exact .bind .get fun _ => .pure _

theorem blockDeletions_keepsVersion : KeepsVersion blockDeletions := fun _ => .modify fun _ h => h

theorem flushVersion_keepsVersion (v : Nat) : KeepsVersion (flushVersion v) := fun c => by
  refine .bind .get fun di => .bind (.modify fun _ h => h) fun _ => .ite (fun _ => ?_) fun _ => .pure _
  exact .bind (removeData_keepsVersion v c) fun _ => .modify fun _ h => h

theorem unblockDeletions_keepsVersion : KeepsVersion unblockDeletions := fun c => by
  refine .bind (.modify fun _ h => h) fun _ => .bind .get fun di => .ite (fun _ => ?_) fun _ => .pure _
  refine .bind (.forM _ fun v _ => flushVersion_keepsVersion v c) fun _ => ?_
  exact .bind .get fun _ => .pure _

theorem deleteVersions_keepsVersion : ∀ vs : List Nat, KeepsVersion (deleteVersions vs)
  | [], _ => .pure _
  | v :: vs, c => by
    refine .bind .get fun di => .bind (.modify fun _ h => h) fun _ => .ite (fun _ => ?_) fun _ => ?_
    · exact .bind (removeData_keepsVersion v c) fun _ => .bind (deleteVersions_keepsVersion vs c) fun _ => .pure _
    · exact deleteVersions_keepsVersion vs c

theorem foldl_removeVersion_currentVersionId (vs : List Nat) (di : DataInfo) :
    (vs.foldl removeVersion di).currentVersionId = di.currentVersionId := by
  induction vs generalizing di with
  | nil => rfl
  | cons v vs ih => rw [List.foldl_cons, ih, removeVersion_currentVersionId]

theorem delete_keepsVersion : KeepsVersion delete := fun c => by
  refine .bind .get fun di => .ite (fun _ => .bind (.modify fun _ h => h) fun _ => .pure _) fun _ => ?_
  refine .bind (deleteVersions_keepsVersion _ c) fun removed => .bind (.modify fun di h => ?_) fun _ => .bind .get fun _ => .pure _
  rw [foldl_removeVersion_currentVersionId, h]

end DataInfo

namespace Ledger

/-- The names and the current versions stay. -/
structure Settled (p p' : DataInfoProvider) : Prop where
  named : Named p'
  current : ∀ d, currentVersion p' d = currentVersion p d

theorem Settled.refl {p : DataInfoProvider} (h : Named p) : Settled p p := ⟨h, fun _ => rfl⟩

section
variable {p : DataInfoProvider} {α : Type}

theorem onData_settled (d : Nat) {x : DataInfo.M α} (hx : DataInfo.KeepsVersion x) :
    Java.Keeps (Settled p) (DataInfoProvider.onData d x) := by
  intro q hq
  refine ⟨hq.named.onData d x, fun e => ?_⟩
  cases hd : q.idToData d with
  | none => simpa [DataInfoProvider.onData, hd] using hq.current e
  | some di =>
    rw [DataInfoProvider.onData_final x hd, ← hq.current e]
    by_cases he : e = d
    · subst he
      rw [currentVersion, DataInfoProvider.setData_self, currentVersion, hd, Option.map_some, Option.map_some]
      exact congrArg some (hx di.currentVersionId di rfl)
    · rw [currentVersion, DataInfoProvider.setData_ne _ _ _ he, currentVersion]

theorem dataHasBeenAccessed_settled (id : DataAccessId) : Java.Keeps (Settled p) (DataInfoProvider.dataHasBeenAccessed id) := by
  have hread := DataInfo.versionAccessed_keepsVersion DataVersion.hasBeenRead
  have hwritten := DataInfo.versionAccessed_keepsVersion DataVersion.hasBeenWritten
  cases id with
  | R d r => exact (onData_settled d (hread r)).bind fun _ => .pure _
  | W d w => exact (onData_settled d (hwritten w)).bind fun _ => .pure _
  | RW d r w => exact (onData_settled d (hread r)).bind fun _ => (onData_settled d (hwritten w)).bind fun _ => .pure _

theorem blockDataAndGetResultFile_settled (env : TransferEnv) (fuel d : Nat) :
    Java.Keeps (Settled p) (DataInfoProvider.blockDataAndGetResultFile env fuel d) := by
  refine .bind .get fun q => ?_
  cases q.idToData d with
  | none => exact .pure _
  | some di =>
    dsimp only
    cases di.origLocation with
    | none => exact .throw _
    | some loc =>
      refine .ite (fun _ => (onData_settled d DataInfo.delete_keepsVersion).bind fun _ => .pure _) fun _ => ?_
      cases DataInfoProvider.originalName loc.path with
      | none => exact .throw _
      | some name =>
        refine .ite (fun _ => .pure _) fun _ => (onData_settled d DataInfo.blockDeletions_keepsVersion).bind fun _ => ?_
        refine .bind .get fun q' => ?_
        split
        · exact .throw _
        · exact .pure _
        · exact .ite (fun _ => .pure _) fun _ => .ite (fun _ => .throw _) fun _ => .pure _

theorem unblockDataId_settled (d : Nat) : Java.Keeps (Settled p) (DataInfoProvider.unblockDataId d) :=
  (onData_settled d DataInfo.unblockDeletions_keepsVersion).bind fun _ => .pure _

end

end Ledger

namespace Runtime

open Ledger

namespace TaskAnalyser

/-! ## What leaves the links alone -/

/-- The data, the last writers and the parameters stay, and no dependency is
lost. -/
structure Kept (a b : TaskAnalyser) : Prop where
  dip : b.dip = a.dip
  writers : b.writers = a.writers
  analysed : b.analysed = a.analysed
  parameters : ∀ u, (b.task u).parameters = (a.task u).parameters
  predecessors : ∀ u, ∀ p ∈ (a.task u).predecessors, p ∈ (b.task u).predecessors

section
variable {a b c s : TaskAnalyser} {t u w : TaskId} {d : Nat}

theorem Kept.refl (a : TaskAnalyser) : Kept a a := ⟨rfl, rfl, rfl, fun _ => rfl, fun _ _ h => h⟩

theorem Kept.trans (h : Kept a b) (h' : Kept b c) : Kept a c where
  dip := h'.dip.trans h.dip
  writers := h'.writers.trans h.writers
  analysed := h'.analysed.trans h.analysed
  parameters u := (h'.parameters u).trans (h.parameters u)
  predecessors u p hp := h'.predecessors u p (h.predecessors u p hp)

theorem setTask_kept {x : Task} (hx : x.parameters = (a.task t).parameters)
    (hp : ∀ p ∈ (a.task t).predecessors, p ∈ x.predecessors) : Kept a (a.setTask t x) where
  dip := rfl
  writers := rfl
  analysed := rfl
  parameters := forall_setTask (P := fun u y => y.parameters = (a.task u).parameters) hx fun _ _ => rfl
  predecessors := forall_setTask (P := fun u y => ∀ p ∈ (a.task u).predecessors, p ∈ y.predecessors) hp fun _ _ _ h => h

theorem modify_kept {f : TaskAnalyser → TaskAnalyser} (hf : ∀ b, Kept b (f b)) : Java.Keeps (Kept a) (modify f : M PUnit) :=
  .modify fun b hb => hb.trans (hf b)

theorem modifyTask_kept {f : Task → Task} (hx : ∀ x : Task, (f x).parameters = x.parameters)
    (hp : ∀ x : Task, ∀ p ∈ x.predecessors, p ∈ (f x).predecessors) : Java.Keeps (Kept a) (modifyTask t f) :=
  modify_kept fun _ => setTask_kept (hx _) (hp _)

theorem addNewTask_kept (t : TaskId) : Java.Keeps (Kept a) (addNewTask t) :=
  .bind .get fun _ => .bind (modifyTask_kept (fun _ => rfl) fun _ _ h => h) fun _ => modify_kept fun b => { Kept.refl b with }

theorem addNewBarrier_kept : Java.Keeps (Kept a) addNewBarrier :=
  .bind (modify_kept fun b => { Kept.refl b with }) fun _ => .bind .get fun _ => .ite (fun _ => .throw _) fun _ => .pure _

theorem addDataDependency_kept (t producer : TaskId) : Java.Keeps (Kept a) (addDataDependency t producer) :=
  .bind (modifyTask_kept (fun _ => rfl) fun _ _ h => h) fun _ =>
    modifyTask_kept (fun _ => rfl) fun _ _ h => List.mem_append_left _ h

theorem checkDependencyForRead_kept (t : TaskId) (daId : DataAccessId) : Java.Keeps (Kept a) (checkDependencyForRead t daId) := by
  refine .bind .get fun s => ?_
  cases s.writer daId.dataId with
  | none => exact .pure _
  | some w => exact .ite (fun _ => addDataDependency_kept t w) fun _ => .pure _

theorem checkSchedulingEnforcing_kept (t : TaskId) (daId : DataAccessId) :
    Java.Keeps (Kept a) (checkSchedulingEnforcing t daId) := by
  unfold checkSchedulingEnforcing
  cases daId.readVersion with
  | none => exact .pure _
  | some v =>
    refine .ite (fun _ => .bind .get fun s => ?_) fun _ => .pure _
    exact modifyTask_kept (fun _ => rfl) fun _ _ h => h

theorem release_kept (r : Release) : Java.Keeps (Kept a) (release r) := modify_kept fun b => { Kept.refl b with }

theorem countEnd_kept (appId : AppId) : Java.Keeps (Kept a) (countEnd appId) := by
  refine .bind .get fun s => ?_
  cases s.appIdToTaskCount appId with
  | none => exact .throw _
  | some count =>
    refine .bind (modify_kept fun b => { Kept.refl b with }) fun _ => .ite (fun _ => ?_) fun _ => .pure _
    refine .bind (modify_kept fun b => { Kept.refl b with }) fun _ => .bind .get fun s' => ?_
    cases s'.appIdToSemaphore appId with
    | none => exact .pure _
    | some sem => exact .bind (modify_kept fun b => { Kept.refl b with }) fun _ => release_kept _

theorem releaseWaits_kept (t : TaskId) : Java.Keeps (Kept a) (releaseWaits t) := by
  refine .bind .get fun s => ?_
  cases s.waitedTasks t with
  | none => exact .pure _
  | some sems => exact .bind (modify_kept fun b => { Kept.refl b with }) fun _ => .forM _ fun sem _ => release_kept _

theorem barrier_kept (drawGraph : Bool) (appId : AppId) (sem : SemaphoreId) : Java.Keeps (Kept a) (barrier drawGraph appId sem) := by
  refine .bind .get fun s => ?_
  have hrest : Java.Keeps (Kept a) (if (s.appIdToTaskCount appId).getD 0 = 0 then release (.application appId sem)
      else modify fun s =>
        { s with
          appIdBarrierFlags := Function.update s.appIdBarrierFlags appId true,
          appIdToSemaphore := Function.update s.appIdToSemaphore appId (some sem) }) :=
    .ite (fun _ => release_kept _) fun _ => modify_kept fun b => { Kept.refl b with }
  exact .ite (fun _ => .bind addNewBarrier_kept fun _ => hrest) fun _ => hrest

theorem noMoreTasks_kept (appId : AppId) (sem : SemaphoreId) : Java.Keeps (Kept a) (noMoreTasks appId sem) := by
  refine .bind .get fun s => .ite (fun _ => ?_) fun _ => modify_kept fun b => { Kept.refl b with }
  exact .bind (modify_kept fun b => { Kept.refl b with }) fun _ => release_kept _

/-- The dependency on the last writer is noted. -/
theorem checkDependencyForRead_run (t : TaskId) (daId : DataAccessId) (s : TaskAnalyser) :
    ∃ b, checkDependencyForRead t daId s = .ok () b ∧ Kept s b ∧
      ∀ w, s.writer daId.dataId = some w → w ≠ t → w ∈ (b.task t).predecessors := by
  have hkept := checkDependencyForRead_kept (a := s) t daId s (.refl s)
  obtain ⟨b, hb, -⟩ := checkDependencyForRead_leavesData t daId s
  rw [hb] at hkept
  refine ⟨b, hb, hkept, fun w hw hne => ?_⟩
  rw [checkDependencyForRead, Java.bind_ok (Java.get_run s)] at hb
  simp only [hw, if_pos hne, addDataDependency] at hb
  rw [Java.bind_ok (modifyTask_run _), modifyTask_run] at hb
  cases hb
  simp

theorem lookup_filter_ne {d e : Nat} (hne : e ≠ d) : ∀ ws : List (Nat × Option TaskId),
    (ws.filter fun x => x.1 ≠ d).lookup e = ws.lookup e
  | [] => rfl
  | (k, w) :: ws => by
    have ih := lookup_filter_ne hne ws
    rw [List.filter_cons]
    split
    · rw [List.lookup_cons, List.lookup_cons, ih]
    · next hk =>
      have hek : (e == k) = false := beq_false_of_ne fun h => hk (by simpa [← h] using hne)
      rw [List.lookup_cons, hek, ih]

theorem writer_putWriter (s : TaskAnalyser) (d : Nat) (x : Option TaskId) (e : Nat) :
    (s.putWriter d x).writer e = if e = d then x else s.writer e := by
  unfold writer putWriter
  split
  · next he =>
    subst he
    rw [List.lookup_cons_self]
    rfl
  · next he =>
    have hek : (e == d) = false := beq_false_of_ne he
    rw [List.lookup_cons, hek]
    dsimp only
    rw [lookup_filter_ne he]

/-! ## One parameter -/

/-- What a round of the loop over the parameters does: the access `daId` of the
mode is registered for a parameter of `t`. -/
structure Round (t : TaskId) (mode : AccessMode) (daId : DataAccessId) (dip : DataInfoProvider) (s b : TaskAnalyser) : Prop where
  dip : b.dip = dip
  analysed : b.analysed = s.analysed
  parameters : ∀ u, u ≠ t → (b.task u).parameters = (s.task u).parameters
  predecessors : ∀ u, ∀ p ∈ (s.task u).predecessors, p ∈ (b.task u).predecessors
  writer : ∀ d, b.writer d = if writes mode = true ∧ d = daId.dataId then some t else s.writer d
  linked : mode ≠ .W → ∀ w, s.writer daId.dataId = some w → w ≠ t → w ∈ (b.task t).predecessors

theorem Kept.writer (h : Kept a b) (d : Nat) : b.writer d = a.writer d := by
  unfold TaskAnalyser.writer
  rw [h.writers]

section
variable {mode : AccessMode} {daId : DataAccessId} {dip : DataInfoProvider} {x : Task}

/-- A round that reads: the access has been noted, and nothing else but links. -/
theorem Round.read (hx : x.predecessors = (s.task t).predecessors) (h : Kept ({ s with dip := dip }.setTask t x) b)
    (hmode : writes mode = false) (hlinked : ∀ w, s.writer daId.dataId = some w → w ≠ t → w ∈ (b.task t).predecessors) :
    Round t mode daId dip s b where
  dip := h.dip
  analysed := h.analysed
  parameters u hu := by
    rw [h.parameters, setTask_task, if_neg hu]
  predecessors u p hp := by
    refine h.predecessors u p ?_
    rw [setTask_task]
    split
    · next hu => rw [hx, ← hu]; exact hp
    · exact hp
  writer d := by
    rw [h.writer, hmode]
    exact (if_neg fun hc => Bool.false_ne_true hc.1).symm
  linked _ := hlinked

/-- A round that writes: the task becomes the last writer at its end. -/
theorem Round.write (hx : x.predecessors = (s.task t).predecessors) (h : Kept ({ s with dip := dip }.setTask t x) b)
    (hmode : writes mode = true)
    (hlinked : mode ≠ .W → ∀ w, s.writer daId.dataId = some w → w ≠ t → w ∈ (b.task t).predecessors) :
    Round t mode daId dip s (b.putWriter daId.dataId (some t)) where
  dip := h.dip
  analysed := h.analysed
  parameters u hu := (h.parameters u).trans (congrArg Task.parameters (by rw [setTask_task, if_neg hu]))
  predecessors u p hp := by
    refine h.predecessors u p ?_
    rw [setTask_task]
    split
    · next hu => rw [hx, ← hu]; exact hp
    · exact hp
  writer d := by
    rw [writer_putWriter, h.writer]
    simp only [hmode, true_and]
    rfl
  linked := hlinked

theorem processParameter_round {paramIdx : Nat} {p : Parameter} {ref : DataRef}
    (hp : (s.task t).parameters[paramIdx]? = some p) (href : p.ref = some ref)
    (hacc : registerAccess (accessMode p.direction) ref s.dip = .ok daId dip) (constrainingParam : Int) :
    ∃ b, processParameter t constrainingParam paramIdx s = .ok () b ∧ Round t (accessMode p.direction) daId dip s b ∧
      (b.task t).parameters = (setDataAccessId (s.task t) paramIdx daId).parameters := by
  have hdip : onDip (registerAccess (accessMode p.direction) ref) s = .ok daId { s with dip := dip } := by
    simp only [onDip, hacc]
  have hpred : (setDataAccessId (s.task t) paramIdx daId).predecessors = (s.task t).predecessors := rfl
  -- the dependency, and the resource that is enforced by it
  obtain ⟨b₁, hb₁, hkept₁, hlinked₁⟩ :=
    checkDependencyForRead_run t daId ({ s with dip := dip }.setTask t (setDataAccessId (s.task t) paramIdx daId))
  obtain ⟨b₂, hb₂, hkept₂⟩ : ∃ b₂, checkSchedulingEnforcing t daId b₁ = .ok () b₂ ∧ Kept b₁ b₂ := by
    have hkept := checkSchedulingEnforcing_kept (a := b₁) t daId b₁ (.refl b₁)
    obtain ⟨b₂, hb₂, -⟩ := checkSchedulingEnforcing_leavesData t daId b₁
    rw [hb₂] at hkept
    exact ⟨b₂, hb₂, hkept⟩
  have hlinked₂ : ∀ w, s.writer daId.dataId = some w → w ≠ t → w ∈ (b₂.task t).predecessors :=
    fun w hw hne => hkept₂.predecessors t w (hlinked₁ w hw hne)
  have hparams : ∀ b, Kept ({ s with dip := dip }.setTask t (setDataAccessId (s.task t) paramIdx daId)) b →
      (b.task t).parameters = (setDataAccessId (s.task t) paramIdx daId).parameters := fun b hb => by
    rw [hb.parameters, setTask_self]
  have hkept := hkept₁.trans hkept₂
  unfold processParameter
  rw [Java.bind_ok (Java.get_run s)]
  simp only [hp, href]
  rw [Java.bind_ok hdip, Java.bind_ok (modifyTask_run _)]
  cases accessMode p.direction with
  | R =>
    dsimp only
    rw [Java.bind_ok hb₁]
    split
    · exact ⟨b₂, hb₂, .read hpred hkept rfl hlinked₂, hparams b₂ hkept⟩
    · exact ⟨b₁, rfl, .read hpred hkept₁ rfl hlinked₁, hparams b₁ hkept₁⟩
  | W =>
    have hrefl := Kept.refl ({ s with dip := dip }.setTask t (setDataAccessId (s.task t) paramIdx daId))
    have hparams₀ := hparams _ hrefl
    exact ⟨_, rfl, .write hpred hrefl rfl fun hne => (hne rfl).elim, hparams₀⟩
  | RW =>
    dsimp only
    rw [Java.bind_ok hb₁]
    split
    · rw [Java.bind_ok hb₂]
      exact ⟨_, rfl, .write hpred hkept rfl fun _ => hlinked₂, hparams b₂ hkept⟩
    · exact ⟨_, rfl, .write hpred hkept₁ rfl fun _ => hlinked₁, hparams b₁ hkept₁⟩

end

/-! ## The last writers -/

/-- `w` has written a version that `t` reads. -/
def Produces (a : TaskAnalyser) (w t : TaskId) : Prop :=
  w ≠ t ∧ ∃ x ∈ (a.task t).accesses, ∃ y ∈ (a.task w).accesses, ∃ v,
    x.readVersion = some v ∧ y.writtenVersion = some v ∧ y.dataId = x.dataId

/-- The last writers are those of the table, and a task depends on the writers
of what it reads, unless they are `done`. -/
structure Linked (done : TaskId → Prop) (a : TaskAnalyser) : Prop where
  named : Named a.dip
  versions : ∀ t, ∀ x ∈ (a.task t).accesses, ∃ c, currentVersion a.dip x.dataId = some c ∧
    (∀ v, x.readVersion = some v → v ≤ c) ∧ ∀ v, x.writtenVersion = some v → v ≤ c
  last : ∀ d w, a.writer d = some w → AccessProcessor.lastWriter a d = some w
  current : ∀ w, ∀ x ∈ (a.task w).accesses, ∀ v, x.writtenVersion = some v → currentVersion a.dip x.dataId = some v →
    a.writer x.dataId = some w ∨ done w
  analysed : ∀ t, (a.task t).accesses ≠ [] → t ∈ a.analysed
  earlier : ∀ w t, a.Produces w t → w < t
  depends : ∀ w t, a.Produces w t → w ∈ (a.task t).predecessors ∨ done w

theorem accesses_congr {x y : Task} (h : y.parameters = x.parameters) : y.accesses = x.accesses := by
  rw [Task.accesses, h, Task.accesses]

theorem lastWriter_congr (hn : b.analysed = a.analysed) (hx : ∀ u ∈ a.analysed,
      ((b.task u).accesses.any fun id => id.dataId == d && id.writtenVersion.isSome) =
        (a.task u).accesses.any fun id => id.dataId == d && id.writtenVersion.isSome) :
    AccessProcessor.lastWriter b d = AccessProcessor.lastWriter a d := by
  unfold AccessProcessor.lastWriter
  rw [hn, ← List.head?_filter, ← List.head?_filter]
  refine congrArg List.head? (List.filter_congr fun u hu => ?_)
  rw [hx u (List.mem_reverse.mp hu)]

theorem Kept.produces (h : Kept a b) (w t : TaskId) : b.Produces w t ↔ a.Produces w t := by
  unfold Produces
  rw [accesses_congr (h.parameters t), accesses_congr (h.parameters w)]

variable {done done' : TaskId → Prop}

theorem Linked.mono (h : Linked done a) (hdone : ∀ w, done w → done' w) : Linked done' a :=
  { h with
    current := fun w x hx v hv hc => (h.current w x hx v hv hc).imp_right (hdone w)
    depends := fun w t hp => (h.depends w t hp).imp_right (hdone w) }

/-- The data may have been reported, and the links of others been made. -/
theorem Linked.settled (h : Linked done a) (hdip : Settled a.dip b.dip) (hwriters : b.writers = a.writers)
    (hanalysed : b.analysed = a.analysed) (hacc : ∀ u, (b.task u).accesses = (a.task u).accesses)
    (hpred : ∀ u, (a.task u).accesses ≠ [] → ∀ p ∈ (a.task u).predecessors, p ∈ (b.task u).predecessors ∨ done p) :
    Linked done b := by
  have hwriter : ∀ d, b.writer d = a.writer d := fun d => by
    unfold TaskAnalyser.writer
    rw [hwriters]
  have hproduces : ∀ w u, b.Produces w u → a.Produces w u := fun w u hp => by
    unfold Produces at hp ⊢
    rwa [hacc, hacc] at hp
  refine ⟨hdip.named, fun u x hx => ?_, fun d w hw => ?_, fun w x hx v hv hc => ?_, fun u hu => ?_,
    fun w u hp => h.earlier w u (hproduces w u hp), fun w u hp => ?_⟩
  · rw [hdip.current]
    exact h.versions u x (hacc u ▸ hx)
  · rw [lastWriter_congr hanalysed fun u _ => by rw [hacc]]
    exact h.last d w (hwriter d ▸ hw)
  · rw [hwriter]
    rw [hdip.current] at hc
    exact h.current w x (hacc w ▸ hx) v hv hc
  · rw [hanalysed]
    exact h.analysed u (hacc u ▸ hu)
  · obtain ⟨-, x, hx, -⟩ := hproduces w u hp
    exact (h.depends w u (hproduces w u hp)).elim (hpred u (List.ne_nil_of_mem hx) w) .inr

theorem Linked.kept (h : Linked done a) (hab : Kept a b) : Linked done b :=
  h.settled (by rw [hab.dip]; exact .refl h.named) hab.writers hab.analysed (fun u => accesses_congr (hab.parameters u))
    fun u _ p hp => .inl (hab.predecessors u p hp)

/-- A round of the loop, for the task analysed last. -/
theorem Linked.round {dir : DataDirection} {di : DataInfo} {dip : DataInfoProvider} {old : List TaskId} (h : Linked done s)
    (hr : Round t (accessMode dir) (accessId d di (accessMode dir)) dip s b)
    (hacc : Accessed s.dip dip (accessMode dir) d di.currentVersionId)
    (hmem : ∀ x, x ∈ (b.task t).accesses ↔ x = accessId d di (accessMode dir) ∨ x ∈ (s.task t).accesses)
    (hlast : s.analysed = old ++ [t]) (hold : ∀ u ∈ old, u < t) : Linked done b := by
  have hother : ∀ u, u ≠ t → (b.task u).accesses = (s.task u).accesses := fun u hu => accesses_congr (hr.parameters u hu)
  have hcases : ∀ u, ∀ x ∈ (b.task u).accesses, u = t ∧ x = accessId d di (accessMode dir) ∨ x ∈ (s.task u).accesses := by
    intro u x hx
    by_cases hu : u = t
    · subst hu
      exact ((hmem x).mp hx).imp_left fun he => ⟨rfl, he⟩
    · rw [hother u hu] at hx
      exact .inr hx
  -- The version the round found, and the one it leaves.
  have hbefore : ∀ u, ∀ x ∈ (s.task u).accesses, x.dataId = d → currentVersion s.dip x.dataId = some di.currentVersionId := by
    intro u x hx hd
    obtain ⟨c, hc, -⟩ := h.versions u x hx
    rw [hd] at hc ⊢
    rw [hc, hacc.before c hc]
  -- The task has read the current version, and its own new one nobody.
  have hproduces : ∀ w u, b.Produces w u → s.Produces w u ∨
      u = t ∧ w ≠ t ∧ accessMode dir ≠ .W ∧ (s.writer d = some w ∨ done w) ∧ (s.task w).accesses ≠ [] := by
    rintro w u ⟨hne, x, hx, y, hy, v, hread, hwritten, hd⟩
    obtain ⟨rfl, rfl⟩ | hy := hcases w y hy
    · obtain ⟨rfl, -⟩ | hx := hcases u x hx
      · exact (hne rfl).elim
      · rw [accessId_dataId] at hd
        obtain ⟨c, hcur, hle, -⟩ := h.versions u x hx
        have hfound := hbefore u x hx hd.symm
        rw [hcur] at hfound
        cases hfound
        have := hle v hread
        have := (accessId_written.mp hwritten).2
        omega
    · obtain ⟨rfl, rfl⟩ | hx := hcases u x hx
      · obtain ⟨hdir, rfl⟩ := accessId_read.mp hread
        rw [accessId_dataId] at hd
        refine .inr ⟨rfl, hne, fun hmode => hdir ?_, ?_, List.ne_nil_of_mem hy⟩
        · cases dir
          · cases hmode
          · rfl
          · cases hmode
        · rw [← hd]
          exact h.current w y hy _ hwritten (hbefore w y hy hd)
      · exact .inl ⟨hne, x, hx, y, hy, v, hread, hwritten, hd⟩
  refine ⟨hr.dip ▸ hacc.named, fun u x hx => ?_, fun e w hw => ?_, fun w x hx v hv hc => ?_, fun u hu => ?_,
    fun w u hp => ?_, fun w u hp => ?_⟩
  · rw [hr.dip]
    obtain ⟨-, rfl⟩ | hx := hcases u x hx
    · rw [accessId_dataId]
      refine ⟨_, hacc.after, fun v hv => ?_, fun v hv => ?_⟩
      · rw [(accessId_read.mp hv).2]
        split <;> omega
      · obtain ⟨hdir, rfl⟩ := accessId_written.mp hv
        rw [if_pos (writes_accessMode.mpr hdir)]
    · obtain ⟨c, hc, hread, hwritten⟩ := h.versions u x hx
      obtain ⟨c', hc', hle⟩ := hacc.current hc
      exact ⟨c', hc', fun v hv => Nat.le_trans (hread v hv) hle, fun v hv => Nat.le_trans (hwritten v hv) hle⟩
  · rw [hr.writer, accessId_dataId] at hw
    split at hw
    · next hwrite =>
      obtain ⟨hmode, rfl⟩ := hwrite
      cases hw
      have hnew : ((b.task t).accesses.any fun id => id.dataId == e && id.writtenVersion.isSome) = true := by
        refine List.any_eq_true.mpr ⟨_, (hmem _).mpr (.inl rfl), ?_⟩
        rw [accessId_dataId, accessId_written.mpr ⟨writes_accessMode.mp hmode, rfl⟩]
        simp
      rw [AccessProcessor.lastWriter, hr.analysed, hlast, List.reverse_append, List.reverse_singleton, List.singleton_append,
        List.find?_cons]
      simp only [hnew]
    · next hwrite =>
      rw [← h.last e w hw]
      refine lastWriter_congr hr.analysed fun u _ => ?_
      rw [Bool.eq_iff_iff, List.any_eq_true, List.any_eq_true]
      refine exists_congr fun x => and_congr_left fun hx => ?_
      by_cases hu : u = t
      · subst hu
        rw [hmem]
        refine or_iff_right fun he => hwrite ?_
        rw [he, accessId_dataId, Bool.and_eq_true, beq_iff_eq] at hx
        obtain ⟨v, hv⟩ := Option.isSome_iff_exists.mp hx.2
        exact ⟨writes_accessMode.mpr (accessId_written.mp hv).1, hx.1.symm⟩
      · rw [hother u hu]
  · rw [hr.dip] at hc
    rw [hr.writer, accessId_dataId]
    obtain ⟨rfl, rfl⟩ | hx := hcases w x hx
    · rw [if_pos ⟨writes_accessMode.mpr (accessId_written.mp hv).1, accessId_dataId ..⟩]
      exact .inl rfl
    · obtain ⟨c, hcur, -, hwritten⟩ := h.versions w x hx
      have hle := hwritten v hv
      by_cases hd : x.dataId = d
      · -- The version has not been passed.
        have hfound := hbefore w x hx hd
        rw [hcur] at hfound
        cases hfound
        rw [hd, hacc.after] at hc
        have hmode : ¬ writes (accessMode dir) = true := fun hmode => by
          rw [if_pos hmode] at hc
          cases hc
          omega
        rw [if_neg hmode] at hc
        cases hc
        rw [if_neg fun hh => hmode hh.1]
        exact h.current w x hx _ hv hcur
      · have hafter := hacc.other _ c hd hcur
        rw [hc] at hafter
        cases hafter
        rw [if_neg fun hh => hd hh.2]
        exact h.current w x hx _ hv hcur
  · rw [hr.analysed]
    by_cases hut : u = t
    · rw [hlast, hut]
      exact List.mem_append_right _ (List.mem_singleton.mpr rfl)
    · exact h.analysed u (hother u hut ▸ hu)
  · obtain hp | ⟨rfl, hne, -, -, hw⟩ := hproduces w u hp
    · exact h.earlier w u hp
    · have hmem := h.analysed w hw
      rw [hlast] at hmem
      exact hold w ((List.mem_append.mp hmem).resolve_right fun hm => hne (List.mem_singleton.mp hm))
  · obtain hp | ⟨rfl, hne, hmode, hw | hdone, -⟩ := hproduces w u hp
    · exact (h.depends w u hp).imp_left (hr.predecessors u w)
    · exact .inl (hr.linked hmode w (by rw [accessId_dataId]; exact hw) hne)
    · exact .inr hdone

/-- A task that has accessed nothing is counted. -/
theorem Linked.counted (h : Linked done a) (hnew : (a.task t).accesses = []) : Linked done (TaskAnalyser.counted a t) where
  named := h.named
  versions := h.versions
  last d w hw := by
    have hlast := h.last d w hw
    rw [AccessProcessor.lastWriter] at hlast ⊢
    change (a.analysed ++ [t]).reverse.find? (fun u => (a.task u).accesses.any _) = _
    rw [List.reverse_append, List.reverse_singleton, List.singleton_append, List.find?_cons, hnew]
    exact hlast
  current := h.current
  analysed u hu := List.mem_append_left _ (h.analysed u hu)
  earlier := h.earlier
  depends := h.depends

/-- The loop over the parameters that are left. -/
theorem Linked.parameters (constrainingParam : Int) {old : List TaskId} : ∀ (rest pre : List Parameter) (s : TaskAnalyser),
    (s.task t).parameters = pre ++ rest → (∀ q ∈ rest, q.dataAccessId = none) → s.analysed = old ++ [t] →
    (∀ u ∈ old, u < t) → Linked done s →
    ∃ b, (List.range' pre.length rest.length).forM (processParameter t constrainingParam) s = .ok () b ∧ Linked done b ∧
      ∀ u, u ≠ t → (b.task u).parameters = (s.task u).parameters
  | [], pre, s, _, _, _, _, h => ⟨s, rfl, h, fun _ _ => rfl⟩
  | q :: rest, pre, s, hps, hnew, hlast, hold, h => by
    have hq : (s.task t).parameters[pre.length]? = some q := by rw [hps]; simp
    have hrest : ∀ r ∈ rest, r.dataAccessId = none := fun r hr => hnew r (List.mem_cons_of_mem _ hr)
    rw [List.length_cons, List.range'_succ]
    change ∃ b, (processParameter t constrainingParam pre.length >>= fun _ =>
      (List.range' (pre.length + 1) rest.length).forM (processParameter t constrainingParam)) s = .ok () b ∧ _
    cases href : q.ref with
    | none =>
      rw [Java.bind_ok (processParameter_basic hq href constrainingParam)]
      have := Linked.parameters constrainingParam rest (pre ++ [q]) s (by rw [hps]; simp) hrest hlast hold h
      simpa using this
    | some ref =>
      obtain ⟨d, di, dip, hreg, hd, hacc⟩ := h.named.registerAccess (accessMode q.direction) ref
      obtain ⟨b, hb, hround, hparams⟩ := processParameter_round hq href hreg constrainingParam
      rw [Java.bind_ok hb]
      have hps' : (b.task t).parameters =
          (pre ++ [{ q with dataAccessId := some (accessId d di (accessMode q.direction)) }]) ++ rest := by
        rw [hparams, setDataAccessId, hps]
        simp [List.modify_eq_take_drop]
      have hmem : ∀ x, x ∈ (b.task t).accesses ↔ x = accessId d di (accessMode q.direction) ∨ x ∈ (s.task t).accesses := by
        intro x
        rw [Task.accesses, hps', Task.accesses, hps]
        simp only [List.filterMap_append, List.filterMap_cons, hnew q List.mem_cons_self, List.mem_append, List.mem_cons,
          List.filterMap_nil, List.not_mem_nil, or_false, or_assoc]
        exact or_left_comm
      obtain ⟨c, hc, hlinked, hother⟩ := Linked.parameters constrainingParam rest _ b hps' hrest
        (hround.analysed.trans hlast) hold (h.round hround hacc hmem hlast hold)
      rw [List.length_append, List.length_singleton] at hc
      exact ⟨c, hc, hlinked, fun u hu => (hother u hu).trans (hround.parameters u hu)⟩

/-- The analysis of a new task returns, and links it. -/
theorem Linked.processTask (h : Linked done s) (drawGraph : Bool) (hnew : (s.task t).accesses = [])
    (hold : ∀ u ∈ s.analysed, u < t) :
    ∃ b, TaskAnalyser.processTask drawGraph t s = .ok () b ∧ Linked done b ∧
      ∀ u, u ≠ t → (b.task u).parameters = (s.task u).parameters := by
  have hrest : ∀ a, Kept s a → ∃ b, (do
      let x := (← get).task t
      modify fun s =>
        { s with
          appIdToTaskCount :=
            Function.update s.appIdToTaskCount x.appId (some ((s.appIdToTaskCount x.appId).getD 0 + 1)),
          analysed := s.analysed ++ [t] }
      (List.range x.parameters.length).forM (processParameter t (constrainingParam x)) : M Unit) a = .ok () b ∧ Linked done b ∧
      ∀ u, u ≠ t → (b.task u).parameters = (s.task u).parameters := by
    intro a ha
    rw [Java.bind_ok (Java.get_run a), Java.bind_ok (Java.modify_run _ a), List.range_eq_range']
    have hacc : (a.task t).accesses = [] := by rw [accesses_congr (ha.parameters t), hnew]
    obtain ⟨b, hb, hlinked, hother⟩ := Linked.parameters (constrainingParam (a.task t)) (a.task t).parameters []
      (TaskAnalyser.counted a t) rfl (List.filterMap_eq_nil_iff.mp hacc) rfl (ha.analysed ▸ hold) ((h.kept ha).counted hacc)
    exact ⟨b, hb, hlinked, fun u hu => (hother u hu).trans (ha.parameters u)⟩
  unfold TaskAnalyser.processTask
  cases drawGraph with
  | true =>
    have hkept := addNewTask_kept (a := s) t s (.refl s)
    obtain ⟨a, ha, -⟩ := addNewTask_leavesData t s
    rw [ha] at hkept
    rw [if_pos rfl, Java.bind_ok ha]
    exact hrest a hkept
  | false => exact hrest s (.refl s)

end

end TaskAnalyser

end Runtime

end Compss
