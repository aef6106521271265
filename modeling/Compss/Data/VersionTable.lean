/-
The version table of a datum, method by method.

`TableOK R W di` holds whatever the runtime does: `R v` and `W v` bound from
below the readers and writers version `v` still counts, the table and `Comm`
have the same versions, and a marked version stays in the table only while it
is read or written. `Kept R W di` says more: the counters are exactly `R` and
`W`, and no version that is still to be read or written is missing. What
`Kept` needs beyond `TableOK` is one thing only, that nobody announces a read
of a current version the table has lost (`Kept.willBeRead`).
-/
import Compss.Data.DataInfo
import Mathlib.Data.List.Nodup
import Mathlib.Data.Bool.Basic

namespace Compss.DataInfo

open Lib

/-- One more for version `v`. -/
def inc (f : Nat → Nat) (v : Nat) : Nat → Nat := Function.update f v (f v + 1)

theorem inc_apply (f : Nat → Nat) (v w : Nat) : inc f v w = if w = v then f v + 1 else f w := by
  simp [inc, Function.update_apply]

theorem le_inc (f : Nat → Nat) (v w : Nat) : f w ≤ inc f v w := by
  rw [inc_apply]
  split
  · next h => subst h; omega
  · exact Nat.le_refl _

structure TableOK (R W : Nat → Nat) (di : DataInfo) : Prop where
  pos : 1 ≤ di.currentVersionId
  bound : ∀ v ∈ di.versions, 1 ≤ v ∧ v ≤ di.currentVersionId
  nodup : di.versions.Nodup
  registered : ∀ v, di.registered v = true ↔ v ∈ di.versions
  readers : ∀ v ∈ di.versions, (R v : Int) ≤ (di.object v).readers
  writters : ∀ v ∈ di.versions, (W v : Int) ≤ (di.object v).writters
  fresh : ∀ v, di.currentVersionId < v → R v = 0 ∧ W v = 0
  removed : ∀ v, 1 ≤ v → v ≤ di.currentVersionId → v ∉ di.versions → (di.object v).toDelete = true
  marked : ∀ v ∈ di.versions, (di.object v).toDelete = true → (di.object v).isIdle = false
  pending : ∀ v ∈ di.pendingDeletions, 1 ≤ v ∧ v ≤ di.currentVersionId

structure Kept (R W : Nat → Nat) (di : DataInfo) : Prop extends TableOK R W di where
  counts : ∀ v, 1 ≤ v → v ≤ di.currentVersionId →
    (di.object v).readers = R v ∧ (di.object v).writters = W v
  present : ∀ v, 0 < R v + W v → v ∈ di.versions

theorem Kept.new (loc : Option DataLocation) : Kept (fun _ => 0) (fun _ => 0) (DataInfo.new loc) where
  pos := Nat.le_refl 1
  bound := by simp [DataInfo.new]
  nodup := by simp [DataInfo.new]
  registered := by simp [DataInfo.new]
  readers := by simp [DataInfo.new, DataVersion.new]
  writters := by simp [DataInfo.new, DataVersion.new]
  fresh := by simp
  removed := by
    intro v h1 h2 h3
    simp only [DataInfo.new, List.mem_singleton] at h2 h3
    omega
  marked := by simp [DataInfo.new, DataVersion.new]
  pending := by simp [DataInfo.new]
  counts := by simp [DataInfo.new, DataVersion.new]
  present := by simp

/-! ## Announced accesses -/

theorem willBeRead_run (di : DataInfo) :
    willBeRead di = .ok () (di.setObject di.currentVersionId di.currentVersion.willBeRead) := rfl

theorem isIdle_willBeRead {o : DataVersion} (h : 0 ≤ o.readers) : o.willBeRead.isIdle = false := by
  simp only [DataVersion.isIdle, DataVersion.willBeRead, Bool.and_eq_false_imp, beq_iff_eq]
  omega

theorem TableOK.willBeRead {R W di} (h : TableOK R W di) :
    TableOK (inc R di.currentVersionId) W (Java.final (DataInfo.willBeRead di)) := by
  rw [willBeRead_run, Java.final_ok]
  refine { h with readers := ?_, writters := ?_, fresh := ?_, removed := ?_, marked := ?_ }
  · intro v hv
    have := h.readers v hv
    rw [setObject_object, inc_apply]
    split
    · subst v; simp only [DataInfo.currentVersion, DataVersion.willBeRead]; omega
    · exact this
  · intro v hv
    have := h.writters v hv
    rw [setObject_object]
    split
    · subst v; exact this
    · exact this
  · intro v hv
    have hne : v ≠ di.currentVersionId := by simp only [setObject_currentVersionId] at hv; omega
    rw [inc_apply, if_neg hne]
    exact h.fresh v hv
  · intro v h1 h2 h3
    have := h.removed v h1 h2 h3
    rw [setObject_object]
    split
    · subst v; exact this
    · exact this
  · intro v hv hd
    rw [setObject_object] at hd ⊢
    split
    · subst v
      have := h.readers _ hv
      exact isIdle_willBeRead (by simp only [DataInfo.currentVersion]; omega)
    · next hne => rw [if_neg hne] at hd; exact h.marked v hv hd

theorem Kept.willBeRead {R W di} (h : Kept R W di) (hcur : di.currentVersionId ∈ di.versions) :
    Kept (inc R di.currentVersionId) W (Java.final (DataInfo.willBeRead di)) := by
  refine { h.toTableOK.willBeRead with counts := ?_, present := ?_ }
  · rw [willBeRead_run, Java.final_ok]
    intro v h1 h2
    have hc := h.counts v h1 h2
    rw [setObject_object, inc_apply]
    split
    · subst v
      simp only [DataInfo.currentVersion, DataVersion.willBeRead]
      omega
    · exact hc
  · rw [willBeRead_run, Java.final_ok]
    intro v hv
    rw [inc_apply] at hv
    split at hv
    · subst v; exact hcur
    · exact h.present v hv

/-- The state after `willBeWritten`. -/
def written (di : DataInfo) : DataInfo :=
  { (di.setObject (di.currentVersionId + 1) DataVersion.new.willBeWritten).setRegistered
      (di.currentVersionId + 1) true with
    currentVersionId := di.currentVersionId + 1, versions := di.versions ++ [di.currentVersionId + 1] }

theorem willBeWritten_run (di : DataInfo) : willBeWritten di = .ok () (written di) := rfl

theorem written_object (di : DataInfo) (v : Nat) : (written di).object v =
    if v = di.currentVersionId + 1 then DataVersion.new.willBeWritten else di.object v :=
  setObject_object ..

theorem TableOK.willBeWritten {R W di} (h : TableOK R W di) :
    TableOK R (inc W (di.currentVersionId + 1)) (Java.final (DataInfo.willBeWritten di)) := by
  rw [willBeWritten_run, Java.final_ok]
  have hmem : ∀ v, v ∈ (written di).versions ↔ v ∈ di.versions ∨ v = di.currentVersionId + 1 := by
    simp [written]
  have hnew : di.currentVersionId + 1 ∉ di.versions := fun hv => by
    have := h.bound _ hv; omega
  have hold : ∀ v ∈ di.versions, v ≠ di.currentVersionId + 1 := fun v hv he => hnew (he ▸ hv)
  have hf := h.fresh (di.currentVersionId + 1) (by omega)
  refine ⟨?_, ?_, ?_, ?_, ?_, ?_, ?_, ?_, ?_, ?_⟩
  · simp only [written]; omega
  · intro v hv
    simp only [written]
    rcases (hmem v).mp hv with hv | rfl
    · have := h.bound v hv; omega
    · omega
  · simp only [written, List.nodup_append, h.nodup, true_and, List.nodup_cons, List.not_mem_nil,
      not_false_eq_true, List.nodup_nil, and_true, List.mem_singleton]
    intro v hv w hw
    subst w
    exact hold v hv
  · intro v
    rw [hmem]
    simp only [written, setRegistered_registered]
    split
    · next hv => simp [hv]
    · next hv => simp [hv, h.registered]
  · intro v hv
    rw [written_object]
    rcases (hmem v).mp hv with hv | rfl
    · rw [if_neg (hold v hv)]; exact h.readers v hv
    · rw [if_pos rfl]; simp [DataVersion.new, DataVersion.willBeWritten, hf.1]
  · intro v hv
    rw [written_object, inc_apply]
    rcases (hmem v).mp hv with hv | rfl
    · rw [if_neg (hold v hv), if_neg (hold v hv)]; exact h.writters v hv
    · simp [DataVersion.new, DataVersion.willBeWritten, hf.2]
  · intro v hv
    have hv' : di.currentVersionId + 1 < v := hv
    rw [inc_apply, if_neg (by omega)]
    exact h.fresh v (by omega)
  · intro v h1 h2 h3
    simp only [hmem, not_or] at h3
    rw [written_object, if_neg h3.2]
    have h2' : v ≤ di.currentVersionId + 1 := h2
    exact h.removed v h1 (by omega) h3.1
  · intro v hv hd
    rw [written_object] at hd ⊢
    rcases (hmem v).mp hv with hv | rfl
    · rw [if_neg (hold v hv)] at hd ⊢; exact h.marked v hv hd
    · simp [DataVersion.new, DataVersion.willBeWritten] at hd
  · intro v hv
    have := h.pending v hv
    simp only [written]
    omega

theorem Kept.willBeWritten {R W di} (h : Kept R W di) :
    Kept R (inc W (di.currentVersionId + 1)) (Java.final (DataInfo.willBeWritten di)) := by
  refine { h.toTableOK.willBeWritten with counts := ?_, present := ?_ }
  · rw [willBeWritten_run, Java.final_ok]
    intro v h1 h2
    have hf := h.fresh (di.currentVersionId + 1) (by omega)
    have h2' : v ≤ di.currentVersionId + 1 := h2
    rw [written_object, inc_apply]
    split
    · next he => simp [he, DataVersion.new, DataVersion.willBeWritten, hf]
    · exact h.counts v h1 (by omega)
  · rw [willBeWritten_run, Java.final_ok]
    intro v hv
    rw [inc_apply] at hv
    simp only [written, List.mem_append, List.mem_singleton]
    split at hv
    · exact .inr ‹_›
    · exact .inl (h.present v hv)

/-! ## Reported accesses -/

/-- What the two reports of a version have in common: they leave its mark, and
ask for its removal when it is marked and idle. -/
structure IsReport (report : DataVersion → DataVersion × Bool) : Prop where
  toDelete : ∀ o, (report o).1.toDelete = o.toDelete
  flag : ∀ o, (report o).2 = (report o).1.checkDeletion

theorem isReport_hasBeenRead : IsReport DataVersion.hasBeenRead := ⟨fun _ => rfl, fun _ => rfl⟩

theorem isReport_hasBeenWritten : IsReport DataVersion.hasBeenWritten := ⟨fun _ => rfl, fun _ => rfl⟩

theorem checkDeletion_eq (o : DataVersion) : o.checkDeletion = (o.toDelete && o.isIdle) := by
  simp only [DataVersion.checkDeletion, DataVersion.isIdle, Bool.and_assoc]
  rw [Bool.and_comm (o.writters == 0)]

/-- The version leaves the table and `Comm`. -/
def dropVersion (di : DataInfo) (v : Nat) : DataInfo := (di.setRegistered v false).removeVersion v

section
variable (report : DataVersion → DataVersion × Bool) (v : Nat) (di : DataInfo)

/-- The state `versionAccessed` leaves behind. -/
def accessed : DataInfo :=
  if v ∈ di.versions then
    if (report (di.object v)).2 then (di.setObject v (report (di.object v)).1).dropVersion v
    else di.setObject v (report (di.object v)).1
  else di

end

theorem removeData_ok {di : DataInfo} {v : Nat} (h : di.registered v = true) :
    removeData v di = .ok () (di.setRegistered v false) := by
  simp [removeData, Java.bind_run, h]

theorem removeData_error {di : DataInfo} {v : Nat} (h : di.registered v = false) :
    removeData v di = .error .nullPointer di := by
  simp [removeData, Java.bind_run, h]

/-- A report on a version of the table returns. -/
theorem versionAccessed_ok (report : DataVersion → DataVersion × Bool) {v : Nat} {di : DataInfo}
    (hv : v ∈ di.versions) (hr : di.registered v = true) :
    ∃ b, versionAccessed report v di = .ok b (accessed report v di) := by
  by_cases hf : (report (di.object v)).2 = true
  · refine ⟨((di.setObject v (report (di.object v)).1).dropVersion v).versions.isEmpty, ?_⟩
    simp [versionAccessed, accessed, Java.bind_run, hv, hf, removeData_ok, hr, dropVersion]
  · exact ⟨false, by simp [versionAccessed, accessed, Java.bind_run, hv, hf]⟩

theorem versionAccessed_error {report : DataVersion → DataVersion × Bool} {v : Nat} {di : DataInfo}
    (hv : v ∉ di.versions) : versionAccessed report v di = .error .nullPointer di := by
  simp [versionAccessed, Java.bind_run, hv]

theorem TableOK.versionAccessed_final {R W di} (h : TableOK R W di)
    (report : DataVersion → DataVersion × Bool) (v : Nat) :
    Java.final (versionAccessed report v di) = accessed report v di := by
  by_cases hv : v ∈ di.versions
  · obtain ⟨b, hb⟩ := versionAccessed_ok report hv ((h.registered v).mpr hv)
    rw [hb, Java.final_ok]
  · rw [versionAccessed_error hv, Java.final_error, accessed, if_neg hv]

/-- A report that raises changes nothing. -/
theorem TableOK.versionAccessed_raises {R W di} (h : TableOK R W di)
    {report : DataVersion → DataVersion × Bool} {v : Nat} {e : Raised} {di' : DataInfo}
    (hrun : versionAccessed report v di = .error e di') : di' = di := by
  by_cases hv : v ∈ di.versions
  · obtain ⟨b, hb⟩ := versionAccessed_ok report hv ((h.registered v).mpr hv)
    rw [hb] at hrun
    cases hrun
  · rw [versionAccessed_error hv] at hrun
    cases hrun
    rfl

theorem accessed_object (report : DataVersion → DataVersion × Bool) {v : Nat} {di : DataInfo}
    (hv : v ∈ di.versions) (w : Nat) :
    (accessed report v di).object w = if w = v then (report (di.object v)).1 else di.object w := by
  rw [accessed, if_pos hv]
  split <;> exact setObject_object ..

/-- A report takes version `v` away exactly when it leaves it marked and idle. -/
theorem mem_accessed_versions (report : DataVersion → DataVersion × Bool) {v : Nat} {di : DataInfo}
    (hn : di.versions.Nodup) (hv : v ∈ di.versions) (w : Nat) :
    w ∈ (accessed report v di).versions ↔
      w ∈ di.versions ∧ ¬ (w = v ∧ (report (di.object v)).2 = true) := by
  rw [accessed, if_pos hv]
  split
  · next hf =>
    rw [dropVersion, removeVersion_versions, setRegistered_versions, setObject_versions,
      hn.mem_erase_iff]
    simp [hf, and_comm]
  · next hf => simp [hf]

theorem accessed_registered {report : DataVersion → DataVersion × Bool} {v : Nat} {di : DataInfo}
    (hv : v ∈ di.versions) (w : Nat) :
    (accessed report v di).registered w =
      if w = v ∧ (report (di.object v)).2 = true then false else di.registered w := by
  rw [accessed, if_pos hv]
  split
  · next hf => simp [dropVersion, hf, setRegistered_registered]
  · next hf => simp [hf]

@[simp] theorem accessed_currentVersionId (report : DataVersion → DataVersion × Bool) (v : Nat)
    (di : DataInfo) : (accessed report v di).currentVersionId = di.currentVersionId := by
  rw [accessed]
  split <;> [split; skip] <;> rfl

@[simp] theorem accessed_pendingDeletions (report : DataVersion → DataVersion × Bool) (v : Nat)
    (di : DataInfo) : (accessed report v di).pendingDeletions = di.pendingDeletions := by
  rw [accessed]
  split <;> [split; skip] <;> rfl

@[simp] theorem accessed_deletionBlocks (report : DataVersion → DataVersion × Bool) (v : Nat)
    (di : DataInfo) : (accessed report v di).deletionBlocks = di.deletionBlocks := by
  rw [accessed]
  split <;> [split; skip] <;> rfl

/-- A bound by larger counts is a bound by smaller ones. -/
theorem TableOK.mono {R W R' W' di} (h : TableOK R W di) (hR : ∀ v, R' v ≤ R v) (hW : ∀ v, W' v ≤ W v) :
    TableOK R' W' di := by
  refine { h with readers := ?_, writters := ?_, fresh := ?_ }
  · intro v hv
    have := h.readers v hv
    have := hR v
    omega
  · intro v hv
    have := h.writters v hv
    have := hW v
    omega
  · intro v hv
    have := h.fresh v hv
    have := hR v
    have := hW v
    omega

theorem TableOK.report {R W R' W' di} (h : TableOK R W di) {report : DataVersion → DataVersion × Bool}
    (hrep : IsReport report) {v : Nat} (hR : ∀ w, R' w ≤ R w) (hW : ∀ w, W' w ≤ W w)
    (hread : (R' v : Int) ≤ (report (di.object v)).1.readers ∨ v ∉ di.versions)
    (hwrit : (W' v : Int) ≤ (report (di.object v)).1.writters ∨ v ∉ di.versions) :
    TableOK R' W' (accessed report v di) := by
  by_cases hv : v ∈ di.versions
  swap
  · rw [accessed, if_neg hv]; exact h.mono hR hW
  have hm := h.mono hR hW
  have hmem := mem_accessed_versions report h.nodup hv
  have hobj := accessed_object report hv
  have hsub : ∀ w ∈ (accessed report v di).versions, w ∈ di.versions := fun w hw => ((hmem w).mp hw).1
  refine ⟨?_, ?_, ?_, ?_, ?_, ?_, ?_, ?_, ?_, ?_⟩
  · simpa using h.pos
  · intro w hw
    simpa using h.bound w (hsub w hw)
  · rw [accessed, if_pos hv]
    split
    · exact h.nodup.erase v
    · exact h.nodup
  · intro w
    rw [accessed_registered hv, hmem, ← h.registered w]
    split
    · next hc => simp [hc]
    · next hc => simp [hc]
  · intro w hw
    rw [hobj]
    split
    · next he => subst he; exact hread.resolve_right (fun hn => hn hv)
    · exact hm.readers w (hsub w hw)
  · intro w hw
    rw [hobj]
    split
    · next he => subst he; exact hwrit.resolve_right (fun hn => hn hv)
    · exact hm.writters w (hsub w hw)
  · simpa using hm.fresh
  · intro w h1 h2 h3
    rw [accessed_currentVersionId] at h2
    rw [hobj]
    split
    · next he =>
      subst he
      have hf : (report (di.object w)).2 = true := by
        by_contra hf
        exact h3 ((hmem w).mpr ⟨hv, fun hc => hf hc.2⟩)
      rw [hrep.flag, checkDeletion_eq, Bool.and_eq_true] at hf
      exact hf.1
    · next he =>
      exact h.removed w h1 h2 fun hw => h3 ((hmem w).mpr ⟨hw, fun hc => he hc.1⟩)
  · intro w hw hd
    obtain ⟨hw', hkeep⟩ := (hmem w).mp hw
    rw [hobj] at hd ⊢
    split
    · next he =>
      subst he
      rw [if_pos rfl] at hd
      have hf : (report (di.object w)).2 ≠ true := fun hf => hkeep ⟨rfl, hf⟩
      rw [hrep.flag, checkDeletion_eq, hd, Bool.true_and] at hf
      simpa using hf
    · next he =>
      rw [if_neg he] at hd
      exact h.marked w hw' hd
  · intro w hw
    rw [accessed_pendingDeletions] at hw
    simpa using h.pending w hw

theorem TableOK.versionHasBeenRead {R W di} {v : Nat} (h : TableOK (inc R v) W di) :
    TableOK R W (Java.final (DataInfo.versionHasBeenRead v di)) := by
  rw [DataInfo.versionHasBeenRead, h.versionAccessed_final]
  refine h.report isReport_hasBeenRead (le_inc R v) (fun _ => Nat.le_refl _) ?_ ?_
  · by_cases hv : v ∈ di.versions
    · have := h.readers v hv
      rw [inc_apply, if_pos rfl] at this
      left
      simp only [DataVersion.hasBeenRead]
      omega
    · exact .inr hv
  · by_cases hv : v ∈ di.versions
    · exact .inl (h.writters v hv)
    · exact .inr hv

theorem TableOK.versionHasBeenWritten {R W di} {v : Nat} (h : TableOK R (inc W v) di) :
    TableOK R W (Java.final (DataInfo.versionHasBeenWritten v di)) := by
  rw [DataInfo.versionHasBeenWritten, h.versionAccessed_final]
  refine h.report isReport_hasBeenWritten (fun _ => Nat.le_refl _) (le_inc W v) ?_ ?_
  · by_cases hv : v ∈ di.versions
    · exact .inl (h.readers v hv)
    · exact .inr hv
  · by_cases hv : v ∈ di.versions
    · have := h.writters v hv
      rw [inc_apply, if_pos rfl] at this
      left
      simp only [DataVersion.hasBeenWritten]
      omega
    · exact .inr hv

/-- An exact count stays exact when the report is of a version still counted. -/
theorem Kept.report {R W R' W' di} (h : Kept R W di) {report : DataVersion → DataVersion × Bool}
    (hrep : IsReport report) {v : Nat} (hv : v ∈ di.versions)
    (hR : ∀ w, R' w ≤ R w) (hW : ∀ w, W' w ≤ W w) (hne : ∀ w, w ≠ v → R' w = R w ∧ W' w = W w)
    (hread : (report (di.object v)).1.readers = R' v) (hwrit : (report (di.object v)).1.writters = W' v) :
    Kept R' W' (accessed report v di) := by
  have ht := h.toTableOK.report hrep (v := v) hR hW (.inl (Int.le_of_eq hread.symm))
    (.inl (Int.le_of_eq hwrit.symm))
  have hmem := mem_accessed_versions report h.nodup hv
  refine { ht with counts := ?_, present := ?_ }
  · intro w h1 h2
    rw [accessed_object report hv]
    split
    · next he => subst he; exact ⟨hread, hwrit⟩
    · next he =>
      rw [(hne w he).1, (hne w he).2]
      exact h.counts w h1 (by simpa using h2)
  · intro w hw
    have := hR w
    have := hW w
    refine (hmem w).mpr ⟨h.present w (by omega), ?_⟩
    rintro ⟨rfl, hf⟩
    rw [hrep.flag, checkDeletion_eq, DataVersion.isIdle, hread, hwrit] at hf
    simp only [Bool.and_eq_true, beq_iff_eq] at hf
    omega

theorem inc_ne (f : Nat → Nat) {v w : Nat} (h : w ≠ v) : inc f v w = f w := by rw [inc_apply, if_neg h]

theorem inc_self (f : Nat → Nat) (v : Nat) : inc f v v = f v + 1 := by rw [inc_apply, if_pos rfl]

theorem Kept.versionHasBeenRead {R W di} {v : Nat} (h : Kept (inc R v) W di) :
    Kept R W (Java.final (DataInfo.versionHasBeenRead v di)) := by
  rw [DataInfo.versionHasBeenRead, h.versionAccessed_final]
  have hv : v ∈ di.versions := h.present v (by rw [inc_self]; omega)
  obtain ⟨hr, hw⟩ := h.counts v (h.bound v hv).1 (h.bound v hv).2
  rw [inc_self] at hr
  refine h.report isReport_hasBeenRead hv (le_inc R v) (fun _ => Nat.le_refl _) ?_ ?_ hw
  · exact fun w hne => ⟨(inc_ne R hne).symm, rfl⟩
  · simp only [DataVersion.hasBeenRead]; omega

theorem Kept.versionHasBeenWritten {R W di} {v : Nat} (h : Kept R (inc W v) di) :
    Kept R W (Java.final (DataInfo.versionHasBeenWritten v di)) := by
  rw [DataInfo.versionHasBeenWritten, h.versionAccessed_final]
  have hv : v ∈ di.versions := h.present v (by rw [inc_self]; omega)
  obtain ⟨hr, hw⟩ := h.counts v (h.bound v hv).1 (h.bound v hv).2
  rw [inc_self] at hw
  refine h.report isReport_hasBeenWritten hv (fun _ => Nat.le_refl _) (le_inc W v) ?_ hr ?_
  · exact fun w hne => ⟨rfl, (inc_ne W hne).symm⟩
  · simp only [DataVersion.hasBeenWritten]; omega

/-! ## Deletions -/

/-- The state `flushVersion` leaves behind: a version that is idle and gone
raises once it is marked. -/
def flushed (v : Nat) (di : DataInfo) : DataInfo :=
  let marked := di.setObject v (di.object v).delete.1
  if (di.object v).isIdle ∧ di.registered v then marked.dropVersion v else marked

theorem flushVersion_ok {v : Nat} {di : DataInfo} (h : (di.object v).isIdle → di.registered v) :
    flushVersion v di = .ok () (flushed v di) := by
  by_cases hi : (di.object v).isIdle = true
  · simp [flushVersion, flushed, Java.bind_run, DataVersion.delete, hi, h hi, removeData_ok, dropVersion]
  · simp [flushVersion, flushed, Java.bind_run, DataVersion.delete, hi]

theorem flushVersion_error {v : Nat} {di : DataInfo} (hi : (di.object v).isIdle = true)
    (hr : di.registered v = false) : flushVersion v di = .error .nullPointer (flushed v di) := by
  simp [flushVersion, flushed, Java.bind_run, DataVersion.delete, hi, hr, removeData_error]

theorem flushVersion_final (v : Nat) (di : DataInfo) :
    Java.final (flushVersion v di) = flushed v di := by
  by_cases hi : (di.object v).isIdle = true
  · cases hr : di.registered v
    · rw [flushVersion_error hi hr, Java.final_error]
    · rw [flushVersion_ok (fun _ => hr), Java.final_ok]
  · rw [flushVersion_ok (fun h => absurd h hi), Java.final_ok]

/-- `di'` is `di` after the versions of `l` were deleted: all are marked, and
those that are idle are gone. -/
structure Marks (l : List Nat) (di di' : DataInfo) : Prop where
  object : ∀ w, di'.object w = if w ∈ l then (di.object w).delete.1 else di.object w
  versions : di'.versions = di.versions.filter fun w => ! (decide (w ∈ l) && (di.object w).isIdle)
  registered : ∀ w, di'.registered w = (di.registered w && ! (decide (w ∈ l) && (di.object w).isIdle))
  currentVersionId : di'.currentVersionId = di.currentVersionId
  pendingDeletions : di'.pendingDeletions = di.pendingDeletions
  deletionBlocks : di'.deletionBlocks = di.deletionBlocks
  origLocation : di'.origLocation = di.origLocation

@[simp] theorem isIdle_delete (o : DataVersion) : o.delete.1.isIdle = o.isIdle := rfl

theorem Marks.refl (di : DataInfo) : Marks [] di di := by constructor <;> simp

theorem Marks.isIdle {l : List Nat} {di di' : DataInfo} (h : Marks l di di') (w : Nat) :
    (di'.object w).isIdle = (di.object w).isIdle := by
  rw [h.object]; split <;> rfl

theorem Marks.trans {l m : List Nat} {di di' di'' : DataInfo} (h : Marks l di di') (h' : Marks m di' di'') :
    Marks (l ++ m) di di'' where
  object w := by
    rw [h'.object, h.object]
    by_cases hl : w ∈ l <;> by_cases hm : w ∈ m <;> simp [hl, hm, DataVersion.delete]
  versions := by
    rw [h'.versions, h.versions, List.filter_filter]
    refine List.filter_congr fun w _ => ?_
    rw [h.isIdle]
    by_cases hl : w ∈ l <;> by_cases hm : w ∈ m <;> simp [hl, hm]
  registered w := by
    rw [h'.registered, h.registered, h.isIdle]
    by_cases hl : w ∈ l <;> by_cases hm : w ∈ m <;> simp [hl, hm]
  currentVersionId := h'.currentVersionId.trans h.currentVersionId
  pendingDeletions := h'.pendingDeletions.trans h.pendingDeletions
  deletionBlocks := h'.deletionBlocks.trans h.deletionBlocks
  origLocation := h'.origLocation.trans h.origLocation

theorem Marks.mem_versions {l : List Nat} {di di' : DataInfo} (h : Marks l di di') (w : Nat) :
    w ∈ di'.versions ↔ w ∈ di.versions ∧ ¬ (w ∈ l ∧ (di.object w).isIdle = true) := by
  rw [h.versions, List.mem_filter]
  simp [imp_iff_not_or]

/-- Deletions keep the table. -/
theorem TableOK.marks {R W di di'} (h : TableOK R W di) {l : List Nat} (hm : Marks l di di') :
    TableOK R W di' where
  pos := hm.currentVersionId ▸ h.pos
  bound v hv := hm.currentVersionId ▸ h.bound v ((hm.mem_versions v).mp hv).1
  nodup := hm.versions ▸ h.nodup.filter _
  registered v := by
    rw [hm.registered, hm.mem_versions, ← h.registered]
    simp [imp_iff_not_or]
  readers v hv := by
    rw [hm.object]
    have := h.readers v ((hm.mem_versions v).mp hv).1
    split <;> exact this
  writters v hv := by
    rw [hm.object]
    have := h.writters v ((hm.mem_versions v).mp hv).1
    split <;> exact this
  fresh := hm.currentVersionId ▸ h.fresh
  removed v h1 h2 h3 := by
    rw [hm.currentVersionId] at h2
    rw [hm.object]
    split
    · rfl
    · next hn =>
      exact h.removed v h1 h2 fun hv => h3 ((hm.mem_versions v).mpr ⟨hv, fun hc => hn hc.1⟩)
  marked v hv hd := by
    obtain ⟨hv', hkeep⟩ := (hm.mem_versions v).mp hv
    rw [hm.isIdle]
    by_cases hn : v ∈ l
    · exact Bool.eq_false_iff.mpr fun hi => hkeep ⟨hn, hi⟩
    · rw [hm.object, if_neg hn] at hd
      exact h.marked v hv' hd
  pending v hv := by
    rw [hm.pendingDeletions] at hv
    exact hm.currentVersionId ▸ h.pending v hv

theorem Kept.marks {R W di di'} (h : Kept R W di) {l : List Nat} (hm : Marks l di di') :
    Kept R W di' where
  toTableOK := h.toTableOK.marks hm
  counts v h1 h2 := by
    rw [hm.object]
    rw [hm.currentVersionId] at h2
    have := h.counts v h1 h2
    split <;> exact this
  present v hv := by
    have hp := h.present v hv
    refine (hm.mem_versions v).mpr ⟨hp, ?_⟩
    rintro ⟨-, hi⟩
    have := h.counts v (h.bound v hp).1 (h.bound v hp).2
    simp only [DataVersion.isIdle, Bool.and_eq_true, beq_iff_eq] at hi
    omega

theorem TableOK.flushed_marks {R W di} (h : TableOK R W di) (v : Nat) : Marks [v] di (flushed v di) := by
  have hreg := h.registered v
  have herase : di.versions.erase v = di.versions.filter (· != v) := h.nodup.erase_eq_filter v
  constructor
  · intro w
    rw [flushed]
    split <;> simp only [dropVersion, removeVersion_object, setRegistered_object, List.mem_singleton,
      setObject_object] <;> (split <;> simp_all)
  · rw [flushed]
    split
    · next hc =>
      simp only [dropVersion, removeVersion_versions, setRegistered_versions, setObject_versions, herase]
      refine List.filter_congr fun w _ => ?_
      by_cases he : w = v
      · subst he; simp [hc.1]
      · simp [he]
    · next hc =>
      rw [setObject_versions, eq_comm, List.filter_eq_self]
      intro w hw
      by_cases he : w = v
      · subst he
        have hi : (di.object w).isIdle = false :=
          Bool.eq_false_iff.mpr fun hi => hc ⟨hi, hreg.mpr hw⟩
        simp [hi]
      · simp [he]
  · intro w
    rw [flushed]
    by_cases he : w = v
    · subst he
      cases hi : (di.object w).isIdle <;> cases hr : di.registered w <;>
        simp [hr, dropVersion, setRegistered_registered]
    · split <;> simp [dropVersion, setRegistered_registered, he]
  all_goals rw [flushed]; split <;> rfl

/-- Walking the pending versions deletes them one by one, up to the first that
is idle and already gone, which raises. -/
theorem TableOK.flush {R W di} (h : TableOK R W di) :
    ∀ l : List Nat, ∃ m, m <+: l ∧ Marks m di (Java.final (l.forM flushVersion di))
  | [] => ⟨[], List.prefix_refl _, Marks.refl di⟩
  | v :: l => by
    have hm := h.flushed_marks v
    have h' := h.marks hm
    change ∃ m, m <+: v :: l ∧
      Marks m di (Java.final ((flushVersion v >>= fun _ => l.forM flushVersion) di))
    rw [Java.bind_run]
    have hf := flushVersion_final v di
    cases hv : flushVersion v di with
    | ok u di' =>
      rw [hv, Java.final_ok] at hf
      subst hf
      obtain ⟨m, hp, hms⟩ := h'.flush l
      exact ⟨v :: m, (List.prefix_cons_inj v).mpr hp, hm.trans hms⟩
    | error e di' =>
      rw [hv, Java.final_error] at hf
      subst hf
      exact ⟨[v], by simp, hm⟩

/-- Deleting every version of the table. -/
theorem deleteVersions_run : ∀ {l : List Nat} (di : DataInfo), l.Nodup → (∀ v ∈ l, di.registered v = true) →
    ∃ di', deleteVersions l di = .ok (l.filter fun v => (di.object v).isIdle) di' ∧
      (∀ w, di'.object w = if w ∈ l then (di.object w).delete.1 else di.object w) ∧
      (∀ w, di'.registered w = (di.registered w && ! (decide (w ∈ l) && (di.object w).isIdle))) ∧
      di'.versions = di.versions ∧ di'.currentVersionId = di.currentVersionId ∧
      di'.pendingDeletions = di.pendingDeletions ∧ di'.deletionBlocks = di.deletionBlocks ∧
      di'.origLocation = di.origLocation
  | [], di, _, _ => ⟨di, by simp [deleteVersions]⟩
  | v :: l, di, hn, hr => by
    obtain ⟨hvl, hn⟩ := List.nodup_cons.mp hn
    have hne : ∀ w ∈ l, w ≠ v := fun w hw he => hvl (he ▸ hw)
    cases hi : (di.object v).isIdle
    · obtain ⟨di', hrun, ho, hreg, hrest⟩ :=
        deleteVersions_run (di.setObject v (di.object v).delete.1) hn fun w hw => hr w (by simp [hw])
      refine ⟨di', ?_, ?_, ?_, hrest⟩
      · simp only [deleteVersions, Java.bind_run, Java.get_run, Java.modify_run, DataVersion.delete, hi]
        refine hrun.trans ?_
        rw [List.filter_cons_of_neg (by simp [hi])]
        congr 1
        exact List.filter_congr fun w hw => by rw [setObject_object, if_neg (hne w hw)]
      · intro w
        rw [ho, setObject_object]
        by_cases he : w = v
        · subst he; simp [hvl]
        · simp [he]
      · intro w
        rw [hreg, setObject_object]
        by_cases he : w = v
        · subst he; simp [hvl, hi]
        · simp [he]
    · obtain ⟨di', hrun, ho, hreg, hrest⟩ :=
        deleteVersions_run ((di.setObject v (di.object v).delete.1).setRegistered v false) hn
          fun w hw => by
            rw [setRegistered_registered, if_neg (hne w hw)]; exact hr w (by simp [hw])
      refine ⟨di', ?_, ?_, ?_, hrest⟩
      · have hrem : removeData v (di.setObject v (di.object v).delete.1) = .ok () _ :=
          removeData_ok (hr v (by simp))
        simp only [deleteVersions, Java.bind_run, Java.get_run, Java.modify_run]
        simp only [DataVersion.delete, hi, if_true, Java.bind_run] at hrem hrun ⊢
        rw [hrem]
        simp only [hrun, Java.pure_run]
        rw [List.filter_cons_of_pos (by simp [hi])]
        congr 2
        exact List.filter_congr fun w hw => by
          rw [setRegistered_object, setObject_object, if_neg (hne w hw)]
      · intro w
        rw [ho, setRegistered_object, setObject_object]
        by_cases he : w = v
        · subst he; simp [hvl]
        · simp [he]
      · intro w
        rw [hreg, setRegistered_registered, setRegistered_object, setObject_object]
        by_cases he : w = v
        · subst he; simp [hvl, hi]
        · simp [he]

theorem foldl_removeVersion (di : DataInfo) :
    ∀ l : List Nat, l.foldl removeVersion di = { di with versions := di.versions.diff l }
  | [] => by simp
  | v :: l => by rw [List.foldl_cons, foldl_removeVersion, List.diff_cons]; rfl

/-- `delete` returns, and deletes the table when no retrieval blocks it. -/
theorem TableOK.delete_run {R W di} (h : TableOK R W di) : ∃ b di', DataInfo.delete di = .ok b di' ∧
    if di.deletionBlocks > 0 then
      di' = { di with pendingDeletions := di.pendingDeletions ++ di.versions }
    else Marks di.versions di di' := by
  by_cases hb : di.deletionBlocks > 0
  · exact ⟨false, _, by simp [DataInfo.delete, Java.bind_run, hb]; rfl, by rw [if_pos hb]⟩
  · obtain ⟨di', hrun, ho, hreg, hv, hrest⟩ :=
      deleteVersions_run di h.nodup fun v hv => (h.registered v).mpr hv
    have hdel : DataInfo.delete di =
        .ok ((di.versions.filter fun v => (di.object v).isIdle).foldl removeVersion di').versions.isEmpty
          ((di.versions.filter fun v => (di.object v).isIdle).foldl removeVersion di') := by
      simp only [DataInfo.delete, Java.bind_run, Java.get_run, Java.modify_run, hb, if_false, hrun]
      rfl
    refine ⟨_, _, hdel, ?_⟩
    · rw [if_neg hb, foldl_removeVersion]
      refine ⟨ho, ?_, hreg, hrest.1, hrest.2.1, hrest.2.2.1, hrest.2.2.2⟩
      simp only [hv, h.nodup.sdiff_eq_filter]
      refine List.filter_congr fun w hw => ?_
      simp [hw]

/-- The counters stand in `deletionBlocks` and `pendingDeletions` nowhere. -/
theorem TableOK.setBlocks {R W di} (h : TableOK R W di) (b : Int) {p : List Nat}
    (hp : ∀ v ∈ p, 1 ≤ v ∧ v ≤ di.currentVersionId) :
    TableOK R W { di with deletionBlocks := b, pendingDeletions := p } :=
  { h with pending := hp }

theorem Kept.setBlocks {R W di} (h : Kept R W di) (b : Int) {p : List Nat}
    (hp : ∀ v ∈ p, 1 ≤ v ∧ v ≤ di.currentVersionId) :
    Kept R W { di with deletionBlocks := b, pendingDeletions := p } :=
  { h with pending := hp }

/-- `delete` keeps the table. -/
theorem TableOK.delete {R W di} (h : TableOK R W di) : TableOK R W (Java.final (DataInfo.delete di)) := by
  obtain ⟨b, di', hrun, hres⟩ := h.delete_run
  rw [hrun, Java.final_ok]
  split at hres
  · subst hres
    refine h.setBlocks di.deletionBlocks fun v hv => ?_
    exact (List.mem_append.mp hv).elim (h.pending v) (h.bound v)
  · exact h.marks hres

theorem Kept.delete {R W di} (h : Kept R W di) : Kept R W (Java.final (DataInfo.delete di)) := by
  obtain ⟨b, di', hrun, hres⟩ := h.delete_run
  rw [hrun, Java.final_ok]
  split at hres
  · subst hres
    refine h.setBlocks di.deletionBlocks fun v hv => ?_
    exact (List.mem_append.mp hv).elim (h.pending v) (h.bound v)
  · exact h.marks hres

/-- The walk over the pending versions, once the counter is down to zero. -/
theorem unblockDeletions_final (di : DataInfo) : Java.final (DataInfo.unblockDeletions di) =
    if di.deletionBlocks - 1 = 0 then
      Java.final (di.pendingDeletions.forM flushVersion { di with deletionBlocks := di.deletionBlocks - 1 })
    else { di with deletionBlocks := di.deletionBlocks - 1 } := by
  simp only [DataInfo.unblockDeletions, Java.bind_run, Java.modify_run, Java.get_run]
  split
  · rw [Java.bind_run]
    cases di.pendingDeletions.forM flushVersion { di with deletionBlocks := di.deletionBlocks - 1 } <;> rfl
  · rfl

theorem Kept.blockDeletions {R W di} (h : Kept R W di) :
    Kept R W (Java.final (DataInfo.blockDeletions di)) :=
  h.setBlocks (di.deletionBlocks + 1) h.pending

theorem Kept.unblockDeletions {R W di} (h : Kept R W di) :
    Kept R W (Java.final (DataInfo.unblockDeletions di)) := by
  have h' := h.setBlocks (di.deletionBlocks - 1) h.pending
  rw [unblockDeletions_final]
  split
  · obtain ⟨m, -, hm⟩ := h'.flush di.pendingDeletions
    exact h'.marks hm
  · exact h'

/-! ## Table invariants -/

/-- What the invariants of a table have in common: they survive the accesses
and the deletions of the datum, with one proviso `ok` on the announcement of a
read. -/
structure TableInvariant (T : (Nat → Nat) → (Nat → Nat) → DataInfo → Prop) (ok : DataInfo → Prop) :
    Prop where
  tableOK : ∀ {R W di}, T R W di → TableOK R W di
  ok_new : ∀ loc, ok (DataInfo.new loc)
  willBeRead : ∀ {R W di}, T R W di → ok di →
    T (inc R di.currentVersionId) W (Java.final (DataInfo.willBeRead di))
  willBeWritten : ∀ {R W di}, T R W di →
    T R (inc W (di.currentVersionId + 1)) (Java.final (DataInfo.willBeWritten di))
  versionHasBeenRead : ∀ {R W di v}, T (inc R v) W di →
    T R W (Java.final (DataInfo.versionHasBeenRead v di))
  versionHasBeenWritten : ∀ {R W di v}, T R (inc W v) di →
    T R W (Java.final (DataInfo.versionHasBeenWritten v di))
  /-- A read that raises leaves the write of the same access unreported. -/
  unwritten : ∀ {R W di e v w}, T (inc R v) (inc W w) di →
    DataInfo.versionHasBeenRead v di = .error e di → T R W di
  delete : ∀ {R W di}, T R W di → T R W (Java.final (DataInfo.delete di))

theorem kept_invariant : TableInvariant Kept fun di => di.currentVersionId ∈ di.versions where
  tableOK h := h.toTableOK
  ok_new _ := by simp [DataInfo.new]
  willBeRead h hok := h.willBeRead hok
  willBeWritten h := h.willBeWritten
  versionHasBeenRead h := h.versionHasBeenRead
  versionHasBeenWritten h := h.versionHasBeenWritten
  unwritten {R W di e v w} h he := by
    have hv : v ∈ di.versions := h.present v (by rw [inc_self]; omega)
    obtain ⟨b, hb⟩ := versionAccessed_ok DataVersion.hasBeenRead hv ((h.registered v).mpr hv)
    rw [DataInfo.versionHasBeenRead, hb] at he
    cases he
  delete h := h.delete

end Compss.DataInfo
