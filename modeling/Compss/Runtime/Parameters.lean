/-
The accesses a task registers for its parameters, in their order.

Two references name one datum exactly when they have the same key (`Named`),
so what the provider answers to the parameters of one task is known from their
directions and keys: each write makes a version, and each read names the
version of the last write before it, which may be one of the task itself.

A task reads no version of its own exactly when no parameter that writes a
datum stands before one that reads it (`processTask_readsOthers_iff`). The
graph has no edge for the others: `checkDependencyForRead` takes a last writer
that is the task itself for the main program.
-/
import Compss.Runtime.Requests

namespace Compss

open Lib

/-- What the provider finds the datum by. -/
def DataRef.key : DataRef → String ⊕ Int
  | .file loc => .inl loc.locationKey
  | .object code => .inr code

namespace Ledger

/-- `currentVersionId` of a datum. -/
def currentVersion (p : DataInfoProvider) (d : Nat) : Option Nat := (p.idToData d).map DataInfo.currentVersionId

/-- The data are entered under their keys, each under one. -/
structure Named (p : DataInfoProvider) : Prop where
  known : ∀ ref d, dataOf p ref = some d → d < p.nextDataId ∧ ∃ di, p.idToData d = some di
  distinct : ∀ ref ref' d, dataOf p ref = some d → dataOf p ref' = some d → ref.key = ref'.key
  fresh : ∀ d, p.nextDataId ≤ d → p.idToData d = none

theorem dataOf_congr {p : DataInfoProvider} {ref ref' : DataRef} (h : ref.key = ref'.key) :
    dataOf p ref = dataOf p ref' := by
  cases ref <;> cases ref' <;> simp_all [DataRef.key, dataOf]

theorem dataOf_setData (p : DataInfoProvider) (d : Nat) (di : DataInfo) (ref : DataRef) :
    dataOf (p.setData d di) ref = dataOf p ref := by cases ref <;> rfl

theorem dataOf_withNewData_of_key {p : DataInfoProvider} {ref ref' : DataRef} (h : ref'.key = ref.key) :
    dataOf (withNewData p ref) ref' = some p.nextDataId := by
  rw [dataOf_congr h]
  cases ref <;> simp [dataOf, withNewData]

theorem dataOf_withNewData_of_ne {p : DataInfoProvider} {ref ref' : DataRef} (h : ref'.key ≠ ref.key) :
    dataOf (withNewData p ref) ref' = dataOf p ref' := by
  cases ref <;> cases ref' <;> simp_all [DataRef.key, dataOf, withNewData, Function.update_apply]

namespace Named
variable {p : DataInfoProvider} {ref : DataRef} {d : Nat}

theorem init : Named DataInfoProvider.init where
  known ref d h := by cases ref <;> cases h
  distinct ref ref' d h := by cases ref <;> cases h
  fresh _ _ := rfl

theorem setData (h : Named p) {d : Nat} {di : DataInfo} (hd : p.idToData d = some di) (di' : DataInfo) :
    Named (p.setData d di') where
  known ref e he := by
    rw [dataOf_setData] at he
    obtain ⟨hlt, ei, hei⟩ := h.known ref e he
    refine ⟨hlt, ?_⟩
    by_cases hed : e = d
    · exact ⟨di', by rw [hed]; exact DataInfoProvider.setData_self ..⟩
    · exact ⟨ei, by rw [DataInfoProvider.setData_ne _ _ _ hed]; exact hei⟩
  distinct ref ref' e he he' := by
    rw [dataOf_setData] at he he'
    exact h.distinct ref ref' e he he'
  fresh e he := by
    have hed : e ≠ d := by
      rintro rfl
      rw [h.fresh e he] at hd
      cases hd
    rw [DataInfoProvider.setData_ne _ _ _ hed]
    exact h.fresh e he

theorem withNewData (h : Named p) (hnew : dataOf p ref = none) : Named (withNewData p ref) where
  known ref' d hd := by
    rw [withNewData_nextDataId]
    rcases dataOf_withNewData hd with rfl | hd
    · obtain ⟨loc, hloc⟩ := withNewData_self p ref
      exact ⟨Nat.lt_succ_self _, _, hloc⟩
    · obtain ⟨hlt, di, hdi⟩ := h.known ref' d hd
      exact ⟨by omega, di, by rw [withNewData_ne _ _ (by omega)]; exact hdi⟩
  distinct ref₁ ref₂ d h₁ h₂ := by
    -- The new id is no old one's.
    have hold : ∀ ref', ref'.key ≠ ref.key → dataOf (Ledger.withNewData p ref) ref' ≠ some p.nextDataId := by
      intro ref' hne hd
      rw [dataOf_withNewData_of_ne hne] at hd
      exact Nat.lt_irrefl _ (h.known ref' _ hd).1
    by_cases hk₁ : ref₁.key = ref.key <;> by_cases hk₂ : ref₂.key = ref.key
    · rw [hk₁, hk₂]
    · rw [dataOf_withNewData_of_key hk₁] at h₁
      exact absurd (h₂.trans h₁.symm) (hold ref₂ hk₂)
    · rw [dataOf_withNewData_of_key hk₂] at h₂
      exact absurd (h₁.trans h₂.symm) (hold ref₁ hk₁)
    · rw [dataOf_withNewData_of_ne hk₁] at h₁
      rw [dataOf_withNewData_of_ne hk₂] at h₂
      exact h.distinct ref₁ ref₂ d h₁ h₂
  fresh d hd := by
    rw [withNewData_nextDataId] at hd
    rw [withNewData_ne _ _ (by omega)]
    exact h.fresh d (by omega)

end Named

/-- The access mode writes. -/
def writes : AccessMode → Bool
  | .R => false
  | .W | .RW => true

/-- `p'` is `p` after an access of mode `mode` to datum `d`, whose current
version was `c`. -/
structure Accessed (p p' : DataInfoProvider) (mode : AccessMode) (d c : Nat) : Prop where
  named : Named p'
  dataOf : ∀ ref e, Ledger.dataOf p ref = some e → Ledger.dataOf p' ref = some e
  before : ∀ c', currentVersion p d = some c' → c' = c
  after : currentVersion p' d = some (if writes mode then c + 1 else c)
  other : ∀ e c', e ≠ d → currentVersion p e = some c' → currentVersion p' e = some c'

/-- The current versions grow. -/
theorem Accessed.current {p p' : DataInfoProvider} {mode : AccessMode} {d c e v : Nat} (h : Accessed p p' mode d c)
    (hv : currentVersion p e = some v) : ∃ v', currentVersion p' e = some v' ∧ v ≤ v' := by
  by_cases he : e = d
  · subst he
    refine ⟨_, h.after, ?_⟩
    obtain rfl := h.before v hv
    split <;> omega
  · exact ⟨v, h.other e v he hv, Nat.le_refl v⟩

theorem announced_currentVersionId (di : DataInfo) (mode : AccessMode) :
    (announced di mode).currentVersionId = if writes mode then di.currentVersionId + 1 else di.currentVersionId := by
  cases mode <;> rfl

/-- An access of a known datum. -/
theorem Named.willAccess {p : DataInfoProvider} (h : Named p) (mode : AccessMode) {d : Nat} {di : DataInfo}
    (hd : p.idToData d = some di) : ∃ p', DataInfoProvider.willAccess mode d p = .ok (accessId d di mode) p' ∧
      (∀ ref, Ledger.dataOf p' ref = Ledger.dataOf p ref) ∧ Accessed p p' mode d di.currentVersionId := by
  refine ⟨_, willAccess_run hd mode, dataOf_setData p d _, h.setData hd _, fun ref e he => ?_, fun c' hc => ?_, ?_, ?_⟩
  · rw [dataOf_setData]; exact he
  · rw [currentVersion, hd] at hc; exact (Option.some.inj hc).symm
  · rw [currentVersion, DataInfoProvider.setData_self, Option.map_some, announced_currentVersionId]
  · intro e c' hne hc
    rw [currentVersion, DataInfoProvider.setData_ne _ _ _ hne]
    exact hc

theorem Named.registerAccess {p : DataInfoProvider} (h : Named p) (mode : AccessMode) (ref : DataRef) :
    ∃ d di p', registerAccess mode ref p = .ok (accessId d di mode) p' ∧ dataOf p' ref = some d ∧
      Accessed p p' mode d di.currentVersionId := by
  cases hd : dataOf p ref with
  | some d =>
    obtain ⟨-, di, hdi⟩ := h.known ref d hd
    obtain ⟨p', hp', href, hacc⟩ := h.willAccess mode hdi
    exact ⟨d, di, p', by rw [registerAccess_known hd]; exact hp', (href ref).trans hd, hacc⟩
  | none =>
    -- The datum is new: nothing was known of its id.
    obtain ⟨loc, hloc⟩ := withNewData_self p ref
    obtain ⟨p', hp', href, hacc⟩ := (h.withNewData hd).willAccess mode hloc
    have hold : ∀ ref' e, Ledger.dataOf p ref' = some e → Ledger.dataOf p' ref' = some e := by
      intro ref' e he
      have hne : ref'.key ≠ ref.key := by
        intro hk
        rw [dataOf_congr hk, hd] at he
        cases he
      rw [href, dataOf_withNewData_of_ne hne]
      exact he
    refine ⟨_, _, p', by rw [registerAccess_new hd]; exact hp', by rw [href]; exact dataOf_withNewData_of_key rfl,
      { hacc with dataOf := hold, before := ?_, other := ?_ }⟩
    · intro c' hc
      rw [currentVersion, h.fresh _ (Nat.le_refl _)] at hc
      cases hc
    · intro e c' hne hc
      refine hacc.other e c' hne ?_
      rw [currentVersion, withNewData_ne _ _ hne]
      exact hc

/-- A call on one datum. -/
theorem Named.onData {p : DataInfoProvider} (h : Named p) {α : Type} (d : Nat) (x : DataInfo.M α) :
    Named (Java.final (DataInfoProvider.onData d x p)) := by
  cases hd : p.idToData d with
  | none => simpa [DataInfoProvider.onData, hd] using h
  | some di =>
    rw [DataInfoProvider.onData_final x hd]
    exact h.setData hd _

theorem keeps_named_onData {α : Type} (d : Nat) (x : DataInfo.M α) :
    Java.Keeps Named (DataInfoProvider.onData d x) := fun _ h => h.onData d x

theorem keeps_named_dataHasBeenAccessed (id : DataAccessId) :
    Java.Keeps Named (DataInfoProvider.dataHasBeenAccessed id) := by
  cases id with
  | R d r => exact (keeps_named_onData d _).bind fun _ => .pure _
  | W d w => exact (keeps_named_onData d _).bind fun _ => .pure _
  | RW d r w => exact (keeps_named_onData d _).bind fun _ => (keeps_named_onData d _).bind fun _ => .pure _

theorem keeps_named_deleteData (loc : DataLocation) : Java.Keeps Named (DataInfoProvider.deleteData loc) := by
  refine .bind .get fun p => ?_
  cases p.nameToId loc.locationKey with
  | none => exact .pure _
  | some d => exact (keeps_named_onData d _).bind fun _ => .pure _

theorem Named.step {s t : Ledger} {op : Op} (h : Named s.provider) (hst : step s op = some t) : Named t.provider := by
  cases op with
  | request r =>
    cases r with
    | register mode ref =>
      obtain ⟨d, di, p', hp', -, hacc⟩ := h.registerAccess mode ref
      simp only [Ledger.step, request, hp', Option.some.injEq] at hst
      subst hst
      exact hacc.named
    | accessed id =>
      simp only [Ledger.step, request] at hst
      split at hst
      · cases hst; exact keeps_named_dataHasBeenAccessed id _ h
      · cases hst
    | delete loc => cases hst; exact keeps_named_deleteData loc _ h
  | block d => cases hst; exact h.onData d _
  | unblock d => cases hst; exact (keeps_named_onData d _).bind (fun _ => .pure _) _ h

theorem Named.run {ops : List Op} {s : Ledger} (hrun : Lib.run Ledger.step Ledger.init ops = some s) : Named s.provider :=
  run_invariant_of_step (I := fun s => Named s.provider) (fun _ _ _ h hst => h.step hst) Named.init hrun

end Ledger

namespace Runtime

open Ledger

namespace Parameter

/-- What the datum of the parameter is found by. -/
def key? (p : Parameter) : Option (String ⊕ Int) := p.ref.map DataRef.key

/-- The task writes the datum of `p`, and reads it again for `q`. -/
def Feeds (p q : Parameter) : Prop :=
  p.direction ≠ .IN ∧ q.direction ≠ .OUT ∧ p.key? ≠ none ∧ p.key? = q.key?

instance (p q : Parameter) : Decidable (p.Feeds q) := by unfold Feeds; infer_instance

end Parameter

/-- No version that one of the accesses reads is written by one of them. -/
def ReadsOthers (as : List DataAccessId) : Prop :=
  ∀ a ∈ as, ∀ b ∈ as, ∀ v, a.readVersion = some v → b.writtenVersion = some v → a.dataId ≠ b.dataId

section
variable {dir : DataDirection} {d v : Nat} {di : DataInfo}

theorem accessId_dataId (d : Nat) (di : DataInfo) (mode : AccessMode) : (accessId d di mode).dataId = d := by
  cases mode <;> rfl

theorem accessId_read : (accessId d di (TaskAnalyser.accessMode dir)).readVersion = some v ↔
    dir ≠ .OUT ∧ v = di.currentVersionId := by
  cases dir <;> simp [TaskAnalyser.accessMode, accessId, DataAccessId.readVersion, eq_comm]

theorem accessId_written : (accessId d di (TaskAnalyser.accessMode dir)).writtenVersion = some v ↔
    dir ≠ .IN ∧ v = di.currentVersionId + 1 := by
  cases dir <;> simp [TaskAnalyser.accessMode, accessId, DataAccessId.writtenVersion, eq_comm]

theorem writes_accessMode : writes (TaskAnalyser.accessMode dir) = true ↔ dir ≠ .IN := by
  cases dir <;> simp [TaskAnalyser.accessMode, writes]

end

/-- One access more, which writes what nobody has read. -/
theorem readsOthers_append {as : List DataAccessId} {a : DataAccessId}
    (hnew : ∀ b ∈ as ++ [a], ∀ v, b.readVersion = some v → a.writtenVersion = some v → b.dataId ≠ a.dataId) :
    ReadsOthers (as ++ [a]) ↔ ReadsOthers as ∧
      ∀ b ∈ as, ∀ v, a.readVersion = some v → b.writtenVersion = some v → a.dataId ≠ b.dataId := by
  constructor
  · intro h
    exact ⟨fun b hb c hc => h b (by simp [hb]) c (by simp [hc]), fun b hb => h a (by simp) b (by simp [hb])⟩
  · rintro ⟨hold, ha⟩ b hb c hc v hr hw
    rcases List.mem_append.mp hc with hcas | hca
    · rcases List.mem_append.mp hb with hbas | hba
      · exact hold b hbas c hcas v hr hw
      · obtain rfl := List.mem_singleton.mp hba
        exact ha c hcas v hr hw
    · obtain rfl := List.mem_singleton.mp hca
      exact hnew b hb v hr hw

/-- The accesses registered for the parameters `ps`. -/
def accessesOf (ps : List Parameter) : List DataAccessId := ps.filterMap Parameter.dataAccessId

/-- The parameters `ps` have been registered, one after the other. -/
structure Registered (p : DataInfoProvider) (ps : List Parameter) : Prop where
  named : Named p
  access : ∀ q ∈ ps, ∀ a, q.dataAccessId = some a → ∃ ref c, q.ref = some ref ∧ dataOf p ref = some a.dataId ∧
    currentVersion p a.dataId = some c ∧ (∀ v, a.readVersion = some v → v ≤ c) ∧
    ∀ v, a.writtenVersion = some v → v ≤ c ∧ q.direction ≠ .IN
  /-- What the task has written last is the current version. -/
  latest : ∀ q ∈ ps, ∀ ref, q.ref = some ref → q.direction ≠ .IN → ∃ a ∈ accessesOf ps, dataOf p ref = some a.dataId ∧
    a.writtenVersion.isSome ∧ currentVersion p a.dataId = a.writtenVersion
  own : ReadsOthers (accessesOf ps) ↔ ps.Pairwise fun q r => ¬ q.Feeds r

namespace Registered
variable {p p' : DataInfoProvider} {ps : List Parameter} {q : Parameter} {ref : DataRef} {d : Nat} {di : DataInfo}

theorem nil (h : Named p) : Registered p [] where
  named := h
  access := by simp
  latest := by simp
  own := by simp [accessesOf, ReadsOthers]

/-- A parameter of a basic type. -/
theorem basic (h : Registered p ps) (hq : q.ref = none) (hnew : q.dataAccessId = none) : Registered p (ps ++ [q]) := by
  have hacc : accessesOf (ps ++ [q]) = accessesOf ps := by simp [accessesOf, hnew]
  refine ⟨h.named, fun r hr a ha => ?_, fun r hr ref hrr hdir => ?_, ?_⟩
  · rcases List.mem_append.mp hr with hr | hr
    · exact h.access r hr a ha
    · obtain rfl := List.mem_singleton.mp hr
      rw [hnew] at ha
      cases ha
  · rw [hacc]
    rcases List.mem_append.mp hr with hr | hr
    · exact h.latest r hr ref hrr hdir
    · obtain rfl := List.mem_singleton.mp hr
      rw [hq] at hrr
      cases hrr
  · rw [hacc, h.own, List.pairwise_append]
    have hkey : q.key? = none := by rw [Parameter.key?, hq]; rfl
    have hno : ∀ r : Parameter, ¬ r.Feeds q := fun r ⟨_, _, hr, heq⟩ => hr (heq.trans hkey)
    simp [hno]

/-- The task reads its own version for `q` exactly when a parameter before it
feeds `q`. -/
theorem reads_own_iff (h : Registered p ps) (hq : q.ref = some ref) (hd : dataOf p' ref = some d)
    (hacc : Accessed p p' (TaskAnalyser.accessMode q.direction) d di.currentVersionId) :
    (∀ b ∈ accessesOf ps, ∀ v, (accessId d di (TaskAnalyser.accessMode q.direction)).readVersion = some v →
      b.writtenVersion = some v → (accessId d di (TaskAnalyser.accessMode q.direction)).dataId ≠ b.dataId) ↔
      ∀ r ∈ ps, ¬ r.Feeds q := by
  have hkey : q.key? = some ref.key := by rw [Parameter.key?, hq]; rfl
  constructor
  · rintro hown r hr ⟨hw, hread, -, heq⟩
    rw [hkey] at heq
    obtain ⟨ref', hr', hk⟩ := Option.map_eq_some_iff.mp heq
    obtain ⟨b, hb, hbd, hbw, hcur⟩ := h.latest r hr ref' hr' hw
    have hbd' : b.dataId = d := by
      have := hacc.dataOf ref' _ hbd
      rw [dataOf_congr hk, hd] at this
      exact (Option.some.inj this).symm
    obtain ⟨v, hv⟩ := Option.isSome_iff_exists.mp hbw
    rw [hv, hbd'] at hcur
    refine hown b hb v (accessId_read.mpr ⟨hread, hacc.before v hcur⟩) hv ?_
    rw [accessId_dataId, hbd']
  · intro hno b hb v hv hbv heq
    obtain ⟨r, hr, hrb⟩ := List.mem_filterMap.mp hb
    obtain ⟨ref', c, hr', hbd, -, -, hw⟩ := h.access r hr b hrb
    rw [accessId_dataId] at heq
    have hk : ref'.key = ref.key := by
      refine hacc.named.distinct ref' ref d ?_ hd
      rw [heq]
      exact hacc.dataOf ref' _ hbd
    have hrk : r.key? = some ref.key := by rw [Parameter.key?, hr', ← hk]; rfl
    exact hno r hr ⟨(hw v hbv).2, (accessId_read.mp hv).1, by rw [hrk]; simp, hrk.trans hkey.symm⟩

/-- A parameter with a datum. -/
theorem register (h : Registered p ps) (hq : q.ref = some ref) (hd : dataOf p' ref = some d)
    (hacc : Accessed p p' (TaskAnalyser.accessMode q.direction) d di.currentVersionId) :
    Registered p' (ps ++ [{ q with dataAccessId := some (accessId d di (TaskAnalyser.accessMode q.direction)) }]) := by
  set a := accessId d di (TaskAnalyser.accessMode q.direction) with ha
  have hacs : accessesOf (ps ++ [{ q with dataAccessId := some a }]) = accessesOf ps ++ [a] := by simp [accessesOf]
  refine ⟨hacc.named, ?_, ?_, ?_⟩
  · intro r hr b hb
    rcases List.mem_append.mp hr with hr | hr
    · obtain ⟨ref', c, hr', hbd, hc, hread, hw⟩ := h.access r hr b hb
      obtain ⟨c', hc', hle⟩ := hacc.current hc
      exact ⟨ref', c', hr', hacc.dataOf ref' _ hbd, hc', fun v hv => Nat.le_trans (hread v hv) hle,
        fun v hv => ⟨Nat.le_trans (hw v hv).1 hle, (hw v hv).2⟩⟩
    · obtain rfl := List.mem_singleton.mp hr
      cases hb
      rw [accessId_dataId]
      refine ⟨ref, _, hq, hd, hacc.after, fun v hv => ?_, fun v hv => ?_⟩
      · rw [(accessId_read.mp hv).2]
        split <;> omega
      · obtain ⟨hdir, rfl⟩ := accessId_written.mp hv
        rw [if_pos (writes_accessMode.mpr hdir)]
        exact ⟨Nat.le_refl _, hdir⟩
  · have hlast : q.direction ≠ .IN → a.writtenVersion = currentVersion p' d := by
      intro hdir
      rw [hacc.after, if_pos (writes_accessMode.mpr hdir)]
      exact accessId_written.mpr ⟨hdir, rfl⟩
    intro r hr ref' hr' hdir
    rw [hacs]
    rcases List.mem_append.mp hr with hr | hr
    · obtain ⟨b, hb, hbd, hbw, hcur⟩ := h.latest r hr ref' hr' hdir
      by_cases he : b.dataId = d ∧ q.direction ≠ .IN
      · -- The new access has written the datum after `b`.
        refine ⟨a, by simp, ?_, ?_, ?_⟩
        · rw [accessId_dataId, ← he.1]; exact hacc.dataOf ref' _ hbd
        · rw [hlast he.2, hacc.after]; rfl
        · rw [accessId_dataId, hlast he.2]
      · refine ⟨b, by simp [hb], hacc.dataOf ref' _ hbd, hbw, ?_⟩
        obtain ⟨v, hv⟩ := Option.isSome_iff_exists.mp hbw
        rw [hv] at hcur ⊢
        by_cases hbd' : b.dataId = d
        · have hdir' : ¬ writes (TaskAnalyser.accessMode q.direction) = true := fun hw =>
            he ⟨hbd', writes_accessMode.mp hw⟩
          rw [hbd'] at hcur ⊢
          rw [hacc.after, if_neg hdir', hacc.before v hcur]
        · exact hacc.other _ v hbd' hcur
    · obtain rfl := List.mem_singleton.mp hr
      refine ⟨a, by simp, ?_, ?_, ?_⟩
      · rw [accessId_dataId, ← hd]
        rw [show ref' = ref from Option.some.inj (hr'.symm.trans hq)]
      · rw [hlast hdir, hacc.after]; rfl
      · rw [accessId_dataId, hlast hdir]
  · rw [hacs, readsOthers_append, h.own, List.pairwise_append, h.reads_own_iff hq hd hacc]
    · simp [Parameter.Feeds, Parameter.key?]
    · intro b hb v hr hw heq
      obtain ⟨-, rfl⟩ := accessId_written.mp hw
      rcases List.mem_append.mp hb with hb | hb
      · obtain ⟨r, hrmem, hrb⟩ := List.mem_filterMap.mp hb
        obtain ⟨-, c, -, -, hc, hread, -⟩ := h.access r hrmem b hrb
        rw [heq, accessId_dataId] at hc
        have := hread _ hr
        have := hacc.before c hc
        omega
      · obtain rfl := List.mem_singleton.mp hb
        have := (accessId_read.mp hr).2
        omega

end Registered

namespace TaskAnalyser

/-- The data and the parameters of the tasks are those of `a`. -/
structure SameData (a b : TaskAnalyser) : Prop where
  dip : b.dip = a.dip
  parameters : ∀ t, (b.task t).parameters = (a.task t).parameters

theorem SameData.refl (a : TaskAnalyser) : SameData a a := ⟨rfl, fun _ => rfl⟩

theorem SameData.trans {a b c : TaskAnalyser} (h : SameData a b) (h' : SameData b c) : SameData a c :=
  ⟨h'.dip.trans h.dip, fun t => (h'.parameters t).trans (h.parameters t)⟩

/-- The method returns, and leaves the data and the parameters alone. -/
def LeavesData (x : M Unit) : Prop := ∀ s, ∃ b, x s = .ok () b ∧ SameData s b

namespace LeavesData

theorem pure : LeavesData (Pure.pure ()) := fun s => ⟨s, rfl, .refl s⟩

theorem get_bind {f : TaskAnalyser → M Unit} (hf : ∀ a, LeavesData (f a)) : LeavesData (get >>= f) := fun s => hf s s

theorem bind {x : M Unit} {f : Unit → M Unit} (hx : LeavesData x) (hf : ∀ a, LeavesData (f a)) : LeavesData (x >>= f) := by
  intro s
  obtain ⟨b, hb, hsb⟩ := hx s
  obtain ⟨c, hc, hbc⟩ := hf () b
  exact ⟨c, by rw [Java.bind_ok hb]; exact hc, hsb.trans hbc⟩

theorem modify {f : TaskAnalyser → TaskAnalyser} (hf : ∀ s, SameData s (f s)) : LeavesData (modify f) :=
  fun s => ⟨f s, rfl, hf s⟩

theorem modifyTask (t : TaskId) {f : Task → Task} (hf : ∀ x, (f x).parameters = x.parameters) :
    LeavesData (modifyTask t f) := by
  refine modify fun s => ⟨rfl, fun u => ?_⟩
  rw [setTask_task]
  split
  · next he => rw [hf, he]
  · rfl

end LeavesData

theorem addNewTask_leavesData (t : TaskId) : LeavesData (addNewTask t) :=
  .get_bind fun _ => .bind (.modifyTask t fun _ => rfl) fun _ => .modify fun _ => ⟨rfl, fun _ => rfl⟩

theorem checkDependencyForRead_leavesData (t : TaskId) (daId : DataAccessId) :
    LeavesData (checkDependencyForRead t daId) := by
  refine .get_bind fun a => ?_
  cases a.writer daId.dataId with
  | none => exact .pure
  | some w =>
    dsimp only
    split
    · exact .bind (.modifyTask w fun _ => rfl) fun _ => .modifyTask t fun _ => rfl
    · exact .pure

theorem checkSchedulingEnforcing_leavesData (t : TaskId) (daId : DataAccessId) :
    LeavesData (checkSchedulingEnforcing t daId) := by
  unfold checkSchedulingEnforcing
  cases daId.readVersion with
  | none => exact .pure
  | some v =>
    dsimp only
    split
    · exact .get_bind fun a => .modifyTask t fun _ => rfl
    · exact .pure

theorem registerOutputValues_leavesData (t : TaskId) (daId : DataAccessId) : LeavesData (registerOutputValues t daId) :=
  .modify fun _ => ⟨rfl, fun _ => rfl⟩

section
variable {s : TaskAnalyser} {t : TaskId}

/-- A round with a datum registers the access and writes it down. -/
theorem processParameter_run {paramIdx : Nat} {p : Parameter} {ref : DataRef} {daId : DataAccessId}
    {dip : DataInfoProvider} (hp : (s.task t).parameters[paramIdx]? = some p) (href : p.ref = some ref)
    (hacc : registerAccess (accessMode p.direction) ref s.dip = .ok daId dip) (constrainingParam : Int) :
    ∃ b, processParameter t constrainingParam paramIdx s = .ok () b ∧ b.dip = dip ∧
      (b.task t).parameters = (setDataAccessId (s.task t) paramIdx daId).parameters := by
  have hdip : onDip (registerAccess (accessMode p.direction) ref) s = .ok daId { s with dip := dip } := by
    simp only [onDip, hacc]
  unfold processParameter
  rw [Java.bind_ok (Java.get_run s)]
  simp only [hp, href]
  rw [Java.bind_ok hdip, Java.bind_ok (modifyTask_run _)]
  -- What follows concerns the links of the task and the writers.
  suffices h : ∀ rest : M Unit, LeavesData rest → ∃ b,
      rest ({ s with dip := dip }.setTask t (setDataAccessId (s.task t) paramIdx daId)) = .ok () b ∧ b.dip = dip ∧
        (b.task t).parameters = (setDataAccessId (s.task t) paramIdx daId).parameters by
    refine h _ ?_
    have hread := checkDependencyForRead_leavesData t daId
    have henforce := checkSchedulingEnforcing_leavesData t daId
    have hwrite := registerOutputValues_leavesData t daId
    cases accessMode p.direction with
    | R =>
      refine .bind hread fun _ => ?_
      split
      · exact henforce
      · exact .pure
    | W => exact hwrite
    | RW =>
      refine .bind hread fun _ => ?_
      split
      · exact .bind henforce fun _ => hwrite
      · exact hwrite
  intro rest hrest
  obtain ⟨b, hb, hdata⟩ := hrest ({ s with dip := dip }.setTask t (setDataAccessId (s.task t) paramIdx daId))
  exact ⟨b, hb, hdata.dip, by rw [hdata.parameters, setTask_self]⟩

/-- A round with a parameter of a basic type does nothing. -/
theorem processParameter_basic {paramIdx : Nat} {p : Parameter} (hp : (s.task t).parameters[paramIdx]? = some p)
    (href : p.ref = none) (constrainingParam : Int) : processParameter t constrainingParam paramIdx s = .ok () s := by
  unfold processParameter
  rw [Java.bind_ok (Java.get_run s)]
  simp only [hp, href]
  rfl

/-- The loop over the parameters that are left. -/
theorem processParameters_run (constrainingParam : Int) : ∀ (rest done : List Parameter) (s : TaskAnalyser),
    (s.task t).parameters = done ++ rest → (∀ q ∈ rest, q.dataAccessId = none) → Registered s.dip done →
    ∃ b, (List.range' done.length rest.length).forM (processParameter t constrainingParam) s = .ok () b ∧
      Registered b.dip (b.task t).parameters ∧
      (b.task t).parameters.map (fun q => (q.direction, q.ref)) = (done ++ rest).map fun q => (q.direction, q.ref)
  | [], done, s, hps, _, hdone => by
    rw [List.append_nil] at hps
    exact ⟨s, rfl, by rw [hps]; exact hdone, by rw [hps, List.append_nil]⟩
  | q :: rest, done, s, hps, hnew, hdone => by
    have hq : (s.task t).parameters[done.length]? = some q := by rw [hps]; simp
    rw [List.length_cons, List.range'_succ]
    change ∃ b, (processParameter t constrainingParam done.length >>= fun _ =>
      (List.range' (done.length + 1) rest.length).forM (processParameter t constrainingParam)) s = .ok () b ∧ _
    cases href : q.ref with
    | none =>
      rw [Java.bind_ok (processParameter_basic hq href constrainingParam)]
      have := processParameters_run constrainingParam rest (done ++ [q]) s (by rw [hps]; simp)
        (fun r hr => hnew r (by simp [hr])) (hdone.basic href (hnew q (by simp)))
      simpa using this
    | some ref =>
      obtain ⟨d, di, dip, hreg, hd, hacc⟩ := hdone.named.registerAccess (accessMode q.direction) ref
      obtain ⟨b, hb, hdip, hparams⟩ := processParameter_run hq href hreg constrainingParam
      rw [Java.bind_ok hb]
      have hps' : (b.task t).parameters =
          (done ++ [{ q with dataAccessId := some (accessId d di (accessMode q.direction)) }]) ++ rest := by
        rw [hparams, setDataAccessId, hps]
        simp [List.modify_eq_take_drop]
      obtain ⟨c, hc, hreg', hmap⟩ := processParameters_run constrainingParam rest _ b hps'
        (fun r hr => hnew r (by simp [hr])) (by rw [hdip]; exact hdone.register href hd hacc)
      rw [List.length_append, List.length_singleton] at hc
      refine ⟨c, hc, hreg', ?_⟩
      rw [hmap]
      simp

/-- **No task waits for itself.** In any state of the analyser, over the data of
any run, the analysis of a new task returns, and the versions the task reads
are all of others exactly when none of its parameters feeds a later one. -/
theorem processTask_readsOthers_iff {drawGraph : Bool} {ops : List Op} {l : Ledger}
    (hrun : Lib.run Ledger.step Ledger.init ops = some l) (hdip : s.dip = l.provider)
    (hnew : ∀ q ∈ (s.task t).parameters, q.dataAccessId = none) :
    ∃ b, processTask drawGraph t s = .ok () b ∧
      (ReadsOthers (b.task t).accesses ↔ (s.task t).parameters.Pairwise fun q r => ¬ q.Feeds r) := by
  have hrest : ∀ a, SameData s a → ∃ b, (do
      let x := (← get).task t
      modify fun s =>
        { s with
          appIdToTaskCount :=
            Function.update s.appIdToTaskCount x.appId (some ((s.appIdToTaskCount x.appId).getD 0 + 1)),
          analysed := s.analysed ++ [t] }
      (List.range x.parameters.length).forM (processParameter t (constrainingParam x)) : M Unit) a = .ok () b ∧
      (ReadsOthers (b.task t).accesses ↔ (s.task t).parameters.Pairwise fun q r => ¬ q.Feeds r) := by
    intro a ha
    rw [Java.bind_ok (Java.get_run a), Java.bind_ok (Java.modify_run _ a), List.range_eq_range']
    have hnamed : Named a.dip := by
      rw [ha.dip, hdip]
      exact Named.run hrun
    obtain ⟨b, hb, hreg, hmap⟩ := processParameters_run (t := t) (constrainingParam (a.task t)) (s.task t).parameters []
      (counted a t) (ha.parameters t) hnew (Registered.nil hnamed)
    rw [ha.parameters]
    refine ⟨b, hb, hreg.own.trans ?_⟩
    -- The access ids apart, the parameters are still the same.
    have hfeeds : ∀ ps : List Parameter, (ps.Pairwise fun q r => ¬ q.Feeds r) ↔
        (ps.map fun q => (q.direction, q.ref)).Pairwise fun q r =>
          ¬ Parameter.Feeds ⟨q.1, q.2, none⟩ ⟨r.1, r.2, none⟩ := fun ps => by
      rw [List.pairwise_map]
      exact Iff.rfl
    rw [hfeeds, hmap, List.nil_append, ← hfeeds]
  unfold processTask
  cases drawGraph with
  | true =>
    obtain ⟨a, ha, hdata⟩ := addNewTask_leavesData t s
    rw [if_pos rfl, Java.bind_ok ha]
    exact hrest a hdata
  | false => exact hrest s (.refl s)

end

/-- The runtime with one new task, which has the parameters `ps`. -/
def oneTask (ps : List (DataDirection × Option DataRef)) : TaskAnalyser :=
  TaskAnalyser.init.setTask 1 (Task.new 0 false false false 1 false ps)

/-- A file read and then written: the version read is that of the main program. -/
theorem inThenOut_readsOthers : ∃ b, processTask false 1
    (oneTask [(.IN, some (.file ⟨"f", "/tmp/f"⟩)), (.OUT, some (.file ⟨"f", "/tmp/f"⟩))]) = .ok () b ∧
      ReadsOthers (b.task 1).accesses := by
  obtain ⟨b, hb, hown⟩ := @processTask_readsOthers_iff
    (oneTask [(.IN, some (.file ⟨"f", "/tmp/f"⟩)), (.OUT, some (.file ⟨"f", "/tmp/f"⟩))]) 1 false [] _ rfl rfl (by decide)
  exact ⟨b, hb, hown.mpr (by decide)⟩

/-- The same file written and then read: the version read is the one the task
writes, which nobody else will produce. -/
theorem outThenIn_readsOwn : ∃ b, processTask false 1
    (oneTask [(.OUT, some (.file ⟨"f", "/tmp/f"⟩)), (.IN, some (.file ⟨"f", "/tmp/f"⟩))]) = .ok () b ∧
      (b.task 1).predecessors = [] ∧ ¬ ReadsOthers (b.task 1).accesses := by
  refine ⟨_, rfl, rfl, fun h => ?_⟩
  exact h (.R 1 2) (by decide) (.W 1 2) (by decide) 2 rfl rfl rfl

end TaskAnalyser

end Runtime

end Compss
