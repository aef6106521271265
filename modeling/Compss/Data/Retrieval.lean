/-
Result-file retrievals: who blocks the deletions of a datum, and who unblocks
them.

A `GetResultFilesRequest` keeps the datum of every result it got blocked until
the `UnblockResultFilesRequest` that follows; `checkResultFileTransfer` unblocks
right after it asked, whatever it was answered, unless the answer was an
exception. The three ways this goes wrong are conditions on the state in which
an operation starts (`Op.balances`): a result that is discarded before the
block, a copy whose order raises after it, and pending versions left behind by
an unblock that meets one that is gone.
-/
import Compss.Data.Bookkeeping

namespace Compss

open Lib DataInfo

namespace DataInfo

/-- The version was deleted: it is marked, and gone unless an access holds it. -/
def Deleted (di : DataInfo) (v : Nat) : Prop :=
  (di.object v).toDelete = true ∧
    ((di.object v).isIdle = true → v ∉ di.versions ∧ di.registered v = false)

/-- The table is sound, `n` blocks are set, and when it is none no pending
version is unmarked. -/
structure Released (n : Nat) (R W : Nat → Nat) (di : DataInfo) : Prop extends TableOK R W di where
  blocks : di.deletionBlocks = n
  released : n = 0 → ∀ v ∈ di.pendingDeletions, (di.object v).toDelete = true

/-- Walking `l` after the versions of `seen`, no version that is still to be
deleted stands after the first one that is idle and already gone. -/
def Flushes (di : DataInfo) : (seen l : List Nat) → Prop
  | _, [] => True
  | seen, v :: l =>
    if (di.object v).isIdle ∧ (di.registered v = false ∨ v ∈ seen) then
      ∀ w ∈ l, w ∈ v :: seen ∨ di.Deleted w
    else di.Flushes (v :: seen) l

theorem TableOK.deleted_iff {R W di} (h : TableOK R W di) (v : Nat) :
    di.Deleted v ↔ (di.object v).toDelete = true := by
  refine ⟨fun hd => hd.1, fun hd => ⟨hd, fun hi => ?_⟩⟩
  have hv : v ∉ di.versions := fun hv => by simp [h.marked v hv hd] at hi
  exact ⟨hv, Bool.eq_false_iff.mpr fun hr => hv ((h.registered v).mp hr)⟩

theorem Released.setTable {n R W R' W' di di'} (h : Released n R W di) (hT : TableOK R' W' di')
    (hb : di'.deletionBlocks = di.deletionBlocks) (hp : di'.pendingDeletions = di.pendingDeletions)
    (hd : ∀ v, v ≤ di.currentVersionId → (di.object v).toDelete = true → (di'.object v).toDelete = true) :
    Released n R' W' di' where
  toTableOK := hT
  blocks := hb.trans h.blocks
  released h0 v hv := by
    rw [hp] at hv
    exact hd v (h.pending v hv).2 (h.released h0 v hv)

theorem Marks.toDelete {l : List Nat} {di di' : DataInfo} (h : Marks l di di') (v : Nat) :
    (di'.object v).toDelete = true ↔ v ∈ l ∨ (di.object v).toDelete = true := by
  rw [h.object]
  split
  · next hv => simp [hv, DataVersion.delete]
  · next hv => simp [hv]

theorem Released.report {n R W R' W' di} (h : Released n R W di)
    {report : DataVersion → DataVersion × Bool} (hrep : IsReport report) {v : Nat}
    (hT : TableOK R' W' (Java.final (versionAccessed report v di))) :
    Released n R' W' (Java.final (versionAccessed report v di)) := by
  rw [h.versionAccessed_final] at hT ⊢
  refine h.setTable hT (accessed_deletionBlocks ..) (accessed_pendingDeletions ..) fun w _ hw => ?_
  by_cases hv : v ∈ di.versions
  · rw [accessed_object report hv]
    split
    · next he => subst he; rw [hrep.toDelete]; exact hw
    · exact hw
  · rw [accessed, if_neg hv]; exact hw

theorem released_invariant (n : Nat) : TableInvariant (Released n) fun _ => True where
  tableOK h := h.toTableOK
  ok_new _ := trivial
  willBeRead h _ := by
    refine h.setTable h.toTableOK.willBeRead rfl rfl fun v _ hv => ?_
    rw [willBeRead_run, Java.final_ok, setObject_object]
    split
    · next he => subst he; exact hv
    · exact hv
  willBeWritten h := by
    refine h.setTable h.toTableOK.willBeWritten rfl rfl fun v hle hv => ?_
    rw [willBeWritten_run, Java.final_ok, written_object, if_neg (by omega)]
    exact hv
  versionHasBeenRead h := h.report isReport_hasBeenRead h.toTableOK.versionHasBeenRead
  versionHasBeenWritten h := h.report isReport_hasBeenWritten h.toTableOK.versionHasBeenWritten
  unwritten h _ := h.setTable (h.mono (le_inc _ _) (le_inc _ _)) rfl rfl fun _ _ hv => hv
  delete {R W di} h := by
    have hT := h.toTableOK.delete
    obtain ⟨b, di', hrun, hres⟩ := h.delete_run
    rw [hrun, Java.final_ok] at hT ⊢
    split at hres
    · next hb =>
      subst hres
      refine { hT with blocks := h.blocks, released := fun h0 => ?_ }
      rw [h.blocks, h0] at hb
      exact absurd hb (by decide)
    · exact h.setTable hT hres.deletionBlocks hres.pendingDeletions
        fun v _ hv => (hres.toDelete v).mpr (.inr hv)

/-- The walk over `l` from a state in which the versions of `seen` were
deleted marks all of `l` exactly when nothing unmarked is behind the version
it raises at. -/
theorem TableOK.flush_iff {R W di} (h : TableOK R W di) : ∀ (l seen : List Nat) {di₁ : DataInfo},
    Marks seen di di₁ →
      ((∀ v ∈ l, ((Java.final (l.forM flushVersion di₁)).object v).toDelete = true) ↔ di.Flushes seen.reverse l)
  | [], _, _, _ => by simp [Flushes]
  | v :: l, seen, di₁, hm => by
    have h₁ := h.marks hm
    have hm₂ := hm.trans (h₁.flushed_marks v)
    have hstop : ((di.object v).isIdle = true ∧ (di.registered v = false ∨ v ∈ seen.reverse)) ↔
        (di₁.object v).isIdle = true ∧ di₁.registered v = false := by
      rw [hm.isIdle, hm.registered]
      by_cases hs : v ∈ seen <;> cases (di.object v).isIdle <;> simp [hs]
    have hseen : v :: seen.reverse = (seen ++ [v]).reverse := by simp
    change (∀ w ∈ v :: l, ((Java.final ((flushVersion v >>= fun _ => l.forM flushVersion) di₁)).object w).toDelete
      = true) ↔ _
    rw [Flushes]
    split
    · next hs =>
      rw [hstop] at hs
      rw [Java.bind_error (flushVersion_error hs.1 hs.2), Java.final_error]
      have hkey : ∀ w, ((flushed v di₁).object w).toDelete = true ↔
          w ∈ v :: seen.reverse ∨ di.Deleted w := by
        intro w
        rw [hm₂.toDelete, h.deleted_iff]
        simp [or_comm]
      simp only [hkey, List.mem_cons, forall_eq_or_imp, true_or, true_and]
    · next hs =>
      rw [hstop] at hs
      have hok : flushVersion v di₁ = .ok () (flushed v di₁) :=
        flushVersion_ok fun hi => by simpa [hi] using hs
      rw [Java.bind_ok hok, hseen, ← h.flush_iff l (seen ++ [v]) hm₂]
      have hv : ((Java.final (l.forM flushVersion (flushed v di₁))).object v).toDelete = true := by
        obtain ⟨m, -, hms⟩ := (h.marks hm₂).flush l
        exact (hms.toDelete v).mpr (.inr ((hm₂.toDelete v).mpr (.inl (by simp))))
      simp only [List.mem_cons, forall_eq_or_imp, hv, true_and]

/-! ## Blocks and unblocks of one table -/

def blocked (di : DataInfo) : DataInfo := { di with deletionBlocks := di.deletionBlocks + 1 }

section
variable {n : Nat} {R W : Nat → Nat} {di : DataInfo}

theorem flushes_blocks (di : DataInfo) (b : Int) : ∀ (l seen : List Nat),
    DataInfo.Flushes { di with deletionBlocks := b } seen l ↔ di.Flushes seen l
  | [], _ => Iff.rfl
  | v :: l, seen => by
    simp only [Flushes, flushes_blocks di b l]
    rfl

theorem flushes_of_deleted : ∀ (l seen : List Nat), (∀ v ∈ l, di.Deleted v) → di.Flushes seen l
  | [], _, _ => trivial
  | v :: l, seen, h => by
    have hl : ∀ w ∈ l, di.Deleted w := fun w hw => h w (by simp [hw])
    rw [Flushes]
    split
    · exact fun w hw => .inr (hl w hw)
    · exact flushes_of_deleted l _ hl

theorem Released.blocked (h : Released n R W di) : Released (n + 1) R W (blocked di) where
  toTableOK := h.setBlocks _ h.pending
  blocks := by simp only [DataInfo.blocked, h.blocks]; omega
  released h0 := by omega

theorem deletionBlocks_unblockDeletions (h : TableOK R W di) :
    (Java.final (unblockDeletions di)).deletionBlocks = di.deletionBlocks - 1 ∧
      (Java.final (unblockDeletions di)).pendingDeletions = di.pendingDeletions := by
  rw [unblockDeletions_final]
  split
  · obtain ⟨m, -, hm⟩ := (h.setBlocks (di.deletionBlocks - 1) h.pending).flush di.pendingDeletions
    exact ⟨hm.deletionBlocks, hm.pendingDeletions⟩
  · exact ⟨rfl, rfl⟩

theorem deletionBlocks_delete (h : TableOK R W di) :
    (Java.final (DataInfo.delete di)).deletionBlocks = di.deletionBlocks := by
  obtain ⟨b, di', hrun, hres⟩ := h.delete_run
  rw [hrun, Java.final_ok]
  split at hres
  · rw [hres]
  · exact hres.deletionBlocks

/-- The last unblock marks every pending version exactly when the walk over
them meets no gone version too early. -/
theorem Released.unblockDeletions_iff (h : Released 1 R W di) :
    (∀ v ∈ di.pendingDeletions, ((Java.final (unblockDeletions di)).object v).toDelete = true) ↔
      di.Flushes [] di.pendingDeletions := by
  have h0 : di.deletionBlocks - 1 = 0 := by rw [h.blocks]; decide
  have hT := h.setBlocks (di.deletionBlocks - 1) h.pending
  have hiff := hT.flush_iff di.pendingDeletions [] (Marks.refl _)
  rw [List.reverse_nil, flushes_blocks] at hiff
  rw [unblockDeletions_final, if_pos h0]
  exact hiff

theorem Released.unblockDeletions (h : Released (n + 1) R W di)
    (hf : n = 0 → di.Flushes [] di.pendingDeletions) : Released n R W (Java.final (unblockDeletions di)) := by
  obtain ⟨hb, hp⟩ := deletionBlocks_unblockDeletions h.toTableOK
  have hT := h.setBlocks (di.deletionBlocks - 1) h.pending
  refine { toTableOK := ?_, blocks := ?_, released := ?_ }
  · rw [unblockDeletions_final]
    split
    · obtain ⟨m, -, hm⟩ := hT.flush di.pendingDeletions
      exact hT.marks hm
    · exact hT
  · rw [hb, h.blocks]; omega
  · rintro rfl
    rw [hp]
    exact h.unblockDeletions_iff.mpr (hf rfl)

end

end DataInfo

structure Retrievals where
  ledger : Ledger
  /-- The data of the results returned and not unblocked. -/
  retrieved : List Nat

namespace Retrievals

abbrev provider (s : Retrievals) : DataInfoProvider := s.ledger.provider

def init : Retrievals := ⟨Ledger.init, []⟩

inductive Op
  | request (r : Ledger.Request)
  /-- One file of a `GetResultFilesRequest`. -/
  | getResultFile (env : TransferEnv) (dataId : Nat)
  /-- One file of an `UnblockResultFilesRequest`. -/
  | unblockResultFile (dataId : Nat)
  /-- One file of `checkResultFileTransfer`. -/
  | checkResultFileTransfer (env : TransferEnv) (dataId : Nat)

/-- One round of the loop of `TaskAnalyser.checkResultFileTransfer`; what it
catches it only logs. -/
def checkResultFileTransfer (env : TransferEnv) (fuel d : Nat) : DataInfoProvider.M Unit :=
  tryCatch
    (do
      let _ ← DataInfoProvider.blockDataAndGetResultFile env fuel d
      DataInfoProvider.unblockDataId d)
    fun _ => pure ()

def setProvider (s : Retrievals) (p : DataInfoProvider) : Retrievals :=
  { s with ledger := { s.ledger with provider := p } }

def step (fuel : Nat) (s : Retrievals) : Op → Option Retrievals
  | .request r => (s.ledger.request r).map fun l => { s with ledger := l }
  | .getResultFile env d =>
    match DataInfoProvider.blockDataAndGetResultFile env fuel d s.provider with
    | .ok (some file) p => some { s.setProvider p with retrieved := file.dataId :: s.retrieved }
    | .ok none p => some (s.setProvider p)
    | .error _ p => some (s.setProvider p)
  | .unblockResultFile d =>
    if d ∈ s.retrieved then
      some { s.setProvider (Java.final (DataInfoProvider.unblockDataId d s.provider)) with
        retrieved := s.retrieved.erase d }
    else none
  | .checkResultFileTransfer env d =>
    some (s.setProvider (Java.final (checkResultFileTransfer env fuel d s.provider)))

/-- The deletion blocks count the retrievals in progress, and a datum of which
none is in progress has no deletion pending. -/
structure Balanced (s : Retrievals) : Prop where
  counted : ∀ d di, s.provider.idToData d = some di → di.deletionBlocks = s.retrieved.count d
  deleted : ∀ d di, s.provider.idToData d = some di → d ∉ s.retrieved →
    ∀ v ∈ di.pendingDeletions, di.Deleted v

/-! ## Where an operation goes wrong -/

/-- How `blockDataAndGetResultFile` ends. -/
inductive Outcome
  /-- No such datum. -/
  | unknown
  /-- An object, or a file whose path has no name: it raises. -/
  | raised
  /-- Null, the current version is marked: its file is deleted once more. -/
  | marked
  /-- Null, an object serialized by the bindings. -/
  | serialized
  /-- Blocked, and the order to copy the result raises. -/
  | unordered
  /-- Blocked, and the result is returned. -/
  | returned
  deriving DecidableEq

def outcome (p : DataInfoProvider) (env : TransferEnv) (d : Nat) : Outcome :=
  match p.idToData d with
  | none => .unknown
  | some di =>
    match di.origLocation with
    | none => .raised
    | some loc =>
      if di.isCurrentVersionToDelete then .marked
      else
        match DataInfoProvider.originalName loc.path with
        | none => .raised
        | some name =>
          if DataInfoProvider.isSerializedObject name then .serialized
          else if !env.hasPersistentLocation ⟨d, di.currentVersionId⟩ &&
              env.getDataRaises ⟨d, di.currentVersionId⟩ then .unordered
          else .returned

/-- The operation leaves the blocks balanced and no deletion behind. -/
def Op.balances (s : Retrievals) : Op → Prop
  | .request _ => True
  | .getResultFile env d => outcome s.provider env d ≠ .unordered
  | .unblockResultFile d => s.retrieved.count d = 1 →
    ∀ di, s.provider.idToData d = some di → di.Flushes [] di.pendingDeletions
  | .checkResultFileTransfer env d =>
    outcome s.provider env d ∉ [Outcome.marked, .serialized, .unordered]

/-! ## What a retrieval does -/

section
variable {p : DataInfoProvider} {d : Nat} {di : DataInfo}

/-- A current version that is not marked can be copied itself. -/
def CurrentExists (di : DataInfo) : Prop :=
  di.isCurrentVersionToDelete = false → di.registered di.currentVersionId = true

theorem currentExists_of_tableOK {R W : Nat → Nat} (h : TableOK R W di) : CurrentExists di := by
  intro hm
  by_contra hr
  have hv : di.currentVersionId ∉ di.versions := fun hv => hr ((h.registered _).mpr hv)
  have := h.removed _ h.pos (Nat.le_refl _) hv
  rw [DataInfo.isCurrentVersionToDelete, DataInfo.currentVersion, this] at hm
  cases hm

theorem availableVersion_current (p : DataInfoProvider) (d : Nat)
    (hr : di.registered di.currentVersionId = true) (fuel : Nat) :
    DataInfoProvider.availableVersion (DataInfoProvider.existsData (p.setData d (blocked di))) (fuel + 1)
      (some ⟨d, di.currentVersionId⟩) = some (some ⟨d, di.currentVersionId⟩) := by
  simp [DataInfoProvider.availableVersion, DataInfoProvider.existsData, blocked, hr]

/-- The source's method, ending by ending. -/
theorem blockDataAndGetResultFile_run (env : TransferEnv) {fuel : Nat} (hfuel : 0 < fuel)
    (hcur : ∀ di, p.idToData d = some di → CurrentExists di) :
    (outcome p env d = .unknown ∧ p.idToData d = none ∧
      DataInfoProvider.blockDataAndGetResultFile env fuel d p = .ok none p) ∨
    ∃ di, p.idToData d = some di ∧
    ((outcome p env d = .raised ∧ ∃ e, DataInfoProvider.blockDataAndGetResultFile env fuel d p = .error e p) ∨
    (outcome p env d = .marked ∧ DataInfoProvider.blockDataAndGetResultFile env fuel d p =
      (do let _ ← DataInfoProvider.onData d DataInfo.delete; return none : DataInfoProvider.M _) p) ∨
    (outcome p env d = .serialized ∧
      DataInfoProvider.blockDataAndGetResultFile env fuel d p = .ok none p) ∨
    (outcome p env d = .unordered ∧ DataInfoProvider.blockDataAndGetResultFile env fuel d p =
      .error .transferError (p.setData d (blocked di))) ∨
    (outcome p env d = .returned ∧ DataInfoProvider.blockDataAndGetResultFile env fuel d p =
      .ok (some ⟨d, di.currentVersionId⟩) (p.setData d (blocked di)))) := by
  cases hd : p.idToData d with
  | none =>
    left
    simp [outcome, DataInfoProvider.blockDataAndGetResultFile, Java.bind_run, hd]
  | some di =>
    refine .inr ⟨di, rfl, ?_⟩
    cases hl : di.origLocation with
    | none => simp [outcome, DataInfoProvider.blockDataAndGetResultFile, Java.bind_run, hd, hl]
    | some loc =>
      cases hm : di.isCurrentVersionToDelete with
      | true =>
        right; left
        simp [outcome, DataInfoProvider.blockDataAndGetResultFile, Java.bind_run, hd, hl, hm]
      | false =>
        cases hn : DataInfoProvider.originalName loc.path with
        | none => simp [outcome, DataInfoProvider.blockDataAndGetResultFile, Java.bind_run, hd, hl, hm, hn]
        | some name =>
          cases hs : DataInfoProvider.isSerializedObject name with
          | true =>
            simp [outcome, DataInfoProvider.blockDataAndGetResultFile, Java.bind_run, hd, hl, hm, hn, hs]
          | false =>
            have hblock : DataInfoProvider.onData d DataInfo.blockDeletions p =
                .ok () (p.setData d (blocked di)) := DataInfoProvider.onData_ok hd rfl
            obtain ⟨fuel, rfl⟩ := Nat.exists_eq_add_of_lt hfuel
            rw [Nat.zero_add]
            have hav := availableVersion_current p d (hcur di hd hm) fuel
            have hrun : DataInfoProvider.blockDataAndGetResultFile env (fuel + 1) d p =
                if env.hasPersistentLocation ⟨d, di.currentVersionId⟩ then
                  .ok (some ⟨d, di.currentVersionId⟩) (p.setData d (blocked di))
                else if env.getDataRaises ⟨d, di.currentVersionId⟩ then
                  .error .transferError (p.setData d (blocked di))
                else .ok (some ⟨d, di.currentVersionId⟩) (p.setData d (blocked di)) := by
              simp only [DataInfoProvider.blockDataAndGetResultFile, Java.bind_run, Java.get_run, hd, hl, hm,
                hn, hs, Bool.false_eq_true, if_false, hblock, hav]
              cases env.hasPersistentLocation ⟨d, di.currentVersionId⟩ <;>
                cases env.getDataRaises ⟨d, di.currentVersionId⟩ <;> rfl
            rw [hrun]
            cases hp : env.hasPersistentLocation ⟨d, di.currentVersionId⟩ <;>
              cases hg : env.getDataRaises ⟨d, di.currentVersionId⟩ <;>
              simp [outcome, hd, hl, hm, hn, hs, hp, hg]

theorem unblockDataId_final (hd : p.idToData d = some di) :
    Java.final (DataInfoProvider.unblockDataId d p) = p.setData d (Java.final (unblockDeletions di)) := by
  rw [DataInfoProvider.unblockDataId, Java.bind_run, ← DataInfoProvider.onData_final _ hd]
  cases DataInfoProvider.onData d unblockDeletions p <;> rfl

end

/-! ## The blocks over whole runs -/

structure OK (s : Retrievals) : Prop where
  sound : Ledger.Sound (fun d => Released (s.retrieved.count d)) s.ledger
  bounded : ∀ d ∈ s.retrieved, d < s.provider.nextDataId

theorem OK.init : OK init where
  sound := Ledger.Sound.init _
  bounded := by simp [Retrievals.init]

theorem OK.balanced {s : Retrievals} (h : OK s) : Balanced s where
  counted d di hd := (h.sound.data d di hd).blocks
  deleted d di hd hr v hv := by
    have hdi := h.sound.data d di hd
    exact (hdi.deleted_iff v).mpr (hdi.released (List.count_eq_zero.mpr hr) v hv)

theorem OK.lt_nextDataId {s : Retrievals} (h : OK s) {d : Nat} {di : DataInfo}
    (hd : s.provider.idToData d = some di) : d < s.provider.nextDataId := by
  by_contra hn
  rw [h.sound.fresh d (Nat.le_of_not_lt hn)] at hd
  cases hd

section
variable {s : Retrievals} {d : Nat} {di di' : DataInfo}

/-- A call on one datum that leaves its table right for the retrievals then
in progress. -/
theorem OK.setData (h : OK s) (hd : s.provider.idToData d = some di) {r : List Nat}
    (hT : ∀ {R W}, Released (s.retrieved.count d) R W di → Released (r.count d) R W di')
    (hne : ∀ e, e ≠ d → r.count e = s.retrieved.count e) (hr : ∀ e ∈ r, e = d ∨ e ∈ s.retrieved) :
    OK { s.setProvider (s.provider.setData d di') with retrieved := r } where
  sound := by
    refine h.sound.setData hd (hT (h.sound.data d di hd)) ?_ fun a ha => .inr ha
    intro e ei he hei
    rw [hne e he]
    exact hei
  bounded e he := by
    rcases hr e he with rfl | he
    · exact h.lt_nextDataId hd
    · exact h.bounded e he

theorem OK.currentExists (h : OK s) (d : Nat) (di : DataInfo) (hd : s.provider.idToData d = some di) :
    CurrentExists di :=
  currentExists_of_tableOK (h.sound.data d di hd).toTableOK

/-- A call on one datum by which no retrieval starts or ends. -/
theorem OK.setData_same (h : OK s) (hd : s.provider.idToData d = some di)
    (hT : ∀ {R W}, Released (s.retrieved.count d) R W di → Released (s.retrieved.count d) R W di') :
    OK (s.setProvider (s.provider.setData d di')) :=
  h.setData hd hT (fun _ _ => rfl) fun _ he => .inr he

theorem OK.request (h : OK s) {r : Ledger.Request} {l : Ledger} (hst : s.ledger.request r = some l) :
    OK { s with ledger := l } where
  sound := by
    refine h.sound.request (fun d => released_invariant _) (fun loc => ?_)
      (fun _ _ _ => .inr fun _ _ _ _ => trivial) hst
    have h0 : s.retrieved.count s.ledger.provider.nextDataId = 0 :=
      List.count_eq_zero.mpr fun hd => Nat.lt_irrefl _ (h.bounded _ hd)
    rw [h0]
    exact { (Kept.new loc).toTableOK with blocks := rfl, released := by simp [DataInfo.new] }
  bounded d hd := Nat.lt_of_lt_of_le (h.bounded d hd) (Ledger.request_nextDataId hst)

theorem setProvider_provider (s : Retrievals) : s.setProvider s.provider = s := rfl

theorem OK.getResultFile {fuel : Nat} (hfuel : 0 < fuel) (h : OK s) {env : TransferEnv} {t : Retrievals}
    (hg : outcome s.provider env d ≠ .unordered) (hst : step fuel s (.getResultFile env d) = some t) :
    OK t := by
  rcases blockDataAndGetResultFile_run env hfuel (h.currentExists d) with
    ⟨-, -, hrun⟩ | ⟨di, hd, ⟨-, e, hrun⟩ | ⟨-, hrun⟩ | ⟨-, hrun⟩ | ⟨ho, -⟩ | ⟨-, hrun⟩⟩
  · simp only [step, hrun, setProvider_provider, Option.some.injEq] at hst
    exact hst ▸ h
  · simp only [step, hrun, setProvider_provider, Option.some.injEq] at hst
    exact hst ▸ h
  · have hdel : OK (s.setProvider (s.provider.setData d (Java.final (DataInfo.delete di)))) :=
      h.setData_same hd fun hdi => (released_invariant _).delete hdi
    obtain ⟨b, di', hrun', -⟩ := (h.sound.data d di hd).delete_run
    rw [Java.bind_ok (DataInfoProvider.onData_ok hd hrun')] at hrun
    rw [hrun', Java.final_ok] at hdel
    simp only [step, hrun, Java.pure_run, Option.some.injEq] at hst
    exact hst ▸ hdel
  · simp only [step, hrun, setProvider_provider, Option.some.injEq] at hst
    exact hst ▸ h
  · exact absurd ho hg
  · simp only [step, hrun, Option.some.injEq] at hst
    subst hst
    refine h.setData hd (fun hdi => ?_) (fun e he => ?_) fun e he => ?_
    · rw [List.count_cons_self]
      exact hdi.blocked
    · exact List.count_cons_of_ne he.symm
    · exact List.mem_cons.mp he

theorem OK.unblockResultFile {fuel : Nat} (h : OK s) {t : Retrievals}
    (hg : Op.balances s (.unblockResultFile d)) (hst : step fuel s (.unblockResultFile d) = some t) :
    OK t := by
  simp only [step] at hst
  split at hst
  swap
  · cases hst
  next hr =>
  simp only [Option.some.injEq] at hst
  subst hst
  have hcount : s.retrieved.count d = (s.retrieved.erase d).count d + 1 := by
    have := List.count_pos_iff.mpr hr
    rw [List.count_erase_self]
    omega
  have hne : ∀ e, e ≠ d → (s.retrieved.erase d).count e = s.retrieved.count e :=
    fun e he => List.count_erase_of_ne he
  cases hd : s.provider.idToData d with
  | none =>
    have hraise : Java.final (DataInfoProvider.unblockDataId d s.provider) = s.provider := by
      simp [DataInfoProvider.unblockDataId, Java.bind_run, DataInfoProvider.onData, hd]
    rw [hraise]
    refine ⟨{ h.sound with data := fun e ei he => ?_ }, fun e he => h.bounded e (List.mem_of_mem_erase he)⟩
    have hed : e ≠ d := by rintro rfl; exact absurd (hd.symm.trans he) (by simp)
    simp only [hne e hed]
    exact h.sound.data e ei he
  | some di =>
    rw [unblockDataId_final hd]
    refine h.setData hd (fun hdi => ?_) hne fun e he => .inr (List.mem_of_mem_erase he)
    rw [hcount] at hdi
    exact hdi.unblockDeletions fun h0 => hg (by rw [hcount, h0]) di hd

/-- `checkResultFileTransfer` after an answer that is no exception. -/
theorem final_checkResultFileTransfer {fuel : Nat} {env : TransferEnv} {p p' : DataInfoProvider}
    {file : Option DataInstanceId}
    (hrun : DataInfoProvider.blockDataAndGetResultFile env fuel d p = .ok file p')
    (hd : p'.idToData d = some di) : Java.final (checkResultFileTransfer env fuel d p) =
      p'.setData d (Java.final (DataInfo.unblockDeletions di)) := by
  rw [checkResultFileTransfer, Java.final_tryCatch_pure, Java.bind_ok hrun, unblockDataId_final hd]

theorem final_checkResultFileTransfer_error {fuel : Nat} {env : TransferEnv} {p p' : DataInfoProvider}
    {e : Raised} (hrun : DataInfoProvider.blockDataAndGetResultFile env fuel d p = .error e p') :
    Java.final (checkResultFileTransfer env fuel d p) = p' := by
  rw [checkResultFileTransfer, Java.final_tryCatch_pure, Java.bind_error hrun, Java.final_error]

theorem OK.checkResultFileTransfer {fuel : Nat} (hfuel : 0 < fuel) (h : OK s) {env : TransferEnv}
    {t : Retrievals} (hg : Op.balances s (.checkResultFileTransfer env d))
    (hst : step fuel s (.checkResultFileTransfer env d) = some t) : OK t := by
  simp only [step, Option.some.injEq] at hst
  subst hst
  simp only [Op.balances, List.mem_cons, List.not_mem_nil, or_false, not_or] at hg
  rcases blockDataAndGetResultFile_run env hfuel (h.currentExists d) with
    ⟨-, hd, hrun⟩ | ⟨di, hd, ⟨-, e, hrun⟩ | ⟨ho, -⟩ | ⟨ho, -⟩ | ⟨ho, -⟩ | ⟨-, hrun⟩⟩
  · have hraise : Java.final (Retrievals.checkResultFileTransfer env fuel d s.provider) = s.provider := by
      rw [Retrievals.checkResultFileTransfer, Java.final_tryCatch_pure, Java.bind_ok hrun]
      simp [DataInfoProvider.unblockDataId, Java.bind_run, DataInfoProvider.onData, hd]
    rw [hraise]
    exact h
  · rw [final_checkResultFileTransfer_error hrun]
    exact h
  · exact absurd ho hg.1
  · exact absurd ho hg.2.1
  · exact absurd ho hg.2.2
  · rw [final_checkResultFileTransfer hrun (DataInfoProvider.setData_self ..),
      DataInfoProvider.setData_setData]
    refine h.setData_same hd fun hdi => hdi.blocked.unblockDeletions fun h0 => ?_
    refine (flushes_blocks di _ di.pendingDeletions []).mpr (flushes_of_deleted _ _ fun v hv => ?_)
    exact (hdi.deleted_iff v).mpr (hdi.released h0 v hv)

theorem OK.step {fuel : Nat} (hfuel : 0 < fuel) {t : Retrievals} {op : Op} (h : OK s) (hg : op.balances s)
    (hst : step fuel s op = some t) : OK t := by
  cases op with
  | request r =>
    simp only [Retrievals.step, Option.map_eq_some_iff] at hst
    obtain ⟨l, hl, rfl⟩ := hst
    exact h.request hl
  | getResultFile env d => exact h.getResultFile hfuel hg hst
  | unblockResultFile d => exact h.unblockResultFile hg hst
  | checkResultFileTransfer env d => exact h.checkResultFileTransfer hfuel hg hst

/-- A block too many or one too few is off the count at once. -/
theorem OK.not_balanced_of_blocks (h : OK s) (hd : s.provider.idToData d = some di)
    (hb : di'.deletionBlocks ≠ di.deletionBlocks) : ¬ Balanced (s.setProvider (s.provider.setData d di')) := by
  intro hbal
  have hc : di'.deletionBlocks = s.retrieved.count d := hbal.counted d di' (DataInfoProvider.setData_self ..)
  have hblocks := (h.sound.data d di hd).blocks
  exact hb (hc.trans hblocks.symm)

theorem blocked_ne (di : DataInfo) : (blocked di).deletionBlocks ≠ di.deletionBlocks := by
  simp only [blocked]; omega

theorem OK.not_balanced {fuel : Nat} (hfuel : 0 < fuel) {t : Retrievals} {op : Op} (h : OK s)
    (hg : ¬ op.balances s) (hst : Retrievals.step fuel s op = some t) : ¬ Balanced t := by
  cases op with
  | request r => exact absurd trivial hg
  | getResultFile env d =>
    simp only [Op.balances, not_not] at hg
    rcases blockDataAndGetResultFile_run env hfuel (h.currentExists d) with
      ⟨ho, -⟩ | ⟨di, hd, ⟨ho, -⟩ | ⟨ho, -⟩ | ⟨ho, -⟩ | ⟨-, hrun⟩ | ⟨ho, -⟩⟩ <;>
      try (rw [ho] at hg; cases hg)
    simp only [Retrievals.step, hrun, Option.some.injEq] at hst
    subst hst
    exact h.not_balanced_of_blocks hd (blocked_ne di)
  | unblockResultFile d =>
    simp only [Op.balances, Classical.not_imp, not_forall] at hg
    obtain ⟨hcount, di, hd, hflush⟩ := hg
    simp only [Retrievals.step] at hst
    split at hst
    swap
    · cases hst
    simp only [Option.some.injEq] at hst
    subst hst
    rw [unblockDataId_final hd]
    intro hbal
    have hdi := h.sound.data d di hd
    rw [hcount] at hdi
    refine hflush (hdi.unblockDeletions_iff.mp fun v hv => ?_)
    have hnot : d ∉ s.retrieved.erase d := by
      rw [← List.count_eq_zero, List.count_erase_self, hcount]
    rw [← (deletionBlocks_unblockDeletions hdi.toTableOK).2] at hv
    exact (hbal.deleted d _ (DataInfoProvider.setData_self ..) hnot v hv).1
  | checkResultFileTransfer env d =>
    simp only [Op.balances, not_not] at hg
    simp only [Retrievals.step, Option.some.injEq] at hst
    subst hst
    rcases blockDataAndGetResultFile_run env hfuel (h.currentExists d) with
      ⟨ho, -⟩ | ⟨di, hd, ⟨ho, -⟩ | ⟨-, hrun⟩ | ⟨-, hrun⟩ | ⟨-, hrun⟩ | ⟨ho, -⟩⟩ <;>
      try (rw [ho] at hg; simp at hg)
    · have hT := (h.sound.data d di hd).toTableOK
      obtain ⟨b, di', hrun', -⟩ := hT.delete_run
      rw [Java.bind_ok (DataInfoProvider.onData_ok hd hrun')] at hrun
      have hblocks : di'.deletionBlocks = di.deletionBlocks := by
        have := deletionBlocks_delete hT
        rwa [hrun', Java.final_ok] at this
      have hT' := hT.delete
      rw [hrun', Java.final_ok] at hT'
      rw [final_checkResultFileTransfer hrun (DataInfoProvider.setData_self ..),
        DataInfoProvider.setData_setData]
      refine h.not_balanced_of_blocks hd ?_
      rw [(deletionBlocks_unblockDeletions hT').1]
      omega
    · rw [final_checkResultFileTransfer hrun hd]
      refine h.not_balanced_of_blocks hd ?_
      rw [(deletionBlocks_unblockDeletions (h.sound.data d di hd).toTableOK).1]
      omega
    · rw [final_checkResultFileTransfer_error hrun]
      exact h.not_balanced_of_blocks hd (blocked_ne di)

end

/-- **The deletion blocks.** They stay balanced all along a run of requests
and retrievals exactly when no retrieval of the run discards a result before
it blocks and unblocks all the same, no order of a copy raises, and no last
unblock meets a gone version before one that is still to be deleted. -/
theorem balanced_iff_balances {fuel : Nat} (hfuel : 0 < fuel) (ops : List Op) :
    Always (step fuel) Balanced init ops ↔ Along (step fuel) (fun s op => op.balances s) init ops :=
  always_iff_along (fun _ => OK.balanced) (fun _ _ _ h hg hst => h.step hfuel hg hst)
    (fun _ _ _ h hg hst => h.not_balanced hfuel hg hst) OK.init

/-- A retrieval that runs its whole course: written, got and unblocked. -/
theorem balanced_iff_balances_retrieved : 0 < 1 ∧
    (Always (step 1) Balanced init
        [.request (.register .W (.file ⟨"f", "/tmp/f"⟩)),
          .getResultFile ⟨fun _ => false, fun _ => false⟩ 1, .unblockResultFile 1] ↔
      Along (step 1) (fun s op => op.balances s) init
        [.request (.register .W (.file ⟨"f", "/tmp/f"⟩)),
          .getResultFile ⟨fun _ => false, fun _ => false⟩ 1, .unblockResultFile 1]) :=
  ⟨by decide, balanced_iff_balances (by decide) _⟩

/-- A task ends that wrote an object serialized by a binding: its result is
discarded before the block, and unblocked. -/
theorem serialized_result_unblocked : ¬ Always (step 1) Balanced init
    [.request (.register .W (.file ⟨"o", "/tmp/compss-serialized-obj_1"⟩)),
      .checkResultFileTransfer ⟨fun _ => false, fun _ => false⟩ 1] := by
  intro h
  have hb := (h.2 _ rfl).2 _ rfl
  have hblocks := hb.counted 1 _ rfl
  revert hblocks
  decide

end Retrievals

end Compss
