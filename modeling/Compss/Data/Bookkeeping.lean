/-
The accesses outstanding on the data of a provider, and the versions they
name.

A `Ledger` is a provider with the access ids it has given out and nobody has
reported yet. Its requests are the operations of the claim on version
bookkeeping: register an access, report an outstanding one, delete a file, and
(`Op`) block and unblock the deletions of a datum.

Every access that registers a read increments the readers of the current
version, in the table or not. So the bookkeeping is exact as long as no read
is registered of a current version the table has lost, and it is off from the
first such access on (`balanced_iff`).
-/
import Compss.Lib.Run
import Compss.Data.DataInfoProvider
import Compss.Data.VersionTable

namespace Compss

open Lib DataInfo

/-- What an access is registered on. -/
inductive DataRef
  | file (loc : DataLocation)
  | object (code : Int)
  deriving DecidableEq, Repr

structure Ledger where
  provider : DataInfoProvider
  /-- Registered and not reported. -/
  outstanding : List DataAccessId

namespace Ledger

def init : Ledger := ⟨DataInfoProvider.init, []⟩

inductive Request
  | register (mode : AccessMode) (ref : DataRef)
  | accessed (id : DataAccessId)
  | delete (loc : DataLocation)

inductive Op
  | request (r : Request)
  | block (dataId : Nat)
  | unblock (dataId : Nat)

def registerAccess (mode : AccessMode) : DataRef → DataInfoProvider.M DataAccessId
  | .file loc => DataInfoProvider.registerFileAccess mode loc
  | .object code => DataInfoProvider.registerObjectAccess mode code

/-- Only an outstanding access is reported, and once: also a report that
raises has been made. -/
def request (s : Ledger) : Request → Option Ledger
  | .register mode ref =>
    match registerAccess mode ref s.provider with
    | .ok id p => some ⟨p, id :: s.outstanding⟩
    | .error _ p => some { s with provider := p }
  | .accessed id =>
    if id ∈ s.outstanding then
      some ⟨Java.final (DataInfoProvider.dataHasBeenAccessed id s.provider), s.outstanding.erase id⟩
    else none
  | .delete loc => some { s with provider := Java.final (DataInfoProvider.deleteData loc s.provider) }

def step (s : Ledger) : Op → Option Ledger
  | .request r => s.request r
  | .block d => some { s with provider := Java.final (DataInfoProvider.blockDataId d s.provider) }
  | .unblock d => some { s with provider := Java.final (DataInfoProvider.unblockDataId d s.provider) }

/-- The outstanding reads of version `v` of datum `d`. -/
def readersOf (out : List DataAccessId) (d v : Nat) : Nat := out.countP (·.readsVersion d v)

/-- The outstanding writes of version `v` of datum `d`. -/
def writersOf (out : List DataAccessId) (d v : Nat) : Nat := out.countP (·.writesVersion d v)

/-- The datum behind a name or an object code, once it has been accessed. -/
def dataOf (p : DataInfoProvider) : DataRef → Option Nat
  | .file loc => p.nameToId loc.locationKey
  | .object code => p.codeToId code

/-- The datum is known and its current version is in the table no more. -/
def lostCurrent (p : DataInfoProvider) (ref : DataRef) : Bool :=
  match (dataOf p ref).bind p.idToData with
  | none => false
  | some di => decide (di.currentVersionId ∉ di.versions)

/-- The request reads no current version the table has lost. -/
def Request.readsTable (s : Ledger) : Request → Prop
  | .register .W _ => True
  | .register _ ref => lostCurrent s.provider ref = false
  | .accessed _ | .delete _ => True

def Op.readsTable (s : Ledger) : Op → Prop
  | .request r => r.readsTable s
  | .block _ | .unblock _ => True

/-- The bookkeeping of the versions is exact. -/
structure Balanced (s : Ledger) : Prop where
  /-- The outstanding accesses name versions of the table. -/
  present : ∀ id ∈ s.outstanding, ∃ di, s.provider.idToData id.dataId = some di ∧
    (∀ v, id.readVersion = some v → v ∈ di.versions) ∧
    ∀ v, id.writtenVersion = some v → v ∈ di.versions
  counts : ∀ d di, s.provider.idToData d = some di → ∀ v, 1 ≤ v → v ≤ di.currentVersionId →
    (di.object v).readers = readersOf s.outstanding d v ∧
    (di.object v).writters = writersOf s.outstanding d v
  /-- A version is gone from the table and from `Comm` only when it is marked
  and nobody is to read or write it. -/
  removed : ∀ d di, s.provider.idToData d = some di → ∀ v, 1 ≤ v → v ≤ di.currentVersionId →
    (v ∉ di.versions ∨ di.registered v = false) →
    (di.object v).toDelete = true ∧ readersOf s.outstanding d v = 0 ∧ writersOf s.outstanding d v = 0

/-! ## The counts of the outstanding accesses -/

section
variable {out : List DataAccessId} {a : DataAccessId} {d : Nat}

theorem readersOf_cons_of_eq {v : Nat} (hd : a.dataId = d) (hv : a.readVersion = some v) :
    readersOf (a :: out) d = inc (readersOf out d) v := by
  funext w
  rw [inc_apply, readersOf, List.countP_cons, DataAccessId.readsVersion, hd, hv]
  by_cases h : w = v
  · subst h; simp [readersOf]
  · simp [readersOf, h, Ne.symm h]

theorem readersOf_cons_of_ne (h : a.dataId ≠ d ∨ a.readVersion = none) :
    readersOf (a :: out) d = readersOf out d := by
  funext w
  rw [readersOf, List.countP_cons, DataAccessId.readsVersion]
  rcases h with h | h <;> simp [readersOf, h]

theorem writersOf_cons_of_eq {v : Nat} (hd : a.dataId = d) (hv : a.writtenVersion = some v) :
    writersOf (a :: out) d = inc (writersOf out d) v := by
  funext w
  rw [inc_apply, writersOf, List.countP_cons, DataAccessId.writesVersion, hd, hv]
  by_cases h : w = v
  · subst h; simp [writersOf]
  · simp [writersOf, h, Ne.symm h]

theorem writersOf_cons_of_ne (h : a.dataId ≠ d ∨ a.writtenVersion = none) :
    writersOf (a :: out) d = writersOf out d := by
  funext w
  rw [writersOf, List.countP_cons, DataAccessId.writesVersion]
  rcases h with h | h <;> simp [writersOf, h]

@[simp] theorem readersOf_R (d r : Nat) : readersOf (.R d r :: out) d = inc (readersOf out d) r :=
  readersOf_cons_of_eq rfl rfl
@[simp] theorem readersOf_W (d e w : Nat) : readersOf (.W e w :: out) d = readersOf out d :=
  readersOf_cons_of_ne (.inr rfl)
@[simp] theorem readersOf_RW (d r w : Nat) : readersOf (.RW d r w :: out) d = inc (readersOf out d) r :=
  readersOf_cons_of_eq rfl rfl
@[simp] theorem writersOf_R (d e r : Nat) : writersOf (.R e r :: out) d = writersOf out d :=
  writersOf_cons_of_ne (.inr rfl)
@[simp] theorem writersOf_W (d w : Nat) : writersOf (.W d w :: out) d = inc (writersOf out d) w :=
  writersOf_cons_of_eq rfl rfl
@[simp] theorem writersOf_RW (d r w : Nat) : writersOf (.RW d r w :: out) d = inc (writersOf out d) w :=
  writersOf_cons_of_eq rfl rfl

theorem readersOf_perm {out' : List DataAccessId} (h : out.Perm out') : readersOf out d = readersOf out' d :=
  funext fun _ => h.countP_eq _

theorem writersOf_perm {out' : List DataAccessId} (h : out.Perm out') : writersOf out d = writersOf out' d :=
  funext fun _ => h.countP_eq _

theorem readersOf_unknown {v : Nat} (h : ∀ a ∈ out, a.dataId ≠ d) : readersOf out d v = 0 :=
  List.countP_eq_zero.mpr fun a ha => by simp [DataAccessId.readsVersion, h a ha]

theorem writersOf_unknown {v : Nat} (h : ∀ a ∈ out, a.dataId ≠ d) : writersOf out d v = 0 :=
  List.countP_eq_zero.mpr fun a ha => by simp [DataAccessId.writesVersion, h a ha]

end

/-! ## Accesses of a known datum -/

/-- The access id `willAccess` answers. -/
def accessId (d : Nat) (di : DataInfo) : AccessMode → DataAccessId
  | .R => .R d di.currentVersionId
  | .W => .W d (di.currentVersionId + 1)
  | .RW => .RW d di.currentVersionId (di.currentVersionId + 1)

/-- The state it leaves the datum in. -/
def announced (di : DataInfo) : AccessMode → DataInfo
  | .R => Java.final (willBeRead di)
  | .W => Java.final (willBeWritten di)
  | .RW => Java.final (willBeWritten (Java.final (willBeRead di)))

theorem willAccess_run {p : DataInfoProvider} {d : Nat} {di : DataInfo} (hd : p.idToData d = some di)
    (mode : AccessMode) :
    DataInfoProvider.willAccess mode d p = .ok (accessId d di mode) (p.setData d (announced di mode)) := by
  cases mode <;>
    simp [DataInfoProvider.willAccess, Java.bind_run, DataInfoProvider.onData, hd, willBeRead_run,
      willBeWritten_run, accessId, announced, written]

/-- The reports of an access, on its datum. -/
def hasBeenAccessed : DataAccessId → DataInfo.M Unit
  | .R _ r => do
    let _ ← versionHasBeenRead r
  | .RW _ r w => do
    let _ ← versionHasBeenRead r
    let _ ← versionHasBeenWritten w
  | .W _ w => do
    let _ ← versionHasBeenWritten w

theorem dataHasBeenAccessed_final {p : DataInfoProvider} {id : DataAccessId} {di : DataInfo}
    (hd : p.idToData id.dataId = some di) : Java.final (DataInfoProvider.dataHasBeenAccessed id p) =
      p.setData id.dataId (Java.final (hasBeenAccessed id di)) := by
  cases id with
  | R d r =>
    simp only [DataInfoProvider.dataHasBeenAccessed, hasBeenAccessed, Java.bind_run,
      DataInfoProvider.onData, DataAccessId.dataId] at hd ⊢
    rw [hd]
    cases hr : versionHasBeenRead r di <;> simp [hr]
  | W d w =>
    simp only [DataInfoProvider.dataHasBeenAccessed, hasBeenAccessed, Java.bind_run,
      DataInfoProvider.onData, DataAccessId.dataId] at hd ⊢
    rw [hd]
    cases hw : versionHasBeenWritten w di <;> simp [hw]
  | RW d r w =>
    simp only [DataInfoProvider.dataHasBeenAccessed, hasBeenAccessed, Java.bind_run,
      DataInfoProvider.onData, DataAccessId.dataId] at hd ⊢
    rw [hd]
    cases hr : versionHasBeenRead r di with
    | error e di' => simp only [hr, Java.final_error]
    | ok b di' =>
      simp only [hr, DataInfoProvider.setData_self]
      cases versionHasBeenWritten w di' <;> simp

section
variable {T : (Nat → Nat) → (Nat → Nat) → DataInfo → Prop} {ok : DataInfo → Prop} (hT : TableInvariant T ok)
include hT

theorem announced_keeps {out : List DataAccessId} {d : Nat} {di : DataInfo}
    (h : T (readersOf out d) (writersOf out d) di) {mode : AccessMode} (hok : mode = .W ∨ ok di) :
    T (readersOf (accessId d di mode :: out) d) (writersOf (accessId d di mode :: out) d)
      (announced di mode) := by
  cases mode with
  | R =>
    simp only [accessId, readersOf_R, writersOf_R]
    exact hT.willBeRead h (by simpa using hok)
  | W =>
    simp only [accessId, readersOf_W, writersOf_W]
    exact hT.willBeWritten h
  | RW =>
    simp only [accessId, readersOf_RW, writersOf_RW]
    exact hT.willBeWritten (hT.willBeRead h (by simpa using hok))

theorem hasBeenAccessed_keeps {out : List DataAccessId} {id : DataAccessId} {di : DataInfo}
    (h : T (readersOf (id :: out) id.dataId) (writersOf (id :: out) id.dataId) di) :
    T (readersOf out id.dataId) (writersOf out id.dataId) (Java.final (hasBeenAccessed id di)) := by
  cases id with
  | R d r =>
    simp only [DataAccessId.dataId, readersOf_R, writersOf_R] at h ⊢
    have := hT.versionHasBeenRead h
    rw [hasBeenAccessed, Java.bind_run]
    cases hrun : versionHasBeenRead r di <;> rw [hrun] at this <;> exact this
  | W d w =>
    simp only [DataAccessId.dataId, readersOf_W, writersOf_W] at h ⊢
    have := hT.versionHasBeenWritten h
    rw [hasBeenAccessed, Java.bind_run]
    cases hrun : versionHasBeenWritten w di <;> rw [hrun] at this <;> exact this
  | RW d r w =>
    simp only [DataAccessId.dataId, readersOf_RW, writersOf_RW] at h ⊢
    have hread := hT.versionHasBeenRead h
    rw [hasBeenAccessed, Java.bind_run]
    cases hrun : versionHasBeenRead r di with
    | error e di' =>
      obtain rfl := (hT.tableOK h).versionAccessed_raises hrun
      exact hT.unwritten h hrun
    | ok b di' =>
      rw [hrun] at hread
      have := hT.versionHasBeenWritten hread
      change T _ _ (Java.final ((versionHasBeenWritten w >>= fun _ => pure ()) di'))
      rw [Java.final_ok] at this
      rw [Java.bind_run]
      cases hrun' : versionHasBeenWritten w di' <;> rw [hrun'] at this <;> exact this

end

/-! ## Ledgers whose tables keep an invariant -/

/-- Every table keeps the invariant `T d` of its datum. -/
structure Sound (T : Nat → (Nat → Nat) → (Nat → Nat) → DataInfo → Prop) (s : Ledger) : Prop where
  data : ∀ d di, s.provider.idToData d = some di →
    T d (readersOf s.outstanding d) (writersOf s.outstanding d) di
  known : ∀ a ∈ s.outstanding, ∃ di, s.provider.idToData a.dataId = some di
  fresh : ∀ d, s.provider.nextDataId ≤ d → s.provider.idToData d = none
  named : ∀ ref d, dataOf s.provider ref = some d → ∃ di, s.provider.idToData d = some di

theorem Sound.init (T : Nat → (Nat → Nat) → (Nat → Nat) → DataInfo → Prop) : Sound T init where
  data := by simp [Ledger.init, DataInfoProvider.init]
  known := by simp [Ledger.init]
  fresh := by simp [Ledger.init, DataInfoProvider.init]
  named ref d h := by cases ref <;> simp [Ledger.init, DataInfoProvider.init, dataOf] at h

/-- A call on one datum that leaves its table right for the new counts. -/
theorem Sound.setData {T T' s} (h : Sound T s) {d : Nat} {di di' : DataInfo} {out : List DataAccessId}
    (hd : s.provider.idToData d = some di) (hT : T' d (readersOf out d) (writersOf out d) di')
    (hne : ∀ e ei, e ≠ d → T e (readersOf s.outstanding e) (writersOf s.outstanding e) ei →
      T' e (readersOf out e) (writersOf out e) ei)
    (hout : ∀ a ∈ out, a.dataId = d ∨ a ∈ s.outstanding) : Sound T' ⟨s.provider.setData d di', out⟩ where
  data e ei he := by
    by_cases hed : e = d
    · subst hed
      rw [DataInfoProvider.setData_self] at he
      cases he
      exact hT
    · rw [DataInfoProvider.setData_ne _ _ _ hed] at he
      exact hne e ei hed (h.data e ei he)
  known a ha := by
    by_cases hed : a.dataId = d
    · exact ⟨di', by rw [hed]; exact DataInfoProvider.setData_self ..⟩
    · obtain ⟨ei, he⟩ := h.known a ((hout a ha).resolve_left hed)
      exact ⟨ei, by rw [DataInfoProvider.setData_ne _ _ _ hed]; exact he⟩
  fresh e he := by
    have hed : e ≠ d := by
      rintro rfl
      rw [h.fresh e he] at hd
      cases hd
    rw [DataInfoProvider.setData_ne _ _ _ hed]
    exact h.fresh e he
  named ref e he := by
    have he' : dataOf s.provider ref = some e := by cases ref <;> exact he
    obtain ⟨ei, hei⟩ := h.named ref e he'
    by_cases hed : e = d
    · exact ⟨di', by rw [hed]; exact DataInfoProvider.setData_self ..⟩
    · exact ⟨ei, by rw [DataInfoProvider.setData_ne _ _ _ hed]; exact hei⟩

/-- The ledger after the first access to `ref` made its datum. -/
def withNewData (p : DataInfoProvider) : DataRef → DataInfoProvider
  | .file loc =>
    { p.setData p.nextDataId (DataInfo.new (some loc)) with
      nextDataId := p.nextDataId + 1,
      nameToId := Function.update p.nameToId loc.locationKey (some p.nextDataId) }
  | .object code =>
    { p.setData p.nextDataId (DataInfo.new none) with
      nextDataId := p.nextDataId + 1,
      codeToId := Function.update p.codeToId code (some p.nextDataId) }

theorem registerAccess_known {p : DataInfoProvider} {ref : DataRef} {d : Nat} (h : dataOf p ref = some d)
    (mode : AccessMode) : registerAccess mode ref p = DataInfoProvider.willAccess mode d p := by
  cases ref with
  | file loc =>
    simp only [dataOf] at h
    simp [registerAccess, DataInfoProvider.registerFileAccess, DataInfoProvider.fileId, Java.bind_run, h]
  | object code =>
    simp only [dataOf] at h
    simp [registerAccess, DataInfoProvider.registerObjectAccess, DataInfoProvider.objectId, Java.bind_run, h]

theorem registerAccess_new {p : DataInfoProvider} {ref : DataRef} (h : dataOf p ref = none)
    (mode : AccessMode) :
    registerAccess mode ref p = DataInfoProvider.willAccess mode p.nextDataId (withNewData p ref) := by
  cases ref with
  | file loc =>
    simp only [dataOf] at h
    simp [registerAccess, DataInfoProvider.registerFileAccess, DataInfoProvider.fileId,
      DataInfoProvider.newData, Java.bind_run, h, withNewData]
  | object code =>
    simp only [dataOf] at h
    simp [registerAccess, DataInfoProvider.registerObjectAccess, DataInfoProvider.objectId,
      DataInfoProvider.newData, Java.bind_run, h, withNewData]

theorem withNewData_self (p : DataInfoProvider) (ref : DataRef) :
    ∃ loc, (withNewData p ref).idToData p.nextDataId = some (DataInfo.new loc) := by
  cases ref with
  | file loc => exact ⟨some loc, DataInfoProvider.setData_self ..⟩
  | object code => exact ⟨none, DataInfoProvider.setData_self ..⟩

theorem withNewData_ne (p : DataInfoProvider) (ref : DataRef) {d : Nat} (hd : d ≠ p.nextDataId) :
    (withNewData p ref).idToData d = p.idToData d := by
  cases ref <;> exact DataInfoProvider.setData_ne _ _ _ hd

@[simp] theorem withNewData_nextDataId (p : DataInfoProvider) (ref : DataRef) :
    (withNewData p ref).nextDataId = p.nextDataId + 1 := by cases ref <;> rfl

theorem dataOf_withNewData {p : DataInfoProvider} {ref ref' : DataRef} {d : Nat}
    (h : dataOf (withNewData p ref) ref' = some d) : d = p.nextDataId ∨ dataOf p ref' = some d := by
  cases ref <;> cases ref' <;> simp only [dataOf, withNewData, Function.update_apply,
    DataInfoProvider.setData_nameToId, DataInfoProvider.setData_codeToId] at h ⊢ <;>
    first
      | exact .inr h
      | (split at h
         · cases h; exact .inl rfl
         · exact .inr h)

section
variable {T : Nat → (Nat → Nat) → (Nat → Nat) → DataInfo → Prop} {ok : DataInfo → Prop} {s t : Ledger}

theorem Sound.withNewData (h : Sound T s)
    (hnew : ∀ loc, T s.provider.nextDataId (fun _ => 0) (fun _ => 0) (DataInfo.new loc)) (ref : DataRef) :
    Sound T { s with provider := withNewData s.provider ref } where
  data d di hd := by
    by_cases hn : d = s.provider.nextDataId
    · subst hn
      obtain ⟨loc, hloc⟩ := withNewData_self s.provider ref
      rw [hloc] at hd
      cases hd
      have hno : ∀ a ∈ s.outstanding, a.dataId ≠ s.provider.nextDataId := by
        rintro a ha he
        obtain ⟨di, hdi⟩ := h.known a ha
        rw [he, h.fresh _ (Nat.le_refl _)] at hdi
        cases hdi
      have hr : readersOf s.outstanding s.provider.nextDataId = fun _ => 0 :=
        funext fun _ => readersOf_unknown hno
      have hw : writersOf s.outstanding s.provider.nextDataId = fun _ => 0 :=
        funext fun _ => writersOf_unknown hno
      rw [hr, hw]
      exact hnew loc
    · rw [withNewData_ne _ _ hn] at hd
      exact h.data d di hd
  known a ha := by
    obtain ⟨di, hdi⟩ := h.known a ha
    have hn : a.dataId ≠ s.provider.nextDataId := by
      intro he
      rw [he, h.fresh _ (Nat.le_refl _)] at hdi
      cases hdi
    exact ⟨di, by rw [withNewData_ne _ _ hn]; exact hdi⟩
  fresh d hd := by
    rw [withNewData_nextDataId] at hd
    rw [withNewData_ne _ _ (by omega)]
    exact h.fresh d (by omega)
  named ref' d hd := by
    rcases dataOf_withNewData hd with rfl | hd
    · obtain ⟨loc, hloc⟩ := withNewData_self s.provider ref
      exact ⟨_, hloc⟩
    · obtain ⟨di, hdi⟩ := h.named ref' d hd
      have hn : d ≠ s.provider.nextDataId := by
        rintro rfl
        rw [h.fresh _ (Nat.le_refl _)] at hdi
        cases hdi
      exact ⟨di, by rw [withNewData_ne _ _ hn]; exact hdi⟩

variable (hT : ∀ d, TableInvariant (T d) ok)
include hT

/-- `willAccess` on a known datum. -/
theorem Sound.willAccess (h : Sound T s) {d : Nat} {di : DataInfo} (hd : s.provider.idToData d = some di)
    {mode : AccessMode} (hok : mode = .W ∨ ok di) :
    Sound T ⟨s.provider.setData d (announced di mode), accessId d di mode :: s.outstanding⟩ := by
  have hid : (accessId d di mode).dataId = d := by cases mode <;> rfl
  refine h.setData hd (announced_keeps (hT d) (h.data d di hd) hok) ?_ ?_
  · intro e ei he hei
    have hne : (accessId d di mode).dataId ≠ e := by rw [hid]; exact he.symm
    rw [readersOf_cons_of_ne (.inl hne), writersOf_cons_of_ne (.inl hne)]
    exact hei
  · intro a ha
    rcases List.mem_cons.mp ha with rfl | ha
    · exact .inl hid
    · exact .inr ha

theorem Sound.accessed (h : Sound T s) {id : DataAccessId} (hid : id ∈ s.outstanding) :
    Sound T ⟨Java.final (DataInfoProvider.dataHasBeenAccessed id s.provider), s.outstanding.erase id⟩ := by
  obtain ⟨di, hd⟩ := h.known id hid
  have hperm := List.perm_cons_erase hid
  rw [dataHasBeenAccessed_final hd]
  refine h.setData hd (hasBeenAccessed_keeps (hT id.dataId) ?_) ?_
    fun a ha => .inr (List.mem_of_mem_erase ha)
  · rw [← readersOf_perm hperm, ← writersOf_perm hperm]
    exact h.data _ di hd
  · intro e ei he hei
    rw [readersOf_perm hperm, writersOf_perm hperm, readersOf_cons_of_ne (.inl he.symm),
      writersOf_cons_of_ne (.inl he.symm)] at hei
    exact hei

omit hT in
/-- A method that keeps the invariant of a table, called on any datum. -/
theorem Sound.onData (h : Sound T s) (d : Nat) {α : Type} {x : DataInfo.M α}
    (hx : ∀ R W di, T d R W di → T d R W (Java.final (x di))) :
    Sound T { s with provider := Java.final (DataInfoProvider.onData d x s.provider) } := by
  cases hd : s.provider.idToData d with
  | none => simpa [DataInfoProvider.onData, hd] using h
  | some di =>
    rw [DataInfoProvider.onData_final x hd]
    exact h.setData hd (hx _ _ di (h.data d di hd)) (fun _ _ _ hei => hei) fun _ ha => .inr ha

theorem Sound.deleteData (h : Sound T s) (loc : DataLocation) :
    Sound T { s with provider := Java.final (DataInfoProvider.deleteData loc s.provider) } := by
  cases hn : s.provider.nameToId loc.locationKey with
  | none => simpa [DataInfoProvider.deleteData, Java.bind_run, hn] using h
  | some d =>
    have hdel := h.onData d (x := DataInfo.delete) fun _ _ _ hdi => (hT d).delete hdi
    simp only [DataInfoProvider.deleteData, Java.bind_run, Java.get_run, hn]
    cases hr : DataInfoProvider.onData d DataInfo.delete s.provider <;> rw [hr] at hdel <;> exact hdel

/-- A request keeps a sound ledger, if the reads it registers are allowed. -/
theorem Sound.request (h : Sound T s) {r : Request}
    (hnew : ∀ loc, T s.provider.nextDataId (fun _ => 0) (fun _ => 0) (DataInfo.new loc))
    (hok : ∀ mode ref, r = .register mode ref → mode = .W ∨
      ∀ d di, dataOf s.provider ref = some d → s.provider.idToData d = some di → ok di)
    (hst : s.request r = some t) : Sound T t := by
  cases r with
  | register mode ref =>
    cases hd : dataOf s.provider ref with
    | none =>
      obtain ⟨loc, hloc⟩ := withNewData_self s.provider ref
      have h' := h.withNewData hnew ref
      simp only [Ledger.request, registerAccess_new hd, willAccess_run hloc, Option.some.injEq] at hst
      subst hst
      exact h'.willAccess hT hloc (.inr ((hT 0).ok_new loc))
    | some d =>
      obtain ⟨di, hdi⟩ := h.named ref d hd
      simp only [Ledger.request, registerAccess_known hd, willAccess_run hdi, Option.some.injEq] at hst
      subst hst
      exact h.willAccess hT hdi ((hok mode ref rfl).imp_right fun ho => ho d di hd hdi)
  | accessed id =>
    simp only [Ledger.request] at hst
    split at hst
    · next hid => cases hst; exact h.accessed hT hid
    · cases hst
  | delete loc =>
    cases hst
    exact h.deleteData hT loc

end

/-! ## Data ids are not taken back -/

section
open DataInfoProvider
variable (n : Nat)

theorem keeps_nextDataId_onData {α : Type} (d : Nat) (x : DataInfo.M α) :
    Java.Keeps (fun p : DataInfoProvider => n ≤ p.nextDataId) (onData d x) := by
  intro p hp
  cases hd : p.idToData d with
  | none => simpa [onData, hd] using hp
  | some di => rw [onData_final x hd]; exact hp

theorem keeps_nextDataId_newData (loc : Option DataLocation) :
    Java.Keeps (fun p : DataInfoProvider => n ≤ p.nextDataId) (newData loc) := by
  intro p hp
  exact Nat.le_succ_of_le hp

theorem keeps_nextDataId_willAccess (mode : AccessMode) (d : Nat) :
    Java.Keeps (fun p : DataInfoProvider => n ≤ p.nextDataId) (willAccess mode d) := by
  cases mode with
  | R | W =>
    exact (keeps_nextDataId_onData n d _).bind fun _ =>
      (keeps_nextDataId_onData n d _).bind fun _ => Java.Keeps.pure _
  | RW =>
    exact (keeps_nextDataId_onData n d _).bind fun _ => (keeps_nextDataId_onData n d _).bind fun _ =>
      (keeps_nextDataId_onData n d _).bind fun _ => (keeps_nextDataId_onData n d _).bind fun _ =>
        Java.Keeps.pure _

theorem keeps_nextDataId_registerAccess (mode : AccessMode) (ref : DataRef) :
    Java.Keeps (fun p : DataInfoProvider => n ≤ p.nextDataId) (registerAccess mode ref) := by
  cases ref with
  | file loc =>
    refine Java.Keeps.bind (Java.Keeps.bind Java.Keeps.get fun p => ?_) fun d =>
      keeps_nextDataId_willAccess n mode d
    cases p.nameToId loc.locationKey with
    | some d => exact Java.Keeps.pure d
    | none =>
      exact (keeps_nextDataId_newData n _).bind fun d _ hp => hp
  | object code =>
    refine Java.Keeps.bind (Java.Keeps.bind Java.Keeps.get fun p => ?_) fun d =>
      keeps_nextDataId_willAccess n mode d
    cases p.codeToId code with
    | some d => exact Java.Keeps.pure d
    | none =>
      exact (keeps_nextDataId_newData n _).bind fun d _ hp => hp

theorem request_nextDataId {s t : Ledger} {r : Request} (hst : s.request r = some t) :
    s.provider.nextDataId ≤ t.provider.nextDataId := by
  have hle := Nat.le_refl s.provider.nextDataId
  cases r with
  | register mode ref =>
    have h := keeps_nextDataId_registerAccess s.provider.nextDataId mode ref s.provider hle
    simp only [request] at hst
    cases hr : registerAccess mode ref s.provider <;> simp only [hr, Option.some.injEq] at hst h <;>
      (subst hst; exact h)
  | accessed id =>
    have h : Java.Keeps (fun p : DataInfoProvider => s.provider.nextDataId ≤ p.nextDataId)
        (dataHasBeenAccessed id) := by
      cases id with
      | R d r => exact (keeps_nextDataId_onData _ d _).bind fun _ => Java.Keeps.pure _
      | W d w => exact (keeps_nextDataId_onData _ d _).bind fun _ => Java.Keeps.pure _
      | RW d r w =>
        exact (keeps_nextDataId_onData _ d _).bind fun _ =>
          (keeps_nextDataId_onData _ d _).bind fun _ => Java.Keeps.pure _
    simp only [request] at hst
    split at hst
    · cases hst; exact h s.provider hle
    · cases hst
  | delete loc =>
    have h : Java.Keeps (fun p : DataInfoProvider => s.provider.nextDataId ≤ p.nextDataId)
        (deleteData loc) := by
      refine Java.Keeps.bind Java.Keeps.get fun p => ?_
      cases p.nameToId loc.locationKey with
      | none => exact Java.Keeps.pure _
      | some d => exact (keeps_nextDataId_onData _ d _).bind fun _ => Java.Keeps.pure _
    cases hst
    exact h s.provider hle

end

theorem lostCurrent_eq_false {p : DataInfoProvider} {ref : DataRef} (h : lostCurrent p ref = false)
    (d : Nat) (di : DataInfo) (hd : dataOf p ref = some d) (hdi : p.idToData d = some di) :
    di.currentVersionId ∈ di.versions := by
  simpa [lostCurrent, hd, hdi] using h

/-! ## The bookkeeping over whole runs -/

theorem balanced_of_sound {s : Ledger} (h : Sound (fun _ => Kept) s) : Balanced s where
  present id hid := by
    obtain ⟨di, hdi⟩ := h.known id hid
    have hk := h.data _ di hdi
    refine ⟨di, hdi, fun v hv => ?_, fun v hv => ?_⟩
    · refine hk.present v (Nat.add_pos_left (List.countP_pos_iff.mpr ⟨id, hid, ?_⟩) _)
      simp [DataAccessId.readsVersion, hv]
    · refine hk.present v (Nat.add_pos_right _ (List.countP_pos_iff.mpr ⟨id, hid, ?_⟩))
      simp [DataAccessId.writesVersion, hv]
  counts d di hdi := (h.data d di hdi).counts
  removed d di hdi v h1 h2 hgone := by
    have hk := h.data d di hdi
    have hv : v ∉ di.versions := by
      rcases hgone with hv | hr
      · exact hv
      · rw [← hk.registered, hr]; simp
    have hp : ¬ 0 < readersOf s.outstanding d v + writersOf s.outstanding d v := fun hp =>
      hv (hk.present v hp)
    exact ⟨hk.removed v h1 h2 hv, by omega, by omega⟩

theorem Sound.step_of_readsTable {s t : Ledger} {op : Op} (h : Sound (fun _ => Kept) s) (hg : op.readsTable s)
    (hst : step s op = some t) : Sound (fun _ => Kept) t := by
  cases op with
  | request r =>
    refine h.request (fun _ => kept_invariant) Kept.new ?_ hst
    rintro mode ref rfl
    cases mode with
    | W => exact .inl rfl
    | R | RW => exact .inr (lostCurrent_eq_false hg)
  | block d =>
    cases hst
    exact h.onData d fun _ _ _ hdi => hdi.blockDeletions
  | unblock d =>
    cases hst
    have hu := h.onData d (x := unblockDeletions) fun _ _ _ hdi => hdi.unblockDeletions
    rw [DataInfoProvider.unblockDataId, Java.bind_run]
    cases hr : DataInfoProvider.onData d unblockDeletions s.provider <;> rw [hr] at hu <;> exact hu

/-- A read of a version the table has lost is outstanding at once. -/
theorem Sound.not_balanced {s t : Ledger} {op : Op} (h : Sound (fun _ => Kept) s) (hg : ¬ op.readsTable s)
    (hst : step s op = some t) : ¬ Balanced t := by
  intro hb
  cases op with
  | block d => exact hg trivial
  | unblock d => exact hg trivial
  | request r =>
    cases r with
    | accessed id => exact hg trivial
    | delete loc => exact hg trivial
    | register mode ref =>
      have hmode : mode ≠ .W := by rintro rfl; exact hg trivial
      have hlost : lostCurrent s.provider ref = true := by
        cases mode with
        | W => exact absurd rfl hmode
        | R | RW => simpa [Op.readsTable, Request.readsTable] using hg
      cases hd : dataOf s.provider ref with
      | none => simp [lostCurrent, hd] at hlost
      | some d =>
        obtain ⟨di, hdi⟩ := h.named ref d hd
        have hcur : di.currentVersionId ∉ di.versions := by simpa [lostCurrent, hd, hdi] using hlost
        simp only [step, Ledger.request, registerAccess_known hd, willAccess_run hdi,
          Option.some.injEq] at hst
        subst hst
        obtain ⟨di', hdi', hread, -⟩ := hb.present (accessId d di mode) (by simp)
        have hid : (accessId d di mode).dataId = d := by cases mode <;> rfl
        rw [hid, DataInfoProvider.setData_self] at hdi'
        cases hdi'
        cases mode with
        | W => exact hmode rfl
        | R => exact hcur (hread _ rfl)
        | RW =>
          have := hread _ rfl
          simp only [announced, willBeRead_run, willBeWritten_run, Java.final_ok, written,
            List.mem_append, List.mem_singleton] at this
          rcases this with hv | hv
          · exact hcur hv
          · simp at hv

/-- **The version bookkeeping.** It is exact all along a run of requests,
blocks and unblocks exactly when no read of the run is registered on a known
datum whose current version has left the table. -/
theorem balanced_iff_readsTable (ops : List Op) :
    Always step Balanced init ops ↔ Along step (fun s op => op.readsTable s) init ops :=
  always_iff_along (fun _ => balanced_of_sound) (fun _ _ _ h hg hst => h.step_of_readsTable hg hst)
    (fun _ _ _ h hg hst => h.not_balanced hg hst) (Sound.init _)

/-- A file is read, its only version deleted, and the file is read again: the
access id names a version that is not in the table. -/
theorem reread_after_delete : ¬ Always step Balanced init
    [.request (.register .R (.file ⟨"f", "/tmp/f"⟩)), .request (.accessed (.R 1 1)),
      .request (.delete ⟨"f", "/tmp/f"⟩), .request (.register .R (.file ⟨"f", "/tmp/f"⟩))] := by
  intro h
  have hb := (((h.2 _ rfl).2 _ rfl).2 _ rfl).2 _ rfl
  obtain ⟨di, hdi, hread, -⟩ := hb.present (.R 1 1) (by decide)
  have hmem := hread 1 rfl
  have hv : (some di.versions) = some [] := by
    have := congrArg (Option.map DataInfo.versions) hdi
    exact this.symm
  simp only [Option.some.injEq] at hv
  simp [hv] at hmem

end Ledger

end Compss
