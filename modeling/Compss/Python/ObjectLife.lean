/-
The dictionaries of the binding follow the life of the objects.
-/
import Compss.Python.Binding

namespace Compss.Python

open Lib

namespace Binding
variable {Obj : Type} [DecidableEq Obj] {s t : Binding Obj} {obj : Obj} {id : Nat}

/-- What the dictionaries say of an identifier. -/
def statusAt (s : Binding Obj) (id : Nat) : Status :=
  if s.objidToFilename id = none then .unknown
  else if s.pendingToSynchronize (.object id) ≠ none then .pending
  else if s.objsWrittenByMp id ≠ none then .returned
  else .handed

def status (s : Binding Obj) : History Obj := fun obj =>
  match s.getObjectId obj with
  | none => .unknown
  | some id => s.statusAt id

/-- Identifiers and objects belong to each other one to one, and a pending
identifier has a file. -/
structure WellFormed (s : Binding Obj) : Prop where
  lt : ∀ e ∈ s.id2obj, e.1 < s.currentId
  ids : ∀ e ∈ s.id2obj, ∀ e' ∈ s.id2obj, e.2 = e'.2 → e.1 = e'.1
  objs : ∀ e ∈ s.id2obj, ∀ e' ∈ s.id2obj, e.1 = e'.1 → e.2 = e'.2
  fresh : ∀ id, s.currentId ≤ id → s.objidToFilename id = none
  filename : ∀ id, s.pendingToSynchronize (.object id) ≠ none → s.objidToFilename id ≠ none

theorem WellFormed.init : WellFormed (init : Binding Obj) where
  lt := by simp [Binding.init]
  ids := by simp [Binding.init]
  objs := by simp [Binding.init]
  fresh _ _ := rfl
  filename _ h := absurd rfl h

/-! ## Identifiers -/

theorem mem_of_getObjectId (h : s.getObjectId obj = some id) : (id, obj) ∈ s.id2obj := by
  obtain ⟨e, he, rfl⟩ := Option.map_eq_some_iff.mp h
  have hobj : e.2 = obj := by simpa using List.find?_some he
  rw [← hobj]
  exact List.mem_of_find?_eq_some he

theorem getObjectId_eq_none : s.getObjectId obj = none ↔ ∀ e ∈ s.id2obj, e.2 ≠ obj := by
  simp [getObjectId, List.find?_eq_none]

theorem WellFormed.getObjectId (h : WellFormed s) (hmem : (id, obj) ∈ s.id2obj) : s.getObjectId obj = some id := by
  cases hid : s.getObjectId obj with
  | none => exact absurd rfl (getObjectId_eq_none.mp hid _ hmem)
  | some id' => rw [show id' = id from h.ids _ (mem_of_getObjectId hid) _ hmem rfl]

theorem WellFormed.getObjectId_inj (h : WellFormed s) {obj' : Obj} (hid : s.getObjectId obj = some id)
    (hid' : s.getObjectId obj' = some id) : obj = obj' :=
  h.objs _ (mem_of_getObjectId hid) _ (mem_of_getObjectId hid') rfl

theorem WellFormed.getObjectId_lt (h : WellFormed s) (hid : s.getObjectId obj = some id) : id < s.currentId :=
  h.lt _ (mem_of_getObjectId hid)

/-- A new entry is found after the old ones. -/
theorem getObjectId_newId (hnone : s.getObjectId obj = none) (obj' : Obj) :
    (s.newId obj).2.getObjectId obj' = if obj' = obj then some s.currentId else s.getObjectId obj' := by
  simp only [getObjectId, newId, List.find?_append]
  split
  · next he =>
    subst he
    have hf : s.id2obj.find? (fun e => decide (e.2 = obj')) = none := by simpa [getObjectId] using hnone
    simp [hf]
  · next he =>
    cases s.id2obj.find? fun e => decide (e.2 = obj') <;> simp [Ne.symm he]

theorem newId_wellFormed (h : WellFormed s) (hnone : s.getObjectId obj = none) : WellFormed (s.newId obj).2 where
  lt e he := by
    rcases List.mem_append.mp he with he | he
    · exact Nat.lt_succ_of_lt (h.lt e he)
    · obtain rfl := List.mem_singleton.mp he
      exact Nat.lt_succ_self _
  ids e he e' he' heq := by
    rcases List.mem_append.mp he with he | he <;> rcases List.mem_append.mp he' with he' | he'
    · exact h.ids e he e' he' heq
    · obtain rfl := List.mem_singleton.mp he'
      exact absurd heq (getObjectId_eq_none.mp hnone e he)
    · obtain rfl := List.mem_singleton.mp he
      exact absurd heq.symm (getObjectId_eq_none.mp hnone e' he')
    · rw [List.mem_singleton.mp he, List.mem_singleton.mp he']
  objs e he e' he' heq := by
    rcases List.mem_append.mp he with he | he <;> rcases List.mem_append.mp he' with he' | he'
    · exact h.objs e he e' he' heq
    · obtain rfl := List.mem_singleton.mp he'
      exact absurd heq (Nat.ne_of_lt (h.lt e he))
    · obtain rfl := List.mem_singleton.mp he
      exact absurd heq.symm (Nat.ne_of_lt (h.lt e' he'))
    · rw [List.mem_singleton.mp he, List.mem_singleton.mp he']
  fresh id hid := h.fresh id (Nat.le_of_succ_le hid)
  filename := h.filename

/-- `id2obj.pop(id)`. -/
def popId (s : Binding Obj) (id : Nat) : Binding Obj := { s with id2obj := s.id2obj.filter (·.1 ≠ id) }

theorem popId_wellFormed (h : WellFormed s) (id : Nat) : WellFormed (s.popId id) where
  lt e he := h.lt e ((List.mem_filter.mp he).1)
  ids e he e' he' := h.ids e ((List.mem_filter.mp he).1) e' ((List.mem_filter.mp he').1)
  objs e he e' he' := h.objs e ((List.mem_filter.mp he).1) e' ((List.mem_filter.mp he').1)
  fresh := h.fresh
  filename := h.filename

theorem getObjectId_popId (h : WellFormed s) (hid : s.getObjectId obj = some id) (obj' : Obj) :
    (s.popId id).getObjectId obj' = if obj' = obj then none else s.getObjectId obj' := by
  have hmem := mem_of_getObjectId hid
  split
  · next he =>
    subst he
    rw [getObjectId_eq_none]
    intro e he heq
    obtain ⟨hes, hne⟩ := List.mem_filter.mp he
    exact (by simpa using hne : e.1 ≠ id) (h.ids e hes _ hmem heq)
  · next hne =>
    cases hid' : s.getObjectId obj' with
    | none =>
      rw [getObjectId_eq_none] at hid' ⊢
      exact fun e he => hid' e ((List.mem_filter.mp he).1)
    | some id' =>
      refine (popId_wellFormed h id).getObjectId (List.mem_filter.mpr ⟨mem_of_getObjectId hid', ?_⟩)
      have hne' : id' ≠ id := by
        rintro rfl
        exact hne (h.getObjectId_inj hid' hid)
      simpa using hne'

/-! ## Changes at one identifier -/

/-- From `s` to `t`, the dictionaries have changed at `id` at most, and leave it
a file if it is pending. -/
structure Touches (s t : Binding Obj) (id : Nat) : Prop where
  id2obj : t.id2obj = s.id2obj
  currentId : t.currentId = s.currentId
  filename : ∀ n, n ≠ id → t.objidToFilename n = s.objidToFilename n
  pending : ∀ k, k ≠ .object id → t.pendingToSynchronize k = s.pendingToSynchronize k
  mp : ∀ n, n ≠ id → t.objsWrittenByMp n = s.objsWrittenByMp n
  file : t.pendingToSynchronize (.object id) ≠ none → t.objidToFilename id ≠ none

omit [DecidableEq Obj] in
theorem Touches.wellFormed (h : Touches s t id) (hs : WellFormed s) (hid : id < s.currentId) : WellFormed t where
  lt := by rw [h.id2obj, h.currentId]; exact hs.lt
  ids := by rw [h.id2obj]; exact hs.ids
  objs := by rw [h.id2obj]; exact hs.objs
  fresh n hn := by
    rw [h.currentId] at hn
    rw [h.filename n (by omega)]
    exact hs.fresh n hn
  filename n hn := by
    by_cases he : n = id
    · subst he; exact h.file hn
    · rw [h.pending _ (by simpa using he)] at hn
      rw [h.filename n he]
      exact hs.filename n hn

/-- What an object is told by does not change at another identifier. -/
theorem Touches.statusAt (h : Touches s t id) {n : Nat} (hn : n ≠ id) : t.statusAt n = s.statusAt n := by
  simp only [Binding.statusAt, h.filename n hn, h.mp n hn, h.pending (.object n) (by simpa using hn)]

theorem Touches.getObjectId (h : Touches s t id) (obj : Obj) : t.getObjectId obj = s.getObjectId obj := by
  rw [Binding.getObjectId, h.id2obj]; rfl

theorem Touches.status (h : Touches s t id) (hs : WellFormed s) (hid : s.getObjectId obj = some id) :
    t.status = Function.update s.status obj (t.statusAt id) := by
  funext obj'
  rw [Function.update_apply]
  split
  · next he => simp only [Binding.status, h.getObjectId, he, hid]
  · next he =>
    simp only [Binding.status, h.getObjectId]
    cases hid' : s.getObjectId obj' with
    | none => rfl
    | some id' =>
      refine h.statusAt ?_
      rintro rfl
      exact he (hs.getObjectId_inj hid' hid)

/-- No object has the identifier. -/
theorem Touches.status_eq (h : Touches s t id) (hid : ∀ obj, s.getObjectId obj ≠ some id) : t.status = s.status := by
  funext obj
  simp only [Binding.status, h.getObjectId]
  cases hid' : s.getObjectId obj with
  | none => rfl
  | some id' => exact h.statusAt fun he => hid obj (by rw [hid', he])

/-! ## The operations -/

theorem statusAt_fresh (h : WellFormed s) : s.statusAt s.currentId = .unknown := by
  simp [statusAt, h.fresh s.currentId (Nat.le_refl _)]

theorem newId_status (h : WellFormed s) (hnone : s.getObjectId obj = none) : (s.newId obj).2.status = s.status := by
  funext obj'
  by_cases he : obj' = obj
  · simp only [status, getObjectId_newId hnone, if_pos he, he, hnone]
    exact statusAt_fresh h
  · simp only [status, getObjectId_newId hnone, if_neg he]
    rfl

/-- An object that is to be in the dictionaries. -/
theorem assignId_spec (h : WellFormed s) (obj : Obj) : ∃ id t, s.assignId obj = (id, t) ∧ WellFormed t ∧
    t.getObjectId obj = some id ∧ t.status = s.status ∧ t.written = s.written ∧
    t.pendingToSynchronize = s.pendingToSynchronize := by
  unfold assignId
  cases hid : s.getObjectId obj with
  | some id => exact ⟨id, s, rfl, h, hid, rfl, rfl, rfl⟩
  | none =>
    exact ⟨_, _, rfl, newId_wellFormed h hid, (getObjectId_newId hid obj).trans (if_pos rfl), newId_status h hid, rfl, rfl⟩

theorem turnIntoFile_spec (h : WellFormed s) (obj : Obj) (direction : Direction) :
    WellFormed (s.turnIntoFile obj direction) ∧
    (s.turnIntoFile obj direction).status = Function.update s.status obj ((s.status obj).take direction) ∧
    (s.turnIntoFile obj direction).written = s.written ∧
    ∀ id, (s.turnIntoFile obj direction).pendingToSynchronize (.psco id) = s.pendingToSynchronize (.psco id) := by
  obtain ⟨id, t, hr, ht, hid, hst, hw, hp⟩ := assignId_spec h obj
  have hobj : s.status obj = t.statusAt id := by rw [← hst]; simp only [status, hid]
  rw [← hw, ← hp, hobj, ← hst]
  have hlt := ht.getObjectId_lt hid
  unfold turnIntoFile
  rw [hr]
  dsimp only
  cases hf : t.objidToFilename id with
  | none =>
    have htouch : Touches t (((t.setPending (.object id) (some obj)).setFilename id (some (.object id))).call
        (.serializeToFile (.object id))) id :=
      ⟨rfl, rfl, fun n hn => Function.update_of_ne hn .., fun k hk => Function.update_of_ne hk .., fun _ _ => rfl,
        fun _ => by simp [setFilename, call]⟩
    refine ⟨htouch.wellFormed ht hlt, ?_, rfl, fun pid => htouch.pending _ (by simp)⟩
    rw [htouch.status ht hid]
    congr 1
    simp [statusAt, hf, setFilename, setPending, call, Status.take]
  | some f =>
    dsimp only
    have hself : t.status obj = t.statusAt id := by simp only [status, hid]
    cases hmp : t.objsWrittenByMp id with
    | none =>
      refine ⟨ht, ?_, rfl, fun _ => rfl⟩
      have htake : (t.statusAt id).take direction = t.statusAt id := by
        by_cases hp : t.pendingToSynchronize (.object id) = none <;> simp [statusAt, hf, hmp, hp, Status.take]
      rw [htake, ← hself, Function.update_eq_self]
    | some compssFile =>
      have htouch : Touches t (((if direction = .INOUT then t.setPending (.object id) (some obj) else t).setWrittenByMp
          id none).call (.serializeToFile compssFile)) id := by
        split
        · exact ⟨rfl, rfl, fun _ _ => rfl, fun k hk => Function.update_of_ne hk .., fun n hn => Function.update_of_ne hn ..,
            fun _ => by simp [setWrittenByMp, setPending, call, hf]⟩
        · exact ⟨rfl, rfl, fun _ _ => rfl, fun _ _ => rfl, fun n hn => Function.update_of_ne hn ..,
            fun _ => by simp [setWrittenByMp, call, hf]⟩
      refine ⟨htouch.wellFormed ht hlt, ?_, ?_, fun pid => htouch.pending _ (by simp)⟩
      · rw [htouch.status ht hid]
        congr 1
        by_cases hp : t.pendingToSynchronize (.object id) = none <;> cases direction <;>
          simp [statusAt, hf, hmp, hp, setWrittenByMp, setPending, call, Status.take]
      · cases direction <;> rfl

theorem buildReturnObject_spec (h : WellFormed s) (fu : Obj) :
    WellFormed (s.buildReturnObject fu) ∧ (s.buildReturnObject fu).status = s.status.build fu ∧
    (s.buildReturnObject fu).written = s.written ∧
    ∀ id, (s.buildReturnObject fu).pendingToSynchronize (.psco id) = s.pendingToSynchronize (.psco id) := by
  obtain ⟨id, t, hr, ht, hid, hst, hw, hp⟩ := assignId_spec h fu
  have htouch : Touches t ((t.setFilename id (some (.object id))).setPending (.object id) (some fu)) id :=
    ⟨rfl, rfl, fun n hn => Function.update_of_ne hn .., fun k hk => Function.update_of_ne hk .., fun _ _ => rfl,
      fun _ => by simp [setFilename, setPending]⟩
  rw [← hw, ← hp, ← hst]
  unfold buildReturnObject
  rw [hr]
  refine ⟨htouch.wellFormed ht (ht.getObjectId_lt hid), ?_, rfl, fun pid => htouch.pending _ (by simp)⟩
  rw [htouch.status ht hid, History.build]
  congr 1
  simp [statusAt, setFilename, setPending]

theorem popId_status (h : WellFormed s) (hid : s.getObjectId obj = some id) :
    (s.popId id).status = Function.update s.status obj .unknown := by
  funext obj'
  rw [Function.update_apply]
  by_cases he : obj' = obj
  · simp only [status, getObjectId_popId h hid, if_pos he]
  · simp only [status, getObjectId_popId h hid, if_neg he]
    rfl

/-- Nobody has the identifier any more. -/
theorem popId_unowned (h : WellFormed s) (hid : s.getObjectId obj = some id) (obj' : Obj) :
    (s.popId id).getObjectId obj' ≠ some id := by
  rw [getObjectId_popId h hid]
  split
  · simp
  · next hne => exact fun hid' => hne (h.getObjectId_inj hid' hid)

theorem deleteObject_spec (h : WellFormed s) (obj : Obj) :
    WellFormed (s.deleteObject obj) ∧ (s.deleteObject obj).status = Function.update s.status obj .unknown ∧
    (∀ obj', obj' ≠ obj → (s.deleteObject obj).written obj' = s.written obj') ∧
    (s.getObjectId obj ≠ none → (s.deleteObject obj).written obj = false) ∧
    (s.getObjectId obj = none → s.deleteObject obj = s) ∧
    ∀ id, (s.deleteObject obj).pendingToSynchronize (.psco id) = s.pendingToSynchronize (.psco id) := by
  cases hid : s.getObjectId obj with
  | none =>
    have hsame : s.deleteObject obj = s := by simp only [deleteObject, hid]
    have hself : s.status obj = .unknown := by simp only [status, hid]
    rw [hsame]
    exact ⟨h, by rw [← hself, Function.update_eq_self], fun _ _ => rfl, fun hne => absurd rfl hne, fun _ => rfl, fun _ => rfl⟩
  | some id =>
    have hdel : Touches (s.popId id) (s.deleteObject obj) id ∧ (s.deleteObject obj).written = Function.update s.written obj false := by
      simp only [deleteObject, hid]
      cases s.objidToFilename id <;>
        exact ⟨⟨rfl, rfl, fun n hn => Function.update_of_ne hn .., fun k hk => Function.update_of_ne hk .., fun _ _ => rfl,
          fun hp => absurd (by simp [setPending, setWritten]) hp⟩, rfl⟩
    obtain ⟨htouch, hw⟩ := hdel
    refine ⟨htouch.wellFormed (popId_wellFormed h id) (h.getObjectId_lt hid), ?_, ?_, ?_, nofun,
      fun pid => htouch.pending _ (by simp)⟩
    · rw [htouch.status_eq (popId_unowned h hid), popId_status h hid]
    · intro obj' hne
      rw [hw, Function.update_of_ne hne]
    · intro _
      rw [hw, Function.update_self]

/-- An object that comes back from a file, known before or not. -/
theorem forceId_spec (h : WellFormed s) (obj : Obj) : ∃ t, s.forceId obj = (s.currentId, t) ∧ WellFormed t ∧
    t.currentId = s.currentId + 1 ∧ (∀ obj', t.getObjectId obj' = if obj' = obj then some s.currentId else s.getObjectId obj') ∧
    t.status = Function.update s.status obj .unknown ∧ t.objidToFilename = s.objidToFilename ∧ t.calls = s.calls ∧
    t.pendingToSynchronize = s.pendingToSynchronize ∧ t.written = s.written := by
  unfold forceId
  cases hid : s.getObjectId obj with
  | none =>
    refine ⟨_, rfl, newId_wellFormed h hid, rfl, getObjectId_newId hid, ?_, rfl, rfl, rfl, rfl⟩
    have hself : s.status obj = .unknown := by simp only [status, hid]
    rw [← hself, Function.update_eq_self]
    exact newId_status h hid
  | some id =>
    have hpop := popId_wellFormed h id
    have hnone : (s.popId id).getObjectId obj = none := by rw [getObjectId_popId h hid, if_pos rfl]
    refine ⟨_, rfl, newId_wellFormed hpop hnone, rfl, fun obj' => ?_, ?_, rfl, rfl, rfl, rfl⟩
    · refine (getObjectId_newId hnone obj').trans ?_
      rw [getObjectId_popId h hid]
      split <;> rfl
    · exact (newId_status hpop hnone).trans (popId_status h hid)

theorem replaceObject_spec (h : WellFormed s) (hid : s.getObjectId obj = some id) (f : FileName) (newObj : Obj) :
    WellFormed (s.replaceObject obj id f newObj) ∧
    (s.replaceObject obj id f newObj).status = Function.update (Function.update s.status obj .unknown) newObj .returned ∧
    (s.replaceObject obj id f newObj).written = Function.update (Function.update s.written obj false) newObj false ∧
    (∃ c, (s.replaceObject obj id f newObj).calls = c :: s.calls) ∧
    ∀ pid, (s.replaceObject obj id f newObj).pendingToSynchronize (.psco pid) = s.pendingToSynchronize (.psco pid) := by
  obtain ⟨t, hr, ht, hcur, hget, hst, hfile, hcalls, hpend, hw⟩ := forceId_spec h newObj
  have hlt := h.getObjectId_lt hid
  have hnew : t.getObjectId newObj = some s.currentId := by rw [hget, if_pos rfl]
  -- The entries of the new identifier.
  set t₁ := ((t.setFilename s.currentId (some (f.replace id s.currentId))).setWrittenByMp s.currentId
    (some (f.replace id s.currentId))).call (.deleteFile f) with ht₁
  have hpn : t.pendingToSynchronize (.object s.currentId) = none := by
    rw [hpend]
    by_contra hp
    exact h.filename _ hp (h.fresh _ (Nat.le_refl _))
  have htouch₁ : Touches t t₁ s.currentId :=
    ⟨rfl, rfl, fun n hn => Function.update_of_ne hn .., fun _ _ => rfl, fun n hn => Function.update_of_ne hn ..,
      fun _ => by simp [ht₁, setFilename, setWrittenByMp, call]⟩
  have hwf₁ := htouch₁.wellFormed ht (by omega)
  have hst₁ : t₁.status = Function.update s.status newObj .returned := by
    have hat : t₁.statusAt s.currentId = .returned := by
      simp [ht₁, statusAt, setFilename, setWrittenByMp, call, hpn]
    rw [htouch₁.status ht hnew, hat, hst, Function.update_idem]
  -- The entries of the old one.
  have hres : s.replaceObject obj id f newObj =
      (((t₁.setFilename id none).setPending (.object id) none).setWritten obj false).setWritten newObj false := by
    simp only [replaceObject, hr]
    rfl
  have htouch₂ : Touches t₁ (s.replaceObject obj id f newObj) id := by
    rw [hres]
    exact ⟨rfl, rfl, fun n hn => Function.update_of_ne hn .., fun k hk => Function.update_of_ne hk .., fun _ _ => rfl,
      fun hp => absurd (by simp [setPending, setWritten]) hp⟩
  refine ⟨htouch₂.wellFormed hwf₁ (by rw [htouch₁.currentId, hcur]; omega), ?_, ?_, ?_, ?_⟩
  · by_cases hne : obj = newObj
    · subst hne
      have hunowned : ∀ obj', t₁.getObjectId obj' ≠ some id := by
        intro obj'
        rw [htouch₁.getObjectId, hget]
        split
        · simpa using (Nat.ne_of_lt hlt).symm
        · next hne => exact fun hid' => hne (h.getObjectId_inj hid' hid)
      rw [htouch₂.status_eq hunowned, hst₁, Function.update_idem]
    · have hid₁ : t₁.getObjectId obj = some id := by rw [htouch₁.getObjectId, hget, if_neg hne, hid]
      have hat : (s.replaceObject obj id f newObj).statusAt id = .unknown := by
        rw [hres]
        simp [statusAt, setFilename, setPending, setWritten]
      rw [htouch₂.status hwf₁ hid₁, hat, hst₁, Function.update_comm hne]
  · rw [hres, ← hw]
    rfl
  · exact ⟨.deleteFile f, by rw [hres, ← hcalls]; rfl⟩
  · intro pid
    rw [htouch₂.pending _ (by simp), htouch₁.pending _ (by simp), hpend]

theorem buildReturnObjects_spec : ∀ (returns : List Obj) (s : Binding Obj), WellFormed s →
    WellFormed (returns.foldl buildReturnObject s) ∧
    (returns.foldl buildReturnObject s).status = returns.foldl History.build s.status ∧
    (returns.foldl buildReturnObject s).written = s.written ∧
    ∀ id, (returns.foldl buildReturnObject s).pendingToSynchronize (.psco id) = s.pendingToSynchronize (.psco id)
  | [], _, h => ⟨h, rfl, rfl, fun _ => rfl⟩
  | fu :: returns, s, h => by
    obtain ⟨hwf, hst, hw, hp⟩ := buildReturnObject_spec h fu
    obtain ⟨hwf', hst', hw', hp'⟩ := buildReturnObjects_spec returns _ hwf
    simp only [List.foldl_cons]
    exact ⟨hwf', by rw [hst', hst], hw'.trans hw, fun id => (hp' id).trans (hp id)⟩

section
variable {getID : Obj → Option String}

theorem passObject_spec (h : WellFormed s) (p : Obj × Direction) :
    WellFormed (s.passObject getID p) ∧ (s.passObject getID p).status = s.status.pass getID p ∧
    (s.passObject getID p).written = s.written ∧
    (∀ id, s.pendingToSynchronize (.psco id) ≠ none → (s.passObject getID p).pendingToSynchronize (.psco id) ≠ none) ∧
    ∀ id, getID p.1 = some id → (s.passObject getID p).pendingToSynchronize (.psco id) ≠ none := by
  cases hid : getID p.1 with
  | none =>
    obtain ⟨hwf, hst, hw, hp⟩ := turnIntoFile_spec h p.1 p.2
    simp only [passObject, hid, History.pass, if_true]
    exact ⟨hwf, hst, hw, fun id hne => by rw [hp]; exact hne, nofun⟩
  | some pid =>
    simp only [passObject, hid, History.pass, reduceCtorEq, if_false]
    -- The identifiers of the binding are not concerned.
    have hsame : ∀ n, (s.managePersistentObject p.1 pid).pendingToSynchronize (.object n) =
        s.pendingToSynchronize (.object n) := fun n => by simp [managePersistentObject, setPending]
    refine ⟨⟨h.lt, h.ids, h.objs, h.fresh, fun n hn => h.filename n ?_⟩, ?_, rfl, fun id hne => ?_, fun id he => ?_⟩
    · rw [← hsame]
      exact hn
    · have hat : ∀ n, (s.managePersistentObject p.1 pid).statusAt n = s.statusAt n := fun n => by
        simp only [statusAt, hsame]
        rfl
      funext obj'
      simp only [status, hat]
      rfl
    · simp only [managePersistentObject, setPending, Function.update_apply]
      split
      · simp
      · exact hne
    · cases he
      simp [managePersistentObject, setPending]

theorem passObjects_spec : ∀ (parameters : List (Obj × Direction)) (s : Binding Obj), WellFormed s →
    WellFormed (parameters.foldl (passObject getID) s) ∧
    (parameters.foldl (passObject getID) s).status = parameters.foldl (History.pass getID) s.status ∧
    (parameters.foldl (passObject getID) s).written = s.written ∧
    (∀ id, s.pendingToSynchronize (.psco id) ≠ none →
      (parameters.foldl (passObject getID) s).pendingToSynchronize (.psco id) ≠ none) ∧
    ∀ p ∈ parameters, ∀ id, getID p.1 = some id →
      (parameters.foldl (passObject getID) s).pendingToSynchronize (.psco id) ≠ none
  | [], s, h => ⟨h, rfl, rfl, fun _ hne => hne, by simp⟩
  | p :: parameters, s, h => by
    obtain ⟨hwf, hst, hw, hp, hself⟩ := @passObject_spec _ _ _ getID h p
    obtain ⟨hwf', hst', hw', hp', hself'⟩ := passObjects_spec parameters _ hwf
    simp only [List.foldl_cons]
    refine ⟨hwf', by rw [hst', hst], hw'.trans hw, fun id hne => hp' id (hp id hne), fun q hq id hid => ?_⟩
    rcases List.mem_cons.mp hq with rfl | hq
    · exact hp' id (hself id hid)
    · exact hself' q hq id hid

theorem synchronize_spec (h : WellFormed s) (obj : Obj) (mode : Direction) (loaded : Loaded Obj) :
    WellFormed (s.synchronize getID obj mode loaded).1 ∧
    History.step getID s.status (.synchronize obj mode loaded) = some (s.synchronize getID obj mode loaded).1.status ∧
    (∀ obj', (s.synchronize getID obj mode loaded).1.written obj' = true →
      s.written obj' = true ∧ (s.synchronize getID obj mode loaded).1.status obj' = s.status obj') ∧
    ∀ id, (s.synchronize getID obj mode loaded).1.pendingToSynchronize (.psco id) = s.pendingToSynchronize (.psco id) := by
  have hok : (Op.synchronize obj mode loaded).FuturesOK getID := trivial
  have hsub : ∀ newObj obj', Function.update (Function.update s.written obj false) newObj false obj' = true →
      obj' ≠ obj ∧ obj' ≠ newObj ∧ s.written obj' = true := by
    intro newObj obj' hw
    rw [Function.update_apply] at hw
    split at hw
    · cases hw
    · next hne' =>
      rw [Function.update_apply] at hw
      split at hw
      · cases hw
      · next hne => exact ⟨hne, hne', hw⟩
  simp only [History.step, if_pos hok]
  cases hid : getID obj with
  | some pid =>
    -- The identifiers of the binding are not concerned.
    simp only [synchronize, hid, reduceCtorEq, false_and, if_false]
    split
    · exact ⟨h, rfl, fun _ hw => ⟨hw, rfl⟩, fun _ => rfl⟩
    · cases loaded with
      | deserialized newObj | byId newObj =>
        exact ⟨⟨h.lt, h.ids, h.objs, h.fresh, h.filename⟩, rfl, fun obj' hw => ⟨(hsub newObj obj' hw).2.2, rfl⟩, fun _ => rfl⟩
      | raised => exact ⟨⟨h.lt, h.ids, h.objs, h.fresh, h.filename⟩, rfl, fun _ hw => ⟨hw, rfl⟩, fun _ => rfl⟩
  | none =>
    simp only [synchronize, hid, true_and]
    cases hobj : s.getObjectId obj with
    | none =>
      have hst : s.status obj = .unknown := by simp only [status, hobj]
      simp only [hst, reduceCtorEq, if_false]
      exact ⟨h, trivial, fun _ hw => ⟨hw, trivial⟩, fun _ => trivial⟩
    | some objId =>
      have hst : s.status obj = s.statusAt objId := by simp only [status, hobj]
      dsimp only
      by_cases hp : s.pendingToSynchronize (.object objId) = none
      · have hne : s.statusAt objId ≠ .pending := by
          unfold statusAt
          split
          · simp
          · rw [if_neg (by simpa using hp)]
            split <;> simp
        rw [if_pos hp, hst, if_neg hne]
        exact ⟨h, rfl, fun _ hw => ⟨hw, rfl⟩, fun _ => rfl⟩
      · have hpend : s.statusAt objId = .pending := by
          simp only [statusAt, if_neg (h.filename objId hp)]
          exact if_pos hp
        rw [if_neg hp, hst, if_pos hpend]
        cases hf : s.objidToFilename objId with
        | none => exact absurd hf (h.filename objId hp)
        | some f =>
          have hreplaced : ∀ (u : Binding Obj) (newObj : Obj), WellFormed u → u.getObjectId obj = some objId →
              u.status = s.status → u.written = s.written →
              (∀ id, u.pendingToSynchronize (.psco id) = s.pendingToSynchronize (.psco id)) →
              WellFormed (u.replaceObject obj objId f newObj) ∧
              some (Function.update (Function.update s.status obj .unknown) newObj .returned) =
                some (u.replaceObject obj objId f newObj).status ∧
              (∀ obj', (u.replaceObject obj objId f newObj).written obj' = true →
                s.written obj' = true ∧ (u.replaceObject obj objId f newObj).status obj' = s.status obj') ∧
              ∀ id, (u.replaceObject obj objId f newObj).pendingToSynchronize (.psco id) =
                s.pendingToSynchronize (.psco id) := by
            intro u newObj hu hget hstu hwu hpu
            obtain ⟨hwf, hst', hw', -, hp'⟩ := replaceObject_spec hu hget f newObj
            refine ⟨hwf, by rw [hst', hstu], fun obj' hw => ?_, fun id => (hp' id).trans (hpu id)⟩
            rw [hw', hwu] at hw
            obtain ⟨hne, hne', hold⟩ := hsub newObj obj' hw
            exact ⟨hold, by rw [hst', hstu, Function.update_of_ne hne', Function.update_of_ne hne]⟩
          dsimp only
          cases loaded with
          | deserialized newObj =>
            exact hreplaced ((s.call (.getFile f mode)).call (.closeFile f mode)) newObj
              ⟨h.lt, h.ids, h.objs, h.fresh, h.filename⟩ hobj rfl rfl fun _ => rfl
          | byId newObj =>
            exact hreplaced (s.call (.getFile f mode)) newObj ⟨h.lt, h.ids, h.objs, h.fresh, h.filename⟩ hobj rfl rfl
              fun _ => rfl
          | raised => exact ⟨⟨h.lt, h.ids, h.objs, h.fresh, h.filename⟩, rfl, fun _ hw => ⟨hw, rfl⟩, fun _ => rfl⟩

theorem step_wellFormed {op : Op Obj} (h : WellFormed s) (hst : s.step getID op = some t) : WellFormed t := by
  unfold step at hst
  split at hst
  · cases op with
    | processTask returns parameters raised =>
      cases hst
      have hwf := (@passObjects_spec _ _ getID parameters _ (buildReturnObjects_spec returns s h).1).1
      cases raised with
      | true => exact hwf
      | false => exact ⟨hwf.lt, hwf.ids, hwf.objs, hwf.fresh, hwf.filename⟩
    | synchronize obj mode loaded => cases hst; exact (synchronize_spec h obj mode loaded).1
    | deleteObject obj => cases hst; exact (deleteObject_spec h obj).1
  · cases hst

/-- **The dictionaries follow the life of the objects.** -/
theorem status_step (h : WellFormed s) (op : Op Obj) : (s.step getID op).map status = s.status.step getID op := by
  by_cases hok : op.FuturesOK getID
  · cases op with
    | processTask returns parameters raised =>
      obtain ⟨hwf, hst, -⟩ := buildReturnObjects_spec returns s h
      obtain ⟨-, hst', -⟩ := @passObjects_spec _ _ getID parameters _ hwf
      rw [hst] at hst'
      simp only [step, History.step, if_pos hok, Option.map_some, ← hst']
      cases raised <;> rfl
    | synchronize obj mode loaded =>
      simp only [step, if_pos hok, Option.map_some]
      exact (synchronize_spec h obj mode loaded).2.1.symm
    | deleteObject obj =>
      simp only [step, History.step, if_pos hok, Option.map_some]
      rw [(deleteObject_spec h obj).2.1]
  · simp only [step, History.step, if_neg hok, Option.map_none]

end

end Binding

end Compss.Python
