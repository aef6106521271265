/-
Which objects `synchronize` still finds pending.
-/
import Compss.Python.ObjectLife

namespace Compss.Python

open Lib

/-! ## Writes that are followed -/

namespace History
variable {Obj : Type} [DecidableEq Obj] {getID : Obj → Option String}

theorem take_of_writable {st : Status} {direction : Direction} (h : st.Writable direction) :
    st.take direction = .pending := by
  cases st <;> cases direction <;> simp_all [Status.Writable, Status.take]

theorem take_of_not_writable {st : Status} {direction : Direction} (h : ¬ st.Writable direction) :
    st.take direction = .handed := by
  cases st <;> cases direction <;> simp_all [Status.Writable, Status.take]

/-- While a task takes its parameters, an object stays pending, or handed. -/
theorem passAll_stays {st : Status} (hst : st = .pending ∨ st = .handed) {obj : Obj} :
    ∀ (ps : List (Obj × Direction)) (h : History Obj), h obj = st → ps.foldl (pass getID) h obj = st
  | [], _, hobj => hobj
  | p :: ps, h, hobj => by
    refine passAll_stays hst ps _ ?_
    unfold pass
    split
    · rw [Function.update_apply]
      split
      · next he =>
        rw [← he, hobj]
        rcases hst with rfl | rfl <;> rfl
      · exact hobj
    · exact hobj

theorem buildAll_stays {obj : Obj} : ∀ (returns : List Obj) (h : History Obj), h obj = .pending →
    returns.foldl build h obj = .pending
  | [], _, hobj => hobj
  | fu :: returns, h, hobj => by
    refine buildAll_stays returns _ ?_
    rw [build, Function.update_apply]
    split
    · rfl
    · exact hobj

theorem buildAll_pending {obj : Obj} : ∀ (returns : List Obj) (h : History Obj), obj ∈ returns →
    returns.foldl build h obj = .pending
  | fu :: returns, h, hmem => by
    rcases List.mem_cons.mp hmem with rfl | hmem
    · exact buildAll_stays returns _ (Function.update_self ..)
    · exact buildAll_pending returns _ hmem

/-- The parameters written are pending in the end. -/
theorem Passable.pending : ∀ (ps : List (Obj × Direction)) (h : History Obj), Passable getID h ps →
    ∀ p ∈ ps, getID p.1 = none → p.2 ≠ .IN → ps.foldl (pass getID) h p.1 = .pending
  | p :: ps, h, ⟨hp, hps⟩, q, hq, hid, hdir => by
    rcases List.mem_cons.mp hq with rfl | hq
    · refine passAll_stays (.inl rfl) ps _ ?_
      rw [pass, if_pos hid, Function.update_self]
      exact take_of_writable (hp hid hdir)
    · exact Passable.pending ps _ hps q hq hid hdir

/-- A write that is not followed shows in the end. -/
theorem handed_of_not_passable : ∀ (ps : List (Obj × Direction)) (h : History Obj), ¬ Passable getID h ps →
    ∃ p ∈ ps, getID p.1 = none ∧ p.2 ≠ .IN ∧ ps.foldl (pass getID) h p.1 = .handed
  | [], _, hnot => absurd trivial hnot
  | p :: ps, h, hnot => by
    by_cases hp : getID p.1 = none → p.2 ≠ .IN → (h p.1).Writable p.2
    · obtain ⟨q, hq, hid, hdir, hend⟩ := handed_of_not_passable ps (pass getID h p) fun hps => hnot ⟨hp, hps⟩
      exact ⟨q, List.mem_cons_of_mem p hq, hid, hdir, hend⟩
    · push_neg at hp
      obtain ⟨hid, hdir, hw⟩ := hp
      refine ⟨p, List.mem_cons_self .., hid, hdir, passAll_stays (.inr rfl) ps _ ?_⟩
      rw [pass, if_pos hid, Function.update_self]
      exact take_of_not_writable hw

end History

namespace Binding
variable {Obj : Type} [DecidableEq Obj] {getID : Obj → Option String} {s t : Binding Obj}

/-- The objects written are pending. -/
structure Tracked (getID : Obj → Option String) (s : Binding Obj) : Prop where
  wellFormed : WellFormed s
  object : ∀ obj, getID obj = none → s.written obj = true → s.status obj = .pending
  persistent : ∀ obj id, getID obj = some id → s.written obj = true → s.pendingToSynchronize (.psco id) ≠ none

theorem Tracked.init : Tracked getID (init : Binding Obj) where
  wellFormed := WellFormed.init
  object _ _ h := by cases h
  persistent _ _ _ h := by cases h

theorem exists_pending_of_status {obj : Obj} (h : s.status obj = .pending) :
    ∃ id, s.getObjectId obj = some id ∧ s.pendingToSynchronize (.object id) ≠ none := by
  cases hid : s.getObjectId obj with
  | none => simp [status, hid] at h
  | some id =>
    refine ⟨id, rfl, fun hp => ?_⟩
    simp only [status, hid, statusAt, hp] at h
    split at h
    · cases h
    · split at h
      · next hne => exact hne rfl
      · split at h <;> cases h

theorem status_of_pending {obj : Obj} {id : Nat} (h : WellFormed s) (hid : s.getObjectId obj = some id)
    (hp : s.pendingToSynchronize (.object id) ≠ none) : s.status obj = .pending := by
  simp only [status, hid, statusAt, if_neg (h.filename id hp)]
  exact if_pos hp

/-- A pending object is requested. -/
theorem Tracked.synchronizes (h : Tracked getID s) : s.Synchronizes getID := by
  intro obj hw
  cases hid : getID obj with
  | some pid =>
    have hp := h.persistent obj pid hid hw
    refine ⟨⟨.psco pid, by simp only [key?, hid], Option.isSome_iff_ne_none.mpr hp⟩, fun mode loaded => ?_⟩
    refine ⟨.storage pid, [], ?_⟩
    simp only [synchronize, hid, if_neg hp]
    cases loaded <;> rfl
  | none =>
    obtain ⟨id, hobj, hp⟩ := exists_pending_of_status (h.object obj hid hw)
    refine ⟨⟨.object id, by simp only [key?, hid, hobj, Option.map_some], Option.isSome_iff_ne_none.mpr hp⟩,
      fun mode loaded => ?_⟩
    obtain ⟨f, hf⟩ := Option.ne_none_iff_exists'.mp (h.wellFormed.filename id hp)
    refine ⟨f, ?_⟩
    simp only [synchronize, hid, hobj, if_neg hp, hf]
    have hwf : ∀ cs, WellFormed { s with calls := cs } := fun cs =>
      ⟨h.wellFormed.lt, h.wellFormed.ids, h.wellFormed.objs, h.wellFormed.fresh, h.wellFormed.filename⟩
    cases loaded with
    | deserialized newObj =>
      obtain ⟨-, -, -, ⟨c, hc⟩, -⟩ := replaceObject_spec (s := (s.call (.getFile f mode)).call (.closeFile f mode)) (hwf _)
        hobj f newObj
      exact ⟨[c, .closeFile f mode], hc⟩
    | byId newObj =>
      obtain ⟨-, -, -, ⟨c, hc⟩, -⟩ := replaceObject_spec (s := s.call (.getFile f mode)) (hwf _) hobj f newObj
      exact ⟨[c], hc⟩
    | raised => exact ⟨[], rfl⟩

theorem submitted_written {returns : List Obj} {parameters : List (Obj × Direction)} {obj : Obj} :
    (s.submitted returns parameters).written obj = true ↔
      s.written obj = true ∨ obj ∈ returns ∨ ∃ p ∈ parameters, p.1 = obj ∧ p.2 ≠ .IN := by
  simp [submitted, or_assoc]

theorem Tracked.step {op : Op Obj} (h : Tracked getID s) (hgood : History.Allowed getID s.status op)
    (hst : s.step getID op = some t) : Tracked getID t := by
  have hwf := step_wellFormed h.wellFormed hst
  by_cases hok : op.FuturesOK getID
  swap
  · simp only [Binding.step, if_neg hok] at hst
    cases hst
  simp only [Binding.step, if_pos hok] at hst
  cases op with
  | deleteObject obj =>
    cases hst
    obtain ⟨-, hst, hne, hself, hnone, hp⟩ := deleteObject_spec h.wellFormed obj
    have hold : ∀ obj', (s.deleteObject obj).written obj' = true →
        s.written obj' = true ∧ (s.deleteObject obj).status obj' = s.status obj' := by
      intro obj' hw
      cases hid : s.getObjectId obj with
      | none => rw [hnone hid] at hw ⊢; exact ⟨hw, rfl⟩
      | some id =>
        have hne' : obj' ≠ obj := by
          rintro rfl
          rw [hself (by simp [hid])] at hw
          cases hw
        rw [hne obj' hne'] at hw
        exact ⟨hw, by rw [hst, Function.update_of_ne hne']⟩
    refine ⟨hwf, fun obj' hid hw => ?_, fun obj' pid hid hw => ?_⟩
    · rw [(hold obj' hw).2]
      exact h.object obj' hid (hold obj' hw).1
    · rw [hp]
      exact h.persistent obj' pid hid (hold obj' hw).1
  | synchronize obj mode loaded =>
    cases hst
    obtain ⟨-, -, hold, hp⟩ := @synchronize_spec _ _ _ getID h.wellFormed obj mode loaded
    refine ⟨hwf, fun obj' hid hw => ?_, fun obj' pid hid hw => ?_⟩
    · rw [(hold obj' hw).2]
      exact h.object obj' hid (hold obj' hw).1
    · rw [hp]
      exact h.persistent obj' pid hid (hold obj' hw).1
  | processTask returns parameters raised =>
    cases hst
    obtain ⟨hwf₁, hst₁, hw₁, hp₁⟩ := buildReturnObjects_spec returns s h.wellFormed
    obtain ⟨-, hst₂, hw₂, hp₂, hself⟩ := @passObjects_spec _ _ getID parameters _ hwf₁
    set u := parameters.foldl (passObject getID) (returns.foldl buildReturnObject s) with hu
    have hwu : u.written = s.written := hw₂.trans hw₁
    rw [hst₁] at hst₂
    -- What was pending stays pending.
    have hkept : Tracked getID u := by
      refine ⟨(@passObjects_spec _ _ getID parameters _ hwf₁).1, fun obj hid hw => ?_, fun obj pid hid hw => ?_⟩
      · rw [hst₂]
        refine History.passAll_stays (.inl rfl) _ _ (History.buildAll_stays _ _ ?_)
        exact h.object obj hid (by rw [← hwu]; exact hw)
      · refine hp₂ pid ?_
        rw [hp₁]
        exact h.persistent obj pid hid (by rw [← hwu]; exact hw)
    cases raised with
    | true => exact hkept
    | false =>
      refine ⟨hwf, fun obj hid hw => ?_, fun obj pid hid hw => ?_⟩
      · change u.status obj = .pending
        rcases submitted_written.mp hw with hw | hw | ⟨p, hp, rfl, hdir⟩
        · exact hkept.object obj hid hw
        · rw [hst₂]
          exact History.passAll_stays (.inl rfl) _ _ (History.buildAll_pending _ _ hw)
        · rw [hst₂]
          exact History.Passable.pending _ _ hgood p hp hid hdir
      · change u.pendingToSynchronize (.psco pid) ≠ none
        rcases submitted_written.mp hw with hw | hw | ⟨p, hp, rfl, -⟩
        · exact hkept.persistent obj pid hid hw
        · rw [hok obj hw] at hid
          cases hid
        · exact hself p hp pid hid

/-- A write that is not followed is lost at once. -/
theorem not_synchronizes {op : Op Obj} (h : WellFormed s) (hbad : ¬ History.Allowed getID s.status op)
    (hst : s.step getID op = some t) : ¬ t.Synchronizes getID := by
  intro hsync
  have hsim := @status_step _ _ _ getID h op
  have hwf := step_wellFormed h hst
  rw [hst, Option.map_some] at hsim
  have hok : op.FuturesOK getID := by
    by_contra hok
    simp only [Binding.step, if_neg hok] at hst
    cases hst
  cases op with
  | synchronize | deleteObject => exact hbad trivial
  | processTask returns parameters raised =>
    cases raised with
    | true => exact hbad trivial
    | false =>
      obtain ⟨p, hp, hid, hdir, hend⟩ := History.handed_of_not_passable _ _ hbad
      simp only [History.step, if_pos hok, Option.some.injEq] at hsim
      rw [← hsim] at hend
      have hw : t.written p.1 = true := by
        simp only [Binding.step, if_pos hok] at hst
        cases hst
        exact submitted_written.mpr (.inr (.inr ⟨p, hp, rfl, hdir⟩))
      obtain ⟨k, hk, hpend⟩ := (hsync p.1 hw).pending
      simp only [key?, hid] at hk
      obtain ⟨id, hobj, rfl⟩ := Option.map_eq_some_iff.mp hk
      rw [status_of_pending hwf hobj (Option.isSome_iff_ne_none.mp hpend)] at hend
      cases hend

/-- **Python synchronization.** All along a run every object that the tasks
write is pending, and requested when it is synchronized, exactly when no task
writes an object that `synchronize` has returned, but as the first to take it
and as `INOUT`, or after such a task. -/
theorem synchronizes_iff_allowed (getID : Obj → Option String) (ops : List (Op Obj)) :
    Always (Binding.step getID) (Synchronizes getID) init ops ↔
      Along (History.step getID) (History.Allowed getID) (fun _ => .unknown) ops := by
  have habs : Along (Binding.step getID) (fun s op => History.Allowed getID s.status op) init ops ↔
      Along (History.step getID) (History.Allowed getID) (init : Binding Obj).status ops :=
    along_abs (I := WellFormed) (fun _ _ _ h hst => step_wellFormed h hst) (fun _ op h => status_step h op)
      WellFormed.init
  refine Iff.trans ?_ habs
  exact always_iff_along (I := Tracked getID) (fun _ h => h.synchronizes) (fun _ _ _ h hg hst => h.step hg hst)
    (fun _ _ _ h hb hst => not_synchronizes h.wellFormed hb hst) Tracked.init

/-- An object is modified by a task, synchronized, read by a task and modified
again: now it is not pending, and `synchronize` answers the object itself. -/
theorem readThenModified_not_synchronizes : ¬ Always (Binding.step fun _ : Nat => none) (Synchronizes fun _ => none) init
    [.processTask [] [(0, .INOUT)] false, .synchronize 0 .IN (.deserialized 1), .processTask [] [(1, .IN)] false,
      .processTask [] [(1, .INOUT)] false] := by
  intro h
  have hsync := (((h.2 _ rfl).2 _ rfl).2 _ rfl).2 _ rfl
  obtain ⟨k, hk, hp⟩ := (hsync 1 rfl).pending
  cases hk
  cases hp

end Binding

end Compss.Python
