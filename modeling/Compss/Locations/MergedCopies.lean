/-
Which copies `alreadyCopying` takes for one.

A copy to a place on a host, or of a persistent object, is found for the same
place only. A copy to a shared disk is found for every path on that disk, and
a persistent target asked of it ends in a failed cast. The first copy in the
list that is found, or fails, decides.
-/
import Compss.Locations.LogicalData

namespace Compss.Locations

open Lib

/-- Asked for `target`, which is elsewhere, a copy to `l` is found or the cast fails. -/
def DataLocation.Astray (l target : DataLocation) : Prop :=
  match l, target with
  | SharedLocation _ diskName path, SharedLocation _ targetDisk targetPath => targetDisk = diskName ∧ targetPath ≠ path
  | SharedLocation _ _ _, PersistentLocation _ => True
  | _, _ => False

theorem DataLocation.isTarget_of_not_astray {l target : DataLocation} (h : ¬ l.Astray target) :
    l.isTarget target = some (decide (l.place = target.place)) := by
  cases l with
  | PrivateLocation uri =>
    cases target with
    | PrivateLocation targetURI =>
      simp only [isTarget, place, Place.inHost.injEq, Option.some.injEq]
      rw [Bool.eq_iff_iff]
      simp only [Bool.and_eq_true, beq_iff_eq, decide_eq_true_eq]
      constructor <;> exact fun ⟨h₁, h₂⟩ => ⟨h₁.symm, h₂.symm⟩
    | SharedLocation p d q => simp [isTarget, place]
    | PersistentLocation id => simp [isTarget, place]
  | SharedLocation p d q =>
    cases target with
    | PrivateLocation targetURI => simp [isTarget, place]
    | SharedLocation p' d' q' =>
      simp only [Astray, not_and, not_not] at h
      by_cases hd : d' = d
      · simp [isTarget, place, hd, h hd]
      · simp [isTarget, place, hd, Ne.symm hd]
    | PersistentLocation id => exact absurd trivial h
  | PersistentLocation id =>
    cases target with
    | PrivateLocation targetURI => simp [isTarget, place]
    | SharedLocation p d q => simp [isTarget, place]
    | PersistentLocation id' =>
      simp only [isTarget, place, Place.persistent.injEq, Option.some.injEq]
      rw [Bool.eq_iff_iff]
      simp

theorem DataLocation.isTarget_of_astray {l target : DataLocation} (h : l.Astray target) :
    l.place ≠ target.place ∧ (l.isTarget target = none ∨ l.isTarget target = some true) := by
  cases l with
  | PrivateLocation uri => cases target <;> exact absurd h id
  | PersistentLocation id => cases target <;> exact absurd h fun h => h
  | SharedLocation p d q =>
    cases target with
    | PrivateLocation targetURI => exact absurd h id
    | SharedLocation p' d' q' =>
      obtain ⟨rfl, hq⟩ := h
      exact ⟨by simp [place, Ne.symm hq], .inr (by simp [isTarget])⟩
    | PersistentLocation id => exact ⟨by simp [place], .inl rfl⟩

/-- A copy is found if and only if one of those in progress has its target at the
place of `target`; its target is there. -/
def MergesSame (cips : List CopyInProgress) (target : DataLocation) (r : Option (Option Copy)) : Prop :=
  ∃ found, r = some found ∧ (∀ c, found = some c → c.tgtLoc.place = target.place) ∧
    (found.isSome ↔ ∃ cip ∈ cips, cip.loc.place = target.place)

/-- Before the first copy to the place of `target` none goes astray. -/
def NoneAstray (cips : List CopyInProgress) (target : DataLocation) : Prop :=
  ∀ before cip after, cips = before ++ cip :: after → (∀ o ∈ before, o.loc.place ≠ target.place) →
    ¬ cip.loc.Astray target

theorem noneAstray_cons {cip : CopyInProgress} {cips : List CopyInProgress} {target : DataLocation} :
    NoneAstray (cip :: cips) target ↔
      ¬ cip.loc.Astray target ∧ (cip.loc.place ≠ target.place → NoneAstray cips target) := by
  constructor
  · intro h
    refine ⟨h [] cip cips rfl (by simp), fun hne before o after hcips hbefore => ?_⟩
    refine h (cip :: before) o after (by simp [hcips]) fun x hx => ?_
    rcases List.mem_cons.1 hx with rfl | hx
    · exact hne
    · exact hbefore x hx
  · rintro ⟨hcip, hrest⟩ before o after hcips hbefore
    cases before with
    | nil =>
      cases hcips
      exact hcip
    | cons b before =>
      cases hcips
      exact hrest (hbefore cip (by simp)) before o after rfl fun x hx => hbefore x (by simp [hx])

theorem mergesSame_copyTo (target : DataLocation) (cips : List CopyInProgress) :
    MergesSame cips target (LogicalData.copyTo target cips) ↔ NoneAstray cips target := by
  induction cips with
  | nil =>
    simp only [LogicalData.copyTo]
    constructor
    · intro _ before cip after h
      simp at h
    · intro _
      exact ⟨none, rfl, by simp, by simp⟩
  | cons cip cips ih =>
    rw [noneAstray_cons, LogicalData.copyTo]
    by_cases hastray : cip.loc.Astray target
    · obtain ⟨hne, hnone | htrue⟩ := DataLocation.isTarget_of_astray hastray
      · rw [hnone]
        simp [MergesSame, hastray]
      · rw [htrue]
        simp [MergesSame, hastray, ← cip.ofCopy, hne]
    · rw [DataLocation.isTarget_of_not_astray hastray, Option.bind_some]
      by_cases hplace : cip.loc.place = target.place
      · simp [MergesSame, hastray, hplace, ← cip.ofCopy]
      · simp only [hplace, decide_false, Bool.false_eq_true, if_false, hastray, not_false_eq_true, true_and, ne_eq,
          forall_true_left]
        rw [← ih]
        simp [MergesSame, hplace]

/-- **Copies are merged by their targets unless one goes astray.** In all lists
of copies in progress and for all targets, `alreadyCopying` answers, and finds
a copy, with the target asked for, if and only if there is one, exactly if up
to the first such copy there is none to another path of the target's disk, and
none to a shared disk when the target is persistent. -/
theorem alreadyCopying_merges_same (d : LogicalData) (target : DataLocation) :
    MergesSame d.inProgress target (d.alreadyCopying target) ↔ NoneAstray d.inProgress target :=
  mergesSame_copyTo target d.inProgress

/-- The copy for modification of a file on a shared disk is taken for the copy
for reading that is in progress; a persistent target ends in an exception. -/
theorem shared_copies_merged :
    let d := (LogicalData.new "d1v1".toList).startCopy ⟨0, .SharedLocation .fileUri "gpfs".toList "d1v1".toList⟩
    d.alreadyCopying (.SharedLocation .fileUri "gpfs".toList "d1v2".toList) =
        some (some ⟨0, .SharedLocation .fileUri "gpfs".toList "d1v1".toList⟩) ∧
      ¬ MergesSame d.inProgress (.SharedLocation .fileUri "gpfs".toList "d1v2".toList)
        (d.alreadyCopying (.SharedLocation .fileUri "gpfs".toList "d1v2".toList)) ∧
      d.alreadyCopying (.PersistentLocation "d1".toList) = none := by
  refine ⟨by decide, ?_, by decide⟩
  rintro ⟨found, hfound, hsame, -⟩
  have hcopy : found = some ⟨0, .SharedLocation .fileUri "gpfs".toList "d1v1".toList⟩ := by
    refine (Option.some.inj (hfound.symm.trans ?_))
    decide
  exact absurd (hsame _ hcopy) (by decide)

end Compss.Locations
