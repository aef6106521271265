/-
What one `perform` of an `ImmediateCopy` does to the locations of the source
and the target datum.

`perform` ends early when the data is at the target host, or on its way to
the target; else it calls `specificCopy`, which the adaptor implements. Its
`finally` block takes the copy off the list of those in progress and adds the
target to the locations of the target datum, also when `specificCopy` has
raised.
-/
import Compss.Locations.LogicalData

namespace Compss.Locations

open Lib

/-- The target datum: null, the source datum itself or another one. -/
inductive TgtData
  | null
  | source
  | other (d : LogicalData)
  deriving DecidableEq, Repr

/-- What `perform` reads and writes. -/
structure CopyState where
  src : LogicalData
  tgtData : TgtData
  /-- `reason.getDataTarget()` -/
  dataTarget : Option Text
  deriving DecidableEq, Repr

/-- How `perform` ends: with one of the end states, or an exception. -/
inductive PerformEnd
  | ok
  | inProgress
  | failed
  | thrown
  deriving DecidableEq, Repr

inductive CopyOutcome
  | done
  | copyException
  | runtimeException
  deriving DecidableEq, Repr

/-- A `specificCopy`: how it ends, and the locations `writeToStorage` adds to the
source datum in it. -/
structure SpecificCopy where
  outcome : CopyOutcome
  written : List DataLocation

/-- What the synchronized block at the start of `perform` decides. -/
inductive Decision
  | thrown
  | available (u : MultiURI)
  | merged (u : MultiURI)
  | copy (targetHost : Resource)
  deriving DecidableEq, Repr

namespace CopyState
variable (env : Paths) (disks : SharedDiskManager)

def srcLocations (s : CopyState) : List DataLocation := s.src.getLocations

def tgtLocations (s : CopyState) : List DataLocation :=
  match s.tgtData with
  | .null => []
  | .source => s.src.getLocations
  | .other d => d.getLocations

/-- A copy without a target datum is always made. -/
def decision (s : CopyState) (c : Copy) : Decision :=
  match (c.tgtLoc.getHosts env disks).bind List.head? with
  | none => .thrown
  | some targetHost =>
    if s.tgtData = .null then .copy targetHost
    else
      match s.src.alreadyAvailable env disks targetHost with
      | some u => .available u
      | none =>
        match s.src.alreadyCopying c.tgtLoc with
        | none => .thrown
        | some none => .copy targetHost
        | some (some copyInProgress) =>
          match copyInProgress.tgtLoc.getURIInHost env disks targetHost with
          | none => .thrown
          | some u => .merged u

def setFinalTarget (s : CopyState) (u : MultiURI) : CopyState := { s with dataTarget := some u.path }

/-- The part of `writeToStorage` that concerns the locations. -/
def writeToStorage (d : LogicalData) (loc : DataLocation) : LogicalData :=
  { d with isBeingSaved := false, locations := d.locations.add DataLocation.compareTo loc }

/-- `startCopy` and `specificCopy`. -/
def specificCopy (sc : SpecificCopy) (s : CopyState) (c : Copy) : CopyState :=
  { s with src := sc.written.foldl writeToStorage (s.src.startCopy c) }

/-- `tgtData.addLocation`; fails when there is no location. -/
def addLocation (s : CopyState) (actualLocation : Option DataLocation) : Option CopyState :=
  match s.tgtData with
  | .null => some s
  | .source => actualLocation.map fun loc => { s with src := s.src.addLocation loc }
  | .other d => actualLocation.map fun loc => { s with tgtData := .other (d.addLocation loc) }

/-- The `finally` block. -/
def finish (s : CopyState) (c : Copy) : Option CopyState :=
  addLocation { s with src := (s.src.finishedCopy c).1 } (s.src.finishedCopy c).2

/-- What comes after the `try` statement. -/
def conclude (s : CopyState) (c : Copy) (targetHost : Resource) : CopyOutcome → CopyState × PerformEnd
  | .copyException => (s, .failed)
  | .runtimeException => (s, .thrown)
  | .done =>
    match c.tgtLoc.getURIInHost env disks targetHost with
    | none => (s, .thrown)
    | some u => (s.setFinalTarget u, .ok)

def perform (sc : SpecificCopy) (s : CopyState) (c : Copy) : CopyState × PerformEnd :=
  match s.decision env disks c with
  | .thrown => (s, .thrown)
  | .available u => (s.setFinalTarget u, .ok)
  | .merged u => (s.setFinalTarget u, .inProgress)
  | .copy targetHost =>
    match (s.specificCopy sc c).finish c with
    | none => (s.specificCopy sc c, .thrown)
    | some s => s.conclude env disks c targetHost sc.outcome

/-! ## What `perform` should leave -/

/-- The copy is over; the locations are other than before only if it ended
successfully, the data target only if it did not fail. -/
structure RegistersSuccess (before : CopyState) (c : Copy) (r : CopyState × PerformEnd) : Prop where
  finished : ∀ cip ∈ r.1.src.inProgress, cip.c ≠ c
  locations : r.2 ≠ .ok → r.1.srcLocations = before.srcLocations ∧ r.1.tgtLocations = before.tgtLocations
  target : r.2 = .failed ∨ r.2 = .thrown → r.1.dataTarget = before.dataTarget

/-- The copy is made, and ends without success. -/
def Fails (sc : SpecificCopy) (s : CopyState) (c : Copy) : Prop :=
  ∃ targetHost, s.decision env disks c = .copy targetHost ∧
    (sc.outcome ≠ .done ∨ c.tgtLoc.getURIInHost env disks targetHost = none)

/-- The target datum has the location already, or there is no target datum. -/
def HasLocation (s : CopyState) (loc : DataLocation) : Prop :=
  match s.tgtData with
  | .null => True
  | .source => s.src.locations.contains DataLocation.compareTo loc = true
  | .other d => d.locations.contains DataLocation.compareTo loc = true

/-- `perform` has nothing to register in a copy that fails. -/
structure NothingNew (sc : SpecificCopy) (s : CopyState) (c : Copy) : Prop where
  target : s.HasLocation c.tgtLoc
  written : ∀ loc ∈ sc.written, s.src.locations.contains DataLocation.compareTo loc = true

/-! ## Locations written -/

theorem length_add (loc : DataLocation) (d : LogicalData) :
    d.getLocations.length ≤ (writeToStorage d loc).getLocations.length := by
  simp only [LogicalData.getLocations, writeToStorage]
  rcases TreeSet.elems_add DataLocation.compareTo loc d.locations with ⟨he, -⟩ | ⟨q, -, ht, hadd⟩
  · exact Nat.le_of_eq (congrArg List.length he).symm
  · rw [ht, hadd]
    simp

theorem length_write : ∀ (locs : List DataLocation) (d : LogicalData),
    d.getLocations.length ≤ (locs.foldl writeToStorage d).getLocations.length
  | [], _ => Nat.le_refl _
  | loc :: locs, d => Nat.le_trans (length_add loc d) (length_write locs (writeToStorage d loc))

/-- Only what the set has already leaves it as it is. -/
theorem getLocations_write : ∀ (locs : List DataLocation) (d : LogicalData),
    (locs.foldl writeToStorage d).getLocations = d.getLocations ↔
      ∀ loc ∈ locs, d.locations.contains DataLocation.compareTo loc = true
  | [], _ => by simp
  | loc :: locs, d => by
    rw [List.foldl_cons]
    by_cases h : d.locations.contains DataLocation.compareTo loc = true
    · have hd : (writeToStorage d loc).locations = d.locations := TreeSet.add_of_contains h
      have ih := getLocations_write locs (writeToStorage d loc)
      rw [hd] at ih
      have hget : (writeToStorage d loc).getLocations = d.getLocations := congrArg TreeSet.elems hd
      rw [← hget, ih]
      simp [h]
    · have hne : (writeToStorage d loc).getLocations ≠ d.getLocations := fun he => h (TreeSet.elems_add_eq_iff.1 he)
      have hlt : d.getLocations.length < (writeToStorage d loc).getLocations.length := by
        rcases TreeSet.elems_add DataLocation.compareTo loc d.locations with ⟨he, -⟩ | ⟨q, -, ht, hadd⟩
        · exact absurd he hne
        · simp only [LogicalData.getLocations, writeToStorage, ht, hadd]
          simp
      have hle := length_write locs (writeToStorage d loc)
      constructor
      · intro heq
        rw [heq] at hle
        omega
      · intro hall
        exact absurd (hall loc (by simp)) h

@[simp] theorem inProgress_write : ∀ (locs : List DataLocation) (d : LogicalData),
    (locs.foldl writeToStorage d).inProgress = d.inProgress
  | [], _ => rfl
  | loc :: locs, d => inProgress_write locs (writeToStorage d loc)

/-- The locations do not depend on the copies in progress. -/
theorem locations_write_congr : ∀ (locs : List DataLocation) {d e : LogicalData}, d.locations = e.locations →
    (locs.foldl writeToStorage d).locations = (locs.foldl writeToStorage e).locations
  | [], _, _, h => h
  | loc :: locs, d, e, h => locations_write_congr locs (by simp [writeToStorage, h])

/-! ## The copy -/

theorem find_inProgress {cips : List CopyInProgress} {c : Copy} (hc : ∀ cip ∈ cips, cip.c ≠ c) :
    (cips ++ [(⟨c, c.tgtLoc, rfl⟩ : CopyInProgress)]).find? (fun cip => cip.c == c) = some ⟨c, c.tgtLoc, rfl⟩ ∧
      (cips ++ [(⟨c, c.tgtLoc, rfl⟩ : CopyInProgress)]).eraseP (fun cip => cip.c == c) = cips := by
  have hno : ∀ cip ∈ cips, ¬ (cip.c == c) = true := fun cip hcip => by simpa using hc cip hcip
  rw [List.find?_append, List.find?_eq_none.2 hno, List.eraseP_append_right _ hno]
  simp

variable (sc : SpecificCopy) (s : CopyState) {c : Copy} {targetHost : Resource}

/-- The copy is made: the locations are as before if there was nothing to
register, whatever came of it. -/
theorem finish_specificCopy (hc : ∀ cip ∈ s.src.inProgress, cip.c ≠ c) :
    ∃ s', (s.specificCopy sc c).finish c = some s' ∧ s'.src.inProgress = s.src.inProgress ∧
      s'.dataTarget = s.dataTarget ∧
      (s'.srcLocations = s.srcLocations ∧ s'.tgtLocations = s.tgtLocations ↔ NothingNew sc s c) := by
  obtain ⟨hfind, herase⟩ := find_inProgress hc
  obtain ⟨src, tgtData, dataTarget⟩ := s
  have hin : ((specificCopy sc ⟨src, tgtData, dataTarget⟩ c).src).inProgress = src.inProgress ++ [⟨c, c.tgtLoc, rfl⟩] := by
    simp [specificCopy, LogicalData.startCopy]
  have hloc : ((specificCopy sc ⟨src, tgtData, dataTarget⟩ c).src.finishedCopy c).2 = some c.tgtLoc := by
    rw [LogicalData.finishedCopy, hin, hfind, Option.map_some]
  have hlocs : ((specificCopy sc ⟨src, tgtData, dataTarget⟩ c).src.finishedCopy c).1.locations =
      (sc.written.foldl writeToStorage src).locations := locations_write_congr sc.written rfl
  have hinp : ((specificCopy sc ⟨src, tgtData, dataTarget⟩ c).src.finishedCopy c).1.inProgress = src.inProgress := by
    rw [LogicalData.finishedCopy, hin, herase]
  have hsrc := getLocations_write sc.written src
  change ∃ s', addLocation ⟨((specificCopy sc ⟨src, tgtData, dataTarget⟩ c).src.finishedCopy c).1, tgtData, dataTarget⟩
    ((specificCopy sc ⟨src, tgtData, dataTarget⟩ c).src.finishedCopy c).2 = some s' ∧ _
  rw [hloc]
  generalize ((specificCopy sc ⟨src, tgtData, dataTarget⟩ c).src.finishedCopy c).1 = d at hlocs hinp
  have hd : d.getLocations = src.getLocations ↔
      ∀ loc ∈ sc.written, src.locations.contains DataLocation.compareTo loc = true := by
    rw [← hsrc, LogicalData.getLocations, hlocs]
    rfl
  cases tgtData with
  | null =>
    refine ⟨_, rfl, hinp, rfl, ?_⟩
    simp only [srcLocations, tgtLocations, hd, and_true]
    exact ⟨fun h => ⟨trivial, h⟩, fun h => h.written⟩
  | source =>
    refine ⟨_, rfl, hinp, rfl, ?_⟩
    -- the target is one more location written to the same datum
    have hadd : (d.addLocation c.tgtLoc).getLocations = ((sc.written ++ [c.tgtLoc]).foldl writeToStorage src).getLocations := by
      rw [List.foldl_append]
      simp only [LogicalData.getLocations, LogicalData.addLocation, List.foldl_cons, List.foldl_nil, writeToStorage, hlocs]
    simp only [srcLocations, tgtLocations, and_self, hadd, getLocations_write]
    constructor
    · intro h
      exact ⟨h c.tgtLoc (by simp), fun loc hloc => h loc (by simp [hloc])⟩
    · intro h loc hloc
      rcases List.mem_append.1 hloc with hloc | hloc
      · exact h.written loc hloc
      · exact List.mem_singleton.1 hloc ▸ h.target
  | other e =>
    refine ⟨_, rfl, hinp, rfl, ?_⟩
    simp only [srcLocations, tgtLocations, hd]
    constructor
    · intro h
      exact ⟨TreeSet.elems_add_eq_iff.1 h.2, h.1⟩
    · intro h
      exact ⟨h.written, TreeSet.elems_add_eq_iff.2 h.target⟩

theorem conclude_src (o : CopyOutcome) : (s.conclude env disks c targetHost o).1.src = s.src := by
  cases o with
  | done =>
    rw [conclude]
    split <;> rfl
  | copyException => rfl
  | runtimeException => rfl

variable {s} in
theorem inProgress_finish {s' : CopyState} (h : s.finish c = some s') :
    s'.src.inProgress = s.src.inProgress.eraseP fun cip => cip.c == c := by
  obtain ⟨src, tgtData, dataTarget⟩ := s
  cases tgtData with
  | null =>
    cases h
    rfl
  | source =>
    obtain ⟨loc, -, rfl⟩ := Option.map_eq_some_iff.1 h
    rfl
  | other e =>
    obtain ⟨loc, -, rfl⟩ := Option.map_eq_some_iff.1 h
    rfl

/-- A copy that was in progress already is so afterwards. -/
theorem perform_of_inProgress (hc : ∃ cip ∈ s.src.inProgress, cip.c = c) :
    ∃ cip ∈ (perform env disks sc s c).1.src.inProgress, cip.c = c := by
  have hin : (s.specificCopy sc c).src.inProgress = s.src.inProgress ++ [⟨c, c.tgtLoc, rfl⟩] := by
    simp [specificCopy, LogicalData.startCopy]
  rw [perform]
  split
  · exact hc
  · exact hc
  · exact hc
  split
  · exact ⟨⟨c, c.tgtLoc, rfl⟩, by simp [hin], rfl⟩
  · rename_i s' hs'
    obtain ⟨cip, hcip, heq⟩ := hc
    refine ⟨⟨c, c.tgtLoc, rfl⟩, ?_, rfl⟩
    rw [conclude_src, inProgress_finish hs', hin, List.eraseP_append_left (by simpa using heq) _ hcip]
    simp

variable {env disks s} in
/-- What is left to show when the copy is made. -/
theorem registersSuccess_conclude {before : CopyState} (hfinished : ∀ cip ∈ s.src.inProgress, cip.c ≠ c)
    (htarget : s.dataTarget = before.dataTarget) (o : CopyOutcome) :
    RegistersSuccess before c (s.conclude env disks c targetHost o) ↔
      ((o ≠ .done ∨ c.tgtLoc.getURIInHost env disks targetHost = none) →
        s.srcLocations = before.srcLocations ∧ s.tgtLocations = before.tgtLocations) := by
  have hfails : ∀ e : PerformEnd, e ≠ .ok → (RegistersSuccess before c (s, e) ↔
      s.srcLocations = before.srcLocations ∧ s.tgtLocations = before.tgtLocations) := fun e he =>
    ⟨fun h => h.locations he, fun h => ⟨hfinished, fun _ => h, fun _ => htarget⟩⟩
  cases o with
  | done =>
    rw [conclude]
    split
    · rename_i hnone
      simp [hnone, hfails .thrown (by decide)]
    · rename_i u hu
      have hok : RegistersSuccess before c (s.setFinalTarget u, .ok) := ⟨hfinished, fun h => absurd rfl h, by simp⟩
      simp [hu, hok]
  | copyException => simp [conclude, hfails .failed (by decide)]
  | runtimeException => simp [conclude, hfails .thrown (by decide)]

end CopyState

/-- **When a failed copy registers nothing.** In all states, with all outcomes
of `specificCopy`, `perform` leaves the copy over, the locations as they were
unless the copy ended with success, and the data target unless it did not
fail, exactly if the copy was not in progress already and, when it is made and
fails, the target datum is null or has the target among its locations, and
`specificCopy` has written none that the source datum does not have. -/
theorem perform_registers_success (env : Paths) (disks : SharedDiskManager) (sc : SpecificCopy) (s : CopyState)
    (c : Copy) :
    s.RegistersSuccess c (s.perform env disks sc c) ↔
      (∀ cip ∈ s.src.inProgress, cip.c ≠ c) ∧ (s.Fails env disks sc c → s.NothingNew sc c) := by
  by_cases hc : ∀ cip ∈ s.src.inProgress, cip.c ≠ c
  · rw [and_iff_right hc]
    unfold CopyState.perform CopyState.Fails
    split
    · rename_i hdec
      simp only [hdec, reduceCtorEq, false_and, exists_const, false_imp_iff, iff_true]
      exact ⟨hc, fun _ => ⟨rfl, rfl⟩, fun _ => rfl⟩
    · rename_i u hdec
      simp only [hdec, reduceCtorEq, false_and, exists_const, false_imp_iff, iff_true]
      exact ⟨hc, fun h => absurd rfl h, by simp⟩
    · rename_i u hdec
      simp only [hdec, reduceCtorEq, false_and, exists_const, false_imp_iff, iff_true]
      exact ⟨hc, fun _ => ⟨rfl, rfl⟩, by simp⟩
    · rename_i targetHost hdec
      obtain ⟨s', hs', hin, htarget, hlocs⟩ := s.finish_specificCopy sc hc
      rw [hs']
      simp only [CopyState.registersSuccess_conclude (hin ▸ hc) htarget, hlocs, hdec, Decision.copy.injEq,
        exists_eq_left']
  · simp only [hc, false_and, iff_false]
    push Not at hc
    intro h
    obtain ⟨cip, hcip, heq⟩ := s.perform_of_inProgress env disks sc hc
    exact h.finished cip hcip heq

/-- A copy to a worker that fails leaves its target among the locations of the
target datum. -/
theorem failed_copy_registered :
    let c : Copy := ⟨0, .PrivateLocation ⟨.fileUri, "worker".toList, "/tmp/d1v2".toList⟩⟩
    let s : CopyState := ⟨.new "d1v1".toList, .other (.new "d1v2".toList), none⟩
    let r := s.perform ⟨HashOrder.asPut _, some, some, fun _ => []⟩ .empty ⟨.copyException, []⟩ c
    r.2 = .failed ∧ s.tgtLocations = [] ∧ r.1.tgtLocations = [c.tgtLoc] := by
  refine ⟨by decide, by decide, by decide⟩

end Compss.Locations
