/-
Which location `removeHostAndCheckLocationToSave` returns when a host leaves.

The loop removes the private locations of the host and keeps the last of
them; without one, it makes a location for the first shared one whose disk the
host was the last to have. It looks at no location of another host and at no
persistent one, and when `isBeingSaved` is still set from the last removal it
is not run at all.
-/
import Compss.Lib.Run
import Compss.Locations.LogicalData

namespace Compss.Locations

open Lib

namespace DataLocation

/-- A private location of the host. -/
def onHost (host : Resource) : DataLocation → Bool
  | PrivateLocation uri => uri.host = host
  | _ => false

/-- A shared location whose disk the host had, and no host has any more. -/
def orphaned (disks : SharedDiskManager) (mounts : Text → Option Text) : DataLocation → Bool
  | SharedLocation _ diskName _ => disks.getAllMachinesfromDisk diskName = some [] && (mounts diskName).isSome
  | _ => false

/-- On a remaining host, or persistent. -/
def Elsewhere (disks : SharedDiskManager) (host : Resource) : DataLocation → Prop
  | PrivateLocation uri => uri.host ≠ host
  | SharedLocation _ diskName _ => ∃ hosts, disks.getAllMachinesfromDisk diskName = some hosts ∧ hosts ≠ []
  | PersistentLocation _ => True

end DataLocation

open DataLocation

namespace LogicalData

/-! ## The loop -/

section
variable {env : Paths} {disks : SharedDiskManager} {host : Resource} {mounts : Text → Option Text}

/-- What a turn of the loop does. -/
theorem checkLocation_eq (s : Saving) (loc : DataLocation) :
    checkLocation env disks host mounts s loc =
      if loc.onHost host then some (⟨some loc, true⟩, true)
      else if loc.getHosts env disks = none then none
      else if loc.orphaned disks mounts ∧ s.uniqueHostLocation = none then
        (lastLocation env disks host loc).map fun unique => (⟨some unique, true⟩, false)
      else some (s, false) := by
  cases loc with
  | PrivateLocation uri =>
    by_cases h : uri.host = host <;> simp [checkLocation, onHost, getHosts, orphaned, h]
  | SharedLocation p diskName q =>
    simp only [checkLocation, onHost, getHosts, orphaned, Bool.false_eq_true, if_false, Bool.and_eq_true,
      decide_eq_true_eq]
    cases h : disks.getAllMachinesfromDisk diskName with
    | none => simp
    | some hosts => simp [and_assoc]
  | PersistentLocation id => simp [checkLocation, onHost, getHosts, orphaned]

/-- The locations that are not private ones of the host stay. -/
theorem elems_checkLocations : ∀ (locs kept : List DataLocation) (s : Saving) (t : TreeSet DataLocation)
    {s' : Saving} {t' : TreeSet DataLocation}, t.elems = kept ++ locs →
      checkLocations env disks host mounts locs kept.length s t = some (s', t') →
      t'.elems = kept ++ locs.filter fun l => !l.onHost host
  | [], kept, s, t, s', t', ht, h => by
    cases h
    simpa using ht
  | loc :: locs, kept, s, t, s', t', ht, h => by
    rw [checkLocations, Option.bind_eq_some_iff] at h
    obtain ⟨⟨s₁, removed⟩, hcheck, h⟩ := h
    rw [checkLocation_eq] at hcheck
    by_cases hon : loc.onHost host = true
    · rw [if_pos hon] at hcheck
      cases hcheck
      have hremoved : (t.removeAt kept.length).elems = kept ++ locs := by
        rw [TreeSet.elems_removeAt (by simp [ht]), ht]
        simp
      rw [elems_checkLocations locs kept _ _ hremoved h]
      simp [hon]
    · have hfalse : removed = false := by
        rw [if_neg hon] at hcheck
        split at hcheck
        · cases hcheck
        split at hcheck
        · obtain ⟨_, -, heq⟩ := Option.map_eq_some_iff.1 hcheck
          exact (congrArg Prod.snd heq).symm
        · exact (congrArg Prod.snd (Option.some.inj hcheck)).symm
      subst hfalse
      have hkept : t.elems = (kept ++ [loc]) ++ locs := by simp [ht]
      rw [show kept.length + 1 = (kept ++ [loc]).length by simp] at h
      rw [elems_checkLocations locs (kept ++ [loc]) _ _ hkept h]
      simp [hon]

/-- The last private location of the host; else what was there before; else one
for the first orphaned location. -/
theorem unique_checkLocations : ∀ (locs : List DataLocation) (i : Nat) (s : Saving) (t : TreeSet DataLocation)
    {s' : Saving} {t' : TreeSet DataLocation}, checkLocations env disks host mounts locs i s t = some (s', t') →
      s'.uniqueHostLocation = ((locs.filter (onHost host)).getLast?).or
        (s.uniqueHostLocation.or ((locs.find? (orphaned disks mounts)).bind (lastLocation env disks host)))
  | [], i, s, t, s', t', h => by
    cases h
    simp
  | loc :: locs, i, s, t, s', t', h => by
    rw [checkLocations, Option.bind_eq_some_iff] at h
    obtain ⟨⟨s₁, removed⟩, hcheck, h⟩ := h
    have hrest : s'.uniqueHostLocation = ((locs.filter (onHost host)).getLast?).or
        (s₁.uniqueHostLocation.or ((locs.find? (orphaned disks mounts)).bind (lastLocation env disks host))) := by
      cases removed with
      | true => exact unique_checkLocations locs _ _ _ h
      | false => exact unique_checkLocations locs _ _ _ h
    rw [hrest]
    rw [checkLocation_eq] at hcheck
    by_cases hon : loc.onHost host = true
    · rw [if_pos hon] at hcheck
      cases hcheck
      rw [List.filter_cons_of_pos hon, List.getLast?_cons]
      cases (locs.filter (onHost host)).getLast? <;> simp
    rw [if_neg hon] at hcheck
    rw [List.filter_cons_of_neg hon]
    split at hcheck
    · cases hcheck
    split at hcheck
    · rename_i horphaned
      obtain ⟨unique, hlast, heq⟩ := Option.map_eq_some_iff.1 hcheck
      cases heq
      rw [List.find?_cons_of_pos horphaned.1, horphaned.2, Option.bind_some, hlast]
      simp
    · rename_i horphaned
      cases hcheck
      cases hunique : s.uniqueHostLocation with
      | some u => simp
      | none =>
        rw [List.find?_cons_of_neg fun ho => horphaned ⟨ho, hunique⟩]

/-- Private on the host, or orphaned. -/
def candidate (disks : SharedDiskManager) (host : Resource) (mounts : Text → Option Text) (l : DataLocation) : Bool :=
  l.onHost host || l.orphaned disks mounts

/-- The loop throws at a disk that was never mounted, and where the location for
an orphaned one cannot be made. -/
theorem isSome_checkLocations : ∀ (locs : List DataLocation) (i : Nat) (s : Saving) (t : TreeSet DataLocation),
    (checkLocations env disks host mounts locs i s t).isSome ↔
      (∀ l ∈ locs, l.getHosts env disks ≠ none) ∧
        (s.uniqueHostLocation = none → ∀ l, locs.find? (candidate disks host mounts) = some l →
          l.orphaned disks mounts = true → (lastLocation env disks host l).isSome)
  | [], i, s, t => by simp [checkLocations]
  | loc :: locs, i, s, t => by
    rw [checkLocations, checkLocation_eq]
    by_cases hon : loc.onHost host = true
    · have hhosts : loc.getHosts env disks ≠ none := by
        cases loc <;> simp [onHost] at hon
        simp [getHosts]
      have horphaned : loc.orphaned disks mounts = false := by
        cases loc <;> simp [onHost] at hon
        rfl
      rw [if_pos hon, Option.bind_some]
      simp [isSome_checkLocations locs, hhosts, candidate, hon, horphaned]
    rw [if_neg hon]
    by_cases hhosts : loc.getHosts env disks = none
    · simp [hhosts]
    rw [if_neg hhosts]
    by_cases horphaned : loc.orphaned disks mounts = true
    · by_cases hunique : s.uniqueHostLocation = none
      · rw [if_pos ⟨horphaned, hunique⟩]
        cases hlast : lastLocation env disks host loc with
        | none => simp [hunique, candidate, horphaned, hlast]
        | some u => simp [isSome_checkLocations locs, hhosts, candidate, horphaned, hlast]
      · rw [if_neg fun h => hunique h.2, Option.bind_some]
        simp [isSome_checkLocations locs, hhosts, hunique]
    · rw [if_neg fun h => horphaned h.1, Option.bind_some]
      have hcandidate : ¬ candidate disks host mounts loc = true := by simp [candidate, hon, horphaned]
      simp only [isSome_checkLocations locs, List.find?_cons_of_neg hcandidate, List.forall_mem_cons, hhosts, ne_eq,
        not_false_eq_true, true_and]

end

/-! ## The location saved from -/

/-- The host is no longer in the table: the location is a private one, at the
path in its normal form. -/
theorem lastLocation_terminate (env : Paths) (disks : SharedDiskManager) (host : Resource) (loc : DataLocation) :
    lastLocation env (disks.terminate host).1 host loc =
      (canonicalPath env (behindHostname loc.getPath)).map fun path => .PrivateLocation ⟨.fileUri, host, path⟩ := by
  obtain ⟨u, hnew, hpath, hschema⟩ := SimpleURI.new_schema .fileUri loc.getPath
  have hgone : (disks.terminate host).1.machine2Shareds host = none := by
    rw [SharedDiskManager.terminate]
    split
    · assumption
    · simp
  rw [lastLocation, hnew, Option.bind_some, createLocation, hschema, Protocol.getBySchema_schema]
  simp only [Option.getD_some, hpath]
  cases canonicalPath env (behindHostname loc.getPath) with
  | none => rfl
  | some path => simp [ofPath, SharedDiskManager.getSharedName, hgone]

/-! ## One removal -/

/-- Takes the host out of the table of shared disks, and then out of the datum. -/
def removeHost (env : Paths) (disks : SharedDiskManager) (host : Resource) (d : LogicalData) :
    Option (LogicalData × Option DataLocation) :=
  d.removeHostAndCheckLocationToSave env (disks.terminate host).1 host (disks.terminate host).2

/-- No private location of the host is left. A location is returned exactly when
the datum was on the host, is on no other host and not persistent; its path is
one the datum had on the host. -/
def SavesUnique (env : Paths) (disks : SharedDiskManager) (host : Resource) (d : LogicalData)
    (r : Option (LogicalData × Option DataLocation)) : Prop :=
  ∃ d' found, r = some (d', found) ∧ (∀ l ∈ d'.getLocations, l.onHost host = false) ∧
    (found.isSome ↔ (∃ l ∈ d.getLocations, (l.getURIInHost env disks host).isSome) ∧
      ∀ l ∈ d.getLocations, ¬ l.Elsewhere (disks.terminate host).1 host) ∧
    ∀ loc, found = some loc → ∃ l ∈ d.getLocations, ∃ u, l.getURIInHost env disks host = some u ∧ loc.getPath = u.path

/-- A datum not marked as being saved: its disks are in the table; what the
removal finds is nowhere else; and when it first finds an orphaned location,
that one's path has a normal form, which is the path it had on the host unless
there are private locations too. -/
structure Saveable (env : Paths) (disks : SharedDiskManager) (host : Resource) (d : LogicalData) : Prop where
  known : ∀ l ∈ d.getLocations, l.getHosts env (disks.terminate host).1 ≠ none
  unique : (∃ l ∈ d.getLocations, candidate (disks.terminate host).1 host (disks.terminate host).2 l = true) →
    ∀ l ∈ d.getLocations, ¬ l.Elsewhere (disks.terminate host).1 host
  path : ∀ l, d.getLocations.find? (candidate (disks.terminate host).1 host (disks.terminate host).2) = some l →
    l.orphaned (disks.terminate host).1 (disks.terminate host).2 = true →
      ∃ path, canonicalPath env (behindHostname l.getPath) = some path ∧
        ((∀ o ∈ d.getLocations, o.onHost host = false) →
          ∃ o ∈ d.getLocations, ∃ u, o.getURIInHost env disks host = some u ∧ path = u.path)

/-- A datum marked as being saved has nothing on the host that would have to be
removed, or saved. -/
structure Untouched (env : Paths) (disks : SharedDiskManager) (host : Resource) (d : LogicalData) : Prop where
  notOnHost : ∀ l ∈ d.getLocations, l.onHost host = false
  notUnique : (∃ l ∈ d.getLocations, (l.getURIInHost env disks host).isSome) →
    ∃ l ∈ d.getLocations, l.Elsewhere (disks.terminate host).1 host

def CanSave (env : Paths) (disks : SharedDiskManager) (host : Resource) (d : LogicalData) : Prop :=
  if d.isBeingSaved then Untouched env disks host d else Saveable env disks host d

theorem mounts_terminate (disks : SharedDiskManager) (host : Resource) (diskName : Text) :
    (disks.terminate host).2 diskName = disks.getMounpoint host diskName := by
  rw [SharedDiskManager.terminate, SharedDiskManager.getMounpoint]
  split
  · rename_i h
    simp [h]
  · rename_i h
    simp [h, Machine.getPath]

section
variable {env : Paths} {disks : SharedDiskManager} {host : Resource} {d : LogicalData}

/-- What the removal finds was on the host. -/
theorem isSome_getURIInHost_of_candidate {l : DataLocation}
    (h : candidate (disks.terminate host).1 host (disks.terminate host).2 l = true) :
    (l.getURIInHost env disks host).isSome := by
  cases l with
  | PrivateLocation uri =>
    have : uri.host = host := by simpa [candidate, onHost, orphaned] using h
    simp [getURIInHost, this]
  | SharedLocation p diskName q =>
    simp only [candidate, onHost, orphaned, Bool.false_or, Bool.and_eq_true, mounts_terminate] at h
    simpa [getURIInHost] using h.2
  | PersistentLocation id => simp [candidate, onHost, orphaned] at h

/-- What was on the host, and is not elsewhere, the removal finds. -/
theorem candidate_of_isSome_getURIInHost {l : DataLocation} (h : (l.getURIInHost env disks host).isSome)
    (helse : ¬ l.Elsewhere (disks.terminate host).1 host) (hknown : l.getHosts env (disks.terminate host).1 ≠ none) :
    candidate (disks.terminate host).1 host (disks.terminate host).2 l = true := by
  cases l with
  | PrivateLocation uri =>
    simp only [Elsewhere, ne_eq, not_not] at helse
    simp [candidate, onHost, helse]
  | SharedLocation p diskName q =>
    obtain ⟨hosts, hhosts⟩ := Option.ne_none_iff_exists'.1 hknown
    simp only [getHosts] at hhosts
    simp only [Elsewhere, hhosts, Option.some.injEq, exists_eq_left', ne_eq, not_not] at helse
    have hmount : (disks.getMounpoint host diskName).isSome := by simpa [getURIInHost] using h
    simp [candidate, onHost, orphaned, hhosts, helse, mounts_terminate, hmount]
  | PersistentLocation id => exact absurd trivial helse

/-- A removal that runs to its end: the private locations of the host are gone,
and what it returns. -/
theorem removeHost_eq (hsaving : d.isBeingSaved = false) {d' : LogicalData} {found : Option DataLocation}
    (h : removeHost env disks host d = some (d', found)) :
    d'.getLocations = (d.getLocations.filter fun l => !l.onHost host) ∧
      found = ((d.getLocations.filter (onHost host)).getLast?).or
        ((d.getLocations.find? (orphaned (disks.terminate host).1 (disks.terminate host).2)).bind
          (lastLocation env (disks.terminate host).1 host)) := by
  rw [removeHost, removeHostAndCheckLocationToSave, hsaving] at h
  obtain ⟨⟨s, t⟩, hloop, heq⟩ := Option.map_eq_some_iff.1 h
  cases heq
  refine ⟨elems_checkLocations d.getLocations [] _ _ rfl hloop, ?_⟩
  simpa using unique_checkLocations _ _ _ _ hloop

theorem isSome_removeHost (hsaving : d.isBeingSaved = false) :
    (removeHost env disks host d).isSome ↔
      (∀ l ∈ d.getLocations, l.getHosts env (disks.terminate host).1 ≠ none) ∧
        ∀ l, d.getLocations.find? (candidate (disks.terminate host).1 host (disks.terminate host).2) = some l →
          l.orphaned (disks.terminate host).1 (disks.terminate host).2 = true →
            (canonicalPath env (behindHostname l.getPath)).isSome := by
  rw [removeHost, removeHostAndCheckLocationToSave, hsaving, if_neg Bool.false_ne_true, Option.isSome_map,
    isSome_checkLocations]
  simp [lastLocation_terminate]

/-- Without private locations of the host the removal finds orphaned ones. -/
theorem candidate_eq_orphaned {mounts : Text → Option Text} (hno : ∀ l ∈ d.getLocations, l.onHost host = false) :
    d.getLocations.find? (candidate disks host mounts) = d.getLocations.find? (orphaned disks mounts) := by
  generalize d.getLocations = locs at hno
  induction locs with
  | nil => rfl
  | cons l locs ih =>
    have hl : candidate disks host mounts l = orphaned disks mounts l := by
      rw [candidate, hno l (by simp), Bool.false_or]
    simp only [List.find?_cons, hl, ih fun o ho => hno o (by simp [ho])]

theorem getLast?_onHost (hno : ∀ l ∈ d.getLocations, l.onHost host = false) :
    (d.getLocations.filter (onHost host)).getLast? = none := by
  have : d.getLocations.filter (onHost host) = [] := List.filter_eq_nil_iff.2 fun l hl => by simp [hno l hl]
  rw [this, List.getLast?_nil]

/-- Something is returned when something is found. -/
theorem isSome_found {d' : LogicalData} {found : Option DataLocation} (hsaving : d.isBeingSaved = false)
    (h : removeHost env disks host d = some (d', found)) :
    found.isSome ↔ ∃ l ∈ d.getLocations, candidate (disks.terminate host).1 host (disks.terminate host).2 l = true := by
  have hcanon := ((isSome_removeHost hsaving).1 (by rw [h]; rfl)).2
  rw [(removeHost_eq hsaving h).2]
  by_cases hon : ∃ l ∈ d.getLocations, l.onHost host = true
  · obtain ⟨l, hl, hlon⟩ := hon
    have hne : d.getLocations.filter (onHost host) ≠ [] := List.ne_nil_of_mem (List.mem_filter.2 ⟨hl, hlon⟩)
    have hlast : (d.getLocations.filter (onHost host)).getLast?.isSome := by simpa using hne
    simp only [Option.isSome_or, hlast, Bool.true_or, true_iff]
    exact ⟨l, hl, by simp [candidate, hlon]⟩
  · have hno : ∀ l ∈ d.getLocations, l.onHost host = false := by simpa using hon
    rw [getLast?_onHost hno, Option.none_or, ← candidate_eq_orphaned hno]
    constructor
    · intro hsome
      cases hfind : d.getLocations.find? (candidate (disks.terminate host).1 host (disks.terminate host).2) with
      | none => simp [hfind] at hsome
      | some l => exact ⟨l, List.mem_of_find?_eq_some hfind, List.find?_some hfind⟩
    · intro hex
      obtain ⟨l, hfind⟩ := Option.isSome_iff_exists.1 (List.find?_isSome.2 hex)
      have hl : l.orphaned (disks.terminate host).1 (disks.terminate host).2 = true := by
        simpa [candidate, hno l (List.mem_of_find?_eq_some hfind)] using List.find?_some hfind
      rw [hfind, Option.bind_some, lastLocation_terminate, Option.isSome_map]
      exact hcanon l hfind hl

theorem savesUnique_of_not_saving (hsaving : d.isBeingSaved = false) :
    SavesUnique env disks host d (removeHost env disks host d) ↔ Saveable env disks host d := by
  constructor
  · rintro ⟨d', found, heq, -, hfound, hpath⟩
    obtain ⟨hknown, hcanon⟩ := (isSome_removeHost hsaving).1 (by rw [heq]; rfl)
    refine ⟨hknown, fun hex => (hfound.1 ((isSome_found hsaving heq).2 hex)).2, fun l hfind hl => ?_⟩
    obtain ⟨path, hp⟩ := Option.isSome_iff_exists.1 (hcanon l hfind hl)
    refine ⟨path, hp, fun hno => ?_⟩
    refine hpath (.PrivateLocation ⟨.fileUri, host, path⟩) ?_
    rw [(removeHost_eq hsaving heq).2, getLast?_onHost hno, ← candidate_eq_orphaned hno, hfind, Option.none_or,
      Option.bind_some, lastLocation_terminate, hp, Option.map_some]
  · intro h
    have hsome : (removeHost env disks host d).isSome := by
      refine (isSome_removeHost hsaving).2 ⟨h.known, fun l hfind hl => ?_⟩
      obtain ⟨path, hp, -⟩ := h.path l hfind hl
      simp [hp]
    obtain ⟨⟨d', found⟩, heq⟩ := Option.isSome_iff_exists.1 hsome
    obtain ⟨hlocs, hfoundeq⟩ := removeHost_eq hsaving heq
    refine ⟨d', found, heq, ?_, ?_, ?_⟩
    · intro l hl
      rw [hlocs, List.mem_filter] at hl
      simpa using hl.2
    · rw [isSome_found hsaving heq]
      constructor
      · intro hex
        have helse := h.unique hex
        obtain ⟨l, hl, hc⟩ := hex
        exact ⟨⟨l, hl, isSome_getURIInHost_of_candidate hc⟩, helse⟩
      · rintro ⟨⟨l, hl, hreach⟩, helse⟩
        exact ⟨l, hl, candidate_of_isSome_getURIInHost hreach (helse l hl) (h.known l hl)⟩
    · intro loc hloc
      rw [hfoundeq, Option.or_eq_some_iff] at hloc
      rcases hloc with hlast | ⟨hnone, hloc⟩
      · have hmem := List.mem_filter.1 (List.mem_of_getLast? hlast)
        refine ⟨loc, hmem.1, ?_⟩
        cases loc with
        | PrivateLocation uri => exact ⟨uri, by simpa [getURIInHost, onHost] using hmem.2, rfl⟩
        | SharedLocation p diskName q => simp [onHost] at hmem
        | PersistentLocation id => simp [onHost] at hmem
      · have hno : ∀ l ∈ d.getLocations, l.onHost host = false := by
          have hnil := List.filter_eq_nil_iff.1 (List.getLast?_eq_none_iff.1 hnone)
          intro l hl
          simpa using hnil l hl
        obtain ⟨l, hfind, hlast⟩ := Option.bind_eq_some_iff.1 hloc
        have hl : l.orphaned (disks.terminate host).1 (disks.terminate host).2 = true := List.find?_some hfind
        rw [← candidate_eq_orphaned hno] at hfind
        obtain ⟨path, hp, hstored⟩ := h.path l hfind hl
        rw [lastLocation_terminate, hp, Option.map_some, Option.some.injEq] at hlast
        exact hlast ▸ hstored hno

theorem savesUnique_of_saving (hsaving : d.isBeingSaved = true) :
    SavesUnique env disks host d (removeHost env disks host d) ↔ Untouched env disks host d := by
  have hr : removeHost env disks host d = some (d, none) := by
    rw [removeHost, removeHostAndCheckLocationToSave, if_pos hsaving]
  constructor
  · rintro ⟨d', found, heq, hno, hfound, -⟩
    cases hr.symm.trans heq
    refine ⟨hno, fun hreach => ?_⟩
    by_contra helse
    push Not at helse
    simpa using hfound.2 ⟨hreach, helse⟩
  · intro h
    refine ⟨d, none, hr, h.notOnHost, ?_, by simp⟩
    simp only [Option.isSome_none, Bool.false_eq_true, false_iff, not_and]
    intro hreach hno
    obtain ⟨l, hl, helse⟩ := h.notUnique hreach
    exact hno l hl helse

theorem savesUnique_removeHost : SavesUnique env disks host d (removeHost env disks host d) ↔ CanSave env disks host d := by
  rw [CanSave]
  split
  · rename_i h
    exact savesUnique_of_saving h
  · rename_i h
    exact savesUnique_of_not_saving (by simpa using h)

end

end LogicalData

/-! ## Runs -/

/-- A datum, with the shared disks. -/
structure Removals where
  datum : LogicalData
  disks : SharedDiskManager

inductive RemovalCall
  | removeHost (host : Resource)
  | addLocation (loc : DataLocation)

namespace Removals
variable (env : Paths)

/-- A removal that throws leaves the datum as it was. -/
def step (s : Removals) : RemovalCall → Option Removals
  | .removeHost host =>
    some ⟨((s.datum.removeHost env s.disks host).map Prod.fst).getD s.datum, (s.disks.terminate host).1⟩
  | .addLocation loc => some ⟨s.datum.addLocation loc, s.disks⟩

/-- A removal returns what it should. -/
def Saves (s : Removals) : RemovalCall → Prop
  | .removeHost host => LogicalData.SavesUnique env s.disks host s.datum (s.datum.removeHost env s.disks host)
  | .addLocation _ => True

def CanSave (s : Removals) : RemovalCall → Prop
  | .removeHost host => LogicalData.CanSave env s.disks host s.datum
  | .addLocation _ => True

theorem saves_iff (s : Removals) (c : RemovalCall) : s.Saves env c ↔ s.CanSave env c := by
  cases c with
  | removeHost host => exact LogicalData.savesUnique_removeHost
  | addLocation loc => exact Iff.rfl

end Removals

/-- **No unique datum is lost by the removals that can save it.** In all runs of
removals and additions of locations, from any datum and any table of shared
disks, each removal leaves no private location of its host, and returns a
location, with a path the datum had there, exactly when it is on no other host
and not persistent, if and only if each is made in a state that allows it. -/
theorem removals_save_unique (env : Paths) (s : Removals) (calls : List RemovalCall) :
    Along (Removals.step env) (Removals.Saves env) s calls ↔ Along (Removals.step env) (Removals.CanSave env) s calls := by
  constructor
  · exact along_of_along (I := fun _ => True) (fun s c _ _ h _ => (Removals.saves_iff env s c).1 h)
      (fun _ _ _ _ _ _ => trivial) trivial
  · exact along_of_along (I := fun _ => True) (fun s c _ _ h _ => (Removals.saves_iff env s c).2 h)
      (fun _ _ _ _ _ _ => trivial) trivial

/-- A datum on two workers. The first to leave gives a location to save, though
the datum is still on the second; when that leaves nothing is returned, and its
location stays. -/
theorem second_removal_loses :
    let env : Paths := ⟨HashOrder.asPut _, some, some, fun _ => []⟩
    let d := ((LogicalData.new "d1v1".toList).addLocation (.PrivateLocation ⟨.fileUri, "w1".toList, "/tmp/d1v1".toList⟩)).addLocation
      (.PrivateLocation ⟨.fileUri, "w2".toList, "/tmp/d1v1".toList⟩)
    (d.removeHost env .empty "w1".toList).map (fun r => r.2) =
        some (some (.PrivateLocation ⟨.fileUri, "w1".toList, "/tmp/d1v1".toList⟩)) ∧
      ((d.removeHost env .empty "w1".toList).bind fun r => r.1.removeHost env .empty "w2".toList).map
          (fun r => (r.1.getLocations, r.2)) =
        some ([.PrivateLocation ⟨.fileUri, "w2".toList, "/tmp/d1v1".toList⟩], none) ∧
      ¬ Along (Removals.step env) (Removals.Saves env) ⟨d, .empty⟩ [.removeHost "w1".toList, .removeHost "w2".toList] := by
  have hfirst : ((((LogicalData.new "d1v1".toList).addLocation
      (.PrivateLocation ⟨.fileUri, "w1".toList, "/tmp/d1v1".toList⟩)).addLocation
      (.PrivateLocation ⟨.fileUri, "w2".toList, "/tmp/d1v1".toList⟩)).removeHost
        ⟨HashOrder.asPut _, some, some, fun _ => []⟩ .empty "w1".toList).map (fun r => r.2) =
      some (some (.PrivateLocation ⟨.fileUri, "w1".toList, "/tmp/d1v1".toList⟩)) := by decide +kernel
  refine ⟨hfirst, by decide +kernel, fun h => ?_⟩
  obtain ⟨⟨d', found, heq, -, hfound, -⟩, -⟩ := h _ rfl
  rw [heq, Option.map_some, Option.some.injEq] at hfirst
  replace hfirst : found = _ := hfirst
  have helse := (hfound.1 (by rw [hfirst]; rfl)).2 (.PrivateLocation ⟨.fileUri, "w2".toList, "/tmp/d1v1".toList⟩)
    (by decide +kernel)
  exact helse (by simp only [DataLocation.Elsewhere]; decide)

end Compss.Locations
