/-
Which file the location of a path stands for, on its own host and on the
others.

`createLocation` takes the disk of the first mount point, in the order of a
hash map, that the path starts with, cuts the path by the length of the mount
point that disk was given last, and `getURIInHost` puts a mount point before
the rest again. The path it does this with is what `SimpleURI` leaves of the
text and, for files, `java.net.URI` makes of it.
-/
import Compss.Locations.LocationSet
import Mathlib.Data.Finset.Max

namespace Compss.Locations

open Lib DataLocation

inductive PathKind
  | file
  | object
  deriving DecidableEq, Repr

def PathKind.protocol : PathKind → Protocol
  | file => .fileUri
  | object => .objectUri

/-- The path `createLocation` has in the end. -/
def PathKind.normal (env : Paths) : PathKind → Text → Option Text
  | file, p => canonicalPath env (behindHostname p)
  | object, p => some (behindHostname p)

/-- The location of a path on a host. -/
def createAt (env : Paths) (disks : SharedDiskManager) (kind : PathKind) (host : Resource) (p : Text) : Option DataLocation :=
  (SimpleURI.new (kind.protocol.schema ++ p)).bind (createLocation env disks host)

def SharedDiskManager.firstMount (order : HashOrder (Text × Text)) (disks : SharedDiskManager) (host : Resource)
    (path : Text) : Option (Text × Text) :=
  (disks.machine2Shareds host).bind fun m => m.firstMount order path

/-- `m`, where `host` has the disk `d`, is the longest of its mount points that `p` lies under. -/
def Longest (disks : SharedDiskManager) (host : Resource) (p m d : Text) : Prop :=
  ∃ mach, disks.machine2Shareds host = some mach ∧ (m, d) ∈ mach.mountpoint2Name ∧ m <+: p ∧
    ∀ e ∈ mach.mountpoint2Name, e.1 <+: p → e.1.length ≤ m.length

/-- The location of `p` on `host` has the path `p` there. Under a mount point it is
on the disk of the longest one, with the rest of `p`, which has its place
behind the mount point of each other host. -/
def Resolves (env : Paths) (disks : SharedDiskManager) (kind : PathKind) (host : Resource) (p : Text) : Prop :=
  ∃ l, createAt env disks kind host p = some l ∧ (∃ u, l.getURIInHost env disks host = some u ∧ u.path = p) ∧
    ∀ m d, Longest disks host p m d → l.place = .onDisk d (p.drop m.length) ∧
      ∀ host' m', host' ≠ host → disks.getMounpoint host' d = some m' →
        ∃ u, l.getURIInHost env disks host' = some u ∧ u.path = m' ++ p.drop m.length

/-- Two paths of one file on a disk. -/
def SameFile (disks : SharedDiskManager) (host : Resource) (p : Text) (host' : Resource) (p' : Text) : Prop :=
  ∃ d m m', Longest disks host p m d ∧ Longest disks host' p' m' d ∧ p.drop m.length = p'.drop m'.length

/-- What is left of the path is the path, when the host has no mount point for it.
Else the first mount point in the order of the map is one of the disk that was
last mounted at the longest mount point of `p`; behind that, what is left of
the path is as the path. -/
def WellMounted (env : Paths) (disks : SharedDiskManager) (kind : PathKind) (host : Resource) (p : Text) : Prop :=
  ∃ q, kind.normal env p = some q ∧
    match disks.firstMount env.order host q with
    | none => q = p
    | some e => ∃ m, disks.getMounpoint host e.2 = some m ∧ Longest disks host p m e.2 ∧
        m.length ≤ q.length ∧ q.drop m.length = p.drop m.length

section
variable {env : Paths} {disks : SharedDiskManager} {kind : PathKind} {host : Resource} {p q : Text}

theorem createAt_eq : createAt env disks kind host p = (kind.normal env p).bind (ofPath env disks kind.protocol host) := by
  obtain ⟨u, hnew, hpath, hschema⟩ := SimpleURI.new_schema kind.protocol p
  rw [createAt, hnew, Option.bind_some, createLocation, hschema, Protocol.getBySchema_schema, Option.getD_some, hpath]
  cases kind <;> rfl

theorem getSharedName_eq : disks.getSharedName env.order host q = (disks.firstMount env.order host q).map Prod.snd := by
  rw [SharedDiskManager.getSharedName, SharedDiskManager.firstMount]
  cases disks.machine2Shareds host <;> rfl

/-- Without a mount point the location is private. -/
theorem ofPath_of_none (protocol : Protocol) (h : disks.firstMount env.order host q = none) :
    ofPath env disks protocol host q = some (PrivateLocation ⟨protocol, host, q⟩) := by
  rw [ofPath, getSharedName_eq, h, Option.map_none]

/-- The first mount point gives the disk, and the disk the mount point. -/
theorem ofPath_of_some (protocol : Protocol) {e : Text × Text} (h : disks.firstMount env.order host q = some e) :
    ofPath env disks protocol host q = (disks.getMounpoint host e.2).bind fun m =>
      if m.length ≤ q.length then some (SharedLocation protocol e.2 (q.drop m.length)) else none := by
  rw [ofPath, getSharedName_eq, h, Option.map_some]
  cases hm : disks.getMounpoint host e.2 <;> simp [hm]

theorem withSeparator_getMounpoint {d m : Text} (h : disks.getMounpoint host d = some m) : withSeparator m = m := by
  obtain ⟨mach, -, hm⟩ := Option.bind_eq_some_iff.1 h
  exact mach.separated d m hm

theorem not_longest_of_none (h : disks.firstMount env.order host p = none) (m d : Text) : ¬ Longest disks host p m d := by
  rintro ⟨mach, hmach, hmem, hpre, -⟩
  rw [SharedDiskManager.firstMount, hmach, Option.bind_some, Machine.firstMount, List.find?_eq_none] at h
  exact h (m, d) ((env.order.perm _).mem_iff.2 hmem) (List.isPrefixOf_iff_prefix.2 hpre)

/-- There is one longest mount point, with one disk. -/
theorem Longest.unique {m m' d d' : Text} (h : Longest disks host p m d) (h' : Longest disks host p m' d') :
    m = m' ∧ d = d' := by
  obtain ⟨mach, hmach, hmem, hpre, hmax⟩ := h
  obtain ⟨mach', hmach', hmem', hpre', hmax'⟩ := h'
  cases hmach.symm.trans hmach'
  have hlen : m.length = m'.length := Nat.le_antisymm (hmax' _ hmem hpre) (hmax _ hmem' hpre')
  obtain rfl : m = m' := (List.prefix_of_prefix_length_le hpre hpre' hlen.le).eq_of_length hlen
  refine ⟨rfl, ?_⟩
  exact congrArg Prod.snd (List.inj_on_of_nodup_map mach.nodup hmem hmem' rfl)

/-- A path under the mount point of a disk has a longest one. -/
theorem exists_longest {d m : Text} (h : disks.getMounpoint host d = some m) (hpre : m <+: p) :
    ∃ m' d', Longest disks host p m' d' := by
  obtain ⟨mach, hmach, hm⟩ := Option.bind_eq_some_iff.1 h
  obtain ⟨e, he, rfl⟩ := List.mem_map.1 (mach.mounted d m hm)
  obtain ⟨e', he', hmax⟩ := Finset.exists_max_image
    (mach.mountpoint2Name.filter fun e => e.1.isPrefixOf p).toFinset (fun e => e.1.length)
    ⟨e, by simpa using ⟨he, hpre⟩⟩
  simp only [List.mem_toFinset, List.mem_filter, List.isPrefixOf_iff_prefix] at he' hmax
  exact ⟨e'.1, e'.2, mach, hmach, he'.1, he'.2, fun o ho hop => hmax o ⟨ho, hop⟩⟩

/-- A rest and a mount point determine each other. -/
theorem eq_of_drop_eq {m m' : Text} (h : m <+: p) (h' : m' <+: p) (hdrop : p.drop m.length = p.drop m'.length) :
    m = m' := by
  have hlen : m.length = m'.length := by
    have := congrArg List.length hdrop
    have hle := h.length_le
    have hle' := h'.length_le
    simp only [List.length_drop] at this
    omega
  exact (List.prefix_of_prefix_length_le h h' hlen.le).eq_of_length hlen

/-- The location of a path is the right one exactly when its disk is well mounted. -/
theorem resolves_iff : Resolves env disks kind host p ↔ WellMounted env disks kind host p := by
  rw [Resolves, WellMounted, createAt_eq]
  cases hq : kind.normal env p with
  | none => simp
  | some q =>
    simp only [Option.bind_some, Option.some.injEq, exists_eq_left']
    cases hfirst : disks.firstMount env.order host q with
    | none =>
      simp only [ofPath_of_none kind.protocol hfirst, Option.some.injEq, exists_eq_left', getURIInHost, if_true]
      constructor
      · exact And.left
      · rintro rfl
        exact ⟨rfl, fun m d h => absurd h (not_longest_of_none hfirst m d)⟩
    | some e =>
      rw [ofPath_of_some kind.protocol hfirst]
      cases hm : disks.getMounpoint host e.2 with
      | none => simp [hm]
      | some m =>
        simp only [Option.bind_some]
        by_cases hlen : m.length ≤ q.length
        · simp only [hlen, if_true, Option.some.injEq, exists_eq_left', getURIInHost, hm, Option.map_some,
            withSeparator_getMounpoint hm, place, Place.onDisk.injEq, true_and]
          constructor
          · rintro ⟨hp, hlongest⟩
            have hpre : m <+: p := ⟨_, hp⟩
            obtain ⟨m', d', hl⟩ := exists_longest hm hpre
            obtain ⟨⟨rfl, hrest⟩, -⟩ := hlongest m' d' hl
            have hdrop : p.drop m.length = q.drop m.length := by rw [← hp, List.drop_left]
            have hpre' : m' <+: p := by
              obtain ⟨_, _, _, h, _⟩ := hl
              exact h
            obtain rfl := eq_of_drop_eq hpre hpre' (hdrop.trans hrest)
            exact ⟨hl, hrest⟩
          · rintro ⟨hl, hrest⟩
            have hpre : m <+: p := by
              obtain ⟨_, _, _, h, _⟩ := hl
              exact h
            refine ⟨?_, fun m' d' hl' => ?_⟩
            · rw [hrest]
              exact List.prefix_iff_eq_append.1 hpre
            · obtain ⟨rfl, rfl⟩ := hl.unique hl'
              refine ⟨⟨rfl, hrest⟩, fun host' m' _ hm' => ?_⟩
              exact ⟨_, by rw [hm', Option.map_some], by rw [withSeparator_getMounpoint hm', hrest]⟩
        · simp [hlen, hm]

end

/-- **Shared paths resolve to the same file where the mount points are told
apart.** For all tables of shared disks and all paths on two hosts: each
location has the path on its host, and under a mount point the disk of the
longest and the rest of the path, for all hosts of the disk, and two paths of
one file give equal locations, exactly if for both paths the first mount point
that is found is one of the disk last mounted at the longest. -/
theorem shared_paths_resolve (env : Paths) (disks : SharedDiskManager) (kind kind' : PathKind) (host host' : Resource)
    (p p' : Text) :
    Resolves env disks kind host p ∧ Resolves env disks kind' host' p' ∧
        (SameFile disks host p host' p' → ∃ l l', createAt env disks kind host p = some l ∧
          createAt env disks kind' host' p' = some l' ∧ l.compareTo l' = 0) ↔
      WellMounted env disks kind host p ∧ WellMounted env disks kind' host' p' := by
  rw [← resolves_iff, ← resolves_iff]
  refine ⟨fun h => ⟨h.1, h.2.1⟩, fun ⟨h, h'⟩ => ⟨h, h', ?_⟩⟩
  rintro ⟨d, m, m', hl, hl', hrest⟩
  obtain ⟨l, hcreate, -, hplace⟩ := h
  obtain ⟨l', hcreate', -, hplace'⟩ := h'
  refine ⟨l, l', hcreate, hcreate', ?_⟩
  have hp := (hplace m d hl).1
  have hp' := (hplace' m' d hl').1
  have heq : l.place = l'.place := by rw [hp, hp', hrest]
  exact ((orders_of_type l'.getType).eq_zero l l' (getType_of_place heq) rfl).2 heq

/-- The disk `gpfs` at `/gpfs` and `projects` at `/gpfs/projects` on the host `w1`,
`projects` at `/projects` on `w2`. -/
def nestedMounts : SharedDiskManager :=
  ((((SharedDiskManager.empty.addMachine "w1".toList).addMachine "w2".toList).addSharedToMachine "gpfs".toList
    "/gpfs".toList "w1".toList).bind fun s => (s.addSharedToMachine "projects".toList "/gpfs/projects".toList
    "w1".toList).bind fun s => s.addSharedToMachine "projects".toList "/projects".toList "w2".toList).getD .empty

/-- The map has `/gpfs/` before `/gpfs/projects/`: a file under the second is taken
for one on the first disk. It has no path on the other host, and is not the
file it is there. -/
theorem nested_mount_missed :
    let env : Paths := ⟨HashOrder.asPut _, some, some, fun _ => []⟩
    createAt env nestedMounts .file "w1".toList "/gpfs/projects/x".toList =
        some (.SharedLocation .fileUri "gpfs".toList "projects/x".toList) ∧
      createAt env nestedMounts .file "w2".toList "/projects/x".toList =
        some (.SharedLocation .fileUri "projects".toList "x".toList) ∧
      getURIInHost env nestedMounts "w2".toList (.SharedLocation .fileUri "gpfs".toList "projects/x".toList) = none ∧
      compareTo (.SharedLocation .fileUri "gpfs".toList "projects/x".toList)
        (.SharedLocation .fileUri "projects".toList "x".toList) ≠ 0 ∧
      ¬ Resolves env nestedMounts .file "w1".toList "/gpfs/projects/x".toList := by
  refine ⟨by decide +kernel, by decide +kernel, by decide +kernel, by decide +kernel, ?_⟩
  rw [resolves_iff]
  rintro ⟨q, hq, hmount⟩
  obtain rfl : "/gpfs/projects/x".toList = q := by
    refine Option.some.inj (Eq.trans ?_ hq)
    decide +kernel
  have hfirst : nestedMounts.firstMount (HashOrder.asPut _) "w1".toList "/gpfs/projects/x".toList =
      some ("/gpfs/".toList, "gpfs".toList) := by decide +kernel
  simp only [hfirst] at hmount
  obtain ⟨m, hm, ⟨mach, hmach, -, -, hmax⟩, -⟩ := hmount
  have hmlen : m.length = 6 := by
    obtain rfl : "/gpfs/".toList = m := by
      refine Option.some.inj (Eq.trans ?_ hm)
      decide +kernel
    decide
  have hmem : ("/gpfs/projects/".toList, "projects".toList) ∈ mach.mountpoint2Name := by
    have : (nestedMounts.machine2Shareds "w1".toList).map (fun m => decide
        (("/gpfs/projects/".toList, "projects".toList) ∈ m.mountpoint2Name)) = some true := by decide +kernel
    rw [hmach, Option.map_some, Option.some.injEq] at this
    exact of_decide_eq_true this
  have := hmax _ hmem (by decide +kernel)
  rw [hmlen] at this
  exact absurd this (by decide)

end Compss.Locations
