/-
`DataInfo`: the versions of one datum, and when they are deleted.

The object owns a table of versions and, in `Comm`, one entry for the
renaming of each version it has registered (nobody else registers or removes
those renamings); the entries are kept here with it. A `DataVersion` outlives
its place in the table: `currentVersion`, the pending deletions and the access
ids refer to the object, so the objects are a function of the version id and
the table is the list of its keys.
-/
import Compss.Lib.Java
import Compss.Data.Version
import Mathlib.Logic.Function.Basic
import Mathlib.Data.List.Basic

namespace Compss

open Lib

/-- `DataLocation`, as far as the data info provider looks into it. -/
structure DataLocation where
  locationKey : String
  path : String
  deriving DecidableEq, Repr

/-- A `DataInfo`; `origLocation` is there for a `FileInfo` and missing for an
`ObjectInfo`. -/
structure DataInfo where
  origLocation : Option DataLocation
  currentVersionId : Nat
  /-- The `DataVersion` objects, by version id. -/
  object : Nat → DataVersion
  /-- The keys of the table `versions`, in order. -/
  versions : List Nat
  /-- `Comm.existsData` of the renaming of each version. -/
  registered : Nat → Bool
  deletionBlocks : Int
  pendingDeletions : List Nat

namespace DataInfo

/-- The constructor: version 1, registered. -/
def new (loc : Option DataLocation) : DataInfo where
  origLocation := loc
  currentVersionId := 1
  object := fun _ => DataVersion.new
  versions := [1]
  registered := fun v => v == 1
  deletionBlocks := 0
  pendingDeletions := []

def currentVersion (di : DataInfo) : DataVersion := di.object di.currentVersionId

def setObject (di : DataInfo) (v : Nat) (o : DataVersion) : DataInfo :=
  { di with object := Function.update di.object v o }

def setRegistered (di : DataInfo) (v : Nat) (b : Bool) : DataInfo :=
  { di with registered := Function.update di.registered v b }

/-- `versions.remove(v)`. -/
def removeVersion (di : DataInfo) (v : Nat) : DataInfo :=
  { di with versions := di.versions.erase v }

/-- Methods of a `DataInfo`. -/
abbrev M := Java Raised DataInfo

/-- `Comm.removeData`: a renaming that is not registered raises, after the
lookup. -/
def removeData (v : Nat) : M Unit := do
  if (← get).registered v then
    modify fun di => di.setRegistered v false
  else
    throw .nullPointer

def willBeRead : M Unit :=
  modify fun di => di.setObject di.currentVersionId di.currentVersion.willBeRead

/-- A new version, registered, becomes the current one. -/
def willBeWritten : M Unit :=
  modify fun di =>
    let v := di.currentVersionId + 1
    { (di.setObject v DataVersion.new.willBeWritten).setRegistered v true with
      currentVersionId := v, versions := di.versions ++ [v] }

/-- What `versionHasBeenRead` and `versionHasBeenWritten` share: `report` is
the version's own method. -/
def versionAccessed (report : DataVersion → DataVersion × Bool) (v : Nat) : M Bool := do
  let di ← get
  if v ∈ di.versions then
    modify fun di => di.setObject v (report (di.object v)).1
    if (report (di.object v)).2 then
      removeData v
      modify fun di => di.removeVersion v
      return (← get).versions.isEmpty
    else
      return false
  else
    throw .nullPointer

def versionHasBeenRead (v : Nat) : M Bool := versionAccessed DataVersion.hasBeenRead v

def versionHasBeenWritten (v : Nat) : M Bool := versionAccessed DataVersion.hasBeenWritten v

def blockDeletions : M Unit :=
  modify fun di => { di with deletionBlocks := di.deletionBlocks + 1 }

/-- One pending version of `unblockDeletions`. -/
def flushVersion (v : Nat) : M Unit := do
  let di ← get
  modify fun di => di.setObject v (di.object v).delete.1
  if (di.object v).delete.2 then
    removeData v
    modify fun di => di.removeVersion v

/-- The list of pending deletions is walked but never emptied. -/
def unblockDeletions : M Bool := do
  modify fun di => { di with deletionBlocks := di.deletionBlocks - 1 }
  let di ← get
  if di.deletionBlocks = 0 then
    di.pendingDeletions.forM flushVersion
    return (← get).versions.isEmpty
  else
    return false

/-- The loop of `delete` over the table: the versions it removes. -/
def deleteVersions : List Nat → M (List Nat)
  | [] => return []
  | v :: vs => do
    let di ← get
    modify fun di => di.setObject v (di.object v).delete.1
    if (di.object v).delete.2 then
      removeData v
      return v :: (← deleteVersions vs)
    else
      deleteVersions vs

def delete : M Bool := do
  let di ← get
  if di.deletionBlocks > 0 then
    modify fun di => { di with pendingDeletions := di.pendingDeletions ++ di.versions }
    return false
  else
    let removed ← deleteVersions di.versions
    modify fun di => removed.foldl removeVersion di
    return (← get).versions.isEmpty

def isCurrentVersionToDelete (di : DataInfo) : Bool := di.currentVersion.toDelete

section
variable (di : DataInfo) (v : Nat) (o : DataVersion) (b : Bool)

@[simp] theorem setObject_versions : (di.setObject v o).versions = di.versions := rfl
@[simp] theorem setObject_registered : (di.setObject v o).registered = di.registered := rfl
@[simp] theorem setObject_currentVersionId : (di.setObject v o).currentVersionId = di.currentVersionId := rfl
@[simp] theorem setObject_deletionBlocks : (di.setObject v o).deletionBlocks = di.deletionBlocks := rfl
@[simp] theorem setObject_pendingDeletions : (di.setObject v o).pendingDeletions = di.pendingDeletions := rfl
@[simp] theorem setObject_origLocation : (di.setObject v o).origLocation = di.origLocation := rfl
theorem setObject_object (w : Nat) :
    (di.setObject v o).object w = if w = v then o else di.object w := by
  simp [setObject, Function.update_apply]

@[simp] theorem setRegistered_versions : (di.setRegistered v b).versions = di.versions := rfl
@[simp] theorem setRegistered_object : (di.setRegistered v b).object = di.object := rfl
@[simp] theorem setRegistered_currentVersionId :
    (di.setRegistered v b).currentVersionId = di.currentVersionId := rfl
@[simp] theorem setRegistered_deletionBlocks :
    (di.setRegistered v b).deletionBlocks = di.deletionBlocks := rfl
@[simp] theorem setRegistered_pendingDeletions :
    (di.setRegistered v b).pendingDeletions = di.pendingDeletions := rfl
@[simp] theorem setRegistered_origLocation : (di.setRegistered v b).origLocation = di.origLocation := rfl
theorem setRegistered_registered (w : Nat) :
    (di.setRegistered v b).registered w = if w = v then b else di.registered w := by
  simp [setRegistered, Function.update_apply]

@[simp] theorem removeVersion_versions : (di.removeVersion v).versions = di.versions.erase v := rfl
@[simp] theorem removeVersion_object : (di.removeVersion v).object = di.object := rfl
@[simp] theorem removeVersion_registered : (di.removeVersion v).registered = di.registered := rfl
@[simp] theorem removeVersion_currentVersionId :
    (di.removeVersion v).currentVersionId = di.currentVersionId := rfl
@[simp] theorem removeVersion_deletionBlocks : (di.removeVersion v).deletionBlocks = di.deletionBlocks := rfl
@[simp] theorem removeVersion_pendingDeletions :
    (di.removeVersion v).pendingDeletions = di.pendingDeletions := rfl
@[simp] theorem removeVersion_origLocation : (di.removeVersion v).origLocation = di.origLocation := rfl

end

end DataInfo

end Compss
