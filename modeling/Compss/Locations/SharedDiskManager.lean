/-
`SharedDiskManager`: which shared disks are mounted on which machine, and
where.

The two tables of a machine go opposite ways: `mountpoint2Name` has an entry
for each path a disk was mounted at, `name2Mountpoint` the last path for each
disk. A disk is found by going through the entries of the first, in the order
the hash map has them in, which nothing determines: it is a parameter here.
A resource is known by its name.
-/
import Compss.Lib.Text
import Mathlib.Logic.Function.Basic
import Mathlib.Data.List.Nodup

namespace Compss.Locations

open Lib

abbrev Resource := Text

/-- The order in which the entries of a `HashMap` come, from the order in which
they were put. -/
structure HashOrder (α : Type) where
  entries : List α → List α
  perm : ∀ l, (entries l).Perm l

/-- As they were put. -/
def HashOrder.asPut (α : Type) : HashOrder α := ⟨id, fun l => List.Perm.refl l⟩

/-- A mount point, with a separator at its end. -/
def withSeparator (mountpoint : Text) : Text :=
  if mountpoint.getLast? = some '/' then mountpoint else mountpoint ++ ['/']

theorem withSeparator_idem (m : Text) : withSeparator (withSeparator m) = withSeparator m := by
  by_cases h : m.getLast? = some '/' <;> simp [withSeparator, h]

/-- `Map.put` on a list of entries. -/
def putEntry (key value : Text) : List (Text × Text) → List (Text × Text)
  | [] => [(key, value)]
  | e :: es => if e.1 = key then (key, value) :: es else e :: putEntry key value es

theorem mem_keys_putEntry {key value k : Text} : ∀ {es : List (Text × Text)},
    k ∈ (putEntry key value es).map Prod.fst ↔ k = key ∨ k ∈ es.map Prod.fst
  | [] => by simp [putEntry]
  | e :: es => by
    rw [putEntry]
    split
    · rename_i h
      simp [h]
    · simp only [List.map_cons, List.mem_cons, mem_keys_putEntry]
      tauto

theorem nodup_putEntry {key value : Text} : ∀ {es : List (Text × Text)}, (es.map Prod.fst).Nodup →
    ((putEntry key value es).map Prod.fst).Nodup
  | [], _ => by simp [putEntry]
  | e :: es, h => by
    rw [List.map_cons, List.nodup_cons] at h
    rw [putEntry]
    split
    · rename_i heq
      rw [List.map_cons, List.nodup_cons]
      exact ⟨heq ▸ h.1, h.2⟩
    · rename_i hne
      rw [List.map_cons, List.nodup_cons, mem_keys_putEntry]
      exact ⟨fun hor => hor.elim hne h.1, nodup_putEntry h.2⟩

structure Machine where
  allShared : List Text
  /-- Mount point and disk. -/
  mountpoint2Name : List (Text × Text)
  name2Mountpoint : Text → Option Text
  /-- A mount point has one disk. -/
  nodup : (mountpoint2Name.map Prod.fst).Nodup
  separated : ∀ d m, name2Mountpoint d = some m → withSeparator m = m
  mounted : ∀ d m, name2Mountpoint d = some m → m ∈ mountpoint2Name.map Prod.fst

namespace Machine

def new : Machine where
  allShared := []
  mountpoint2Name := []
  name2Mountpoint _ := none
  nodup := List.nodup_nil
  separated _ _ h := nomatch h
  mounted _ _ h := nomatch h

def addSharedDisk (m : Machine) (diskName mountpoint : Text) : Machine where
  allShared := m.allShared ++ [diskName]
  mountpoint2Name := putEntry (withSeparator mountpoint) diskName m.mountpoint2Name
  name2Mountpoint := Function.update m.name2Mountpoint diskName (some (withSeparator mountpoint))
  nodup := nodup_putEntry m.nodup
  separated d p h := by
    rw [Function.update_apply] at h
    split at h
    · cases h
      exact withSeparator_idem mountpoint
    · exact m.separated d p h
  mounted d p h := by
    rw [Function.update_apply] at h
    rw [mem_keys_putEntry]
    split at h
    · cases h
      exact .inl rfl
    · exact .inr (m.mounted d p h)

/-- The entry that comes first of those whose mount point the path starts with. -/
def firstMount (order : HashOrder (Text × Text)) (m : Machine) (path : Text) : Option (Text × Text) :=
  (order.entries m.mountpoint2Name).find? fun e => e.1.isPrefixOf path

def getSharedName (order : HashOrder (Text × Text)) (m : Machine) (path : Text) : Option Text :=
  (m.firstMount order path).map (·.2)

def getPath (m : Machine) (sharedDisk : Text) : Option Text := m.name2Mountpoint sharedDisk

end Machine

structure SharedDiskManager where
  shared2Machines : Text → Option (List Resource)
  machine2Shareds : Resource → Option Machine

namespace SharedDiskManager

def empty : SharedDiskManager := ⟨fun _ => none, fun _ => none⟩

def addMachine (s : SharedDiskManager) (host : Resource) : SharedDiskManager :=
  { s with machine2Shareds := Function.update s.machine2Shareds host (some Machine.new) }

/-- Fails for a host that was not added. -/
def addSharedToMachine (s : SharedDiskManager) (diskName mountpoint : Text) (host : Resource) :
    Option SharedDiskManager :=
  (s.machine2Shareds host).map fun m =>
    { machine2Shareds := Function.update s.machine2Shareds host (some (m.addSharedDisk diskName mountpoint))
      shared2Machines := Function.update s.shared2Machines diskName
        (some ((s.shared2Machines diskName).getD [] ++ [host])) }

def getSharedName (order : HashOrder (Text × Text)) (s : SharedDiskManager) (host : Resource) (path : Text) :
    Option Text :=
  (s.machine2Shareds host).bind fun m => m.getSharedName order path

def getMounpoint (s : SharedDiskManager) (host : Resource) (sharedDisk : Text) : Option Text :=
  (s.machine2Shareds host).bind fun m => m.getPath sharedDisk

/-- Missing for a disk that was never mounted. -/
def getAllMachinesfromDisk (s : SharedDiskManager) (diskName : Text) : Option (List Resource) :=
  s.shared2Machines diskName

/-- `machines.remove(host)` for each of the disks in turn. -/
def removeFromDisks (host : Resource) : List Text → (Text → Option (List Resource)) → Text → Option (List Resource)
  | [], t => t
  | d :: ds, t => removeFromDisks host ds (Function.update t d ((t d).map (·.erase host)))

/-- Takes the machine out, and returns where its disks were mounted. -/
def terminate (s : SharedDiskManager) (host : Resource) : SharedDiskManager × (Text → Option Text) :=
  match s.machine2Shareds host with
  | none => (s, fun _ => none)
  | some m =>
    ({ machine2Shareds := Function.update s.machine2Shareds host none
       shared2Machines := removeFromDisks host m.allShared s.shared2Machines }, m.name2Mountpoint)

end SharedDiskManager

end Compss.Locations
