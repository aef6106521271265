/-
`LogicalData`: where a datum is, and the copies of it in progress.

The locations are kept in a `TreeSet` under `DataLocation.compareTo`. The
value in memory is a reference. What a datum tells its hosts and the shared
disks (the sets of data they keep) is left out.
-/
import Compss.Locations.DataLocation

namespace Compss.Locations

open Lib

/-- A copy operation, as far as a datum knows it. -/
structure Copy where
  id : Nat
  tgtLoc : DataLocation
  deriving DecidableEq, Repr

/-- All callers of `startCopy` give the target of the copy. -/
structure CopyInProgress where
  c : Copy
  loc : DataLocation
  ofCopy : loc = c.tgtLoc
  deriving DecidableEq, Repr

structure LogicalData where
  name : Text
  /-- The object in memory. -/
  value : Option Nat
  /-- The id of a persistent object. -/
  id : Option Text
  locations : TreeSet DataLocation
  inProgress : List CopyInProgress
  isBeingSaved : Bool
  deriving DecidableEq, Repr

namespace LogicalData

def new (name : Text) : LogicalData := ⟨name, none, none, .nil, [], false⟩

def getLocations (d : LogicalData) : List DataLocation := d.locations.elems

def addLocation (d : LogicalData) (loc : DataLocation) : LogicalData :=
  { d with
    isBeingSaved := false
    locations := d.locations.add DataLocation.compareTo loc
    id := match loc with
      | .PersistentLocation id => some id
      | _ => d.id }

/-- The location of the value in memory. -/
def memoryLocation (env : Paths) (disks : SharedDiskManager) (appHost : Resource) (name : Text) : Option DataLocation :=
  (SimpleURI.new (Protocol.objectUri.schema ++ name)).bind (DataLocation.createLocation env disks appHost)

/-- Returns the value that was in memory. -/
def removeValue (env : Paths) (disks : SharedDiskManager) (appHost : Resource) (d : LogicalData) :
    Option (LogicalData × Option Nat) :=
  (memoryLocation env disks appHost d.name).map fun loc =>
    ({ d with value := none, locations := d.locations.remove DataLocation.compareTo loc }, d.value)

/-! ## Copies in progress -/

/-- The first URI a location has in the host. -/
def alreadyAvailable (env : Paths) (disks : SharedDiskManager) (d : LogicalData) (targetHost : Resource) :
    Option MultiURI :=
  d.getLocations.findSome? (DataLocation.getURIInHost env disks targetHost)

/-- The first copy that has the target, if any; fails when a cast does. -/
def copyTo (target : DataLocation) : List CopyInProgress → Option (Option Copy)
  | [] => some none
  | cip :: cips =>
    (cip.loc.isTarget target).bind fun hasTarget => if hasTarget then some (some cip.c) else copyTo target cips

def alreadyCopying (d : LogicalData) (target : DataLocation) : Option (Option Copy) := copyTo target d.inProgress

def startCopy (d : LogicalData) (c : Copy) : LogicalData :=
  { d with inProgress := d.inProgress ++ [⟨c, c.tgtLoc, rfl⟩] }

/-- The target of the copy, which is over. -/
def finishedCopy (d : LogicalData) (c : Copy) : LogicalData × Option DataLocation :=
  ({ d with inProgress := d.inProgress.eraseP fun cip => cip.c == c },
    (d.inProgress.find? fun cip => cip.c == c).map (·.loc))

/-! ## The removal of a host -/

/-- What the loop of `removeHostAndCheckLocationToSave` keeps. -/
structure Saving where
  uniqueHostLocation : Option DataLocation
  isBeingSaved : Bool
  deriving DecidableEq, Repr

/-- The location a shared one is saved from when its disk has lost its last host:
the path of the location, without the mount point. -/
def lastLocation (env : Paths) (disks : SharedDiskManager) (host : Resource) (loc : DataLocation) : Option DataLocation :=
  (SimpleURI.new (Protocol.fileUri.schema ++ loc.getPath)).bind (DataLocation.createLocation env disks host)

/-- One turn of the loop, and whether it removes the location. The host is no
longer in `disks`; `sharedMountPoints` are the disks it had. -/
def checkLocation (env : Paths) (disks : SharedDiskManager) (host : Resource) (sharedMountPoints : Text → Option Text)
    (s : Saving) (loc : DataLocation) : Option (Saving × Bool) :=
  match loc with
  | .PrivateLocation uri => some (if uri.host = host then (⟨some loc, true⟩, true) else (s, false))
  | .SharedLocation _ diskName _ =>
    (disks.getAllMachinesfromDisk diskName).bind fun hosts =>
      if hosts = [] ∧ (sharedMountPoints diskName).isSome ∧ s.uniqueHostLocation = none then
        (lastLocation env disks host loc).map fun unique => (⟨some unique, true⟩, false)
      else some (s, false)
  | .PersistentLocation _ => some (s, false)

/-- The loop: `i` locations that stay have been passed. -/
def checkLocations (env : Paths) (disks : SharedDiskManager) (host : Resource) (sharedMountPoints : Text → Option Text) :
    List DataLocation → Nat → Saving → TreeSet DataLocation → Option (Saving × TreeSet DataLocation)
  | [], _, s, locations => some (s, locations)
  | loc :: locs, i, s, locations =>
    (checkLocation env disks host sharedMountPoints s loc).bind fun
      | (s, true) => checkLocations env disks host sharedMountPoints locs i s (locations.removeAt i)
      | (s, false) => checkLocations env disks host sharedMountPoints locs (i + 1) s locations

/-- Returns the location to save the datum from. -/
def removeHostAndCheckLocationToSave (env : Paths) (disks : SharedDiskManager) (host : Resource)
    (sharedMountPoints : Text → Option Text) (d : LogicalData) : Option (LogicalData × Option DataLocation) :=
  if d.isBeingSaved then some (d, none)
  else
    (checkLocations env disks host sharedMountPoints d.getLocations 0 ⟨none, d.isBeingSaved⟩ d.locations).map
      fun (s, locations) => ({ d with locations := locations, isBeingSaved := s.isBeingSaved }, s.uniqueHostLocation)

end LogicalData

end Compss.Locations
