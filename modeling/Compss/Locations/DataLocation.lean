/-
`DataLocation` and its three kinds: a path on one host, a path on a shared
disk, the id of a persistent object.

`createLocation` makes a location from a host and a URI. How a path is
written in its normal form (`java.net.URI`) and resolved (`File`) is a
parameter. The three classes write `getURIInHost`, `getHosts`, `isTarget`
and `compareTo` each for itself.
-/
import Compss.Lib.TextOrder
import Compss.Locations.SharedDiskManager

namespace Compss.Locations

open Lib

inductive Protocol
  | fileUri
  | sharedUri
  | objectUri
  | persistentUri
  | anyUri
  deriving DecidableEq, Repr

def Protocol.schema : Protocol → Text
  | fileUri => "file://".toList
  | sharedUri => "shared://".toList
  | objectUri => "object://".toList
  | persistentUri => "storage://".toList
  | anyUri => "any://".toList

def Protocol.getBySchema (schema : Text) : Option Protocol :=
  [fileUri, sharedUri, objectUri, persistentUri, anyUri].find? fun p => p.schema == schema

/-! ## URIs -/

/-- What is before the first `pat`, and what is after it. -/
def splitAtFirst (pat : Text) : Text → Option (Text × Text)
  | [] => if pat = [] then some ([], []) else none
  | c :: s =>
    if pat.isPrefixOf (c :: s) then some ([], (c :: s).drop pat.length)
    else (splitAtFirst pat s).map fun p => (c :: p.1, p.2)

structure SimpleURI where
  schema : Text
  hostname : Text
  path : Text
  deriving DecidableEq, Repr

namespace SimpleURI

/-- The host name ends at the first `@` of the whole text; one that is before
the end of the schema is out of the bounds of `substring`. -/
def new (fullPath : Text) : Option SimpleURI :=
  let (schema, parsedIndex) :=
    match splitAtFirst "://".toList fullPath with
    | some (schema, _) => (schema, schema.length + 3)
    | none => ([], 0)
  match splitAtFirst ['@'] fullPath with
  | some (before, after) =>
    if before.length < parsedIndex then none else some ⟨schema, before.drop parsedIndex, after⟩
  | none => some ⟨schema, [], fullPath.drop parsedIndex⟩

def getSchema (u : SimpleURI) : Text := if u.schema = [] then [] else u.schema ++ "://".toList

end SimpleURI

/-- What is left of a path behind the first `@`, which would end a host name. -/
def behindHostname (path : Text) : Text :=
  match splitAtFirst ['@'] path with
  | some (_, after) => after
  | none => path

theorem splitAtFirst_schema {path : Text} : ∀ {name : Text}, ':' ∉ name →
    splitAtFirst [':', '/', '/'] (name ++ ':' :: '/' :: '/' :: path) = some (name, path)
  | [], _ => by simp [splitAtFirst]
  | c :: name, h => by
    simp only [List.mem_cons, not_or] at h
    rw [List.cons_append, splitAtFirst, splitAtFirst_schema h.2]
    simp [h.1]

theorem splitAtFirst_hostname {path : Text} : ∀ {s : Text}, '@' ∉ s →
    splitAtFirst ['@'] (s ++ path) = (splitAtFirst ['@'] path).map fun p => (s ++ p.1, p.2)
  | [], _ => by cases h : splitAtFirst ['@'] path <;> simp [h]
  | c :: s, h => by
    simp only [List.mem_cons, not_or] at h
    rw [List.cons_append, splitAtFirst, splitAtFirst_hostname h.2]
    simp [h.1]
    rfl

/-- The schema before the separator. -/
theorem Protocol.schema_eq (protocol : Protocol) :
    ∃ name, protocol.schema = name ++ [':', '/', '/'] ∧ ':' ∉ name ∧ '@' ∉ protocol.schema ∧ name ≠ [] := by
  cases protocol with
  | fileUri => exact ⟨"file".toList, by decide, by decide, by decide, by decide⟩
  | sharedUri => exact ⟨"shared".toList, by decide, by decide, by decide, by decide⟩
  | objectUri => exact ⟨"object".toList, by decide, by decide, by decide, by decide⟩
  | persistentUri => exact ⟨"storage".toList, by decide, by decide, by decide, by decide⟩
  | anyUri => exact ⟨"any".toList, by decide, by decide, by decide, by decide⟩

/-- The URI of a path, with one of the protocols. -/
theorem SimpleURI.new_schema (protocol : Protocol) (path : Text) :
    ∃ u, SimpleURI.new (protocol.schema ++ path) = some u ∧ u.path = behindHostname path ∧
      u.getSchema = protocol.schema := by
  obtain ⟨name, hschema, hcolon, hat, hne⟩ := protocol.schema_eq
  have hsep : ("://".toList : Text) = [':', '/', '/'] := by decide
  have hlen : protocol.schema.length = name.length + 3 := by simp [hschema]
  have hsplit : splitAtFirst [':', '/', '/'] (protocol.schema ++ path) = some (name, path) := by
    rw [hschema, List.append_assoc]
    exact splitAtFirst_schema hcolon
  simp only [SimpleURI.new, hsep, hsplit, splitAtFirst_hostname hat, behindHostname]
  cases splitAtFirst ['@'] path with
  | none =>
    refine ⟨_, rfl, ?_, ?_⟩
    · rw [← hlen, List.drop_left]
    · simp [SimpleURI.getSchema, hne, hsep, hschema]
  | some p =>
    refine ⟨⟨name, (protocol.schema ++ p.1).drop (name.length + 3), p.2⟩, ?_, rfl, ?_⟩
    · simp only [Option.map_some, List.length_append]
      rw [if_neg (by omega)]
    · simp [SimpleURI.getSchema, hne, hsep, hschema]

theorem Protocol.getBySchema_schema (protocol : Protocol) : Protocol.getBySchema protocol.schema = some protocol := by
  cases protocol <;> decide

/-- A path in one host. -/
structure MultiURI where
  protocol : Protocol
  host : Resource
  path : Text
  deriving DecidableEq, Repr

/-- By the host's name, then by the path. -/
def MultiURI.compareTo (u o : MultiURI) : Int :=
  if u.host.compareTo o.host = 0 then u.path.compareTo o.path else u.host.compareTo o.host

/-! ## Locations -/

inductive LocationType
  | PRIVATE
  | SHARED
  | PERSISTENT
  deriving DecidableEq, Repr

inductive DataLocation
  | PrivateLocation (uri : MultiURI)
  | SharedLocation (protocol : Protocol) (diskName path : Text)
  | PersistentLocation (id : Text)
  deriving DecidableEq, Repr

/-- Where a location is: its kind, its host, disk or id, and its path. -/
inductive Place
  | inHost (host : Resource) (path : Text)
  | onDisk (diskName path : Text)
  | persistent (id : Text)
  deriving DecidableEq, Repr

/-- What the code asks of the Java library and of the storage back-end. -/
structure Paths where
  /-- The order of the entries of `mountpoint2Name`. -/
  order : HashOrder (Text × Text)
  /-- `new URI(path).normalize().getPath()`; missing when it is no URI. -/
  normalize : Text → Option Text
  /-- `new File(path).getCanonicalPath()`; missing when it throws. -/
  getCanonicalPath : Text → Option Text
  /-- `StorageItf.getLocations`: the registered hosts a persistent object is on. -/
  getLocations : Text → List Resource

namespace DataLocation

def getType : DataLocation → LocationType
  | PrivateLocation _ => .PRIVATE
  | SharedLocation _ _ _ => .SHARED
  | PersistentLocation _ => .PERSISTENT

def place : DataLocation → Place
  | PrivateLocation uri => .inHost uri.host uri.path
  | SharedLocation _ diskName path => .onDisk diskName path
  | PersistentLocation id => .persistent id

theorem getType_of_place {l o : DataLocation} (h : l.place = o.place) : l.getType = o.getType := by
  cases l <;> cases o <;> first
    | rfl
    | cases h

def getPath : DataLocation → Text
  | PrivateLocation uri => uri.path
  | SharedLocation _ _ path => path
  | PersistentLocation id => id

def getSharedDisk : DataLocation → Option Text
  | SharedLocation _ diskName _ => some diskName
  | _ => none

/-- The private `createLocation`: shared, when the path is on a shared disk of
the host. Fails when the path is shorter than the mount point. -/
def ofPath (env : Paths) (disks : SharedDiskManager) (protocol : Protocol) (host : Resource) (path : Text) :
    Option DataLocation :=
  match disks.getSharedName env.order host path with
  | some diskName =>
    match disks.getMounpoint host diskName with
    | some mountpoint =>
      if mountpoint.length ≤ path.length then some (SharedLocation protocol diskName (path.drop mountpoint.length))
      else none
    | none => none
  | none => some (PrivateLocation ⟨protocol, host, path⟩)

/-- The path of a file in its normal form; an empty one has no first character. -/
def canonicalPath (env : Paths) (path : Text) : Option Text :=
  match env.normalize path with
  | some [] => none
  | some (c :: p) => if c = '/' then some (c :: p) else env.getCanonicalPath path
  | none => env.getCanonicalPath path

/-- None stands for an exception. -/
def createLocation (env : Paths) (disks : SharedDiskManager) (host : Resource) (uri : SimpleURI) :
    Option DataLocation :=
  match (Protocol.getBySchema uri.getSchema).getD .anyUri with
  | .fileUri => (canonicalPath env uri.path).bind fun path => ofPath env disks .fileUri host path
  | .sharedUri => (splitAtFirst ['/'] uri.path).map fun p => SharedLocation .sharedUri p.1 p.2
  | .objectUri => ofPath env disks .objectUri host uri.path
  | .persistentUri => some (PersistentLocation uri.path)
  | .anyUri => ofPath env disks .anyUri host uri.path

def getURIInHost (env : Paths) (disks : SharedDiskManager) (targetHost : Resource) : DataLocation → Option MultiURI
  | PrivateLocation uri => if uri.host = targetHost then some uri else none
  | SharedLocation protocol diskName path =>
    (disks.getMounpoint targetHost diskName).map fun m => ⟨protocol, targetHost, withSeparator m ++ path⟩
  | PersistentLocation id =>
    if targetHost ∈ env.getLocations id then some ⟨.persistentUri, targetHost, id⟩ else none

/-- Missing for a shared disk that was never mounted. -/
def getHosts (env : Paths) (disks : SharedDiskManager) : DataLocation → Option (List Resource)
  | PrivateLocation uri => some [uri.host]
  | SharedLocation _ diskName _ => disks.getAllMachinesfromDisk diskName
  | PersistentLocation id => some (env.getLocations id)

/-! ## Targets -/

/-- Whether a copy to `l` has the target `target`. A persistent target is cast to
a shared location by a shared one, which throws. -/
def isTarget (l target : DataLocation) : Option Bool :=
  match l, target with
  | PrivateLocation uri, PrivateLocation targetURI => some (targetURI.host == uri.host && targetURI.path == uri.path)
  | PrivateLocation _, _ => some false
  | SharedLocation _ _ _, PrivateLocation _ => some false
  -- the path of the target is compared with itself
  | SharedLocation _ diskName _, SharedLocation _ targetDisk targetPath =>
    some (targetDisk == diskName && targetPath == targetPath)
  | SharedLocation _ _ _, PersistentLocation _ => none
  | PersistentLocation id, PersistentLocation id' => some (id == id')
  | PersistentLocation _, _ => some false

/-! ## Comparison -/

def packageName : Text := "es.bsc.compss.types.data.location.".toList

/-- `getClass().getName()` -/
def className : DataLocation → Text
  | PrivateLocation _ => packageName ++ "PrivateLocation".toList
  | SharedLocation _ _ _ => packageName ++ "SharedLocation".toList
  | PersistentLocation _ => packageName ++ "PersistentLocation".toList

/-- `PrivateLocation.class.toString()`, and for the other classes: each compares
with its own. -/
def classToString (l : DataLocation) : Text := "class ".toList ++ l.className

def compareTo (l o : DataLocation) : Int :=
  match l, o with
  | PrivateLocation uri, PrivateLocation uri' => uri.compareTo uri'
  | SharedLocation _ diskName path, SharedLocation _ diskName' path' =>
    if diskName.compareTo diskName' = 0 then path.compareTo path' else diskName.compareTo diskName'
  | PersistentLocation id, PersistentLocation id' => Text.compareTo id id'
  | l, _ => l.className.compareTo l.classToString

end DataLocation

end Compss.Locations
