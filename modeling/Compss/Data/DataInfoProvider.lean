/-
`DataInfoProvider`: the data the runtime knows, by name or object code, and
the accesses registered on them.

An access is announced with `registerFileAccess` or `registerObjectAccess`,
whose answer names the versions it reads and writes, and reported with
`dataHasBeenAccessed`. `blockDataAndGetResultFile` keeps the versions of a
file from being deleted while its result is copied back. The values and
locations of the data are `Comm`'s and are left out, but for the two answers
in `TransferEnv` the provider acts on.
-/
import Compss.Data.DataInfo

namespace Compss

open Lib

structure DataInfoProvider where
  /-- `DataInfo.nextDataId`. -/
  nextDataId : Nat
  nameToId : String → Option Nat
  codeToId : Int → Option Nat
  idToData : Nat → Option DataInfo

/-- What the adaptors answer to a result transfer: whether the version has a
persistent location (and is consolidated instead of copied), and whether
ordering its copy raises. -/
structure TransferEnv where
  hasPersistentLocation : DataInstanceId → Bool
  getDataRaises : DataInstanceId → Bool

namespace DataInfoProvider

def init : DataInfoProvider where
  nextDataId := 1
  nameToId := fun _ => none
  codeToId := fun _ => none
  idToData := fun _ => none

/-- Methods of the provider. -/
abbrev M := Java Raised DataInfoProvider

def setData (s : DataInfoProvider) (d : Nat) (di : DataInfo) : DataInfoProvider :=
  { s with idToData := Function.update s.idToData d (some di) }

/-- A call on the `DataInfo` of `d`; `idToData.get(d)` may be null. -/
def onData {α : Type} (d : Nat) (x : DataInfo.M α) : M α := fun s =>
  match s.idToData d with
  | none => .error .nullPointer s
  | some di =>
    match x di with
    | .ok a di' => .ok a (s.setData d di')
    | .error e di' => .error e (s.setData d di')

/-- `new FileInfo(loc)` or `new ObjectInfo(code)`, entered in `idToData`. -/
def newData (loc : Option DataLocation) : M Nat := do
  let d := (← get).nextDataId
  modify fun s => { s.setData d (DataInfo.new loc) with nextDataId := d + 1 }
  return d

def willAccess (mode : AccessMode) (d : Nat) : M DataAccessId :=
  match mode with
  | .R => do
    onData d DataInfo.willBeRead
    let di ← onData d get
    return .R d di.currentVersionId
  | .W => do
    onData d DataInfo.willBeWritten
    let di ← onData d get
    return .W d di.currentVersionId
  | .RW => do
    onData d DataInfo.willBeRead
    let readInstance ← onData d get
    onData d DataInfo.willBeWritten
    let writtenInstance ← onData d get
    return .RW d readInstance.currentVersionId writtenInstance.currentVersionId

/-- The data id of a file, made at its first access. -/
def fileId (loc : DataLocation) : M Nat := do
  match (← get).nameToId loc.locationKey with
  | some d => return d
  | none =>
    let d ← newData (some loc)
    modify fun s => { s with nameToId := Function.update s.nameToId loc.locationKey (some d) }
    return d

/-- The data id of an object, made at its first access. -/
def objectId (code : Int) : M Nat := do
  match (← get).codeToId code with
  | some d => return d
  | none =>
    let d ← newData none
    modify fun s => { s with codeToId := Function.update s.codeToId code (some d) }
    return d

def registerFileAccess (mode : AccessMode) (loc : DataLocation) : M DataAccessId := do
  willAccess mode (← fileId loc)

/-- Also `registerExternalObjectAccess`, which differs in the value it gives
`Comm` at the first access. -/
def registerObjectAccess (mode : AccessMode) (code : Int) : M DataAccessId := do
  willAccess mode (← objectId code)

def dataHasBeenAccessed : DataAccessId → M Unit
  | .R d r => do
    let _ ← onData d (DataInfo.versionHasBeenRead r)
  | .RW d r w => do
    let _ ← onData d (DataInfo.versionHasBeenRead r)
    let _ ← onData d (DataInfo.versionHasBeenWritten w)
  | .W d w => do
    let _ ← onData d (DataInfo.versionHasBeenWritten w)

/-- The datum whose versions were marked, or null for a file never accessed.
The entry of `nameToId` stays. -/
def deleteData (loc : DataLocation) : M (Option Nat) := do
  match (← get).nameToId loc.locationKey with
  | none => return none
  | some d =>
    let _ ← onData d DataInfo.delete
    return some d

def blockDataId (d : Nat) : M Unit := onData d DataInfo.blockDeletions

def unblockDataId (d : Nat) : M Unit := do
  let _ ← onData d DataInfo.unblockDeletions

/-- `Comm.existsData`. -/
def existsData (s : DataInfoProvider) (i : DataInstanceId) : Bool :=
  match s.idToData i.dataId with
  | none => false
  | some di => decide (0 ≤ i.versionId) && di.registered i.versionId.toNat

/-- The last component of a path, as `split(File.separator)` gives it: the
empty components at the end are dropped. -/
def originalName (path : String) : Option (List Char) :=
  (((path.toList.splitOn '/').reverse.dropWhile (· == [])).head?)

/-- Files the bindings serialize objects to are no results. -/
def isSerializedObject (name : List Char) : Bool := "compss-serialized-obj_".toList.isPrefixOf name

/-- The loop that looks for the last available version; `none` when it is
still looping after `fuel` rounds. -/
def availableVersion (existsData : DataInstanceId → Bool) :
    (fuel : Nat) → Option DataInstanceId → Option (Option DataInstanceId)
  | 0, _ => none
  | _ + 1, none => some none
  | fuel + 1, some i =>
    if existsData i then some (some i)
    else availableVersion existsData fuel i.previousVersionRenaming

/-- The result file, named by its version; null when there is none to copy. -/
def blockDataAndGetResultFile (env : TransferEnv) (fuel d : Nat) : M (Option DataInstanceId) := do
  match (← get).idToData d with
  | none => return none
  | some di =>
    match di.origLocation with
    | none => throw .classCast
    | some loc =>
      if di.isCurrentVersionToDelete then
        let _ ← onData d DataInfo.delete
        return none
      else
        match originalName loc.path with
        | none => throw .arrayIndexOutOfBounds
        | some name =>
          if isSerializedObject name then
            return none
          else
            onData d DataInfo.blockDeletions
            let lastVersion : DataInstanceId := ⟨d, di.currentVersionId⟩
            match availableVersion (existsData (← get)) fuel (some lastVersion) with
            | none => throw .noReturn
            | some none => return none
            | some (some available) =>
              if env.hasPersistentLocation available then
                return some lastVersion
              else if env.getDataRaises available then
                throw .transferError
              else
                return some lastVersion

example : originalName "/tmp/out.txt" = some "out.txt".toList := by decide

section
variable (s : DataInfoProvider) (d : Nat) (di : DataInfo)

@[simp] theorem setData_nextDataId : (s.setData d di).nextDataId = s.nextDataId := rfl
@[simp] theorem setData_nameToId : (s.setData d di).nameToId = s.nameToId := rfl
@[simp] theorem setData_codeToId : (s.setData d di).codeToId = s.codeToId := rfl
@[simp] theorem setData_self : (s.setData d di).idToData d = some di := by simp [setData]
theorem setData_ne {e : Nat} (h : e ≠ d) : (s.setData d di).idToData e = s.idToData e := by
  simp [setData, Function.update_of_ne h]
@[simp] theorem setData_setData (di' : DataInfo) : (s.setData d di).setData d di' = s.setData d di' := by
  simp [setData]

variable {s d di}

theorem onData_ok {α : Type} {x : DataInfo.M α} {a : α} {di' : DataInfo} (hd : s.idToData d = some di)
    (hx : x di = .ok a di') : onData d x s = .ok a (s.setData d di') := by
  simp [onData, hd, hx]

theorem onData_final {α : Type} (x : DataInfo.M α) (hd : s.idToData d = some di) :
    Java.final (onData d x s) = s.setData d (Java.final (x di)) := by
  simp only [onData, hd]
  cases x di <;> rfl

end

end DataInfoProvider

end Compss
