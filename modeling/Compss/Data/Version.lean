/-
Data versions and their identifiers: `DataInstanceId`, `DataVersion`,
`DataAccessId` and the access modes of `AccessParams`.

A version counts the accesses that were announced (`willBeRead`,
`willBeWritten`) and have not been reported yet (`hasBeenRead`,
`hasBeenWritten`); a version marked for deletion goes when the last of them
is reported.
-/
import Mathlib.Tactic.Common

namespace Compss

/-- The exceptions the access processor's requests can end with. -/
inductive Raised
  | nullPointer
  | arrayIndexOutOfBounds
  | classCast
  /-- Whatever a transfer ordered to the adaptors raises. -/
  | transferError
  /-- Not a Java exception: the call was still looping when its fuel ended. -/
  | noReturn
  deriving DecidableEq, Repr

/-- `AccessParams.AccessMode`. -/
inductive AccessMode
  | R
  | W
  | RW
  deriving DecidableEq, Repr

/-- A version of a datum. Its renaming is the text `d<dataId>v<versionId>_<time>.IT`,
with the time stamp of the run. -/
structure DataInstanceId where
  dataId : Nat
  versionId : Int
  deriving DecidableEq, Repr

/-- `int` arithmetic wraps. -/
def intPred (v : Int) : Int :=
  if v = -2147483648 then 2147483647 else v - 1

/-- The renaming of the version before. The source answers null when `v` stands
right after `d`, which no renaming of an instance has: its data id has a digit. -/
def DataInstanceId.previousVersionRenaming (i : DataInstanceId) : Option DataInstanceId :=
  some { i with versionId := intPred i.versionId }

structure DataVersion where
  readers : Int
  writters : Int
  toDelete : Bool
  deriving DecidableEq, Repr

namespace DataVersion

def new : DataVersion := ⟨0, 0, false⟩

def willBeRead (v : DataVersion) : DataVersion := { v with readers := v.readers + 1 }

def willBeWritten (v : DataVersion) : DataVersion := { v with writters := v.writters + 1 }

def checkDeletion (v : DataVersion) : Bool := v.toDelete && v.writters == 0 && v.readers == 0

/-- The version after the report, and whether it is to be removed. -/
def hasBeenRead (v : DataVersion) : DataVersion × Bool :=
  let v := { v with readers := v.readers - 1 }
  (v, v.checkDeletion)

def hasBeenWritten (v : DataVersion) : DataVersion × Bool :=
  let v := { v with writters := v.writters - 1 }
  (v, v.checkDeletion)

/-- No access to the version is outstanding. -/
def isIdle (v : DataVersion) : Bool := v.readers == 0 && v.writters == 0

/-- Marks the version; the flag says that it can be removed at once. -/
def delete (v : DataVersion) : DataVersion × Bool :=
  ({ v with toDelete := true }, v.isIdle)

end DataVersion

/-- `DataAccessId`: the datum and the versions the access reads and writes. -/
inductive DataAccessId
  | R (dataId readVersion : Nat)
  | W (dataId writtenVersion : Nat)
  | RW (dataId readVersion writtenVersion : Nat)
  deriving DecidableEq, Repr

namespace DataAccessId

def dataId : DataAccessId → Nat
  | R d _ | W d _ | RW d _ _ => d

/-- The version the access reads, if any. -/
def readVersion : DataAccessId → Option Nat
  | R _ r | RW _ r _ => some r
  | W _ _ => none

/-- The version the access writes, if any. -/
def writtenVersion : DataAccessId → Option Nat
  | W _ w | RW _ _ w => some w
  | R _ _ => none

/-- The access reads version `v` of datum `d`. -/
def readsVersion (d v : Nat) (a : DataAccessId) : Bool := a.dataId == d && a.readVersion == some v

/-- The access writes version `v` of datum `d`. -/
def writesVersion (d v : Nat) (a : DataAccessId) : Bool := a.dataId == d && a.writtenVersion == some v

end DataAccessId

end Compss
