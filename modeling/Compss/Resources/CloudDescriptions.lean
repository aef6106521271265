/-
The descriptions of the cloud: instance types, images, and what a virtual
machine, or a worker that is made of several, offers.

The composition of a worker counts its instances of each type; a type is known
by a reference.
-/
import Compss.Resources.MethodResourceDescription
import Mathlib.Data.List.AList

namespace Compss.Resources

variable {φ τ : Type}

namespace MethodResourceDescription

variable [JavaFloat φ]

def checkStorage (d rc2 : MethodResourceDescription φ) : Bool :=
  checkInclusionFloat d.storageSize rc2.storageSize && checkCompatibility d.storageType rc2.storageType

def contains (d rc2 : MethodResourceDescription φ) : Bool :=
  checkCompatibility d.operatingSystemType rc2.operatingSystemType &&
    checkCompatibility d.operatingSystemDistribution rc2.operatingSystemDistribution &&
    checkCompatibility d.operatingSystemVersion rc2.operatingSystemVersion &&
    rc2.hostQueues.all (d.hostQueues.contains ·) && rc2.appSoftware.all (d.appSoftware.contains ·) &&
    d.checkProcessors rc2 && d.checkMemory rc2 && d.checkStorage rc2

theorem contains_checkProcessors {d rc2 : MethodResourceDescription φ} (h : d.contains rc2 = true) :
    d.checkProcessors rc2 = true := by
  simp only [contains, Bool.and_eq_true] at h
  exact h.1.1.2

end MethodResourceDescription

/-- An instance type. -/
structure CloudInstanceTypeDescription (φ : Type) where
  name : String
  rd : MethodResourceDescription φ

structure CloudImageDescription where
  imageName : String
  operatingSystemType : String
  operatingSystemDistribution : String
  operatingSystemVersion : String
  appSoftware : List String
  queues : List String
  deriving DecidableEq, Repr

/-- How many instances of each type. -/
abbrev TypeComposition (τ : Type) := AList fun _ : τ => Int

namespace TypeComposition

variable [DecidableEq τ]

def addInstances (c : TypeComposition τ) (type : τ) (count : Int) : TypeComposition τ :=
  match c.lookup type with
  | some counts => c.insert type (counts + count)
  | none => c.insert type count

/-- A type of which no instance is left is removed. -/
def removeInstances (c : TypeComposition τ) (type : τ) (count : Int) : TypeComposition τ :=
  match c.lookup type with
  | some counts => if counts - count < 1 then c.erase type else c.insert type (counts - count)
  | none => c

end TypeComposition

structure CloudMethodResourceDescription (φ τ : Type) extends MethodResourceDescription φ where
  name : String
  typeComposition : TypeComposition τ
  image : Option CloudImageDescription

namespace CloudMethodResourceDescription

/-- One instance of a type, with an image. -/
def ofType (type : τ) (rd : MethodResourceDescription φ) (image : CloudImageDescription) :
    CloudMethodResourceDescription φ τ :=
  ⟨rd.copy, "", AList.singleton type 1, some image⟩

def setValue (d : CloudMethodResourceDescription φ τ) (value : φ) : CloudMethodResourceDescription φ τ :=
  { d with value := value }

section
variable [JavaFloat φ] [DecidableEq τ]

def increase (d cmrd : CloudMethodResourceDescription φ τ) : CloudMethodResourceDescription φ τ :=
  { d with
    toMethodResourceDescription := d.toMethodResourceDescription.increase cmrd.toMethodResourceDescription
    typeComposition := cmrd.typeComposition.foldl TypeComposition.addInstances d.typeComposition }

def reduce (d cmrd : CloudMethodResourceDescription φ τ) : CloudMethodResourceDescription φ τ :=
  { d with
    toMethodResourceDescription := d.toMethodResourceDescription.reduce cmrd.toMethodResourceDescription
    typeComposition := cmrd.typeComposition.foldl TypeComposition.removeInstances d.typeComposition }

end

end CloudMethodResourceDescription

end Compss.Resources
