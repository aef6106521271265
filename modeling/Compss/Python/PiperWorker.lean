/-
`piper_worker.py`: what the worker process reads out of the line of a task, and
the line it answers with.

An index that is out of the list, a number that is none and a type that a
Python task cannot have end the reading; it has no result then. Numbers that
count words are not negative. Of a parameter the raw value is kept: what is
made of it (an object from the storage, a string decoded, a number) is the
task's.
-/
import Compss.Executors.ExternalExecutor

namespace Compss.Python

open Lib Lib.Text
open Executors (NIOTask NIOParam DataType ExecutorEnv)

/-- What `str.split()` splits at. -/
def isSpace (c : Char) : Bool :=
  (9 ≤ c.toNat && c.toNat ≤ 13) || (28 ≤ c.toNat && c.toNat ≤ 32) || (8192 ≤ c.toNat && c.toNat ≤ 8202) ||
    [133, 160, 5760, 8232, 8233, 8239, 8287, 12288].contains c.toNat

/-- A parameter as it is read. -/
structure InputParam where
  type : Int
  stream : Int
  pre : Text
  value : Text
  deriving DecidableEq, Repr

/-- The arguments of `execute_task`. -/
structure ExecuteTask where
  path : Text
  methodName : Text
  slaves : List Text
  cus : Text
  hasTarget : Text
  returnType : Text
  numParams : Int
  parameters : List InputParam
  deriving DecidableEq, Repr

structure ReceivedTask where
  jobId : Text
  jobOut : Text
  jobErr : Text
  bindedCpus : Text
  bindedGpus : Text
  hostlist : Text
  task : ExecuteTask
  deriving DecidableEq, Repr

namespace PiperWorker

/-- The raw value of a parameter of type `pType`, and how many words it takes
besides the four of every parameter. -/
def inputValue (pType : Int) (pValue : Text) (args : List Text) : Option (Text × Nat) :=
  if pType = DataType.FILE_T.ordinal then some (pValue, 0)
  else if pType = DataType.EXTERNAL_OBJECT_T.ordinal then some (pValue, 1)
  else if pType = DataType.STRING_T.ordinal then do
    let numSubstrings ← parseInt? pValue
    if (args.length : Int) < numSubstrings + 4 then none
    else some (join ' ' ((args.drop 4).take numSubstrings.toNat), numSubstrings.toNat)
  else if pType = DataType.INT_T.ordinal ∨ pType = DataType.LONG_T.ordinal ∨ pType = DataType.DOUBLE_T.ordinal ∨
      pType = DataType.BOOLEAN_T.ordinal then
    some (pValue, 0)
  else none

/-- `get_input_params`; `args` is what is left from `pos` on. -/
def getInputParams : (numParams : Nat) → (args : List Text) → Option (List InputParam)
  | 0, _ => some []
  | n + 1, args => do
    let pType ← args[0]?.bind parseInt?
    let pStream ← args[1]?.bind parseInt?
    let pPrefix ← args[2]?
    let pValue ← args[3]?
    let (value, more) ← inputValue pType pValue args
    let rest ← getInputParams n (args.drop (4 + more))
    return ⟨pType, pStream, pPrefix, value⟩ :: rest

/-- The loop that collects the slave nodes. -/
def readSlaves (params : List Text) (numSlaves : Nat) : Option (List Text) :=
  (List.range' 2 numSlaves).mapM fun i => params[i]?

/-- The first part of `execute_task`. -/
def executeTask (params : List Text) : Option ExecuteTask := do
  let path ← params[0]?
  let methodName ← params[1]?
  let numSlaves ← params[2]?.bind parseInt?
  let slaves ← readSlaves params numSlaves.toNat
  let args := params.drop (3 + numSlaves.toNat)
  let cus ← args[0]?
  let args := args.drop 1
  let hasTarget ← args[0]?
  let returnType ← args[1]?
  let numParams ← args[2]?.bind parseInt?
  let parameters ← getInputParams numParams.toNat (args.drop 3)
  return ⟨path, methodName, slaves, cus, hasTarget, returnType, numParams, parameters⟩

/-- `process_task`, for a line with a task. -/
def processTask (line : Text) : Option ReceivedTask := do
  let split := words isSpace line
  if split[0]? ≠ some "task".toList ∨ split.length < 3 then none
  else
    let bindedCpus ← split[split.length - 3]?
    let bindedGpus ← split[split.length - 2]?
    let hostlist ← split[split.length - 1]?
    let split := split.take (split.length - 3)
    let jobId ← split[1]?
    let jobOut ← split[2]?
    let jobErr ← split[3]?
    let task ← executeTask (split.drop 9)
    return ⟨jobId, jobOut, jobErr, bindedCpus, bindedGpus, hostlist, task⟩

end PiperWorker

end Compss.Python
