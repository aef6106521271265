/-
`ExternalExecutor`: the command an executor writes to the pipe of its worker
process, and what it does with the result that comes back.

The command is one line of words. Three parts of it have lengths of their own:
the slave nodes, the parameters, and the words of a string.
-/
import Compss.Lib.Text
import Compss.Worker.TaskResultReader

namespace Compss.Executors

open Lib Lib.Text

/-- `DataType`, in the order of its constants. -/
inductive DataType
  | BOOLEAN_T
  | CHAR_T
  | BYTE_T
  | SHORT_T
  | INT_T
  | LONG_T
  | FLOAT_T
  | DOUBLE_T
  | STRING_T
  | FILE_T
  | OBJECT_T
  | PSCO_T
  | EXTERNAL_OBJECT_T
  deriving DecidableEq, Repr

namespace DataType

def ordinal : DataType → Nat
  | .BOOLEAN_T => 0
  | .CHAR_T => 1
  | .BYTE_T => 2
  | .SHORT_T => 3
  | .INT_T => 4
  | .LONG_T => 5
  | .FLOAT_T => 6
  | .DOUBLE_T => 7
  | .STRING_T => 8
  | .FILE_T => 9
  | .OBJECT_T => 10
  | .PSCO_T => 11
  | .EXTERNAL_OBJECT_T => 12

/-- `DataType.values()`. -/
def values : List DataType :=
  [.BOOLEAN_T, .CHAR_T, .BYTE_T, .SHORT_T, .INT_T, .LONG_T, .FLOAT_T, .DOUBLE_T, .STRING_T, .FILE_T, .OBJECT_T, .PSCO_T,
    .EXTERNAL_OBJECT_T]

theorem values_ordinal (t : DataType) : values[t.ordinal]? = some t := by cases t <;> rfl

theorem ordinal_inj {t u : DataType} (h : t.ordinal = u.ordinal) : t = u := by
  have := values_ordinal t
  rw [h, values_ordinal] at this
  exact (Option.some.inj this).symm

end DataType

inductive Stream
  | STDIN
  | STDOUT
  | STDERR
  | UNSPECIFIED
  deriving DecidableEq, Repr

def Stream.ordinal : Stream → Nat
  | .STDIN => 0
  | .STDOUT => 1
  | .STDERR => 2
  | .UNSPECIFIED => 3

/-- `NIOParam`: `pre` is its prefix, the value its text, and of the data the name
is kept. -/
structure NIOParam where
  type : DataType
  stream : Stream
  pre : Text
  preserveSourceData : Bool
  writeFinalValue : Bool
  value : Option Text
  data : Option Text
  originalName : Text
  deriving DecidableEq, Repr

/-- `NIOTask`, of a method. -/
structure NIOTask where
  jobId : Int
  taskId : Int
  workerDebug : Bool
  declaringClass : Text
  alternativeMethodName : Text
  slaveWorkersNodeNames : List Text
  totalCPUComputingUnits : Int
  hasTarget : Bool
  hasReturn : Bool
  params : List NIOParam
  numParams : Nat
  deriving DecidableEq, Repr

/-- What the executor knows besides the task. -/
structure ExecutorEnv where
  tracing : Bool
  storageConf : Text
  /-- The property with the names of the hosts, if it is set. -/
  hostnames : Option Text
  outputsBasename : Text
  assignedCoreUnits : List Int
  assignedGPUs : List Int

namespace ExternalExecutor

def boolText (b : Bool) : Text := if b then "true".toList else "false".toList

/-- `addThreadAffinity` and `addGPUAffinity`. -/
def affinity (units : List Int) : Text := if units = [] then "-".toList else join ',' (units.map decimal)

/-- `addHostlist`. -/
def hostlist (env : ExecutorEnv) : Text :=
  match env.hostnames with
  | none => "-".toList
  | some names => if names = [] then "-".toList else names

/-- `new File(path).getName()`. -/
def fileName (path : Text) : Text := ((path.splitOn '/').filter (· ≠ [])).getLast?.getD []

def isRuntimeRenamed (name : Text) : Bool := "d".toList.isPrefixOf name && ".IT".toList.isSuffixOf name

/-- The value of a file; null raises. -/
def fileArgument (np : NIOParam) (value : Text) : Text :=
  let originalFile := np.data.getD []
  let destFile := fileName value
  let destFile := if isRuntimeRenamed destFile then destFile else originalFile
  join ':' [originalFile, destFile, boolText np.preserveSourceData, boolText np.writeFinalValue, np.originalName]

/-- The arguments for the value of a parameter. -/
def valueArguments (np : NIOParam) (value : Text) : List Text :=
  match np.type with
  | .FILE_T => [fileArgument np value]
  | .OBJECT_T | .PSCO_T | .EXTERNAL_OBJECT_T => [value, if np.writeFinalValue then "W".toList else "R".toList]
  | .STRING_T => decimal (fields ' ' value).length :: fields ' ' value
  | .BOOLEAN_T | .CHAR_T | .BYTE_T | .SHORT_T | .INT_T | .LONG_T | .FLOAT_T | .DOUBLE_T => [value]

/-- One round of the loop over the parameters; a null value raises. -/
def paramArguments (np : NIOParam) : Option (List Text) :=
  np.value.map fun value => decimal np.type.ordinal :: decimal np.stream.ordinal :: np.pre :: valueArguments np value

/-- The type of what the task returns; without parameters there is none, and
that raises. -/
def returnArgument (nt : NIOTask) : Option Text :=
  if nt.hasReturn then nt.params.getLast?.map fun np => decimal np.type.ordinal else some "null".toList

/-- What `execute_task` takes of the arguments, up to the parameters. -/
def headArguments (nt : NIOTask) (returnType : Text) : List Text :=
  [nt.declaringClass, nt.alternativeMethodName, decimal nt.slaveWorkersNodeNames.length] ++ nt.slaveWorkersNodeNames ++
    [decimal nt.totalCPUComputingUnits, boolText nt.hasTarget, returnType, decimal nt.numParams]

def addArguments (env : ExecutorEnv) (nt : NIOTask) : Option (List Text) := do
  let returnType ← returnArgument nt
  let params ← nt.params.mapM paramArguments
  return [boolText env.tracing, decimal nt.taskId, boolText nt.workerDebug, env.storageConf, "METHOD".toList] ++
    headArguments nt returnType ++ params.flatten

/-- The line for the worker process: `executeNativeMethod` and `executeExternal`.
The command of Python begins with no words of its own. -/
def taskCMD (env : ExecutorEnv) (nt : NIOTask) : Option Text := do
  let args ← addArguments env nt
  return join ' '
    (["task".toList, decimal nt.jobId, env.outputsBasename ++ ".out".toList, env.outputsBasename ++ ".err".toList] ++ args ++
      [affinity env.assignedCoreUnits, affinity env.assignedGPUs, hostlist env]) ++ ['\n']

/-- The last part of `executeExternal`: the parameters that the result says to
be external objects. One too many raises. -/
def updateParameters : List (Nat × Option String) → Nat → List NIOParam → Option (List NIOParam)
  | [], _, params => some params
  | (type, value) :: rest, i, params =>
    if type = DataType.EXTERNAL_OBJECT_T.ordinal then
      match params[i]? with
      | none => none
      | some np =>
        updateParameters rest (i + 1)
          (params.set i { np with type := .EXTERNAL_OBJECT_T, value := value.map String.toList })
    else updateParameters rest (i + 1) params

end ExternalExecutor

end Compss.Executors
