/-
`IDLParser`: the interface file of the C binding, read line by line.

A line outside a region is a comment, begins an annotation or a function, or is
passed over; inside a region it is put after those before it, without what
separated them, until one ends with `);`. The annotations read last are those of
the next function. What the platform answers is the parameter of the constraints.
-/
import Compss.Lib.JavaText
import Compss.Resources.Constraints
import Compss.Runtime.CoreManager

namespace Compss.Runtime

open Lib Lib.Text Compss.Resources

namespace IDLParser

def constraintIDL : Text := "@Constraints".toList
def implementsIDL : Text := "@Implements".toList
def processorIDL : Text := "processors".toList
def classMethodSeparator : Text := "::".toList

inductive CodeRegion
  | comment
  | task
  | constraint
  | function
  | implementation
  deriving DecidableEq, Repr

structure CImplementation where
  className : Text
  methodName : Text
  deriving DecidableEq

/-! ## Texts -/

/-- What `.` does not stand for. -/
def isLineTerminator (c : Char) : Bool := c ∈ ['\n', '\r', '\u0085', '\u2028', '\u2029']

/-- `\s`. -/
def isSpace (c : Char) : Bool := c ∈ [' ', '\t', '\n', '\x0b', '\x0c', '\r']

/-- `.*` -/
def dots (s : Text) : Bool := s.all fun c => !isLineTerminator c

/-- `.*[)];` -/
def endsCall (line : Text) : Bool := [')', ';'].isSuffixOf line && dots line

/-- `.*[(].*` -/
def hasCall (line : Text) : Bool := '(' ∈ line && dots line

/-- An annotation, and `[(].*` -/
def isAnnotated (tag line : Text) : Bool := (tag ++ ['(']).isPrefixOf line && dots line

/-- Where the text stands first. -/
def indexOfText (pat : Text) : Text → Option Nat
  | [] => if pat = [] then some 0 else none
  | c :: s => if pat <+: c :: s then some 0 else (indexOfText pat s).map (· + 1)

/-- `replace(w, "")`. -/
def remove (w s : Text) : Text := if w = [] then s else replaceText w [] s

/-- `split("\\s+")`: an empty text comes first when a blank does. -/
def splitSpaces (s : Text) : List Text :=
  if s.any isSpace then
    if s.head?.any isSpace && words isSpace s ≠ [] then [] :: words isSpace s else words isSpace s
  else [s]

/-- `replaceAll("[(|)|,|;|\n|\t]", " ")`, by character. -/
def blanked (c : Char) : Char := if c ∈ ['(', '|', ')', ',', ';', '\n', '\t'] then ' ' else c

/-- `deleteCharAt(lastIndexOf(","))`, which raises when there is none. -/
def deleteLastComma (s : Text) : Option Text := if ',' ∈ s then some (s.reverse.erase ',').reverse else none

/-! ## Implementations -/

def loadCImplementation (line : Text) : Option CImplementation := do
  let line ← if implementsIDL <+: line then substring line (indexOf '(' line + 1) (indexOf ')' line) else some line
  match indexOfText classMethodSeparator line with
  | some (i + 1) =>
    let className := line.take (i + 1)
    return ⟨className, className ++ classMethodSeparator ++ line.drop (i + 1 + classMethodSeparator.length)⟩
  | _ => return ⟨"NULL".toList, line⟩

/-! ## Functions -/

variable {φ : Type} [JavaFloat φ] (pf : Platform φ)

def parameterType (paramDirection paramType : Text) : Text :=
  if pf.toUpperCase paramDirection = "INOUT".toList then "FILE_T".toList
  else if pf.toUpperCase paramDirection = "OUT".toList then "FILE_T".toList
  else if pf.toUpperCase paramType = "FILE".toList then "FILE_T".toList
  else if paramType = "boolean".toList then "BOOLEAN_T".toList
  else if paramType = "char".toList then "CHAR_T".toList
  else if paramType = "int".toList then "INT_T".toList
  else if paramType = "float".toList then "FLOAT_T".toList
  else if paramType = "double".toList then "DOUBLE_T".toList
  else if paramType = "byte".toList then "BYTE_T".toList
  else if paramType = "short".toList then "SHORT_T".toList
  else if paramType = "long".toList then "LONG_T".toList
  else if paramType = "string".toList then "STRING_T".toList
  else "FILE_T".toList

/-- By threes; the name of a parameter is not looked at. -/
def parameterTypes : List Text → Option (List Text)
  | [] => some []
  | [_] => none
  | [paramDirection, paramType] => some [parameterType pf paramDirection paramType]
  | paramDirection :: paramType :: _ :: splits =>
    (parameterTypes splits).map (parameterType pf paramDirection paramType :: ·)

def signature (i : CImplementation) (types : List Text) : Option String :=
  (deleteLastComma (i.methodName ++ '(' :: terminated ',' types)).map fun s => String.ofList (s ++ ')' :: i.className)

/-- A core that is null raises. -/
def register (taskSignature implementationSignature : String) (task : CImplementation)
    (currConstraints : MethodResourceDescription φ) (m : CoreManager (MethodResourceDescription φ)) :
    Option (CoreManager (MethodResourceDescription φ)) :=
  let core := match m.registerNewCoreElement taskSignature with
    | (some coreId, m) => (some coreId, m)
    | (none, m) => m.getCoreId taskSignature
  core.1.map fun coreId : Nat =>
    let implId := core.2.getNumberCoreImplementations coreId
    implId.2.registerNewImplementations coreId
      [⟨coreId, implId.1, .method, [String.ofList task.className, String.ofList task.methodName], currConstraints⟩]
      [implementationSignature]

def parseCFunction (line : Text) (currConstraints : MethodResourceDescription φ) (implementation : Option CImplementation)
    (m : CoreManager (MethodResourceDescription φ)) : Option (CoreManager (MethodResourceDescription φ)) := do
  let line := if "static ".toList <+: line then remove "static ".toList line else line
  let hasReturn : Bool := ¬ "void ".toList <+: line
  let splits := splitSpaces (line.map blanked)
  let task ← loadCImplementation (← splits[1]?)
  let types ← parameterTypes pf (splits.drop 2)
  let types := if hasReturn then "FILE_T".toList :: types else types
  let taskSignature ← signature (implementation.getD task) types
  let implementationSignature ← signature task types
  register taskSignature implementationSignature task currConstraints m

/-! ## Constraints -/

def loadCConstraints (line : Text) : Option (MethodResourceDescription φ) := do
  let line := line.drop (constraintIDL.length + 1)
  let (line, proc) ←
    if contains processorIDL line && dots line then do
      let proc ← substring line (indexOf '\x7b' line) (indexOf '\x7d' line + 1)
      let line := remove "processors=".toList (remove proc line)
      some (line.erase ',', proc.filter fun c => c ∉ ['\x7b', '\x7d'])
    else some (line, [])
  let line := line.filter fun c => c ∉ ['(', ')', ' ', ';', '\n', '\t']
  MethodResourceDescription.ofArray pf (fields ',' line) (some proc)

/-- `EMPTY_FOR_CONSTRAINTS.copy()`. -/
def defaultCtr : MethodResourceDescription φ :=
  (MethodResourceDescription.new.addProcessor (Processor.new.setComputingUnits 1)).copy

/-! ## The file -/

structure State (φ : Type) where
  /-- None while no region is read. -/
  region : Option CodeRegion
  structureString : Text
  currConstraints : MethodResourceDescription φ
  implementation : Option CImplementation
  manager : CoreManager (MethodResourceDescription φ)

def init (m : CoreManager (MethodResourceDescription φ)) : State φ :=
  ⟨none, [], (defaultCtr : MethodResourceDescription φ).copy, none, m⟩

/-- What a region, or a line of its own, is loaded as. -/
def load (type : CodeRegion) (text : Text) (s : State φ) : Option (State φ) :=
  match type with
  | .constraint => (loadCConstraints pf text).map fun c => { s with currConstraints := c }
  | .implementation => (loadCImplementation text).map fun i => { s with implementation := some i }
  | .function => (parseCFunction pf text s.currConstraints s.implementation s.manager).map fun m =>
    { s with manager := m, currConstraints := (defaultCtr : MethodResourceDescription φ).copy, implementation := none }
  | _ => some s

/-- A line inside a region. -/
def readInside (type : CodeRegion) (line : Text) (s : State φ) : Option (State φ) :=
  if "//".toList <+: line then some s
  else if type = .comment then if "*/".toList <:+ line then some { s with region := none } else some s
  else
    let s := { s with structureString := s.structureString ++ line }
    if endsCall line then load pf type s.structureString { s with region := none } else some s

/-- A line that starts a region, or has all of it. -/
def readStart (type : CodeRegion) (line : Text) (s : State φ) : Option (State φ) :=
  if endsCall line then load pf type line s else some { s with region := some type, structureString := line }

def readOutside (line : Text) (s : State φ) : Option (State φ) :=
  if "//".toList <+: line ∨ "#".toList <+: line ∨ ("/*".toList <+: line ∧ "*/".toList <:+ line) then some s
  else if "/*".toList <+: line then some { s with region := some .comment }
  else if isAnnotated constraintIDL line then readStart pf .constraint line s
  else if isAnnotated implementsIDL line then readStart pf .implementation line s
  else if hasCall line then readStart pf .function line s
  else some s

def readLine (s : State φ) (line : Text) : Option (State φ) :=
  match s.region with
  | some type => readInside pf type (trim line) s
  | none => readOutside pf (trim line) s

/-- None when an exception is raised. -/
def parseIDLMethods (lines : List Text) (m : CoreManager (MethodResourceDescription φ)) :
    Option (CoreManager (MethodResourceDescription φ)) :=
  (lines.foldlM (readLine pf) (init m)).map State.manager

end IDLParser

end Compss.Runtime
