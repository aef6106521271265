/-
Interface files of the C binding: declarations with their annotations, what each
registers, the tokens it is written with, and the files it can be written as.

A file is in chunks: lines of tokens with gaps between them, comments on lines of
their own, and lines that declare nothing. `Rule` is what the parser makes of a gap:
where it looks for a text, or splits at a blank, the gap has to be as it expects.
-/
import Compss.Lib.Layout
import Compss.Runtime.IDLParser

namespace Compss.Runtime

open Lib Lib.Text Lib.Spaced Compss.Resources

/-- One implementation of the core element of a task, which is new if no signature
stands for it. -/
def CoreManager.declare {ρ : Type} (taskSignature signature : String) (args : List String) (requirements : ρ)
    (m : CoreManager ρ) : CoreManager ρ :=
  let (coreId, m) := match m.signatureToCoreId taskSignature with
    | some coreId => (coreId, m)
    | none => (m.coreCount, { m with
        coreCount := m.coreCount + 1
        implementations := m.implementations ++ [[]]
        signatures := m.signatures ++ [[taskSignature]]
        signatureToCoreId := Function.update m.signatureToCoreId taskSignature (some m.coreCount) })
  { m with
    implementations := m.implementations.modify coreId fun is => is ++ [⟨coreId, is.length, .method, args, requirements⟩]
    signatures := m.signatures.modify coreId (· ++ [signature])
    signatureToCoreId := Function.update m.signatureToCoreId signature (some coreId) }

/-- Each signature stands for a core element that is there. -/
structure CoreManager.Sound {ρ : Type} (m : CoreManager ρ) : Prop where
  implementations : m.implementations.length = m.coreCount
  registered : ∀ signature c, m.signatureToCoreId signature = some c → c < m.coreCount

namespace IDLParser

/-! ## Declarations -/

/-- Separators of tokens, and tokens of their own but for the blanks. -/
def isSep (c : Char) : Bool := isSpace c || c ∈ ['(', ')', ',', ';', '=', '\x7b', '\x7d']

def isWordChar (c : Char) : Bool :=
  ' ' < c && !isSep c && !isLineTerminator c && c ∉ ['|', '@', '/', '#']

/-- Also with a slash. -/
def isValueChar (c : Char) : Bool := ' ' < c && !isSep c && !isLineTerminator c && c ≠ '@'

abbrev IsIdentifier (w : Text) : Prop := IsWord (fun c => !isWordChar c) w

abbrev IsValue (w : Text) : Prop := IsWord (fun c => !isValueChar c) w

/-- A name, or `Class::name`. -/
structure MethodName where
  className : Option Text
  name : Text

namespace MethodName

def text (n : MethodName) : Text := n.className.elim n.name (· ++ classMethodSeparator ++ n.name)

def implementation (n : MethodName) : CImplementation := ⟨n.className.getD "NULL".toList, n.text⟩

structure WellFormed (n : MethodName) : Prop where
  className : ∀ c ∈ n.className, IsIdentifier c ∧ ':' ∉ c
  name : IsIdentifier n.name ∧ ':' ∉ n.name

end MethodName

inductive Direction
  | input
  | output
  | inout
  deriving DecidableEq

def Direction.text : Direction → Text
  | input => "in".toList
  | output => "out".toList
  | inout => "inout".toList

structure Param where
  direction : Direction
  type : Text
  name : Text

structure Function where
  isStatic : Bool
  returnType : Text
  name : MethodName
  params : List Param

structure Function.WellFormed (f : Function) : Prop where
  returnType : IsIdentifier f.returnType ∧ f.returnType ≠ "static".toList
  name : f.name.WellFormed
  params : ∀ p ∈ f.params, IsIdentifier p.type ∧ IsIdentifier p.name

/-- Keys with their values; those of the processors, in a list of its own, may stand
among the others. -/
structure Constraints where
  first : List (Text × Text)
  processors : Option (List (List (Text × Text)) × List (Text × Text))

namespace Constraints

def listed (c : Constraints) : List (List (Text × Text)) := (c.processors.map Prod.fst).getD []

def loose (c : Constraints) : List (Text × Text) := c.first ++ (c.processors.map Prod.snd).getD []

/-- No processor is without constraints. -/
structure WellFormed (c : Constraints) : Prop where
  loose : ∀ p ∈ c.loose, IsValue p.1 ∧ IsValue p.2
  listed : ∀ ps ∈ c.listed, ps ≠ [] ∧ ∀ p ∈ ps, IsValue p.1 ∧ IsValue p.2

end Constraints

/-- The annotations may come in either order. -/
structure Declaration where
  constraints : Option Constraints
  implements : Option MethodName
  implementsFirst : Bool
  function : Function

/-! ## What they register -/

section
variable {φ : Type} [JavaFloat φ] (pf : Platform φ)

def addPairs (pairs : List (Text × Text)) (s : Draft φ × MethodResourceDescription φ) :
    Option (Draft φ × MethodResourceDescription φ) :=
  pairs.foldlM (fun s p => MethodResourceDescription.addConstraints pf p.1 p.2 s) s

def addListed (s : Draft φ × MethodResourceDescription φ) (pairs : List (Text × Text)) :
    Option (Draft φ × MethodResourceDescription φ) := do
  let (proc, d) ← addPairs pf pairs (Draft.new, s.2)
  return (proc, d.addProcessor proc.proc)

/-- The description that the constructor for C builds from the keys and the values. -/
def Constraints.description (c : Constraints) : Option (MethodResourceDescription φ) := do
  let (proc, d) ←
    if c.listed ≠ [] then c.listed.foldlM (addListed pf) (Draft.new, MethodResourceDescription.new)
    else some (Draft.new.setComputingUnits 1, MethodResourceDescription.new)
  let (proc, d) ← addPairs pf c.loose (proc, d)
  let d := if c.listed ≠ [] then d.setLast proc.proc else d.addProcessor proc.proc
  if d.totalProcessors .cpu = 0 then return d.addProcessor (Draft.new.setComputingUnits 1).proc
  return d

namespace Function

def types (f : Function) : List Text :=
  (if f.returnType = "void".toList then [] else ["FILE_T".toList]) ++
    f.params.map fun p => parameterType pf p.direction.text p.type

def signature (i : CImplementation) (f : Function) : String :=
  String.ofList (i.methodName ++ '(' :: (join ',' (f.types pf) ++ ')' :: i.className))

/-- With the annotations that stand before it. -/
def register (constraints : MethodResourceDescription φ) (implements : Option CImplementation) (f : Function)
    (m : CoreManager (MethodResourceDescription φ)) : CoreManager (MethodResourceDescription φ) :=
  let task := f.name.implementation
  m.declare (f.signature pf (implements.getD task)) (f.signature pf task)
    [String.ofList task.className, String.ofList task.methodName] constraints

end Function

namespace Declaration

structure WellFormed (d : Declaration) : Prop where
  constraints : ∀ c ∈ d.constraints, c.WellFormed ∧ (c.description pf).isSome
  implements : ∀ n ∈ d.implements, n.WellFormed
  function : d.function.WellFormed

/-- Its own constraints, or the default. -/
def requirements (d : Declaration) : MethodResourceDescription φ :=
  (d.constraints.bind fun c => c.description pf).getD defaultCtr.copy

def register (d : Declaration) (m : CoreManager (MethodResourceDescription φ)) : CoreManager (MethodResourceDescription φ) :=
  d.function.register pf (d.requirements pf) (d.implements.map MethodName.implementation) m

end Declaration

end

/-! ## Tokens -/

/-- What the parser expects of the gap before a token. -/
inductive Rule
  | any
  | none
  /-- One blank. -/
  | blank
  /-- A blank, and what comes after it. -/
  | leads
  /-- Blanks, if any. -/
  | blanks
  /-- Blanks and tabs, if any. -/
  | flat

def Rule.Holds : Rule → Text → Prop
  | any, _ => True
  | none, g => g = []
  | blank, g => g = [' ']
  | leads, g => g.head? = some ' '
  | blanks, g => ∀ c ∈ g, c = ' '
  | flat, g => ∀ c ∈ g, c = ' ' ∨ c = '\t'

/-- Items with commas between them; the gap before an item after a comma is another one. -/
def inCommas {α : Type} (comma lead next : Rule) (item : Rule → α → List (Rule × Text)) : List α → List (Rule × Text)
  | [] => []
  | x :: xs => item lead x ++ xs.flatMap fun y => (comma, [',']) :: item next y

def Param.rules (lead : Rule) (p : Param) : List (Rule × Text) :=
  [(lead, p.direction.text), (.any, p.type), (.any, p.name)]

namespace Function

/-- What comes after `static`. -/
def rulesFrom (lead : Rule) (f : Function) : List (Rule × Text) :=
  (lead, f.returnType) :: (if f.returnType = "void".toList then .leads else .any, f.name.text) :: (.any, ['(']) ::
    (inCommas .any .any .any Param.rules f.params ++ [(.any, [')']), (.none, [';'])])

def rules (f : Function) : List (Rule × Text) :=
  if f.isStatic then (.none, "static".toList) :: f.rulesFrom .blank else f.rulesFrom .none

end Function

def pairRules (inner lead : Rule) (p : Text × Text) : List (Rule × Text) := [(lead, p.1), (inner, ['=']), (inner, p.2)]

/-- The constructor splits a processor at each blank. -/
def processorRules (lead : Rule) (pairs : List (Text × Text)) : List (Rule × Text) :=
  (lead, "@Processor".toList) :: (.none, ['(']) :: (inCommas .none .none .blank (pairRules .none) pairs ++ [(.blanks, [')'])])

def listedRules (lead : Rule) (listed : List (List (Text × Text))) : List (Rule × Text) :=
  (lead, processorIDL) :: (.none, ['=']) :: (.flat, ['\x7b']) ::
    (inCommas .blanks .none .blanks processorRules listed ++ [(if listed = [] then .none else .blanks, ['\x7d'])])

namespace Constraints

/-- The list of the processors and the constraints, in their order. -/
def entries (c : Constraints) : List (List (List (Text × Text)) ⊕ Text × Text) :=
  c.first.map .inr ++ c.processors.elim [] fun p => .inl p.1 :: p.2.map .inr

def rules (c : Constraints) : List (Rule × Text) :=
  (.none, constraintIDL) :: (.none, ['(']) ::
    (inCommas .flat .flat .flat (fun lead => Sum.elim (listedRules lead) (pairRules .flat lead)) c.entries ++
      [(.flat, [')']), (.none, [';'])])

end Constraints

def MethodName.rules (n : MethodName) : List (Rule × Text) :=
  [(.none, implementsIDL), (.none, ['(']), (.none, n.text), (.none, [')']), (.none, [';'])]

/-- An annotation or a function. -/
inductive Item
  | constraints (c : Constraints)
  | implements (n : MethodName)
  | function (f : Function)

def Item.rules : Item → List (Rule × Text)
  | constraints c => c.rules
  | implements n => n.rules
  | function f => f.rules

namespace Declaration

def annotations (d : Declaration) : List Item :=
  if d.implementsFirst then (d.implements.map .implements).toList ++ (d.constraints.map .constraints).toList
  else (d.constraints.map .constraints).toList ++ (d.implements.map .implements).toList

def items (d : Declaration) : List Item := d.annotations ++ [.function d.function]

def tokens (d : Declaration) : List Text := d.items.flatMap fun i => i.rules.map Prod.snd

end Declaration

/-! ## Files -/

/-- White space within a line. -/
def IsGap (g : Text) : Prop := ∀ c ∈ g, c ∈ [' ', '\t', '\x0b', '\x0c']

instance (g : Text) : Decidable (IsGap g) := List.decidableBAll _ g

structure CodeLine where
  tokens : Spaced
  trail : Text

def CodeLine.text (l : CodeLine) : Text := l.tokens.text ++ l.trail

inductive Chunk
  | code (l : CodeLine)
  | lineComment (indent text : Text)
  /-- What stands between `/*` and `*/`, a text for each line. -/
  | blockComment (indent first : Text) (rest : List Text) (trail : Text)
  /-- The head of the interface, its end, or nothing. -/
  | other (line : Text)

/-- The lines of a comment from the one that has been begun. -/
def closing (trail : Text) : Text → List Text → List Text
  | line, [] => [line ++ "*/".toList ++ trail]
  | line, next :: rest => line :: closing trail next rest

namespace Chunk

def lines : Chunk → List Text
  | code l => [l.text]
  | lineComment indent text => [indent ++ "//".toList ++ text]
  | blockComment indent first rest trail => closing trail (indent ++ "/*".toList ++ first) rest
  | other line => [line]

def tokens : Chunk → List Text
  | code l => l.tokens.tokens
  | _ => []

def WellFormed : Chunk → Prop
  | code l => (∀ p ∈ l.tokens, IsGap p.1) ∧ IsGap l.trail ∧ l.tokens.IsChain (Apart isSep)
  | lineComment indent _ => IsGap indent
  | blockComment indent first rest trail => IsGap indent ∧ IsGap trail ∧ ∀ b ∈ first :: rest, ¬ "*/".toList <:+: b
  | other line => '(' ∉ line ∧ ¬ "/*".toList <+: trim line

end Chunk

/-- A file that the declarations are written as. -/
structure Renders (file : List Chunk) (ds : List Declaration) : Prop where
  tokens : file.flatMap Chunk.tokens = ds.flatMap Declaration.tokens
  wellFormed : ∀ c ∈ file, c.WellFormed

/-! ## What the layout must keep to -/

/-- A break between two lines counts for no blank. -/
def glue (cs : List Chunk) : Spaced :=
  cs.flatMap fun
    | .code l => flush l.tokens
    | _ => []

/-- What goes wrong in any layout with the gaps that are expected. -/
def Item.Sound : Item → Text → Prop
  | function f, text =>
    (f.returnType = "void".toList → f.params ≠ []) ∧ (f.isStatic → ¬ "static ".toList <:+: text.drop "static ".toList.length)
  | constraints c, text =>
    if c.processors.isSome then c.first.length ≤ 1 ∧ ∀ p ∈ c.loose, ¬ processorIDL <:+ p.1
    else ¬ processorIDL <:+: text
  | implements _, _ => True

structure Item.LaidAs (i : Item) (ts : Spaced) : Prop where
  fits : Fits Rule.Holds ts i.rules
  apart : ts.IsChain (Apart isSep)
  sound : i.Sound ts.text

/-- What may stand between the lines of an item. -/
def Chunk.Inner : Chunk → Prop
  | code l => ¬ "//".toList <+: (flush l.tokens).text
  | lineComment _ _ => True
  | _ => False

/-- On one line; or on several, the first with the parenthesis that is opened, the last
with the one that is closed at the end. -/
inductive Item.Laid (i : Item) : List Chunk → Prop
  | one (l : CodeLine) (h : i.LaidAs (flush l.tokens)) : Laid i [.code l]
  | more (l : CodeLine) (cs : List Chunk) (l' : CodeLine) (hopen : ['('] ∈ l.tokens.tokens) (hinner : ∀ c ∈ cs, c.Inner)
    (hclose : [[')'], [';']] <:+ l'.tokens.tokens) (hlast : (Chunk.code l').Inner)
    (h : i.LaidAs (glue (.code l :: (cs ++ [.code l'])))) : Laid i (.code l :: (cs ++ [.code l']))

/-- A comment that is seen to end where it does, or a line that is passed over. -/
def Chunk.Skipped : Chunk → Prop
  | code l => l.tokens = []
  | lineComment _ _ => True
  | blockComment indent first rest trail => rest = [] ∨
    ¬ "*/".toList <:+ trim (indent ++ "/*".toList ++ first) ∧
      ∀ l ∈ rest.getLast?, ¬ "//".toList <+: trim (l ++ "*/".toList ++ trail)
  | other _ => True

/-- The items one after the other, each on lines of its own; `static` is not missed when
it is left on a line before. -/
inductive Laid : List Chunk → List Item → Prop
  | nil : Laid [] []
  | skip {cs is} (c : Chunk) (hc : c.Skipped) (h : Laid cs is) : Laid (c :: cs) is
  | static {cs is} (l : CodeLine) (f : Function) (hf : f.isStatic) (hl : l.tokens.tokens = ["static".toList])
    (h : Laid cs (.function { f with isStatic := false } :: is)) : Laid (.code l :: cs) (.function f :: is)
  | item {cs is} (piece : List Chunk) (i : Item) (hi : i.Laid piece) (h : Laid cs is) : Laid (piece ++ cs) (i :: is)

end IDLParser

end Compss.Runtime
