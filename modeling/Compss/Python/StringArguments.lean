/-
A string that is passed to a Python task: how `build_values_types_directions`
writes it, and what `get_input_params` makes of the words it comes in.

The string is written in UTF-8 and base64, the empty one as the base64 of a key.
The worker turns both back, takes the key for the empty string, and of any other
text it first tries to read an object: that is how small objects come that the
main program has converted to strings, and it is tried whether or not the main
program converts any.

A Python string is a list of code points, of which the surrogates cannot be
written in UTF-8. The serializers are a parameter.
-/
import Mathlib
import Compss.Lib.Base64
import Compss.Python.Binding
import Compss.Python.TaskCommand

namespace Compss.Python

open Lib Lib.Text
open Executors (NIOParam DataType Stream)
open Executors.ExternalExecutor (valueArguments)

/-! ## Strings -/

abbrev CodePoint := Fin 0x110000

abbrev PyStr := List CodePoint

def CodePoint.isSurrogate (c : CodePoint) : Prop := 0xd800 ≤ c.val ∧ c.val ≤ 0xdfff

instance (c : CodePoint) : Decidable (CodePoint.isSurrogate c) := inferInstanceAs (Decidable (_ ∧ _))

def CodePoint.toChar? (c : CodePoint) : Option Char :=
  if h : Nat.isValidChar c.val then some (Char.ofNatAux c.val h) else none

def CodePoint.ofChar (c : Char) : CodePoint :=
  ⟨c.toNat, by rcases c.valid with h | h <;> simp only [Char.toNat] at * <;> omega⟩

namespace PyStr

def ofText (t : Text) : PyStr := t.map CodePoint.ofChar

/-- The characters of the string, if it has no surrogate. -/
def toText? (s : PyStr) : Option Text := s.mapM CodePoint.toChar?

/-- `str.encode()`; a surrogate raises. -/
def encode (s : PyStr) : Option (List UInt8) := (toText? s).map (List.flatMap String.utf8EncodeChar)

/-- `bytes.decode()`. -/
def decode (bytes : List UInt8) : Option PyStr := bytes.toByteArray.utf8Decode?.map fun cs => ofText cs.toList

end PyStr

section
variable {s : PyStr} {t : Text} {c : CodePoint} {bytes : List UInt8}

theorem CodePoint.toChar?_ofChar (c : Char) : (CodePoint.ofChar c).toChar? = some c := by
  rw [toChar?, dif_pos (show Nat.isValidChar (ofChar c).val from c.valid)]
  rfl

theorem CodePoint.ofChar_of_toChar? {d : Char} (h : c.toChar? = some d) : CodePoint.ofChar d = c := by
  rw [toChar?] at h
  split at h
  · cases h
    rfl
  · cases h

theorem CodePoint.toChar?_eq_none : c.toChar? = none ↔ c.isSurrogate := by
  have := c.isLt
  rw [toChar?, isSurrogate]
  split
  · next h => exact iff_of_false (Option.some_ne_none _) (by rcases h with h | h <;> omega)
  · next h =>
    refine iff_of_true rfl ?_
    simp only [Nat.isValidChar, not_or, not_and] at h
    omega

theorem PyStr.toText?_ofText (t : Text) : PyStr.toText? (PyStr.ofText t) = some t := by
  rw [toText?, ofText]
  induction t with
  | nil => rfl
  | cons c t ih => simp [CodePoint.toChar?_ofChar, ih]

theorem PyStr.ofText_of_toText? (h : PyStr.toText? s = some t) : PyStr.ofText t = s := by
  rw [toText?] at h
  induction s generalizing t with
  | nil =>
    cases h
    rfl
  | cons c s ih =>
    simp only [List.mapM_cons, Option.bind_eq_bind, Option.bind_eq_some_iff, Option.pure_def, Option.some.injEq] at h
    obtain ⟨d, hd, u, hu, rfl⟩ := h
    rw [ofText, List.map_cons, CodePoint.ofChar_of_toChar? hd, ← ofText, ih hu]

theorem PyStr.toText?_eq_none : PyStr.toText? s = none ↔ ∃ c ∈ s, CodePoint.isSurrogate c := by
  rw [toText?]
  induction s with
  | nil => simp
  | cons c s ih =>
    rw [List.exists_mem_cons_iff, ← ih, ← CodePoint.toChar?_eq_none]
    cases hc : c.toChar? <;> cases hs : s.mapM CodePoint.toChar? <;> simp [hc, hs]

/-- What can be written in UTF-8 is read back. -/
theorem PyStr.decode_of_encode (h : PyStr.encode s = some bytes) : PyStr.decode bytes = some s := by
  obtain ⟨t, ht, rfl⟩ := Option.map_eq_some_iff.mp h
  have hdecode : (t.flatMap String.utf8EncodeChar).toByteArray.utf8Decode? = some t.toArray :=
    List.utf8Decode?_utf8Encode
  rw [decode, hdecode, Option.map_some, ofText_of_toText? ht]

theorem PyStr.encode_eq_none : PyStr.encode s = none ↔ ∃ c ∈ s, CodePoint.isSurrogate c := by
  rw [encode, Option.map_eq_none_iff, toText?_eq_none]

end

/-! ## The main program -/

/-- A value of the main program or of a task: a string or another object. -/
inductive PyValue (Obj : Type)
  | str (s : PyStr)
  | other (obj : Obj)
  deriving DecidableEq

/-- A parameter of a task, with the value and whether that is a future. -/
structure Parameter (Obj : Type) where
  type : DataType
  direction : Direction
  stream : Stream
  pre : Text
  value : PyValue Obj
  isFuture : Bool

/-- What the lists of values, types, directions, streams and prefixes have of
one parameter. -/
structure BuiltArgument (Obj : Type) where
  value : PyValue Obj
  type : DataType
  direction : Direction
  stream : Stream
  pre : Text

/-- A parameter of type STRING that is no future. -/
def Parameter.ofStr {Obj : Type} (s : PyStr) (direction : Direction) (stream : Stream) (pre : Text) : Parameter Obj :=
  ⟨.STRING_T, direction, stream, pre, .str s, false⟩

def EMPTY_STRING_KEY : PyStr := PyStr.ofText "3mPtY57r1Ng".toList

namespace Binding

variable {Obj : Type}

/-- `base64.b64encode(p.value.encode()).decode()`, or that of the key. -/
def encodeString (s : PyStr) : Option Text := do
  let value := Base64.encode (← PyStr.encode s)
  if value.length = 0 then return Base64.encode (← PyStr.encode EMPTY_STRING_KEY)
  else return value

/-- One round of the loop of `build_values_types_directions`; what is no string
has no `encode`, and that raises. -/
def buildArgument (codeStrings : Bool) (p : Parameter Obj) : Option (BuiltArgument Obj) := do
  let value ←
    if p.type = .STRING_T ∧ p.isFuture = false ∧ codeStrings = true then
      match p.value with
      | .str s => (encodeString s).map fun value => .str (PyStr.ofText value)
      | .other _ => none
    else some p.value
  return ⟨value, if p.type = .OBJECT_T ∨ p.isFuture = true then .FILE_T else p.type, p.direction, p.stream, p.pre⟩

end Binding

/-! ## The worker -/

/-- The modules that deserialize, in the order they are tried, and what a
generator is restored from. -/
structure Serializers (Obj : Type) where
  load : List (List UInt8 → Option (PyValue Obj))
  convertToGenerator : PyValue Obj → PyValue Obj

/-- `deserialize_from_string`; without a result it raises a
`SerializerException`. -/
def Serializers.deserializeFromString {Obj : Type} (sers : Serializers Obj) (content : List UInt8) :
    Option (PyValue Obj) :=
  (sers.load.findSome? fun load => load content).map sers.convertToGenerator

namespace PiperWorker

variable {Obj : Type} (sers : Serializers Obj)

/-- What is made of the text of a string. -/
def decodeString (aux : Text) : Option (PyValue Obj) := do
  let bytes ← Base64.decode aux
  let text ← PyStr.decode bytes
  if text = EMPTY_STRING_KEY then return .str []
  else
    match sers.deserializeFromString bytes with
    | some realValue => return realValue
    | none => return .str text

/-- One round of the loop of `get_input_params`, for a parameter that says it is
a string; `args` is what is left from `pos` on. -/
def getInputString (args : List Text) : Option (PyValue Obj) := do
  let pType ← args[0]?.bind parseInt?
  let _ ← args[1]?.bind parseInt?
  let _ ← args[2]?
  let pValue ← args[3]?
  if pType = DataType.STRING_T.ordinal then
    let (aux, _) ← inputValue pType pValue args
    decodeString sers aux
  else none

/-- What the worker recovers of a parameter. The runtime puts the encoded text
into a parameter `np` of its own, `rest` are the words that come after it. -/
def recoveredString (np : NIOParam) (rest : List Text) (p : Parameter Obj) : Option (PyValue Obj) := do
  let argument ← Binding.buildArgument true p
  match argument.value with
  | .str s =>
    let text ← s.toText?
    getInputString sers (paramWords { np with type := argument.type, stream := argument.stream, pre := argument.pre,
                                              value := some text } ++ rest)
  | .other _ => none

section
variable {sers} {s : PyStr} {bytes : List UInt8}

/-- A text without blanks is read as it was put. -/
theorem getInputString_paramWords {np : NIOParam} {text : Text} (htype : np.type = .STRING_T)
    (hvalue : np.value = some text) (htext : ' ' ∉ text) (rest : List Text) :
    getInputString sers (paramWords np ++ rest) = decodeString sers text := by
  have hwords : paramWords np = [decimal DataType.STRING_T.ordinal, decimal np.stream.ordinal, np.pre, decimal 1, text] := by
    simp [paramWords, valueArguments, htype, hvalue, fields_of_not_mem htext]
  have hread : ∀ t u v : Text, inputValue DataType.STRING_T.ordinal (decimal 1) (t :: u :: v :: decimal 1 :: text :: rest) =
      some (text, 1) := fun t u v => by
    have hlen : ¬ ((t :: u :: v :: decimal 1 :: text :: rest).length : Int) < 1 + 4 := by
      simp only [List.length_cons]
      omega
    simp only [inputValue, DataType.ordinal, parseInt?_decimal, Option.bind_eq_bind, Option.bind_some, if_neg hlen]
    simp [join]
  rw [hwords]
  simp only [getInputString, List.cons_append, List.nil_append, List.getElem?_cons_zero, List.getElem?_cons_succ,
    Option.bind_eq_bind, Option.bind_some, parseInt?_decimal, if_true, hread]

/-- What is made of the text of what is not the empty string. -/
theorem decodeString_encode (h : PyStr.encode s = some bytes) : decodeString sers (Base64.encode bytes) =
    if s = EMPTY_STRING_KEY then some (.str [])
    else some ((sers.deserializeFromString bytes).getD (.str s)) := by
  rw [decodeString, Base64.decode_encode]
  simp only [Option.bind_eq_bind, Option.bind_some, PyStr.decode_of_encode h]
  split
  · rfl
  · cases sers.deserializeFromString bytes <;> rfl

/-- The empty string is written as the key, any other in its own bytes. -/
theorem encodeString_eq (h : PyStr.encode s = some bytes) : Binding.encodeString s =
    (PyStr.encode (if s = [] then EMPTY_STRING_KEY else s)).map Base64.encode := by
  have hempty : (Base64.encode bytes).length = 0 ↔ s = [] := by
    rw [List.length_eq_zero_iff, Base64.encode_eq_nil]
    refine ⟨fun hb => ?_, fun hs => ?_⟩
    · rw [hb] at h
      have hd := PyStr.decode_of_encode h
      rw [show PyStr.decode [] = some [] from rfl] at hd
      exact (Option.some.inj hd).symm
    · rw [hs] at h
      exact (Option.some.inj h).symm
  simp only [Binding.encodeString, h, Option.bind_eq_bind, Option.bind_some, hempty, Option.pure_def]
  split
  · cases PyStr.encode EMPTY_STRING_KEY <;> rfl
  · rw [h]
    rfl

/-- The worker decodes what the main program has encoded. -/
theorem recoveredString_ofStr (np : NIOParam) (rest : List Text) (direction : Direction) (stream : Stream) (pre : Text)
    (h : PyStr.encode s = some bytes) :
    recoveredString sers np rest (.ofStr s direction stream pre) =
      (PyStr.encode (if s = [] then EMPTY_STRING_KEY else s)).bind fun bytes => decodeString sers (Base64.encode bytes) := by
  cases hsent : PyStr.encode (if s = [] then EMPTY_STRING_KEY else s) with
  | none => simp [recoveredString, Binding.buildArgument, Parameter.ofStr, encodeString_eq h, hsent]
  | some sent =>
    simp only [recoveredString, Binding.buildArgument, Parameter.ofStr, encodeString_eq h, hsent, Option.bind_eq_bind,
      Option.map_some, Option.bind_some, Option.pure_def, and_self, if_true, PyStr.toText?_ofText]
    exact getInputString_paramWords rfl rfl (Base64.not_mem_encode sent) rest

/-- A string that is not empty arrives unless its bytes mean something else. -/
theorem recoveredString_of_ne_nil (np : NIOParam) (rest : List Text) (direction : Direction) (stream : Stream) (pre : Text)
    (h : PyStr.encode s = some bytes) (hs : s ≠ []) :
    recoveredString sers np rest (.ofStr s direction stream pre) = some (.str s) ↔
      s ≠ EMPTY_STRING_KEY ∧ ∀ obj, sers.deserializeFromString bytes = some obj → obj = .str s := by
  rw [recoveredString_ofStr np rest direction stream pre h, if_neg hs, h, Option.bind_some, decodeString_encode h]
  by_cases hkey : s = EMPTY_STRING_KEY
  · rw [if_pos hkey]
    refine iff_of_false (fun he => hs ?_) fun he => he.1 hkey
    cases he
    rfl
  · rw [if_neg hkey]
    refine ⟨fun he => ⟨hkey, fun obj hobj => ?_⟩, fun he => ?_⟩
    · rw [hobj] at he
      exact Option.some.inj he
    · cases hobj : sers.deserializeFromString bytes with
      | none => rfl
      | some obj => rw [Option.getD_some, he.2 obj hobj]

/-- No serialized object may be passed as the string it looks like. -/
theorem recoveredString_ne_of_serialized {serialize : PyValue Obj → Option (List UInt8)}
    (hserialize : ∀ obj bytes, serialize obj = some bytes → sers.deserializeFromString bytes = some obj)
    (np : NIOParam) (rest : List Text) (direction : Direction) (stream : Stream) (pre : Text) {obj : PyValue Obj}
    (hobj : serialize obj = some bytes) (h : PyStr.encode s = some bytes) (hs : s ≠ []) (hne : obj ≠ .str s) :
    recoveredString sers np rest (.ofStr s direction stream pre) ≠ some (.str s) := fun he =>
  hne (((recoveredString_of_ne_nil np rest direction stream pre h hs).mp he).2 obj (hserialize obj bytes hobj))

end

/-- `pickle.load` on what begins with the instructions `N`, push None, and `.`,
stop; whatever follows is not looked at. -/
def loadNone : List UInt8 → Option (PyValue Unit)
  | 78 :: 46 :: _ => some (.other ())
  | _ => none

/-- The module of numpy refuses what is neither its own nor trusted. -/
def noneSerializers : Serializers Unit := ⟨[fun _ => none, loadNone, loadNone], id⟩

/-- What a task receives of a text. -/
def received (text : String) : Option (PyValue Unit) :=
  recoveredString noneSerializers ⟨.STRING_T, .UNSPECIFIED, "null".toList, false, false, none, none, "null".toList⟩ []
    (.ofStr (PyStr.ofText text.toList) .IN .UNSPECIFIED "null".toList)

example : received "" = some (.str []) := by decide +kernel

end PiperWorker

end Compss.Python
