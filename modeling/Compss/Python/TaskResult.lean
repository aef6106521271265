/-
The result of a Python task on its way back: what `execute_task` returns, the
`endTask` line that is made of it, and the parameters that the executor updates
from the line.

The line counts the target once more, though it stands among the parameters,
and for a method of a class it has one result more in front. So only the
results of functions reach their parameters (`delivers_iff`).
-/
import Compss.Executors.EndTask
import Compss.Python.TaskCommand

namespace Compss.Python

open Lib Lib.Text
open Executors Executors.ExternalExecutor Executors.TaskResultReader PiperWorker

/-- A value of a task with its type, if it has one, and the id of the external
object that it is when the task ends. -/
structure Argument where
  type : Option Int
  final : Option Text
  deriving DecidableEq, Repr

namespace PiperWorker

/-- The arguments of the call: of an instance method the last one is the callee
and comes first, a method of a class has the class in front. -/
def callArguments (importError : Bool) (hasTarget : Text) (args : List Argument) : Option (List Argument) :=
  if importError then
    if hasTarget = "true".toList then
      args.getLast?.map fun callee =>
        { callee with
          type := some (if callee.type = some (DataType.EXTERNAL_OBJECT_T.ordinal : Int)
            then DataType.EXTERNAL_OBJECT_T.ordinal else DataType.OBJECT_T.ordinal) } :: args.dropLast
    else some (⟨none, none⟩ :: args)
  else some args

/-- `check_value_changes`: the type and value that are returned for an argument. -/
def checkValueChanges (arg : Argument) : Option Int × Text :=
  match arg.final with
  | some id => (some DataType.EXTERNAL_OBJECT_T.ordinal, id)
  | none => (arg.type, "null".toList)

/-- `str(type)`. -/
def typeText : Option Int → Text
  | some type => decimal type
  | none => "None".toList

/-- `buildReturnParamsMessage`: its words, each of which has a blank after it. -/
def buildReturnParamsMessage (params : List Text) (pairs : List (Option Int × Text)) : Option (List Text) := do
  let numSlaves ← params[2]?.bind parseInt?
  let argPosition := 3 + numSlaves.toNat
  let args := params.drop (argPosition + 1)
  let hasTarget ← args[0]?
  let returnType ← args[1]?
  let total := pairs.length + (if hasTarget = "false".toList then 0 else 1) + (if returnType = "null".toList then 0 else 1)
  return decimal (total : Nat) :: resultWords (pairs.map fun p => (typeText p.1, p.2))

/-- `execute_task` and the answer of `process_task`, for a task that ends with
exit value 0; `finals` are the external objects at the end. -/
def endTask (importError : Bool) (jobId : Text) (params : List Text) (finals : List (Option Text)) : Option Text := do
  let task ← executeTask params
  let args ← callArguments importError task.hasTarget (List.zipWith (fun p final => ⟨some p.type, final⟩) task.parameters finals)
  let message ← buildReturnParamsMessage params (args.map checkValueChanges)
  return terminated ' ' (["endTask".toList, jobId, decimal 0] ++ message) ++ ['\n']

end PiperWorker

/-- A Python task that was read and ends, with the ids of the parameters that
are external objects then. -/
structure PythonEnd (nt : NIOTask) (args : List Text) (finals : List (Option Text)) : Prop where
  numParams : nt.numParams + (if nt.hasReturn then 1 else 0) = nt.params.length
  /-- The parameters were read with their types. -/
  read : ∃ ps, getInputParams nt.numParams args = some ps ∧
    ps.map (·.type) = (nt.params.take nt.numParams).map fun np => (np.type.ordinal : Int)
  length : finals.length = nt.numParams
  /-- An external object stays one. -/
  stays : ∀ (i : Nat) np, nt.params[i]? = some np → np.type = .EXTERNAL_OBJECT_T → finals[i]? ≠ some none
  ids : ∀ id, some id ∈ finals → IsWord isBreak id ∧ isNull id = false
  callee : nt.hasTarget = true → 0 < nt.numParams

/-- The `i`-th parameter after the task: an external object has its type and id. -/
def finalParam (finals : List (Option Text)) (i : Nat) (np : NIOParam) : NIOParam :=
  match finals[i]? with
  | some (some id) => { np with type := .EXTERNAL_OBJECT_T, value := some id }
  | _ => np

/-- What the executor makes of the line: it is well formed, and the parameters
that are external objects at the end, and no others, get their type and id. -/
def Delivers (nt : NIOTask) (finals : List (Option Text)) (line : Text) : Prop :=
  ∃ ws status params, splitLine line = some ws ∧ WellFormed ws ∧ readFromPipe line = some (nt.jobId, status) ∧
    taskParams status nt = some params ∧ ∀ i : Nat, params[i]? = nt.params[i]?.map (finalParam finals i)

/-! ## The line -/

/-- The arguments in the order of the parameters. -/
def arguments (nt : NIOTask) (finals : List (Option Text)) : List Argument :=
  List.zipWith (fun np final => ⟨some (np.type.ordinal : Int), final⟩) (nt.params.take nt.numParams) finals

/-- The words of what is returned for an argument. -/
def Argument.words (arg : Argument) : Text × Text := (typeText (checkValueChanges arg).1, (checkValueChanges arg).2)

/-- The result that is read for an argument. -/
def Argument.result (arg : Argument) : Nat × Option String :=
  match arg.final with
  | some id => (DataType.EXTERNAL_OBJECT_T.ordinal, some (String.ofList id))
  | none => ((arg.type.getD 0).toNat, none)

/-- An argument whose type is one of `DataType`, if it has one, and whose id can
be written to the line. -/
structure Argument.Sendable (arg : Argument) : Prop where
  type : ∀ i, arg.type = some i → ∃ t : DataType, i = t.ordinal
  final : ∀ id, arg.final = some id → IsWord isBreak id ∧ isNull id = false

theorem typeText_isBreak (type : Option Int) : IsWord isBreak (typeText type) := by
  cases type with
  | none => decide
  | some i => exact decimal_isBreak i

theorem dataType_ordinal (t : DataType) : dataType (t.ordinal : Int) = some t := by
  rw [dataType, if_neg (by omega), Int.toNat_natCast, DataType.values_ordinal]

theorem readResult_words {arg : Argument} (h : arg.Sendable) : readResult arg.words = some arg.result := by
  have htype : ∀ t : DataType, dataType ((parseInt? (typeText (some (t.ordinal : Int)))).getD 0) = some t := fun t => by
    rw [typeText, parseInt?_decimal, Option.getD_some, dataType_ordinal]
  cases hfinal : arg.final with
  | some id =>
    simp only [readResult, Argument.words, checkValueChanges, Argument.result, hfinal, htype, (h.final id hfinal).2]
    rfl
  | none =>
    have hnull : isNull "null".toList = true := by decide
    cases harg : arg.type with
    | none =>
      simp only [readResult, Argument.words, checkValueChanges, Argument.result, hfinal, harg, hnull]
      rfl
    | some i =>
      obtain ⟨t, rfl⟩ := h.type i harg
      simp only [readResult, Argument.words, checkValueChanges, Argument.result, hfinal, harg, htype, hnull]
      simp

theorem words_isBreak {args : List Argument} (h : ∀ arg ∈ args, arg.Sendable) :
    ∀ w ∈ resultWords (args.map Argument.words), IsWord isBreak w := by
  intro w hw
  obtain ⟨r, hr, hw⟩ := List.mem_flatMap.mp hw
  obtain ⟨arg, harg, rfl⟩ := List.mem_map.mp hr
  simp only [List.mem_cons, List.not_mem_nil, or_false] at hw
  rcases hw with rfl | rfl
  · exact typeText_isBreak _
  · cases hfinal : arg.final with
    | some id =>
      simp only [Argument.words, checkValueChanges, hfinal]
      exact ((h arg harg).final id hfinal).1
    | none =>
      simp only [Argument.words, checkValueChanges, hfinal]
      decide

/-- What is counted besides the results. -/
def extra (nt : NIOTask) : Nat := (if nt.hasTarget then 1 else 0) + if nt.hasReturn then 1 else 0

theorem returnArgument_eq_null {nt : NIOTask} {returnType : Text} (h : returnArgument nt = some returnType) :
    returnType = "null".toList ↔ nt.hasReturn = false := by
  unfold returnArgument at h
  cases hret : nt.hasReturn with
  | false =>
    rw [hret] at h
    simpa using h.symm
  | true =>
    rw [hret, if_pos rfl] at h
    obtain ⟨np, -, rfl⟩ := Option.map_eq_some_iff.mp h
    refine iff_of_false (fun heq => ?_) (by simp)
    -- A number is not `null`.
    have hparse := congrArg parseInt? heq
    rw [parseInt?_decimal] at hparse
    cases hparse

theorem boolText_eq_false (b : Bool) : boolText b = "false".toList ↔ b = false := by cases b <;> decide

theorem boolText_eq_true (b : Bool) : boolText b = "true".toList ↔ b = true := by cases b <;> decide

/-- The count of the message. -/
theorem buildReturnParamsMessage_head (nt : NIOTask) {returnType : Text} (hreturn : returnArgument nt = some returnType)
    (rest : List Text) (args : List Argument) :
    buildReturnParamsMessage (headArguments nt returnType ++ rest) (args.map checkValueChanges) =
      some (decimal ((args.length + extra nt : Nat) : Int) :: resultWords (args.map Argument.words)) := by
  set k := nt.slaveWorkersNodeNames.length with hk
  obtain ⟨l, hl⟩ : ∃ l, l = headArguments nt returnType ++ rest := ⟨_, rfl⟩
  have hparams : l = nt.declaringClass :: nt.alternativeMethodName :: decimal k :: (nt.slaveWorkersNodeNames ++
      decimal nt.totalCPUComputingUnits :: boolText nt.hasTarget :: returnType :: decimal nt.numParams :: rest) := by
    simp [hl, headArguments, hk]
  have h2 : l[2]? = some (decimal k) := by rw [hparams]; rfl
  have hdrop : l.drop (3 + k + 1) = boolText nt.hasTarget :: returnType :: decimal nt.numParams :: rest := by
    rw [hparams, show 3 + k + 1 = k + 1 + 1 + 1 + 1 by omega, List.drop_succ_cons, List.drop_succ_cons, List.drop_succ_cons,
      hk, List.drop_length_add_append]
    rfl
  have htotal : ((args.length : Nat) + (if boolText nt.hasTarget = "false".toList then 0 else 1) +
      (if returnType = "null".toList then 0 else 1)) = args.length + extra nt := by
    simp only [boolText_eq_false, returnArgument_eq_null hreturn, extra]
    cases nt.hasTarget <;> cases nt.hasReturn <;> rfl
  rw [← hl, buildReturnParamsMessage]
  simp only [h2, Option.bind_eq_bind, Option.bind_some, parseInt?_decimal, Int.toNat_natCast, hdrop, List.getElem?_cons_zero,
    List.getElem?_cons_succ, List.length_map, htotal, List.map_map]
  rfl

theorem arguments_get (nt : NIOTask) (finals : List (Option Text)) (h : finals.length = nt.numParams) (i : Nat) :
    (arguments nt finals)[i]? = (nt.params[i]?.bind fun np => finals[i]?.map fun final => ⟨some (np.type.ordinal : Int), final⟩) := by
  rw [arguments, List.getElem?_zipWith, List.getElem?_take]
  by_cases hi : i < nt.numParams
  · rw [if_pos hi]
    cases nt.params[i]? <;> cases finals[i]? <;> rfl
  · have hnone : finals[i]? = none := List.getElem?_eq_none (by omega)
    rw [if_neg hi, hnone]
    cases nt.params[i]? <;> rfl

theorem arguments_length {nt : NIOTask} {args : List Text} {finals : List (Option Text)} (h : PythonEnd nt args finals) :
    (arguments nt finals).length = nt.numParams := by
  have := h.numParams
  rw [arguments, List.length_zipWith, List.length_take, h.length]
  omega

theorem arguments_sendable {nt : NIOTask} {args : List Text} {finals : List (Option Text)} (h : PythonEnd nt args finals) :
    ∀ arg ∈ arguments nt finals, arg.Sendable := by
  intro arg harg
  obtain ⟨i, hi⟩ := List.getElem?_of_mem harg
  rw [arguments_get nt finals h.length] at hi
  obtain ⟨np, -, hi⟩ := Option.bind_eq_some_iff.mp hi
  obtain ⟨final, hfinal, rfl⟩ := Option.map_eq_some_iff.mp hi
  exact ⟨fun _ ht => ⟨np.type, (Option.some.inj ht).symm⟩, fun id hid => h.ids id (hid ▸ List.mem_of_getElem? hfinal)⟩

/-- The arguments of the call, by the kind of the task. -/
theorem callArguments_cases {nt : NIOTask} {args : List Text} {finals : List (Option Text)} (h : PythonEnd nt args finals)
    (importError : Bool) : ∃ called, callArguments importError (boolText nt.hasTarget) (arguments nt finals) = some called ∧
      (∀ arg ∈ called, arg.Sendable) ∧
      ((importError = false ∧ called = arguments nt finals) ∨ (importError = true ∧ nt.hasTarget = true) ∨
        (importError = true ∧ nt.hasTarget = false ∧ called = ⟨none, none⟩ :: arguments nt finals)) := by
  have hsend := arguments_sendable h
  cases importError with
  | false => exact ⟨_, rfl, hsend, .inl ⟨rfl, rfl⟩⟩
  | true =>
    cases htarget : nt.hasTarget with
    | false =>
      refine ⟨⟨none, none⟩ :: arguments nt finals, rfl, fun arg harg => ?_, .inr (.inr ⟨rfl, rfl, rfl⟩)⟩
      rcases List.mem_cons.mp harg with rfl | harg
      · exact { type := fun _ ht => (by cases ht), final := fun _ hid => (by cases hid) }
      · exact hsend arg harg
    | true =>
      -- There is a callee.
      have hne : arguments nt finals ≠ [] := fun hnil => by
        have hlen := arguments_length h
        rw [hnil, List.length_nil] at hlen
        have := h.callee htarget
        omega
      have hcallee := List.getLast?_eq_some_getLast hne
      have htrue : boolText true = "true".toList := rfl
      obtain ⟨called, hcalled⟩ : ∃ called, callArguments true (boolText true) (arguments nt finals) = some called := by
        rw [callArguments, if_pos rfl, if_pos htrue, hcallee]
        exact ⟨_, rfl⟩
      refine ⟨called, hcalled, fun arg harg => ?_, .inr (.inl ⟨rfl, rfl⟩)⟩
      rw [callArguments, if_pos rfl, if_pos htrue, hcallee, Option.map_some, Option.some.injEq] at hcalled
      rw [← hcalled] at harg
      rcases List.mem_cons.mp harg with rfl | harg
      · refine ⟨fun i hi => ?_, (hsend _ (List.getLast_mem hne)).final⟩
        rw [← Option.some.inj hi]
        split
        · exact ⟨_, rfl⟩
        · exact ⟨_, rfl⟩
      · exact hsend arg (List.dropLast_subset _ harg)

/-- The line that answers the task. -/
theorem endTask_line {nt : NIOTask} {returnType : Text} (hreturn : returnArgument nt = some returnType) {args : List Text}
    {finals : List (Option Text)} (h : PythonEnd nt args finals) (importError : Bool) {called : List Argument}
    (hcalled : callArguments importError (boolText nt.hasTarget) (arguments nt finals) = some called) :
    endTask importError (decimal nt.jobId) (headArguments nt returnType ++ args) finals =
      some (terminated ' ' (endTaskWords nt.jobId 0 (called.length + extra nt : Nat) (called.map Argument.words)) ++ ['\n']) := by
  obtain ⟨ps, hps, htypes⟩ := h.read
  have hargs : List.zipWith (fun (p : InputParam) final => (⟨some p.type, final⟩ : Argument)) ps finals = arguments nt finals := by
    rw [arguments, ← List.zipWith_map_left (f := fun p : InputParam => p.type) (g := fun type final => (⟨some type, final⟩ : Argument)),
      htypes, List.zipWith_map_left]
  rw [endTask, executeTask_head nt returnType _ _ hps]
  simp only [Option.bind_eq_bind, Option.bind_some, hargs, hcalled, buildReturnParamsMessage_head nt hreturn]
  rfl

theorem splitLine_endTask {args : List Argument} (hsend : ∀ arg ∈ args, arg.Sendable) (jobId exitValue total : Int) :
    splitLine (terminated ' ' (endTaskWords jobId exitValue total (args.map Argument.words)) ++ ['\n']) =
      some (endTaskWords jobId exitValue total (args.map Argument.words)) := by
  refine splitLine_terminated (List.cons_ne_nil _ _) fun w hw => ?_
  simp only [endTaskWords, List.mem_cons] at hw
  rcases hw with rfl | rfl | rfl | rfl | hw
  · decide
  · exact decimal_isBreak _
  · exact decimal_isBreak _
  · exact decimal_isBreak _
  · exact words_isBreak hsend w hw

/-- What the executor reads of a line whose count is right. -/
theorem readFromPipe_words {args : List Argument} (hsend : ∀ arg ∈ args, arg.Sendable) (jobId exitValue : Int) :
    readFromPipe (terminated ' ' (endTaskWords jobId exitValue args.length (args.map Argument.words)) ++ ['\n']) =
      some (jobId, ⟨exitValue, args.map Argument.result⟩) := by
  have hsplit := splitLine_endTask hsend jobId exitValue args.length
  have hprocess := processEndTaskTag_words jobId exitValue (args.map Argument.words)
  have hread : (args.map Argument.words).mapM readResult = some (args.map Argument.result) := by
    rw [List.mapM_map]
    exact mapM_eq_some_map fun arg harg => readResult_words (hsend arg harg)
  have htag : (endTaskWords jobId exitValue args.length (args.map Argument.words))[0]? = some "endTask".toList := rfl
  rw [List.length_map] at hprocess
  rw [readFromPipe, hsplit, Option.bind_eq_bind, Option.bind_some, if_pos htag, hprocess, hread]
  rfl

/-! ## The parameters -/

/-- The results update the parameters as they are at the end. -/
def Reach (nt : NIOTask) (finals : List (Option Text)) (results : List (Nat × Option String)) : Prop :=
  ∃ params, updateParameters results 0 nt.params = some params ∧
    ∀ i : Nat, params[i]? = nt.params[i]?.map (finalParam finals i)

theorem reach_of_updated {nt : NIOTask} {finals : List (Option Text)} {results : List (Nat × Option String)}
    (hsome : ∀ k value, results[k]? = some (DataType.EXTERNAL_OBJECT_T.ordinal, value) → k < nt.params.length)
    (hupdated : ∀ i np, nt.params[i]? = some np → updated results[i]? np = finalParam finals i np) :
    Reach nt finals results := by
  obtain ⟨params, hparams⟩ := Option.isSome_iff_exists.mp
    (updateParameters_isSome.mpr fun k value hk => (Nat.zero_add k).symm ▸ hsome k value hk)
  refine ⟨params, hparams, fun i => ?_⟩
  rw [updateParameters_get hparams i, if_pos (Nat.zero_le i), Nat.sub_zero]
  cases hnp : nt.params[i]? with
  | none => rfl
  | some np => rw [Option.map_some, Option.map_some, hupdated i np hnp]

theorem updated_of_ne {type : Nat} (value : Option String) (np : NIOParam)
    (h : type ≠ DataType.EXTERNAL_OBJECT_T.ordinal) : updated (some (type, value)) np = np := if_neg h

section
variable {nt : NIOTask} {args : List Text} {finals : List (Option Text)}

/-- The type of a parameter that is no external object at the end. -/
theorem PythonEnd.type_ne (h : PythonEnd nt args finals) {i : Nat} {np : NIOParam} (hnp : nt.params[i]? = some np)
    (hfinal : finals[i]? = some none) : np.type.ordinal ≠ DataType.EXTERNAL_OBJECT_T.ordinal :=
  fun htype => h.stays i np hnp (DataType.ordinal_inj htype) hfinal

/-- The results of a function are those of its parameters. -/
theorem function_reach (h : PythonEnd nt args finals) : Reach nt finals ((arguments nt finals).map Argument.result) := by
  refine reach_of_updated (fun k value hk => ?_) fun i np hnp => ?_
  · have hlt := (List.getElem?_eq_some_iff.mp hk).1
    rw [List.length_map, arguments_length h] at hlt
    have := h.numParams
    omega
  · rw [List.getElem?_map, arguments_get nt finals h.length, hnp, finalParam]
    cases hfinal : finals[i]? with
    | none => rfl
    | some final =>
      cases final with
      | some id => simp [Argument.result, updated, asExternal]
      | none => exact updated_of_ne _ _ (h.type_ne hnp hfinal)

/-- A result in front: every other one goes to the parameter after its own. -/
def shifted (nt : NIOTask) (finals : List (Option Text)) : List (Nat × Option String) :=
  (⟨none, none⟩ :: arguments nt finals : List Argument).map Argument.result

theorem shifted_succ (hlen : finals.length = nt.numParams) {i : Nat} {np : NIOParam} (hnp : nt.params[i]? = some np) :
    (shifted nt finals)[i + 1]? = finals[i]?.map fun final => Argument.result ⟨some (np.type.ordinal : Int), final⟩ := by
  rw [shifted, List.map_cons, List.getElem?_cons_succ, List.getElem?_map, arguments_get nt finals hlen, hnp]
  cases finals[i]? <;> rfl

/-- After an external object there is another one. -/
theorem next_external (h : PythonEnd nt args finals) (hlen : finals.length = nt.params.length)
    (hreach : Reach nt finals (shifted nt finals)) {i : Nat} {id : Text} (hfinal : finals[i]? = some (some id)) :
    ∃ id', finals[i + 1]? = some (some id') := by
  obtain ⟨params, hparams, hget⟩ := hreach
  have hi := (List.getElem?_eq_some_iff.mp hfinal).1
  have hres : (shifted nt finals)[i + 1]? = some (DataType.EXTERNAL_OBJECT_T.ordinal, some (String.ofList id)) := by
    rw [shifted_succ h.length (List.getElem?_eq_getElem (by omega)), hfinal]
    rfl
  have hlt := updateParameters_isSome.mp (by rw [hparams]; rfl) _ _ hres
  obtain ⟨np, hnp⟩ : ∃ np, nt.params[i + 1]? = some np := ⟨_, List.getElem?_eq_getElem (by omega)⟩
  obtain ⟨final, hnext⟩ : ∃ final, finals[i + 1]? = some final := ⟨_, List.getElem?_eq_getElem (by omega)⟩
  cases final with
  | some id' => exact ⟨id', hnext⟩
  | none =>
    -- The parameter is made external though it is not.
    have hafter := updateParameters_get hparams (i + 1)
    have hsame : finalParam finals (i + 1) np = np := by rw [finalParam, hnext]
    rw [hget, if_pos (Nat.zero_le _), Nat.sub_zero, hres, hnp, Option.map_some, hsame] at hafter
    have htype : np.type = .EXTERNAL_OBJECT_T := congrArg NIOParam.type (Option.some.inj hafter)
    exact absurd hnext (h.stays (i + 1) np hnp htype)

theorem shifted_reach_iff (h : PythonEnd nt args finals) (hreturn : nt.hasReturn = false) :
    Reach nt finals (shifted nt finals) ↔ ∀ final ∈ finals, final = none := by
  have hlen : finals.length = nt.params.length := by
    have := h.numParams
    rw [hreturn] at this
    rw [h.length]
    simpa using this
  constructor
  · intro hreach final hmem
    cases final with
    | none => rfl
    | some id =>
      exfalso
      obtain ⟨i, hi⟩ := List.getElem?_of_mem hmem
      have hall : ∀ n, ∃ id', finals[i + n]? = some (some id') := by
        intro n
        induction n with
        | zero => exact ⟨id, hi⟩
        | succ n ih =>
          obtain ⟨id', hid'⟩ := ih
          exact next_external h hlen hreach hid'
      obtain ⟨id', hid'⟩ := hall finals.length
      have := (List.getElem?_eq_some_iff.mp hid').1
      omega
  · intro hnone
    -- No result is one of an external object.
    have hne : ∀ (k type : Nat) value, (shifted nt finals)[k]? = some (type, value) → type ≠ DataType.EXTERNAL_OBJECT_T.ordinal := by
      intro k type value hk
      cases k with
      | zero =>
        cases hk
        decide
      | succ k =>
        have hlt := (List.getElem?_eq_some_iff.mp hk).1
        rw [shifted, List.length_map, List.length_cons, arguments_length h, ← h.length] at hlt
        obtain ⟨np, hnp⟩ : ∃ np, nt.params[k]? = some np := ⟨_, List.getElem?_eq_getElem (by omega)⟩
        rw [shifted_succ h.length hnp] at hk
        obtain ⟨final, hfinal, hk⟩ := Option.map_eq_some_iff.mp hk
        obtain rfl := hnone final (List.mem_of_getElem? hfinal)
        cases hk
        exact h.type_ne hnp hfinal
    refine reach_of_updated (fun k value hk => absurd rfl (hne k _ value hk)) fun i np hnp => ?_
    have hfinal : finalParam finals i np = np := by
      rw [finalParam]
      cases hfinal : finals[i]? with
      | none => rfl
      | some final => rw [hnone final (List.mem_of_getElem? hfinal)]
    rw [hfinal]
    cases hres : (shifted nt finals)[i]? with
    | none => rfl
    | some result => exact updated_of_ne _ _ (hne i result.1 result.2 hres)

/-- The count is not the number of the results. -/
theorem not_delivers_of_extra {nt : NIOTask} (finals : List (Option Text)) {called : List Argument}
    (hsend : ∀ arg ∈ called, arg.Sendable) (h : extra nt ≠ 0) : ¬ Delivers nt finals
      (terminated ' ' (endTaskWords nt.jobId 0 (called.length + extra nt : Nat) (called.map Argument.words)) ++ ['\n']) := by
  rintro ⟨ws, status, params, hws, hwf, -⟩
  rw [splitLine_endTask hsend, Option.some.injEq] at hws
  rw [← hws, wellFormed_endTaskWords, List.length_map] at hwf
  omega

end

/-- A task that was read as it was sent. -/
theorem pythonEnd_of_pythonTask {env : ExecutorEnv} {nt : NIOTask} (h : PythonTask env nt) {finals : List (Option Text)}
    (hlength : finals.length = nt.numParams)
    (hstays : ∀ (i : Nat) np, nt.params[i]? = some np → np.type = .EXTERNAL_OBJECT_T → finals[i]? ≠ some none)
    (hids : ∀ id, some id ∈ finals → IsWord isBreak id ∧ isNull id = false)
    (hcallee : nt.hasTarget = true → 0 < nt.numParams) : PythonEnd nt (nt.params.flatMap paramWords) finals where
  numParams := by rw [h.numParams, h.hasReturn]; rfl
  read := by
    refine ⟨nt.params.map sentParam, by rw [h.numParams]; exact getInputParams_sent h.params, ?_⟩
    rw [h.numParams, List.take_length, List.map_map]
    rfl
  length := hlength
  stays := hstays
  ids := hids
  callee := hcallee

theorem pythonEnd_example : PythonEnd (exampleTask []) ((exampleTask []).params.flatMap paramWords) [none, some "id1".toList] :=
  pythonEnd_of_pythonTask (pythonTask_example [] (by simp)) rfl
    (fun i np hnp htype => by
      match i, hnp with
      | 0, hnp => cases hnp; cases htype
      | 1, _ => exact fun h => nomatch h)
    (fun id hid => by
      simp only [List.mem_cons, reduceCtorEq, Option.some.injEq, List.not_mem_nil, or_false, false_or] at hid
      rw [hid]
      decide)
    (fun h => nomatch h)

/-- A method whose callee is all it has. -/
def calleeTask : NIOTask :=
  { exampleTask [] with
    hasTarget := true
    params := [⟨.FILE_T, .UNSPECIFIED, "null".toList, true, true, some "/tmp/d1v2_1.IT".toList, some "d1v1_1.IT".toList,
      "self".toList⟩]
    numParams := 1 }

end Compss.Python
