/-
`TaskResultReader` and `ExternalExecutor` at the end of a task: the line with
its result is read from the pipe, and the parameters are updated from it.

A number that is none and an index that is out of a list raise; nothing is
stored then, nor when the line is skipped.
-/
import Compss.Executors.ExternalExecutor

namespace Compss.Executors

open Lib Lib.Text
open Worker (ExternalTaskStatus)

namespace TaskResultReader

def isLineEnd (c : Char) : Bool := c = '\n' || c = '\r'

/-- `BufferedReader.readLine()`. -/
def readLine (s : Text) : Option Text := if s = [] then none else some (s.takeWhile fun c => !isLineEnd c)

/-- `equalsIgnoreCase("null")`. -/
def isNull (value : Text) : Bool := value.map Char.toLower = "null".toList

/-- `DataType.values()[i]`. -/
def dataType (i : Int) : Option DataType := if i < 0 then none else DataType.values[i.toNat]?

/-- The loop over the parameters of a line; what is no number counts as type 0. -/
def readParameters : (numParams : Nat) → (result : List Text) → Option (List (Nat × Option String))
  | 0, _ => some []
  | n + 1, paramType :: paramValue :: result => do
    let type ← dataType ((parseInt? paramType).getD 0)
    let rest ← readParameters n result
    return (type.ordinal, if isNull paramValue then none else some (String.ofList paramValue)) :: rest
  | _ + 1, _ => none

/-- The line has two words for each parameter it announces. -/
def WellFormed (result : List Text) : Prop :=
  ∃ numParams, result[3]?.bind parseInt? = some numParams ∧ 4 + 2 * numParams = result.length

/-- `processEndTaskTag`, up to the table of results. -/
def processEndTaskTag (result : List Text) : Option (Int × ExternalTaskStatus) :=
  if result.length < 3 then none
  else do
    let jobId ← result[1]?.bind parseInt?
    let exitValue ← result[2]?.bind parseInt?
    if result.length > 3 then
      let numParams ← result[3]?.bind parseInt?
      if 4 + 2 * numParams ≠ result.length then return (jobId, ⟨exitValue, []⟩)
      else
        let parameters ← readParameters numParams.toNat (result.drop 4)
        return (jobId, ⟨exitValue, parameters⟩)
    else return (jobId, ⟨exitValue, []⟩)

/-- What `readFromPipe` splits the first line of the pipe into. -/
def splitLine (pipe : Text) : Option (List Text) := (readLine pipe).map (fields ' ')

/-- `readFromPipe`, for the end of a task. -/
def readFromPipe (pipe : Text) : Option (Int × ExternalTaskStatus) := do
  let result ← splitLine pipe
  if result[0]? = some "endTask".toList then processEndTaskTag result else none

end TaskResultReader

namespace ExternalExecutor

/-- The last part of `executeExternal`, for the status of the task: an exit
value that is not 0 raises. -/
def taskParams (status : ExternalTaskStatus) (nt : NIOTask) : Option (List NIOParam) :=
  if status.exitValue ≠ 0 then none else updateParameters status.parameters 0 nt.params

end ExternalExecutor

/-! ## The line -/

open TaskResultReader ExternalExecutor

/-- What may not stand in a word of the line. -/
def isBreak (c : Char) : Bool := c = ' ' || isLineEnd c

theorem isBreak_of_isDigit {c : Char} (h : c.isDigit = true) : isBreak c = false := by
  have hc : 48 ≤ c.toNat ∧ c.toNat ≤ 57 := by
    simpa [Char.isDigit, UInt32.le_iff_toNat_le] using h
  simp only [isBreak, isLineEnd, Bool.or_eq_false_iff, decide_eq_false_iff_not]
  refine ⟨?_, ?_, ?_⟩ <;> rintro rfl <;> exact absurd hc (by decide)

theorem decimal_isBreak (i : Int) : IsWord isBreak (decimal i) :=
  decimal_isWord (fun _ => isBreak_of_isDigit) (by decide) i

/-- A line of words, each with a blank after it, is split into its words. -/
theorem splitLine_terminated {ws : List Text} (hne : ws ≠ []) (h : ∀ w ∈ ws, IsWord isBreak w) :
    splitLine (terminated ' ' ws ++ ['\n']) = some ws := by
  have hend : ∀ c ∈ terminated ' ' ws, isLineEnd c = false := by
    intro c hc
    obtain ⟨w, hw, hc⟩ := List.mem_flatMap.mp hc
    rcases List.mem_append.mp hc with hc | hc
    · have := (h w hw).2 c hc
      rw [isBreak, Bool.or_eq_false_iff] at this
      exact this.2
    · rw [List.mem_singleton.mp hc]
      rfl
  have hline : (terminated ' ' ws ++ ['\n']).takeWhile (fun c => !isLineEnd c) = terminated ' ' ws := by
    rw [List.takeWhile_append_of_pos fun c hc => by rw [hend c hc]; rfl]
    simp [isLineEnd]
  rw [splitLine, readLine, if_neg (by simp), hline, Option.map_some,
    fields_terminated hne fun w hw => ⟨(h w hw).1, fun hc => absurd ((h w hw).2 ' ' hc) (by decide)⟩]

/-- The types and values of the parameters of a line. -/
def resultWords (results : List (Text × Text)) : List Text := results.flatMap fun r => [r.1, r.2]

theorem resultWords_length (results : List (Text × Text)) : (resultWords results).length = 2 * results.length := by
  induction results with
  | nil => rfl
  | cons r results ih =>
    rw [resultWords, List.flatMap_cons, List.length_append, ← resultWords, ih]
    simp only [List.length_cons, List.length_nil]
    omega

/-- What is read of one parameter. -/
def readResult (r : Text × Text) : Option (Nat × Option String) :=
  (dataType ((parseInt? r.1).getD 0)).map fun type =>
    (type.ordinal, if isNull r.2 then none else some (String.ofList r.2))

theorem readParameters_words : ∀ results : List (Text × Text),
    readParameters results.length (resultWords results) = results.mapM readResult
  | [] => rfl
  | r :: results => by
    rw [List.length_cons, resultWords, List.flatMap_cons, List.mapM_cons, ← readParameters_words results, ← resultWords]
    simp only [List.cons_append, List.nil_append, readParameters, readResult]
    cases dataType ((parseInt? r.1).getD 0) <;> rfl

/-- The words of an `endTask` line. -/
def endTaskWords (jobId exitValue total : Int) (results : List (Text × Text)) : List Text :=
  "endTask".toList :: decimal jobId :: decimal exitValue :: decimal total :: resultWords results

theorem endTaskWords_length (jobId exitValue total : Int) (results : List (Text × Text)) :
    (endTaskWords jobId exitValue total results).length = 4 + 2 * results.length := by
  simp only [endTaskWords, List.length_cons, resultWords_length]
  omega

/-- The line is well formed when its count is the number of its parameters. -/
theorem wellFormed_endTaskWords (jobId exitValue total : Int) (results : List (Text × Text)) :
    WellFormed (endTaskWords jobId exitValue total results) ↔ total = results.length := by
  have hread : (endTaskWords jobId exitValue total results)[3]?.bind parseInt? = some total := parseInt?_decimal total
  rw [WellFormed, hread, endTaskWords_length]
  constructor
  · rintro ⟨n, hn, hlen⟩
    cases hn
    push_cast at hlen
    omega
  · intro htotal
    refine ⟨total, rfl, ?_⟩
    push_cast
    omega

theorem processEndTaskTag_words (jobId exitValue : Int) (results : List (Text × Text)) :
    processEndTaskTag (endTaskWords jobId exitValue results.length results) =
      (results.mapM readResult).map fun parameters => (jobId, ⟨exitValue, parameters⟩) := by
  have hlen := endTaskWords_length jobId exitValue results.length results
  have h1 : (endTaskWords jobId exitValue results.length results)[1]?.bind parseInt? = some jobId := parseInt?_decimal jobId
  have h2 : (endTaskWords jobId exitValue results.length results)[2]?.bind parseInt? = some exitValue :=
    parseInt?_decimal exitValue
  have h3 : (endTaskWords jobId exitValue results.length results)[3]?.bind parseInt? = some (results.length : Int) :=
    parseInt?_decimal _
  have h4 : (endTaskWords jobId exitValue results.length results).drop 4 = resultWords results := rfl
  have hcount : ¬ (4 + 2 * (results.length : Int) ≠ ((4 + 2 * results.length : Nat) : Int)) := by
    push_cast
    exact fun h => h rfl
  rw [processEndTaskTag, if_neg (by omega), h1, h2, h3, h4, hlen]
  simp only [Option.bind_eq_bind, Option.bind_some, if_pos (show 4 + 2 * results.length > 3 by omega), if_neg hcount,
    Int.toNat_natCast, readParameters_words]
  cases results.mapM readResult <;> rfl

/-! ## The parameters -/

/-- A parameter that became the external object `value`. -/
def asExternal (np : NIOParam) (value : Option String) : NIOParam :=
  { np with type := .EXTERNAL_OBJECT_T, value := value.map String.toList }

/-- What a result makes of the parameter it is for. -/
def updated (result : Option (Nat × Option String)) (np : NIOParam) : NIOParam :=
  match result with
  | some (type, value) => if type = DataType.EXTERNAL_OBJECT_T.ordinal then asExternal np value else np
  | none => np

/-- What the results that are there do to the parameters from `i` on. -/
theorem updateParameters_get : ∀ {results : List (Nat × Option String)} {i : Nat} {params params' : List NIOParam},
    updateParameters results i params = some params' →
    ∀ k, params'[k]? = if i ≤ k then params[k]?.map (updated results[k - i]?) else params[k]?
  | [], i, params, params', h, k => by
    rw [updateParameters, Option.some.injEq] at h
    have hid : updated none = id := rfl
    rw [← h, List.getElem?_nil, hid, Option.map_id]
    simp
  | (type, value) :: results, i, params, params', h, k => by
    rw [updateParameters] at h
    by_cases hki : k = i
    · -- The result for `k` is the first one; the rest leaves `k` alone.
      subst hki
      rw [if_pos (Nat.le_refl k), Nat.sub_self, List.getElem?_cons_zero]
      split at h
      · next htype =>
        cases hnp : params[k]? with
        | none => rw [hnp] at h; cases h
        | some np =>
          rw [hnp] at h
          rw [updateParameters_get h k, if_neg (by omega), List.getElem?_set_self (List.getElem?_eq_some_iff.mp hnp).1]
          simp [updated, htype, asExternal]
      · next htype =>
        rw [updateParameters_get h k, if_neg (by omega)]
        cases params[k]? with
        | none => rfl
        | some np => simp [updated, htype]
    · have hrest : ∀ params₁ : List NIOParam, params₁[k]? = params[k]? → updateParameters results (i + 1) params₁ = some params' →
          params'[k]? = if i ≤ k then params[k]?.map (updated ((type, value) :: results)[k - i]?) else params[k]? := by
        intro params₁ hsame h
        rw [updateParameters_get h k, hsame]
        by_cases hle : i ≤ k
        · rw [if_pos hle, if_pos (by omega), show k - i = k - (i + 1) + 1 by omega, List.getElem?_cons_succ]
        · rw [if_neg hle, if_neg (by omega)]
      split at h
      · cases hnp : params[i]? with
        | none => rw [hnp] at h; cases h
        | some np =>
          rw [hnp] at h
          exact hrest _ (List.getElem?_set_ne (by omega)) h
      · exact hrest params rfl h

/-- The results are applied when no external one is out of the list. -/
theorem updateParameters_isSome : ∀ {results : List (Nat × Option String)} {i : Nat} {params : List NIOParam},
    (updateParameters results i params).isSome ↔
      ∀ k value, results[k]? = some (DataType.EXTERNAL_OBJECT_T.ordinal, value) → i + k < params.length
  | [], i, params => by simp [updateParameters]
  | (type, value) :: results, i, params => by
    have hsucc : (∀ k v, results[k]? = some (DataType.EXTERNAL_OBJECT_T.ordinal, v) → i + 1 + k < params.length) ↔
        ∀ k v, ((type, value) :: results)[k + 1]? = some (DataType.EXTERNAL_OBJECT_T.ordinal, v) → i + (k + 1) < params.length :=
      forall_congr' fun k => by rw [List.getElem?_cons_succ, show i + 1 + k = i + (k + 1) by omega]
    rw [updateParameters]
    split
    · next htype =>
      cases hnp : params[i]? with
      | none =>
        simp only [Option.isSome_none, Bool.false_eq_true, false_iff]
        intro h
        have := h 0 value (by rw [List.getElem?_cons_zero, htype])
        rw [List.getElem?_eq_none_iff] at hnp
        omega
      | some np =>
        have hlt := (List.getElem?_eq_some_iff.mp hnp).1
        simp only []
        rw [updateParameters_isSome, List.length_set, hsucc]
        constructor
        · intro h k v hk
          cases k with
          | zero => exact hlt
          | succ k => exact h k v hk
        · exact fun h k v hk => h (k + 1) v hk
    · next htype =>
      rw [updateParameters_isSome, hsucc]
      constructor
      · intro h k v hk
        cases k with
        | zero =>
          rw [List.getElem?_cons_zero, Option.some.injEq, Prod.mk.injEq] at hk
          exact absurd hk.1 htype
        | succ k => exact h k v hk
      · exact fun h k v hk => h (k + 1) v hk

end Compss.Executors
