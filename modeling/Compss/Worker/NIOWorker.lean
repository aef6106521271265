/-
`NIOWorker`: a task is received, the data it lacks is requested, and the task
is executed when all of it is there, or reported as failed.

A `TransferringTask` counts the parameters that are not there yet. Three
methods take from the counter and test it for zero, each in steps of its own:
`receivedNewTask`, which tests it once at its end, `receivedValue` for every
request of a transfer that has arrived, and
`handleRequestedDataNotAvailableError` for every request of one that has
failed, which raises the error flag between the two. All that matters of a
request is how far its report is, so that reports are counted.
-/
import Compss.Lib.Run
import Mathlib.Logic.Function.Basic

namespace Compss.Worker

open Lib

/-- `DataType`; the basic types and strings are one. -/
inductive DataType
  | fileT
  | objectT
  | pscoT
  | externalObjectT
  | basicT
  deriving DecidableEq, Repr

/-- A parameter, and whether it has associated data. -/
structure NIOParam where
  type : DataType
  hasData : Bool
  deriving DecidableEq, Repr

/-- How far `receivedNewTask` is. -/
inductive Reception
  | notReceived
  | checking (rest : List NIOParam)
  | testing
  | returned
  deriving DecidableEq, Repr

/-- What the worker does with a task in the end. -/
inductive Outcome
  | executeTask
  /-- `sendTaskDone(task, false)`. -/
  | sendTaskDone
  deriving DecidableEq, Repr

structure TransferringTask where
  params : Int
  error : Bool
  reception : Reception
  /-- Requests whose end has not been reported. -/
  outstanding : Nat
  /-- Calls of `receivedValue` before their test. -/
  arriving : Nat
  /-- Calls of `handleRequestedDataNotAvailableError` before `setError`. -/
  flagging : Nat
  /-- Those before their test. -/
  failing : Nat
  /-- Requests made, reported as arrived and reported as failed so far. -/
  requested : Nat
  arrived : Nat
  failed : Nat
  outcomes : List Outcome

inductive TransferStep
  | receivedNewTask (params : List NIOParam)
  /-- The next parameter; `askTransfer` is what the caches and the disk answer. -/
  | checkParam (askTransfer : Bool)
  | requestTransfers
  | finalTest
  | receivedValue
  | testArrived
  | dataNotAvailable
  | setError
  | testFailed
  deriving DecidableEq, Repr

namespace TransferringTask

def init : TransferringTask := ⟨0, false, .notReceived, 0, 0, 0, 0, 0, 0, 0, []⟩

def decreaseParams (x : TransferringTask) : TransferringTask := { x with params := x.params - 1 }

/-- `askForTransfer`. -/
def askForTransfer (x : TransferringTask) (askTransfer : Bool) : TransferringTask :=
  if askTransfer then { x with outstanding := x.outstanding + 1, requested := x.requested + 1 }
  else x.decreaseParams

/-- One round of the loop over the parameters. -/
def check (x : TransferringTask) (param : NIOParam) (askTransfer : Bool) : TransferringTask :=
  if param.hasData then
    match param.type with
    | .objectT | .fileT => x.askForTransfer askTransfer
    | .pscoT | .externalObjectT | .basicT => x
  else x.decreaseParams

def end_ (x : TransferringTask) (o : Outcome) : TransferringTask := { x with outcomes := o :: x.outcomes }

def step (x : TransferringTask) : TransferStep → Option TransferringTask
  | .receivedNewTask params =>
    if x.reception = .notReceived then some { x with reception := .checking params, params := params.length }
    else none
  | .checkParam askTransfer =>
    match x.reception with
    | .checking (param :: rest) => some { x.check param askTransfer with reception := .checking rest }
    | _ => none
  | .requestTransfers => if x.reception = .checking [] then some { x with reception := .testing } else none
  | .finalTest =>
    if x.reception = .testing then
      let x := { x with reception := .returned }
      some (if x.params = 0 then x.end_ .executeTask else x)
    else none
  | .receivedValue =>
    if 0 < x.outstanding then
      some { x.decreaseParams with outstanding := x.outstanding - 1, arriving := x.arriving + 1,
                                   arrived := x.arrived + 1 }
    else none
  | .testArrived =>
    if 0 < x.arriving then
      let x := { x with arriving := x.arriving - 1 }
      some (if x.params = 0 then x.end_ (if x.error then .sendTaskDone else .executeTask) else x)
    else none
  | .dataNotAvailable =>
    if 0 < x.outstanding then
      some { x.decreaseParams with outstanding := x.outstanding - 1, flagging := x.flagging + 1,
                                   failed := x.failed + 1 }
    else none
  | .setError =>
    if 0 < x.flagging then some { x with flagging := x.flagging - 1, failing := x.failing + 1, error := true }
    else none
  | .testFailed =>
    if 0 < x.failing then
      let x := { x with failing := x.failing - 1 }
      some (if x.params = 0 then x.end_ .sendTaskDone else x)
    else none

/-- Reports that have taken from the counter and not tested it. -/
def reporting (x : TransferringTask) : Nat := x.arriving + x.flagging + x.failing

/-- The task is executed once, after its transfers have arrived, or reported
once, after one has failed. -/
structure LaunchedOnce (x : TransferringTask) : Prop where
  once : x.outcomes.length ≤ 1
  executed : .executeTask ∈ x.outcomes → x.arrived = x.requested ∧ ∀ rest, x.reception = .checking rest → rest = []
  reported : .sendTaskDone ∈ x.outcomes → 0 < x.failed
  ended : x.reception = .returned → x.outstanding = 0 → x.reporting = 0 → x.outcomes.length = 1

/-- The counter is taken from for every parameter, and the party that takes
the last one is the only one left to test it: no report is before its test,
and `receivedNewTask` is past its own when a report takes it, and no transfer
has failed when a check does. -/
def Decides (x : TransferringTask) : TransferStep → Prop
  | .checkParam askTransfer =>
    ∀ param rest, x.reception = .checking (param :: rest) →
      (param.hasData = true → param.type = .objectT ∨ param.type = .fileT) ∧
      (param.hasData = false ∨ askTransfer = false → x.params = 1 → x.reporting = 0 ∧ x.error = false)
  | .receivedValue | .dataNotAvailable => x.params = 1 → x.reporting = 0 ∧ x.reception = .returned
  | _ => True

/-! ## The counter -/

/-- Parameters `receivedNewTask` has not checked. -/
def unchecked (x : TransferringTask) : Nat :=
  match x.reception with
  | .checking rest => rest.length
  | _ => 0

/-- The counter is that of the parameters that are not there. At zero, one
party is left to test it or has done so, and the outcome is the right one. -/
structure Counted (x : TransferringTask) : Prop where
  params : x.params = x.unchecked + x.outstanding
  reports : x.arrived + x.failed + x.outstanding = x.requested
  error : x.error = true ↔ x.flagging < x.failed
  flagged : x.flagging + x.failing ≤ x.failed
  fresh : x.reception = .notReceived → x.requested = 0 ∧ x.reporting = 0 ∧ x.outcomes = []
  early : 0 < x.params → x.outcomes = []
  /-- `receivedNewTask` is to decide. -/
  own : x.params = 0 → x.reception ≠ .notReceived → x.reception ≠ .returned →
    x.reporting = 0 ∧ x.failed = 0 ∧ x.outcomes = []
  /-- It has, or a report has or is to. -/
  late : x.params = 0 → x.reception = .returned →
    (x.reporting = 1 ∧ x.outcomes = []) ∨
    (x.reporting = 0 ∧ x.outcomes = [if x.failed = 0 then .executeTask else .sendTaskDone])

variable {x y : TransferringTask}

theorem Counted.init : Counted init where
  params := rfl
  reports := rfl
  error := by simp [TransferringTask.init]
  flagged := Nat.le_refl 0
  fresh _ := ⟨rfl, rfl, rfl⟩
  early h := by simp [TransferringTask.init] at h
  own _ h := absurd rfl h
  late _ h := by cases h

theorem Counted.launchedOnce (h : Counted x) : LaunchedOnce x := by
  have hp := h.params
  have hr := h.reports
  -- the only way to have an outcome
  have hout : x.outcomes ≠ [] → x.params = 0 ∧ x.reception = .returned ∧
      x.outcomes = [if x.failed = 0 then .executeTask else .sendTaskDone] := by
    intro hne
    have h0 : x.params = 0 := by
      by_contra h0
      exact hne (h.early (by omega))
    have hrec : x.reception ≠ .notReceived := fun he => hne (h.fresh he).2.2
    have hret : x.reception = .returned := by
      by_contra hret
      exact hne (h.own h0 hrec hret).2.2
    rcases h.late h0 hret with ⟨-, he⟩ | ⟨-, he⟩
    · exact absurd he hne
    · exact ⟨h0, hret, he⟩
  refine ⟨?_, fun hm => ?_, fun hm => ?_, fun hret ho hrep => ?_⟩
  · by_cases hne : x.outcomes = []
    · rw [hne]; decide
    · rw [(hout hne).2.2]; exact Nat.le_refl 1
  · obtain ⟨h0, hret, he⟩ := hout (List.ne_nil_of_mem hm)
    rw [he, List.mem_singleton] at hm
    split at hm
    next hf =>
      refine ⟨by omega, fun rest hc => ?_⟩
      rw [hret] at hc
      cases hc
    next => cases hm
  · obtain ⟨-, -, he⟩ := hout (List.ne_nil_of_mem hm)
    rw [he, List.mem_singleton] at hm
    split at hm
    · cases hm
    next hf => omega
  · have h0 : x.params = 0 := by
      rw [hp, ho]
      simp [unchecked, hret]
    rcases h.late h0 hret with ⟨h1, -⟩ | ⟨-, he⟩
    · omega
    · rw [he]; rfl

/-- A check that takes from the counter. -/
theorem Counted.taken {param : NIOParam} {rest : List NIOParam} (h : Counted x)
    (hc : x.reception = .checking (param :: rest)) (hd : x.params = 1 → x.reporting = 0 ∧ x.error = false) :
    Counted { x.decreaseParams with reception := .checking rest } := by
  have hp := h.params
  have hu : x.unchecked = rest.length + 1 := by simp [unchecked, hc]
  have hf := h.flagged
  refine {
    params := ?_, reports := h.reports, error := h.error, flagged := hf
    fresh := fun he => (by cases he), early := fun h0 => h.early ?_, own := fun h0 _ _ => ?_
    late := fun _ he => (by cases he) }
  · simp only [decreaseParams, unchecked]
    omega
  · simp only [decreaseParams] at h0
    omega
  · have h1 : x.params = 1 := by
      simp only [decreaseParams] at h0
      omega
    obtain ⟨hrep, herr⟩ := hd h1
    have hne : ¬ x.flagging < x.failed := by rw [← h.error, herr]; decide
    have hr : x.arriving + x.flagging + x.failing = 0 := hrep
    exact ⟨hrep, by show x.failed = 0; omega, h.early (by omega)⟩

/-- A check that makes a request. -/
theorem Counted.asked {param : NIOParam} {rest : List NIOParam} (h : Counted x)
    (hc : x.reception = .checking (param :: rest)) :
    Counted { x with
      outstanding := x.outstanding + 1, requested := x.requested + 1, reception := .checking rest } := by
  have hp := h.params
  have hr := h.reports
  have hu : x.unchecked = rest.length + 1 := by simp [unchecked, hc]
  refine {
    params := ?_, reports := ?_, error := h.error, flagged := h.flagged, fresh := fun he => (by cases he)
    early := h.early, own := fun h0 _ _ => ?_, late := fun _ he => (by cases he) }
  · simp only [unchecked]
    omega
  · show x.arrived + x.failed + (x.outstanding + 1) = x.requested + 1
    omega
  · have h0' : x.params = 0 := h0
    omega

/-- A report, of an arrival (`a = 1`) or of a failure (`f = 1`), takes from the counter. -/
theorem Counted.report (h : Counted x) (ho : 0 < x.outstanding) {a f : Nat} (haf : a + f = 1)
    (hd : x.params = 1 → x.reporting = 0 ∧ x.reception = .returned) :
    Counted { x.decreaseParams with
      outstanding := x.outstanding - 1, arriving := x.arriving + a, arrived := x.arrived + a,
      flagging := x.flagging + f, failed := x.failed + f } := by
  have hp := h.params
  have hr := h.reports
  have hfl := h.flagged
  refine {
    params := ?_, reports := ?_, error := ?_, flagged := ?_, fresh := fun he => ?_
    early := fun h0 => h.early ?_, own := fun h0 _ hret => ?_, late := fun h0 hret => .inl ?_ }
  · show x.params - 1 = (x.unchecked : Int) + ((x.outstanding - 1 : Nat) : Int)
    omega
  · show x.arrived + a + (x.failed + f) + (x.outstanding - 1) = x.requested
    omega
  · show x.error = true ↔ x.flagging + f < x.failed + f
    rw [h.error]
    omega
  · show x.flagging + f + x.failing ≤ x.failed + f
    omega
  · have := (h.fresh he).1
    omega
  · have h0' : 0 < x.params - 1 := h0
    omega
  · have h0' : x.params - 1 = 0 := h0
    exact absurd (hd (by omega)).2 hret
  · have h0' : x.params - 1 = 0 := h0
    have hrep : x.arriving + x.flagging + x.failing = 0 := (hd (by omega)).1
    refine ⟨?_, h.early (by omega)⟩
    show x.arriving + a + (x.flagging + f) + x.failing = 1
    omega

/-- A report tests the counter: at zero it is the last party. -/
theorem Counted.tested (h : Counted x) {a f : Nat} (haf : a + f = 1) (ha : a ≤ x.arriving) (hf : f ≤ x.failing) :
    Counted
      (let y := { x with arriving := x.arriving - a, failing := x.failing - f }
       if x.params = 0 then y.end_ (if f = 1 ∨ x.error = true then .sendTaskDone else .executeTask) else y) := by
  have hfl := h.flagged
  have hrec : x.reception ≠ .notReceived := by
    intro he
    have : x.arriving + x.flagging + x.failing = 0 := (h.fresh he).2.1
    omega
  simp only
  split
  next h0 =>
    have hret : x.reception = .returned := by
      by_contra hret
      have : x.arriving + x.flagging + x.failing = 0 := (h.own h0 hrec hret).1
      omega
    rcases h.late h0 hret with ⟨h1, hnil⟩ | ⟨hr0, -⟩
    · have h1' : x.arriving + x.flagging + x.failing = 1 := h1
      have hflag : x.flagging = 0 := by omega
      have herr : x.error = true ↔ 0 < x.failed := by rw [h.error, hflag]
      refine {
        params := h.params, reports := h.reports, error := h.error, flagged := ?_
        fresh := fun he => absurd he hrec, early := fun hp => ?_, own := fun _ _ hne => absurd hret hne
        late := fun _ _ => .inr ⟨?_, ?_⟩ }
      · show x.flagging + (x.failing - f) ≤ x.failed
        omega
      · have hp' : 0 < x.params := hp
        omega
      · show x.arriving - a + x.flagging + (x.failing - f) = 0
        omega
      · show (_ :: x.outcomes) = _
        rw [hnil]
        by_cases hfail : x.failed = 0
        · have hf0 : ¬ (f = 1 ∨ x.error = true) := by
            rw [herr]
            omega
          rw [if_neg hf0]
          exact (congrArg (fun o => [o]) (if_pos hfail)).symm
        · have hf1 : f = 1 ∨ x.error = true := by
            rw [herr]
            omega
          rw [if_pos hf1]
          exact (congrArg (fun o => [o]) (if_neg hfail)).symm
    · have hr0' : x.arriving + x.flagging + x.failing = 0 := hr0
      omega
  next h0 =>
    refine {
      params := h.params, reports := h.reports, error := h.error, flagged := ?_
      fresh := fun he => absurd he hrec, early := h.early, own := fun he => absurd he h0
      late := fun he => absurd he h0 }
    show x.flagging + (x.failing - f) ≤ x.failed
    omega

theorem Counted.step {l : TransferStep} (h : Counted x) (hl : x.Decides l) (hst : x.step l = some y) : Counted y := by
  cases l with
  | receivedNewTask params =>
    simp only [TransferringTask.step, Option.ite_none_right_eq_some] at hst
    obtain ⟨hnot, hst⟩ := hst
    cases hst
    obtain ⟨hreq, hrep, hnil⟩ := h.fresh hnot
    have hr := h.reports
    have hp : (0 : Int) = x.unchecked := by simp [unchecked, hnot]
    refine {
      params := ?_, reports := hr, error := h.error, flagged := h.flagged, fresh := fun he => (by cases he)
      early := fun _ => hnil, own := fun _ _ _ => ⟨hrep, by show x.failed = 0; omega, hnil⟩
      late := fun _ he => (by cases he) }
    show (params.length : Int) = params.length + (x.outstanding : Int)
    omega
  | checkParam askTransfer =>
    simp only [TransferringTask.step] at hst
    split at hst
    next param rest hc =>
      cases hst
      obtain ⟨htype, hlast⟩ := hl param rest hc
      unfold check askForTransfer
      by_cases hdata : param.hasData = true
      · rw [if_pos hdata]
        have hask : Counted { (if askTransfer = true then
            { x with outstanding := x.outstanding + 1, requested := x.requested + 1 } else x.decreaseParams) with
              reception := .checking rest } := by
          cases askTransfer with
          | true => exact h.asked hc
          | false => exact h.taken hc (hlast (.inr rfl))
        rcases htype hdata with ht | ht
        · rw [ht]; exact hask
        · rw [ht]; exact hask
      · rw [if_neg hdata]
        exact h.taken hc (hlast (.inl (by simpa using hdata)))
    · cases hst
  | requestTransfers =>
    simp only [TransferringTask.step, Option.ite_none_right_eq_some] at hst
    obtain ⟨hc, hst⟩ := hst
    cases hst
    have hp := h.params
    refine {
      params := ?_, reports := h.reports, error := h.error, flagged := h.flagged, fresh := fun he => (by cases he)
      early := h.early, own := fun h0 _ _ => h.own h0 (by rw [hc]; decide) (by rw [hc]; decide)
      late := fun _ he => (by cases he) }
    rw [hp]
    simp [unchecked, hc]
  | finalTest =>
    simp only [TransferringTask.step, Option.ite_none_right_eq_some] at hst
    obtain ⟨hc, hst⟩ := hst
    cases hst
    have hp : x.params = (0 : Nat) + (x.outstanding : Int) := by rw [h.params]; simp [unchecked, hc]
    split
    next h0 =>
      have h0' : x.params = 0 := h0
      obtain ⟨hrep, hfail, hnil⟩ := h.own h0' (by rw [hc]; decide) (by rw [hc]; decide)
      refine {
        params := hp, reports := h.reports, error := h.error, flagged := h.flagged, fresh := fun he => (by cases he)
        early := fun hpos => ?_, own := fun _ _ hne => absurd rfl hne, late := fun _ _ => .inr ⟨hrep, ?_⟩ }
      · have hpos' : 0 < x.params := hpos
        omega
      · show (_ :: x.outcomes) = _
        rw [hnil]
        exact (congrArg (fun o => [o]) (if_pos hfail)).symm
    next h0 =>
      exact {
        params := hp, reports := h.reports, error := h.error, flagged := h.flagged, fresh := fun he => (by cases he)
        early := h.early, own := fun _ _ hne => absurd rfl hne, late := fun he => absurd he h0 }
  | receivedValue =>
    simp only [TransferringTask.step, Option.ite_none_right_eq_some] at hst
    obtain ⟨ho, hst⟩ := hst
    cases hst
    exact h.report ho (a := 1) (f := 0) rfl hl
  | testArrived =>
    simp only [TransferringTask.step, Option.ite_none_right_eq_some] at hst
    obtain ⟨ha, hst⟩ := hst
    have key := h.tested (a := 1) (f := 0) rfl ha (Nat.zero_le _)
    cases hst
    simpa using key
  | dataNotAvailable =>
    simp only [TransferringTask.step, Option.ite_none_right_eq_some] at hst
    obtain ⟨ho, hst⟩ := hst
    cases hst
    exact h.report ho (a := 0) (f := 1) rfl hl
  | setError =>
    simp only [TransferringTask.step, Option.ite_none_right_eq_some] at hst
    obtain ⟨hf, hst⟩ := hst
    cases hst
    have hfl := h.flagged
    have hsame : ({ x with flagging := x.flagging - 1, failing := x.failing + 1, error := true } :
        TransferringTask).reporting = x.reporting := by
      show x.arriving + (x.flagging - 1) + (x.failing + 1) = x.arriving + x.flagging + x.failing
      omega
    refine {
      params := h.params, reports := h.reports, error := ?_, flagged := ?_, fresh := ?_, early := h.early
      own := ?_, late := ?_ }
    · show true = true ↔ x.flagging - 1 < x.failed
      exact iff_of_true rfl (by omega)
    · show x.flagging - 1 + (x.failing + 1) ≤ x.failed
      omega
    · rw [hsame]; exact h.fresh
    · rw [hsame]; exact h.own
    · rw [hsame]; exact h.late
  | testFailed =>
    simp only [TransferringTask.step, Option.ite_none_right_eq_some] at hst
    obtain ⟨hf, hst⟩ := hst
    have key := h.tested (a := 0) (f := 1) rfl (Nat.zero_le _) hf
    cases hst
    simpa using key

end TransferringTask

/-! ## The worker -/

abbrev TaskId := Nat

/-- The tasks a worker receives, each with its own counter. -/
abbrev NIOWorker := TaskId → TransferringTask

namespace NIOWorker

def init : NIOWorker := fun _ => .init

def step (w : NIOWorker) (l : TaskId × TransferStep) : Option NIOWorker :=
  ((w l.1).step l.2).map fun x => Function.update w l.1 x

/-- **Every task is launched once**, in every run of a worker, with any tasks
and parameters and any order of the steps, in which the party that takes the
last parameter from a counter is the only one left to test it. -/
theorem launchedOnce_of_decides (labels : List (TaskId × TransferStep))
    (h : Along step (fun w l => (w l.1).Decides l.2) init labels) :
    Always step (fun w => ∀ t, (w t).LaunchedOnce) init labels := by
  refine always_of_along (I := fun w => ∀ t, (w t).Counted) (fun w hw t => (hw t).launchedOnce)
    (fun w l w' hw hl hst t => ?_) (fun _ => .init) h
  obtain ⟨x, hx, rfl⟩ := Option.map_eq_some_iff.mp hst
  rw [Function.update_apply]
  split
  next he => exact (hw l.1).step hl hx
  next => exact hw t

/-- A task whose only file arrives after `receivedNewTask` has returned. -/
def lateArrival : List (TaskId × TransferStep) :=
  [(0, .receivedNewTask [⟨.fileT, true⟩]), (0, .checkParam true), (0, .requestTransfers), (0, .finalTest),
    (0, .receivedValue), (0, .testArrived)]

theorem launchedOnce_of_decides_late : Along step (fun w l => (w l.1).Decides l.2) init lateArrival ∧
    Always step (fun w => ∀ t, (w t).LaunchedOnce) init lateArrival := by
  have h : Along step (fun w l => (w l.1).Decides l.2) init lateArrival := by
    refine fun w hw => ⟨trivial, ?_⟩
    cases hw
    refine fun w hw => ⟨fun param rest hc => ?_, ?_⟩
    · cases hc
      exact ⟨fun _ => .inr rfl, fun hn => by rcases hn with hn | hn <;> cases hn⟩
    cases hw
    refine fun w hw => ⟨trivial, ?_⟩
    cases hw
    refine fun w hw => ⟨trivial, ?_⟩
    cases hw
    refine fun w hw => ⟨fun _ => ⟨rfl, rfl⟩, ?_⟩
    cases hw
    exact fun w hw => ⟨trivial, trivial⟩
  exact ⟨h, launchedOnce_of_decides _ h⟩

/-- The file arrives before `receivedNewTask` tests the counter: both execute the task. -/
theorem executed_twice : ¬ Always step (fun w => ∀ t, (w t).LaunchedOnce) init
    [(0, .receivedNewTask [⟨.fileT, true⟩]), (0, .checkParam true), (0, .requestTransfers),
      (0, .receivedValue), (0, .testArrived), (0, .finalTest)] := by
  intro h
  have hlast := (((((h.2 _ rfl).2 _ rfl).2 _ rfl).2 _ rfl).2 _ rfl).2 _ rfl 0
  exact absurd hlast.once (by decide)

end NIOWorker

end Compss.Worker
