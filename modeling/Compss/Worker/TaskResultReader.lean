/-
`TaskResultReader`: the thread that reads the results of the jobs from the
pipe, and the executors that wait for them.

An executor looks whether its job has ended and registers a waiter when it has
not, in two synchronized sections; the reader stores a status and wakes the
waiter, in two sections as well. Each section is one step. The reader is a
single thread, so that its two sections, and the whole treatment of an error
tag (which holds the table of waiters), are in progress for one line at a time.

When the reader has gone through both sections between the two of the executor,
nobody wakes the waiter that is registered then (`result_between_sections`).
-/
import Compss.Lib.Run
import Mathlib.Data.List.Nodup
import Mathlib.Logic.Function.Basic

namespace Compss.Worker

open Lib

abbrev JobId := Nat

/-- `ExternalTaskStatus`: the types and values of the parameters, which may be null. -/
structure ExternalTaskStatus where
  exitValue : Int
  parameters : List (Nat × Option String)
  deriving DecidableEq, Repr

/-- The status an error tag gives. -/
def ExternalTaskStatus.failed : ExternalTaskStatus := ⟨-1, []⟩

/-- Where `executeExternal` is: before the command is written to the pipe,
before each section of `askForTaskEnd`, at the semaphore, before `getTaskStatus`. -/
inductive Phase
  | idle
  | submitted
  | checked
  | waiting
  | retrieving
  deriving DecidableEq, Repr

/-- The executor of a job: how often its semaphore was released, and the
result that was read from the pipe since the command was written. -/
structure Executor where
  phase : Phase
  releases : Nat
  read : Option ExternalTaskStatus

/-- Where the reader is: `endTask j` between the two sections of
`processEndTaskTag`, `errorTask` in the loop of `processErrorTaskTag` over the
waiters left. -/
inductive Reader
  | idle
  | endTask (j : JobId)
  | errorTask (entries : List JobId)
  deriving DecidableEq, Repr

structure TaskResultReader where
  jobIdsToStatus : JobId → Option ExternalTaskStatus
  /-- The keys of `jobIdsToWaiters`; the waiter is the semaphore of the job's executor. -/
  jobIdsToWaiters : List JobId
  reader : Reader
  executor : JobId → Executor
  /-- What `getTaskStatus` has answered, with the result that was read for it. -/
  obtained : List (JobId × Option ExternalTaskStatus × Option ExternalTaskStatus)

inductive Label
  /-- The command of the job is written to the pipe, and its semaphore made. -/
  | executeExternal (j : JobId)
  | checkStatus (j : JobId)
  | registerWaiter (j : JobId)
  | acquire (j : JobId)
  | getTaskStatus (j : JobId)
  | readEndTask (j : JobId) (status : ExternalTaskStatus)
  | wakeWaiter
  | readErrorTask
  | failWaiter
  | clearWaiters
  deriving DecidableEq, Repr

namespace TaskResultReader

def init : TaskResultReader := ⟨fun _ => none, [], .idle, fun _ => ⟨.idle, 0, none⟩, []⟩

def setExecutor (s : TaskResultReader) (j : JobId) (x : Executor) : TaskResultReader :=
  { s with executor := Function.update s.executor j x }

def setStatus (s : TaskResultReader) (j : JobId) (status : Option ExternalTaskStatus) : TaskResultReader :=
  { s with jobIdsToStatus := Function.update s.jobIdsToStatus j status }

/-- `waiter.release()`. -/
def release (s : TaskResultReader) (j : JobId) : TaskResultReader :=
  s.setExecutor j { s.executor j with releases := (s.executor j).releases + 1 }

def setPhase (s : TaskResultReader) (j : JobId) (p : Phase) : TaskResultReader :=
  s.setExecutor j { s.executor j with phase := p }

/-- The first section of `askForTaskEnd`. -/
def checkStatus (s : TaskResultReader) (j : JobId) : TaskResultReader :=
  if (s.jobIdsToStatus j).isSome then (s.release j).setPhase j .waiting else s.setPhase j .checked

/-- The second one, which needs the table of waiters. -/
def registerWaiter (s : TaskResultReader) (j : JobId) : TaskResultReader :=
  { s.setPhase j .waiting with
    jobIdsToWaiters := if j ∈ s.jobIdsToWaiters then s.jobIdsToWaiters else s.jobIdsToWaiters ++ [j] }

/-- The second section of `processEndTaskTag`. -/
def wakeWaiter (s : TaskResultReader) (j : JobId) : TaskResultReader :=
  if j ∈ s.jobIdsToWaiters then
    { s.release j with jobIdsToWaiters := s.jobIdsToWaiters.erase j, reader := .idle }
  else { s with reader := .idle }

/-- The line with the result of a job: its status is stored. -/
def readEndTask (s : TaskResultReader) (j : JobId) (status : ExternalTaskStatus) : TaskResultReader :=
  { (s.setStatus j (some status)).setExecutor j { s.executor j with read := some status } with
    reader := .endTask j }

/-- One round of the loop of `processErrorTaskTag`. -/
def failWaiter (s : TaskResultReader) (j : JobId) (entries : List JobId) : TaskResultReader :=
  { (s.setStatus j (some .failed)).setExecutor j
      { s.executor j with read := some .failed, releases := (s.executor j).releases + 1 } with
    reader := .errorTask entries }

/-- One job has one executor at a time, and one result for each command. -/
def step (s : TaskResultReader) : Label → Option TaskResultReader
  | .executeExternal j =>
    if (s.executor j).phase = .idle then some (s.setExecutor j ⟨.submitted, 0, none⟩) else none
  | .checkStatus j => if (s.executor j).phase = .submitted then some (s.checkStatus j) else none
  | .registerWaiter j =>
    match s.reader with
    | .errorTask _ => none
    | _ => if (s.executor j).phase = .checked then some (s.registerWaiter j) else none
  | .acquire j =>
    if (s.executor j).phase = .waiting ∧ 0 < (s.executor j).releases then some (s.setPhase j .retrieving)
    else none
  | .getTaskStatus j =>
    if (s.executor j).phase = .retrieving then
      some { (s.setPhase j .idle).setStatus j none with
        obtained := (j, (s.executor j).read, s.jobIdsToStatus j) :: s.obtained }
    else none
  | .readEndTask j status =>
    if s.reader = .idle ∧ (s.executor j).phase ≠ .idle ∧ (s.executor j).read = none then
      some (s.readEndTask j status)
    else none
  | .wakeWaiter =>
    match s.reader with
    | .endTask j => some (s.wakeWaiter j)
    | _ => none
  | .readErrorTask =>
    if s.reader = .idle then some { s with reader := .errorTask s.jobIdsToWaiters } else none
  | .failWaiter =>
    match s.reader with
    | .errorTask (j :: entries) => some (s.failWaiter j entries)
    | _ => none
  | .clearWaiters =>
    match s.reader with
    | .errorTask [] => some { s with jobIdsToWaiters := [], reader := .idle }
    | _ => none

/-- What an executor that waits may rely on. -/
structure Woken (s : TaskResultReader) : Prop where
  /-- A semaphore is released at most once for a command. -/
  once : ∀ j, (s.executor j).releases ≤ 1
  /-- It is released after the result was read, which is there to be got. -/
  afterRead : ∀ j, (s.executor j).phase = .waiting ∨ (s.executor j).phase = .retrieving →
    (s.executor j).releases = 1 → ∃ status, (s.executor j).read = some status ∧ s.jobIdsToStatus j = some status
  /-- When the reader is done with the result, the executor that waits has been released. -/
  notLost : ∀ j, (s.executor j).phase = .waiting → (s.executor j).read.isSome → s.reader = .idle →
    (s.executor j).releases = 1
  /-- Nobody obtains anything but the result of its job. -/
  own : ∀ o ∈ s.obtained, o.2.1.isSome ∧ o.2.2 = o.2.1

/-- When a waiter is registered, the result of the job has been read exactly if
the reader is still to wake its waiter. -/
def RegistersInTime (s : TaskResultReader) : Label → Prop
  | .registerWaiter j => (s.executor j).read.isSome ↔ s.reader = .endTask j
  | _ => True

instance (s : TaskResultReader) (l : Label) : Decidable (s.RegistersInTime l) := by
  unfold RegistersInTime; split <;> infer_instance

/-! ## One job -/

variable {s t : TaskResultReader} {j i : JobId}

/-- The waiter of `j` is registered and has not been failed by an error tag. -/
def Registered (s : TaskResultReader) (j : JobId) : Prop :=
  match s.reader with
  | .errorTask entries => j ∈ entries
  | _ => j ∈ s.jobIdsToWaiters

/-- The executor was released, with the result of its job in the table. -/
structure Released (s : TaskResultReader) (j : JobId) : Prop where
  releases : (s.executor j).releases = 1
  notRegistered : ¬ s.Registered j
  status : s.jobIdsToStatus j = (s.executor j).read
  read : (s.executor j).read.isSome

/-- The executor is registered, and its result is not read or about to be announced. -/
structure Pending (s : TaskResultReader) (j : JobId) : Prop where
  releases : (s.executor j).releases = 0
  registered : s.Registered j
  status : s.jobIdsToStatus j = (s.executor j).read
  inTime : (s.executor j).read.isSome ↔ s.reader = .endTask j

/-- The executor has not registered yet. -/
structure Early (s : TaskResultReader) (j : JobId) : Prop where
  releases : (s.executor j).releases = 0
  notRegistered : ¬ s.Registered j
  status : s.jobIdsToStatus j = (s.executor j).read

/-- The tables agree with where the executor of `j` is. -/
def JobOK (s : TaskResultReader) (j : JobId) : Prop :=
  match (s.executor j).phase with
  | .idle => (s.executor j).releases ≤ 1 ∧ ¬ s.Registered j ∧ s.jobIdsToStatus j = none
  | .submitted | .checked => s.Early j
  | .waiting => s.Pending j ∨ s.Released j
  | .retrieving => s.Released j

structure OK (s : TaskResultReader) : Prop where
  job : ∀ j, s.JobOK j
  nodup : s.jobIdsToWaiters.Nodup
  entries : ∀ l, s.reader = .errorTask l → l.Nodup
  own : ∀ o ∈ s.obtained, o.2.1.isSome ∧ o.2.2 = o.2.1

theorem OK.init : OK init where
  job _ := ⟨Nat.zero_le 1, by simp [Registered, TaskResultReader.init], rfl⟩
  nodup := List.nodup_nil
  entries _ h := by cases h
  own _ h := by cases h

theorem OK.woken (h : OK s) : Woken s where
  once j := by
    have hj := h.job j
    unfold JobOK at hj
    split at hj
    · exact hj.1
    · have := hj.releases; omega
    · have := hj.releases; omega
    · rcases hj with hj | hj
      · have := hj.releases; omega
      · have := hj.releases; omega
    · have := hj.releases; omega
  afterRead j hp hr := by
    have hj := h.job j
    have hreleased : s.Released j := by
      unfold JobOK at hj
      rcases hp with hp | hp
      · rw [hp] at hj
        rcases hj with hj | hj
        · rw [hj.releases] at hr; cases hr
        · exact hj
      · rw [hp] at hj; exact hj
    obtain ⟨status, hst⟩ := Option.isSome_iff_exists.mp hreleased.read
    exact ⟨status, hst, hreleased.status.trans hst⟩
  notLost j hp hr hi := by
    have hj := h.job j
    unfold JobOK at hj
    rw [hp] at hj
    rcases hj with hj | hj
    · rw [hj.inTime.mp hr] at hi; cases hi
    · exact hj.releases
  own := h.own

/-- What is known of a job stays known when nothing the job sees has changed. -/
theorem JobOK.congr (h : s.JobOK j) (hx : t.executor j = s.executor j)
    (hst : t.jobIdsToStatus j = s.jobIdsToStatus j) (hreg : t.Registered j ↔ s.Registered j)
    (hrd : t.reader = .endTask j ↔ s.reader = .endTask j) : t.JobOK j := by
  unfold JobOK at h ⊢
  rw [hx]
  split at h
  · rw [hreg, hst]; exact h
  · exact ⟨by rw [hx]; exact h.releases, by rw [hreg]; exact h.notRegistered, by rw [hx, hst]; exact h.status⟩
  · exact ⟨by rw [hx]; exact h.releases, by rw [hreg]; exact h.notRegistered, by rw [hx, hst]; exact h.status⟩
  · rcases h with h | h
    · exact .inl ⟨by rw [hx]; exact h.releases, by rw [hreg]; exact h.registered,
        by rw [hx, hst]; exact h.status, by rw [hx, hrd]; exact h.inTime⟩
    · exact .inr ⟨by rw [hx]; exact h.releases, by rw [hreg]; exact h.notRegistered,
        by rw [hx, hst]; exact h.status, by rw [hx]; exact h.read⟩
  · exact ⟨by rw [hx]; exact h.releases, by rw [hreg]; exact h.notRegistered,
      by rw [hx, hst]; exact h.status, by rw [hx]; exact h.read⟩

theorem setExecutor_executor (x : Executor) :
    (s.setExecutor j x).executor i = if i = j then x else s.executor i := by
  simp [setExecutor, Function.update_apply]

@[simp] theorem setExecutor_jobIdsToStatus (x : Executor) :
    (s.setExecutor j x).jobIdsToStatus = s.jobIdsToStatus := rfl

@[simp] theorem release_jobIdsToStatus : (s.release j).jobIdsToStatus = s.jobIdsToStatus := rfl

theorem setStatus_jobIdsToStatus (st : Option ExternalTaskStatus) :
    (s.setStatus j st).jobIdsToStatus i = if i = j then st else s.jobIdsToStatus i := by
  simp [setStatus, Function.update_apply]

/-! ## The executors -/

/-- A step of the executor of `j` that leaves the tables of the others and the
reader alone. -/
theorem OK.own_step (h : OK s) (hx : ∀ i, i ≠ j → t.executor i = s.executor i)
    (hst : ∀ i, i ≠ j → t.jobIdsToStatus i = s.jobIdsToStatus i) (hw : t.jobIdsToWaiters = s.jobIdsToWaiters)
    (hr : t.reader = s.reader) (ho : ∀ o ∈ t.obtained, o ∈ s.obtained ∨ o.2.1.isSome ∧ o.2.2 = o.2.1)
    (hj : t.JobOK j) : OK t where
  job i := by
    by_cases hij : i = j
    · rw [hij]; exact hj
    · refine (h.job i).congr (hx i hij) (hst i hij) ?_ (by rw [hr])
      unfold Registered
      rw [hr, hw]
  nodup := by rw [hw]; exact h.nodup
  entries l hl := h.entries l (hr ▸ hl)
  own o hmem := by
    rcases ho o hmem with ho | ho
    · exact h.own o ho
    · exact ho

theorem OK.executeExternal (h : OK s) (hp : (s.executor j).phase = .idle) :
    OK (s.setExecutor j ⟨.submitted, 0, none⟩) := by
  have hj := h.job j
  unfold JobOK at hj
  rw [hp] at hj
  obtain ⟨-, hreg, hst⟩ := hj
  refine h.own_step (j := j) (fun i hi => by rw [setExecutor_executor, if_neg hi]) (fun _ _ => rfl) rfl rfl
    (fun o ho => .inl ho) ?_
  unfold JobOK
  rw [setExecutor_executor, if_pos rfl]
  exact ⟨by rw [setExecutor_executor, if_pos rfl], hreg, by rw [setExecutor_executor, if_pos rfl]; exact hst⟩

theorem OK.checkStatus (h : OK s) (hp : (s.executor j).phase = .submitted) : OK (s.checkStatus j) := by
  have hj := h.job j
  unfold JobOK at hj
  rw [hp] at hj
  have hearly : s.Early j := hj
  unfold TaskResultReader.checkStatus
  split
  next hsome =>
    refine h.own_step (j := j) (fun i hi => ?_) (fun _ _ => rfl) rfl rfl (fun o ho => .inl ho) ?_
    · simp [setPhase, release, setExecutor_executor, hi]
    · unfold JobOK
      simp only [setPhase, release, setExecutor_executor, if_pos]
      refine .inr ⟨?_, hearly.notRegistered, ?_, ?_⟩
      · simp [setExecutor_executor, hearly.releases]
      · simpa [setExecutor_executor] using hearly.status
      · rw [hearly.status] at hsome
        simpa [setExecutor_executor] using hsome
  next =>
    refine h.own_step (j := j) (fun i hi => ?_) (fun _ _ => rfl) rfl rfl (fun o ho => .inl ho) ?_
    · simp [setPhase, setExecutor_executor, hi]
    · unfold JobOK
      simp only [setPhase, setExecutor_executor, if_pos]
      refine ⟨?_, hearly.notRegistered, ?_⟩
      · simp [setExecutor_executor, hearly.releases]
      · simpa [setExecutor_executor] using hearly.status

theorem OK.acquire (h : OK s) (hp : (s.executor j).phase = .waiting) (hr : 0 < (s.executor j).releases) :
    OK (s.setPhase j .retrieving) := by
  have hj := h.job j
  unfold JobOK at hj
  rw [hp] at hj
  have hreleased : s.Released j := by
    rcases hj with hj | hj
    · have := hj.releases; omega
    · exact hj
  refine h.own_step (j := j) (fun i hi => ?_) (fun _ _ => rfl) rfl rfl (fun o ho => .inl ho) ?_
  · simp [setPhase, setExecutor_executor, hi]
  · unfold JobOK
    simp only [setPhase, setExecutor_executor, if_pos]
    refine ⟨?_, hreleased.notRegistered, ?_, ?_⟩
    · simpa [setExecutor_executor] using hreleased.releases
    · simpa [setExecutor_executor] using hreleased.status
    · simpa [setExecutor_executor] using hreleased.read

theorem OK.getTaskStatus (h : OK s) (hp : (s.executor j).phase = .retrieving) :
    OK { (s.setPhase j .idle).setStatus j none with
      obtained := (j, (s.executor j).read, s.jobIdsToStatus j) :: s.obtained } := by
  have hj := h.job j
  unfold JobOK at hj
  rw [hp] at hj
  have hreleased : s.Released j := hj
  refine h.own_step (j := j) (fun i hi => ?_) (fun i hi => ?_) rfl rfl (fun o ho => ?_) ?_
  · simp [setStatus, setPhase, setExecutor_executor, hi]
  · simp only [setStatus_jobIdsToStatus, if_neg hi]; rfl
  · rcases List.mem_cons.mp ho with rfl | ho
    · exact .inr ⟨hreleased.read, hreleased.status⟩
    · exact .inl ho
  · have hone := hreleased.releases
    unfold JobOK
    simp only [setStatus, setPhase, setExecutor_executor, if_pos]
    exact ⟨by omega, hreleased.notRegistered, by simp⟩

/-- A waiter registered in time is pending. -/
theorem OK.registerWaiter (h : OK s) (hp : (s.executor j).phase = .checked)
    (hrd : ∀ l, s.reader ≠ .errorTask l) (htime : (s.executor j).read.isSome ↔ s.reader = .endTask j) :
    OK (s.registerWaiter j) := by
  have hj := h.job j
  unfold JobOK at hj
  rw [hp] at hj
  have hearly : s.Early j := hj
  have hregs : ∀ i, s.Registered i ↔ i ∈ s.jobIdsToWaiters := by
    intro i
    unfold Registered
    split
    next l hl => exact absurd hl (hrd l)
    next => rfl
  have hnot : j ∉ s.jobIdsToWaiters := fun hm => hearly.notRegistered ((hregs j).mpr hm)
  have hwaiters : (s.registerWaiter j).jobIdsToWaiters = s.jobIdsToWaiters ++ [j] := by
    simp [TaskResultReader.registerWaiter, hnot]
  have hreader : (s.registerWaiter j).reader = s.reader := rfl
  have hregt : ∀ i, (s.registerWaiter j).Registered i ↔ i ∈ s.jobIdsToWaiters ∨ i = j := by
    intro i
    unfold Registered
    rw [hreader]
    split
    next l hl => exact absurd hl (hrd l)
    next => rw [hwaiters, List.mem_append, List.mem_singleton]
  have hexec : ∀ i, (s.registerWaiter j).executor i = if i = j then { s.executor j with phase := .waiting }
      else s.executor i := fun i => setExecutor_executor _
  refine ⟨fun i => ?_, ?_, fun l hl => absurd hl (hrd l), h.own⟩
  · by_cases hij : i = j
    · subst hij
      unfold JobOK
      rw [hexec, if_pos rfl]
      refine .inl ⟨?_, (hregt i).mpr (.inr rfl), ?_, ?_⟩
      · rw [hexec, if_pos rfl]; exact hearly.releases
      · rw [hexec, if_pos rfl]; exact hearly.status
      · rw [hexec, if_pos rfl]; exact htime
    · refine (h.job i).congr (by rw [hexec, if_neg hij]) rfl ?_ Iff.rfl
      rw [hregt, hregs]
      exact ⟨fun hm => hm.resolve_right hij, .inl⟩
  · rw [hwaiters]
    exact List.nodup_append.mpr ⟨h.nodup, List.nodup_singleton j, fun a ha b hb => by
      rw [List.mem_singleton.mp hb]
      rintro rfl
      exact hnot ha⟩

/-! ## The reader -/

theorem registered_iff (h : ∀ l, s.reader ≠ .errorTask l) : s.Registered j ↔ j ∈ s.jobIdsToWaiters := by
  unfold Registered
  split
  next l hl => exact absurd hl (h l)
  next => rfl

theorem OK.readEndTask (h : OK s) {status : ExternalTaskStatus} (hr : s.reader = .idle)
    (hp : (s.executor j).phase ≠ .idle) (hread : (s.executor j).read = none) : OK (s.readEndTask j status) := by
  have hregs : ∀ i, (s.readEndTask j status).Registered i ↔ s.Registered i := by
    intro i
    rw [registered_iff (by intro l hl; cases hl), registered_iff (by intro l hl; rw [hr] at hl; cases hl)]
    rfl
  have hexec : ∀ i, (s.readEndTask j status).executor i =
      if i = j then { s.executor j with read := some status } else s.executor i := fun i => setExecutor_executor _
  have hstat : ∀ i, (s.readEndTask j status).jobIdsToStatus i =
      if i = j then some status else s.jobIdsToStatus i := fun i => setStatus_jobIdsToStatus _
  refine ⟨fun i => ?_, h.nodup, fun _ hl => (by cases hl), h.own⟩
  by_cases hij : i = j
  · subst hij
    have hj := h.job i
    unfold JobOK at hj ⊢
    rw [hexec, if_pos rfl]
    have hearly : s.Early i → (s.readEndTask i status).Early i := fun he =>
      ⟨by rw [hexec, if_pos rfl]; exact he.releases, by rw [hregs]; exact he.notRegistered,
        by rw [hexec, hstat, if_pos rfl, if_pos rfl]⟩
    cases hph : (s.executor i).phase with
    | idle => exact absurd hph hp
    | submitted => rw [hph] at hj; exact hearly hj
    | checked => rw [hph] at hj; exact hearly hj
    | waiting =>
      rw [hph] at hj
      rcases hj with hj | hj
      · exact .inl ⟨by rw [hexec, if_pos rfl]; exact hj.releases, by rw [hregs]; exact hj.registered,
          by rw [hexec, hstat, if_pos rfl, if_pos rfl],
          by rw [hexec, if_pos rfl]; exact iff_of_true rfl rfl⟩
      · have := hj.read
        rw [hread] at this
        cases this
    | retrieving =>
      rw [hph] at hj
      have := hj.read
      rw [hread] at this
      cases this
  · refine (h.job i).congr (by rw [hexec, if_neg hij]) (by rw [hstat, if_neg hij]) (hregs i) ?_
    rw [hr]
    exact iff_of_false (fun he => hij (by cases he; rfl)) (by intro he; cases he)

theorem OK.wakeWaiter (h : OK s) (hr : s.reader = .endTask j) : OK (s.wakeWaiter j) := by
  have hrd : ∀ l, s.reader ≠ .errorTask l := by intro l hl; rw [hr] at hl; cases hl
  have hj := h.job j
  unfold TaskResultReader.wakeWaiter
  split
  next hmem =>
    have hreg : s.Registered j := (registered_iff hrd).mpr hmem
    -- only a pending executor is registered
    have hpend : (s.executor j).phase = .waiting ∧ s.Pending j := by
      unfold JobOK at hj
      split at hj
      · exact absurd hreg hj.2.1
      · exact absurd hreg hj.notRegistered
      · exact absurd hreg hj.notRegistered
      next hph =>
        rcases hj with hj | hj
        · exact ⟨hph, hj⟩
        · exact absurd hreg hj.notRegistered
      · exact absurd hreg hj.notRegistered
    obtain ⟨hph, hpend⟩ := hpend
    have hexec : ∀ i, (s.release j).executor i =
        if i = j then { s.executor j with releases := (s.executor j).releases + 1 } else s.executor i :=
      fun i => setExecutor_executor _
    refine ⟨fun i => ?_, h.nodup.erase j, fun _ hl => (by cases hl), h.own⟩
    by_cases hij : i = j
    · subst hij
      unfold JobOK
      simp only [hexec, if_pos, hph]
      refine .inr ⟨?_, ?_, ?_, ?_⟩
      · simp [hexec, hpend.releases]
      · rw [registered_iff (by intro l hl; cases hl)]
        exact fun hm => h.nodup.not_mem_erase hm
      · simpa [hexec] using hpend.status
      · simpa [hexec] using hpend.inTime.mpr hr
    · refine (h.job i).congr (by simp [hexec, hij]) rfl ?_ ?_
      · rw [registered_iff (by intro l hl; cases hl), registered_iff hrd]
        exact List.mem_erase_of_ne hij
      · rw [hr]
        exact iff_of_false (by intro he; cases he) (fun he => hij (by cases he; rfl))
  next hmem =>
    have hreg : ¬ s.Registered j := fun hreg => hmem ((registered_iff hrd).mp hreg)
    refine ⟨fun i => ?_, h.nodup, fun _ hl => (by cases hl), h.own⟩
    have hregs : ∀ i, ({ s with reader := .idle } : TaskResultReader).Registered i ↔ s.Registered i := by
      intro i
      rw [registered_iff (by intro l hl; cases hl), registered_iff hrd]
    by_cases hij : i = j
    · subst hij
      unfold JobOK at hj ⊢
      split at hj
      next hph => simp only [hph]; exact ⟨hj.1, by rw [hregs]; exact hj.2.1, hj.2.2⟩
      next hph => simp only [hph]; exact ⟨hj.releases, by rw [hregs]; exact hreg, hj.status⟩
      next hph => simp only [hph]; exact ⟨hj.releases, by rw [hregs]; exact hreg, hj.status⟩
      next hph =>
        simp only [hph]
        rcases hj with hj | hj
        · exact absurd hj.registered hreg
        · exact .inr ⟨hj.releases, by rw [hregs]; exact hreg, hj.status, hj.read⟩
      next hph => simp only [hph]; exact ⟨hj.releases, by rw [hregs]; exact hreg, hj.status, hj.read⟩
    · refine (h.job i).congr rfl rfl (hregs i) ?_
      rw [hr]
      exact iff_of_false (by intro he; cases he) (fun he => hij (by cases he; rfl))

theorem OK.readErrorTask (h : OK s) (hr : s.reader = .idle) :
    OK { s with reader := .errorTask s.jobIdsToWaiters } := by
  refine ⟨fun i => (h.job i).congr rfl rfl ?_ ?_, h.nodup, fun l hl => ?_, h.own⟩
  · rw [registered_iff (s := s) (by intro l hl; rw [hr] at hl; cases hl)]
    rfl
  · rw [hr]
    exact iff_of_false (by intro he; cases he) (by intro he; cases he)
  · cases hl; exact h.nodup

theorem OK.failWaiter (h : OK s) {entries : List JobId} (hr : s.reader = .errorTask (j :: entries)) :
    OK (s.failWaiter j entries) := by
  have hnodup := h.entries _ hr
  have hregs : ∀ i, s.Registered i ↔ i = j ∨ i ∈ entries := by
    intro i
    unfold Registered
    rw [hr]
    exact List.mem_cons
  have hregt : ∀ i, (s.failWaiter j entries).Registered i ↔ i ∈ entries := fun i => Iff.rfl
  have hj := h.job j
  have hreg : s.Registered j := (hregs j).mpr (.inl rfl)
  have hpend : (s.executor j).phase = .waiting ∧ s.Pending j := by
    unfold JobOK at hj
    split at hj
    · exact absurd hreg hj.2.1
    · exact absurd hreg hj.notRegistered
    · exact absurd hreg hj.notRegistered
    next hph =>
      rcases hj with hj | hj
      · exact ⟨hph, hj⟩
      · exact absurd hreg hj.notRegistered
    · exact absurd hreg hj.notRegistered
  obtain ⟨hph, hpend⟩ := hpend
  have hexec : ∀ i, (s.failWaiter j entries).executor i = if i = j then
      { s.executor j with read := some .failed, releases := (s.executor j).releases + 1 } else s.executor i :=
    fun i => setExecutor_executor _
  have hstat : ∀ i, (s.failWaiter j entries).jobIdsToStatus i =
      if i = j then some .failed else s.jobIdsToStatus i := fun i => setStatus_jobIdsToStatus _
  refine ⟨fun i => ?_, h.nodup, fun l hl => ?_, h.own⟩
  · by_cases hij : i = j
    · subst hij
      unfold JobOK
      simp only [hexec, if_pos, hph]
      refine .inr ⟨?_, ?_, ?_, ?_⟩
      · simp [hexec, hpend.releases]
      · rw [hregt]; exact (List.nodup_cons.mp hnodup).1
      · simp [hexec, hstat]
      · simp [hexec]
    · refine (h.job i).congr (by rw [hexec, if_neg hij]) (by rw [hstat, if_neg hij]) ?_ ?_
      · rw [hregt, hregs]
        exact ⟨.inr, fun hm => hm.resolve_left hij⟩
      · rw [hr]
        exact iff_of_false (by intro he; cases he) (by intro he; cases he)
  · cases hl; exact (List.nodup_cons.mp hnodup).2

theorem OK.clearWaiters (h : OK s) (hr : s.reader = .errorTask []) :
    OK { s with jobIdsToWaiters := [], reader := .idle } := by
  refine ⟨fun i => (h.job i).congr rfl rfl ?_ ?_, List.nodup_nil, fun _ hl => (by cases hl), h.own⟩
  · unfold Registered
    rw [hr]
  · rw [hr]
    exact iff_of_false (by intro he; cases he) (by intro he; cases he)

theorem OK.step {l : Label} (h : OK s) (hl : s.RegistersInTime l) (hst : s.step l = some t) : OK t := by
  cases l with
  | executeExternal j =>
    simp only [TaskResultReader.step, Option.ite_none_right_eq_some] at hst
    obtain ⟨hp, hst⟩ := hst
    cases hst
    exact h.executeExternal hp
  | checkStatus j =>
    simp only [TaskResultReader.step, Option.ite_none_right_eq_some] at hst
    obtain ⟨hp, hst⟩ := hst
    cases hst
    exact h.checkStatus hp
  | registerWaiter j =>
    simp only [TaskResultReader.step] at hst
    split at hst
    · cases hst
    next hrd =>
    simp only [Option.ite_none_right_eq_some] at hst
    obtain ⟨hp, hst⟩ := hst
    cases hst
    exact h.registerWaiter hp hrd hl
  | acquire j =>
    simp only [TaskResultReader.step, Option.ite_none_right_eq_some] at hst
    obtain ⟨⟨hp, hr⟩, hst⟩ := hst
    cases hst
    exact h.acquire hp hr
  | getTaskStatus j =>
    simp only [TaskResultReader.step, Option.ite_none_right_eq_some] at hst
    obtain ⟨hp, hst⟩ := hst
    cases hst
    exact h.getTaskStatus hp
  | readEndTask j status =>
    simp only [TaskResultReader.step, Option.ite_none_right_eq_some] at hst
    obtain ⟨⟨hr, hp, hread⟩, hst⟩ := hst
    cases hst
    exact h.readEndTask hr hp hread
  | wakeWaiter =>
    simp only [TaskResultReader.step] at hst
    split at hst
    next j hr => cases hst; exact h.wakeWaiter hr
    · cases hst
  | readErrorTask =>
    simp only [TaskResultReader.step, Option.ite_none_right_eq_some] at hst
    obtain ⟨hr, hst⟩ := hst
    cases hst
    exact h.readErrorTask hr
  | failWaiter =>
    simp only [TaskResultReader.step] at hst
    split at hst
    next j entries hr => cases hst; exact h.failWaiter hr
    · cases hst
  | clearWaiters =>
    simp only [TaskResultReader.step] at hst
    split at hst
    next hr => cases hst; exact h.clearWaiters hr
    · cases hst

/-- **No wake-up is lost**, for any executors, jobs and order of the sections,
in every run whose waiters are all registered in time. -/
theorem woken_of_registersInTime (labels : List Label) (h : Along step RegistersInTime init labels) :
    Always step Woken init labels :=
  always_of_along (fun _ hs => hs.woken) (fun _ _ _ hs hl hst => hs.step hl hst) OK.init h

/-- The result is read while the executor waits for it. -/
theorem woken_of_registersInTime_waiting : Along step RegistersInTime init
      [.executeExternal 7, .checkStatus 7, .registerWaiter 7, .readEndTask 7 ⟨0, []⟩, .wakeWaiter] ∧
    Always step Woken init
      [.executeExternal 7, .checkStatus 7, .registerWaiter 7, .readEndTask 7 ⟨0, []⟩, .wakeWaiter] := by
  have h : Along step RegistersInTime init
      [.executeExternal 7, .checkStatus 7, .registerWaiter 7, .readEndTask 7 ⟨0, []⟩, .wakeWaiter] := by
    refine fun t ht => ⟨trivial, ?_⟩
    cases ht
    refine fun t ht => ⟨trivial, ?_⟩
    cases ht
    refine fun t ht => ⟨by decide, ?_⟩
    cases ht
    refine fun t ht => ⟨trivial, ?_⟩
    cases ht
    exact fun t ht => ⟨trivial, trivial⟩
  exact ⟨h, woken_of_registersInTime _ h⟩

/-- Both sections of the reader run between the two of the executor: the
waiter is registered when nobody is left to wake it. -/
theorem result_between_sections : ¬ Always step Woken init
    [.executeExternal 7, .checkStatus 7, .readEndTask 7 ⟨0, []⟩, .wakeWaiter, .registerWaiter 7] := by
  intro h
  have hlast := ((((h.2 _ rfl).2 _ rfl).2 _ rfl).2 _ rfl).2 _ rfl
  exact absurd (hlast.notLost 7 rfl rfl rfl) (by decide)

end TaskResultReader

end Compss.Worker
