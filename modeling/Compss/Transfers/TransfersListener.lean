/-
Listeners that wait for a group of data operations: `JobTransfersListener`,
which submits the job of an execution when its input data is there, and
`SafeCopyListener`, which releases a semaphore.

The two classes differ in nothing but what they call at the end, so they are
one listener over `Outcomes`. Each of its methods is a synchronized section,
which is one step here, followed outside of it by the call the section has
decided on, which is another step: other threads run in between.
-/
import Compss.Lib.Run

namespace Compss

open Lib

structure Listener where
  operation : Int
  errors : Int
  enabled : Bool
  deriving DecidableEq, Repr

/-- What a section decides to call after it. -/
inductive Trigger
  | doReady
  | doFailures
  deriving DecidableEq, Repr

namespace Listener

def new : Listener := ⟨0, 0, false⟩

def addOperation (l : Listener) : Listener := { l with operation := l.operation + 1 }

/-- The choice between the two outcomes `enable` and `notifyEnd` make. -/
def readyOrFailures (l : Listener) : Trigger := if l.errors > 0 then .doFailures else .doReady

def enable (l : Listener) : Listener × Option Trigger :=
  let l := { l with enabled := true }
  (l, if l.operation = 0 then some l.readyOrFailures else none)

def notifyEnd (l : Listener) : Listener × Option Trigger :=
  let l := { l with operation := l.operation - 1 }
  (l, if l.operation = 0 ∧ l.enabled = true then some l.readyOrFailures else none)

def notifyFailure (l : Listener) : Listener × Option Trigger :=
  let l := { l with errors := l.errors + 1, operation := l.operation - 1 }
  (l, if l.enabled = true ∧ l.operation = 0 then some .doFailures else none)

end Listener

/-- What a class of listeners does in `doReady` and in `doFailures`, which is
told the number of errors. -/
structure Outcomes (β : Type) where
  doReady : β
  doFailures : (errors : Int) → β

/-- The calls of a `JobTransfersListener` on its execution. -/
inductive ExecutionCall
  | doSubmit
  | failedTransfers (errors : Int)
  deriving DecidableEq, Repr

def JobTransfersListener : Outcomes ExecutionCall := ⟨.doSubmit, .failedTransfers⟩

/-- The call of a `SafeCopyListener` on its semaphore. -/
inductive SemaphoreCall
  | release
  deriving DecidableEq, Repr

def SafeCopyListener : Outcomes SemaphoreCall := ⟨.release, fun _ => .release⟩

/-! ## The listener and the operations it waits for -/

/-- How an operation ends. -/
inductive OpEnd
  | done
  | failed
  deriving DecidableEq, Repr

/-- The listener with its operations: those added that have not ended, how the
others ended, what the threads that left a section are still to call, and what
has been called. -/
structure Transfers (β : Type) where
  listener : Listener
  nextOp : Nat
  running : List Nat
  ends : List OpEnd
  triggers : List Trigger
  calls : List β

inductive Label
  | addOperation
  | enable
  | ended (op : Nat) (e : OpEnd)
  | call
  deriving DecidableEq, Repr

namespace Transfers

variable {β : Type} (o : Outcomes β)

def init : Transfers β := ⟨.new, 0, [], [], [], []⟩

/-- `doReady` or `doFailures`, which reads `errors` out of any section. -/
def perform (l : Listener) : Trigger → β
  | .doReady => o.doReady
  | .doFailures => o.doFailures l.errors

/-- The listener after a section, with what it decided. -/
def leave (s : Transfers β) (r : Listener × Option Trigger) : Transfers β :=
  { s with listener := r.1, triggers := s.triggers ++ r.2.toList }

/-- Operations are added before `enable`, which is called once; each ends once. -/
def step (s : Transfers β) : Label → Option (Transfers β)
  | .addOperation =>
    if s.listener.enabled then none
    else some { s with listener := s.listener.addOperation, nextOp := s.nextOp + 1,
                       running := s.nextOp :: s.running }
  | .enable => if s.listener.enabled then none else some (s.leave s.listener.enable)
  | .ended op e =>
    if op ∈ s.running then
      some { s.leave (match e with
          | .done => s.listener.notifyEnd
          | .failed => s.listener.notifyFailure) with
        running := s.running.erase op, ends := e :: s.ends }
    else none
  | .call =>
    match s.triggers with
    | [] => none
    | t :: ts => some { s with triggers := ts, calls := s.calls ++ [perform o s.listener t] }

/-- `enable` has been called and every operation has ended. -/
def Finished (s : Transfers β) : Prop := s.listener.enabled = true ∧ s.running = []

instance (s : Transfers β) : Decidable s.Finished := by unfold Finished; infer_instance

/-- The failures notified so far. -/
def failures (s : Transfers β) : Nat := s.ends.count .failed

/-- The outcome the operations call for. -/
def outcome (s : Transfers β) : β := if 0 < s.failures then o.doFailures s.failures else o.doReady

/-- Nothing is called before the operations have ended; then the outcome is,
once, as soon as the thread that decided it gets to it. -/
structure TriggeredOnce (s : Transfers β) : Prop where
  afterAll : s.calls ≠ [] → s.Finished
  once : s.calls = [] ∨ s.calls = [outcome o s]
  never_lost : s.Finished → s.triggers = [] → s.calls = [outcome o s]
  pending : s.triggers ≠ [] → s.Finished ∧ s.calls = [] ∧ s.triggers.length = 1

/-! ## The counters -/

/-- The counters are those of the operations, and a section decides on a call
exactly when it is the last. -/
structure Counted (s : Transfers β) : Prop where
  operation : s.listener.operation = s.running.length
  errors : s.listener.errors = s.failures
  early : ¬ s.Finished → s.triggers = [] ∧ s.calls = []
  late : s.Finished → (s.triggers = [s.listener.readyOrFailures] ∧ s.calls = []) ∨
    (s.triggers = [] ∧ s.calls = [outcome o s])

variable {o} {s t : Transfers β}

theorem Counted.init : Counted o (init : Transfers β) where
  operation := rfl
  errors := rfl
  early _ := ⟨rfl, rfl⟩
  late h := by simp [Finished, Transfers.init, Listener.new] at h

theorem Counted.perform (h : Counted o s) : perform o s.listener s.listener.readyOrFailures = outcome o s := by
  have he := h.errors
  unfold Listener.readyOrFailures outcome
  by_cases hf : 0 < s.failures
  · have : s.listener.errors > 0 := by omega
    rw [if_pos this, if_pos hf, Transfers.perform, he]
  · have : ¬ s.listener.errors > 0 := by omega
    rw [if_neg this, if_neg hf, Transfers.perform]

theorem Counted.triggeredOnce (h : Counted o s) : TriggeredOnce o s where
  afterAll hc := by
    by_contra hf
    exact hc (h.early hf).2
  once := by
    by_cases hf : s.Finished
    · rcases h.late hf with ⟨-, hc⟩ | ⟨-, hc⟩
      · exact .inl hc
      · exact .inr hc
    · exact .inl (h.early hf).2
  never_lost hf ht := by
    rcases h.late hf with ⟨ht', -⟩ | ⟨-, hc⟩
    · rw [ht] at ht'; cases ht'
    · exact hc
  pending ht := by
    have hf : s.Finished := by
      by_contra hf
      exact ht (h.early hf).1
    rcases h.late hf with ⟨ht', hc⟩ | ⟨ht', -⟩
    · exact ⟨hf, hc, by simp [ht']⟩
    · exact absurd ht' ht

/-- An operation that ends leaves the rest running, and the section decides on
the outcome exactly when there is no rest. -/
theorem Counted.ended (h : Counted o s) {op : Nat} (hop : op ∈ s.running) (e : OpEnd) :
    step o s (.ended op e) = some t → Counted o t := by
  intro hst
  have hlen : (s.running.erase op).length = s.running.length - 1 := List.length_erase_of_mem hop
  have hpos : 0 < s.running.length := List.length_pos_of_mem hop
  have hnil : s.running.erase op = [] ↔ s.running.length = 1 := by
    rw [← List.length_eq_zero_iff, hlen]; omega
  have hop' := h.operation
  have herr := h.errors
  -- while an operation runs, nothing has been decided
  obtain ⟨htr, hca⟩ := h.early fun hf => by rw [hf.2] at hpos; exact absurd hpos (by decide)
  simp only [step, hop, if_true, Option.some.injEq] at hst
  subst hst
  cases e with
  | done =>
    refine ⟨?_, ?_, fun hf => ?_, fun hf => ?_⟩
    · simp only [leave, Listener.notifyEnd, hlen]; omega
    · simpa [leave, Listener.notifyEnd, failures] using herr
    · simp only [Finished, leave, Listener.notifyEnd, hnil, not_and] at hf
      have hno : ¬ (s.listener.operation - 1 = 0 ∧ s.listener.enabled = true) :=
        fun hc => hf hc.2 (by omega)
      simp [leave, Listener.notifyEnd, htr, hca, hno]
    · simp only [Finished, leave, Listener.notifyEnd, hnil] at hf
      have hzero : s.listener.operation - 1 = 0 := by omega
      refine .inl ⟨?_, hca⟩
      simp [leave, Listener.notifyEnd, htr, hzero, hf.1, Listener.readyOrFailures]
  | failed =>
    refine ⟨?_, ?_, fun hf => ?_, fun hf => ?_⟩
    · simp only [leave, Listener.notifyFailure, hlen]; omega
    · simp only [leave, Listener.notifyFailure, failures, List.count_cons_self] at herr ⊢
      omega
    · simp only [Finished, leave, Listener.notifyFailure, hnil, not_and] at hf
      have hno : ¬ (s.listener.enabled = true ∧ s.listener.operation - 1 = 0) :=
        fun hc => hf hc.1 (by omega)
      simp [leave, Listener.notifyFailure, htr, hca, hno]
    · simp only [Finished, leave, Listener.notifyFailure, hnil] at hf
      have hzero : s.listener.operation - 1 = 0 := by omega
      have hone : s.listener.errors + 1 > 0 := by omega
      refine .inl ⟨?_, hca⟩
      simp [leave, Listener.notifyFailure, htr, hzero, hf.1, Listener.readyOrFailures, hone]

theorem Counted.step {l : Label} (h : Counted o s) (hst : step o s l = some t) : Counted o t := by
  cases l with
  | addOperation =>
    simp only [Transfers.step] at hst
    split at hst
    · cases hst
    next hen =>
    cases hst
    obtain ⟨htr, hca⟩ := h.early fun hf => hen hf.1
    refine ⟨?_, h.errors, fun _ => ⟨htr, hca⟩, fun hf => absurd hf.1 hen⟩
    have := h.operation
    simp only [Listener.addOperation, List.length_cons]
    omega
  | enable =>
    simp only [Transfers.step] at hst
    split at hst
    · cases hst
    next hen =>
    cases hst
    obtain ⟨htr, hca⟩ := h.early fun hf => hen hf.1
    have hop := h.operation
    have hnil : s.running = [] ↔ s.listener.operation = 0 := by
      rw [← List.length_eq_zero_iff]; omega
    refine ⟨hop, h.errors, fun hf => ?_, fun hf => .inl ⟨?_, hca⟩⟩
    · simp only [Finished, leave, Listener.enable, hnil, true_and] at hf
      simp [leave, Listener.enable, htr, hca, hf]
    · simp only [Finished, leave, Listener.enable, hnil, true_and] at hf
      simp [leave, Listener.enable, htr, hf, Listener.readyOrFailures]
  | ended op e =>
    by_cases hop : op ∈ s.running
    · exact h.ended hop e hst
    · simp [Transfers.step, hop] at hst
  | call =>
    simp only [Transfers.step] at hst
    split at hst
    · cases hst
    next tr ts htrs =>
    cases hst
    have hf : s.Finished := by
      by_contra hf
      rw [(h.early hf).1] at htrs
      cases htrs
    rcases h.late hf with ⟨htr, hca⟩ | ⟨htr, -⟩
    · rw [htr] at htrs
      cases htrs
      have hp := h.perform
      refine ⟨h.operation, h.errors, fun hnf => absurd hf hnf, fun _ => .inr ⟨rfl, ?_⟩⟩
      simpa [hca, outcome, failures] using hp
    · rw [htr] at htrs; cases htrs

end Transfers

end Compss
