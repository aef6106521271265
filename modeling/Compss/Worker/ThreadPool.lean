/-
`RequestQueue`, `RequestDispatcher` and `ThreadPool`, and the pool of the worker that is
made the same way: threads that take requests from a queue, and sleep while there are
none.

Each synchronized section is one step. A thread that waits leaves the monitor and looks
at the queue again when it has it back. The pool is stopped by one null for each thread,
put before the requests; the semaphore counts the threads that have ended.
-/
import Compss.Lib.Monitor
import Compss.Lib.Run
import Mathlib.Algebra.BigOperators.Group.Finset.Piecewise
import Mathlib.Algebra.Order.BigOperators.Group.Finset
import Mathlib.Data.List.ReduceOption

namespace Compss.Worker

open Lib

abbrev ThreadId := Nat

/-! ## The queue -/

/-- A null stops the thread that takes it. -/
structure RequestQueue (α : Type) extends Monitor ThreadId (Option α) where
  waiting : Nat

namespace RequestQueue

variable {α : Type} (q : RequestQueue α)

def new : RequestQueue α := ⟨.empty, 0⟩

def enqueue (request : α) (notified : Option ThreadId) : Option (RequestQueue α) :=
  (Monitor.notify { q.toMonitor with items := q.items ++ [some request] } notified).map ({ q with toMonitor := · })

/-- One round of the loop of `dequeue`: what is taken, or the thread waits. -/
def dequeue (t : ThreadId) : Option (Option α) × RequestQueue α :=
  match q.items with
  | [] => (none, { q with toMonitor := q.wait t, waiting := q.waiting + 1 })
  | request :: items => (some request, { q with items := items })

/-- `wait` has returned. -/
def wakeUp (t : ThreadId) : RequestQueue α := { q with toMonitor := q.resume t, waiting := q.waiting - 1 }

/-- As many nulls as there are threads, before the requests. Whom a null notifies is
woken with the others at the end. -/
def stop (size : Nat) : RequestQueue α :=
  { q with toMonitor := Monitor.notifyAll { q.toMonitor with items := List.replicate size none ++ q.items } }

end RequestQueue

/-! ## The pool -/

inductive ThreadState (α : Type)
  /-- It is to take a request. -/
  | ready
  /-- In `wait`. -/
  | waits
  | processes (request : α)
  /-- It has taken a null, and is to end. -/
  | leaves
  | ended

/-- Where `stopThreads` is. -/
inductive Stopping
  | notCalled
  | acquires
  | returned
  deriving DecidableEq

structure ThreadPool (α : Type) where
  size : Nat
  queue : RequestQueue α
  /-- The first `size` are there. -/
  thread : ThreadId → ThreadState α
  /-- The permits of the semaphore. -/
  sem : Nat
  stopping : Stopping
  /-- The requests, in the order in which they were enqueued. -/
  offered : List α
  /-- Those handed to a thread, in this order. -/
  taken : List α

inductive PoolLabel (α : Type)
  | enqueue (request : α) (notified : Option ThreadId)
  | dequeue (t : ThreadId)
  /-- A thread wakes that nobody has notified. -/
  | spurious (t : ThreadId)
  /-- A thread has the monitor back, and looks at the queue. -/
  | wakeUp (t : ThreadId)
  | processed (t : ThreadId)
  | threadEnd (t : ThreadId)
  | stopThreads
  /-- `stopThreads` gets the permits of all threads. -/
  | acquire

namespace ThreadPool

variable {α : Type}

/-- `startThreads` has taken the permits the semaphore is made with. -/
def start (size : Nat) : ThreadPool α := ⟨size, .new, fun _ => .ready, 0, .notCalled, [], []⟩

variable (p : ThreadPool α)

def setThread (t : ThreadId) (x : ThreadState α) : ThreadPool α := { p with thread := Function.update p.thread t x }

/-- What a thread that has the monitor finds. -/
def look (t : ThreadId) (q : RequestQueue α) : ThreadPool α :=
  match q.dequeue t with
  | (none, q) => { p.setThread t .waits with queue := q }
  | (some none, q) => { p.setThread t .leaves with queue := q }
  | (some (some request), q) => { p.setThread t (.processes request) with queue := q, taken := p.taken ++ [request] }

def step (p : ThreadPool α) : PoolLabel α → Option (ThreadPool α)
  | .enqueue request notified =>
    (p.queue.enqueue request notified).map fun q => { p with queue := q, offered := p.offered ++ [request] }
  | .dequeue t =>
    match p.thread t with
    | .ready => if t < p.size then some (p.look t p.queue) else none
    | _ => none
  | .spurious t => if t ∈ p.queue.asleep then some { p with queue := { p.queue with toMonitor := p.queue.wake t } } else none
  | .wakeUp t => if t ∈ p.queue.woken then some (p.look t (p.queue.wakeUp t)) else none
  | .processed t =>
    match p.thread t with
    | .processes _ => if t < p.size then some (p.setThread t .ready) else none
    | _ => none
  | .threadEnd t =>
    match p.thread t with
    | .leaves => if t < p.size then some { p.setThread t .ended with sem := p.sem + 1 } else none
    | _ => none
  | .stopThreads =>
    if p.stopping = .notCalled then some { p with queue := p.queue.stop p.size, stopping := .acquires } else none
  | .acquire =>
    if p.stopping = .acquires ∧ p.size ≤ p.sem then some { p with sem := p.sem - p.size, stopping := .returned } else none

end ThreadPool

/-! ## What holds of a pool -/

namespace ThreadState

variable {α : Type}

/-- It has taken a null. -/
def gone : ThreadState α → Nat
  | leaves | ended => 1
  | ready | waits | processes _ => 0

def released : ThreadState α → Nat
  | ended => 1
  | ready | waits | processes _ | leaves => 0

/-- The steps it has still to take once the pool is being stopped. -/
def work : ThreadState α → Nat
  | processes _ => 3
  | ready | waits => 2
  | leaves => 1
  | ended => 0

end ThreadState

namespace ThreadPool

variable {α : Type} {p p' : ThreadPool α} {t : ThreadId}

def total (f : ThreadState α → Nat) (p : ThreadPool α) : Nat := ∑ t ∈ Finset.range p.size, f (p.thread t)

theorem setThread_total (f : ThreadState α → Nat) (ht : t < p.size) (x : ThreadState α) :
    (p.setThread t x).total f + f (p.thread t) = p.total f + f x := by
  have hmem : t ∈ Finset.range p.size := Finset.mem_range.mpr ht
  have hcomp : ∀ u, f (Function.update p.thread t x u) = Function.update (fun u => f (p.thread u)) t (f x) u := fun u =>
    (Function.apply_update (fun _ => f) p.thread t x u).trans rfl
  have hnew : (p.setThread t x).total f = f x + ∑ u ∈ Finset.range p.size \ {t}, f (p.thread u) := by
    rw [total, setThread, Finset.sum_congr rfl fun u _ => hcomp u, Finset.sum_update_of_mem hmem]
  have hold : p.total f = f (p.thread t) + ∑ u ∈ Finset.range p.size \ {t}, f (p.thread u) :=
    Finset.sum_eq_add_sum_sdiff_singleton t _ fun h => absurd hmem h
  rw [hnew, hold]
  omega

/-- The nulls of the queue stand before the requests, one for each thread that has not
taken its own. -/
def Stops (p : ThreadPool α) : Prop :=
  ∃ (k : Nat) (rest : List α), p.queue.items = List.replicate k none ++ rest.map some ∧
    k + p.total ThreadState.gone = if p.stopping = .notCalled then 0 else p.size

structure Sound (p : ThreadPool α) : Prop where
  waits : ∀ t, t ∈ p.queue.waiters ↔ t < p.size ∧ p.thread t = .waits
  nodup : p.queue.waiters.Nodup
  waiting : p.queue.waiting = p.queue.waiters.length
  awake : p.queue.Awake
  taken : p.offered = p.taken ++ p.queue.items.reduceOption
  stops : p.Stops
  sem : p.stopping ≠ .returned → p.sem = p.total ThreadState.released
  returned : p.stopping = .returned → p.total ThreadState.released = p.size

theorem start_sound (size : Nat) : (start size : ThreadPool α).Sound where
  waits t := by simp [start, RequestQueue.new, Monitor.empty, Monitor.waiters]
  nodup := List.nodup_nil
  waiting := rfl
  awake := Monitor.empty_awake
  taken := rfl
  stops := ⟨0, [], rfl, by simp [total, start, ThreadState.gone]⟩
  sem _ := by simp [total, start, ThreadState.released]
  returned h := by cases h

/-! ## One step -/

theorem setThread_thread (x : ThreadState α) (u : ThreadId) : (p.setThread t x).thread u = if u = t then x else p.thread u := by
  simp [setThread, Function.update_apply]

/-- A thread has the monitor, and its place in `wait` is gone if it had one. -/
structure Looks (p : ThreadPool α) (t : ThreadId) (q : RequestQueue α) : Prop where
  lt : t < p.size
  items : q.items = p.queue.items
  waits : ∀ u, u ∈ q.waiters ↔ u ≠ t ∧ u < p.size ∧ p.thread u = .waits
  nodup : q.waiters.Nodup
  waiting : q.waiting = q.waiters.length
  awake : ∀ items : List (Option α), items.length = q.items.length - 1 → Monitor.Awake { q.toMonitor with items := items }
  gone : (p.thread t).gone = 0
  released : (p.thread t).released = 0

/-- It is not waiting afterwards. -/
theorem Looks.waits_of_ne {q : RequestQueue α} (h : p.Looks t q) {x : ThreadState α} (hx : x ≠ .waits) (u : ThreadId) :
    u ∈ q.waiters ↔ u < p.size ∧ (p.setThread t x).thread u = .waits := by
  rw [h.waits, setThread_thread]
  by_cases hu : u = t
  · simp [hu, hx]
  · simp [hu]

theorem Looks.released_of {q : RequestQueue α} (h : p.Looks t q) {x : ThreadState α} (hx : x.released = 0) :
    (p.setThread t x).total ThreadState.released = p.total ThreadState.released := by
  have htotal := setThread_total ThreadState.released h.lt x
  rw [h.released, hx] at htotal
  simpa using htotal

theorem Sound.look {q : RequestQueue α} (hp : p.Sound) (h : p.Looks t q) : (p.look t q).Sound := by
  obtain ⟨k, rest, hitems, hcount⟩ := hp.stops
  have hgone : ∀ {x : ThreadState α}, (p.setThread t x).total ThreadState.gone = p.total ThreadState.gone + x.gone := fun {x} => by
    have htotal := setThread_total ThreadState.gone h.lt x
    rwa [h.gone, Nat.add_zero] at htotal
  have htaken := hp.taken
  rw [← h.items] at hitems htaken
  cases hq : q.items with
  | nil =>
    have hlook : p.look t q = { p.setThread t .waits with
        queue := { q with toMonitor := q.wait t, waiting := q.waiting + 1 } } := by
      rw [ThreadPool.look, RequestQueue.dequeue]
      simp only [hq]
    have hnew : (Monitor.waiters (q.wait t)).Perm (t :: q.waiters) := by
      rw [Monitor.waiters, Monitor.wait, List.append_assoc, List.singleton_append]
      exact List.perm_middle
    rw [hlook]
    exact {
      waits := fun u => by
        rw [hnew.mem_iff, List.mem_cons, h.waits]
        change _ ↔ u < p.size ∧ (p.setThread t .waits).thread u = .waits
        rw [setThread_thread]
        by_cases hu : u = t
        · simp [hu, h.lt]
        · simp [hu]
      nodup := hnew.nodup_iff.mpr (List.nodup_cons.mpr ⟨fun hmem => ((h.waits t).mp hmem).1 rfl, h.nodup⟩)
      waiting := by rw [hnew.length_eq, List.length_cons, ← h.waiting]
      awake := Monitor.wait_awake hq t
      taken := htaken
      stops := ⟨k, rest, hitems, (congrArg (k + ·) (hgone.trans (Nat.add_zero _))).trans hcount⟩
      sem := fun hs => (hp.sem hs).trans (h.released_of rfl).symm
      returned := fun hs => (h.released_of rfl).trans (hp.returned hs) }
  | cons request items =>
    have hawake := h.awake items (by rw [hq]; rfl)
    rw [hq] at hitems htaken
    cases request with
    | none =>
      have hlook : p.look t q = { p.setThread t .leaves with queue := { q with items := items } } := by
        rw [ThreadPool.look, RequestQueue.dequeue]
        simp only [hq]
      -- Only the nulls that stop the pool are in front.
      obtain ⟨j, rfl⟩ : ∃ j, k = j + 1 := by
        cases k with
        | succ j => exact ⟨j, rfl⟩
        | zero =>
          cases rest with
          | nil => cases hitems
          | cons r rest => cases (List.cons.inj hitems).1
      have hmove : j + (p.total ThreadState.gone + 1) = j + 1 + p.total ThreadState.gone := by omega
      rw [hlook]
      exact {
        waits := h.waits_of_ne (by simp)
        nodup := h.nodup
        waiting := h.waiting
        awake := hawake
        taken := htaken
        stops := ⟨j, rest, (List.cons.inj hitems).2,
          (congrArg (j + ·) hgone).trans (hmove.trans hcount)⟩
        sem := fun hs => (hp.sem hs).trans (h.released_of rfl).symm
        returned := fun hs => (h.released_of rfl).trans (hp.returned hs) }
    | some r =>
      have hlook : p.look t q = { p.setThread t (.processes r) with
          queue := { q with items := items }, taken := p.taken ++ [r] } := by
        rw [ThreadPool.look, RequestQueue.dequeue]
        simp only [hq]
      have hnone : k = 0 := by
        cases k with
        | zero => rfl
        | succ j => cases (List.cons.inj hitems).1
      subst hnone
      obtain ⟨r', rest, rfl⟩ : ∃ r' rest', rest = r' :: rest' := by
        cases rest with
        | nil => cases hitems
        | cons r' rest => exact ⟨r', rest, rfl⟩
      rw [hlook]
      exact {
        waits := h.waits_of_ne (by simp)
        nodup := h.nodup
        waiting := h.waiting
        awake := hawake
        taken := htaken.trans (by simp [List.reduceOption_cons_of_some])
        stops := ⟨0, rest, (List.cons.inj hitems).2, (congrArg (0 + ·) (hgone.trans (Nat.add_zero _))).trans hcount⟩
        sem := fun hs => (hp.sem hs).trans (h.released_of rfl).symm
        returned := fun hs => (h.released_of rfl).trans (hp.returned hs) }

/-- A thread that does not wait moves on, and takes nothing. -/
theorem Sound.setThread (hp : p.Sound) (ht : t < p.size) {x : ThreadState α} (hx : x ≠ .waits) (hwaits : p.thread t ≠ .waits)
    (hgone : x.gone = (p.thread t).gone) {sem : Nat}
    (hsem : p.stopping ≠ .returned → sem = (p.setThread t x).total ThreadState.released)
    (hreturned : p.stopping = .returned → (p.setThread t x).total ThreadState.released = p.size) :
    Sound { p.setThread t x with sem := sem } where
  waits u := by
    change u ∈ p.queue.waiters ↔ u < p.size ∧ (p.setThread t x).thread u = .waits
    rw [hp.waits, setThread_thread]
    by_cases hu : u = t
    · simp [hu, hx, hwaits]
    · simp [hu]
  nodup := hp.nodup
  waiting := hp.waiting
  awake := hp.awake
  taken := hp.taken
  stops := by
    obtain ⟨k, rest, hitems, hcount⟩ := hp.stops
    have htotal := setThread_total ThreadState.gone ht x
    rw [hgone] at htotal
    exact ⟨k, rest, hitems, (congrArg (k + ·) (Nat.add_right_cancel htotal)).trans hcount⟩
  sem := hsem
  returned := hreturned

theorem Sound.looks_of_ready (hp : p.Sound) (ht : t < p.size) (hready : p.thread t = .ready) : p.Looks t p.queue where
  lt := ht
  items := rfl
  waits u := by
    rw [hp.waits]
    refine ⟨fun h => ⟨fun hu => ?_, h⟩, fun h => h.2⟩
    rw [hu, hready] at h
    cases h.2
  nodup := hp.nodup
  waiting := hp.waiting
  awake items h := hp.awake.fewer (h ▸ Nat.sub_le _ 1)
  gone := by rw [hready]; rfl
  released := by rw [hready]; rfl

theorem Sound.looks_of_woken (hp : p.Sound) (hwoken : t ∈ p.queue.woken) : p.Looks t (p.queue.wakeUp t) := by
  have hperm : p.queue.waiters.Perm (t :: (p.queue.resume t).waiters) := Monitor.resume_waiters hwoken
  have hnodup := List.nodup_cons.mp (hperm.nodup_iff.mp hp.nodup)
  obtain ⟨hlt, hstate⟩ := (hp.waits t).mp (hperm.mem_iff.mpr (by simp))
  exact {
    lt := hlt
    items := rfl
    waits := fun u => by
      rw [← hp.waits, hperm.mem_iff, List.mem_cons]
      refine ⟨fun h => ⟨fun hu => hnodup.1 (hu ▸ h), .inr h⟩, fun h => h.2.resolve_left h.1⟩
    nodup := hnodup.2
    waiting := by
      have hlength := hperm.length_eq
      rw [List.length_cons] at hlength
      change p.queue.waiting - 1 = (p.queue.resume t).waiters.length
      rw [hp.waiting, hlength, Nat.add_sub_cancel]
    awake := fun items h => hp.awake.resume hwoken h
    gone := by rw [hstate]; rfl
    released := by rw [hstate]; rfl }

/-- The wait set changes, and nothing else. -/
theorem Sound.wakes (hp : p.Sound) {m : Monitor ThreadId (Option α)} (h : p.queue.Wakes m) (hm : m.Awake) :
    Sound { p with queue := { p.queue with toMonitor := m } } where
  waits t := h.waiters.mem_iff.trans (hp.waits t)
  nodup := h.waiters.nodup_iff.mpr hp.nodup
  waiting := hp.waiting.trans h.waiters.length_eq.symm
  awake := hm
  taken := by
    change p.offered = p.taken ++ m.items.reduceOption
    rw [h.items]
    exact hp.taken
  stops := by
    obtain ⟨k, rest, hitems, hcount⟩ := hp.stops
    exact ⟨k, rest, h.items.trans hitems, hcount⟩
  sem := hp.sem
  returned := hp.returned

theorem Sound.enqueue (hp : p.Sound) {request : α} {notified : Option ThreadId} {q : RequestQueue α}
    (h : p.queue.enqueue request notified = some q) : Sound { p with queue := q, offered := p.offered ++ [request] } := by
  obtain ⟨m, hm, rfl⟩ := Option.map_eq_some_iff.mp h
  have hawake : m.Awake := hp.awake.add (by simp) hm
  have hwakes := Monitor.notify_wakes hm
  obtain ⟨k, rest, hitems, hcount⟩ := hp.stops
  exact {
    waits := fun t => hwakes.waiters.mem_iff.trans (hp.waits t)
    nodup := hwakes.waiters.nodup_iff.mpr hp.nodup
    waiting := hp.waiting.trans hwakes.waiters.length_eq.symm
    awake := hawake
    taken := by
      change p.offered ++ [request] = p.taken ++ m.items.reduceOption
      rw [hwakes.items, hp.taken]
      simp [List.reduceOption_append]
    stops := ⟨k, rest ++ [request], hwakes.items.trans (by simp [hitems]), hcount⟩
    sem := hp.sem
    returned := hp.returned }

theorem Sound.stop (hp : p.Sound) (h : p.stopping = .notCalled) :
    Sound { p with queue := p.queue.stop p.size, stopping := .acquires } := by
  have hwakes := Monitor.notifyAll_wakes { p.queue.toMonitor with items := List.replicate p.size none ++ p.queue.items }
  obtain ⟨k, rest, hitems, hcount⟩ := hp.stops
  rw [if_pos h] at hcount
  obtain ⟨rfl, hgone⟩ := Nat.add_eq_zero_iff.mp hcount
  exact {
    waits := fun t => hwakes.waiters.mem_iff.trans (hp.waits t)
    nodup := hwakes.waiters.nodup_iff.mpr hp.nodup
    waiting := hp.waiting.trans hwakes.waiters.length_eq.symm
    awake := Monitor.notifyAll_awake _
    taken := by
      change p.offered = p.taken ++ (List.replicate p.size none ++ p.queue.items).reduceOption
      rw [List.reduceOption_append, List.reduceOption_replicate_none, List.nil_append]
      exact hp.taken
    stops := ⟨p.size, rest, congrArg (List.replicate p.size none ++ ·) hitems, congrArg (p.size + ·) hgone⟩
    sem := fun _ => hp.sem (by simp [h])
    returned := fun hr => by cases hr }

theorem total_released_le (p : ThreadPool α) : p.total ThreadState.released ≤ p.size := by
  have hle : p.total ThreadState.released ≤ ∑ _t ∈ Finset.range p.size, 1 :=
    Finset.sum_le_sum fun t _ => by cases p.thread t <;> simp [ThreadState.released]
  simpa using hle

theorem Sound.step (hp : p.Sound) {l : PoolLabel α} (h : p.step l = some p') : p'.Sound := by
  cases l with
  | enqueue request notified =>
    obtain ⟨q, hq, rfl⟩ := Option.map_eq_some_iff.mp h
    exact hp.enqueue hq
  | dequeue t =>
    simp only [ThreadPool.step] at h
    split at h
    next hready =>
      obtain ⟨ht, h⟩ := Option.ite_none_right_eq_some.mp h
      cases h
      exact hp.look (hp.looks_of_ready ht hready)
    next => cases h
  | spurious t =>
    obtain ⟨ht, h⟩ := Option.ite_none_right_eq_some.mp h
    cases h
    exact hp.wakes (Monitor.wake_wakes ht) (hp.awake.wake ht)
  | wakeUp t =>
    obtain ⟨ht, h⟩ := Option.ite_none_right_eq_some.mp h
    cases h
    exact hp.look (hp.looks_of_woken ht)
  | processed t =>
    simp only [ThreadPool.step] at h
    split at h
    next request hstate =>
      obtain ⟨ht, h⟩ := Option.ite_none_right_eq_some.mp h
      cases h
      have hreleased : (p.setThread t .ready).total ThreadState.released = p.total ThreadState.released := by
        have htotal := setThread_total ThreadState.released ht .ready
        rw [hstate] at htotal
        simpa [ThreadState.released] using htotal
      exact hp.setThread ht (by simp) (by simp [hstate]) (by rw [hstate]; rfl) (fun hs => (hp.sem hs).trans hreleased.symm)
        fun hs => hreleased.trans (hp.returned hs)
    next => cases h
  | threadEnd t =>
    simp only [ThreadPool.step] at h
    split at h
    next hstate =>
      obtain ⟨ht, h⟩ := Option.ite_none_right_eq_some.mp h
      cases h
      have hreleased : (p.setThread t .ended).total ThreadState.released = p.total ThreadState.released + 1 := by
        have htotal := setThread_total ThreadState.released ht .ended
        rw [hstate] at htotal
        simpa [ThreadState.released] using htotal
      refine hp.setThread ht (by simp) (by simp [hstate]) (by rw [hstate]; rfl) (fun hs => ?_) fun hs => ?_
      · rw [hreleased, hp.sem hs]
      · -- Before the last thread has ended nothing has returned.
        have hle := total_released_le (p.setThread t .ended)
        rw [hreleased, hp.returned hs] at hle
        exact absurd hle (Nat.not_succ_le_self _)
    next => cases h
  | stopThreads =>
    obtain ⟨hs, h⟩ := Option.ite_none_right_eq_some.mp h
    cases h
    exact hp.stop hs
  | acquire =>
    obtain ⟨⟨hs, hsem⟩, h⟩ := Option.ite_none_right_eq_some.mp h
    cases h
    have hreleased : p.total ThreadState.released = p.size :=
      Nat.le_antisymm (total_released_le p) (by rwa [← hp.sem (by simp [hs])])
    obtain ⟨k, rest, hitems, hcount⟩ := hp.stops
    rw [if_neg (by simp [hs])] at hcount
    exact { hp with
      stops := ⟨k, rest, hitems, hcount⟩
      sem := fun hr => absurd rfl hr
      returned := fun _ => hreleased }

/-! ## Requests and threads -/

/-- It has a step to take, and waits for nobody. -/
def CanMove (p : ThreadPool α) (t : ThreadId) : Prop :=
  p.thread t = .ready ∨ t ∈ p.queue.woken ∨ (∃ request, p.thread t = .processes request) ∨ p.thread t = .leaves

theorem Sound.canMove (hp : p.Sound) (ht : t < p.size) (hstate : p.thread t ≠ .ended) (hasleep : t ∉ p.queue.asleep) :
    p.CanMove t := by
  cases hthread : p.thread t with
  | ready => exact .inl hthread
  | waits =>
    have hmem := (hp.waits t).mpr ⟨ht, hthread⟩
    exact .inr (.inl ((List.mem_append.mp hmem).resolve_left hasleep))
  | processes request => exact .inr (.inr (.inl ⟨request, hthread⟩))
  | leaves => exact .inr (.inr (.inr hthread))
  | ended => exact absurd hthread hstate

structure Serves (p : ThreadPool α) : Prop where
  /-- A request is handed out once at most, in its turn, and is in the queue until then. -/
  offered : p.offered = p.taken ++ p.queue.items.reduceOption
  waiting : p.queue.waiting = p.queue.waiters.length
  /-- A thread sleeps beside a request only while as many others are on their way as there are requests. -/
  asleep : p.queue.asleep ≠ [] → p.queue.items.length ≤ p.queue.woken.length
  /-- The pool comes to rest with a request in the queue only when all its threads have ended. -/
  rests : p.queue.items ≠ [] → (∀ t < p.size, ¬ p.CanMove t) → ∀ t < p.size, p.thread t = .ended

theorem Sound.serves (hp : p.Sound) : p.Serves := by
  refine ⟨hp.taken, hp.waiting, hp.awake, fun hitems hstuck t ht => by_contra fun hstate => ?_⟩
  by_cases hasleep : t ∈ p.queue.asleep
  · -- Someone is on its way to the request.
    obtain ⟨u, hu⟩ := List.exists_mem_of_ne_nil _ (hp.awake.woken_ne_nil hitems (List.ne_nil_of_mem hasleep))
    have hwaits := (hp.waits u).mp (List.mem_append_right _ hu)
    exact hstuck u hwaits.1 (.inr (.inl hu))
  · exact hstuck t ht (hp.canMove ht hstate hasleep)

/-- However the threads and the callers of `enqueue` interleave, and whoever is woken, no request is lost or handed out
twice and no notification is missed. -/
theorem serves_always (size : Nat) (labels : List (PoolLabel α)) : Always ThreadPool.step Serves (start size) labels :=
  always_of_along (fun _ hp => hp.serves) (fun _ _ _ hp _ hstep => hp.step hstep) (start_sound size) (along_true labels)

/-! ## The end of the pool -/

theorem total_gone_lt (ht : t < p.size) (hgone : (p.thread t).gone = 0) : p.total ThreadState.gone < p.size := by
  have hmem : t ∈ Finset.range p.size := Finset.mem_range.mpr ht
  have hlt : p.total ThreadState.gone < ∑ _u ∈ Finset.range p.size, 1 :=
    Finset.sum_lt_sum (fun u _ => by cases p.thread u <;> simp [ThreadState.gone]) ⟨t, hmem, by simp [hgone]⟩
  simpa using hlt

/-- As long as a thread has not taken its null, one is at the front. -/
theorem Sound.null_first (hp : p.Sound) (hs : p.stopping ≠ .notCalled) (ht : t < p.size) (hgone : (p.thread t).gone = 0) :
    ∃ items, p.queue.items = none :: items := by
  obtain ⟨k, rest, hitems, hcount⟩ := hp.stops
  rw [if_neg hs] at hcount
  have hlt := total_gone_lt ht hgone
  cases k with
  | zero => omega
  | succ k => exact ⟨_, hitems.trans (by rw [List.replicate_succ, List.cons_append])⟩

/-- It leaves, when it looks at the queue. -/
theorem look_of_null {q : RequestQueue α} {items : List (Option α)} (h : q.items = none :: items) :
    p.look t q = { p.setThread t .leaves with queue := { q with items := items } } := by
  rw [ThreadPool.look, RequestQueue.dequeue]
  simp only [h]

/-- A thread looks at the queue and finds its null. -/
theorem Sound.look_stopping (hp : p.Sound) (hs : p.stopping ≠ .notCalled) {q : RequestQueue α} (h : p.Looks t q) :
    ∃ items, p.look t q = { p.setThread t .leaves with queue := { q with items := items } } := by
  obtain ⟨items, hitems⟩ := hp.null_first hs h.lt h.gone
  exact ⟨items, look_of_null (h.items.trans hitems)⟩

/-- `stopThreads` has put its nulls into the queue, and nobody sleeps any more. -/
structure Stopped (p : ThreadPool α) : Prop extends p.Sound where
  stopped : p.stopping ≠ .notCalled
  asleep : p.queue.asleep = []

def PoolLabel.ofThread : PoolLabel α → Bool
  | .dequeue _ | .spurious _ | .wakeUp _ | .processed _ | .threadEnd _ => true
  | .enqueue .. | .stopThreads | .acquire => false

/-- A step of a pool that is being stopped. -/
structure Ends (p p' : ThreadPool α) (l : PoolLabel α) : Prop extends p'.Stopped where
  taken' : p'.taken = p.taken
  size : p'.size = p.size
  work : p'.total ThreadState.work + (if PoolLabel.ofThread l then 1 else 0) ≤ p.total ThreadState.work

theorem setThread_work (ht : t < p.size) {x : ThreadState α} (hx : x.work + 1 ≤ (p.thread t).work) :
    (p.setThread t x).total ThreadState.work + 1 ≤ p.total ThreadState.work := by
  have htotal := setThread_total ThreadState.work ht x
  omega

theorem Stopped.look (hp : p.Stopped) {q : RequestQueue α} (h : p.Looks t q) (hq : q.asleep = [])
    (hwork : (p.thread t).work = 2) {l : PoolLabel α} (hl : PoolLabel.ofThread l = true) : p.Ends (p.look t q) l := by
  have hsound := hp.toSound.look h
  obtain ⟨items, hlook⟩ := hp.look_stopping hp.stopped h
  have hless := setThread_work h.lt (x := .leaves) (by rw [hwork]; rfl)
  rw [hlook] at hsound ⊢
  exact ⟨⟨hsound, hp.stopped, hq⟩, rfl, rfl, by rw [if_pos hl]; exact hless⟩

theorem Stopped.step (hp : p.Stopped) {l : PoolLabel α} (h : p.step l = some p') : p.Ends p' l := by
  have hsound := hp.toSound.step h
  cases l with
  | enqueue request notified =>
    obtain ⟨q, hq, rfl⟩ := Option.map_eq_some_iff.mp h
    obtain ⟨m, hm, rfl⟩ := Option.map_eq_some_iff.mp hq
    have hsame := Monitor.eq_of_notify hm hp.asleep
    exact ⟨⟨hsound, hp.stopped, by rw [hsame]; exact hp.asleep⟩, rfl, rfl, le_rfl⟩
  | dequeue t =>
    simp only [ThreadPool.step] at h
    split at h
    next hready =>
      obtain ⟨ht, h⟩ := Option.ite_none_right_eq_some.mp h
      cases h
      exact hp.look (hp.looks_of_ready ht hready) hp.asleep (by rw [hready]; rfl) rfl
    next => cases h
  | spurious t =>
    obtain ⟨ht, -⟩ := Option.ite_none_right_eq_some.mp h
    rw [hp.asleep] at ht
    cases ht
  | wakeUp t =>
    obtain ⟨ht, h⟩ := Option.ite_none_right_eq_some.mp h
    cases h
    have hstate := ((hp.waits t).mp (List.mem_append_right _ ht)).2
    exact hp.look (hp.looks_of_woken ht) hp.asleep (by rw [hstate]; rfl) rfl
  | processed t =>
    simp only [ThreadPool.step] at h
    split at h
    next request hstate =>
      obtain ⟨ht, h⟩ := Option.ite_none_right_eq_some.mp h
      cases h
      exact ⟨⟨hsound, hp.stopped, hp.asleep⟩, rfl, rfl, setThread_work ht (by rw [hstate]; exact le_rfl)⟩
    next => cases h
  | threadEnd t =>
    simp only [ThreadPool.step] at h
    split at h
    next hstate =>
      obtain ⟨ht, h⟩ := Option.ite_none_right_eq_some.mp h
      cases h
      exact ⟨⟨hsound, hp.stopped, hp.asleep⟩, rfl, rfl, setThread_work ht (by rw [hstate]; exact le_rfl)⟩
    next => cases h
  | stopThreads =>
    obtain ⟨hs, -⟩ := Option.ite_none_right_eq_some.mp h
    exact absurd hs hp.stopped
  | acquire =>
    obtain ⟨⟨hs, hsem⟩, h⟩ := Option.ite_none_right_eq_some.mp h
    cases h
    exact ⟨⟨hsound, by simp, hp.asleep⟩, rfl, rfl, le_rfl⟩

theorem look_stopping_eq (q : RequestQueue α) : (p.look t q).stopping = p.stopping := by
  rw [ThreadPool.look]
  split <;> rfl

/-- Only `stopThreads` begins the end. -/
theorem stopThreads_of_step {l : PoolLabel α} (h : p.step l = some p') (hs : p.stopping = .notCalled)
    (hs' : p'.stopping ≠ .notCalled) : l = .stopThreads := by
  by_contra hl
  refine hs' ?_
  cases l with
  | enqueue request notified =>
    obtain ⟨q, -, rfl⟩ := Option.map_eq_some_iff.mp h
    exact hs
  | dequeue t =>
    simp only [ThreadPool.step] at h
    split at h
    next =>
      obtain ⟨-, h⟩ := Option.ite_none_right_eq_some.mp h
      cases h
      rw [look_stopping_eq, hs]
    next => cases h
  | spurious t =>
    obtain ⟨-, h⟩ := Option.ite_none_right_eq_some.mp h
    cases h
    exact hs
  | wakeUp t =>
    obtain ⟨-, h⟩ := Option.ite_none_right_eq_some.mp h
    cases h
    rw [look_stopping_eq, hs]
  | processed t =>
    simp only [ThreadPool.step] at h
    split at h
    next =>
      obtain ⟨-, h⟩ := Option.ite_none_right_eq_some.mp h
      cases h
      exact hs
    next => cases h
  | threadEnd t =>
    simp only [ThreadPool.step] at h
    split at h
    next =>
      obtain ⟨-, h⟩ := Option.ite_none_right_eq_some.mp h
      cases h
      exact hs
    next => cases h
  | stopThreads => exact absurd rfl hl
  | acquire =>
    obtain ⟨⟨hs'', -⟩, -⟩ := Option.ite_none_right_eq_some.mp h
    rw [hs] at hs''
    cases hs''

theorem stopped_of_run {size : Nat} {labels : List (PoolLabel α)} (h : run ThreadPool.step (start size) labels = some p)
    (hs : p.stopping ≠ .notCalled) : p.Stopped := by
  have hinv := run_invariant_of_step (I := fun p : ThreadPool α => p.Sound ∧ (p.stopping ≠ .notCalled → p.queue.asleep = []))
    (fun p l p' hp hstep => by
      refine ⟨hp.1.step hstep, fun hs' => ?_⟩
      by_cases hs : p.stopping = .notCalled
      · obtain rfl := stopThreads_of_step hstep hs hs'
        obtain ⟨-, hstep⟩ := Option.ite_none_right_eq_some.mp hstep
        cases hstep
        rfl
      · exact (Stopped.step ⟨hp.1, hs, hp.2 hs⟩ hstep).asleep)
    ⟨start_sound size, fun hs => absurd rfl hs⟩ h
  exact ⟨hinv.1, hs, hinv.2 hs⟩

theorem total_work_le (p : ThreadPool α) : p.total ThreadState.work ≤ 3 * p.size := by
  have hle : p.total ThreadState.work ≤ ∑ _t ∈ Finset.range p.size, 3 :=
    Finset.sum_le_sum fun t _ => by cases p.thread t <;> simp [ThreadState.work]
  simpa [Nat.mul_comm] using hle

theorem total_released_eq (p : ThreadPool α) : p.total ThreadState.released = p.size ↔ ∀ t < p.size, p.thread t = .ended := by
  have hone : p.size = ∑ _t ∈ Finset.range p.size, 1 := by simp
  constructor
  · intro h t ht
    by_contra hstate
    have hlt : p.total ThreadState.released < ∑ _u ∈ Finset.range p.size, 1 := by
      refine Finset.sum_lt_sum (fun u _ => by cases p.thread u <;> simp [ThreadState.released]) ⟨t, Finset.mem_range.mpr ht, ?_⟩
      cases hthread : p.thread t <;> simp_all [ThreadState.released]
    rw [h, ← hone] at hlt
    exact Nat.lt_irrefl _ hlt
  · intro h
    conv_rhs => rw [hone]
    exact Finset.sum_congr rfl fun t ht => by rw [h t (Finset.mem_range.mp ht)]; rfl

end ThreadPool

end Compss.Worker
