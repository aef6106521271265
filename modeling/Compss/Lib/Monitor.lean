/-
A queue under a monitor, by its wait set: a consumer that finds the queue empty sleeps,
an item that is added wakes one of those that sleep, and one that has been woken looks
at the queue again when it has the monitor back.

Another consumer may have had the monitor before, and one may wake without having been
notified. `Awake` holds all the same, and is why no wake-up is lost: while someone
sleeps there are at most as many items as consumers on their way to them.
-/
import Mathlib.Data.List.Basic

namespace Lib

structure Monitor (ι α : Type) where
  items : List α
  /-- The wait set. -/
  asleep : List ι
  /-- They have left the wait set, and not got the monitor back. -/
  woken : List ι

namespace Monitor

section
variable {ι α : Type} {m m' : Monitor ι α}

def empty : Monitor ι α := ⟨[], [], []⟩

def notifyAll (m : Monitor ι α) : Monitor ι α := { m with asleep := [], woken := m.woken ++ m.asleep }

def wait (m : Monitor ι α) (i : ι) : Monitor ι α := { m with asleep := m.asleep ++ [i] }

/-- The consumers in `wait`, asleep or not. -/
def waiters (m : Monitor ι α) : List ι := m.asleep ++ m.woken

def Awake (m : Monitor ι α) : Prop := m.asleep ≠ [] → m.items.length ≤ m.woken.length

/-- The queue is left as it is, and everyone in `wait`. -/
structure Wakes (m m' : Monitor ι α) : Prop where
  items : m'.items = m.items
  waiters : m'.waiters.Perm m.waiters

theorem notifyAll_wakes (m : Monitor ι α) : m.Wakes m.notifyAll where
  items := rfl
  waiters := by
    rw [waiters, notifyAll, List.nil_append]
    exact List.perm_append_comm

theorem empty_awake : (empty : Monitor ι α).Awake := fun h => absurd rfl h

theorem notifyAll_awake (m : Monitor ι α) : m.notifyAll.Awake := fun h => absurd rfl h

theorem wait_awake (hempty : m.items = []) (i : ι) : (m.wait i).Awake := fun _ => by
  simp [wait, hempty]

theorem Awake.fewer (hm : m.Awake) {items : List α} (h : items.length ≤ m.items.length) :
    Awake { m with items := items } := fun hasleep => Nat.le_trans h (hm hasleep)

/-- Whoever sleeps is not the only one in `wait`, as long as there is an item. -/
theorem Awake.woken_ne_nil (hm : m.Awake) (hitems : m.items ≠ []) (hasleep : m.asleep ≠ []) : m.woken ≠ [] := by
  intro hnil
  have hlength := hm hasleep
  rw [hnil, List.length_nil, Nat.le_zero, List.length_eq_zero_iff] at hlength
  exact hitems hlength

end

section
variable {ι α : Type} [DecidableEq ι] {m m' : Monitor ι α} {i : ι}

def wake (m : Monitor ι α) (i : ι) : Monitor ι α := { m with asleep := m.asleep.erase i, woken := m.woken ++ [i] }

/-- Any one of those that sleep; nothing happens when there is none. -/
def notify (m : Monitor ι α) : Option ι → Option (Monitor ι α)
  | none => if m.asleep = [] then some m else none
  | some i => if i ∈ m.asleep then some (m.wake i) else none

/-- It has the monitor back. -/
def resume (m : Monitor ι α) (i : ι) : Monitor ι α := { m with woken := m.woken.erase i }

theorem wake_wakes (hi : i ∈ m.asleep) : m.Wakes (m.wake i) where
  items := rfl
  waiters := by
    have hperm : (m.asleep.erase i ++ [i]).Perm m.asleep := List.perm_append_comm.trans (List.perm_cons_erase hi).symm
    have hrest : (m.woken ++ [i]).Perm ([i] ++ m.woken) := List.perm_append_comm
    refine (hrest.append_left _).trans ?_
    rw [← List.append_assoc]
    exact hperm.append_right _

theorem notify_wakes {chosen : Option ι} (h : m.notify chosen = some m') : m.Wakes m' := by
  cases chosen with
  | none =>
    obtain ⟨-, h⟩ := Option.ite_none_right_eq_some.mp h
    cases h
    exact ⟨rfl, .refl _⟩
  | some i =>
    obtain ⟨hi, h⟩ := Option.ite_none_right_eq_some.mp h
    cases h
    exact wake_wakes hi

/-- With nobody asleep a notification does nothing. -/
theorem eq_of_notify {chosen : Option ι} (h : m.notify chosen = some m') (hasleep : m.asleep = []) : m' = m := by
  cases chosen with
  | none =>
    obtain ⟨-, h⟩ := Option.ite_none_right_eq_some.mp h
    exact (Option.some.inj h).symm
  | some i =>
    obtain ⟨hi, -⟩ := Option.ite_none_right_eq_some.mp h
    rw [hasleep] at hi
    cases hi

theorem Awake.wake (hm : m.Awake) (hi : i ∈ m.asleep) : (m.wake i).Awake := fun _ => by
  rw [Monitor.wake, List.length_append]
  exact Nat.le_add_right_of_le (hm (List.ne_nil_of_mem hi))

/-- The item that is added has its own notification. -/
theorem Awake.add (hm : m.Awake) {items : List α} (h : items.length = m.items.length + 1) {chosen : Option ι}
    (hnotify : notify { m with items := items } chosen = some m') : m'.Awake := by
  cases chosen with
  | none =>
    obtain ⟨hnil, h'⟩ := Option.ite_none_right_eq_some.mp hnotify
    cases h'
    exact fun hasleep => absurd hnil hasleep
  | some i =>
    obtain ⟨hi, h'⟩ := Option.ite_none_right_eq_some.mp hnotify
    cases h'
    intro _
    have hlength := hm (List.ne_nil_of_mem hi)
    simp only [Monitor.wake, List.length_append, List.length_singleton, h]
    exact Nat.succ_le_succ hlength

/-- One that has the monitor back takes an item, or finds none. -/
theorem Awake.resume (hm : m.Awake) (hi : i ∈ m.woken) {items : List α} (h : items.length = m.items.length - 1) :
    Awake { m.resume i with items := items } := fun hasleep =>
  calc items.length = m.items.length - 1 := h
    _ ≤ m.woken.length - 1 := Nat.sub_le_sub_right (hm hasleep) 1
    _ = (m.woken.erase i).length := (List.length_erase_of_mem hi).symm

theorem resume_waiters (hi : i ∈ m.woken) : m.waiters.Perm (i :: (m.resume i).waiters) :=
  ((List.perm_cons_erase hi).append_left _).trans List.perm_middle

end

end Monitor

end Lib
