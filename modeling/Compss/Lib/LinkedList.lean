/-
Linked lists with fail-fast iterators: a list counts its structural
modifications, an iterator remembers the count it started with.

`hasNext` compares the cursor with the size the list has now, and only `next`
looks at the count: a loop whose body edits its own list may therefore end
early and in silence instead of raising (`forEach_edited`).
-/
import Compss.Lib.Java
import Mathlib.Data.List.Basic

namespace Lib

structure LinkedList (α : Type) where
  elems : List α
  modCount : Nat
  deriving DecidableEq, Repr

namespace LinkedList

variable {α : Type}

def empty : LinkedList α := ⟨[], 0⟩

def size (l : LinkedList α) : Nat := l.elems.length

def add (l : LinkedList α) (a : α) : LinkedList α := ⟨l.elems ++ [a], l.modCount + 1⟩

def clear (l : LinkedList α) : LinkedList α := ⟨[], l.modCount + 1⟩

/-- Removes the first occurrence; a list without one is not modified. -/
def remove [DecidableEq α] (l : LinkedList α) (a : α) : LinkedList α :=
  if a ∈ l.elems then ⟨l.elems.erase a, l.modCount + 1⟩ else l

@[simp] theorem clear_elems (l : LinkedList α) : l.clear.elems = [] := rfl

@[simp] theorem remove_elems [DecidableEq α] (l : LinkedList α) (a : α) :
    (l.remove a).elems = l.elems.erase a := by
  rw [remove]
  split
  · rfl
  · next h => exact (List.erase_of_not_mem h).symm

theorem modCount_le_remove [DecidableEq α] (l : LinkedList α) (a : α) :
    l.modCount ≤ (l.remove a).modCount := by
  rw [remove]
  split
  · exact Nat.le_succ _
  · exact Nat.le_refl _

theorem modCount_lt_remove [DecidableEq α] {l : LinkedList α} {a : α} (h : a ∈ l.elems) :
    l.modCount < (l.remove a).modCount := by
  rw [remove, if_pos h]
  exact Nat.lt_succ_self _

structure Iter where
  nextIndex : Nat
  expectedModCount : Nat

def iterator (l : LinkedList α) : Iter := ⟨0, l.modCount⟩

def Iter.hasNext (it : Iter) (l : LinkedList α) : Bool := it.nextIndex < l.size

/-- Nothing when the list was modified behind the iterator. -/
def Iter.next (it : Iter) (l : LinkedList α) : Option (α × Iter) :=
  if l.modCount = it.expectedModCount then
    l.elems[it.nextIndex]?.map fun a => (a, { it with nextIndex := it.nextIndex + 1 })
  else none

end LinkedList

namespace Java

open LinkedList

variable {ε σ α β : Type}

/-- `for (α a : list) acc = body(acc, a)`, where `list` reads the list in the
state the loop has reached. `modified` is raised by a `next` on a list modified
meanwhile, `noReturn` when the loop is not over after `fuel` rounds. -/
def forEach (list : σ → LinkedList α) (body : β → α → Java ε σ β) (modified noReturn : ε) :
    (fuel : Nat) → Iter → β → Java ε σ β
  | 0, _, _ => throw noReturn
  | fuel + 1, it, acc => do
    let l := list (← get)
    if it.hasNext l then
      match it.next l with
      | none => throw modified
      | some (a, it) => do
        let acc ← body acc a
        forEach list body modified noReturn fuel it acc
    else
      return acc

section
variable (list : σ → LinkedList α) (body : β → α → Java ε σ β) (modified noReturn : ε)

/-- A loop over nothing. -/
theorem forEach_nil (fuel : Nat) (acc : β) {s : σ} (h : (list s).elems = []) :
    forEach list body modified noReturn (fuel + 1) (list s).iterator acc s = .ok acc s := by
  simp [forEach, bind_run, Iter.hasNext, LinkedList.size, LinkedList.iterator, h]

/-- The first round of a loop. -/
theorem forEach_cons (fuel : Nat) (acc : β) {s : σ} {a : α} {as : List α}
    (h : (list s).elems = a :: as) :
    forEach list body modified noReturn (fuel + 1) (list s).iterator acc s =
      (body acc a >>= forEach list body modified noReturn fuel ⟨1, (list s).modCount⟩) s := by
  simp [forEach, bind_run, Iter.hasNext, Iter.next, LinkedList.size, LinkedList.iterator, h]

/-- After a round that modified the list: the loop is over when at most one
element is left, and raises when there are more. -/
theorem forEach_edited (fuel n : Nat) (acc : β) {s : σ} (h : n < (list s).modCount) :
    forEach list body modified noReturn (fuel + 1) ⟨1, n⟩ acc s =
      if (list s).elems.length ≤ 1 then .ok acc s else .error modified s := by
  have hne : (list s).modCount ≠ n := by omega
  by_cases hl : (list s).elems.length ≤ 1
  · have : ¬ 1 < (list s).elems.length := by omega
    simp [forEach, bind_run, Iter.hasNext, LinkedList.size, hl, this]
  · have : 1 < (list s).elems.length := by omega
    simp [forEach, bind_run, Iter.hasNext, Iter.next, LinkedList.size, hne, this]

end

/-- The body is only entered on an element of the list as it is then. -/
theorem Keeps.forEach {list : σ → LinkedList α} {body : β → α → Java ε σ β} {modified noReturn : ε}
    {I : σ → Prop} (hb : ∀ acc a s, I s → a ∈ (list s).elems → I (final (body acc a s))) :
    ∀ (fuel : Nat) (it : Iter) (acc : β), Keeps I (forEach list body modified noReturn fuel it acc)
  | 0, _, _ => Keeps.throw _
  | fuel + 1, it, acc => by
    intro s hs
    rw [Java.forEach, bind_ok (get_run s)]
    split
    · cases hn : it.next (list s) with
      | none => exact hs
      | some p =>
        have hmem : p.1 ∈ (list s).elems := by
          rw [Iter.next] at hn
          split at hn
          · obtain ⟨b, hb, rfl⟩ := Option.map_eq_some_iff.mp hn
            exact List.mem_of_getElem? hb
          · cases hn
        have hbody := hb acc p.1 s hs hmem
        simp only [bind_run]
        cases hr : body acc p.1 s with
        | ok acc t =>
          rw [hr] at hbody
          exact Keeps.forEach hb fuel p.2 acc t hbody
        | error e t => rw [hr] at hbody; exact hbody
    · exact hs

end Java

end Lib
