/-
Programs that change objects where they are, as computations over a state.

`Leads I J m Q` says that `m` comes from a state with `I` to one with `J` and that
its result has `Q`, `Keeps I m Q` that it keeps the invariant `I`; there is a rule
for each way to put computations together. In a
`Memory` the objects that are there from the beginning have names, and the others
are made: what writes only to objects that were made leaves the given ones as they
are, whoever holds references to them.
-/
import Mathlib.Logic.Function.Basic
import Mathlib.Tactic.Common

namespace Lib

/-! ## Computations that keep an invariant -/

variable {σ α β : Type} {I J K : σ → Prop} {Q R : α → Prop} {S : β → Prop} {m : StateM σ α}

/-- From a state with `I`, the computation comes to one with `J`. -/
def Leads (I J : σ → Prop) (m : StateM σ α) (Q : α → Prop) : Prop := ∀ s, I s → J (m.run s).2 ∧ Q (m.run s).1

def Keeps (I : σ → Prop) (m : StateM σ α) (Q : α → Prop) : Prop := Leads I I m Q

theorem Leads.bind {f : α → StateM σ β} (hm : Leads I J m Q) (hf : ∀ a, Q a → Leads J K (f a) S) :
    Leads I K (m >>= f) S :=
  fun s hs => hf (m.run s).1 (hm s hs).2 (m.run s).2 (hm s hs).1

theorem Leads.ite {c : Prop} [Decidable c] {n : StateM σ α} (hm : c → Leads I J m Q) (hn : ¬ c → Leads I J n Q) :
    Leads I J (if c then m else n) Q := by
  split
  · next h => exact hm h
  · next h => exact hn h

/-- What keeps an invariant leads to it from every state that has more. -/
theorem Keeps.leads (h : Keeps J m Q) (hI : ∀ s, I s → J s) : Leads I J m Q := fun s hs => h s (hI s hs)

namespace Keeps

theorem pure {a : α} (h : Q a) : Keeps I (Pure.pure a) Q := fun _ hs => ⟨hs, h⟩

theorem bind {f : α → StateM σ β} (hm : Keeps I m Q) (hf : ∀ a, Q a → Keeps I (f a) S) : Keeps I (m >>= f) S :=
  Leads.bind hm hf

theorem mono (h : Keeps I m Q) (hQ : ∀ a, Q a → R a) : Keeps I m R := fun s hs => ⟨(h s hs).1, hQ _ (h s hs).2⟩

/-- The result does not matter. -/
theorem weaken (h : Keeps I m Q) : Keeps I m fun _ => True := h.mono fun _ _ => trivial

theorem and (hI : Keeps I m Q) (hJ : Keeps J m R) : Keeps (fun s => I s ∧ J s) m fun a => Q a ∧ R a :=
  fun s hs => ⟨⟨(hI s hs.1).1, (hJ s hs.2).1⟩, (hI s hs.1).2, (hJ s hs.2).2⟩

theorem get : Keeps I (MonadState.get : StateM σ σ) I := fun _ hs => ⟨hs, hs⟩

theorem modify {f : σ → σ} (h : ∀ s, I s → I (f s)) : Keeps I (modify f : StateM σ PUnit) fun _ => True :=
  fun s hs => ⟨h s hs, trivial⟩

theorem ite {c : Prop} [Decidable c] {n : StateM σ α} (hm : c → Keeps I m Q) (hn : ¬ c → Keeps I n Q) :
    Keeps I (if c then m else n) Q :=
  Leads.ite hm hn

/-- A walk along a list, whose turns keep the invariant. -/
theorem foldlM {f : β → α → StateM σ β} {l : List α} (hf : ∀ a ∈ l, ∀ b, S b → Keeps I (f b a) S) {b : β} (hb : S b) :
    Keeps I (l.foldlM f b) S := by
  induction l generalizing b with
  | nil => exact pure hb
  | cons a l ih =>
    rw [List.foldlM_cons]
    exact bind (hf a List.mem_cons_self b hb) fun c hc => ih (fun x hx => hf x (List.mem_cons_of_mem a hx)) hc

theorem forM {f : α → StateM σ PUnit} {l : List α} (hf : ∀ a ∈ l, Keeps I (f a) fun _ => True) :
    Keeps I (l.forM f) fun _ => True := by
  induction l with
  | nil => exact pure trivial
  | cons a l ih => exact bind (hf a List.mem_cons_self) fun _ _ => ih fun x hx => hf x (List.mem_cons_of_mem a hx)

end Keeps

/-! ## Memory -/

/-- An object that is there from the beginning, or one made since. -/
inductive Ref (κ : Type)
  | given (k : κ)
  | made (n : Nat)
  deriving DecidableEq

def Ref.IsMade {κ : Type} : Ref κ → Prop
  | .given _ => False
  | .made _ => True

instance {κ : Type} : DecidablePred (Ref.IsMade (κ := κ))
  | .given _ => isFalse id
  | .made _ => isTrue trivial

structure Memory (κ ρ : Type) where
  object : Ref κ → ρ
  count : Nat

namespace Memory

variable {κ ρ : Type} [DecidableEq κ] {m : Memory κ ρ} {r : Ref κ} {x : ρ}

def write (m : Memory κ ρ) (r : Ref κ) (x : ρ) : Memory κ ρ := { m with object := Function.update m.object r x }

/-- The next object to be made. -/
def next (m : Memory κ ρ) : Ref κ := .made m.count

def make (m : Memory κ ρ) (x : ρ) : Memory κ ρ := { m.write m.next x with count := m.count + 1 }

/-- The objects that are there from the beginning. -/
def given (m : Memory κ ρ) (k : κ) : ρ := m.object (.given k)

omit [DecidableEq κ] in
theorem isMade_next : m.next.IsMade := trivial

theorem given_write (h : r.IsMade) : (m.write r x).given = m.given := by
  funext k
  refine Function.update_of_ne ?_ x m.object
  rintro rfl
  exact h

theorem given_make : (m.make x).given = m.given := given_write (x := x) (isMade_next (m := m))

end Memory

end Lib
