/-
Methods that may raise: a computation over a state that ends normally with a
value or abruptly with an exception, and keeps in both cases the state it had
reached (an exception undoes nothing).

`final` is the state a call leaves behind however it ends, and `Keeps I x`
says that `x` leaves `I` true whenever it found it true. A method is verified
by the rules for its constructs.
-/
import Mathlib.Tactic.Common

namespace Lib

/-- A method over the state `σ` that may raise an `ε`. -/
abbrev Java (ε σ α : Type) := EStateM ε σ α

namespace Java

variable {ε σ α β : Type}

/-- The state a call leaves behind, returned or raised. -/
def final : EStateM.Result ε σ α → σ
  | .ok _ s => s
  | .error _ s => s

@[simp] theorem final_ok (a : α) (s : σ) : final (.ok a s : EStateM.Result ε σ α) = s := rfl
@[simp] theorem final_error (e : ε) (s : σ) : final (.error e s : EStateM.Result ε σ α) = s := rfl

@[simp] theorem pure_run (a : α) (s : σ) : (pure a : Java ε σ α) s = .ok a s := rfl
@[simp] theorem get_run (s : σ) : (get : Java ε σ σ) s = .ok s s := rfl
@[simp] theorem set_run (s t : σ) : (set t : Java ε σ PUnit) s = .ok ⟨⟩ t := rfl
@[simp] theorem modify_run (f : σ → σ) (s : σ) : (modify f : Java ε σ PUnit) s = .ok ⟨⟩ (f s) := rfl
@[simp] theorem throw_run (e : ε) (s : σ) : (throw e : Java ε σ α) s = .error e s := rfl

@[simp] theorem map_run (f : α → β) (x : Java ε σ α) (s : σ) :
    (f <$> x) s = match x s with
      | .ok a t => .ok (f a) t
      | .error e t => .error e t := by
  rw [map_eq_pure_bind]; rfl

theorem bind_run (x : Java ε σ α) (f : α → Java ε σ β) (s : σ) :
    (x >>= f) s = match x s with
      | .ok a t => f a t
      | .error e t => .error e t := rfl

theorem bind_ok {x : Java ε σ α} {f : α → Java ε σ β} {s t : σ} {a : α} (h : x s = .ok a t) :
    (x >>= f) s = f a t := by rw [bind_run, h]

theorem bind_error {x : Java ε σ α} {f : α → Java ε σ β} {s t : σ} {e : ε} (h : x s = .error e t) :
    (x >>= f) s = .error e t := by rw [bind_run, h]

theorem bind_eq_ok {x : Java ε σ α} {f : α → Java ε σ β} {s u : σ} {b : β} :
    (x >>= f) s = .ok b u ↔ ∃ a t, x s = .ok a t ∧ f a t = .ok b u := by
  rw [bind_run]
  cases x s <;> simp

theorem tryCatch_ok {x : Java ε σ α} {h : ε → Java ε σ α} {s t : σ} {a : α} (hx : x s = .ok a t) :
    (tryCatch x h : Java ε σ α) s = .ok a t := by
  simp only [MonadExcept.tryCatch, tryCatchThe, MonadExceptOf.tryCatch, EStateM.tryCatch, hx]

/-- A raised call hands its handler the state it had reached. -/
theorem tryCatch_error {x : Java ε σ α} {h : ε → Java ε σ α} {s t : σ} {e : ε} (hx : x s = .error e t) :
    (tryCatch x h : Java ε σ α) s = h e t := by
  simp only [MonadExcept.tryCatch, tryCatchThe, MonadExceptOf.tryCatch, EStateM.tryCatch, hx]
  rfl

/-- A handler that only logs leaves the state the raised call had reached. -/
theorem final_tryCatch_pure (x : Java ε σ α) (a : α) (s : σ) :
    final ((tryCatch x fun _ => pure a : Java ε σ α) s) = final (x s) := by
  simp only [MonadExcept.tryCatch, tryCatchThe, MonadExceptOf.tryCatch, EStateM.tryCatch]
  cases x s <;> rfl

/-- `x` leaves `I` true, whether it returns or raises. -/
def Keeps (I : σ → Prop) (x : Java ε σ α) : Prop :=
  ∀ s, I s → I (final (x s))

section
variable {I : σ → Prop}

theorem Keeps.pure (a : α) : Keeps I (Pure.pure a : Java ε σ α) := fun _ h => h

theorem Keeps.throw (e : ε) : Keeps I (MonadExcept.throw e : Java ε σ α) := fun _ h => h

theorem Keeps.get : Keeps I (MonadState.get : Java ε σ σ) := fun _ h => h

theorem Keeps.modify {f : σ → σ} (hf : ∀ s, I s → I (f s)) : Keeps I (modify f : Java ε σ PUnit) :=
  fun s h => hf s h

/-- From one state. -/
theorem Keeps.final_bind {x : Java ε σ α} {f : α → Java ε σ β} {s : σ} (hx : I (final (x s)))
    (hf : ∀ a, Keeps I (f a)) : I (final ((x >>= f) s)) := by
  rw [bind_run]
  cases hxs : x s with
  | ok a t => rw [hxs] at hx; exact hf a t hx
  | error e t => rw [hxs] at hx; exact hx

theorem Keeps.bind {x : Java ε σ α} {f : α → Java ε σ β} (hx : Keeps I x) (hf : ∀ a, Keeps I (f a)) :
    Keeps I (x >>= f) := fun s hs => Keeps.final_bind (hx s hs) hf

theorem Keeps.ite {c : Prop} [Decidable c] {x y : Java ε σ α} (hx : c → Keeps I x) (hy : ¬ c → Keeps I y) :
    Keeps I (if c then x else y) := by
  split
  · exact hx ‹_›
  · exact hy ‹_›

theorem Keeps.final_tryCatch {x : Java ε σ α} {h : ε → Java ε σ α} {s : σ} (hx : I (final (x s)))
    (hh : ∀ e, Keeps I (h e)) : I (final ((MonadExcept.tryCatch x h : Java ε σ α) s)) := by
  cases hxs : x s with
  | ok a t => rw [hxs] at hx; rw [tryCatch_ok hxs]; exact hx
  | error e t => rw [hxs] at hx; rw [tryCatch_error hxs]; exact hh e t hx

theorem Keeps.tryCatch {x : Java ε σ α} {h : ε → Java ε σ α} (hx : Keeps I x) (hh : ∀ e, Keeps I (h e)) :
    Keeps I (tryCatch x h) := fun s hs => Keeps.final_tryCatch (hx s hs) hh

theorem Keeps.forM {f : α → Java ε σ PUnit} :
    ∀ l : List α, (∀ a ∈ l, Keeps I (f a)) → Keeps I (l.forM f)
  | [], _ => Keeps.pure _
  | a :: l, hf => (hf a (by simp)).bind fun _ => Keeps.forM l fun b hb => hf b (by simp [hb])

end

end Java

end Lib
