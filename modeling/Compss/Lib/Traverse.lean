/-
Loops over a list that make an entry of each element, or end at the first one
they cannot make an entry of; and loops that change a state at each element, or
end at the first one they cannot take.
-/
import Mathlib.Data.List.Forall2

namespace Lib

variable {α β σ : Type}

theorem mapM_eq_some_iff {f : α → Option β} : ∀ {l : List α} {r : List β},
    l.mapM f = some r ↔ List.Forall₂ (fun a b => f a = some b) l r
  | [], r => by simp [eq_comm]
  | a :: l, r => by
    rw [List.mapM_cons]
    cases ha : f a with
    | none => exact iff_of_false (by simp) fun h => by cases h with | cons h _ => rw [ha] at h; cases h
    | some b =>
      cases r with
      | nil => exact iff_of_false (by cases l.mapM f <;> simp) fun h => by cases h
      | cons c r =>
        rw [List.forall₂_cons, ← mapM_eq_some_iff, ha, Option.bind_eq_bind, Option.bind_some, Option.bind_eq_bind]
        cases l.mapM f with
        | none => simp
        | some rest => simp

theorem mapM_isSome {f : α → Option β} : ∀ {l : List α}, (∀ a ∈ l, (f a).isSome) → ∃ r, l.mapM f = some r
  | [], _ => ⟨[], rfl⟩
  | a :: l, h => by
    obtain ⟨b, hb⟩ := Option.isSome_iff_exists.mp (h a List.mem_cons_self)
    obtain ⟨r, hr⟩ := mapM_isSome fun a ha => h a (List.mem_cons_of_mem _ ha)
    exact ⟨b :: r, by rw [List.mapM_cons, hb, hr]; rfl⟩

theorem mapM_eq_some_map {f : α → Option β} {g : α → β} : ∀ {l : List α}, (∀ a ∈ l, f a = some (g a)) →
    l.mapM f = some (l.map g)
  | [], _ => rfl
  | a :: l, h => by
    rw [List.mapM_cons, h a (by simp), mapM_eq_some_map fun b hb => h b (by simp [hb])]
    rfl

theorem mapM_eq_none {f : α → Option β} {a : α} {l : List α} (ha : a ∈ l) (h : f a = none) : l.mapM f = none := by
  rw [Option.eq_none_iff_forall_ne_some]
  intro r hr
  obtain ⟨i, hi, rfl⟩ := List.getElem_of_mem ha
  have hforall := mapM_eq_some_iff.mp hr
  have hentry := hforall.get hi (by rw [← hforall.length_eq]; exact hi)
  rw [List.get_eq_getElem, h] at hentry
  cases hentry

/-- An element the loop can take in no state ends it. -/
theorem foldlM_eq_none {f : σ → α → Option σ} {a : α} : ∀ {l : List α} {s : σ}, a ∈ l → (∀ s, f s a = none) →
    l.foldlM f s = none
  | b :: l, s, ha, h => by
    rw [List.foldlM_cons]
    rcases List.mem_cons.mp ha with rfl | ha
    · rw [h s]
      rfl
    · cases f s b with
      | none => rfl
      | some t => exact foldlM_eq_none ha h

end Lib
