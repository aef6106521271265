/-
Items that are each to be delivered once: an item is held by one holder at a
time, or has been delivered.

`Custody place held delivered` says that `place` tells where every item is:
the lists of the holders and the list of deliveries have each item where
`place` has it and nowhere else, once. The rules below say where the items are
after one is given to a holder, handed on or delivered.
-/
import Mathlib.Data.List.Nodup
import Mathlib.Logic.Function.Basic

namespace Lib

/-- Where an item is. -/
inductive Place (H B : Type*)
  | unknown
  | held (h : H)
  | delivered (b : B)

variable {A H B : Type*} [DecidableEq A] [DecidableEq H] {place : A → Place H B} {held held' : H → List A}
  {delivered : List (A × B)} {a : A} {b : B} {i j : H}

structure Custody (place : A → Place H B) (held : H → List A) (delivered : List (A × B)) : Prop where
  mem_held : ∀ i a, a ∈ held i ↔ place a = .held i
  nodup_held : ∀ i, (held i).Nodup
  mem_delivered : ∀ a b, (a, b) ∈ delivered ↔ place a = .delivered b
  nodup_delivered : (delivered.map Prod.fst).Nodup

namespace Custody

theorem init : Custody (fun _ : A => (.unknown : Place H B)) (fun _ => []) [] where
  mem_held _ _ := by simp
  nodup_held _ := List.nodup_nil
  mem_delivered _ _ := by simp
  nodup_delivered := List.nodup_nil

omit [DecidableEq A] [DecidableEq H] in
theorem congr (h : Custody place held delivered) (heq : ∀ i, held' i = held i) :
    Custody place held' delivered where
  mem_held i a := by rw [heq]; exact h.mem_held i a
  nodup_held i := by rw [heq]; exact h.nodup_held i
  mem_delivered := h.mem_delivered
  nodup_delivered := h.nodup_delivered

omit [DecidableEq A] [DecidableEq H] in
theorem not_mem_delivered (h : Custody place held delivered) (ha : ∀ b, place a ≠ .delivered b) :
    a ∉ delivered.map Prod.fst := by
  intro hm
  obtain ⟨⟨a', b⟩, hmem, heq⟩ := List.mem_map.mp hm
  cases heq
  exact ha b ((h.mem_delivered a' b).mp hmem)

/-- A new item is given to a holder. -/
theorem give (h : Custody place held delivered) (ha : place a = .unknown) (i : H) :
    Custody (Function.update place a (.held i)) (Function.update held i (held i ++ [a])) delivered where
  mem_held k x := by
    rw [Function.update_apply, Function.update_apply]
    have hk := h.mem_held k x
    by_cases hx : x = a
    · rw [if_pos hx]
      subst hx
      split
      next hki => subst hki; simp
      next hki =>
        rw [hk, ha]
        exact iff_of_false (by intro he; cases he) (by intro he; cases he; exact hki rfl)
    · rw [if_neg hx, ← hk]
      split
      next hki => subst hki; simp [hx]
      next => rfl
  nodup_held k := by
    rw [Function.update_apply]
    split
    next =>
      refine List.nodup_append.mpr ⟨h.nodup_held i, List.nodup_singleton a, fun x hx y hy => ?_⟩
      rw [List.mem_singleton.mp hy]
      intro he
      rw [he, h.mem_held, ha] at hx
      cases hx
    next => exact h.nodup_held k
  mem_delivered x b := by
    rw [h.mem_delivered, Function.update_apply]
    split
    next hx =>
      rw [hx, ha]
      exact iff_of_false (by intro he; cases he) (by intro he; cases he)
    next => rfl
  nodup_delivered := h.nodup_delivered

/-- A new item is delivered at once. -/
theorem deliverNew (h : Custody place held delivered) (ha : place a = .unknown) (b : B) :
    Custody (Function.update place a (.delivered b)) held (delivered ++ [(a, b)]) where
  mem_held i x := by
    rw [h.mem_held, Function.update_apply]
    split
    next hx =>
      rw [hx, ha]
      exact iff_of_false (by intro he; cases he) (by intro he; cases he)
    next => rfl
  nodup_held := h.nodup_held
  mem_delivered x c := by
    rw [List.mem_append, List.mem_singleton, Function.update_apply]
    have hd := h.mem_delivered x c
    split
    next hx =>
      subst hx
      rw [hd, ha]
      simp [eq_comm]
    next hx => rw [hd]; simp [hx]
  nodup_delivered := by
    rw [List.map_append]
    refine List.nodup_append.mpr ⟨h.nodup_delivered, List.nodup_singleton a, fun x hx y hy => ?_⟩
    rw [List.mem_singleton.mp hy]
    intro he
    rw [he] at hx
    exact h.not_mem_delivered (by rw [ha]; intro b he; cases he) hx

/-- All that one holder has goes to its `target`. -/
def redirect (place : A → Place H B) (i : H) (target : A → Place H B) (a : A) : Place H B :=
  match place a with
  | .held h => if h = i then target a else .held h
  | p => p

omit [DecidableEq A] in
theorem redirect_held {target : A → Place H B} (ha : place a = .held i) : redirect place i target a = target a := by
  simp [redirect, ha]

omit [DecidableEq A] in
theorem redirect_of_ne {target : A → Place H B} (ha : place a ≠ .held i) : redirect place i target a = place a := by
  unfold redirect
  split
  next h heq =>
    rw [if_neg fun he => ha (by rw [heq, he]), heq]
  next => rfl

/-- A holder hands all it has on to another. -/
theorem hand (h : Custody place held delivered) (hij : i ≠ j) :
    Custody (redirect place i fun _ => .held j) (Function.update (Function.update held i []) j (held j ++ held i))
      delivered where
  mem_held k x := by
    rw [Function.update_apply, Function.update_apply]
    have hi := h.mem_held i x
    have hj := h.mem_held j x
    have hk := h.mem_held k x
    by_cases hx : place x = .held i
    · rw [redirect_held hx]
      split
      next hkj =>
        subst hkj
        exact iff_of_true (List.mem_append_right _ (hi.mpr hx)) rfl
      next hkj =>
        refine iff_of_false ?_ (by intro he; cases he; exact hkj rfl)
        split
        · exact List.not_mem_nil
        next hki =>
          rw [hk, hx]
          intro he
          cases he
          exact hki rfl
    · rw [redirect_of_ne hx]
      split
      next hkj =>
        subst hkj
        rw [List.mem_append, hi, hk]
        exact ⟨fun hm => hm.resolve_right hx, .inl⟩
      next =>
        split
        next hki =>
          subst hki
          exact iff_of_false List.not_mem_nil hx
        next => exact hk
  nodup_held k := by
    rw [Function.update_apply, Function.update_apply]
    split
    next =>
      refine List.nodup_append.mpr ⟨h.nodup_held j, h.nodup_held i, fun x hx y hy he => ?_⟩
      rw [he, h.mem_held, (h.mem_held i y).mp hy] at hx
      cases hx
      exact hij rfl
    next =>
      split
      · exact List.nodup_nil
      · exact h.nodup_held k
  mem_delivered x b := by
    rw [h.mem_delivered]
    by_cases hx : place x = .held i
    · rw [redirect_held hx, hx]
      exact iff_of_false (by intro he; cases he) (by intro he; cases he)
    · rw [redirect_of_ne hx]
  nodup_delivered := h.nodup_delivered

/-- A holder delivers all it has, each item its own way. -/
theorem deliverEach (h : Custody place held delivered) (i : H) (f : A → B) :
    Custody (redirect place i fun a => .delivered (f a)) (Function.update held i [])
      (delivered ++ (held i).map fun a => (a, f a)) where
  mem_held k x := by
    rw [Function.update_apply]
    by_cases hx : place x = .held i
    · rw [redirect_held hx]
      refine iff_of_false ?_ (by intro he; cases he)
      split
      · exact List.not_mem_nil
      next hki =>
        rw [h.mem_held, hx]
        intro he
        cases he
        exact hki rfl
    · rw [redirect_of_ne hx]
      split
      next hki =>
        subst hki
        exact iff_of_false List.not_mem_nil hx
      next => exact h.mem_held k x
  nodup_held k := by
    rw [Function.update_apply]
    split
    · exact List.nodup_nil
    · exact h.nodup_held k
  mem_delivered x c := by
    have hmem : (x, c) ∈ (held i).map (fun a => (a, f a)) ↔ place x = .held i ∧ c = f x := by
      rw [← h.mem_held, List.mem_map]
      constructor
      · rintro ⟨y, hy, heq⟩
        cases heq
        exact ⟨hy, rfl⟩
      · rintro ⟨hx, rfl⟩
        exact ⟨x, hx, rfl⟩
    rw [List.mem_append, hmem, h.mem_delivered]
    by_cases hx : place x = .held i
    · rw [redirect_held hx, hx]
      simp [eq_comm]
    · rw [redirect_of_ne hx]
      simp [hx]
  nodup_delivered := by
    have hfst : ((held i).map fun a => (a, f a)).map Prod.fst = held i := by simp [Function.comp_def]
    rw [List.map_append, hfst]
    refine List.nodup_append.mpr ⟨h.nodup_delivered, h.nodup_held i, fun x hx y hy he => ?_⟩
    rw [he] at hx
    exact h.not_mem_delivered (by rw [(h.mem_held i y).mp hy]; intro b he; cases he) hx

/-- A holder delivers all it has alike. -/
theorem deliverAll (h : Custody place held delivered) (i : H) (b : B) :
    Custody (redirect place i fun _ => .delivered b) (Function.update held i [])
      (delivered ++ (held i).map fun a => (a, b)) :=
  h.deliverEach i fun _ => b

omit [DecidableEq A] [DecidableEq H] in
/-- The order of the deliveries does not matter. -/
theorem perm {delivered' : List (A × B)} (h : Custody place held delivered) (hp : delivered.Perm delivered') :
    Custody place held delivered' where
  mem_held := h.mem_held
  nodup_held := h.nodup_held
  mem_delivered a b := by rw [← hp.mem_iff]; exact h.mem_delivered a b
  nodup_delivered := (hp.map Prod.fst).nodup_iff.mp h.nodup_delivered

omit [DecidableEq H] in
/-- An item that was delivered was delivered once. -/
theorem once (h : Custody place held delivered) (ha : place a = .delivered b) :
    (a, b) ∈ delivered ∧ (delivered.map Prod.fst).count a = 1 := by
  have hmem := (h.mem_delivered a b).mpr ha
  exact ⟨hmem, List.count_eq_one_of_mem h.nodup_delivered (List.mem_map_of_mem hmem)⟩

end Custody

end Lib
