/-
A `while` loop with fuel: the state in which its condition no longer holds, or
none while the fuel is not enough.

More fuel never changes an answer, so a loop has at most one. `whileLoop_total` is
the rule for loops that end: an invariant, and a measure the body takes down.
`whileLoop_diverges` is the one for loops that do not: an invariant under which the
condition always holds.
-/
import Mathlib.Order.WellFounded

namespace Lib

variable {σ : Type}

def whileLoop (cond : σ → Bool) (body : σ → σ) : Nat → σ → Option σ
  | 0, s => if cond s then none else some s
  | fuel + 1, s => if cond s then whileLoop cond body fuel (body s) else some s

variable {cond : σ → Bool} {body : σ → σ} {s t : σ}

theorem whileLoop_of_not (fuel : Nat) (h : cond s = false) : whileLoop cond body fuel s = some s := by
  cases fuel <;> simp [whileLoop, h]

theorem whileLoop_succ (fuel : Nat) (h : cond s = true) :
    whileLoop cond body (fuel + 1) s = whileLoop cond body fuel (body s) := by
  simp [whileLoop, h]

theorem whileLoop_mono {n m : Nat} (hnm : n ≤ m) (h : whileLoop cond body n s = some t) :
    whileLoop cond body m s = some t := by
  induction m generalizing n s with
  | zero =>
    obtain rfl : n = 0 := by omega
    exact h
  | succ m ih =>
    cases hc : cond s with
    | false =>
      rw [whileLoop_of_not _ hc] at h ⊢
      exact h
    | true =>
      cases n with
      | zero => simp [whileLoop, hc] at h
      | succ n =>
        rw [whileLoop_succ _ hc] at h ⊢
        exact ih (by omega) h

/-- What holds before and after every turn, and the condition no longer. -/
theorem whileLoop_invariant {I : σ → Prop} (hbody : ∀ s, I s → cond s = true → I (body s)) {fuel : Nat}
    (h : whileLoop cond body fuel s = some t) (hs : I s) : I t ∧ cond t = false := by
  induction fuel generalizing s with
  | zero =>
    cases hc : cond s with
    | false =>
      rw [whileLoop_of_not _ hc] at h
      cases h
      exact ⟨hs, hc⟩
    | true => simp [whileLoop, hc] at h
  | succ fuel ih =>
    cases hc : cond s with
    | false =>
      rw [whileLoop_of_not _ hc] at h
      cases h
      exact ⟨hs, hc⟩
    | true =>
      rw [whileLoop_succ _ hc] at h
      exact ih h (hbody s hs hc)

/-- Under the invariant every turn goes down in a well-founded order. -/
theorem whileLoop_total {I : σ → Prop} {κ : Type} [LT κ] [WellFoundedLT κ] (measure : σ → κ)
    (hbody : ∀ s, I s → cond s = true → I (body s) ∧ measure (body s) < measure s) (hs : I s) :
    ∃ fuel t, whileLoop cond body fuel s = some t ∧ I t ∧ cond t = false := by
  induction hm : measure s using WellFoundedLT.induction generalizing s with
  | _ m ih =>
    cases hc : cond s with
    | false => exact ⟨0, s, whileLoop_of_not 0 hc, hs, hc⟩
    | true =>
      obtain ⟨hI, hlt⟩ := hbody s hs hc
      obtain ⟨fuel, t, hrun, ht⟩ := ih _ (hm ▸ hlt) hI rfl
      exact ⟨fuel + 1, t, by rw [whileLoop_succ _ hc, hrun], ht⟩

/-- A state from which the condition holds for ever. -/
theorem whileLoop_diverges {I : σ → Prop} (hcond : ∀ s, I s → cond s = true)
    (hbody : ∀ s, I s → I (body s)) (hs : I s) (fuel : Nat) : whileLoop cond body fuel s = none := by
  induction fuel generalizing s with
  | zero => simp [whileLoop, hcond s hs]
  | succ fuel ih =>
    rw [whileLoop_succ _ (hcond s hs)]
    exact ih (hbody s hs)

/-- Two states that the condition and the body cannot tell apart. -/
theorem whileLoop_rel {R : σ → σ → Prop} (hcond : ∀ s s', R s s' → cond s = cond s')
    (hbody : ∀ s s', R s s' → R (body s) (body s')) {fuel : Nat} {s' : σ} (hR : R s s')
    (h : whileLoop cond body fuel s = some t) : ∃ t', whileLoop cond body fuel s' = some t' ∧ R t t' := by
  induction fuel generalizing s s' with
  | zero =>
    cases hc : cond s with
    | false =>
      rw [whileLoop_of_not _ hc] at h
      cases h
      exact ⟨s', whileLoop_of_not _ (hcond _ _ hR ▸ hc), hR⟩
    | true => simp [whileLoop, hc] at h
  | succ fuel ih =>
    cases hc : cond s with
    | false =>
      rw [whileLoop_of_not _ hc] at h
      cases h
      exact ⟨s', whileLoop_of_not _ (hcond _ _ hR ▸ hc), hR⟩
    | true =>
      rw [whileLoop_succ _ hc] at h
      rw [whileLoop_succ _ (hcond _ _ hR ▸ hc)]
      exact ih (hbody s s' hR) h

end Lib
