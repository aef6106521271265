/-
Runs of a labelled transition system whose step is a partial function: a
label that is not enabled in a state has no successor there.

`run` folds the step over a list of labels, `Along` says that every step a
run takes meets a condition on its label and the state before it, `Always`
that a property holds in every state the run reaches. The three rules below
are how an invariant of one step becomes a statement about runs.
-/
import Mathlib.Data.Option.Basic

namespace Lib

variable {σ α : Type*} (step : σ → α → Option σ)

/-- The state after the labels `as`, when each is enabled in its turn. -/
def run : σ → List α → Option σ
  | s, [] => some s
  | s, a :: as => (step s a).bind fun t => run t as

/-- Every step the run takes meets `good` in the state it is taken from. -/
def Along (good : σ → α → Prop) : σ → List α → Prop
  | _, [] => True
  | s, a :: as => ∀ t, step s a = some t → good s a ∧ Along good t as

/-- `P` holds in every state the run reaches, the first one included. -/
def Always (P : σ → Prop) : σ → List α → Prop
  | s, [] => P s
  | s, a :: as => P s ∧ ∀ t, step s a = some t → Always P t as

variable {step}

@[simp] theorem run_nil (s : σ) : run step s [] = some s := rfl

theorem run_cons {s u : σ} {a : α} {as : List α} :
    run step s (a :: as) = some u ↔ ∃ t, step s a = some t ∧ run step t as = some u :=
  Option.bind_eq_some_iff

/-- An invariant of the steps that meet `good` holds at the end of a run
whose steps all meet it. -/
theorem run_invariant {I : σ → Prop} {good : σ → α → Prop}
    (hstep : ∀ s a t, I s → good s a → step s a = some t → I t) :
    ∀ {as : List α} {s u : σ}, I s → Along step good s as → run step s as = some u → I u
  | [], s, u, hs, _, h => by cases h; exact hs
  | a :: as, s, u, hs, hg, h => by
    obtain ⟨t, ht, hu⟩ := run_cons.mp h
    obtain ⟨hga, hgas⟩ := hg t ht
    exact run_invariant hstep (hstep s a t hs hga ht) hgas hu

theorem along_true : ∀ {s : σ} (as : List α), Along step (fun _ _ => True) s as
  | _, [] => trivial
  | _, _ :: as => fun _ _ => ⟨trivial, along_true as⟩

/-- A condition on the labels alone. -/
theorem along_of_forall {good : σ → α → Prop} : ∀ {as : List α} {s : σ}, (∀ a ∈ as, ∀ s, good s a) → Along step good s as
  | [], _, _ => trivial
  | _ :: _, s, h => fun _ _ =>
    ⟨h _ List.mem_cons_self s, along_of_forall fun a ha => h a (List.mem_cons_of_mem _ ha)⟩

instance decidableAlong {good : σ → α → Prop} [∀ s a, Decidable (good s a)] : ∀ s as, Decidable (Along step good s as)
  | _, [] => .isTrue trivial
  | s, a :: as =>
    match h : step s a with
    | none => .isTrue fun t ht => nomatch h.symm.trans ht
    | some t =>
      have : Decidable (Along step good t as) := decidableAlong t as
      decidable_of_iff (good s a ∧ Along step good t as)
        ⟨fun hg u hu => Option.some.inj (h.symm.trans hu) ▸ hg, fun hg => hg t h⟩

/-- An invariant of every step holds at the end of every run. -/
theorem run_invariant_of_step {I : σ → Prop} (hstep : ∀ s a t, I s → step s a = some t → I t) :
    ∀ {as : List α} {s u : σ}, I s → run step s as = some u → I u
  | [], s, u, hs, h => by cases h; exact hs
  | a :: as, s, u, hs, h => by
    obtain ⟨t, ht, hu⟩ := run_cons.mp h
    exact run_invariant_of_step hstep (hstep s a t hs ht) hu

/-- An invariant of the steps that meet `good` holds all along a run whose
steps all meet it, and so does what it gives. -/
theorem always_of_along {I P : σ → Prop} {good : σ → α → Prop} (hP : ∀ s, I s → P s)
    (hstep : ∀ s a t, I s → good s a → step s a = some t → I t) :
    ∀ {as : List α} {s : σ}, I s → Along step good s as → Always step P s as
  | [], s, hs, _ => hP s hs
  | a :: as, s, hs, hg =>
    ⟨hP s hs, fun t ht => always_of_along hP hstep (hstep s a t hs (hg t ht).1 ht) (hg t ht).2⟩

/-- What the invariant gives of each step that meets `good` holds of all steps of
such a run. -/
theorem along_of_along {I : σ → Prop} {good good' : σ → α → Prop}
    (hgood : ∀ s a t, I s → good s a → step s a = some t → good' s a)
    (hstep : ∀ s a t, I s → good s a → step s a = some t → I t) :
    ∀ {as : List α} {s : σ}, I s → Along step good s as → Along step good' s as
  | [], _, _, _ => trivial
  | a :: as, s, hs, hg => fun t ht =>
    ⟨hgood s a t hs (hg t ht).1 ht, along_of_along hgood hstep (hstep s a t hs (hg t ht).1 ht) (hg t ht).2⟩

/-- A run takes no more of the steps that cost something than there is to pay for them. -/
theorem run_countP_le {I : σ → Prop} {μ : σ → Nat} {q : α → Bool} (hI : ∀ s a t, I s → step s a = some t → I t)
    (hμ : ∀ s a t, I s → step s a = some t → μ t + (if q a then 1 else 0) ≤ μ s) :
    ∀ {as : List α} {s u : σ}, I s → run step s as = some u → μ u + as.countP q ≤ μ s
  | [], s, u, _, h => by
    cases h
    simp
  | a :: as, s, u, hs, h => by
    obtain ⟨t, ht, hu⟩ := run_cons.mp h
    have hstep := hμ s a t hs ht
    have hrest := run_countP_le hI hμ (hI s a t hs ht) hu
    rw [List.countP_cons]
    omega

/-- What holds all along a run holds at its end. -/
theorem Always.of_run {P : σ → Prop} : ∀ {as : List α} {s u : σ}, Always step P s as → run step s as = some u → P u
  | [], s, u, h, hu => by cases hu; exact h
  | a :: as, s, u, h, hu => by
    obtain ⟨t, ht, hu⟩ := run_cons.mp hu
    exact Always.of_run (h.2 t ht) hu

/-- When the steps that meet `good` keep the invariant, which gives `P`, and
a step that does not meet it loses `P` at once, `P` holds all along a run
exactly when each of its steps meets `good`: here for runs whose steps are
known to meet `ok`. -/
theorem always_iff_along_of {I P : σ → Prop} {ok good : σ → α → Prop} (hP : ∀ s, I s → P s)
    (hgood : ∀ s a t, I s → ok s a → good s a → step s a = some t → I t)
    (hbad : ∀ s a t, I s → ok s a → ¬ good s a → step s a = some t → ¬ P t) :
    ∀ {as : List α} {s : σ}, I s → Along step ok s as → (Always step P s as ↔ Along step good s as)
  | [], s, hs, _ => by simp [Always, Along, hP s hs]
  | a :: as, s, hs, hok => by
    have key : ∀ t, step s a = some t → (Always step P t as ↔ good s a ∧ Along step good t as) := by
      intro t ht
      obtain ⟨hoka, hokas⟩ := hok t ht
      by_cases hg : good s a
      · rw [always_iff_along_of hP hgood hbad (hgood s a t hs hoka hg ht) hokas]
        simp [hg]
      · have hnot : ¬ Always step P t as := by
          intro hal
          refine hbad s a t hs hoka hg ht ?_
          cases as with
          | nil => exact hal
          | cons b bs => exact hal.1
        simp [hg, hnot]
    simp only [Always, Along, hP s hs, true_and]
    exact forall_congr' fun t => forall_congr' fun ht => key t ht

/-- The same for all runs. -/
theorem always_iff_along {I P : σ → Prop} {good : σ → α → Prop} (hP : ∀ s, I s → P s)
    (hgood : ∀ s a t, I s → good s a → step s a = some t → I t)
    (hbad : ∀ s a t, I s → ¬ good s a → step s a = some t → ¬ P t) {as : List α} {s : σ} (hs : I s) :
    Always step P s as ↔ Along step good s as :=
  always_iff_along_of hP (fun s a t h _ => hgood s a t h) (fun s a t h _ => hbad s a t h) hs (along_true as)

/-- When a step that finds `P` leaves it, and does what `meets` says, exactly if
it meets `good`, then so it is for runs. -/
theorem always_and_along_iff {P : σ → Prop} {meets good : σ → α → Prop}
    (hstep : ∀ s a t, P s → step s a = some t → (good s a ↔ P t ∧ meets s a)) :
    ∀ {as : List α} {s : σ}, P s → (Always step P s as ∧ Along step meets s as ↔ Along step good s as)
  | [], s, hs => by simp [Always, Along, hs]
  | a :: as, s, hs => by
    simp only [Always, Along, hs, true_and]
    constructor
    · rintro ⟨halways, hmeets⟩ t ht
      have hPt : P t := by
        cases as with
        | nil => exact halways t ht
        | cons b bs => exact (halways t ht).1
      refine ⟨(hstep s a t hs ht).mpr ⟨hPt, (hmeets t ht).1⟩, ?_⟩
      exact (always_and_along_iff hstep hPt).mp ⟨halways t ht, (hmeets t ht).2⟩
    · intro hgood
      refine ⟨fun t ht => ?_, fun t ht => ?_⟩
      · obtain ⟨hPt, -⟩ := (hstep s a t hs ht).mp (hgood t ht).1
        exact ((always_and_along_iff hstep hPt).mpr (hgood t ht).2).1
      · obtain ⟨hPt, hmeetsa⟩ := (hstep s a t hs ht).mp (hgood t ht).1
        exact ⟨hmeetsa, ((always_and_along_iff hstep hPt).mpr (hgood t ht).2).2⟩

/-- A condition on an abstraction of the state can be followed in the abstract
system, when each step there is the abstraction of the step here. -/
theorem along_abs {τ : Type*} {step' : τ → α → Option τ} {abs : σ → τ} {I : σ → Prop} {good : τ → α → Prop}
    (hI : ∀ s a t, I s → step s a = some t → I t) (habs : ∀ s a, I s → (step s a).map abs = step' (abs s) a) :
    ∀ {as : List α} {s : σ}, I s → (Along step (fun s a => good (abs s) a) s as ↔ Along step' good (abs s) as)
  | [], _, _ => Iff.rfl
  | a :: as, s, hs => by
    simp only [Along]
    rw [← habs s a hs]
    cases ht : step s a with
    | none => simp
    | some t => simp [along_abs hI habs (hI s a t hs ht)]

end Lib
