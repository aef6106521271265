/-
What the operations on gaps do to the amounts: a gap that is added is there,
and what a walk takes from the gaps is what it finds for the constraints.
-/
import Compss.MultiObjective.GapScheduling
import Mathlib.Algebra.BigOperators.Group.Finset.Basic

namespace Compss.MultiObjective

open ResourceDescription MOResourceScheduler

variable {ρ ι : Type} [ResourceDescription ρ]

namespace Accounting

variable (acc : Accounting ρ ι)

/-- What the gaps of one origin hold. -/
def units (o : Option Origin) (gs : List (Gap ρ)) (i : ι) : Int :=
  (gs.map fun g => if g.origin = o then acc.amount g.resources i else 0).sum

/-- What all the gaps hold. -/
def total (gs : List (Gap ρ)) (i : ι) : Int := (gs.map fun g => acc.amount g.resources i).sum

variable {acc} {o : Option Origin} {i : ι} {g : Gap ρ} {gs hs : List (Gap ρ)}

@[simp] theorem units_nil : acc.units o [] i = 0 := rfl

theorem units_cons : acc.units o (g :: gs) i = (if g.origin = o then acc.amount g.resources i else 0) + acc.units o gs i := by
  simp [units]

@[simp] theorem units_append : acc.units o (gs ++ hs) i = acc.units o gs i + acc.units o hs i := by
  simp [units]

@[simp] theorem units_reverse : acc.units o gs.reverse i = acc.units o gs i := by
  induction gs with
  | nil => rfl
  | cons g gs ih => rw [List.reverse_cons, units_append, ih, units_cons, units_cons, units_nil]; omega

@[simp] theorem total_nil : acc.total [] i = 0 := rfl

theorem total_cons : acc.total (g :: gs) i = acc.amount g.resources i + acc.total gs i := by
  simp [total]

@[simp] theorem total_append : acc.total (gs ++ hs) i = acc.total gs i + acc.total hs i := by
  simp [total]

/-- The origin of no gap holds nothing. -/
theorem units_eq_zero (h : ∀ g ∈ gs, g.origin ≠ o) : acc.units o gs i = 0 := by
  induction gs with
  | nil => rfl
  | cons g gs ih =>
    rw [units_cons, if_neg (h g (by simp)), ih fun g hg => h g (by simp [hg])]
    rfl

theorem units_filter_ne {o' : Option Origin} (h : o ≠ o') :
    acc.units o (gs.filter fun g => g.origin ≠ o') i = acc.units o gs i := by
  induction gs with
  | nil => rfl
  | cons g gs ih =>
    rw [List.filter_cons, units_cons]
    by_cases hg : g.origin = o'
    · rw [if_neg (by simpa using hg), ih, if_neg (by rw [hg]; exact h.symm)]
      omega
    · rw [if_pos (by simpa using hg), units_cons, ih]

theorem total_nonneg (h : ∀ g ∈ gs, acc.Valid g.resources) : 0 ≤ acc.total gs i := by
  induction gs with
  | nil => exact Int.le_refl 0
  | cons g gs ih =>
    have hhead := acc.amount_nonneg (h g (by simp)) i
    have htail := ih fun g hg => h g (by simp [hg])
    rw [total_cons]
    omega

end Accounting

open Accounting

variable {acc : Accounting ρ ι}

/-! ## Adding gaps -/

theorem mergeGap_amounts {g : Gap ρ} (hg : acc.Valid g.resources) : ∀ {gs hs : List (Gap ρ)},
    (∀ x ∈ gs, acc.Valid x.resources) → mergeGap g gs = some hs →
    (∀ x ∈ hs, acc.Valid x.resources) ∧ (∀ o i, acc.units o hs i = acc.units o gs i + acc.units o [g] i) ∧
      ∀ x ∈ hs, ∃ y ∈ gs, y.origin = x.origin
  | registered :: gs, hs, hgs, h => by
    rw [mergeGap] at h
    have hreg := hgs registered (by simp)
    split at h
    · next horigin =>
      cases h
      obtain ⟨hvalid, hsum⟩ := acc.increase hreg hg
      refine ⟨fun x hx => ?_, fun o i => ?_, fun x hx => ?_⟩
      · rcases List.mem_cons.mp hx with rfl | hx
        · exact hvalid
        · exact hgs x (by simp [hx])
      · simp only [units_cons, units_nil, hsum, ← horigin]
        split <;> omega
      · rcases List.mem_cons.mp hx with rfl | hx
        · exact ⟨registered, by simp, rfl⟩
        · exact ⟨x, by simp [hx], rfl⟩
    · obtain ⟨hs', hs'eq, rfl⟩ := Option.map_eq_some_iff.mp h
      obtain ⟨hvalid, hunits, horigin⟩ := mergeGap_amounts hg (fun x hx => hgs x (by simp [hx])) hs'eq
      refine ⟨fun x hx => ?_, fun o i => ?_, fun x hx => ?_⟩
      · rcases List.mem_cons.mp hx with rfl | hx
        · exact hreg
        · exact hvalid x hx
      · simp only [units_cons, units_nil, hunits]
        omega
      · rcases List.mem_cons.mp hx with rfl | hx
        · exact ⟨x, by simp, rfl⟩
        · obtain ⟨y, hy, heq⟩ := horigin x hx
          exact ⟨y, by simp [hy], heq⟩

omit [ResourceDescription ρ] in
theorem mem_insertGap {g x : Gap ρ} : ∀ {gs : List (Gap ρ)}, x ∈ insertGap g gs ↔ x = g ∨ x ∈ gs
  | [] => by simp [insertGap]
  | gap :: gs => by
    rw [insertGap]
    split
    · rw [List.mem_cons, mem_insertGap, List.mem_cons]
      tauto
    · rw [List.mem_cons]

theorem insertGap_units {g : Gap ρ} {o : Option Origin} {i : ι} : ∀ {gs : List (Gap ρ)},
    acc.units o (insertGap g gs) i = acc.units o gs i + acc.units o [g] i
  | [] => by simp [insertGap]
  | gap :: gs => by
    rw [insertGap]
    split
    · rw [units_cons, insertGap_units]
      simp only [units_cons, units_nil]
      omega
    · simp only [units_cons, units_nil]
      omega

/-- A gap that is added is there, with the ones that were. -/
theorem addGap_amounts {g : Gap ρ} {gs : List (Gap ρ)} (hg : acc.Valid g.resources) (hgs : ∀ x ∈ gs, acc.Valid x.resources) :
    (∀ x ∈ addGap gs g, acc.Valid x.resources) ∧
      (∀ o i, acc.units o (addGap gs g) i = acc.units o gs i + acc.units o [g] i) ∧
      ∀ x ∈ addGap gs g, x.origin = g.origin ∨ ∃ y ∈ gs, y.origin = x.origin := by
  unfold addGap
  cases hm : mergeGap g gs with
  | some hs =>
    obtain ⟨hvalid, hunits, horigin⟩ := mergeGap_amounts hg hgs hm
    exact ⟨hvalid, hunits, fun x hx => .inr (horigin x hx)⟩
  | none =>
    refine ⟨fun x hx => ?_, fun o i => insertGap_units, fun x hx => ?_⟩
    · rcases mem_insertGap.mp hx with rfl | hx
      · exact hg
      · exact hgs x hx
    · rcases mem_insertGap.mp hx with rfl | hx
      · exact .inl rfl
      · exact .inr ⟨x, hx, rfl⟩

theorem addGaps_amounts : ∀ {new gs : List (Gap ρ)}, (∀ x ∈ new, acc.Valid x.resources) → (∀ x ∈ gs, acc.Valid x.resources) →
    (∀ x ∈ new.foldl addGap gs, acc.Valid x.resources) ∧
      (∀ o i, acc.units o (new.foldl addGap gs) i = acc.units o gs i + acc.units o new i) ∧
      ∀ x ∈ new.foldl addGap gs, ∃ y ∈ gs ++ new, y.origin = x.origin
  | [], gs, _, hgs => ⟨hgs, fun o i => by simp, fun x hx => ⟨x, by simpa using hx, rfl⟩⟩
  | g :: new, gs, hnew, hgs => by
    obtain ⟨hvalid, hunits, horigin⟩ := addGap_amounts (hnew g (by simp)) hgs
    obtain ⟨hvalid', hunits', horigin'⟩ := addGaps_amounts (fun x hx => hnew x (List.mem_cons_of_mem g hx)) hvalid
    refine ⟨hvalid', fun o i => ?_, fun x hx => ?_⟩
    · rw [List.foldl_cons, hunits', hunits]
      simp only [units_cons, units_nil]
      omega
    · obtain ⟨y, hy, hyx⟩ := horigin' x hx
      rcases List.mem_append.mp hy with hy | hy
      · rcases horigin y hy with heq | ⟨z, hz, heq⟩
        · exact ⟨g, by simp, heq ▸ hyx⟩
        · exact ⟨z, by simp [hz], heq.trans hyx⟩
      · exact ⟨y, by simp [hy], hyx⟩

/-! ## Walking over the gaps -/

/-- What two descriptions have in common, moved out of both. -/
theorem reduceCommonDynamics_amounts {x y : ρ} (hx : acc.Valid x) (hy : acc.Valid y) :
    ∃ x' y' used, reduceCommonDynamics x y = (x', y', used) ∧ acc.Valid x' ∧ acc.Valid y' ∧
      (∀ i, acc.amount used i = min (acc.amount x i) (acc.amount y i)) ∧
      (∀ i, acc.amount x' i = acc.amount x i - acc.amount used i) ∧
      (∀ i, acc.amount y' i = acc.amount y i - acc.amount used i) ∧
      (isDynamicConsuming used = true → acc.Whole used) ∧ (isDynamicConsuming used = false → ∀ i, acc.amount used i = 0) ∧
      isDynamicUseless used = !isDynamicConsuming used :=
  ⟨_, _, _, rfl, (acc.reduce_left hx hy).1, (acc.reduce_right hx hy).1, acc.amount_commons hx hy, (acc.reduce_left hx hy).2,
    (acc.reduce_right hx hy).2, acc.whole_commons hx hy, acc.commons_idle hx hy, acc.commons_useless hx hy⟩

/-- What a walk over the gaps does. -/
structure Walks (acc : Accounting ρ ι) (gs : List (Gap ρ)) (c : ρ) (w : Walk ρ) : Prop where
  gaps : ∀ g ∈ w.gaps, acc.Valid g.resources
  constraints : acc.Valid w.constraints
  predecessors : ∀ g ∈ w.predecessors, acc.Whole g.resources
  units : ∀ o i, acc.units o gs i = acc.units o w.gaps i + acc.units o w.predecessors i
  needed : ∀ i, acc.amount c i = acc.amount w.constraints i + acc.total w.predecessors i
  covered : w.fullyCoveredReqs = true → ∀ i, acc.amount w.constraints i = 0
  origin : ∀ g ∈ w.gaps ++ w.predecessors, ∃ g' ∈ gs, g'.origin = g.origin

theorem useGaps_walks (inTime : Int → Bool) : ∀ {gs : List (Gap ρ)} {c : ρ}, (∀ g ∈ gs, acc.Valid g.resources) →
    acc.Valid c → Walks acc gs c (useGaps inTime gs c)
  | [], c, _, hc => by
    refine ⟨by simp [useGaps], hc, by simp [useGaps], by simp [useGaps], by simp [useGaps], fun h => ?_, by simp [useGaps]⟩
    cases h
  | gap :: gs, c, hgs, hc => by
    have hgap := hgs gap (by simp)
    have hrest : ∀ g ∈ gs, acc.Valid g.resources := fun g hg => hgs g (List.mem_cons_of_mem gap hg)
    rw [useGaps]
    split
    · obtain ⟨gapResource, c', used, heq, hgap', hc', hmin, hleft, hright, hwhole, hidle, -⟩ :=
        reduceCommonDynamics_amounts hgap hc
      simp only [heq]
      obtain ⟨predecessors, hpred⟩ : ∃ l, l = if isDynamicConsuming used then [{ gap with resources := used }] else [] := ⟨_, rfl⟩
      obtain ⟨kept, hkept⟩ : ∃ l, l = if isDynamicUseless gapResource then [] else [{ gap with resources := gapResource }] :=
        ⟨_, rfl⟩
      rw [← hpred, ← hkept]
      -- Whether they are kept or not, the two parts hold what they should.
      have hpredTotal : ∀ i, acc.total predecessors i = acc.amount used i := by
        intro i
        rw [hpred]
        split
        · simp [total_cons]
        · next h => simp [hidle (by simpa using h)]
      have hpredUnits : ∀ o i, acc.units o predecessors i = if gap.origin = o then acc.amount used i else 0 := by
        intro o i
        rw [hpred]
        split
        · simp [units_cons]
        · next h => simp [hidle (by simpa using h)]
      have hkeptUnits : ∀ o i, acc.units o kept i = if gap.origin = o then acc.amount gapResource i else 0 := by
        intro o i
        rw [hkept]
        split
        · next h => simp [(acc.useless_iff hgap').mp h]
        · simp [units_cons]
      have hpredWhole : ∀ g ∈ predecessors, acc.Whole g.resources ∧ g.origin = gap.origin := by
        intro g hg
        rw [hpred] at hg
        split at hg
        · next h => rw [List.mem_singleton.mp hg]; exact ⟨hwhole h, rfl⟩
        · cases hg
      have hkeptValid : ∀ g ∈ kept, acc.Valid g.resources ∧ g.origin = gap.origin := by
        intro g hg
        rw [hkept] at hg
        split at hg
        · cases hg
        · rw [List.mem_singleton.mp hg]; exact ⟨hgap', rfl⟩
      split
      · next huseless =>
        refine ⟨fun g hg => ?_, hc', fun g hg => (hpredWhole g hg).1, fun o i => ?_, fun i => ?_,
          fun _ => (acc.useless_iff hc').mp huseless, fun g hg => ?_⟩
        · rcases List.mem_append.mp hg with hg | hg
          · exact (hkeptValid g hg).1
          · exact hrest g hg
        · rw [units_append, hkeptUnits, hpredUnits, units_cons, hleft]
          split <;> omega
        · rw [hpredTotal, hright]
          omega
        · rcases List.mem_append.mp hg with hg | hg
          · rcases List.mem_append.mp hg with hg | hg
            · exact ⟨gap, by simp, (hkeptValid g hg).2.symm⟩
            · exact ⟨g, by simp [hg], rfl⟩
          · exact ⟨gap, by simp, (hpredWhole g hg).2.symm⟩
      · have ih := useGaps_walks inTime hrest hc'
        refine ⟨fun g hg => ?_, ih.constraints, fun g hg => ?_, fun o i => ?_, fun i => ?_, ih.covered, fun g hg => ?_⟩
        · rcases List.mem_append.mp hg with hg | hg
          · exact (hkeptValid g hg).1
          · exact ih.gaps g hg
        · rcases List.mem_append.mp hg with hg | hg
          · exact (hpredWhole g hg).1
          · exact ih.predecessors g hg
        · have := ih.units o i
          rw [units_append, units_append, hkeptUnits, hpredUnits, units_cons, hleft]
          split <;> omega
        · have := ih.needed i
          rw [total_append, hpredTotal]
          have := hright i
          dsimp only
          omega
        · have hcases : g ∈ kept ∨ g ∈ predecessors ∨ g ∈ (useGaps inTime gs c').gaps ++ (useGaps inTime gs c').predecessors := by
            simp only [List.mem_append] at hg ⊢
            tauto
          rcases hcases with hg | hg | hg
          · exact ⟨gap, by simp, (hkeptValid g hg).2.symm⟩
          · exact ⟨gap, by simp, (hpredWhole g hg).2.symm⟩
          · obtain ⟨g', hg', heq⟩ := ih.origin g hg
            exact ⟨g', by simp [hg'], heq⟩
    · have ih := useGaps_walks inTime hrest hc
      refine ⟨fun g hg => ?_, ih.constraints, ih.predecessors, fun o i => ?_, ih.needed, ih.covered, fun g hg => ?_⟩
      · rcases List.mem_cons.mp hg with rfl | hg
        · exact hgap
        · exact ih.gaps g hg
      · have := ih.units o i
        dsimp only
        rw [units_cons, units_cons]
        omega
      · rcases List.mem_cons.mp hg with rfl | hg
        · exact ⟨g, by simp, rfl⟩
        · obtain ⟨g', hg', heq⟩ := ih.origin g hg
          exact ⟨g', by simp [hg'], heq⟩

theorem walkGaps_walks {gs : List (Gap ρ)} {c : ρ} (hgs : ∀ g ∈ gs, acc.Valid g.resources) (hc : acc.Valid c)
    (expectedStart : Int) : Walks acc gs c (walkGaps gs expectedStart c) := by
  have hrev : ∀ g ∈ gs.reverse, acc.Valid g.resources := fun g hg => hgs g (List.mem_reverse.mp hg)
  have early := useGaps_walks (fun t => t ≤ expectedStart) hrev hc
  rw [walkGaps]
  set w := useGaps (fun t => t ≤ expectedStart) gs.reverse c
  have hgaps : ∀ g ∈ w.gaps.reverse, acc.Valid g.resources := fun g hg => early.gaps g (List.mem_reverse.mp hg)
  split
  · refine ⟨hgaps, early.constraints, early.predecessors, fun o i => ?_, early.needed, early.covered, fun g hg => ?_⟩
    · rw [units_reverse, ← early.units, units_reverse]
    · obtain ⟨g', hg', heq⟩ := early.origin g (by simpa using hg)
      exact ⟨g', List.mem_reverse.mp hg', heq⟩
  · have late := useGaps_walks (fun t => expectedStart < t && t < maxTime) hgaps early.constraints
    refine ⟨late.gaps, late.constraints, fun g hg => ?_, fun o i => ?_, fun i => ?_, late.covered, fun g hg => ?_⟩
    · rcases List.mem_append.mp hg with hg | hg
      · exact early.predecessors g hg
      · exact late.predecessors g hg
    · have h₁ := early.units o i
      have h₂ := late.units o i
      rw [units_reverse] at h₁ h₂
      rw [units_append]
      dsimp only
      omega
    · have h₁ := early.needed i
      have h₂ := late.needed i
      rw [total_append]
      dsimp only
      omega
    · have hcases : g ∈ w.predecessors ∨ g ∈ (useGaps (fun t => expectedStart < t && t < maxTime) w.gaps.reverse w.constraints).gaps ++
          (useGaps (fun t => expectedStart < t && t < maxTime) w.gaps.reverse w.constraints).predecessors := by
        simp only [List.mem_append] at hg ⊢
        tauto
      have hearly : ∀ g ∈ w.gaps ++ w.predecessors, ∃ g' ∈ gs, g'.origin = g.origin := fun g hg => by
        obtain ⟨g', hg', heq⟩ := early.origin g hg
        exact ⟨g', List.mem_reverse.mp hg', heq⟩
      rcases hcases with hg | hg
      · exact hearly g (by simp [hg])
      · obtain ⟨g', hg', heq⟩ := late.origin g hg
        obtain ⟨g'', hg'', heq'⟩ := hearly g' (List.mem_append_left _ (List.mem_reverse.mp hg'))
        exact ⟨g'', hg'', heq'.trans heq⟩

/-! ## Covering -/

/-- The parts `used` are taken from the gaps and add up to `x`. -/
structure Taken (acc : Accounting ρ ι) (gs : List (Gap ρ)) (x : ρ) (gs' used : List (Gap ρ)) : Prop where
  valid : ∀ g ∈ gs', acc.Valid g.resources
  whole : ∀ g ∈ used, acc.Whole g.resources
  units : ∀ o i, acc.units o gs i = acc.units o gs' i + acc.units o used i
  total : ∀ i, acc.total gs i = acc.total gs' i + acc.total used i
  covered : ∀ i, acc.total used i = acc.amount x i
  origin : ∀ g ∈ gs' ++ used, ∃ g' ∈ gs, g'.origin = g.origin

/-- One gap more to take from. -/
theorem Taken.cons {gap : Gap ρ} {gs gs' kept used : List (Gap ρ)} {x x' used₁ : ρ} (h : Taken acc gs x' gs' used)
    (hwhole : acc.Whole used₁) (hkept : ∀ g ∈ kept, acc.Valid g.resources ∧ g.origin = gap.origin)
    (hunits : ∀ o i, acc.units o kept i = if gap.origin = o then acc.amount gap.resources i - acc.amount used₁ i else 0)
    (htotal : ∀ i, acc.total kept i = acc.amount gap.resources i - acc.amount used₁ i)
    (hx : ∀ i, acc.amount x' i = acc.amount x i - acc.amount used₁ i) :
    Taken acc (gap :: gs) x (kept ++ gs') ({ gap with resources := used₁ } :: used) where
  valid g hg := (List.mem_append.mp hg).elim (fun hg => (hkept g hg).1) (h.valid g)
  whole g hg := by
    rcases List.mem_cons.mp hg with rfl | hg
    · exact hwhole
    · exact h.whole g hg
  units o i := by
    have := h.units o i
    rw [units_cons, units_append, units_cons, hunits]
    dsimp only
    split <;> omega
  total i := by
    have := h.total i
    rw [total_cons, total_append, total_cons, htotal]
    dsimp only
    omega
  covered i := by
    have := h.covered i
    have := hx i
    rw [total_cons]
    dsimp only
    omega
  origin g hg := by
    have hcases : g ∈ kept ∨ g = { gap with resources := used₁ } ∨ g ∈ gs' ++ used := by
      simp only [List.mem_append, List.mem_cons] at hg ⊢
      tauto
    rcases hcases with hg | rfl | hg
    · exact ⟨gap, by simp, (hkept g hg).2.symm⟩
    · exact ⟨gap, by simp, rfl⟩
    · obtain ⟨g', hg', heq⟩ := h.origin g hg
      exact ⟨g', by simp [hg'], heq⟩

theorem Taken.nil {gs : List (Gap ρ)} {x : ρ} (hgs : ∀ g ∈ gs, acc.Valid g.resources) (hx : ∀ i, acc.amount x i = 0) :
    Taken acc gs x gs [] :=
  ⟨hgs, by simp, by simp, by simp, by simp [hx], fun g hg => ⟨g, by simpa using hg, rfl⟩⟩

/-- When there is enough in the gaps, they cover what is asked for; the last one
is not touched. -/
theorem cover_taken : ∀ {gs : List (Gap ρ)} {f : Gap ρ} {x : ρ}, (∀ g ∈ gs, acc.Valid g.resources) →
    acc.Valid f.resources → acc.Valid x → (∀ i, acc.amount x i ≤ acc.total gs i) →
    ∃ gs' f' x' used, cover (gs ++ [f]) x = (gs' ++ [f'], x', used) ∧ Taken acc gs x gs' used ∧
      acc.Valid f'.resources ∧ f'.origin = f.origin ∧ ∀ i, acc.amount f'.resources i = acc.amount f.resources i
  | [], f, x, _, hf, hx, hle => by
    have hzero : ∀ i, acc.amount x i = 0 := fun i => by
      have h₁ := hle i
      have h₂ := acc.amount_nonneg hx i
      rw [total_nil] at h₁
      omega
    obtain ⟨f', x', used, heq, hf', -, hmin, hleft, -, hwhole, -, huseless⟩ := reduceCommonDynamics_amounts hf hx
    have hused : ∀ i, acc.amount used i = 0 := fun i => by
      have := acc.amount_nonneg hf i
      rw [hmin, hzero]
      omega
    have hidle : isDynamicUseless used = true := by
      by_contra h
      have hcons : isDynamicConsuming used = true := by
        rw [huseless] at h
        simpa using h
      exact h ((acc.useless_iff (acc.valid_of_whole (hwhole hcons))).mpr hused)
    refine ⟨[], { f with resources := f' }, x', [], ?_, .nil (by simp) hzero, hf', rfl, fun i => ?_⟩
    · rw [List.nil_append, cover, heq]
      simp only [hidle, if_true, cover, List.nil_append]
    · have := hleft i
      have := hused i
      dsimp only
      omega
  | gap :: gs, f, x, hgs, hf, hx, hle => by
    have hrest : ∀ g ∈ gs, acc.Valid g.resources := fun g hg => hgs g (List.mem_cons_of_mem gap hg)
    obtain ⟨gap', x', used, heq, hgap', hx', hmin, hleft, hright, hwhole, hidle, huseless⟩ :=
      reduceCommonDynamics_amounts (hgs gap (by simp)) hx
    have hle' : ∀ i, acc.amount x' i ≤ acc.total gs i := fun i => by
      have h₁ := hle i
      have h₂ := hmin i
      have h₃ := hright i
      have h₄ := total_nonneg (i := i) hrest
      rw [total_cons] at h₁
      omega
    rw [List.cons_append, cover, heq]
    by_cases hcons : isDynamicConsuming used = true
    · have hnot : ¬ isDynamicUseless used = true := by rw [huseless, hcons]; decide
      simp only [if_neg hnot]
      obtain ⟨kept, hkept⟩ : ∃ l, l = if isDynamicUseless gap' then [] else [{ gap with resources := gap' }] := ⟨_, rfl⟩
      rw [← hkept]
      have hkeptUnits : ∀ o i, acc.units o kept i =
          if gap.origin = o then acc.amount gap.resources i - acc.amount used i else 0 := by
        intro o i
        rw [hkept, ← hleft]
        split
        · next h => simp [(acc.useless_iff hgap').mp h]
        · simp [units_cons]
      have hkeptTotal : ∀ i, acc.total kept i = acc.amount gap.resources i - acc.amount used i := by
        intro i
        rw [hkept, ← hleft]
        split
        · next h => simp [(acc.useless_iff hgap').mp h]
        · simp [total_cons]
      have hkeptValid : ∀ g ∈ kept, acc.Valid g.resources ∧ g.origin = gap.origin := by
        intro g hg
        rw [hkept] at hg
        split at hg
        · cases hg
        · rw [List.mem_singleton.mp hg]; exact ⟨hgap', rfl⟩
      split
      · next hx'zero =>
        have hnil : Taken acc gs x' gs [] := .nil hrest ((acc.useless_iff hx').mp hx'zero)
        exact ⟨kept ++ gs, f, x', _, by rw [List.append_assoc],
          hnil.cons (hwhole hcons) hkeptValid hkeptUnits hkeptTotal hright, hf, rfl, fun _ => rfl⟩
      · obtain ⟨gs', f', x'', used', hcover, htaken, hf', horigin, hamount⟩ := cover_taken hrest hf hx' hle'
        rw [hcover]
        exact ⟨kept ++ gs', f', x'', _, by simp only [List.append_assoc],
          htaken.cons (hwhole hcons) hkeptValid hkeptUnits hkeptTotal hright, hf', horigin, hamount⟩
    · -- Nothing is taken from this gap.
      have hzero := hidle (by simpa using hcons)
      have hidle' : isDynamicUseless used = true := by
        rw [huseless]
        simpa using hcons
      obtain ⟨gs', f', x'', used', hcover, htaken, hf', horigin, hamount⟩ := cover_taken hrest hf hx' hle'
      simp only [hidle', if_true, hcover]
      refine ⟨{ gap with resources := gap' } :: gs', f', x'', used', rfl, ⟨?_, htaken.whole, ?_, ?_, ?_, ?_⟩, hf', horigin, hamount⟩
      · intro g hg
        rcases List.mem_cons.mp hg with rfl | hg
        · exact hgap'
        · exact htaken.valid g hg
      · intro o i
        have := htaken.units o i
        rw [units_cons, units_cons]
        dsimp only
        rw [hleft, hzero]
        split <;> omega
      · intro i
        have := htaken.total i
        rw [total_cons, total_cons]
        dsimp only
        rw [hleft, hzero]
        omega
      · intro i
        have := htaken.covered i
        have := hright i
        have := hzero i
        omega
      · intro g hg
        rcases List.mem_cons.mp hg with rfl | hg
        · exact ⟨gap, by simp, rfl⟩
        · obtain ⟨g', hg', heq⟩ := htaken.origin g hg
          exact ⟨g', by simp [hg'], heq⟩

end Compss.MultiObjective
