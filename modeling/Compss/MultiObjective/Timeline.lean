/-
The resources of a worker in the course of time: what the gaps that begin up to
a time hold, what the actions that end up to then give back, and what is in use
are together what the worker has.
-/
import Compss.MultiObjective.GapAmounts
import Compss.MultiObjective.LocalOptimization
import Compss.MultiObjective.MethodDescriptions

namespace Compss.MultiObjective

open ResourceDescription Accounting

variable {ρ ι : Type} [ResourceDescription ρ]

/-- What is left after something was taken can be copied, and nothing changes
when nothing is taken. -/
structure Accounting.Copies (acc : Accounting ρ ι) : Prop where
  whole_of_left : ∀ {x}, acc.Valid x → isDynamicUseless x = false → acc.Whole x
  reduce_idle : ∀ {x y}, acc.Valid x → acc.Valid y → isDynamicUseless (getDynamicCommons x y) = true →
    reduceDynamic x (getDynamicCommons x y) = x

theorem ServiceResourceDescription.copies : ServiceResourceDescription.accounting.Copies where
  whole_of_left h _ := h
  reduce_idle := by
    intro x y _ _ h
    rw [isDynamicUseless_iff] at h
    show ({ x with connections := x.connections - _ } : ServiceResourceDescription) = x
    rw [h, Int.sub_zero]

open Resources in
theorem cpuAccounting_copies {φ : Type} [JavaFloat φ] [NegativeUnassigned φ] (k : Processor φ) :
    (cpuAccounting k).Copies where
  whole_of_left := by
    rintro x ⟨p, hp⟩ h
    have hne : p.computingUnits ≠ 0 := fun h0 => by
      have huseless := hp.useless_iff.mpr h0
      change x.isDynamicUseless = false at h
      rw [huseless] at h
      cases h
    have hpos := hp.units
    exact ⟨p, hp, by omega⟩
  reduce_idle := by
    rintro x y ⟨p, hx⟩ ⟨q, hy⟩ h
    change (x.getDynamicCommons y).isDynamicUseless = true at h
    show (x.reduceDynamic (x.getDynamicCommons y)).1 = x
    rcases commons_asks hx hy with ⟨hpos, hone⟩ | ⟨hzero, heq, hasks⟩
    · have : (p.setComputingUnits (min p.computingUnits q.computingUnits)).computingUnits = 0 := hone.useless_iff.mp h
      have hunits : min p.computingUnits q.computingUnits = 0 := this
      omega
    · exact reduce_nil hx hasks

namespace Accounting

variable (acc : Accounting ρ ι)

/-- What the gaps hold that begin at one of the times. -/
def during (p : Int → Bool) (gs : List (Gap ρ)) (i : ι) : Int := acc.total (gs.filter fun g => p g.initialTime) i

variable {acc} {p : Int → Bool} {i : ι} {g : Gap ρ} {gs hs : List (Gap ρ)}

@[simp] theorem during_nil : acc.during p [] i = 0 := rfl

theorem during_cons :
    acc.during p (g :: gs) i = (if p g.initialTime then acc.amount g.resources i else 0) + acc.during p gs i := by
  rw [during, List.filter_cons]
  split
  · rw [total_cons, during]
  · rw [during]
    omega

@[simp] theorem during_append : acc.during p (gs ++ hs) i = acc.during p gs i + acc.during p hs i := by
  simp [during]

theorem during_nonneg (h : ∀ g ∈ gs, acc.Valid g.resources) : 0 ≤ acc.during p gs i :=
  total_nonneg fun g hg => h g (List.mem_of_mem_filter hg)

/-- At all the times. -/
theorem during_all : acc.during (fun _ => true) gs i = acc.total gs i := by simp [during]

theorem during_eq_total (h : ∀ g ∈ gs, p g.initialTime = true) : acc.during p gs i = acc.total gs i := by
  rw [during, List.filter_eq_self.mpr h]

end Accounting

/-! ## Taking resources from the gaps -/

variable {acc : Accounting ρ ι} {gs : List (Gap ρ)} {r m : ρ} {t top : Int}

/-- What `reserveGaps` leaves and takes. -/
structure Reserved (acc : Accounting ρ ι) (t : Int) (gs : List (Gap ρ)) (r : ρ) (x : List (Gap ρ) × List (TmpGap ρ)) :
    Prop where
  whole : ∀ g ∈ x.1, acc.Whole g.resources
  during : ∀ p i, acc.during p gs i = acc.during p x.1 i + acc.during p (x.2.map TmpGap.toGap) i
  taken : ∀ i, acc.total (x.2.map TmpGap.toGap) i = acc.amount r i
  kept : (x.1.map fun g => (g.initialTime, g.origin)).Sublist (gs.map fun g => (g.initialTime, g.origin))
  source : ∀ g ∈ x.2, acc.Valid g.resources ∧ g.endTime = t ∧ ∃ g' ∈ gs, g'.initialTime = g.initialTime ∧ g'.origin = g.origin

theorem reserveGaps_reserved (hc : acc.Copies) : ∀ {gs : List (Gap ρ)} {r : ρ}, (∀ g ∈ gs, acc.Whole g.resources) →
    acc.Valid r → (∀ i, acc.amount r i ≤ acc.total gs i) → Reserved acc t gs r (reserveGaps t gs r)
  | [], r, _, hr, hle => by
    refine ⟨by simp [reserveGaps], by simp [reserveGaps], fun i => ?_, by simp [reserveGaps], by simp [reserveGaps]⟩
    have h₁ := hle i
    have h₂ := acc.amount_nonneg hr i
    rw [total_nil] at h₁
    simp only [reserveGaps, List.map_nil, total_nil]
    omega
  | g :: gs, r, hgs, hr, hle => by
    have hrest : ∀ g ∈ gs, acc.Whole g.resources := fun x hx => hgs x (List.mem_cons_of_mem _ hx)
    have hg := acc.valid_of_whole (hgs g (by simp))
    rw [reserveGaps]
    by_cases huseless : isDynamicUseless r = true
    · rw [if_pos huseless]
      exact ⟨hgs, fun p i => by simp, fun i => by simp [(acc.useless_iff hr).mp huseless i], .refl _, by simp⟩
    rw [if_neg huseless]
    obtain ⟨rd, r', used, heq, hrd, hr', hmin, hleft, hright, hwhole, hidle, hused⟩ := reduceCommonDynamics_amounts hg hr
    have hle' : ∀ i, acc.amount r' i ≤ acc.total gs i := fun i => by
      have h₁ := hle i
      have h₂ := hmin i
      have h₃ := hright i
      have h₄ := total_nonneg (i := i) fun g hg => acc.valid_of_whole (hrest g hg)
      rw [total_cons] at h₁
      omega
    have ih := reserveGaps_reserved hc hrest hr' hle'
    obtain ⟨x, hx⟩ : ∃ x, reserveGaps t gs r' = x := ⟨_, rfl⟩
    rw [hx] at ih
    simp only [heq, hx]
    by_cases hconsuming : isDynamicConsuming used = true
    · -- A part of the gap is taken.
      have hnot : ¬ isDynamicUseless used = true := by rw [hused, hconsuming]; decide
      rw [if_neg hnot]
      refine ⟨fun y hy => ?_, fun p i => ?_, fun i => ?_, ?_, fun y hy => ?_⟩
      · dsimp only at hy
        split at hy
        · exact ih.whole y hy
        · next hleftover =>
          rcases List.mem_cons.mp hy with rfl | hy
          · exact hc.whole_of_left hrd (by simpa using hleftover)
          · exact ih.whole y hy
      · have hd := ih.during p i
        have hl := hleft i
        dsimp only
        split
        · next hzero =>
          have hz := (acc.useless_iff hrd).mp hzero i
          simp only [List.map_cons, during_cons, hd]
          split <;> omega
        · simp only [List.map_cons, during_cons, hd]
          split <;> omega
      · have hd := ih.taken i
        have hl := hright i
        simp only [List.map_cons, total_cons, hd]
        omega
      · dsimp only
        split
        · exact ih.kept.cons _
        · exact ih.kept.cons₂ _
      · rcases List.mem_cons.mp hy with rfl | hy
        · exact ⟨acc.valid_of_whole (hwhole hconsuming), rfl, g, by simp, rfl, rfl⟩
        · obtain ⟨hvalid, hend, g', hg', h⟩ := ih.source y hy
          exact ⟨hvalid, hend, g', List.mem_cons_of_mem _ hg', h⟩
    · -- The gap has nothing to give.
      have hzero := hidle (by simpa using hconsuming)
      have huse : isDynamicUseless used = true := by
        rw [hused]
        simpa using hconsuming
      have hrd' : rd = g.resources := by
        simp only [reduceCommonDynamics, Prod.mk.injEq] at heq
        obtain ⟨h₁, -, h₃⟩ := heq
        rw [← h₁]
        exact hc.reduce_idle hg hr (by rw [h₃]; exact huse)
      rw [if_pos huse]
      refine ⟨fun y hy => ?_, fun p i => ?_, fun i => ?_, ih.kept.cons₂ _, fun y hy => ?_⟩
      · rcases List.mem_cons.mp hy with rfl | hy
        · rw [hrd']
          exact hgs g (by simp)
        · exact ih.whole y hy
      · have hd := ih.during p i
        simp only [during_cons, hd, hrd']
        omega
      · have hd := ih.taken i
        have hl := hright i
        have hz := hzero i
        dsimp only
        omega
      · obtain ⟨hvalid, hend, g', hg', h⟩ := ih.source y hy
        exact ⟨hvalid, hend, g', List.mem_cons_of_mem _ hg', h⟩

/-- The time it gives is that of a gap, if there is one. -/
theorem searchGaps_time : ∀ {gs : List (Gap ρ)} {m : ρ} {top : Int},
    (searchGaps gs m top).2 = top ∨ ∃ g ∈ gs, (searchGaps gs m top).2 = g.initialTime
  | [], _, _ => .inl rfl
  | gap :: gs, m, top => by
    rw [searchGaps]
    dsimp only
    split
    · exact .inr ⟨gap, by simp, rfl⟩
    · rcases @searchGaps_time gs _ gap.initialTime with h | ⟨g, hg, h⟩
      · exact .inr ⟨gap, by simp, h⟩
      · exact .inr ⟨g, List.mem_cons_of_mem _ hg, h⟩

/-- What `searchGaps` finds missing, and that what would be taken for the same
amounts begins by the time it gives. -/
theorem searchGaps_spec (hc : acc.Copies) : ∀ {gs : List (Gap ρ)} {m : ρ} (top : Int),
    (∀ g ∈ gs, acc.Whole g.resources) → acc.Valid m →
    acc.Valid (searchGaps gs m top).1 ∧
    (∀ i, acc.amount (searchGaps gs m top).1 i = max 0 (acc.amount m i - acc.total gs i)) ∧
    (gs.Pairwise (fun g h => g.initialTime ≤ h.initialTime) → isDynamicUseless (searchGaps gs m top).1 = true →
      ∀ t r, acc.Valid r → (∀ i, acc.amount r i = acc.amount m i) →
        ∀ g ∈ (reserveGaps t gs r).2, g.initialTime ≤ (searchGaps gs m top).2)
  | [], m, top, _, hm => by
    refine ⟨hm, fun i => ?_, fun _ _ t r _ _ g hg => by simp [reserveGaps] at hg⟩
    have := acc.amount_nonneg hm i
    simp only [searchGaps, total_nil]
    omega
  | gap :: gs, m, top, hgs, hm => by
    have hrest : ∀ g ∈ gs, acc.Whole g.resources := fun x hx => hgs x (List.mem_cons_of_mem _ hx)
    have hgap := hgs gap (by simp)
    obtain ⟨rd, m', used, heq, hrd, hm', hmin, hleft, hright, -⟩ :=
      reduceCommonDynamics_amounts (acc.valid_of_whole (acc.whole_copy hgap)) hm
    have hcopy := acc.amount_copy hgap
    have hnonneg := fun i => acc.amount_nonneg hm i
    have hgapnonneg := fun i => acc.amount_nonneg (acc.valid_of_whole hgap) i
    have hreststotal := fun i => total_nonneg (i := i) fun g hg => acc.valid_of_whole (hrest g hg)
    have hamount : ∀ i, acc.amount m' i = max 0 (acc.amount m i - acc.amount gap.resources i) := fun i => by
      have h₁ := hmin i
      have h₂ := hright i
      have h₃ := hcopy i
      have h₄ := hnonneg i
      have h₅ := hgapnonneg i
      omega
    have ih := searchGaps_spec hc gap.initialTime hrest hm'
    rw [searchGaps, heq]
    dsimp only
    -- What is taken from the first gap, and the rest that is asked for.
    have hreserve : ∀ t r, acc.Valid r → (∀ i, acc.amount r i = acc.amount m i) → ∀ g ∈ (reserveGaps t (gap :: gs) r).2,
        g.initialTime = gap.initialTime ∨ ∃ r', acc.Valid r' ∧ (∀ i, acc.amount r' i = acc.amount m' i) ∧
          g ∈ (reserveGaps t gs r').2 := by
      intro t r hr hrm g hg
      obtain ⟨rd', r', used', heq', -, hr', hmin', -, hright', -⟩ := reduceCommonDynamics_amounts (acc.valid_of_whole hgap) hr
      have hr'm : ∀ i, acc.amount r' i = acc.amount m' i := fun i => by
        have h₁ := hmin' i
        have h₂ := hright' i
        have h₃ := hamount i
        have h₄ := hrm i
        have h₅ := hnonneg i
        have h₆ := hgapnonneg i
        omega
      rw [reserveGaps] at hg
      split at hg
      · cases hg
      · rw [heq'] at hg
        dsimp only at hg
        split at hg
        · exact .inr ⟨r', hr', hr'm, hg⟩
        · rcases List.mem_cons.mp hg with rfl | hg
          · exact .inl rfl
          · exact .inr ⟨r', hr', hr'm, hg⟩
    split
    · next huseless =>
      have hzero := (acc.useless_iff hm').mp huseless
      refine ⟨hm', fun i => ?_, fun hsorted _ t r hr hrm g hg => ?_⟩
      · have h₁ := hamount i
        have h₂ := hzero i
        have h₃ := hreststotal i
        rw [total_cons]
        dsimp only
        omega
      · rcases hreserve t r hr hrm g hg with h | ⟨r', hr', hr'm, hg'⟩
        · exact Int.le_of_eq h
        · -- Nothing more is asked for.
          have huse : isDynamicUseless r' = true := (acc.useless_iff hr').mpr fun i => (hr'm i).trans (hzero i)
          cases gs with
          | nil => simp [reserveGaps] at hg'
          | cons g' gs' =>
            rw [reserveGaps, if_pos huse] at hg'
            cases hg'
    · next hmissing =>
      obtain ⟨hvalid, hsum, hbound⟩ := ih
      refine ⟨hvalid, fun i => ?_, fun hsorted huseless t r hr hrm g hg => ?_⟩
      · have h₁ := hamount i
        have h₂ := hsum i
        have h₃ := hreststotal i
        have h₄ := hgapnonneg i
        rw [total_cons]
        omega
      · have htail := hsorted.of_cons
        rcases hreserve t r hr hrm g hg with h | ⟨r', hr', hr'm, hg'⟩
        · -- The last gap looked at begins no earlier than the first.
          rw [h]
          rcases @searchGaps_time _ _ gs m' gap.initialTime with hlast | ⟨g', hg', hlast⟩
          · exact Int.le_of_eq hlast.symm
          · rw [hlast]
            exact List.rel_of_pairwise_cons hsorted hg'
        · exact hbound htail huseless t r' hr' hr'm g hg'

/-! ## What is in use -/

variable {w : OptimizedActions ρ} {description : ρ} {s s' : LocalOptimizationState ρ} {q q' : List SchedulingEvent} {a : ActionId}
  {e : Int} {i : ι}

/-- What `a` needs at the time `t`, when it has an interval with `t` in it. -/
def LocalOptimizationState.use (acc : Accounting ρ ι) (w : OptimizedActions ρ) (s : LocalOptimizationState ρ) (t : Int) (i : ι)
    (a : ActionId) : Int :=
  if s.toReschedule a = false ∧ s.expectedStart a ≤ t ∧ t < s.expectedEnd a then acc.amount (w.requirements a) i else 0

/-- What all the actions need then. -/
def LocalOptimizationState.load (acc : Accounting ρ ι) (w : OptimizedActions ρ) (s : LocalOptimizationState ρ) (t : Int)
    (i : ι) : Int :=
  ∑ a ∈ w.actions.toFinset, s.use acc w t i a

/-- What the ends at one of the times give back. -/
def pending (acc : Accounting ρ ι) (w : OptimizedActions ρ) (p : Int → Bool) (q : List SchedulingEvent) (i : ι) : Int :=
  (q.map fun e => match e with
    | .End t a => if p t then acc.amount (w.requirements a) i else 0
    | .Start _ _ => 0).sum

theorem pending_cons_end {p : Int → Bool} :
    pending acc w p (.End e a :: q) i = (if p e then acc.amount (w.requirements a) i else 0) + pending acc w p q i := by
  simp [pending]

theorem pending_perm {p : Int → Bool} (h : q.Perm q') : pending acc w p q i = pending acc w p q' i :=
  (h.map _).sum_eq

open LocalOptimizationState

theorem use_mono (hreq : ∀ a, acc.Whole (w.requirements a))
    (h : s'.toReschedule a = false → s'.expectedStart a ≤ t → t < s'.expectedEnd a →
      s.toReschedule a = false ∧ s.expectedStart a ≤ t ∧ t < s.expectedEnd a) :
    s'.use acc w t i a ≤ s.use acc w t i a := by
  have hnonneg := acc.amount_nonneg (acc.valid_of_whole (hreq a)) i
  rw [use, use]
  by_cases ha : s'.toReschedule a = false ∧ s'.expectedStart a ≤ t ∧ t < s'.expectedEnd a
  · rw [if_pos ha, if_pos (h ha.1 ha.2.1 ha.2.2)]
  · rw [if_neg ha]
    split <;> omega

/-- The actions other than `a` need no more than before, and `a` no more than `c`. -/
theorem load_le {c : Int} (hc : 0 ≤ c) (hother : ∀ b, b ≠ a → s'.use acc w t i b ≤ s.use acc w t i b)
    (hself : s'.use acc w t i a ≤ s.use acc w t i a + c) : s'.load acc w t i ≤ s.load acc w t i + c := by
  have hle : ∀ b ∈ w.actions.toFinset, s'.use acc w t i b ≤ s.use acc w t i b + if b = a then c else 0 := by
    intro b _
    by_cases hb : b = a
    · rw [if_pos hb, hb]
      exact hself
    · rw [if_neg hb, Int.add_zero]
      exact hother b hb
  calc s'.load acc w t i ≤ ∑ b ∈ w.actions.toFinset, (s.use acc w t i b + if b = a then c else 0) := Finset.sum_le_sum hle
    _ = s.load acc w t i + if a ∈ w.actions.toFinset then c else 0 := by
      rw [Finset.sum_add_distrib, Finset.sum_ite_eq', load]
    _ ≤ s.load acc w t i + c := by split <;> omega

theorem load_mono (h : ∀ b, s'.use acc w t i b ≤ s.use acc w t i b) : s'.load acc w t i ≤ s.load acc w t i :=
  Finset.sum_le_sum fun b _ => h b

/-- What is in use at a time, free by then or given back by then is what the
worker has. -/
structure Timeline (acc : Accounting ρ ι) (w : OptimizedActions ρ) (description : ρ) (s : LocalOptimizationState ρ)
    (q : List SchedulingEvent) : Prop where
  whole : ∀ g ∈ s.gaps, acc.Whole g.resources
  origin : ∀ g ∈ s.gaps, ∀ o, g.origin = some o → o.isBlocking = false
  sorted : s.gaps.Pairwise fun g h => g.initialTime ≤ h.initialTime
  times : ∀ g ∈ s.gaps, 0 ≤ g.initialTime ∧ g.initialTime ≤ maxTime
  events : ∀ t a, .End t a ∈ q → 0 ≤ t ∧ t ≤ maxTime
  top : s.topStartTime ≤ maxTime
  all : ∀ i, acc.total s.gaps i + pending acc w (fun _ => true) q i = acc.amount description i
  fits : ∀ t, 0 ≤ t → ∀ i, s.load acc w t i + acc.during (fun u => u ≤ t) s.gaps i + pending acc w (fun u => u ≤ t) q i ≤
    acc.amount description i
  past : ∀ t < 0, ∀ i, s.load acc w t i ≤ acc.amount description i

theorem Timeline.congr (h : Timeline acc w description s q) (hgaps : s'.gaps = s.gaps) (htop : s'.topStartTime ≤ maxTime)
    (hload : ∀ t i, s'.load acc w t i ≤ s.load acc w t i) : Timeline acc w description s' q where
  whole := hgaps ▸ h.whole
  origin := hgaps ▸ h.origin
  sorted := hgaps ▸ h.sorted
  times := hgaps ▸ h.times
  events := h.events
  top := htop
  all := hgaps ▸ h.all
  fits t ht i := by
    have h₁ := h.fits t ht i
    have h₂ := hload t i
    rw [hgaps]
    omega
  past t ht i := Int.le_trans (hload t i) (h.past t ht i)

theorem Timeline.perm (h : Timeline acc w description s q) (hq : q.Perm q') : Timeline acc w description s q' where
  whole := h.whole
  origin := h.origin
  sorted := h.sorted
  times := h.times
  events t a ha := h.events t a (hq.mem_iff.mpr ha)
  top := h.top
  all i := by rw [← pending_perm hq]; exact h.all i
  fits t ht i := by rw [← pending_perm hq]; exact h.fits t ht i
  past := h.past

/-- What is used at any time fits into the worker. -/
theorem Timeline.load_le (h : Timeline acc w description s q) (hreq : ∀ a, acc.Whole (w.requirements a)) (t : Int) (i : ι) :
    s.load acc w t i ≤ acc.amount description i := by
  by_cases ht : 0 ≤ t
  · have h₁ := h.fits t ht i
    have h₂ : 0 ≤ acc.during (fun u => u ≤ t) s.gaps i := during_nonneg fun g hg => acc.valid_of_whole (h.whole g hg)
    have h₃ : 0 ≤ pending acc w (fun u => u ≤ t) q i := by
      refine List.sum_nonneg fun x hx => ?_
      obtain ⟨e, he, rfl⟩ := List.mem_map.mp hx
      cases e with
      | Start => exact Int.le_refl 0
      | End u b =>
        dsimp only
        split
        · exact acc.amount_nonneg (acc.valid_of_whole (hreq b)) i
        · exact Int.le_refl 0
    omega
  · exact h.past t (by omega) i

/-- An action takes its resources from gaps that begin by its start, and gives
them back at its end. -/
theorem Timeline.place (h : Timeline acc w description s q) (hc : acc.Copies) (hreq : acc.Whole (w.requirements a))
    (ht : 0 ≤ t) (hte : t ≤ e) (he : e ≤ maxTime) (henough : ∀ i, acc.amount (w.requirements a) i ≤ acc.total s.gaps i)
    (hintime : ∀ g ∈ (reserveGaps t s.gaps (copy (w.requirements a))).2, g.initialTime ≤ t)
    (hgaps : s'.gaps = (reserveGaps t s.gaps (copy (w.requirements a))).1) (htop : s'.topStartTime = s.topStartTime)
    (hload : ∀ u i, s'.load acc w u i ≤ s.load acc w u i + if t ≤ u ∧ u < e then acc.amount (w.requirements a) i else 0) :
    Timeline acc w description s' (.End e a :: q) := by
  have hcopy := acc.amount_copy hreq
  have hr := reserveGaps_reserved (t := t) hc h.whole (acc.valid_of_whole (acc.whole_copy hreq)) fun i => by
    rw [hcopy]
    exact henough i
  obtain ⟨x, hx⟩ : ∃ x, reserveGaps t s.gaps (copy (w.requirements a)) = x := ⟨_, rfl⟩
  rw [hx] at hr hgaps hintime
  have hsource : ∀ g ∈ s'.gaps, ∃ g' ∈ s.gaps, g'.initialTime = g.initialTime ∧ g'.origin = g.origin := fun g hg => by
    have hmem := hr.kept.subset (List.mem_map_of_mem (hgaps ▸ hg))
    obtain ⟨g', hg', heq⟩ := List.mem_map.mp hmem
    rw [Prod.mk.injEq] at heq
    exact ⟨g', hg', heq.1, heq.2⟩
  refine ⟨hgaps ▸ hr.whole, fun g hg o ho => ?_, ?_, fun g hg => ?_, fun u b hb => ?_, htop ▸ h.top, fun i => ?_,
    fun u hu i => ?_, fun u hu i => ?_⟩
  · obtain ⟨g', hg', -, horigin⟩ := hsource g hg
    exact h.origin g' hg' o (horigin.trans ho)
  · have hsorted : (s.gaps.map fun g => (g.initialTime, g.origin)).Pairwise fun x y => x.1 ≤ y.1 :=
      List.pairwise_map.mpr h.sorted
    have hkept : (x.1.map fun g => (g.initialTime, g.origin)).Pairwise fun x y => x.1 ≤ y.1 := hsorted.sublist hr.kept
    rw [hgaps]
    simpa only [List.pairwise_map] using hkept
  · obtain ⟨g', hg', htime, -⟩ := hsource g hg
    rw [← htime]
    exact h.times g' hg'
  · rcases List.mem_cons.mp hb with heq | hb
    · cases heq
      exact ⟨Int.le_trans ht hte, he⟩
    · exact h.events u b hb
  · have h₁ := h.all i
    have h₂ := hr.taken i
    have h₃ := hr.during (fun _ => true) i
    simp only [during_all] at h₃
    rw [pending_cons_end, hgaps, if_pos rfl]
    rw [hcopy] at h₂
    omega
  · have h₁ := h.fits u hu i
    have h₂ := hr.taken i
    have h₃ := hr.during (fun v => v ≤ u) i
    have h₄ := hload u i
    rw [hcopy] at h₂
    rw [pending_cons_end, hgaps]
    have htmp : t ≤ u → acc.during (fun v => v ≤ u) (x.2.map TmpGap.toGap) i = acc.amount (w.requirements a) i := by
      intro htu
      rw [during_eq_total, h₂]
      intro g hg
      obtain ⟨g', hg', rfl⟩ := List.mem_map.mp hg
      exact decide_eq_true (Int.le_trans (hintime g' hg') htu)
    have htmp' : 0 ≤ acc.during (fun v => v ≤ u) (x.2.map TmpGap.toGap) i := during_nonneg fun g hg => by
      obtain ⟨g', hg', rfl⟩ := List.mem_map.mp hg
      exact (hr.source g' hg').1
    by_cases htu : t ≤ u
    · have := htmp htu
      by_cases hue : u < e
      · rw [if_pos ⟨htu, hue⟩] at h₄
        rw [if_neg (by simpa using hue)]
        omega
      · rw [if_neg fun hh => hue hh.2] at h₄
        rw [if_pos (by simpa using hue)]
        omega
    · rw [if_neg fun hh => htu hh.1] at h₄
      rw [if_neg (by simp; omega)]
      omega
  · have h₁ := h.past u hu i
    have h₂ := hload u i
    rw [if_neg fun hh => by omega] at h₂
    omega

/-- An end gives the resources back. -/
theorem Timeline.release (h : Timeline acc w description s (.End t a :: q)) (hreq : acc.Whole (w.requirements a))
    (hinorder : ∀ g ∈ s.gaps, g.initialTime ≤ t)
    (hgaps : s'.gaps = s.gaps ++ [⟨t, some (.action a), copy (w.requirements a)⟩]) (htop : s'.topStartTime ≤ maxTime)
    (hload : ∀ u i, s'.load acc w u i ≤ s.load acc w u i) : Timeline acc w description s' q := by
  have hcopy := acc.amount_copy hreq
  have htimes := h.events t a (by simp)
  refine ⟨fun g hg => ?_, fun g hg o ho => ?_, ?_, fun g hg => ?_, fun u b hb => h.events u b (List.mem_cons_of_mem _ hb), htop,
    fun i => ?_, fun u hu i => ?_, fun u hu i => Int.le_trans (hload u i) (h.past u hu i)⟩
  · rw [hgaps, List.mem_append, List.mem_singleton] at hg
    rcases hg with hg | rfl
    · exact h.whole g hg
    · exact acc.whole_copy hreq
  · rw [hgaps, List.mem_append, List.mem_singleton] at hg
    rcases hg with hg | rfl
    · exact h.origin g hg o ho
    · cases ho
      rfl
  · rw [hgaps, List.pairwise_append]
    refine ⟨h.sorted, List.pairwise_singleton _ _, fun g hg g' hg' => ?_⟩
    rw [List.mem_singleton.mp hg']
    exact hinorder g hg
  · rw [hgaps, List.mem_append, List.mem_singleton] at hg
    rcases hg with hg | rfl
    · exact h.times g hg
    · exact htimes
  · have h₁ := h.all i
    rw [pending_cons_end, if_pos rfl] at h₁
    rw [hgaps, total_append, total_cons, total_nil, hcopy]
    omega
  · have h₁ := h.fits u hu i
    have h₂ := hload u i
    rw [pending_cons_end] at h₁
    rw [hgaps, during_append, during_cons, during_nil, hcopy]
    dsimp only
    by_cases htu : t ≤ u
    · rw [if_pos (by simpa using htu)] at h₁ ⊢
      omega
    · rw [if_neg (by simpa using htu)] at h₁ ⊢
      omega

end Compss.MultiObjective
