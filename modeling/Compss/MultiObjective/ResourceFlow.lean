/-
The resources that flow through the gaps of a worker.

What an action was made of adds up to what it asks for, and what it releases is
either in its gap or with the actions that took it. Scheduling keeps to this.
Unscheduling does when the action is not blocked, when every successor has
exactly one gap of it, as its last one, and when what the action holds from the
beginning is not needed for its successors (`conserved_of_reroutes`).
-/
import Compss.MultiObjective.GapAmounts
import Compss.MultiObjective.MethodDescriptions
import Compss.Resources.DynamicMethodWorker
import Mathlib.Algebra.Order.BigOperators.Group.Finset
import Mathlib.Data.Finset.Lattice.Fold

namespace Compss.MultiObjective

open ResourceDescription MOResourceScheduler Accounting
open Resources (Processor MethodResourceDescription)

variable {ρ ι : Type} [ResourceDescription ρ]

/-- What the predecessors of the actions hold from one origin. -/
def Accounting.held (acc : Accounting ρ ι) (predecessors : ActionId → List (Gap ρ)) (acts : Finset ActionId)
    (o : Option Origin) (i : ι) : Int :=
  ∑ b ∈ acts, acc.units o (predecessors b) i

/-- The resources of the scheduled actions `acts`. -/
structure Flow (acc : Accounting ρ ι) (actions : Actions ρ) (description : ρ) (s : MOResourceScheduler ρ)
    (acts : Finset ActionId) : Prop where
  scheduled : ∀ a, a ∈ acts ↔ s.isScheduled a = true
  /-- The predecessor gaps of an action add up to its requirements. -/
  taken : ∀ a ∈ acts, s.isBlocked a = false → ∀ i,
    acc.total (s.predecessors a) i = acc.amount (actions.requirements a) i
  /-- The requirements are in the gap of the action or with those that took them. -/
  released : ∀ a ∈ acts, s.isBlocked a = false → ∀ i, acc.amount (actions.requirements a) i =
    acc.units (some (.action a)) s.gaps i + acc.held s.predecessors acts (some (.action a)) i
  /-- What is free and what is held from there is what the worker has. -/
  free : ∀ i, acc.units none s.gaps i + acc.held s.predecessors acts none i = acc.amount description i

/-- No resource appears, and none is lost. -/
def Conserved (acc : Accounting ρ ι) (actions : Actions ρ) (description : ρ) (s : MOResourceScheduler ρ) : Prop :=
  ∃ acts, Flow acc actions description s acts

/-- When an action is unscheduled, it is not blocked, each of its successors has
one gap of it, the last one, and what it holds without origin is still in its
own gap. -/
def Reroutes (acc : Accounting ρ ι) (s : MOResourceScheduler ρ) : Label → Prop
  | .scheduleAction _ _ _ => True
  | .unscheduleAction a => s.isScheduled a = true →
    s.isBlocked a = false ∧
    (∀ b ∈ s.successors (.action a), ∃ gs g, s.predecessors b = gs ++ [g] ∧ g.origin = some (.action a) ∧
      ∀ h ∈ gs, h.origin ≠ some (.action a)) ∧
    ∀ i, acc.units none (s.predecessors a) i ≤ acc.units (some (.action a)) s.gaps i

/-! ## The invariant -/

/-- The flow, and how the gaps and the actions are linked. -/
structure Sound (acc : Accounting ρ ι) (actions : Actions ρ) (description : ρ) (s : MOResourceScheduler ρ)
    (acts : Finset ActionId) : Prop extends Flow acc actions description s acts where
  gapsValid : ∀ g ∈ s.gaps, acc.Valid g.resources
  gapsOrigin : ∀ g ∈ s.gaps, ∀ o, g.origin = some o → ∃ p ∈ acts, o = .action p ∧ s.isBlocked p = false
  idle : ∀ b ∉ acts, s.predecessors b = [] ∧ s.successors (.action b) = []
  /-- The blocking action is all a blocked action waits for. -/
  blocked : ∀ b, s.isBlocked b = true → ∃ g, s.predecessors b = [g]
  whole : ∀ b, s.isBlocked b = false → ∀ g ∈ s.predecessors b, acc.Whole g.resources
  origin : ∀ b, ∀ g ∈ s.predecessors b, ∀ p, g.origin = some (.action p) → p ∈ acts ∧ s.isBlocked p = false
  links : ∀ o b, (s.successors o).count b = links (s.predecessors b) o
  /-- Nothing depends on itself. -/
  ranked : ∃ rank : ActionId → Nat, ∀ b, ∀ g ∈ s.predecessors b, ∀ p, g.origin = some (.action p) → rank p < rank b

variable {acc : Accounting ρ ι} {actions : Actions ρ} {description : ρ} {s : MOResourceScheduler ρ} {acts : Finset ActionId}
  {a b : ActionId} {o : Option Origin} {i : ι}

/-! ## What is held -/

theorem held_insert {predecessors : ActionId → List (Gap ρ)} (h : a ∉ acts) (gs : List (Gap ρ)) :
    acc.held (Function.update predecessors a gs) (insert a acts) o i = acc.units o gs i + acc.held predecessors acts o i := by
  rw [held, Finset.sum_insert h, Function.update_self]
  congr 1
  refine Finset.sum_congr rfl fun b hb => ?_
  rw [Function.update_of_ne fun heq : b = a => h (heq ▸ hb)]

variable (acc) in
theorem held_update (predecessors : ActionId → List (Gap ρ)) (h : b ∈ acts) (gs : List (Gap ρ)) :
    acc.held (Function.update predecessors b gs) acts o i + acc.units o (predecessors b) i =
      acc.held predecessors acts o i + acc.units o gs i := by
  have hrest : ∑ c ∈ acts.erase b, acc.units o (Function.update predecessors b gs c) i =
      ∑ c ∈ acts.erase b, acc.units o (predecessors c) i :=
    Finset.sum_congr rfl fun c hc => by rw [Function.update_of_ne (Finset.ne_of_mem_erase hc)]
  rw [held, held, ← Finset.add_sum_erase _ _ h, ← Finset.add_sum_erase _ (fun c => acc.units o (predecessors c) i) h, hrest,
    Function.update_self]
  omega

theorem held_erase {predecessors : ActionId → List (Gap ρ)} (h : predecessors a = []) :
    acc.held predecessors (acts.erase a) o i = acc.held predecessors acts o i :=
  Finset.sum_erase acts (by rw [h, units_nil])

/-! ## Blocked actions -/

omit [ResourceDescription ρ] in
theorem isBlocked_eq (s : MOResourceScheduler ρ) (b : ActionId) :
    s.isBlocked b = (s.predecessors b).any fun g => g.origin.any Origin.isBlocking := rfl

omit [ResourceDescription ρ] in
theorem isBlocked_congr {t : MOResourceScheduler ρ} (h : t.predecessors b = s.predecessors b) :
    t.isBlocked b = s.isBlocked b := by
  rw [isBlocked_eq, isBlocked_eq, h]

omit [ResourceDescription ρ] in
theorem origin_of_not_blocked (h : s.isBlocked b = false) {g : Gap ρ} (hg : g ∈ s.predecessors b) :
    g.origin = none ∨ ∃ p, g.origin = some (.action p) := by
  rw [isBlocked_eq, List.any_eq_false] at h
  have hno := h g hg
  match ho : g.origin with
  | none => exact .inl rfl
  | some (.action p) => exact .inr ⟨p, rfl⟩
  | some .resourceBlockingAction => rw [ho] at hno; exact absurd rfl hno
  | some .dataBlockingAction => rw [ho] at hno; exact absurd rfl hno

omit [ResourceDescription ρ] in
theorem not_blocked_of_origin {gs : List (Gap ρ)} (h : ∀ g ∈ gs, g.origin = none ∨ ∃ p, g.origin = some (.action p)) :
    (gs.any fun g => g.origin.any Origin.isBlocking) = false := by
  rw [List.any_eq_false]
  intro g hg
  rcases h g hg with heq | ⟨p, heq⟩ <;> rw [heq] <;> simp [Origin.isBlocking]

/-- A blocked action holds nothing. -/
theorem units_of_blocked (h : Sound acc actions description s acts) (hb : s.isBlocked b = true)
    (ho : ∀ p, o = some p → p.isBlocking = false) : acc.units o (s.predecessors b) i = 0 := by
  obtain ⟨g, hg⟩ := h.blocked b hb
  rw [isBlocked_eq, hg] at hb
  rw [hg]
  refine units_eq_zero fun g' hg' heq => ?_
  rw [List.mem_singleton.mp hg'] at heq
  cases horigin : g.origin with
  | none => rw [List.any_cons, horigin] at hb; cases hb
  | some p =>
    rw [List.any_cons, horigin, List.any_nil, Bool.or_false] at hb
    have := ho p (heq ▸ horigin)
    rw [Option.any_some] at hb
    rw [hb] at this
    cases this

/-! ## Scheduling -/

/-- No predecessor comes from an action that is not scheduled. -/
theorem Sound.no_origin (h : Sound acc actions description s acts) (ha : a ∉ acts) {g : Gap ρ} (hg : g ∈ s.predecessors b) :
    g.origin ≠ some (.action a) := fun heq => ha (h.origin b g hg a heq).1

theorem Sound.gap_origin_ne (h : Sound acc actions description s acts) (ha : a ∉ acts) {g : Gap ρ} (hg : g ∈ s.gaps) :
    g.origin ≠ some (.action a) := fun heq => by
  obtain ⟨p, hp, hpa, -⟩ := h.gapsOrigin g hg _ heq
  cases hpa
  exact ha hp

/-- What an action that is scheduled has got: one gap of a blocking action, or
parts of the gaps that add up. -/
inductive Got (acc : Accounting ρ ι) (s t : MOResourceScheduler ρ) (a : ActionId) (requirements : ρ) :
    List (Gap ρ) → Prop
  | blocked (g : Gap ρ) : g.origin.any Origin.isBlocking = true →
      (∀ x ∈ t.gaps, ∃ y ∈ s.gaps, y.origin = x.origin) → Got acc s t a requirements [g]
  | parts (gs : List (Gap ρ)) : (∀ g ∈ gs, acc.Whole g.resources) → (∀ g ∈ gs, ∃ y ∈ s.gaps, y.origin = g.origin) →
      (∀ i, acc.total gs i = acc.amount requirements i) →
      (∀ i, acc.units (some (.action a)) t.gaps i = acc.amount requirements i) →
      (∀ x ∈ t.gaps, x.origin = some (.action a) ∨ ∃ y ∈ s.gaps, y.origin = x.origin) → Got acc s t a requirements gs

theorem Sound.extend (h : Sound acc actions description s acts) (ha : a ∉ acts) (gs : List (Gap ρ)) {t : MOResourceScheduler ρ}
    (hpre : t.predecessors = Function.update s.predecessors a gs) (hsched : t.isScheduled = Function.update s.isScheduled a true)
    (hsucc : ∀ o b, (t.successors o).count b = (s.successors o).count b + if b = a then MOResourceScheduler.links gs o else 0)
    (hvalid : ∀ g ∈ t.gaps, acc.Valid g.resources)
    (hunits : ∀ o, (∀ p, o = some p → p.isBlocking = false) → o ≠ some (.action a) → ∀ i,
      acc.units o t.gaps i + acc.units o gs i = acc.units o s.gaps i)
    (hgot : Got acc s t a (actions.requirements a) gs) : Sound acc actions description t (insert a acts) := by
  have hself : t.predecessors a = gs := by rw [hpre, Function.update_self]
  have hother : ∀ b, b ≠ a → t.predecessors b = s.predecessors b := fun b hb => by rw [hpre, Function.update_of_ne hb]
  have hblocked : ∀ b, b ≠ a → t.isBlocked b = s.isBlocked b := fun b hb => isBlocked_congr (hother b hb)
  have hne : ∀ b ∈ acts, b ≠ a := fun b hb heq => ha (heq ▸ hb)
  have hheld : ∀ o i, acc.held t.predecessors (insert a acts) o i = acc.units o gs i + acc.held s.predecessors acts o i :=
    fun o i => by rw [hpre, held_insert ha]
  -- The gaps the action takes from are those of actions that are not blocked.
  have hgsOrigin : ∀ g ∈ gs, ∀ p, g.origin = some (.action p) → p ∈ acts ∧ s.isBlocked p = false := by
    intro g hg p hp
    cases hgot with
    | blocked g' hblocking =>
      rw [List.mem_singleton.mp hg] at hp
      rw [hp] at hblocking
      cases hblocking
    | parts gs _ hfrom =>
      obtain ⟨y, hy, hyg⟩ := hfrom g hg
      obtain ⟨q, hq, hqp, hqb⟩ := h.gapsOrigin y hy (.action p) (hyg.trans hp)
      cases hqp
      exact ⟨hq, hqb⟩
  have hnone : acc.units (some (.action a)) gs = 0 := by
    funext i
    exact units_eq_zero fun g hg heq => ha (hgsOrigin g hg a heq).1
  have hheldSelf : ∀ i, acc.held s.predecessors acts (some (.action a)) i = 0 := fun i =>
    Finset.sum_eq_zero fun b _ => units_eq_zero fun g hg => h.no_origin ha hg
  refine ⟨⟨fun b => ?_, fun b hb hnb i => ?_, fun b hb hnb i => ?_, fun i => ?_⟩, hvalid, fun g hg o ho => ?_, fun b hb => ?_,
    fun b hb => ?_, fun b hb g hg => ?_, fun b g hg p hp => ?_, fun o b => ?_, ?_⟩
  · -- scheduled
    rw [hsched, Finset.mem_insert, Function.update_apply]
    split
    · next heq => simp [heq]
    · next hne => rw [h.scheduled]; simp [hne]
  · -- taken
    rcases Finset.mem_insert.mp hb with rfl | hb
    · rw [hself]
      cases hgot with
      | blocked g hblocking =>
        rw [isBlocked_eq, hself, List.any_cons, hblocking] at hnb
        cases hnb
      | parts gs _ _ htotal => exact htotal i
    · rw [hother b (hne b hb)]
      exact h.taken b hb (hblocked b (hne b hb) ▸ hnb) i
  · -- released
    rcases Finset.mem_insert.mp hb with rfl | hb
    · rw [hheld, hnone, hheldSelf]
      cases hgot with
      | blocked g hblocking =>
        rw [isBlocked_eq, hself, List.any_cons, hblocking] at hnb
        cases hnb
      | parts gs _ _ _ hown => rw [hown]; simp
    · have hrel := h.released b hb (hblocked b (hne b hb) ▸ hnb) i
      have hu := hunits (some (.action b)) (fun p hp => by cases hp; rfl) (by simpa using hne b hb) i
      rw [hheld]
      omega
  · -- free
    have hfree := h.free i
    have hu := hunits none (fun p hp => by cases hp) (by simp) i
    rw [hheld]
    omega
  · -- gapsOrigin
    have hfrom : ∀ y ∈ s.gaps, y.origin = g.origin → ∃ p ∈ insert a acts, o = .action p ∧ t.isBlocked p = false := by
      intro y hy hyg
      obtain ⟨p, hp, hop, hpb⟩ := h.gapsOrigin y hy o (hyg.trans ho)
      exact ⟨p, Finset.mem_insert_of_mem hp, hop, (hblocked p (hne p hp)).trans hpb⟩
    cases hgot with
    | blocked _ _ hall =>
      obtain ⟨y, hy, hyg⟩ := hall g hg
      exact hfrom y hy hyg
    | parts gs _ hfromGs _ _ hall =>
      rcases hall g hg with heq | ⟨y, hy, hyg⟩
      · rw [ho] at heq
        cases heq
        refine ⟨a, Finset.mem_insert_self .., rfl, ?_⟩
        rw [isBlocked_eq, hself]
        refine not_blocked_of_origin fun g' hg' => ?_
        obtain ⟨y, hy, hyg⟩ := hfromGs g' hg'
        cases hog : g'.origin with
        | none => exact .inl rfl
        | some q =>
          obtain ⟨p, -, rfl, -⟩ := h.gapsOrigin y hy q (hyg.trans hog)
          exact .inr ⟨p, rfl⟩
      · exact hfrom y hy hyg
  · -- idle
    have hba : b ≠ a := fun heq => hb (heq ▸ Finset.mem_insert_self ..)
    have hbacts : b ∉ acts := fun hmem => hb (Finset.mem_insert_of_mem hmem)
    obtain ⟨hpb, hsb⟩ := h.idle b hbacts
    refine ⟨(hother b hba).trans hpb, ?_⟩
    -- Nobody became its successor.
    have hempty : ∀ c, (t.successors (.action b)).count c = 0 := by
      intro c
      rw [hsucc, hsb, List.count_nil]
      split
      · rw [MOResourceScheduler.links, List.countP_eq_zero.mpr]
        intro g hg
        simpa using fun heq => hbacts (hgsOrigin g hg b heq).1
      · rfl
    exact List.eq_nil_iff_forall_not_mem.mpr fun c hc => absurd (hempty c) (List.count_pos_iff.mpr hc).ne'
  · -- blocked
    by_cases hba : b = a
    · subst hba
      rw [hself]
      cases hgot with
      | blocked g _ => exact ⟨g, rfl⟩
      | parts gs _ hfromGs =>
        exfalso
        rw [isBlocked_eq, hself, not_blocked_of_origin fun g' hg' => ?_] at hb
        · cases hb
        · obtain ⟨y, hy, hyg⟩ := hfromGs g' hg'
          cases hog : g'.origin with
          | none => exact .inl rfl
          | some q =>
            obtain ⟨p, -, rfl, -⟩ := h.gapsOrigin y hy q (hyg.trans hog)
            exact .inr ⟨p, rfl⟩
    · rw [hother b hba]
      exact h.blocked b (hblocked b hba ▸ hb)
  · -- whole
    by_cases hba : b = a
    · subst hba
      rw [hself] at hg
      cases hgot with
      | blocked g' hblocking =>
        rw [isBlocked_eq, hself, List.any_cons, hblocking] at hb
        cases hb
      | parts gs hwhole => exact hwhole g hg
    · rw [hother b hba] at hg
      exact h.whole b (hblocked b hba ▸ hb) g hg
  · -- origin
    have hres : p ∈ acts ∧ s.isBlocked p = false := by
      by_cases hba : b = a
      · subst hba
        rw [hself] at hg
        exact hgsOrigin g hg p hp
      · rw [hother b hba] at hg
        exact h.origin b g hg p hp
    exact ⟨Finset.mem_insert_of_mem hres.1, (hblocked p (hne p hres.1)).trans hres.2⟩
  · -- links
    rw [hsucc]
    by_cases hba : b = a
    · subst hba
      rw [hself, h.links, (h.idle b ha).1, if_pos rfl]
      simp [MOResourceScheduler.links]
    · rw [hother b hba, h.links, if_neg hba, Nat.add_zero]
  · -- ranked: the new action comes after all others
    obtain ⟨rank, hrank⟩ := h.ranked
    refine ⟨Function.update rank a ((acts.sup rank) + 1), fun b g hg p hp => ?_⟩
    by_cases hba : b = a
    · subst hba
      rw [hself] at hg
      have hpacts := (hgsOrigin g hg p hp).1
      rw [Function.update_of_ne (hne p hpacts), Function.update_self]
      exact Nat.lt_succ_of_le (Finset.le_sup hpacts)
    · rw [hother b hba] at hg
      rw [Function.update_of_ne (hne p (h.origin b g hg p hp).1), Function.update_of_ne hba]
      exact hrank b g hg p hp

/-- The loop that adds the dependencies. -/
theorem addDependency_fields : ∀ (gs : List (Gap ρ)) (s : MOResourceScheduler ρ) (start : Int),
    (∀ g ∈ gs, ∀ o, g.origin = some o → (s.info o).scheduled = true) →
    (gs.foldl (addDependency a) (s, start)).1.predecessors = Function.update s.predecessors a (s.predecessors a ++ gs) ∧
      (gs.foldl (addDependency a) (s, start)).1.isScheduled = s.isScheduled ∧
      (gs.foldl (addDependency a) (s, start)).1.gaps = s.gaps ∧
      ∀ o b, ((gs.foldl (addDependency a) (s, start)).1.successors o).count b =
        (s.successors o).count b + if b = a then MOResourceScheduler.links gs o else 0
  | [], s, _, _ => ⟨by simp, rfl, rfl, fun o b => by simp [MOResourceScheduler.links]⟩
  | g :: gs, s, start, hgs => by
    obtain ⟨start', hstep⟩ : ∃ start', addDependency a (s, start) g = ((s.join a [g]).addPredecessor a g, start') := by
      rw [addDependency, join, List.foldl_cons, List.foldl_nil]
      cases ho : g.origin with
      | none => exact ⟨_, rfl⟩
      | some o => simp only [hgs g (by simp) o ho, if_true]; exact ⟨_, rfl⟩
    obtain ⟨hjpre, hjsched, hjgaps, hjcount⟩ := join_fields (a := a) [g] s
    have hinfo : ∀ o, (((s.join a [g]).addPredecessor a g).info o).scheduled = (s.info o).scheduled := by
      intro o
      rw [info_scheduled_addPredecessor, join, List.foldl_cons, List.foldl_nil]
      cases g.origin with
      | none => rfl
      | some p => exact info_scheduled_addSuccessor
    obtain ⟨hpre, hsched, hgaps, hcount⟩ := addDependency_fields gs _ start' fun x hx o ho => by
      rw [hinfo]
      exact hgs x (by simp [hx]) o ho
    rw [List.foldl_cons, hstep]
    refine ⟨?_, ?_, ?_, fun o b => ?_⟩
    · rw [hpre, predecessors_addPredecessor, hjpre, Function.update_idem, Function.update_self, List.append_assoc]
      rfl
    · rw [hsched, isScheduled_addPredecessor, hjsched]
    · rw [hgaps, gaps_addPredecessor, hjgaps]
    · rw [hcount, successors_addPredecessor, hjcount, links_cons, links_cons]
      simp only [MOResourceScheduler.links, List.countP_nil]
      split <;> omega

theorem Sound.block (h : Sound acc actions description s acts) (ha : a ∉ acts) {gs : List (Gap ρ)}
    (hvalid : ∀ g ∈ gs, acc.Valid g.resources) (hunits : ∀ o i, acc.units o gs i = acc.units o s.gaps i)
    (hfrom : ∀ x ∈ gs, ∃ y ∈ s.gaps, y.origin = x.origin) {p : Origin} (hp : p.isBlocking = true) (r : ρ) :
    Sound acc actions description (({ s with gaps := gs } : MOResourceScheduler ρ).block a p r) (insert a acts) := by
  have hpa : s.predecessors a = [] := (h.idle a ha).1
  refine h.extend ha [⟨0, some p, r⟩] ?_ ?_ (fun o b => ?_) hvalid (fun o ho _ i => ?_) (.blocked _ ?_ hfrom)
  · rw [MOResourceScheduler.block, predecessors_scheduled, predecessors_addPredecessor, predecessors_addSuccessor]
    show Function.update s.predecessors a (s.predecessors a ++ _) = _
    rw [hpa]
    rfl
  · rw [MOResourceScheduler.block, isScheduled_scheduled, isScheduled_addPredecessor, isScheduled_addSuccessor]
    rfl
  · rw [MOResourceScheduler.block, successors_scheduled, successors_addPredecessor, successors_addSuccessor, links_cons,
      Function.update_apply]
    show List.count b (if o = p then s.successors p ++ [a] else s.successors o) = _
    by_cases hop : o = p
    · subst hop
      by_cases hb : b = a
      · simp [hb, MOResourceScheduler.links]
      · simp [hb, List.count_singleton, Ne.symm hb]
    · simp [hop, Ne.symm hop, MOResourceScheduler.links]
  · have hzero : acc.units o [⟨0, some p, r⟩] i = 0 := units_eq_zero fun g hg heq => by
      rw [List.mem_singleton.mp hg] at heq
      have := ho p heq.symm
      rw [hp] at this
      cases this
    rw [hzero, ← hunits]
    show acc.units o gs i + 0 = _
    omega
  · exact hp

/-- What scheduling an action does. -/
theorem Sound.scheduleAction (h : Sound acc actions description s acts) (ha : a ∉ acts)
    (hreq : acc.Whole (actions.requirements a)) (averageTime : Option Int) (dataPredecessors : List DataPredecessor) :
    Sound acc actions description (s.scheduleAction actions a averageTime dataPredecessors) (insert a acts) := by
  rw [MOResourceScheduler.scheduleAction]
  split
  · exact h.block ha h.gapsValid (fun _ _ => rfl) (fun x hx => ⟨x, hx, rfl⟩) rfl _
  · have hwalk := walkGaps_walks h.gapsValid (acc.valid_of_whole (acc.whole_copy hreq)) (s.dataStart dataPredecessors)
    set w := walkGaps s.gaps (s.dataStart dataPredecessors) (copy (actions.requirements a))
    have hfromGaps : ∀ g ∈ w.gaps, ∃ y ∈ s.gaps, y.origin = g.origin := fun g hg => hwalk.origin g (by simp [hg])
    have hfromPred : ∀ g ∈ w.predecessors, ∃ y ∈ s.gaps, y.origin = g.origin := fun g hg => hwalk.origin g (by simp [hg])
    have hpredValid : ∀ g ∈ w.predecessors, acc.Valid g.resources := fun g hg => acc.valid_of_whole (hwalk.predecessors g hg)
    by_cases hcovered : w.fullyCoveredReqs = true
    · simp only [if_pos hcovered]
      have hinfo : ∀ g ∈ w.predecessors, ∀ o, g.origin = some o → (s.info o).scheduled = true := by
        intro g hg o ho
        obtain ⟨y, hy, hyg⟩ := hfromPred g hg
        obtain ⟨p, hp, rfl, -⟩ := h.gapsOrigin y hy o (hyg.trans ho)
        exact (h.scheduled p).mp hp
      obtain ⟨hpre, hsched, hgaps, hcount⟩ := addDependency_fields (a := a) w.predecessors { s with gaps := w.gaps }
        (s.dataStart dataPredecessors) hinfo
      obtain ⟨x, hx⟩ : ∃ x, w.predecessors.foldl (addDependency a) ({ s with gaps := w.gaps }, s.dataStart dataPredecessors) = x :=
        ⟨_, rfl⟩
      rw [hx] at hpre hsched hgaps hcount
      simp only [hx]
      obtain ⟨own, hown⟩ : ∃ own : Gap ρ, own =
        ⟨if actions.isToReleaseResources a then averageTime.elim x.2 (addTime x.2) else maxTime, some (.action a),
          copy (actions.requirements a)⟩ := ⟨_, rfl⟩
      rw [← hown]
      have hownValid : acc.Valid own.resources := by rw [hown]; exact acc.valid_of_whole (acc.whole_copy hreq)
      have hownOrigin : own.origin = some (.action a) := by rw [hown]
      have hxValid : ∀ g ∈ x.1.gaps, acc.Valid g.resources := by rw [hgaps]; exact hwalk.gaps
      obtain ⟨hvalid, hunits, horigin⟩ := addGap_amounts hownValid hxValid
      have hpa : s.predecessors a = [] := (h.idle a ha).1
      have hamount : ∀ i, acc.amount own.resources i = acc.amount (actions.requirements a) i := by
        rw [hown]
        exact acc.amount_copy hreq
      refine h.extend ha w.predecessors ?_ ?_ (fun o b => ?_) hvalid (fun o _ hne i => ?_)
        (.parts _ hwalk.predecessors hfromPred (fun i => ?_) (fun i => ?_) (fun g hg => ?_))
      · show (x.1.scheduled a _ _).predecessors = _
        rw [predecessors_scheduled, hpre]
        show Function.update s.predecessors a (s.predecessors a ++ _) = _
        rw [hpa, List.nil_append]
      · show (x.1.scheduled a _ _).isScheduled = _
        rw [isScheduled_scheduled, hsched]
        rfl
      · show ((x.1.scheduled a _ _).successors o).count b = _
        rw [successors_scheduled, hcount]
        rfl
      · show acc.units o (addGap x.1.gaps own) i + _ = _
        rw [hunits, hgaps, hwalk.units, units_cons, hownOrigin, if_neg (Ne.symm hne), units_nil]
        dsimp only
        omega
      · have hneeded := hwalk.needed i
        have hzero := hwalk.covered hcovered i
        have hcopy := acc.amount_copy hreq i
        omega
      · show acc.units _ (addGap x.1.gaps own) i = _
        have hzero : acc.units (some (.action a)) w.gaps i = 0 := units_eq_zero fun g hg heq => by
          obtain ⟨y, hy, hyg⟩ := hfromGaps g hg
          exact h.gap_origin_ne ha hy (hyg.trans heq)
        rw [hunits, hgaps, hzero, units_cons, hownOrigin, if_pos rfl, units_nil, hamount]
        omega
      · rcases horigin g hg with heq | ⟨y, hy, hyg⟩
        · exact .inl (heq.trans hownOrigin)
        · rw [hgaps] at hy
          obtain ⟨z, hz, hzy⟩ := hfromGaps y hy
          exact .inr ⟨z, hz, hzy.trans hyg⟩
    · simp only [if_neg hcovered]
      obtain ⟨hvalid, hunits, horigin⟩ := addGaps_amounts hpredValid hwalk.gaps
      refine h.block ha hvalid (fun o i => by rw [hunits, ← hwalk.units]) (fun x hx => ?_)
        (show Origin.resourceBlockingAction.isBlocking = true from rfl) _
      obtain ⟨y, hy, hyx⟩ := horigin x hx
      obtain ⟨z, hz, hzy⟩ := (List.mem_append.mp hy).elim (hfromGaps y) (hfromPred y)
      exact ⟨z, hz, hzy.trans hyx⟩

/-! ## Unscheduling -/

theorem units_nonneg {gs : List (Gap ρ)} (h : ∀ g ∈ gs, g.origin = o → acc.Valid g.resources) : 0 ≤ acc.units o gs i := by
  induction gs with
  | nil => exact Int.le_refl 0
  | cons g gs ih =>
    have htail := ih fun g hg => h g (List.mem_cons_of_mem _ hg)
    rw [units_cons]
    split
    · next ho =>
      have hhead := acc.amount_nonneg (h g (by simp) ho) i
      omega
    · omega

/-- The gaps that depend on another action, and those without origin. -/
theorem total_filter : ∀ {gs : List (Gap ρ)}, (∀ g ∈ gs, g.origin = none ∨ ∃ p, g.origin = some (.action p)) → ∀ i,
    acc.total (gs.filter fun g => g.origin.any fun o => !o.isBlocking) i + acc.units none gs i = acc.total gs i
  | [], _, i => rfl
  | g :: gs, h, i => by
    have ih := total_filter (fun x hx => h x (List.mem_cons_of_mem g hx)) i
    rw [List.filter_cons, units_cons, total_cons]
    rcases h g (by simp) with hnone | ⟨p, hp⟩
    · rw [if_neg (by simp [hnone]), if_pos hnone]
      omega
    · rw [if_pos (by rw [hp]; rfl), if_neg (by rw [hp]; simp), total_cons]
      omega

theorem units_filter_dependent : ∀ {gs : List (Gap ρ)}, (∀ g ∈ gs, g.origin = none ∨ ∃ p, g.origin = some (.action p)) →
    o ≠ none → ∀ i, acc.units o (gs.filter fun g => g.origin.any fun o => !o.isBlocking) i = acc.units o gs i
  | [], _, _, _ => rfl
  | g :: gs, h, ho, i => by
    have ih := units_filter_dependent (fun x hx => h x (List.mem_cons_of_mem g hx)) ho i
    rw [List.filter_cons, units_cons]
    rcases h g (by simp) with hnone | ⟨p, hp⟩
    · rw [if_neg (by simp [hnone]), if_neg (by rw [hnone]; exact Ne.symm ho), ih]
      omega
    · rw [if_pos (by rw [hp]; rfl), units_cons, ih]

theorem total_copies : ∀ {gs : List (Gap ρ)}, (∀ g ∈ gs, acc.Whole g.resources) →
    acc.total (gs.map fun g => { g with resources := copy g.resources }) i = acc.total gs i
  | [], _ => rfl
  | g :: gs, h => by
    rw [List.map_cons, total_cons, total_cons, total_copies fun x hx => h x (List.mem_cons_of_mem g hx)]
    dsimp only
    rw [acc.amount_copy (h g (by simp))]

theorem units_copies : ∀ {gs : List (Gap ρ)}, (∀ g ∈ gs, acc.Whole g.resources) →
    acc.units o (gs.map fun g => { g with resources := copy g.resources }) i = acc.units o gs i
  | [], _ => rfl
  | g :: gs, h => by
    rw [List.map_cons, units_cons, units_cons, units_copies fun x hx => h x (List.mem_cons_of_mem g hx)]
    dsimp only
    rw [acc.amount_copy (h g (by simp))]

/-- The parts are taken off one by one. -/
theorem foldl_reduce : ∀ {gs : List (Gap ρ)} {r : ρ}, (∀ g ∈ gs, acc.Whole g.resources) → acc.Valid r →
    (∀ i, acc.total gs i ≤ acc.amount r i) →
    acc.Valid (gs.foldl (fun r g => reduceDynamic r g.resources) r) ∧
      ∀ i, acc.amount (gs.foldl (fun r g => reduceDynamic r g.resources) r) i = acc.amount r i - acc.total gs i
  | [], r, _, hr, _ => ⟨hr, fun i => by simp⟩
  | g :: gs, r, h, hr, hle => by
    have hrest : ∀ x ∈ gs, acc.Whole x.resources := fun x hx => h x (List.mem_cons_of_mem g hx)
    have hnonneg : ∀ i, 0 ≤ acc.total gs i := fun i => total_nonneg fun x hx => acc.valid_of_whole (hrest x hx)
    obtain ⟨hvalid, hamount⟩ := acc.reduce hr (h g (by simp)) fun i => by
      have := hle i
      have := hnonneg i
      rw [total_cons] at *
      omega
    obtain ⟨hvalid', hamount'⟩ := foldl_reduce hrest hvalid fun i => by
      have := hle i
      have := hamount i
      rw [total_cons] at *
      omega
    refine ⟨hvalid', fun i => ?_⟩
    rw [List.foldl_cons, hamount', hamount, total_cons]
    omega

/-- What is released of an action that is not blocked: a gap for each one that
comes from another action, and what it has without origin. -/
theorem heldResources_amounts {requirements : ρ} {gs : List (Gap ρ)} (hreq : acc.Whole requirements)
    (hwhole : ∀ g ∈ gs, acc.Whole g.resources) (horigin : ∀ g ∈ gs, g.origin = none ∨ ∃ p, g.origin = some (.action p))
    (htotal : ∀ i, acc.total gs i = acc.amount requirements i) :
    ∃ held f, heldResources requirements gs = held ++ [f] ∧ (∀ g ∈ held, acc.Valid g.resources) ∧ acc.Valid f.resources ∧
      f.origin = none ∧ (∀ i, acc.amount f.resources i = acc.units none gs i) ∧
      (∀ i, acc.total held i + acc.units none gs i = acc.amount requirements i) ∧
      (∀ o, o ≠ none → ∀ i, acc.units o held i = acc.units o gs i) ∧
      ∀ g ∈ held, ∃ p, g.origin = some (.action p) ∧ ∃ y ∈ gs, y.origin = g.origin := by
  obtain ⟨dep, hdep⟩ : ∃ dep, dep = gs.filter fun g => g.origin.any fun o => !o.isBlocking := ⟨_, rfl⟩
  have hdepMem : ∀ g ∈ dep, g ∈ gs ∧ ∃ p, g.origin = some (.action p) := by
    intro g hg
    rw [hdep, List.mem_filter] at hg
    refine ⟨hg.1, ?_⟩
    rcases horigin g hg.1 with hnone | hp
    · rw [hnone] at hg; cases hg.2
    · exact hp
  have hdepWhole : ∀ g ∈ dep, acc.Whole g.resources := fun g hg => hwhole g (hdepMem g hg).1
  have hsum : ∀ i, acc.total dep i + acc.units none gs i = acc.total gs i := fun i => by rw [hdep]; exact total_filter horigin i
  obtain ⟨hfvalid, hfamount⟩ := foldl_reduce hdepWhole (acc.valid_of_whole (acc.whole_copy hreq)) fun i => by
    have h₁ := hsum i
    have h₂ := htotal i
    have h₃ := acc.amount_copy hreq i
    have h₄ : 0 ≤ acc.units none gs i := units_nonneg fun g hg _ => acc.valid_of_whole (hwhole g hg)
    omega
  refine ⟨dep.map fun g => { g with resources := copy g.resources }, ⟨minTime, none, _⟩, by rw [hdep]; rfl, fun g hg => ?_,
    hdep ▸ hfvalid, rfl, fun i => ?_, fun i => ?_, fun o ho i => ?_, fun g hg => ?_⟩
  · obtain ⟨g', hg', rfl⟩ := List.mem_map.mp hg
    exact acc.valid_of_whole (acc.whole_copy (hdepWhole g' hg'))
  · have h₁ := hsum i
    have h₂ := htotal i
    have h₃ := acc.amount_copy hreq i
    have h₄ := hfamount i
    rw [hdep] at h₄ h₁
    dsimp only
    omega
  · have h₁ := hsum i
    have h₂ := htotal i
    rw [total_copies hdepWhole]
    omega
  · rw [units_copies hdepWhole, hdep]
    exact units_filter_dependent horigin ho i
  · obtain ⟨g', hg', rfl⟩ := List.mem_map.mp hg
    obtain ⟨hmem, p, hp⟩ := hdepMem g' hg'
    exact ⟨p, hp, g', hmem, rfl⟩

/-- The loop over the successors of `a`, of which `todo` are left: the gaps
`held` and `f` are released, and the links are those of the actions left. -/
structure Rerouting (acc : Accounting ρ ι) (actions : Actions ρ) (a : ActionId) (acts : Finset ActionId)
    (rank : ActionId → Nat) (before : Option Origin → ι → Int) (s : MOResourceScheduler ρ) (held : List (Gap ρ)) (f : Gap ρ)
    (todo : List ActionId) : Prop where
  heldValid : ∀ g ∈ held, acc.Valid g.resources
  heldOrigin : ∀ g ∈ held, ∃ p ∈ acts, g.origin = some (.action p) ∧ s.isBlocked p = false ∧ rank p < rank a
  freeValid : acc.Valid f.resources
  freeOrigin : f.origin = none
  /-- Nothing is lost on the way. -/
  kept : ∀ o, o ≠ some (.action a) → ∀ i,
    acc.held s.predecessors acts o i + acc.units o (held ++ [f]) i = before o i
  /-- There is enough for the successors that are left. -/
  enough : ∀ i, acc.held s.predecessors acts (some (.action a)) i ≤ acc.total held i
  taken : ∀ b ∈ acts, b ≠ a → s.isBlocked b = false → ∀ i,
    acc.total (s.predecessors b) i = acc.amount (actions.requirements b) i
  left : ∀ b, todo.count b = links (s.predecessors b) (.action a)
  last : ∀ b ∈ todo, ∃ gs g, s.predecessors b = gs ++ [g] ∧ g.origin = some (.action a) ∧
    ∀ h ∈ gs, h.origin ≠ some (.action a)
  self : s.predecessors a = []
  idle : ∀ b ∉ acts, s.predecessors b = [] ∧ s.successors (.action b) = []
  blocked : ∀ b, s.isBlocked b = true → ∃ g, s.predecessors b = [g]
  whole : ∀ b, s.isBlocked b = false → ∀ g ∈ s.predecessors b, acc.Whole g.resources
  origin : ∀ b, ∀ g ∈ s.predecessors b, ∀ p, g.origin = some (.action p) → p ∈ acts ∧ s.isBlocked p = false
  links : ∀ o, o ≠ .action a → ∀ b, (s.successors o).count b = links (s.predecessors b) o
  ranked : ∀ b, ∀ g ∈ s.predecessors b, ∀ p, g.origin = some (.action p) → rank p < rank b

section
variable {rank : ActionId → Nat} {before : Option Origin → ι → Int} {held : List (Gap ρ)} {f : Gap ρ} {todo : List ActionId}

/-- A successor of `a` is not blocked. -/
theorem Rerouting.not_blocked (h : Rerouting acc actions a acts rank before s held f todo) {g : Gap ρ}
    (hg : g ∈ s.predecessors b) {p : ActionId} (hp : g.origin = some (.action p)) : s.isBlocked b = false := by
  cases hb : s.isBlocked b with
  | false => rfl
  | true =>
    exfalso
    obtain ⟨g', hg'⟩ := h.blocked b hb
    rw [hg'] at hg
    rw [isBlocked_eq, hg', ← List.mem_singleton.mp hg, List.any_cons, hp] at hb
    cases hb

theorem Rerouting.amount_le (h : Rerouting acc actions a acts rank before s held f todo) (hb : b ∈ acts) :
    acc.units (some (.action a)) (s.predecessors b) i ≤ acc.total held i := by
  refine Int.le_trans (Finset.single_le_sum (f := fun c => acc.units (some (.action a)) (s.predecessors c) i) (fun c _ => ?_) hb)
    (h.enough i)
  exact units_nonneg fun g hg ho => acc.valid_of_whole (h.whole c (h.not_blocked hg ho) g hg)

/-- What the round for `b` does, when `b` has one gap of `a`, the last one. -/
theorem coverSuccessor_eq {gs held' used : List (Gap ρ)} {g f' : Gap ρ} {x' : ρ} (hpre : s.predecessors b = gs ++ [g])
    (horigin : g.origin = some (.action a)) (hnot : ∀ h ∈ gs, h.origin ≠ some (.action a))
    (hcover : cover (held ++ [f]) g.resources = (held' ++ [f'], x', used)) (hused : ∀ g ∈ used, g.origin ≠ none)
    (freeActions : List ActionId) : ∃ freeActions', coverSuccessor a (s, held ++ [f], freeActions) b =
      ((s.join b used).setPredecessors b (gs ++ used), held' ++ [f'], freeActions') := by
  have hkept : (gs ++ [g]).filter (fun g => g.origin ≠ some (.action a)) = gs := by
    rw [List.filter_append, List.filter_eq_self.mpr fun h hh => by simpa using hnot h hh]
    simp [horigin]
  have htaken : used.filter (fun g => g.origin.isSome) = used :=
    List.filter_eq_self.mpr fun h hh => Option.isSome_iff_ne_none.mpr (hused h hh)
  rw [coverSuccessor]
  simp only [hpre, List.getLast?_append, List.getLast?_singleton, Option.some_or, hcover, hkept, htaken, horigin, if_true]
  exact ⟨_, rfl⟩

theorem Rerouting.coverSuccessor (h : Rerouting acc actions a acts rank before s held f (b :: todo))
    (freeActions : List ActionId) :
    ∃ s' held' f' freeActions', coverSuccessor a (s, held ++ [f], freeActions) b = (s', held' ++ [f'], freeActions') ∧
      s'.gaps = s.gaps ∧ s'.isScheduled = s.isScheduled ∧ (∀ c, s'.isBlocked c = s.isBlocked c) ∧
      Rerouting acc actions a acts rank before s' held' f' todo := by
  obtain ⟨gs, g, hpre, horigin, hnot⟩ := h.last b (by simp)
  have hg : g ∈ s.predecessors b := by rw [hpre]; simp
  have hnb := h.not_blocked hg horigin
  have hb : b ∈ acts := by
    by_contra hb
    rw [(h.idle b hb).1] at hg
    cases hg
  have hgunits : ∀ i, acc.units (some (.action a)) (s.predecessors b) i = acc.amount g.resources i := by
    intro i
    rw [hpre, units_append, units_eq_zero hnot, units_cons, if_pos horigin, units_nil]
    omega
  have hle : ∀ i, acc.amount g.resources i ≤ acc.total held i := fun i => hgunits i ▸ h.amount_le hb
  obtain ⟨held', f', x', used, hcover, htaken, hf', hf'origin, hf'amount⟩ :=
    cover_taken h.heldValid h.freeValid (acc.valid_of_whole (h.whole b hnb g hg)) hle
  -- What is used comes from the gaps that are held.
  have hfrom : ∀ x ∈ held' ++ used, ∃ p ∈ acts, x.origin = some (.action p) ∧ s.isBlocked p = false ∧ rank p < rank a := by
    intro x hx
    obtain ⟨y, hy, hyx⟩ := htaken.origin x hx
    rw [← hyx]
    exact h.heldOrigin y hy
  have husedOrigin : ∀ x ∈ used, ∃ p ∈ acts, x.origin = some (.action p) ∧ s.isBlocked p = false ∧ rank p < rank a :=
    fun x hx => hfrom x (List.mem_append_right _ hx)
  have husedNot : ∀ x ∈ used, x.origin ≠ some (.action a) := by
    intro x hx heq
    obtain ⟨p, -, hp, -, hrank⟩ := husedOrigin x hx
    rw [hp] at heq
    cases heq
    omega
  obtain ⟨freeActions', heq⟩ := coverSuccessor_eq hpre horigin hnot hcover (fun x hx hnone => by
    obtain ⟨p, -, hp, -⟩ := husedOrigin x hx
    rw [hp] at hnone
    cases hnone) freeActions
  obtain ⟨hjpre, hjsched, hjgaps, hjcount⟩ := join_fields (a := b) used s
  obtain ⟨s', hs'⟩ : ∃ s', s' = (s.join b used).setPredecessors b (gs ++ used) := ⟨_, rfl⟩
  have hspre : s'.predecessors = Function.update s.predecessors b (gs ++ used) := by
    rw [hs', predecessors_setPredecessors, hjpre]
  have hself : s'.predecessors b = gs ++ used := by rw [hspre, Function.update_self]
  have hother : ∀ c, c ≠ b → s'.predecessors c = s.predecessors c := fun c hc => by rw [hspre, Function.update_of_ne hc]
  have hssucc : ∀ o c, (s'.successors o).count c = (s.successors o).count c + if c = b then MOResourceScheduler.links used o else 0 := by
    intro o c
    rw [hs', successors_setPredecessors, hjcount]
  have hnb' : s'.isBlocked b = false := by
    rw [isBlocked_eq, hself]
    refine not_blocked_of_origin fun x hx => ?_
    rcases List.mem_append.mp hx with hx | hx
    · exact origin_of_not_blocked hnb (by rw [hpre]; simp [hx])
    · obtain ⟨p, -, hp, -⟩ := husedOrigin x hx
      exact .inr ⟨p, hp⟩
  have hblocked : ∀ c, s'.isBlocked c = s.isBlocked c := by
    intro c
    by_cases hc : c = b
    · rw [hc, hnb, hnb']
    · exact isBlocked_congr (hother c hc)
  have hunitsSelf : ∀ i, acc.units (some (.action a)) (gs ++ used) i = 0 := fun i => by
    rw [units_append, units_eq_zero hnot, units_eq_zero husedNot]
    rfl
  have hcountSelf : todo.count b = 0 ∧ MOResourceScheduler.links gs (.action a) = 0 := by
    have hcount := h.left b
    have hgs : MOResourceScheduler.links gs (.action a) = 0 := by
      rw [MOResourceScheduler.links, List.countP_eq_zero]
      simpa using hnot
    rw [List.count_cons_self, hpre, links_append, links_cons, hgs, if_pos horigin] at hcount
    simp only [MOResourceScheduler.links, List.countP_nil] at hcount
    exact ⟨by omega, hgs⟩
  refine ⟨s', held', f', freeActions', hs' ▸ heq, ?_, ?_, hblocked, ?_⟩
  · rw [hs', gaps_setPredecessors, hjgaps]
  · rw [hs', isScheduled_setPredecessors, hjsched]
  refine
    { heldValid := htaken.valid
      heldOrigin := fun x hx => ?_
      freeValid := hf'
      freeOrigin := hf'origin.trans h.freeOrigin
      kept := fun o ho i => ?_
      enough := fun i => ?_
      taken := fun c hc hca hnbc i => ?_
      left := fun c => ?_
      last := fun c hc => ?_
      self := ?_
      idle := fun c hc => ?_
      blocked := fun c hcb => ?_
      whole := fun c hcb x hx => ?_
      origin := fun c x hx p hp => ?_
      links := fun o ho c => ?_
      ranked := fun c x hx p hp => ?_ }
  · obtain ⟨p, hp, hxp, hpb, hrank⟩ := hfrom x (List.mem_append_left _ hx)
    exact ⟨p, hp, hxp, (hblocked p).trans hpb, hrank⟩
  · have hkept := h.kept o ho i
    have hup := held_update acc s.predecessors (o := o) (i := i) hb (gs ++ used)
    have hunits := htaken.units o i
    rw [← hspre, hpre, units_append, units_append, units_cons, if_neg (by rw [horigin]; exact Ne.symm ho), units_nil] at hup
    rw [units_append, units_cons, units_nil] at hkept ⊢
    rw [hf'origin, hf'amount]
    omega
  · have henough := h.enough i
    have hup := held_update acc s.predecessors (o := some (.action a)) (i := i) hb (gs ++ used)
    have htotal := htaken.total i
    have hcovered := htaken.covered i
    rw [← hspre, hgunits, hunitsSelf] at hup
    omega
  · by_cases hcb : c = b
    · subst hcb
      have hbefore := h.taken c hc hca hnb i
      have hcovered := htaken.covered i
      rw [hpre, total_append, total_cons, total_nil] at hbefore
      rw [hself, total_append]
      omega
    · rw [hother c hcb]
      exact h.taken c hc hca ((hblocked c) ▸ hnbc) i
  · by_cases hcb : c = b
    · subst hcb
      rw [hcountSelf.1, hself, links_append, hcountSelf.2, MOResourceScheduler.links, List.countP_eq_zero.mpr]
      simpa using husedNot
    · rw [hother c hcb, ← h.left c, List.count_cons_of_ne (Ne.symm hcb)]
  · have hcb : c ≠ b := fun heq => absurd hcountSelf.1 (heq ▸ List.count_pos_iff.mpr hc).ne'
    rw [hother c hcb]
    exact h.last c (List.mem_cons_of_mem b hc)
  · have hab : a ≠ b := fun heq => by
      have hself := h.self
      rw [heq] at hself
      rw [hself] at hg
      cases hg
    exact (hother a hab).trans h.self
  · have hcb : c ≠ b := fun heq => hc (heq ▸ hb)
    obtain ⟨hcpre, hcsucc⟩ := h.idle c hc
    refine ⟨(hother c hcb).trans hcpre, List.eq_nil_iff_forall_not_mem.mpr fun d hd => ?_⟩
    have hzero : MOResourceScheduler.links used (.action c) = 0 := by
      rw [MOResourceScheduler.links, List.countP_eq_zero]
      intro x hx
      obtain ⟨p, hp, hxp, -⟩ := husedOrigin x hx
      rw [hxp]
      simpa using fun heq : p = c => hc (heq ▸ hp)
    have hcount := hssucc (.action c) d
    rw [hcsucc, hzero] at hcount
    simp only [List.count_nil, ite_self] at hcount
    exact absurd hcount (List.count_pos_iff.mpr hd).ne'
  · have hcb' : c ≠ b := fun heq => by rw [heq, hnb'] at hcb; cases hcb
    rw [hother c hcb']
    exact h.blocked c ((hblocked c) ▸ hcb)
  · by_cases hcb' : c = b
    · rw [hcb', hself] at hx
      rcases List.mem_append.mp hx with hx | hx
      · exact h.whole b hnb x (by rw [hpre]; simp [hx])
      · exact htaken.whole x hx
    · rw [hother c hcb'] at hx
      exact h.whole c ((hblocked c) ▸ hcb) x hx
  · rw [hblocked]
    by_cases hcb : c = b
    · rw [hcb, hself] at hx
      rcases List.mem_append.mp hx with hx | hx
      · exact h.origin b x (by rw [hpre]; simp [hx]) p hp
      · obtain ⟨q, hq, hxq, hqb, -⟩ := husedOrigin x hx
        rw [hxq] at hp
        cases hp
        exact ⟨hq, hqb⟩
    · rw [hother c hcb] at hx
      exact h.origin c x hx p hp
  · rw [hssucc, h.links o ho]
    by_cases hcb : c = b
    · subst hcb
      have hg0 : ¬ g.origin = some o := by
        rw [horigin]
        simpa using Ne.symm ho
      rw [hself, hpre, links_append, links_append, links_cons, if_neg hg0, if_pos rfl]
      simp [MOResourceScheduler.links]
    · rw [hother c hcb, if_neg hcb, Nat.add_zero]
  · by_cases hcb : c = b
    · rw [hcb, hself] at hx
      rw [hcb]
      rcases List.mem_append.mp hx with hx | hx
      · exact h.ranked b x (by rw [hpre]; simp [hx]) p hp
      · -- It comes before `a`, which comes before `b`.
        obtain ⟨q, -, hxq, -, hrank⟩ := husedOrigin x hx
        rw [hxq] at hp
        cases hp
        exact Nat.lt_trans hrank (h.ranked b g hg a horigin)
    · rw [hother c hcb] at hx
      exact h.ranked c x hx p hp

theorem Rerouting.loop : ∀ {todo : List ActionId} {s : MOResourceScheduler ρ} {held : List (Gap ρ)} {f : Gap ρ},
    Rerouting acc actions a acts rank before s held f todo → ∀ freeActions : List ActionId,
    ∃ s' held' f' freeActions', todo.foldl (MOResourceScheduler.coverSuccessor a) (s, held ++ [f], freeActions) =
        (s', held' ++ [f'], freeActions') ∧
      s'.gaps = s.gaps ∧ s'.isScheduled = s.isScheduled ∧ (∀ c, s'.isBlocked c = s.isBlocked c) ∧
      Rerouting acc actions a acts rank before s' held' f' []
  | [], s, held, f, h, freeActions => ⟨s, held, f, freeActions, rfl, rfl, rfl, fun _ => rfl, h⟩
  | b :: todo, s, held, f, h, freeActions => by
    obtain ⟨s₁, held₁, f₁, free₁, heq₁, hgaps₁, hsched₁, hblocked₁, h₁⟩ := h.coverSuccessor freeActions
    obtain ⟨s', held', f', free', heq, hgaps, hsched, hblocked, h'⟩ := h₁.loop free₁
    exact ⟨s', held', f', free', by rw [List.foldl_cons, heq₁, heq], hgaps.trans hgaps₁, hsched.trans hsched₁,
      fun c => (hblocked c).trans (hblocked₁ c), h'⟩

/-- The beginning of the loop. -/
theorem Sound.rerouting (h : Sound acc actions description s acts) (ha : a ∈ acts)
    (hwholeReq : acc.Whole (actions.requirements a)) (hgood : Reroutes acc s (.unscheduleAction a))
    (hrank : ∀ b, ∀ g ∈ s.predecessors b, ∀ p, g.origin = some (.action p) → rank p < rank b) :
    ∃ held f, heldResources (actions.requirements a) (s.predecessors a) = held ++ [f] ∧
      Rerouting acc actions a acts rank (acc.held s.predecessors acts) ((s.leave a (s.predecessors a)).setPredecessors a [])
        held f (s.successors (.action a)) := by
  obtain ⟨hnb, hlast, hown⟩ := hgood ((h.scheduled a).mp ha)
  obtain ⟨held, f, heq, hheldValid, hfValid, hforigin, hfamount, htotal, hunits, hheldOrigin⟩ :=
    heldResources_amounts hwholeReq (h.whole a hnb) (fun g hg => origin_of_not_blocked hnb hg) (h.taken a ha hnb)
  refine ⟨held, f, heq, ?_⟩
  obtain ⟨hlpre, hlsched, -, hlcount⟩ := leave_fields (a := a) (s.predecessors a) s
  obtain ⟨t, ht⟩ : ∃ t, t = (s.leave a (s.predecessors a)).setPredecessors a [] := ⟨_, rfl⟩
  rw [← ht]
  have hpre : t.predecessors = Function.update s.predecessors a [] := by rw [ht, predecessors_setPredecessors, hlpre]
  have hself : t.predecessors a = [] := by rw [hpre, Function.update_self]
  have hother : ∀ b, b ≠ a → t.predecessors b = s.predecessors b := fun b hb => by rw [hpre, Function.update_of_ne hb]
  have hcount : ∀ o b, (t.successors o).count b =
      (s.successors o).count b - if b = a then MOResourceScheduler.links (s.predecessors a) o else 0 := by
    intro o b
    rw [ht, successors_setPredecessors, hlcount]
  have hblocked : ∀ b, t.isBlocked b = s.isBlocked b := by
    intro b
    by_cases hb : b = a
    · rw [hb, hnb, isBlocked_eq, hself]
      rfl
    · exact isBlocked_congr (hother b hb)
  have hmem : ∀ b, ∀ g ∈ t.predecessors b, g ∈ s.predecessors b := by
    intro b g hg
    by_cases hb : b = a
    · rw [hb, hself] at hg
      cases hg
    · rwa [hother b hb] at hg
  -- Nothing that `a` has comes from itself.
  have hselfOrigin : ∀ g ∈ s.predecessors a, g.origin ≠ some (.action a) := fun g hg heq =>
    Nat.lt_irrefl _ (hrank a g hg a heq)
  have hheld : ∀ o i, acc.held t.predecessors acts o i + acc.units o (s.predecessors a) i = acc.held s.predecessors acts o i := by
    intro o i
    have := held_update acc s.predecessors (o := o) (i := i) ha []
    rw [hpre]
    rw [units_nil] at this
    omega
  refine
    { heldValid := hheldValid
      heldOrigin := fun g hg => ?_
      freeValid := hfValid
      freeOrigin := hforigin
      kept := fun o ho i => ?_
      enough := fun i => ?_
      taken := fun b hb hba hnbb i => ?_
      left := fun b => ?_
      last := fun b hb => ?_
      self := hself
      idle := fun b hb => ?_
      blocked := fun b hb => ?_
      whole := fun b hb g hg => h.whole b ((hblocked b) ▸ hb) g (hmem b g hg)
      origin := fun b g hg p hp => ?_
      links := fun o ho b => ?_
      ranked := fun b g hg p hp => hrank b g (hmem b g hg) p hp }
  · obtain ⟨p, hp, y, hy, hyg⟩ := hheldOrigin g hg
    have hyp : y.origin = some (.action p) := hyg.trans hp
    obtain ⟨hpacts, hpb⟩ := h.origin a y hy p hyp
    exact ⟨p, hpacts, hp, (hblocked p).trans hpb, hrank a y hy p hyp⟩
  · have hsum := hheld o i
    rw [units_append, units_cons, units_nil, hforigin]
    by_cases hnone : o = none
    · have hzero : acc.units o held i = 0 := units_eq_zero fun g hg heq => by
        obtain ⟨p, hp, -⟩ := hheldOrigin g hg
        rw [hp, hnone] at heq
        cases heq
      subst hnone
      have hfi := hfamount i
      rw [hzero, if_pos rfl]
      omega
    · have huo := hunits o hnone i
      rw [if_neg (Ne.symm hnone)]
      omega
  · have hsum := hheld (some (.action a)) i
    have hzero : acc.units (some (.action a)) (s.predecessors a) i = 0 := units_eq_zero hselfOrigin
    have hreleased := h.released a ha hnb i
    have htotali := htotal i
    have howni := hown i
    omega
  · rw [hother b hba]
    exact h.taken b hb ((hblocked b) ▸ hnbb) i
  · by_cases hba : b = a
    · subst hba
      rw [hself, h.links, MOResourceScheduler.links, List.countP_eq_zero.mpr]
      · rfl
      · simpa using hselfOrigin
    · rw [hother b hba, h.links]
  · obtain ⟨gs, g, hbpre, hgo, hgs⟩ := hlast b hb
    have hba : b ≠ a := fun heq => by
      subst heq
      exact hselfOrigin g (by rw [hbpre]; simp) hgo
    exact ⟨gs, g, (hother b hba).trans hbpre, hgo, hgs⟩
  · have hba : b ≠ a := fun heq => hb (heq ▸ ha)
    obtain ⟨hbpre, hbsucc⟩ := h.idle b hb
    refine ⟨(hother b hba).trans hbpre, List.eq_nil_iff_forall_not_mem.mpr fun c hc => ?_⟩
    have hzero := hcount (.action b) c
    rw [hbsucc, List.count_nil, Nat.zero_sub] at hzero
    exact absurd hzero (List.count_pos_iff.mpr hc).ne'
  · have hba : b ≠ a := fun heq => by
      rw [hblocked, heq, hnb] at hb
      cases hb
    rw [hother b hba]
    exact h.blocked b ((hblocked b) ▸ hb)
  · rw [hblocked]
    exact h.origin b g (hmem b g hg) p hp
  · rw [hcount, h.links]
    by_cases hba : b = a
    · subst hba
      rw [hself, if_pos rfl, Nat.sub_self]
      rfl
    · rw [if_neg hba, hother b hba, Nat.sub_zero]

end

/-- The end of the loop: what is left is added to the gaps. -/
theorem Rerouting.sound {rank : ActionId → Nat} {held : List (Gap ρ)} {f : Gap ρ} {t : MOResourceScheduler ρ}
    (h : Rerouting acc actions a acts rank (acc.held s.predecessors acts) t held f []) (hs : Sound acc actions description s acts)
    (hgaps : t.gaps = s.gaps) (hsched : t.isScheduled = s.isScheduled) (hblocked : ∀ c, c ≠ a → t.isBlocked c = s.isBlocked c) :
    Sound acc actions description { t.unscheduled a with
      gaps := (held ++ [f]).foldl addGap (t.gaps.filter fun g => g.origin ≠ some (.action a)) } (acts.erase a) := by
  obtain ⟨t', ht'⟩ : ∃ t', t' = ({ t.unscheduled a with
      gaps := (held ++ [f]).foldl addGap (t.gaps.filter fun g => g.origin ≠ some (.action a)) } : MOResourceScheduler ρ) := ⟨_, rfl⟩
  rw [← ht']
  have hpre : t'.predecessors = t.predecessors := by
    rw [ht']
    show (t.unscheduled a).predecessors = _
    rw [predecessors_unscheduled, ← h.self, Function.update_eq_self]
  have hsucc : t'.successors = Function.update t.successors (.action a) [] := by
    rw [ht']
    exact successors_unscheduled
  have hsched' : t'.isScheduled = Function.update s.isScheduled a false := by
    rw [ht', ← hsched]
    exact isScheduled_unscheduled
  have hblocked' : ∀ c, t'.isBlocked c = t.isBlocked c := fun c => isBlocked_congr (congrFun hpre c)
  have hresValid : ∀ g ∈ held ++ [f], acc.Valid g.resources := by
    intro g hg
    rcases List.mem_append.mp hg with hg | hg
    · exact h.heldValid g hg
    · rw [List.mem_singleton.mp hg]; exact h.freeValid
  have hfilterValid : ∀ g ∈ s.gaps.filter (fun g => g.origin ≠ some (.action a)), acc.Valid g.resources :=
    fun g hg => hs.gapsValid g (List.mem_filter.mp hg).1
  obtain ⟨hvalid, hunits, horigin⟩ := addGaps_amounts hresValid hfilterValid
  have hgaps' : t'.gaps = (held ++ [f]).foldl addGap (s.gaps.filter fun g => g.origin ≠ some (.action a)) := by
    rw [ht', hgaps]
  -- No gap of `a` is left.
  have hnone : ∀ b, ∀ g ∈ t.predecessors b, g.origin ≠ some (.action a) := by
    intro b
    have hcount := h.left b
    rw [List.count_nil, MOResourceScheduler.links, eq_comm, List.countP_eq_zero] at hcount
    simpa using hcount
  have hheld : ∀ o i, acc.held t'.predecessors (acts.erase a) o i = acc.held t.predecessors acts o i := by
    intro o i
    rw [hpre, held_erase h.self]
  have hflow : ∀ o, o ≠ some (.action a) → ∀ i, acc.units o t'.gaps i + acc.held t'.predecessors (acts.erase a) o i =
      acc.units o s.gaps i + acc.held s.predecessors acts o i := by
    intro o ho i
    have hkept := h.kept o ho i
    rw [hgaps', hunits, units_filter_ne ho, hheld]
    omega
  refine ⟨⟨fun b => ?_, fun b hb hnb i => ?_, fun b hb hnb i => ?_, fun i => ?_⟩, hgaps' ▸ hvalid, fun g hg o ho => ?_,
    fun b hb => ?_, fun b hb => ?_, fun b hb g hg => ?_, fun b g hg p hp => ?_, fun o b => ?_, ⟨rank, fun b g hg p hp => ?_⟩⟩
  · rw [hsched', Finset.mem_erase, Function.update_apply, hs.scheduled]
    split
    · next heq => simp [heq]
    · next hne => simp [hne]
  · rw [hpre]
    exact h.taken b (Finset.mem_of_mem_erase hb) (Finset.ne_of_mem_erase hb) ((hblocked' b) ▸ hnb) i
  · have hba := Finset.ne_of_mem_erase hb
    have hreleased := hs.released b (Finset.mem_of_mem_erase hb) (((hblocked' b).trans (hblocked b hba)) ▸ hnb) i
    rw [hflow _ (by simpa using hba), hreleased]
  · rw [hflow none (by simp), hs.free]
  · rw [hgaps'] at hg
    obtain ⟨y, hy, hyg⟩ := horigin g hg
    rcases List.mem_append.mp hy with hy | hy
    · rw [List.mem_filter] at hy
      obtain ⟨p, hp, hop, hpb⟩ := hs.gapsOrigin y hy.1 o (hyg.trans ho)
      have hpa : p ≠ a := by
        have hya := hy.2
        rw [hyg, ho, hop] at hya
        simpa using hya
      exact ⟨p, Finset.mem_erase.mpr ⟨hpa, hp⟩, hop, (hblocked' p).trans ((hblocked p hpa).trans hpb)⟩
    · rcases List.mem_append.mp hy with hy | hy
      · obtain ⟨p, hp, hyp, hpb, hrank⟩ := h.heldOrigin y hy
        have hpa : p ≠ a := fun heq => Nat.lt_irrefl _ (heq ▸ hrank)
        rw [hyg, ho] at hyp
        cases hyp
        exact ⟨p, Finset.mem_erase.mpr ⟨hpa, hp⟩, rfl, (hblocked' p).trans hpb⟩
      · rw [List.mem_singleton.mp hy, h.freeOrigin, ho] at hyg
        cases hyg
  · rw [hpre, hsucc]
    by_cases hba : b = a
    · rw [hba, Function.update_self]
      exact ⟨h.self, rfl⟩
    · have hbacts : b ∉ acts := fun hmem => hb (Finset.mem_erase.mpr ⟨hba, hmem⟩)
      rw [Function.update_of_ne (by simpa using hba)]
      exact h.idle b hbacts
  · rw [hpre]
    exact h.blocked b ((hblocked' b) ▸ hb)
  · rw [hpre] at hg
    exact h.whole b ((hblocked' b) ▸ hb) g hg
  · rw [hpre] at hg
    obtain ⟨hp', hpb⟩ := h.origin b g hg p hp
    have hpa : p ≠ a := fun heq => hnone b g hg (heq ▸ hp)
    exact ⟨Finset.mem_erase.mpr ⟨hpa, hp'⟩, (hblocked' p).trans hpb⟩
  · rw [hpre, hsucc]
    by_cases ho : o = .action a
    · rw [ho, Function.update_self, ← h.left b]
    · rw [Function.update_of_ne ho]
      exact h.links o ho b
  · rw [hpre] at hg
    exact h.ranked b g hg p hp

theorem Sound.congr (h : Sound acc actions description s acts) {t : MOResourceScheduler ρ}
    (hpre : t.predecessors = s.predecessors) (hsucc : t.successors = s.successors) (hsched : t.isScheduled = s.isScheduled)
    (hgaps : t.gaps = s.gaps) : Sound acc actions description t acts := by
  have hblocked : t.isBlocked = s.isBlocked := funext fun b => isBlocked_congr (congrFun hpre b)
  refine ⟨⟨?_, ?_, ?_, ?_⟩, ?_, ?_, ?_, ?_, ?_, ?_, ?_, ?_⟩ <;> simp only [hpre, hsucc, hsched, hgaps, hblocked]
  · exact h.scheduled
  · exact h.taken
  · exact h.released
  · exact h.free
  · exact h.gapsValid
  · exact h.gapsOrigin
  · exact h.idle
  · exact h.blocked
  · exact h.whole
  · exact h.origin
  · exact h.links
  · exact h.ranked

/-- What unscheduling an action does. -/
theorem Sound.unscheduleAction (h : Sound acc actions description s acts) (hreq : acc.Whole (actions.requirements a))
    (hgood : Reroutes acc s (.unscheduleAction a)) :
    Sound acc actions description (s.unscheduleAction actions a).1 (acts.erase a) := by
  rw [MOResourceScheduler.unscheduleAction]
  by_cases hsched : s.isScheduled a = true
  · have ha := (h.scheduled a).mpr hsched
    obtain ⟨rank, hrank⟩ := h.ranked
    obtain ⟨held, f, hheld, hr⟩ := h.rerouting ha hreq hgood hrank
    obtain ⟨hlpre, hlsched, hlgaps, -⟩ := leave_fields (a := a) (s.predecessors a) s
    obtain ⟨s', held', f', free', hloop, hgaps, hsched', hblocked, hr'⟩ := hr.loop []
    have htodo : ((s.leave a (s.predecessors a)).setPredecessors a []).successors (.action a) = s.successors (.action a) := by
      rw [successors_setPredecessors, successors_leave fun g hg heq => Nat.lt_irrefl _ (hrank a g hg a heq)]
    simp only [hsched, Bool.not_true, Bool.false_eq_true, if_false, hheld, htodo, hloop]
    refine hr'.sound h ?_ ?_ fun c hc => ?_
    · rw [hgaps, gaps_setPredecessors, hlgaps]
    · rw [hsched', isScheduled_setPredecessors, hlsched]
    · rw [hblocked]
      refine isBlocked_congr ?_
      rw [predecessors_setPredecessors, hlpre, Function.update_of_ne hc]
  · -- Nothing is there to be cleared.
    have ha : a ∉ acts := fun hmem => hsched ((h.scheduled a).mp hmem)
    have hfalse : s.isScheduled a = false := by simpa using hsched
    simp only [hfalse, Bool.not_false, if_true]
    rw [Finset.erase_eq_of_notMem ha]
    obtain ⟨hpre, hsucc⟩ := h.idle a ha
    have hpre' : (s.unscheduled a).predecessors = s.predecessors := by
      rw [predecessors_unscheduled, ← hpre, Function.update_eq_self]
    have hsucc' : (s.unscheduled a).successors = s.successors := by
      rw [successors_unscheduled, ← hsucc, Function.update_eq_self]
    have hsched' : (s.unscheduled a).isScheduled = s.isScheduled := by
      rw [isScheduled_unscheduled, ← hfalse, Function.update_eq_self]
    exact h.congr hpre' hsucc' hsched' rfl

/-! ## Runs -/

theorem sound_init (hdesc : acc.Whole description) : Sound acc actions description (MOResourceScheduler.init description) ∅ := by
  have hgaps : (MOResourceScheduler.init description).gaps = [⟨minTime, none, copy description⟩] := rfl
  have hpre : ∀ b, (MOResourceScheduler.init description).predecessors b = [] := fun _ => rfl
  have hsucc : ∀ o, (MOResourceScheduler.init description).successors o = [] := fun o => by cases o <;> rfl
  refine ⟨⟨fun b => ?_, fun b hb => ?_, fun b hb => ?_, fun i => ?_⟩, fun g hg => ?_, fun g hg o ho => ?_, fun b _ => ⟨hpre b, hsucc _⟩,
    fun b hb => ?_, fun b _ g hg => ?_, fun b g hg => ?_, fun o b => ?_, ⟨fun _ => 0, fun b g hg => ?_⟩⟩
  · simp [MOResourceScheduler.isScheduled, MOResourceScheduler.init]
  · cases hb
  · cases hb
  · rw [hgaps, Accounting.held, Finset.sum_empty, units_cons, if_pos rfl, units_nil]
    have := acc.amount_copy hdesc i
    dsimp only
    omega
  · rw [hgaps, List.mem_singleton] at hg
    rw [hg]
    exact acc.valid_of_whole (acc.whole_copy hdesc)
  · rw [hgaps, List.mem_singleton] at hg
    rw [hg] at ho
    cases ho
  · cases hb
  · cases hg
  · cases hg
  · rw [hpre, hsucc]
    rfl
  · cases hg

theorem sound_step (hreq : ∀ a, acc.Whole (actions.requirements a)) {l : Label} {t : MOResourceScheduler ρ}
    (h : ∃ acts, Sound acc actions description s acts) (hgood : Reroutes acc s l) (ht : step actions s l = some t) :
    ∃ acts, Sound acc actions description t acts := by
  obtain ⟨acts, h⟩ := h
  cases l with
  | scheduleAction a averageTime dataPredecessors =>
    rw [step] at ht
    split at ht
    · cases ht
    · next hsched =>
      cases ht
      exact ⟨_, h.scheduleAction (fun hmem => hsched ((h.scheduled a).mp hmem)) (hreq a) averageTime dataPredecessors⟩
  | unscheduleAction a =>
    cases ht
    exact ⟨_, h.unscheduleAction (hreq a) hgood⟩

/-- **The resources of a worker.** In every run in which the unscheduled actions
are not blocked, their successors have one gap of them, as the last one, and
are covered by what comes from other actions, no resource appears and none is
lost. -/
theorem conserved_of_reroutes (hdesc : acc.Whole description) (hreq : ∀ a, acc.Whole (actions.requirements a))
    {ls : List Label} (h : Lib.Along (step actions) (Reroutes acc) (MOResourceScheduler.init description) ls) :
    Lib.Always (step actions) (Conserved acc actions description) (MOResourceScheduler.init description) ls :=
  Lib.always_of_along (fun _ ⟨acts, hs⟩ => ⟨acts, hs.toFlow⟩) (fun _ _ _ hs hg ht => sound_step hreq hs hg ht)
    ⟨∅, sound_init hdesc⟩ h

/-- Whole numbers for the floats. -/
instance : NegativeUnassigned Int := ⟨rfl, rfl, rfl, rfl⟩

/-- A service that four calls may use at once, and a CPU with four units. -/
def exampleService : ServiceResourceDescription := ⟨"S", "N", "P", 4⟩

def exampleCPU (cus : Int) : MethodResourceDescription Int := MethodResourceDescription.new.addProcessor { Processor.new with computingUnits := cus }

theorem oneCPU_example (cus : Int) (h : 0 < cus) : (cpuAccounting (Processor.new : Processor Int)).Whole (exampleCPU cus) :=
  ⟨_, oneCPU_new ⟨rfl, .inl rfl, .inl rfl, .inl rfl, .inl rfl, rfl, rfl⟩ h, h⟩

/-- Three actions in a row. -/
def chain : List Label :=
  [.scheduleAction 0 (some 10) [], .scheduleAction 1 (some 10) [.here 0], .scheduleAction 2 none [], .unscheduleAction 1]

/-- The action in the middle is unscheduled: the last one depends on the first. -/
theorem conserved_of_reroutes_chain :
    Lib.Always (step ⟨fun _ => exampleService, fun _ => true⟩)
      (Conserved ServiceResourceDescription.accounting ⟨fun _ => exampleService, fun _ => true⟩ exampleService)
      (MOResourceScheduler.init exampleService) chain ∧
    Lib.Always (step ⟨fun _ => exampleCPU 4, fun _ => true⟩)
      (Conserved (cpuAccounting Processor.new) ⟨fun _ => exampleCPU 4, fun _ => true⟩ (exampleCPU 4))
      (MOResourceScheduler.init (exampleCPU 4)) chain := by
  have hservice : ServiceResourceDescription.accounting.Whole exampleService := by
    show (0 : Int) ≤ 4
    decide
  refine ⟨conserved_of_reroutes hservice (fun _ => hservice) ?_,
    conserved_of_reroutes (oneCPU_example 4 (by decide)) (fun _ => oneCPU_example 4 (by decide)) ?_⟩
  · refine fun t ht => ⟨trivial, ?_⟩
    cases ht
    refine fun t ht => ⟨trivial, ?_⟩
    cases ht
    refine fun t ht => ⟨trivial, ?_⟩
    cases ht
    refine fun t _ => ⟨fun _ => ⟨rfl, fun b hb => ?_, by rintro ⟨⟩; decide⟩, trivial⟩
    have hb2 : b ∈ [2] := hb
    rw [List.mem_singleton.mp hb2]
    exact ⟨[], _, rfl, rfl, by simp⟩
  · refine fun t ht => ⟨trivial, ?_⟩
    cases ht
    refine fun t ht => ⟨trivial, ?_⟩
    cases ht
    refine fun t ht => ⟨trivial, ?_⟩
    cases ht
    refine fun t _ => ⟨fun _ => ⟨rfl, fun b hb => ?_, by rintro ⟨⟩; decide⟩, trivial⟩
    have hb2 : b ∈ [2] := hb
    rw [List.mem_singleton.mp hb2]
    exact ⟨[], _, rfl, rfl, by simp⟩

/-- Actions for three calls, of which the first one never ends. -/
def threeCalls : Actions ServiceResourceDescription := ⟨fun _ => .ofConnections 3, fun a => a ≠ 0⟩

/-- The second action is blocked; unscheduling it adds the three calls it asked
for to the one that is free. -/
theorem blocked_adds_capacity : ¬ Lib.Always (step threeCalls)
    (Conserved ServiceResourceDescription.accounting threeCalls exampleService) (MOResourceScheduler.init exampleService)
    [.scheduleAction 0 (some 10) [], .scheduleAction 1 (some 10) [], .unscheduleAction 1] := by
  intro h
  obtain ⟨acts, hflow⟩ := ((h.2 _ rfl).2 _ rfl).2 _ rfl
  set t := (unscheduleAction threeCalls _ 1).1 with ht
  have hnonneg : ∀ b, 0 ≤ ServiceResourceDescription.accounting.units none (t.predecessors b) () := by
    intro b
    rw [ht]
    match b with
    | 0 => decide
    | 1 => decide
    | b + 2 => exact Int.le_of_eq rfl
  -- The first action still holds three calls.
  have hheld : ServiceResourceDescription.accounting.units none (t.predecessors 0) () ≤
      ServiceResourceDescription.accounting.held t.predecessors acts none () :=
    Finset.single_le_sum (fun b _ => hnonneg b) ((hflow.scheduled 0).mpr rfl)
  have hthree : ServiceResourceDescription.accounting.units none (t.predecessors 0) () = 3 := rfl
  have hfour : ServiceResourceDescription.accounting.units none t.gaps () = 4 := rfl
  have hall : ServiceResourceDescription.accounting.amount exampleService () = 4 := rfl
  have hfree := hflow.free ()
  omega

end Compss.MultiObjective
