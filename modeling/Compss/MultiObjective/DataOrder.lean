/-
The order of the data: an action of the worker waits while a data predecessor of
it is on optimisation, and what starts does so after the ends of its
predecessors. Actions that are blocked end at the end of time.
-/
import Compss.MultiObjective.LocalOptimization
import Mathlib.Data.Finset.Card

namespace Compss.MultiObjective

open ResourceDescription LocalOptimizationState

variable {ρ : Type} {w : OptimizedActions ρ} {s s' : LocalOptimizationState ρ} {q q' : List SchedulingEvent}
  {todo todo' : List ActionId} {a b p : ActionId} {t e : Int}

/-- `p` is a data predecessor of `a` on this worker. -/
def OptimizedActions.Precedes (w : OptimizedActions ρ) (p a : ActionId) : Prop :=
  a ∈ w.actions ∧ .here p ∈ w.dataPredecessors a

/-- A set of actions that are assigned to the worker, without cycles. -/
structure OptimizedActions.WellFormed (w : OptimizedActions ρ) : Prop where
  nodup : w.actions.Nodup
  scheduled : ∀ a ∈ w.actions, w.scheduled a = true
  here : ∀ p a, w.Precedes p a → p ∈ w.actions
  once : ∀ a ∈ w.actions, (internal w a).Nodup
  acyclic : ∃ rank : ActionId → Nat, ∀ p a, w.Precedes p a → rank p < rank a
  elsewhere : ∀ a ∈ w.actions, ∀ x e, .elsewhere x e ∈ w.dataPredecessors a → e ≤ maxTime
  times : ∀ a ∈ w.actions, ∀ t, w.averageExecutionTime a = some t → 0 ≤ t ∧ t ≤ maxTime
  tryToLaunch : ∀ a ∈ w.actions, w.tryToLaunch a = true

/-- An action that the classification blocks: its data come from elsewhere, and never. -/
def OptimizedActions.DataBlocked (w : OptimizedActions ρ) (a : ActionId) : Prop :=
  internal w a = [] ∧ hasExternal w a = true ∧ externalStart w a = maxTime

def SchedulingEvent.action : SchedulingEvent → ActionId
  | .Start _ a => a
  | .End _ a => a

/-- An action that may start at its expected start. -/
structure Available (w : OptimizedActions ρ) (s : LocalOptimizationState ρ) (a : ActionId) : Prop where
  nonneg : 0 ≤ s.expectedStart a
  le : s.expectedStart a ≤ maxTime
  after : ∀ p, w.Precedes p a → s.expectedEnd p ≤ s.expectedStart a
  on : s.onOptimization a = true ∨ s.expectedStart a = maxTime

/-- Where the actions are, while the data successors `todo` are still to be released. -/
structure Ordered (w : OptimizedActions ρ) (s : LocalOptimizationState ρ) (q : List SchedulingEvent) (todo : List ActionId) :
    Prop where
  waits : ∀ p a, w.Precedes p a → s.onOptimization p = true →
    s.toReschedule a = true ∧ a ∉ s.readyActions ∧ a ∉ s.selectableActions ∧ a ∈ s.optimizingSuccessors p
  optimizing : ∀ p, ∀ a ∈ s.optimizingSuccessors p, w.Precedes p a
  optimizingNodup : ∀ p, (s.optimizingSuccessors p).Nodup
  events : ∀ e ∈ q, ∃ t p, e = .End t p ∧ p ∈ w.actions ∧ s.toReschedule p = false ∧ s.expectedEnd p = t ∧
    (s.onOptimization p = true ∨ t = maxTime)
  eventsNodup : (q.map SchedulingEvent.action).Nodup
  selectable : ∀ a ∈ s.selectableActions, a ∈ w.actions ∧ (s.toReschedule a = true → Available w s a)
  ready : ∀ a ∈ s.readyActions, a ∈ w.actions ∧ s.toReschedule a = true ∧ Available w s a
  readyNodup : s.readyActions.Nodup
  placed : ∀ a ∈ w.actions, s.toReschedule a = false →
    s.expectedStart a ≤ maxTime ∧ ∀ p, w.Precedes p a → s.expectedEnd p ≤ s.expectedStart a
  ends : ∀ a ∈ w.actions, s.toReschedule a = false ∨ s.onOptimization a = false → s.expectedEnd a ≤ maxTime
  blocked : ∀ a ∈ w.actions, s.onOptimization a = false → s.toReschedule a = true →
    s.expectedEnd a = maxTime ∧ a ∈ s.successors .dataBlockingAction ∧
      (∃ p, w.Precedes p a ∧ s.onOptimization p = false ∧ s.expectedEnd p = maxTime) ∧
      ∀ b ∈ s.optimizingSuccessors a, s.onOptimization b = false
  pending : ∀ a ∈ w.actions, s.onOptimization a = true → s.toReschedule a = false → ∃ t, .End t a ∈ q
  blockedOn : ∀ a ∈ w.actions, a ∈ s.successors .dataBlockingAction → s.onOptimization a = true → w.DataBlocked a
  located : ∀ a ∈ w.actions, s.toReschedule a = true → a ∈ s.successors .dataBlockingAction ∨ a ∈ s.selectableActions ∨
    a ∈ s.readyActions ∨ a ∈ todo ∨ ∃ p, w.Precedes p a ∧ s.onOptimization p = true

theorem Available.congr (h : Available w s a) (hstart : s'.expectedStart a = s.expectedStart a)
    (hend : ∀ p, w.Precedes p a → s'.expectedEnd p = s.expectedEnd p) (hon : s'.onOptimization a = s.onOptimization a) :
    Available w s' a where
  nonneg := hstart ▸ h.nonneg
  le := hstart ▸ h.le
  after p hp := by rw [hend p hp, hstart]; exact h.after p hp
  on := by rw [hon, hstart]; exact h.on

/-- The predecessors of an action that may be chosen are over, or blocked. -/
theorem Ordered.off_of_selectable (h : Ordered w s q todo) (ha : a ∈ s.selectableActions) (hp : w.Precedes p a) :
    s.onOptimization p = false := by
  by_contra hon
  exact (h.waits p a hp (by simpa using hon)).2.2.1 ha

theorem Ordered.off_of_ready (h : Ordered w s q todo) (ha : a ∈ s.readyActions) (hp : w.Precedes p a) :
    s.onOptimization p = false := by
  by_contra hon
  exact (h.waits p a hp (by simpa using hon)).2.1 ha

/-- An action that waits has no end to come. -/
theorem Ordered.not_event (h : Ordered w s q todo) (ha : s.toReschedule a = true) : a ∉ q.map SchedulingEvent.action := by
  intro hmem
  obtain ⟨e, he, rfl⟩ := List.mem_map.mp hmem
  obtain ⟨t, p, rfl, -, hplaced, -⟩ := h.events e he
  simp only [SchedulingEvent.action] at ha
  rw [ha] at hplaced
  cases hplaced

theorem Ordered.perm (h : Ordered w s q todo) (hq : q.Perm q') : Ordered w s q' todo :=
  { h with
    events := fun e he => h.events e (hq.mem_iff.mpr he)
    eventsNodup := ((hq.map _).nodup_iff).mp h.eventsNodup
    pending := fun a ha hon hplaced => by
      obtain ⟨t, ht⟩ := h.pending a ha hon hplaced
      exact ⟨t, hq.mem_iff.mp ht⟩ }

/-- Nothing that concerns the data changes. -/
theorem Ordered.congr (h : Ordered w s q todo) (hto : s'.toReschedule = s.toReschedule)
    (hon : s'.onOptimization = s.onOptimization) (hstart : s'.expectedStart = s.expectedStart)
    (hend : s'.expectedEnd = s.expectedEnd) (hopt : s'.optimizingSuccessors = s.optimizingSuccessors)
    (hready : s'.readyActions = s.readyActions) (hselectable : s'.selectableActions = s.selectableActions)
    (hblocked : s'.successors .dataBlockingAction = s.successors .dataBlockingAction) : Ordered w s' q todo := by
  have havail : ∀ a, Available w s a → Available w s' a := fun a ha =>
    ha.congr (by rw [hstart]) (fun p _ => by rw [hend]) (by rw [hon])
  constructor
  · rw [hto, hon, hopt, hready, hselectable]; exact h.waits
  · rw [hopt]; exact h.optimizing
  · rw [hopt]; exact h.optimizingNodup
  · rw [hto, hon, hend]; exact h.events
  · exact h.eventsNodup
  · rw [hto, hselectable]; exact fun a ha => ⟨(h.selectable a ha).1, fun hto => havail a ((h.selectable a ha).2 hto)⟩
  · rw [hto, hready]; exact fun a ha => ⟨(h.ready a ha).1, (h.ready a ha).2.1, havail a (h.ready a ha).2.2⟩
  · rw [hready]; exact h.readyNodup
  · rw [hto, hstart, hend]; exact h.placed
  · rw [hto, hon, hend]; exact h.ends
  · rw [hto, hon, hend, hopt, hblocked]; exact h.blocked
  · rw [hto, hon]; exact h.pending
  · rw [hon, hblocked]; exact h.blockedOn
  · rw [hto, hon, hready, hselectable, hblocked]; exact h.located

/-- An action gets its interval: its predecessors are over by its start. -/
theorem Ordered.place (hw : w.WellFormed) (h : Ordered w s q todo) (ha : a ∈ w.actions) (hwaits : s.toReschedule a = true)
    (hpre : ∀ p, w.Precedes p a → s.onOptimization p = false ∧ s.expectedEnd p ≤ t) (hte : t ≤ e) (he : e ≤ maxTime)
    (hmax : s.onOptimization a = true ∨ t = maxTime)
    (hto : s'.toReschedule = Function.update s.toReschedule a false)
    (hstart : s'.expectedStart = Function.update s.expectedStart a t)
    (hend : s'.expectedEnd = Function.update s.expectedEnd a e) (hon : s'.onOptimization = s.onOptimization)
    (hopt : s'.optimizingSuccessors = s.optimizingSuccessors)
    (hready : s'.readyActions.Sublist s.readyActions) (hready' : ∀ b ∈ s.readyActions, b ≠ a → b ∈ s'.readyActions)
    (haready : a ∉ s'.readyActions)
    (hselectable : ∀ b ∈ s'.selectableActions, b ∈ s.selectableActions)
    (hselectable' : ∀ b ∈ s.selectableActions, b ≠ a → b ∈ s'.selectableActions)
    (hblocked : s'.successors .dataBlockingAction = s.successors .dataBlockingAction)
    (htodo : ∀ b ∈ todo, b ≠ a → b ∈ todo') :
    Ordered w s' (.End e a :: q) todo' := by
  obtain ⟨rank, hrank⟩ := hw.acyclic
  have hself : ¬ w.Precedes a a := fun hp => Nat.lt_irrefl _ (hrank a a hp)
  have hother : ∀ b, b ≠ a → s'.toReschedule b = s.toReschedule b := fun b hb => by rw [hto, Function.update_of_ne hb]
  have hselfTo : s'.toReschedule a = false := by rw [hto, Function.update_self]
  have hwaiting : ∀ b, s'.toReschedule b = true → b ≠ a ∧ s.toReschedule b = true := fun b hb => by
    have hne : b ≠ a := fun heq => by rw [heq, hselfTo] at hb; cases hb
    exact ⟨hne, by rw [← hother b hne]; exact hb⟩
  -- What follows `a` waits, or `a` had been blocked.
  have hendEq : ∀ b, b ∈ s.readyActions ∨ b ∈ s.selectableActions ∨ s.toReschedule b = false → w.Precedes a b →
      s'.expectedEnd a = s.expectedEnd a := by
    intro b hb hp
    rw [hend, Function.update_self]
    have haoff : s.onOptimization a = false := by
      by_contra hon'
      have hwait := h.waits a b hp (by simpa using hon')
      rcases hb with hb | hb | hb
      · exact hwait.2.1 hb
      · exact hwait.2.2.1 hb
      · rw [hwait.1] at hb
        cases hb
    have htmax : t = maxTime := hmax.resolve_left (by simp [haoff])
    rw [(h.blocked a ha haoff hwaits).1]
    omega
  have hendOf : ∀ b, b ∈ s.readyActions ∨ b ∈ s.selectableActions ∨ s.toReschedule b = false → ∀ p, w.Precedes p b →
      s'.expectedEnd p = s.expectedEnd p := fun b hb p hp => by
    by_cases hpa : p = a
    · subst hpa
      exact hendEq b hb hp
    · rw [hend, Function.update_of_ne hpa]
  have havail : ∀ b, b ≠ a → (b ∈ s.readyActions ∨ b ∈ s.selectableActions) → Available w s b → Available w s' b :=
    fun b hb hmem hav => hav.congr (by rw [hstart, Function.update_of_ne hb])
      (hendOf b (hmem.elim Or.inl fun hmem => .inr (.inl hmem))) (by rw [hon])
  refine ⟨fun p b hp hponn => ?_, hopt ▸ h.optimizing, hopt ▸ h.optimizingNodup, fun x hx => ?_, ?_, fun b hb => ?_,
    fun b hb => ?_, h.readyNodup.sublist hready, fun b hb hplaced => ?_, fun b hb hcond => ?_, fun b hb hoff hwait => ?_,
    fun b hb hbon hplaced => ?_, fun b hb hdata hbon => ?_, fun b hb hwait => ?_⟩
  · rw [hon] at hponn
    obtain ⟨h₁, h₂, h₃, h₄⟩ := h.waits p b hp hponn
    have hne : b ≠ a := fun heq => by
      subst heq
      rw [(hpre p hp).1] at hponn
      cases hponn
    exact ⟨by rw [hother b hne]; exact h₁, fun hmem => h₂ (hready.subset hmem), fun hmem => h₃ (hselectable b hmem), hopt ▸ h₄⟩
  · rcases List.mem_cons.mp hx with rfl | hx
    · exact ⟨e, a, rfl, ha, hselfTo, by rw [hend, Function.update_self], by
        rw [hon]
        exact hmax.imp_right fun htmax => by omega⟩
    · obtain ⟨u, p, rfl, hp, hplaced, hu, hmax'⟩ := h.events x hx
      have hne : p ≠ a := fun heq => by
        rw [heq, hwaits] at hplaced
        cases hplaced
      exact ⟨u, p, rfl, hp, by rw [hother p hne]; exact hplaced, by rw [hend, Function.update_of_ne hne]; exact hu, hon ▸ hmax'⟩
  · rw [List.map_cons, List.nodup_cons]
    exact ⟨h.not_event hwaits, h.eventsNodup⟩
  · obtain ⟨hb', hav⟩ := h.selectable b (hselectable b hb)
    refine ⟨hb', fun hwait => ?_⟩
    obtain ⟨hne, hwait'⟩ := hwaiting b hwait
    exact havail b hne (.inr (hselectable b hb)) (hav hwait')
  · obtain ⟨hb', hwait, hav⟩ := h.ready b (hready.subset hb)
    have hne : b ≠ a := fun heq => haready (heq ▸ hb)
    exact ⟨hb', by rw [hother b hne]; exact hwait, havail b hne (.inl (hready.subset hb)) hav⟩
  · by_cases hba : b = a
    · subst hba
      rw [hstart, Function.update_self]
      refine ⟨Int.le_trans hte he, fun p hp => ?_⟩
      rw [hend, Function.update_of_ne fun heq : p = b => hself (heq ▸ hp)]
      exact (hpre p hp).2
    · rw [hother b hba] at hplaced
      obtain ⟨hle, hafter⟩ := h.placed b hb hplaced
      rw [hstart, Function.update_of_ne hba]
      refine ⟨hle, fun p hp => ?_⟩
      rw [hendOf b (.inr (.inr hplaced)) p hp]
      exact hafter p hp
  · by_cases hba : b = a
    · rw [hba, hend, Function.update_self]
      exact he
    · rw [hend, Function.update_of_ne hba]
      rw [hother b hba, hon] at hcond
      exact h.ends b hb hcond
  · obtain ⟨hne, hwait'⟩ := hwaiting b hwait
    rw [hon] at hoff
    obtain ⟨hmaxb, hdata, ⟨p, hp, hpoff, hpmax⟩, hclosed⟩ := h.blocked b hb hoff hwait'
    refine ⟨by rw [hend, Function.update_of_ne hne]; exact hmaxb, hblocked ▸ hdata, ⟨p, hp, hon ▸ hpoff, ?_⟩, ?_⟩
    · by_cases hpa : p = a
      · subst hpa
        have htmax : t = maxTime := hmax.resolve_left (by simp [hpoff])
        rw [hend, Function.update_self]
        omega
      · rw [hend, Function.update_of_ne hpa]
        exact hpmax
    · rw [hopt, hon]
      exact hclosed
  · by_cases hba : b = a
    · exact ⟨e, by simp [hba]⟩
    · rw [hother b hba] at hplaced
      rw [hon] at hbon
      obtain ⟨u, hu⟩ := h.pending b hb hbon hplaced
      exact ⟨u, List.mem_cons_of_mem _ hu⟩
  · rw [hblocked] at hdata
    rw [hon] at hbon
    exact h.blockedOn b hb hdata hbon
  · obtain ⟨hne, hwait'⟩ := hwaiting b hwait
    rw [hblocked, hon]
    rcases h.located b hb hwait' with h₁ | h₁ | h₁ | h₁ | h₁
    · exact .inl h₁
    · exact .inr (.inl (hselectable' b h₁ hne))
    · exact .inr (.inr (.inl (hready' b h₁ hne)))
    · exact .inr (.inr (.inr (.inl (htodo b h₁ hne))))
    · exact .inr (.inr (.inr (.inr h₁)))

/-! ## Releasing data successors -/

/-- No resources are taken or given, and no interval gets longer. -/
structure SameResources (s s' : LocalOptimizationState ρ) : Prop where
  gaps : s'.gaps = s.gaps
  action : s'.action = s.action
  missingResources : s'.missingResources = s.missingResources
  topStartTime : s'.topStartTime = s.topStartTime
  interval : ∀ b t, s'.toReschedule b = false → s'.expectedStart b ≤ t → t < s'.expectedEnd b →
    s.toReschedule b = false ∧ s.expectedStart b ≤ t ∧ t < s.expectedEnd b
  placed : ∀ b, s.toReschedule b = false → s'.toReschedule b = false

theorem SameResources.refl (s : LocalOptimizationState ρ) : SameResources s s :=
  ⟨rfl, rfl, rfl, rfl, fun _ _ h₁ h₂ h₃ => ⟨h₁, h₂, h₃⟩, fun _ h => h⟩

theorem SameResources.trans {s'' : LocalOptimizationState ρ} (h : SameResources s s') (h' : SameResources s' s'') :
    SameResources s s'' where
  gaps := h'.gaps.trans h.gaps
  action := h'.action.trans h.action
  missingResources := h'.missingResources.trans h.missingResources
  topStartTime := h'.topStartTime.trans h.topStartTime
  interval b t h₁ h₂ h₃ :=
    have hmid := h'.interval b t h₁ h₂ h₃
    h.interval b t hmid.1 hmid.2.1 hmid.2.2
  placed b hb := h'.placed b (h.placed b hb)

/-- What the loop over the data predecessors computes. -/
theorem addDataPredecessor_spec (s : LocalOptimizationState ρ) : ∀ {ps : List DataPredecessor} {x : Nat × Int},
    (∀ y e, .elsewhere y e ∈ ps → e ≤ maxTime) →
    (∀ p, .here p ∈ ps → s.onOptimization p = false → s.expectedEnd p ≤ maxTime) → x.2 ≤ maxTime →
    x.2 ≤ (ps.foldl s.addDataPredecessor x).2 ∧ (ps.foldl s.addDataPredecessor x).2 ≤ maxTime ∧
      ((ps.foldl s.addDataPredecessor x).1 = 0 ↔ x.1 = 0 ∧ ∀ p, .here p ∈ ps → s.onOptimization p = false) ∧
      ∀ p, .here p ∈ ps → s.onOptimization p = false → s.expectedEnd p ≤ (ps.foldl s.addDataPredecessor x).2
  | [], x, _, _, hx => ⟨Int.le_refl _, hx, by simp, by simp⟩
  | y :: ps, x, helse, hhere, hx => by
    have helse' : ∀ y e, .elsewhere y e ∈ ps → e ≤ maxTime := fun y e hy => helse y e (List.mem_cons_of_mem _ hy)
    have hhere' : ∀ p, .here p ∈ ps → s.onOptimization p = false → s.expectedEnd p ≤ maxTime :=
      fun p hp => hhere p (List.mem_cons_of_mem _ hp)
    -- The round makes the time no earlier, and counts what is on optimisation.
    obtain ⟨hle, hmax, hzero, hend⟩ : x.2 ≤ (s.addDataPredecessor x y).2 ∧ (s.addDataPredecessor x y).2 ≤ maxTime ∧
        ((s.addDataPredecessor x y).1 = 0 ↔ x.1 = 0 ∧ ∀ p, .here p = y → s.onOptimization p = false) ∧
        ∀ p, .here p = y → s.onOptimization p = false → s.expectedEnd p ≤ (s.addDataPredecessor x y).2 := by
      cases y with
      | elsewhere z e =>
        have := helse z e (by simp)
        rw [addDataPredecessor]
        exact ⟨by dsimp only; omega, by dsimp only; omega, by simp, by simp⟩
      | here p =>
        rw [addDataPredecessor]
        by_cases hon : s.onOptimization p = true
        · rw [if_pos hon]
          exact ⟨Int.le_refl _, hx, by simp [hon], by simp [hon]⟩
        · have hoff : s.onOptimization p = false := by simpa using hon
          have := hhere p (by simp) hoff
          rw [if_neg hon]
          refine ⟨by dsimp only; omega, by dsimp only; omega, by simp [hoff], fun p' hp' _ => ?_⟩
          cases hp'
          dsimp only
          omega
    obtain ⟨hle', hmax', hzero', hend'⟩ := addDataPredecessor_spec s helse' hhere' hmax
    rw [List.foldl_cons]
    refine ⟨Int.le_trans hle hle', hmax', ?_, fun p hp hoff => ?_⟩
    · rw [hzero', hzero, and_assoc]
      refine and_congr_right fun _ => ⟨fun h p hp => ?_, fun h => ⟨fun p hp => h p (by simp [hp]), fun p hp => h p (by simp [hp])⟩⟩
      rcases List.mem_cons.mp hp with heq | hp
      · exact h.1 p heq
      · exact h.2 p hp
    · rcases List.mem_cons.mp hp with heq | hp
      · exact Int.le_trans (hend p heq hoff) hle'
      · exact hend' p hp hoff

/-- Every data predecessor that is over, or blocked, has an end. -/
theorem Ordered.end_le (hw : w.WellFormed) (h : Ordered w s q todo) (hp : w.Precedes p a) (hoff : s.onOptimization p = false) :
    s.expectedEnd p ≤ maxTime :=
  h.ends p (hw.here p a hp) (.inr hoff)

/-- The expected start of `b` becomes the time at which its data are there. -/
theorem Ordered.setStart (hw : w.WellFormed) (h : Ordered w s q todo) (hb : b ∈ w.actions) {x : Nat × Int}
    (hx : (w.dataPredecessors b).foldl s.addDataPredecessor (0, 0) = x) :
    Ordered w { s with expectedStart := Function.update s.expectedStart b x.2 } q todo ∧
    (s.toReschedule b = true → x.1 = 0 → Available w { s with expectedStart := Function.update s.expectedStart b x.2 } b) ∧
    (x.1 = 0 ↔ ∀ p, w.Precedes p b → s.onOptimization p = false) ∧
    (∀ p, w.Precedes p b → s.onOptimization p = false → s.expectedEnd p ≤ x.2) ∧ x.2 ≤ maxTime := by
  obtain ⟨h₁, h₂, h₃, h₄⟩ := @addDataPredecessor_spec _ s (w.dataPredecessors b) (0, 0) (hw.elsewhere b hb)
    (fun p hp hoff => h.end_le hw ⟨hb, hp⟩ hoff) (by decide)
  rw [hx] at h₁ h₂ h₃ h₄
  have hend : ∀ p, w.Precedes p b → s.onOptimization p = false → s.expectedEnd p ≤ x.2 := fun p hp => h₄ p hp.2
  have hall : x.1 = 0 ↔ ∀ p, w.Precedes p b → s.onOptimization p = false := by
    rw [h₃]
    exact ⟨fun h p hp => h.2 p hp.2, fun h => ⟨rfl, fun p hp => h p ⟨hb, hp⟩⟩⟩
  have hself : s.toReschedule b = true → (∀ p, w.Precedes p b → s.onOptimization p = false) →
      Available w { s with expectedStart := Function.update s.expectedStart b x.2 } b := by
    intro hwait hoff
    refine ⟨?_, ?_, fun p hp => ?_, ?_⟩
    · simpa using h₁
    · simpa using h₂
    · simpa using hend p hp (hoff p hp)
    · by_cases hon : s.onOptimization b = true
      · exact .inl hon
      · -- A predecessor of a blocked action is blocked as well.
        obtain ⟨-, -, ⟨p, hp, hpoff, hpmax⟩, -⟩ := h.blocked b hb (by simpa using hon) hwait
        have := hend p hp hpoff
        refine .inr ?_
        simp only [Function.update_self]
        omega
  have havail : ∀ a, Available w s a → a ≠ b →
      Available w { s with expectedStart := Function.update s.expectedStart b x.2 } a :=
    fun a ha hab => ha.congr (by simp [hab]) (fun _ _ => rfl) rfl
  refine ⟨⟨h.waits, h.optimizing, h.optimizingNodup, h.events, h.eventsNodup, fun a ha => ⟨(h.selectable a ha).1, fun hwait => ?_⟩,
    fun a ha => ⟨(h.ready a ha).1, (h.ready a ha).2.1, ?_⟩, h.readyNodup, fun a ha hplaced => ?_, h.ends, h.blocked, h.pending,
    h.blockedOn, h.located⟩, fun hwait hzero => hself hwait (hall.mp hzero), hall, hend, h₂⟩
  · by_cases hab : a = b
    · subst hab
      exact hself hwait fun p hp => h.off_of_selectable ha hp
    · exact havail a ((h.selectable a ha).2 hwait) hab
  · by_cases hab : a = b
    · subst hab
      exact hself (h.ready a ha).2.1 fun p hp => h.off_of_ready ha hp
    · exact havail a (h.ready a ha).2.2 hab
  · by_cases hab : a = b
    · subst hab
      simp only [Function.update_self]
      refine ⟨h₂, fun p hp => hend p hp ?_⟩
      by_contra hon
      have hwait := (h.waits p a hp (by simpa using hon)).1
      rw [hplaced] at hwait
      cases hwait
    · simp only [Function.update_of_ne hab]
      exact h.placed a ha hplaced

/-- An action whose predecessors are over, or blocked, may be selected. -/
theorem Ordered.offerSelectable (h : Ordered w s q (b :: todo)) (hb : b ∈ w.actions)
    (hoff : ∀ p, w.Precedes p b → s.onOptimization p = false) (hav : s.toReschedule b = true → Available w s b) :
    Ordered w (s.offerSelectable w b) q todo := by
  rw [LocalOptimizationState.offerSelectable]
  split
  · next hwait =>
    have hmem : ∀ a, a ∈ s.selectableActions.orderedInsert (fun a b => selectedBefore w a b) b ↔ a = b ∨ a ∈ s.selectableActions :=
      fun a => List.mem_orderedInsert _
    refine { h with
      waits := fun p a hp hon => ?_
      selectable := fun a ha => ?_
      ready := fun a ha => ⟨(h.ready a ha).1, (h.ready a ha).2.1, (h.ready a ha).2.2.congr rfl (fun _ _ => rfl) rfl⟩
      located := fun a ha hwait' => ?_ }
    · obtain ⟨h₁, h₂, h₃, h₄⟩ := h.waits p a hp hon
      refine ⟨h₁, h₂, fun hmem' => ?_, h₄⟩
      rcases (hmem a).mp hmem' with rfl | hmem'
      · rw [hoff p hp] at hon
        cases hon
      · exact h₃ hmem'
    · rcases (hmem a).mp ha with rfl | ha
      · exact ⟨hb, fun hwait' => (hav hwait').congr rfl (fun _ _ => rfl) rfl⟩
      · exact ⟨(h.selectable a ha).1, fun hwait' => ((h.selectable a ha).2 hwait').congr rfl (fun _ _ => rfl) rfl⟩
    · rcases h.located a ha hwait' with h₁ | h₁ | h₁ | h₁ | h₁
      · exact .inl h₁
      · exact .inr (.inl ((hmem a).mpr (.inr h₁)))
      · exact .inr (.inr (.inl h₁))
      · rcases List.mem_cons.mp h₁ with rfl | h₁
        · exact .inr (.inl ((hmem a).mpr (.inl rfl)))
        · exact .inr (.inr (.inr (.inl h₁)))
      · exact .inr (.inr (.inr (.inr h₁)))
  · next hplaced =>
    refine { h with located := fun a ha hwait => ?_ }
    rcases h.located a ha hwait with h₁ | h₁ | h₁ | h₁ | h₁
    · exact .inl h₁
    · exact .inr (.inl h₁)
    · exact .inr (.inr (.inl h₁))
    · rcases List.mem_cons.mp h₁ with rfl | h₁
      · exact absurd hwait hplaced
      · exact .inr (.inr (.inr (.inl h₁)))
    · exact .inr (.inr (.inr (.inr h₁)))

/-- Or it is ready for a later time. -/
theorem Ordered.offerReady (h : Ordered w s q (b :: todo)) (hb : b ∈ w.actions)
    (hoff : ∀ p, w.Precedes p b → s.onOptimization p = false) (hwait : s.toReschedule b = true) (hav : Available w s b)
    (hnot : b ∉ s.readyActions) : Ordered w (s.offerReady b) q todo := by
  rw [LocalOptimizationState.offerReady]
  have hmem : ∀ a, a ∈ s.readyActions.orderedInsert (fun a b => s.readyBefore a b) b ↔ a = b ∨ a ∈ s.readyActions :=
    fun a => List.mem_orderedInsert _
  refine { h with
    waits := fun p a hp hon => ?_
    selectable := fun a ha => ⟨(h.selectable a ha).1, fun hwait' => ((h.selectable a ha).2 hwait').congr rfl (fun _ _ => rfl) rfl⟩
    ready := fun a ha => ?_
    readyNodup := ((List.perm_orderedInsert _ _ _).nodup_iff).mpr (List.nodup_cons.mpr ⟨hnot, h.readyNodup⟩)
    located := fun a ha hwait' => ?_ }
  · obtain ⟨h₁, h₂, h₃, h₄⟩ := h.waits p a hp hon
    refine ⟨h₁, fun hmem' => ?_, h₃, h₄⟩
    rcases (hmem a).mp hmem' with rfl | hmem'
    · rw [hoff p hp] at hon
      cases hon
    · exact h₂ hmem'
  · rcases (hmem a).mp ha with rfl | ha
    · exact ⟨hb, hwait, hav.congr rfl (fun _ _ => rfl) rfl⟩
    · exact ⟨(h.ready a ha).1, (h.ready a ha).2.1, (h.ready a ha).2.2.congr rfl (fun _ _ => rfl) rfl⟩
  · rcases h.located a ha hwait' with h₁ | h₁ | h₁ | h₁ | h₁
    · exact .inl h₁
    · exact .inr (.inl h₁)
    · exact .inr (.inr (.inl ((hmem a).mpr (.inr h₁))))
    · rcases List.mem_cons.mp h₁ with rfl | h₁
      · exact .inr (.inr (.inl ((hmem a).mpr (.inl rfl))))
      · exact .inr (.inr (.inr (.inl h₁)))
    · exact .inr (.inr (.inr (.inr h₁)))

/-- Or it waits for another predecessor. -/
theorem Ordered.skip (h : Ordered w s q (b :: todo)) (hon : ∃ p, w.Precedes p b ∧ s.onOptimization p = true) :
    Ordered w s q todo :=
  { h with
    located := fun a ha hwait => by
      rcases h.located a ha hwait with h₁ | h₁ | h₁ | h₁ | h₁
      · exact .inl h₁
      · exact .inr (.inl h₁)
      · exact .inr (.inr (.inl h₁))
      · rcases List.mem_cons.mp h₁ with rfl | h₁
        · exact .inr (.inr (.inr (.inr hon)))
        · exact .inr (.inr (.inr (.inl h₁)))
      · exact .inr (.inr (.inr (.inr h₁))) }

/-- What the actions that are released do not change, `n` of them at most. -/
structure Releases (n : Nat) (bs : List ActionId) (s s' : LocalOptimizationState ρ) : Prop where
  same : SameResources s s'
  toReschedule : s'.toReschedule = s.toReschedule
  onOptimization : s'.onOptimization = s.onOptimization
  expectedEnd : s'.expectedEnd = s.expectedEnd
  optimizingSuccessors : s'.optimizingSuccessors = s.optimizingSuccessors
  ready : ∀ a ∈ s'.readyActions, a ∈ bs ∨ a ∈ s.readyActions
  length : s'.readyActions.length + s'.selectableActions.length ≤ s.readyActions.length + s.selectableActions.length + n

theorem Releases.trans {n m : Nat} {bs cs : List ActionId} {s'' : LocalOptimizationState ρ} (h : Releases n bs s s')
    (h' : Releases m cs s' s'') : Releases (n + m) (bs ++ cs) s s'' where
  same := h.same.trans h'.same
  toReschedule := h'.toReschedule.trans h.toReschedule
  onOptimization := h'.onOptimization.trans h.onOptimization
  expectedEnd := h'.expectedEnd.trans h.expectedEnd
  optimizingSuccessors := h'.optimizingSuccessors.trans h.optimizingSuccessors
  ready a ha := by
    rcases h'.ready a ha with ha | ha
    · exact .inl (List.mem_append_right _ ha)
    · exact (h.ready a ha).imp_left (List.mem_append_left _)
  length := by
    have h₁ := h.length
    have h₂ := h'.length
    omega

theorem offerSelectable_releases : Releases 1 [] s (s.offerSelectable w b) := by
  rw [LocalOptimizationState.offerSelectable]
  split
  · refine ⟨⟨rfl, rfl, rfl, rfl, fun _ _ h₁ h₂ h₃ => ⟨h₁, h₂, h₃⟩, fun _ h => h⟩, rfl, rfl, rfl, rfl, fun a ha => .inr ha, ?_⟩
    dsimp only
    rw [List.orderedInsert_length]
    omega
  · exact ⟨.refl s, rfl, rfl, rfl, rfl, fun a ha => .inr ha, by omega⟩

theorem offerReady_releases : Releases 1 [b] s (s.offerReady b) := by
  rw [LocalOptimizationState.offerReady]
  refine ⟨⟨rfl, rfl, rfl, rfl, fun _ _ h₁ h₂ h₃ => ⟨h₁, h₂, h₃⟩, fun _ h => h⟩, rfl, rfl, rfl, rfl, fun a ha => ?_, ?_⟩
  · rcases (List.mem_orderedInsert _).mp ha with rfl | ha
    · exact .inl (by simp)
    · exact .inr ha
  · dsimp only
    rw [List.orderedInsert_length]
    omega

/-- A data successor of the action that ended at `t`: it was waiting for it, or
the action had been blocked and ends at the end of time. -/
theorem Ordered.releaseSuccessor (hw : w.WellFormed) (h : Ordered w s q (b :: todo)) (hp : w.Precedes p b)
    (hpoff : s.onOptimization p = false)
    (hcase : (s.toReschedule b = true ∧ b ∉ s.readyActions) ∨ (t = maxTime ∧ s.expectedEnd p = maxTime)) :
    Ordered w (s.releaseSuccessor w t b) q todo ∧ Releases 1 [b] s (s.releaseSuccessor w t b) := by
  have hb := hp.1
  obtain ⟨x, hx⟩ : ∃ x, (w.dataPredecessors b).foldl s.addDataPredecessor (0, 0) = x := ⟨_, rfl⟩
  obtain ⟨h₁, hav, hzero, hend, hmax⟩ := h.setStart hw hb hx
  -- An interval that is moved is empty.
  have hsame : SameResources s { s with expectedStart := Function.update s.expectedStart b x.2 } := by
    refine ⟨rfl, rfl, rfl, rfl, fun a u hplaced hstart hu => ?_, fun _ h => h⟩
    by_cases hab : a = b
    · subst hab
      rcases hcase with ⟨hwait, -⟩ | ⟨rfl, hpmax⟩
      · dsimp only at hplaced
        rw [hwait] at hplaced
        cases hplaced
      · have h₂ := hend p hp hpoff
        have h₃ := h.ends a hb (.inl hplaced)
        simp only [Function.update_self] at hstart
        dsimp only at hu
        omega
    · simp only [Function.update_of_ne hab] at hstart
      exact ⟨hplaced, hstart, hu⟩
  have hrel : Releases 0 [] s { s with expectedStart := Function.update s.expectedStart b x.2 } :=
    ⟨hsame, rfl, rfl, rfl, rfl, fun a ha => .inr ha, Nat.le_refl _⟩
  rw [LocalOptimizationState.releaseSuccessor, hx]
  dsimp only
  split
  · next hx0 =>
    split
    · refine ⟨h₁.offerSelectable hb (hzero.mp hx0) fun hwait => hav hwait hx0, ?_⟩
      have := hrel.trans (offerSelectable_releases (w := w) (b := b))
      exact { this with ready := fun a ha => .inr ((this.ready a ha).resolve_left (by simp)) }
    · next hlate =>
      obtain ⟨hwait, hnot⟩ : s.toReschedule b = true ∧ b ∉ s.readyActions := by
        refine hcase.resolve_right fun ⟨ht, hpmax⟩ => hlate ?_
        rw [ht]
        exact hmax
      exact ⟨h₁.offerReady hb (hzero.mp hx0) hwait (hav hwait hx0) hnot, hrel.trans offerReady_releases⟩
  · next hx0 =>
    refine ⟨h₁.skip ?_, ?_⟩
    · have hsome : ¬ ∀ p, w.Precedes p b → s.onOptimization p = false := fun hall => hx0 (hzero.mpr hall)
      simp only [not_forall, Bool.not_eq_false] at hsome
      obtain ⟨p', hp', hon⟩ := hsome
      exact ⟨p', hp', hon⟩
    · exact ⟨hsame, rfl, rfl, rfl, rfl, fun a ha => .inr ha, by dsimp only; omega⟩

/-- All of them. -/
theorem Ordered.releaseSuccessors (hw : w.WellFormed) : ∀ {bs : List ActionId} {s : LocalOptimizationState ρ},
    Ordered w s q bs → (∀ b ∈ bs, w.Precedes p b) → s.onOptimization p = false → bs.Nodup →
    ((∀ b ∈ bs, s.toReschedule b = true ∧ b ∉ s.readyActions) ∨ (t = maxTime ∧ s.expectedEnd p = maxTime)) →
    Ordered w (bs.foldl (LocalOptimizationState.releaseSuccessor w t) s) q [] ∧
      Releases bs.length bs s (bs.foldl (LocalOptimizationState.releaseSuccessor w t) s)
  | [], s, h, _, _, _, _ => ⟨h, ⟨.refl s, rfl, rfl, rfl, rfl, fun a ha => .inr ha, Nat.le_refl _⟩⟩
  | b :: bs, s, h, hp, hoff, hnodup, hcase => by
    obtain ⟨hb, hnodup'⟩ := List.nodup_cons.mp hnodup
    obtain ⟨h₁, hrel⟩ := h.releaseSuccessor hw (t := t) (hp b (by simp)) hoff (hcase.imp_left fun hall => hall b (by simp))
    obtain ⟨h₂, hrel'⟩ := releaseSuccessors hw h₁ (fun c hc => hp c (List.mem_cons_of_mem _ hc))
      (by rw [hrel.onOptimization]; exact hoff) hnodup' (by
        rw [hrel.toReschedule, hrel.expectedEnd]
        refine hcase.imp_left fun hall c hc => ⟨(hall c (by simp [hc])).1, fun hready => ?_⟩
        rcases hrel.ready c hready with hcb | hready
        · rw [List.mem_singleton.mp hcb] at hc
          exact hb hc
        · exact (hall c (by simp [hc])).2 hready)
    refine ⟨h₂, ?_⟩
    have := hrel.trans hrel'
    rw [Nat.add_comm] at this
    exact this

/-! ## The end of an action -/

/-- The actions that are due may be selected. -/
theorem Ordered.offerAll : ∀ {due : List ActionId} {s : LocalOptimizationState ρ}, Ordered w s q (due ++ todo) →
    (∀ b ∈ due, b ∈ w.actions ∧ (∀ p, w.Precedes p b → s.onOptimization p = false) ∧ Available w s b) →
    Ordered w (due.foldl (LocalOptimizationState.offerSelectable w) s) q todo ∧
      Releases due.length [] s (due.foldl (LocalOptimizationState.offerSelectable w) s) ∧
      (due.foldl (LocalOptimizationState.offerSelectable w) s).readyActions = s.readyActions
  | [], s, h, _ => ⟨h, ⟨.refl s, rfl, rfl, rfl, rfl, fun a ha => .inr ha, Nat.le_refl _⟩, rfl⟩
  | b :: due, s, h, hdue => by
    obtain ⟨hb, hoff, hav⟩ := hdue b (by simp)
    have hrel := offerSelectable_releases (w := w) (s := s) (b := b)
    have hstart : (s.offerSelectable w b).expectedStart = s.expectedStart := by
      rw [LocalOptimizationState.offerSelectable]; split <;> rfl
    have hready : (s.offerSelectable w b).readyActions = s.readyActions := by
      rw [LocalOptimizationState.offerSelectable]; split <;> rfl
    obtain ⟨h₂, hrel', hready'⟩ := offerAll (h.offerSelectable hb hoff fun _ => hav) fun c hc => by
      obtain ⟨hc', hoff', hav'⟩ := hdue c (List.mem_cons_of_mem _ hc)
      exact ⟨hc', by rw [hrel.onOptimization]; exact hoff',
        hav'.congr (by rw [hstart]) (fun p _ => by rw [hrel.expectedEnd]) (by rw [hrel.onOptimization])⟩
    refine ⟨h₂, ?_, hready'.trans hready⟩
    have := hrel.trans hrel'
    rw [Nat.add_comm] at this
    exact this

theorem Ordered.progressOnTime (h : Ordered w s q todo) (t : Int) :
    Ordered w (s.progressOnTime w t) q todo ∧ Releases 0 [] s (s.progressOnTime w t) := by
  rw [LocalOptimizationState.progressOnTime]
  obtain ⟨due, hdue⟩ : ∃ due, s.readyActions.takeWhile (fun a => s.expectedStart a ≤ t) = due := ⟨_, rfl⟩
  obtain ⟨rest, hrest⟩ : ∃ rest, s.readyActions.dropWhile (fun a => s.expectedStart a ≤ t) = rest := ⟨_, rfl⟩
  have hsplit : s.readyActions = due ++ rest := by rw [← hdue, ← hrest, List.takeWhile_append_dropWhile]
  have hmem : ∀ b ∈ due, b ∈ s.readyActions := fun b hb => by rw [hsplit]; exact List.mem_append_left _ hb
  have hmem' : ∀ b ∈ rest, b ∈ s.readyActions := fun b hb => by rw [hsplit]; exact List.mem_append_right _ hb
  simp only [hdue, hrest]
  have h₁ : Ordered w { s with readyActions := rest } q (due ++ todo) :=
    { h with
      waits := fun p a hp hon => by
        obtain ⟨h₁, h₂, h₃, h₄⟩ := h.waits p a hp hon
        exact ⟨h₁, fun hready => h₂ (hmem' a hready), h₃, h₄⟩
      selectable := fun a ha => ⟨(h.selectable a ha).1, fun hwait => ((h.selectable a ha).2 hwait).congr rfl (fun _ _ => rfl) rfl⟩
      ready := fun a ha => ⟨(h.ready a (hmem' a ha)).1, (h.ready a (hmem' a ha)).2.1,
        (h.ready a (hmem' a ha)).2.2.congr rfl (fun _ _ => rfl) rfl⟩
      readyNodup := (List.nodup_append.mp (hsplit ▸ h.readyNodup)).2.1
      located := fun a ha hwait => by
        rcases h.located a ha hwait with h₁ | h₁ | h₁ | h₁ | h₁
        · exact .inl h₁
        · exact .inr (.inl h₁)
        · rcases List.mem_append.mp (hsplit ▸ h₁) with h₁ | h₁
          · exact .inr (.inr (.inr (.inl (List.mem_append_left _ h₁))))
          · exact .inr (.inr (.inl h₁))
        · exact .inr (.inr (.inr (.inl (List.mem_append_right _ h₁))))
        · exact .inr (.inr (.inr (.inr h₁))) }
  obtain ⟨h₂, hrel, hready⟩ := h₁.offerAll fun b hb =>
    ⟨(h.ready b (hmem b hb)).1, fun p hp => h.off_of_ready (hmem b hb) hp,
      (h.ready b (hmem b hb)).2.2.congr rfl (fun _ _ => rfl) rfl⟩
  refine ⟨h₂, ⟨⟨hrel.same.gaps, hrel.same.action, hrel.same.missingResources, hrel.same.topStartTime, hrel.same.interval,
    hrel.same.placed⟩, hrel.toReschedule, hrel.onOptimization, hrel.expectedEnd, hrel.optimizingSuccessors, fun a ha => ?_, ?_⟩⟩
  · rw [hready] at ha
    exact .inr (hmem' a ha)
  · have := hrel.length
    rw [hsplit, List.length_append]
    dsimp only at this
    omega

/-- An action that has ended is not on optimisation any more. -/
theorem Ordered.off (h : Ordered w s (.End t p :: q) []) :
    Ordered w { s with onOptimization := Function.update s.onOptimization p false } q (s.optimizingSuccessors p) ∧
    ((∀ b ∈ s.optimizingSuccessors p, s.toReschedule b = true ∧ b ∉ s.readyActions) ∨
      (t = maxTime ∧ s.expectedEnd p = maxTime)) := by
  obtain ⟨t', p', heq, hp, hplaced, hend, hmax⟩ := h.events _ (List.mem_cons_self ..)
  cases heq
  obtain ⟨hnot, hnodup⟩ := List.nodup_cons.mp (show (SchedulingEvent.action (.End t p) :: q.map SchedulingEvent.action).Nodup from
    h.eventsNodup)
  simp only [SchedulingEvent.action] at hnot
  have hle : ∀ a, Function.update s.onOptimization p false a = true → s.onOptimization a = true := fun a ha => by
    rw [Function.update_apply] at ha
    split at ha
    · cases ha
    · exact ha
  have hoff : ∀ a, s.onOptimization a = false → Function.update s.onOptimization p false a = false := fun a ha => by
    rw [Function.update_apply]
    split
    · rfl
    · exact ha
  have hne : ∀ a, s.toReschedule a = true → a ≠ p := fun a ha heq => by
    rw [heq, hplaced] at ha
    cases ha
  have havail : ∀ a, s.toReschedule a = true → Available w s a →
      Available w { s with onOptimization := Function.update s.onOptimization p false } a := fun a ha hav =>
    hav.congr rfl (fun _ _ => rfl) (Function.update_of_ne (hne a ha) ..)
  refine ⟨⟨fun x a hx hon => h.waits x a hx (hle x hon), h.optimizing, h.optimizingNodup, fun x hx => ?_, hnodup,
    fun a ha => ⟨(h.selectable a ha).1, fun hwait => havail a hwait ((h.selectable a ha).2 hwait)⟩,
    fun a ha => ⟨(h.ready a ha).1, (h.ready a ha).2.1, havail a (h.ready a ha).2.1 (h.ready a ha).2.2⟩, h.readyNodup, h.placed,
    fun a ha hcond => ?_, fun a ha haoff hwait => ?_, fun a ha hon hplaced' => ?_, fun a ha hdata hon => h.blockedOn a ha hdata (hle a hon),
    fun a ha hwait => ?_⟩, ?_⟩
  · obtain ⟨u, x', rfl, hx', hplaced', hu, hmax'⟩ := h.events x (List.mem_cons_of_mem _ hx)
    refine ⟨u, x', rfl, hx', hplaced', hu, hmax'.imp_left fun hon => ?_⟩
    have : x' ≠ p := fun heq => hnot (heq ▸ List.mem_map_of_mem hx)
    dsimp only
    rw [Function.update_of_ne this]
    exact hon
  · by_cases hap : a = p
    · subst hap
      exact h.ends a ha (.inl hplaced)
    · refine h.ends a ha (hcond.imp_right fun haoff => ?_)
      dsimp only at haoff
      rwa [Function.update_of_ne hap] at haoff
  · dsimp only at haoff
    rw [Function.update_of_ne (hne a hwait)] at haoff
    obtain ⟨hmaxa, hdata, ⟨x, hx, hxoff, hxmax⟩, hclosed⟩ := h.blocked a ha haoff hwait
    exact ⟨hmaxa, hdata, ⟨x, hx, hoff x hxoff, hxmax⟩, fun b hb => hoff b (hclosed b hb)⟩
  · obtain ⟨u, hu⟩ := h.pending a ha (hle a hon) hplaced'
    rcases List.mem_cons.mp hu with heq | hu
    · cases heq
      dsimp only at hon
      rw [Function.update_self] at hon
      cases hon
    · exact ⟨u, hu⟩
  · rcases h.located a ha hwait with h₁ | h₁ | h₁ | h₁ | ⟨x, hx, hon⟩
    · exact .inl h₁
    · exact .inr (.inl h₁)
    · exact .inr (.inr (.inl h₁))
    · cases h₁
    · by_cases hxp : x = p
      · subst hxp
        exact .inr (.inr (.inr (.inl (h.waits x a hx hon).2.2.2)))
      · exact .inr (.inr (.inr (.inr ⟨x, hx, by dsimp only; rw [Function.update_of_ne hxp]; exact hon⟩)))
  · by_cases hon : s.onOptimization p = true
    · refine .inl fun b hb => ?_
      obtain ⟨h₁, h₂, -, -⟩ := h.waits p b (h.optimizing p b hb) hon
      exact ⟨h₁, h₂⟩
    · have htmax := hmax.resolve_left hon
      exact .inr ⟨htmax, hend.trans htmax⟩

/-- What `End.process` does for the data successors of the action that ended. -/
theorem Ordered.ended (hw : w.WellFormed) (h : Ordered w s (.End t p :: q) []) (hs' : s' =
      LocalOptimizationState.releaseDataSuccessors w
        (LocalOptimizationState.progressOnTime w { s with onOptimization := Function.update s.onOptimization p false } t) p t) :
    Ordered w s' q [] ∧ SameResources s s' ∧ s'.optimizingSuccessors = Function.update s.optimizingSuccessors p [] ∧
      s'.readyActions.length + s'.selectableActions.length ≤
        s.readyActions.length + s.selectableActions.length + (s.optimizingSuccessors p).length := by
  obtain ⟨h₁, hcase⟩ := h.off
  obtain ⟨h₂, hrel⟩ := h₁.progressOnTime t
  obtain ⟨u, hu⟩ : ∃ u, LocalOptimizationState.progressOnTime w
    { s with onOptimization := Function.update s.onOptimization p false } t = u := ⟨_, rfl⟩
  rw [hu] at h₂ hrel hs'
  have hopt : u.optimizingSuccessors = s.optimizingSuccessors := hrel.optimizingSuccessors
  have hpoff : u.onOptimization p = false := by
    rw [hrel.onOptimization]
    exact Function.update_self ..
  obtain ⟨h₃, hrel'⟩ := h₂.releaseSuccessors hw (p := p) (t := t) (h.optimizing p) hpoff (h.optimizingNodup p) (by
    rw [hrel.toReschedule, hrel.expectedEnd]
    refine hcase.imp_left fun hall b hb => ⟨(hall b hb).1, fun hready => (hall b hb).2 ?_⟩
    exact (hrel.ready b hready).resolve_left (by simp))
  rw [LocalOptimizationState.releaseDataSuccessors, hopt] at hs'
  obtain ⟨v, hv⟩ : ∃ v, (s.optimizingSuccessors p).foldl (LocalOptimizationState.releaseSuccessor w t) u = v := ⟨_, rfl⟩
  rw [hv] at h₃ hrel' hs'
  have hvopt : v.optimizingSuccessors = s.optimizingSuccessors := hrel'.optimizingSuccessors.trans hopt
  have hvoff : v.onOptimization p = false := by rw [hrel'.onOptimization]; exact hpoff
  have hsub : ∀ x b, b ∈ Function.update v.optimizingSuccessors p [] x → b ∈ v.optimizingSuccessors x := fun x b hb => by
    rw [Function.update_apply] at hb
    split at hb
    · cases hb
    · exact hb
  have hall := hrel.same.trans hrel'.same
  subst hs'
  refine ⟨{ h₃ with
      waits := fun x a hx hon => ?_
      optimizing := fun x a ha => h₃.optimizing x a (hsub x a ha)
      optimizingNodup := fun x => ?_
      selectable := fun a ha => ⟨(h₃.selectable a ha).1, fun hwait =>
        ((h₃.selectable a ha).2 hwait).congr rfl (fun _ _ => rfl) rfl⟩
      ready := fun a ha => ⟨(h₃.ready a ha).1, (h₃.ready a ha).2.1, (h₃.ready a ha).2.2.congr rfl (fun _ _ => rfl) rfl⟩
      blocked := fun a ha hoff hwait => ?_ }, ⟨hall.gaps, hall.action, hall.missingResources, hall.topStartTime, hall.interval,
    hall.placed⟩, by rw [← hvopt], ?_⟩
  · have hxp : x ≠ p := fun heq => by
      subst heq
      dsimp only at hon
      rw [hvoff] at hon
      cases hon
    obtain ⟨g₁, g₂, g₃, g₄⟩ := h₃.waits x a hx hon
    exact ⟨g₁, g₂, g₃, by dsimp only; rw [Function.update_of_ne hxp]; exact g₄⟩
  · dsimp only
    rw [Function.update_apply]
    split
    · exact List.nodup_nil
    · exact h₃.optimizingNodup x
  · obtain ⟨g₁, g₂, g₃, g₄⟩ := h₃.blocked a ha hoff hwait
    exact ⟨g₁, g₂, g₃, fun b hb => g₄ b (hsub a b hb)⟩
  · have l₁ := hrel.length
    have l₂ := hrel'.length
    dsimp only at l₁ ⊢
    omega

end Compss.MultiObjective
