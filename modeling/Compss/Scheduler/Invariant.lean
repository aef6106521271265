/-
What the scheduler keeps whatever it is asked to do: the links between
actions, the queues of the workers and the set of blocked actions fit the
states of the actions (`Sound`), and placing or launching an action leaves the
links, the blocked actions and the ready counts alone (`Frame`).

One lemma for each method says in which ways it can end; the lemmas on single
updates come first.
-/
import Compss.Scheduler.TaskScheduler

namespace Compss.Scheduler

open Lib

variable {δ τ : Type}

namespace Action

/-- The action was launched at least once. -/
def Launched (x : Action τ) : Prop := x.state = .running ∨ x.state = .waiting ∨ x.executingResources ≠ []

/-- An action that is to be launched has never run. -/
def Fresh (x : Action τ) : Prop := x.state = .runnable → x.executingResources = []

/-- What the ready counts read of an action: the core of an execution has an
implementation, that of a worker action is null. -/
def Proper (impls : CoreId → List τ) (x : Action τ) : Prop :=
  match x.kind with
  | .execution c _ _ => impls c ≠ []
  | .startWorker _ impl | .stopWorker _ impl => impl.coreId = none
  | .reduceWorker .. => False

/-- An update of an action that leaves its place in the graph alone. -/
structure Alike (x y : Action τ) : Prop where
  kind : y.kind = x.kind
  dataPredecessors : y.dataPredecessors = x.dataPredecessors
  dataSuccessors : y.dataSuccessors = x.dataSuccessors
  enforced : y.enforcedTargetResource = x.enforcedTargetResource
  constraining : y.constrainingPredecessors = x.constrainingPredecessors
  selected : x.selectedResource.isSome → y.selectedResource.isSome

theorem Alike.refl (x : Action τ) : x.Alike x := ⟨rfl, rfl, rfl, rfl, rfl, id⟩

end Action

namespace TaskScheduler

def successors (s : TaskScheduler δ τ) (a : ActionId) : List ActionId := (s.action a).dataSuccessors.elems

def predecessors (s : TaskScheduler δ τ) (a : ActionId) : List ActionId := (s.action a).dataPredecessors

/-- The action has a constraining predecessor without a resource, and must
look at it. -/
def HasNullCandidate (s : TaskScheduler δ τ) (x : Action τ) : Prop :=
  x.isTargetResourceEnforced = false ∧
    ∃ p ∈ x.constrainingPredecessors, (s.action p).selectedResource = none

/-- The fit between the actions, the queues and the blocked actions, when the
cores are implemented by `impls`. -/
structure Sound (impls : CoreId → List τ) (s : TaskScheduler δ τ) : Prop where
  mirrored : ∀ p a, a ∈ s.successors p → p ∈ s.predecessors a
  nodup_successors : ∀ p, (s.successors p).Nodup
  nodup_predecessors : ∀ a, (s.predecessors a).Nodup
  successor : ∀ p a, a ∈ s.successors p → a < s.nextId ∧ (s.action a).isPending = true
  /-- Actions with predecessors have never been launched. -/
  launched : ∀ a, (s.action a).Launched → s.predecessors a = []
  running : ∀ a, (s.action a).state = .running → (s.action a).selectedResource.isSome
  assigned : ∀ a, (s.action a).selectedResource.isSome → a < s.nextId ∧ (s.action a).selectedImpl.isSome
  queued : ∀ w, ∀ a ∈ (s.resource w).blocked, (s.action a).state = .waiting ∧
    (s.action a).selectedResource = some w
  nodup_queue : ∀ w, (s.resource w).blocked.Nodup
  blocked : ∀ c, ∀ a ∈ s.blockedActions.coreIndexed c, a < s.nextId ∧ (s.action a).coreId = some c ∧
    (s.action a).isPending = true ∧ s.predecessors a = [] ∧ ¬ s.HasNullCandidate (s.action a)
  nodup_blocked : ∀ c, (s.blockedActions.coreIndexed c).Nodup
  noCore : s.blockedActions.noCore = []
  constraining : ∀ a, a ∉ (s.action a).constrainingPredecessors
  proper : ∀ a < s.nextId, (s.action a).Proper impls

/-- From `s` to `t` nothing happened that the ready counts depend on; new
actions have no core. -/
structure Frame (s t : TaskScheduler δ τ) : Prop where
  nextId_le : s.nextId ≤ t.nextId
  kind : ∀ a < s.nextId, (t.action a).kind = (s.action a).kind
  predecessors : ∀ a < s.nextId, t.predecessors a = s.predecessors a
  isPending : ∀ a < s.nextId, (t.action a).isPending = (s.action a).isPending
  fresh : ∀ a < s.nextId, (s.action a).Fresh → (t.action a).Fresh
  hasNullCandidate : ∀ a < s.nextId, t.HasNullCandidate (t.action a) → s.HasNullCandidate (s.action a)
  coreless : ∀ a, s.nextId ≤ a → a < t.nextId → (t.action a).coreId = none
  blockedActions : t.blockedActions = s.blockedActions
  readyCounts : t.readyCounts = s.readyCounts

theorem Frame.refl (s : TaskScheduler δ τ) : Frame s s where
  nextId_le := Nat.le_refl _
  kind _ _ := rfl
  predecessors _ _ := rfl
  isPending _ _ := rfl
  fresh _ _ h := h
  hasNullCandidate _ _ h := h
  coreless a h1 h2 := absurd h1 (Nat.not_le_of_lt h2)
  blockedActions := rfl
  readyCounts := rfl

theorem Frame.trans {s t u : TaskScheduler δ τ} (h : Frame s t) (h' : Frame t u) : Frame s u where
  nextId_le := h.nextId_le.trans h'.nextId_le
  kind a ha := (h'.kind a (ha.trans_le h.nextId_le)).trans (h.kind a ha)
  predecessors a ha := (h'.predecessors a (ha.trans_le h.nextId_le)).trans (h.predecessors a ha)
  isPending a ha := (h'.isPending a (ha.trans_le h.nextId_le)).trans (h.isPending a ha)
  fresh a ha hf := h'.fresh a (ha.trans_le h.nextId_le) (h.fresh a ha hf)
  hasNullCandidate a ha hn := h.hasNullCandidate a ha (h'.hasNullCandidate a (ha.trans_le h.nextId_le) hn)
  coreless a h1 h2 := by
    by_cases hat : a < t.nextId
    · rw [Action.coreId, h'.kind a hat]
      exact h.coreless a h1 hat
    · exact h'.coreless a (Nat.le_of_not_lt hat) h2
  blockedActions := h'.blockedActions.trans h.blockedActions
  readyCounts := h'.readyCounts.trans h.readyCounts

/-! ## Single updates -/

section
variable {impls : CoreId → List τ} {s t : TaskScheduler δ τ} {a : ActionId} {x : Action τ}

/-- A property of every action, when one of them is updated. -/
theorem forall_setAction {P : ActionId → Action τ → Prop} (hx : P a x) (h : ∀ b, b ≠ a → P b (s.action b))
    (b : ActionId) : P b ((s.setAction a x).action b) := by
  rw [setAction_action]
  split
  · next he => subst he; exact hx
  · next he => exact h b he

/-- A null candidate does not come back. -/
theorem HasNullCandidate.of_setAction (hx : (s.action a).Alike x) {y : Action τ}
    (h : (s.setAction a x).HasNullCandidate y) : s.HasNullCandidate y := by
  obtain ⟨he, p, hp, hn⟩ := h
  refine ⟨he, p, hp, ?_⟩
  rw [setAction_action] at hn
  split at hn
  · next hpa =>
    subst hpa
    by_contra hs
    have := hx.selected (Option.isSome_iff_ne_none.mpr hs)
    rw [hn] at this
    cases this
  · exact hn

theorem HasNullCandidate.of_alike {x y : Action τ} (hx : x.Alike y) (h : s.HasNullCandidate y) :
    s.HasNullCandidate x := by
  obtain ⟨he, p, hp, hn⟩ := h
  exact ⟨by rw [Action.isTargetResourceEnforced, ← hx.enforced]; exact he, p, hx.constraining ▸ hp, hn⟩

theorem Frame.setAction (h : Frame s t) (hx : (t.action a).Alike x) (hp : x.isPending = (t.action a).isPending)
    (hf : (t.action a).Fresh → x.Fresh) : Frame s (t.setAction a x) where
  nextId_le := h.nextId_le
  kind := forall_setAction (P := fun b y => b < s.nextId → y.kind = (s.action b).kind)
    (fun hb => hx.kind.trans (h.kind a hb)) fun b _ => h.kind b
  predecessors := forall_setAction (P := fun b y => b < s.nextId → y.dataPredecessors = s.predecessors b)
    (fun hb => hx.dataPredecessors.trans (h.predecessors a hb)) fun b _ => h.predecessors b
  isPending := forall_setAction (P := fun b y => b < s.nextId → y.isPending = (s.action b).isPending)
    (fun hb => hp.trans (h.isPending a hb)) fun b _ => h.isPending b
  fresh := forall_setAction (P := fun b y => b < s.nextId → (s.action b).Fresh → y.Fresh)
    (fun hb hs => hf (h.fresh a hb hs)) fun b _ => h.fresh b
  hasNullCandidate := forall_setAction
    (P := fun b y => b < s.nextId → (t.setAction a x).HasNullCandidate y → s.HasNullCandidate (s.action b))
    (fun hb hn => h.hasNullCandidate a hb ((HasNullCandidate.of_setAction hx hn).of_alike hx))
    fun b _ hb hn => h.hasNullCandidate b hb (HasNullCandidate.of_setAction hx hn)
  coreless := forall_setAction (P := fun b y => s.nextId ≤ b → b < t.nextId → y.coreId = none)
    (fun h1 h2 => by rw [Action.coreId, hx.kind]; exact h.coreless a h1 h2) fun b _ => h.coreless b
  blockedActions := h.blockedActions
  readyCounts := h.readyCounts

theorem Frame.setResource (h : Frame s t) (w : WorkerId) (r : ResourceScheduler δ) :
    Frame s (t.setResource w r) := { h with }

/-- The conditions under which the update of an action is sound: it keeps its
place in the graph, and its state, its assignment and its place in a queue go
together. -/
structure Fits (s : TaskScheduler δ τ) (a : ActionId) (x : Action τ) : Prop where
  alike : (s.action a).Alike x
  launched : x.Launched → s.predecessors a = []
  running : x.state = .running → x.selectedResource.isSome
  assigned : x.selectedResource.isSome → a < s.nextId ∧ x.selectedImpl.isSome
  queued : ∀ w, a ∈ (s.resource w).blocked → x.state = .waiting ∧ x.selectedResource = some w
  pending : x.isPending = true ∨
    (∀ p, a ∉ s.successors p) ∧ ∀ c, a ∉ s.blockedActions.coreIndexed c

theorem Sound.setAction (h : Sound impls s) (hx : Fits s a x) : Sound impls (s.setAction a x) := by
  have hsucc : ∀ p, (s.setAction a x).successors p = s.successors p :=
    forall_setAction (P := fun p y => y.dataSuccessors.elems = s.successors p)
      (by rw [hx.alike.dataSuccessors]; rfl) fun _ _ => rfl
  have hpred : ∀ b, (s.setAction a x).predecessors b = s.predecessors b :=
    forall_setAction (P := fun b y => y.dataPredecessors = s.predecessors b)
      hx.alike.dataPredecessors fun _ _ => rfl
  have hkind : ∀ b, ((s.setAction a x).action b).kind = (s.action b).kind :=
    forall_setAction (P := fun b y => y.kind = (s.action b).kind) hx.alike.kind fun _ _ => rfl
  exact {
    mirrored := fun p b hb => by rw [hpred]; exact h.mirrored p b (hsucc p ▸ hb)
    nodup_successors := fun p => by rw [hsucc]; exact h.nodup_successors p
    nodup_predecessors := fun b => by rw [hpred]; exact h.nodup_predecessors b
    successor := fun p b hb => by
      rw [hsucc] at hb
      refine ⟨(h.successor p b hb).1, ?_⟩
      rw [setAction_action]
      split
      · next he =>
        subst he
        exact hx.pending.resolve_right fun hn => hn.1 p hb
      · exact (h.successor p b hb).2
    launched := forall_setAction (P := fun b y => y.Launched → (s.setAction a x).predecessors b = [])
      (by rw [hpred]; exact hx.launched) fun b _ => by rw [hpred]; exact h.launched b
    running := forall_setAction (P := fun _ y => y.state = .running → y.selectedResource.isSome)
      hx.running fun b _ => h.running b
    assigned := forall_setAction
      (P := fun b y => y.selectedResource.isSome → b < s.nextId ∧ y.selectedImpl.isSome)
      hx.assigned fun b _ => h.assigned b
    queued := fun w => forall_setAction
      (P := fun b y => b ∈ (s.resource w).blocked → y.state = .waiting ∧ y.selectedResource = some w)
      (hx.queued w) fun b _ => h.queued w b
    nodup_queue := h.nodup_queue
    blocked := fun c b hb => by
      obtain ⟨h1, h2, h3, h4, h5⟩ := h.blocked c b hb
      rw [hpred, Action.coreId, hkind]
      refine ⟨h1, h2, ?_, h4, fun hn => h5 ?_⟩
      · rw [setAction_action]
        split
        · next he =>
          subst he
          exact hx.pending.resolve_right fun hn => hn.2 c hb
        · exact h3
      · have hn' := HasNullCandidate.of_setAction hx.alike hn
        rw [setAction_action] at hn'
        split at hn'
        · next he => subst he; exact hn'.of_alike hx.alike
        · exact hn'
    nodup_blocked := h.nodup_blocked
    noCore := h.noCore
    constraining := forall_setAction (P := fun b y => b ∉ y.constrainingPredecessors)
      (by rw [hx.alike.constraining]; exact h.constraining a) fun b _ => h.constraining b
    proper := forall_setAction (P := fun b y => b < s.nextId → y.Proper impls)
      (fun hb => by rw [Action.Proper, hx.alike.kind]; exact h.proper a hb) fun b _ => h.proper b }

theorem Sound.setResource (h : Sound impls s) (w : WorkerId) {r : ResourceScheduler δ}
    (hq : ∀ a ∈ r.blocked, (s.action a).state = .waiting ∧ (s.action a).selectedResource = some w)
    (hn : r.blocked.Nodup) : Sound impls (s.setResource w r) :=
  { h with
    queued := fun v b hb => by
      simp only [TaskScheduler.setResource, Function.update_apply] at hb
      split at hb
      · next he => subst he; exact hq b hb
      · exact h.queued v b hb
    nodup_queue := fun v => by
      simp only [TaskScheduler.setResource, Function.update_apply]
      split
      · exact hn
      · exact h.nodup_queue v }

/-- `t` is `s` with other links between its actions. -/
structure Relinked (s t : TaskScheduler δ τ) : Prop where
  nextId : t.nextId = s.nextId
  resource : t.resource = s.resource
  blockedActions : t.blockedActions = s.blockedActions
  action : ∀ b, ∃ ps ss, t.action b = { s.action b with dataPredecessors := ps, dataSuccessors := ss }

theorem Relinked.selectedResource (h : Relinked s t) (b : ActionId) :
    (t.action b).selectedResource = (s.action b).selectedResource := by
  obtain ⟨ps, ss, hb⟩ := h.action b
  rw [hb]

theorem Relinked.coreId (h : Relinked s t) (b : ActionId) : (t.action b).coreId = (s.action b).coreId := by
  obtain ⟨ps, ss, hb⟩ := h.action b
  rw [hb]
  rfl

theorem Relinked.isPending (h : Relinked s t) (b : ActionId) :
    (t.action b).isPending = (s.action b).isPending := by
  obtain ⟨ps, ss, hb⟩ := h.action b
  rw [hb]
  rfl

theorem Sound.relink (hs : Sound impls s) (h : Relinked s t)
    (mirrored : ∀ p a, a ∈ t.successors p → p ∈ t.predecessors a)
    (nodup_successors : ∀ p, (t.successors p).Nodup) (nodup_predecessors : ∀ a, (t.predecessors a).Nodup)
    (successor : ∀ p a, a ∈ t.successors p → a < s.nextId ∧ (s.action a).isPending = true)
    (launched : ∀ a, (s.action a).Launched ∨ (∃ c, a ∈ s.blockedActions.coreIndexed c) → t.predecessors a = []) :
    Sound impls t where
  mirrored := mirrored
  nodup_successors := nodup_successors
  nodup_predecessors := nodup_predecessors
  successor p a ha := by rw [h.nextId, h.isPending]; exact successor p a ha
  launched a ha := by
    obtain ⟨ps, ss, hb⟩ := h.action a
    exact launched a (.inl (by rwa [hb] at ha))
  running a ha := by
    obtain ⟨ps, ss, hb⟩ := h.action a
    rw [hb] at ha ⊢
    exact hs.running a ha
  assigned a ha := by
    obtain ⟨ps, ss, hb⟩ := h.action a
    rw [hb] at ha ⊢
    rw [h.nextId]
    exact hs.assigned a ha
  queued w a ha := by
    obtain ⟨ps, ss, hb⟩ := h.action a
    rw [h.resource] at ha
    rw [hb]
    exact hs.queued w a ha
  nodup_queue w := by rw [h.resource]; exact hs.nodup_queue w
  blocked c a ha := by
    obtain ⟨ps, ss, hb⟩ := h.action a
    rw [h.blockedActions] at ha
    obtain ⟨h1, h2, h3, -, h5⟩ := hs.blocked c a ha
    rw [h.nextId, h.coreId, h.isPending]
    refine ⟨h1, h2, h3, launched a (.inr ⟨c, ha⟩), fun ⟨he, p, hp, hn⟩ => h5 ?_⟩
    rw [hb] at he hp
    exact ⟨he, p, hp, by rw [← h.selectedResource]; exact hn⟩
  nodup_blocked c := by rw [h.blockedActions]; exact hs.nodup_blocked c
  noCore := by rw [h.blockedActions]; exact hs.noCore
  constraining a := by
    obtain ⟨ps, ss, hb⟩ := h.action a
    rw [hb]
    exact hs.constraining a
  proper a ha := by
    obtain ⟨ps, ss, hb⟩ := h.action a
    rw [hb]
    exact hs.proper a (h.nextId ▸ ha)

/-- An action waits in one queue at most. -/
theorem Sound.queue_unique (h : Sound impls s) {v w : WorkerId} (hv : a ∈ (s.resource v).blocked)
    (hw : a ∈ (s.resource w).blocked) : v = w := by
  have := (h.queued v a hv).2.symm.trans (h.queued w a hw).2
  exact Option.some.inj this

end

/-! ## Scheduling -/

/-- No worker is left for the action: every candidate has executed it. -/
def AllExecuted (s : TaskScheduler δ τ) (x : Action τ) : Prop :=
  ∃ coreId appId priority, x.kind = .execution coreId appId priority ∧
    ∀ c ∈ candidates s x coreId appId, ∃ w ∈ x.executingResources, c = some w

/-- The search for a worker meets a constraining predecessor without one. -/
def MeetsNull (s : TaskScheduler δ τ) (x : Action τ) : Prop :=
  ∃ coreId appId priority, x.kind = .execution coreId appId priority ∧ none ∈ candidates s x coreId appId

section
variable (ctx : Ctx δ τ) {impls : CoreId → List τ} {s t h : TaskScheduler δ τ} {a : ActionId}
  {x y : Action τ} {score : Score}

theorem MeetsNull.hasNullCandidate (hx : s.MeetsNull x) : s.HasNullCandidate x := by
  obtain ⟨coreId, appId, priority, -, hn⟩ := hx
  rw [candidates] at hn
  split at hn
  · next he =>
    rw [List.mem_singleton] at hn
    rw [Action.isTargetResourceEnforced, ← hn] at he
    cases he
  · next he =>
    split at hn
    · obtain ⟨p, hp, hs⟩ := List.mem_map.mp hn
      exact ⟨by simpa using he, p, hp, hs⟩
    · obtain ⟨w, -, hw⟩ := List.mem_map.mp hn
      cases hw

/-- Candidates that have executed the action are passed over. -/
theorem bestChoice_executed {coreId : CoreId} {best : Option (Choice τ)} {useful : Nat} :
    ∀ {l : List (Option WorkerId)}, (∀ c ∈ l, ∃ w ∈ (s.action a).executingResources, c = some w) →
      bestChoice ctx s a coreId score best useful l h = .ok (best, useful) h
  | [], _ => rfl
  | none :: l, hl => by
    obtain ⟨w, -, hw⟩ := hl none (by simp)
    cases hw
  | some w :: l, hl => by
    obtain ⟨v, hv, hw⟩ := hl (some w) (by simp)
    cases hw
    rw [bestChoice, if_pos hv]
    exact bestChoice_executed fun c hc => hl c (by simp [hc])

theorem bestChoice_null {coreId : CoreId} : ∀ {l : List (Option WorkerId)} {best : Option (Choice τ)} {useful : Nat},
    none ∈ l → bestChoice ctx s a coreId score best useful l h = .error .nullPointer h
  | none :: l, _, _, _ => rfl
  | some w :: l, best, useful, hn => by
    have hn : none ∈ l := (List.mem_cons.mp hn).resolve_left (by simp)
    rw [bestChoice]
    split
    · exact bestChoice_null hn
    · exact bestChoice_null hn

theorem bestChoice_cases (s h : TaskScheduler δ τ) (a : ActionId) (score : Score) (coreId : CoreId) : ∀ (l : List (Option WorkerId)) (best : Option (Choice τ)) (useful : Nat),
    (bestChoice ctx s a coreId score best useful l h = .error .nullPointer h ∧ none ∈ l) ∨
    ∃ best' useful', bestChoice ctx s a coreId score best useful l h = .ok (best', useful') h ∧
      useful ≤ useful' ∧
      (useful' = useful → ∀ c ∈ l, ∃ w ∈ (s.action a).executingResources, c = some w)
  | [], best, useful => .inr ⟨best, useful, rfl, Nat.le_refl _, by simp⟩
  | none :: l, best, useful => .inl ⟨rfl, by simp⟩
  | some w :: l, best, useful => by
    rw [bestChoice]
    split
    · next hw =>
      rcases bestChoice_cases s h a score coreId l best useful with ⟨hr, hn⟩ | ⟨best', useful', hr, hle, hall⟩
      · exact .inl ⟨hr, by simp [hn]⟩
      · refine .inr ⟨best', useful', hr, hle, fun he c hc => ?_⟩
        rcases List.mem_cons.mp hc with rfl | hc
        · exact ⟨w, hw, rfl⟩
        · exact hall he c hc
    · rcases bestChoice_cases s h a score coreId l _ (useful + 1) with ⟨hr, hn⟩ | ⟨best', useful', hr, hle, -⟩
      · exact .inl ⟨hr, by simp [hn]⟩
      · exact .inr ⟨best', useful', hr, by omega, by omega⟩

/-- What an assignment makes of an action: nothing, unless it is `RUNNABLE`. -/
def Assigned (x y : Action τ) : Prop :=
  y = x ∨ x.state = .runnable ∧ ∃ w impl, y = { x with selectedResource := some w, selectedImpl := some impl }

theorem assigned_of_not_runnable (hx : x.state ≠ .runnable) (h : Assigned x y) : y = x :=
  h.resolve_right fun hr => hx hr.1

theorem Assigned.alike (h : Assigned x y) : x.Alike y := by
  rcases h with rfl | ⟨-, w, impl, rfl⟩
  · exact ⟨rfl, rfl, rfl, rfl, rfl, id⟩
  · exact ⟨rfl, rfl, rfl, rfl, rfl, fun _ => rfl⟩

theorem Assigned.state_eq (h : Assigned x y) : y.state = x.state := by
  rcases h with rfl | ⟨-, w, impl, rfl⟩ <;> rfl

theorem Assigned.executingResources_eq (h : Assigned x y) : y.executingResources = x.executingResources := by
  rcases h with rfl | ⟨-, w, impl, rfl⟩ <;> rfl

theorem assign_run (a : ActionId) (w : WorkerId) (impl : Implementation τ) (s : TaskScheduler δ τ) :
    ∃ y, (do assignImplementation a impl; assignResource a w : M δ τ Unit) s = .ok () (s.setAction a y) ∧
      (do assignResource a w; assignImplementation a impl : M δ τ Unit) s = .ok () (s.setAction a y) ∧
      Assigned (s.action a) y := by
  by_cases hr : (s.action a).state = .runnable
  · refine ⟨_, ?_, ?_, .inr ⟨hr, w, impl, rfl⟩⟩ <;>
      simp [assignImplementation, assignResource, Java.bind_run, modifyAction_run, hr]
  · refine ⟨_, ?_, ?_, .inl rfl⟩ <;>
      simp [assignImplementation, assignResource, Java.bind_run, modifyAction_run, hr]

theorem scheduleImplementation_cases (a : ActionId) (w : WorkerId) (impl : Implementation τ)
    (s : TaskScheduler δ τ) : scheduleImplementation ctx a w impl s = .error .unassignedAction s ∨
    ∃ y, scheduleImplementation ctx a w impl s = .ok () (s.setAction a y) ∧ Assigned (s.action a) y := by
  rw [scheduleImplementation, Java.bind_ok (Java.get_run s)]
  split
  · exact .inl rfl
  · obtain ⟨y, hr, -, hy⟩ := assign_run a w impl s
    exact .inr ⟨y, hr, hy⟩

theorem scheduleWorkerAction_cases (a : ActionId) (w : WorkerId) (impl : Implementation τ)
    (s : TaskScheduler δ τ) : scheduleWorkerAction a w impl s = .error .unassignedAction s ∨
    ∃ y, scheduleWorkerAction a w impl s = .ok () (s.setAction a y) ∧ Assigned (s.action a) y := by
  rw [scheduleWorkerAction, Java.bind_ok (Java.get_run s)]
  split
  · obtain ⟨y, -, hr, hy⟩ := assign_run a w impl s
    exact .inr ⟨y, hr, hy⟩
  · exact .inl rfl

/-- `schedule` raises `BlockedActionException` when no worker is left for the
action. -/
theorem schedule_blocked (h : s.AllExecuted (s.action a)) :
    schedule ctx a score s = .error .blockedAction s := by
  obtain ⟨coreId, appId, priority, hk, hall⟩ := h
  rw [schedule, Java.bind_ok (Java.get_run s)]
  simp only [hk]
  rw [scheduleExecution, Java.bind_ok (Java.get_run s), Java.bind_ok (bestChoice_executed ctx hall)]
  rfl

theorem schedule_null (h : s.MeetsNull (s.action a)) : schedule ctx a score s = .error .nullPointer s := by
  obtain ⟨coreId, appId, priority, hk, hn⟩ := h
  rw [schedule, Java.bind_ok (Java.get_run s)]
  simp only [hk]
  rw [scheduleExecution, Java.bind_ok (Java.get_run s), Java.bind_error (bestChoice_null ctx hn)]

/-- Otherwise the action is assigned a worker, stays unassigned, or the search
for a worker meets a constraining predecessor without one. -/
theorem schedule_cases (score : Score) (hne : ¬ s.AllExecuted (s.action a)) :
    (∃ y, schedule ctx a score s = .ok () (s.setAction a y) ∧ Assigned (s.action a) y) ∨
    schedule ctx a score s = .error .unassignedAction s ∨
    (schedule ctx a score s = .error .nullPointer s ∧ s.MeetsNull (s.action a)) := by
  rw [schedule, Java.bind_ok (Java.get_run s)]
  cases hk : (s.action a).kind with
  | startWorker w impl => exact (scheduleWorkerAction_cases a w impl s).symm.imp_right .inl
  | reduceWorker w impl ru => exact (scheduleWorkerAction_cases a w impl s).symm.imp_right .inl
  | stopWorker w impl => exact (scheduleWorkerAction_cases a w impl s).symm.imp_right .inl
  | execution coreId appId priority =>
    simp only
    rw [scheduleExecution, Java.bind_ok (Java.get_run s)]
    rcases bestChoice_cases ctx s s a score coreId (candidates s (s.action a) coreId appId) none 0 with ⟨hr, hn⟩ | ⟨best, useful, hr, -, hall⟩
    · exact .inr (.inr ⟨Java.bind_error hr, coreId, appId, priority, hk, hn⟩)
    · rw [Java.bind_ok hr]
      have hu : useful ≠ 0 := fun h0 => hne ⟨coreId, appId, priority, hk, hall h0⟩
      cases best with
      | none => exact .inr (.inl (by simp [hu]))
      | some c =>
        rcases scheduleImplementation_cases ctx a c.1 c.2.1 s with he | hok
        · exact .inr (.inl he)
        · exact .inl hok

end

/-! ## Launching -/

section
variable (ctx : Ctx δ τ) {impls : CoreId → List τ} {s t h : TaskScheduler δ τ} {a : ActionId} {w : WorkerId}

/-- The worker and the consumption after the resources of the action have been
reserved. -/
def reserved (s : TaskScheduler δ τ) (w : WorkerId) (x : Action τ) : δ × Option τ :=
  match x.isToReserveResources, x.selectedImpl with
  | true, some impl => ctx.ops.runTask (s.resource w).myWorker impl.requirements
  | _, _ => ((s.resource w).myWorker, x.resourceConsumption)

def ranAction (s : TaskScheduler δ τ) (w : WorkerId) (x : Action τ) : Action τ :=
  { x with state := .running, resourceConsumption := (reserved ctx s w x).2 }

def ranOn (s : TaskScheduler δ τ) (w : WorkerId) (a : ActionId) : ResourceScheduler δ :=
  let r := s.resource w
  { r with myWorker := (reserved ctx s w (s.action a)).1, running := r.running ++ [a] }

/-- The state `run` leaves. -/
def ran (s : TaskScheduler δ τ) (w : WorkerId) (a : ActionId) : TaskScheduler δ τ :=
  { (s.setAction a (ranAction ctx s w (s.action a))).setResource w (ranOn ctx s w a) with
    calls := .doAction a :: s.calls }

theorem reserved_eq {x : Action τ} {impl : Implementation τ} (hr : x.isToReserveResources = true)
    (hi : x.selectedImpl = some impl) :
    reserved ctx s w x = ctx.ops.runTask (s.resource w).myWorker impl.requirements := by simp [reserved, hr, hi]

theorem reserveResources_run (hi : (s.action a).selectedImpl.isSome) : reserveResources ctx w a s =
    .ok () ((s.setAction a { s.action a with resourceConsumption := (reserved ctx s w (s.action a)).2 }).setResource w
      { s.resource w with myWorker := (reserved ctx s w (s.action a)).1 }) := by
  obtain ⟨impl, hi⟩ := Option.isSome_iff_exists.mp hi
  rw [reserveResources, Java.bind_ok (Java.get_run _)]
  by_cases hr : (s.action a).isToReserveResources = true
  · rw [if_pos hr, reserved_eq ctx hr hi]
    conv_lhs => simp only [hi]
    rfl
  · have hr' : (s.action a).isToReserveResources = false := by simpa using hr
    rw [if_neg hr]
    simp [reserved, hr', setAction, setResource]

theorem run_run (hi : (s.action a).selectedImpl.isSome) : run ctx w a s = .ok () (ran ctx s w a) := by
  rw [run, Java.bind_ok (modifyAction_run ..), Java.bind_ok (reserveResources_run ctx (by simpa using hi)),
    hostAction, Java.bind_ok (modifyResource_run ..), call_run]
  simp [ran, ranAction, ranOn, reserved, setAction, setResource, Action.isToReserveResources]

/-- An action that is in no queue and has no predecessor may run. -/
theorem Sound.ran (hs : Sound impls s) (ha : (s.action a).selectedResource.isSome)
    (hp : s.predecessors a = []) (hq : ∀ v, a ∉ (s.resource v).blocked) : Sound impls (ran ctx s w a) := by
  have hfits : Fits s a (ranAction ctx s w (s.action a)) :=
    { alike := ⟨rfl, rfl, rfl, rfl, rfl, id⟩
      launched := fun _ => hp
      running := fun _ => ha
      assigned := fun _ => hs.assigned a ha
      queued := fun v hv => absurd hv (hq v)
      pending := .inl rfl }
  have hset := (hs.setAction hfits).setResource w (r := ranOn ctx s w a)
    (fun b hb => (hs.setAction hfits).queued w b hb) (hs.nodup_queue w)
  exact { hset with }

theorem Frame.ran (hf : Frame s t) {x : Action τ} (hx : (t.action a).Alike x)
    (hp : (t.action a).isPending = true) : Frame s (ran ctx (t.setAction a x) w a) := by
  have hy : (t.action a).Alike (ranAction ctx (t.setAction a x) w x) := { hx with }
  have hset := (hf.setAction hy hp.symm fun _ hr => by cases hr).setResource w (ranOn ctx (t.setAction a x) w a)
  rw [TaskScheduler.ran, setAction_self, setAction_setAction]
  exact { hset with }

/-- The place of an action in the graph fits its state. -/
theorem Sound.fits_self (hs : Sound impls s) (a : ActionId) : Fits s a (s.action a) where
  alike := .refl _
  launched := hs.launched a
  running := hs.running a
  assigned := hs.assigned a
  queued w := hs.queued w a
  pending := by
    by_cases hp : (s.action a).isPending = true
    · exact .inl hp
    · exact .inr ⟨fun p hap => hp (hs.successor p a hap).2, fun c hac => hp (hs.blocked c a hac).2.2.1⟩

/-- An action that is `RUNNABLE` waits nowhere. -/
theorem Sound.not_queued (hs : Sound impls s) (ha : (s.action a).state ≠ .waiting) (v : WorkerId) :
    a ∉ (s.resource v).blocked := fun hv => ha (hs.queued v a hv).1

/-- The action is put to wait on a worker. -/
def waited (s : TaskScheduler δ τ) (w : WorkerId) (a : ActionId) : TaskScheduler δ τ :=
  (s.setAction a { s.action a with state := .waiting }).setResource w
    { s.resource w with blocked := (s.resource w).blocked ++ [a] }

theorem Sound.waited (hs : Sound impls s) (ha : (s.action a).selectedResource = some w)
    (hp : s.predecessors a = []) (hr : (s.action a).state ≠ .waiting) : Sound impls (waited s w a) := by
  have hfits : Fits s a { s.action a with state := .waiting } :=
    { alike := ⟨rfl, rfl, rfl, rfl, rfl, id⟩
      launched := fun _ => hp
      running := fun h => by cases h
      assigned := hs.assigned a
      queued := fun v hv => absurd hv (hs.not_queued hr v)
      pending := .inl rfl }
  refine (hs.setAction hfits).setResource w (fun b hb => ?_) ?_
  · rcases List.mem_append.mp hb with hb | hb
    · exact (hs.setAction hfits).queued w b hb
    · rw [List.mem_singleton.mp hb, setAction_self]
      exact ⟨rfl, ha⟩
  · refine List.nodup_append.mpr ⟨hs.nodup_queue w, by simp, fun b hb c hc => ?_⟩
    rw [List.mem_singleton.mp hc]
    rintro rfl
    exact hs.not_queued hr w hb

theorem Frame.waited (hf : Frame s t) (hp : (t.action a).isPending = true) : Frame s (waited t w a) :=
  (hf.setAction (x := { t.action a with state := .waiting }) ⟨rfl, rfl, rfl, rfl, rfl, id⟩ hp.symm
    fun _ h => by cases h).setResource w _

theorem areEnoughResources_run {impl : Implementation τ} (hi : (s.action a).selectedImpl = some impl) :
    areEnoughResources ctx w a s = .ok (ctx.ops.canRunNow (s.resource w).myWorker impl.requirements) s := by
  rw [areEnoughResources, Java.bind_ok (Java.get_run s)]
  conv_lhs => simp only [hi]
  rfl

/-- `execute` on a worker the action is assigned to: the action runs, or waits
for its turn. -/
theorem execute_run (hs : Sound impls s) (ha : (s.action a).selectedResource = some w)
    (hr : (s.action a).state = .runnable) (hp : s.predecessors a = []) :
    ∃ t, execute ctx w a s = .ok () t ∧ Frame s t ∧ Sound impls t := by
  have hsel : (s.action a).selectedResource.isSome := by rw [ha]; rfl
  have hpend : (s.action a).isPending = true := by rw [Action.isPending, hr]; rfl
  obtain ⟨impl, hi⟩ := Option.isSome_iff_exists.mp (hs.assigned a hsel).2
  have hex : ∃ c : Bool, execute ctx w a s = (if c then do
        modifyAction a fun x => { x with executingResources := x.executingResources ++ [w] }
        run ctx w a
      else do
        modifyAction a fun x => { x with state := .waiting }
        waitOnResource w a : M δ τ Unit) s := by
    rw [execute, Java.bind_ok (Java.get_run s)]
    split
    · exact ⟨_, Java.bind_ok (areEnoughResources_run ctx hi)⟩
    · exact ⟨_, rfl⟩
  obtain ⟨c, hc⟩ := hex
  rw [hc]
  cases c with
  | true =>
    -- the worker is noted on the action before it runs
    have hfits : Fits s a
        { s.action a with executingResources := (s.action a).executingResources ++ [w] } :=
      { hs.fits_self a with alike := ⟨rfl, rfl, rfl, rfl, rfl, id⟩, launched := fun _ => hp, pending := .inl hpend }
    have hs' := hs.setAction hfits
    refine ⟨_, ?_, (Frame.refl s).ran ctx hfits.alike hpend, hs'.ran ctx (w := w) (by simpa using hsel) ?_ fun v => ?_⟩
    · rw [if_pos rfl, Java.bind_ok (modifyAction_run ..), run_run ctx (by simp [hi])]
    · simpa [predecessors] using hp
    · exact hs'.not_queued (by simp [hr]) v
  | false => exact ⟨_, rfl, (Frame.refl s).waited hpend, hs.waited ha hp (by rw [hr]; decide)⟩

/-- An action that is not `RUNNABLE`, or has predecessors, is not launched. -/
theorem tryToLaunchAction_skip (hc : ¬ ((s.action a).state = .runnable ∧ (s.action a).hasDataPredecessors = false)) :
    tryToLaunchAction ctx a s = .ok () s := by
  rw [tryToLaunchAction, Java.bind_ok (Java.get_run s)]
  cases hw : (s.action a).selectedResource with
  | none =>
    conv_lhs => simp only [hw]
    rfl
  | some w =>
    conv_lhs => simp only [hw, if_neg hc]
    rfl

theorem tryToLaunchAction_none (hw : (s.action a).selectedResource = none) :
    tryToLaunchAction ctx a s = .ok () s := by
  rw [tryToLaunchAction, Java.bind_ok (Java.get_run s)]
  conv_lhs => simp only [hw]
  rfl

theorem tryToLaunchAction_eq (hw : (s.action a).selectedResource = some w)
    (hc : (s.action a).state = .runnable ∧ (s.action a).hasDataPredecessors = false) :
    tryToLaunchAction ctx a s = (if (s.action a).isSchedulingConstrained && unrequiredResource s a ||
      (s.action a).isTargetResourceEnforced && (s.action a).enforcedTargetResource ≠ some w
      then throw .invalidScheduling else execute ctx w a : M δ τ Unit) s := by
  rw [tryToLaunchAction, Java.bind_ok (Java.get_run s)]
  conv_lhs => simp only [hw]
  rw [if_pos hc]

theorem tryToLaunchAction_cases (hs : Sound impls s) (a : ActionId) :
    (∃ t, tryToLaunchAction ctx a s = .ok () t ∧ Frame s t ∧ Sound impls t) ∨
    (tryToLaunchAction ctx a s = .error .invalidScheduling s ∧ (s.action a).state = .runnable ∧
      ((s.action a).isSchedulingConstrained = true ∨ (s.action a).isTargetResourceEnforced = true)) := by
  by_cases hc : (s.action a).state = .runnable ∧ (s.action a).hasDataPredecessors = false
  · have hp : s.predecessors a = [] := by simpa [Action.hasDataPredecessors, predecessors] using hc.2
    cases hw : (s.action a).selectedResource with
    | none => exact .inl ⟨s, tryToLaunchAction_none ctx hw, Frame.refl s, hs⟩
    | some w =>
      obtain ⟨t, ht, hft⟩ := execute_run ctx hs hw hc.1 hp
      rw [tryToLaunchAction_eq ctx hw hc]
      split
      · next hm =>
        refine .inr ⟨rfl, hc.1, ?_⟩
        simp only [Bool.or_eq_true, Bool.and_eq_true] at hm
        exact hm.imp And.left And.left
      · exact .inl ⟨t, ht, hft⟩
  · exact .inl ⟨s, tryToLaunchAction_skip ctx hc, Frame.refl s, hs⟩

/-! ## Resuming -/

theorem peek_congr (hk : ∀ b, (t.action b).kind = (s.action b).kind) :
    ∀ l : List ActionId, peek t l = peek s l
  | [] => rfl
  | b :: l => by
    have hscore : ∀ b, (t.action b).actionScore = (s.action b).actionScore := fun b => by
      simp [Action.actionScore, Action.priority, hk b]
    simp only [peek, peek_congr hk l, hscore]

theorem mem_of_peek : ∀ {l : List ActionId}, peek s l = some a → a ∈ l
  | b :: l, h => by
    rw [peek] at h
    split at h
    · exact List.mem_cons.mpr (.inl (Option.some.inj h).symm)
    · next c hc =>
      split at h
      · cases h; exact List.mem_cons_of_mem b (mem_of_peek hc)
      · exact List.mem_cons.mpr (.inl (Option.some.inj h).symm)

/-- The queue without an action. -/
def dequeued (s : TaskScheduler δ τ) (w : WorkerId) (a : ActionId) : TaskScheduler δ τ :=
  s.setResource w { s.resource w with blocked := (s.resource w).blocked.erase a }

/-- Running the first of the queue and taking it off it is running it with the
queue without it. -/
theorem resume_run (hpeek : peek s (s.resource w).blocked = some a) (hw : (s.action a).state = .waiting)
    (hsel : (s.action a).selectedResource = some w) (hi : (s.action a).selectedImpl.isSome) :
    (do resumeExecution ctx a; removeFirstBlocked w : M δ τ Unit) s = .ok () (ran ctx (dequeued s w a) w a) := by
  have hresume : resumeExecution ctx a s = .ok () (ran ctx s w a) := by
    rw [resumeExecution, Java.bind_ok (Java.get_run s), if_pos hw]
    conv_lhs => simp only [hsel]
    exact run_run ctx hi
  have hk : ∀ b, ((ran ctx s w a).action b).kind = (s.action b).kind :=
    forall_setAction (P := fun b y => y.kind = (s.action b).kind) rfl fun _ _ => rfl
  have hq : ((ran ctx s w a).resource w).blocked = (s.resource w).blocked := by
    simp [ran, setResource, ranOn]
  rw [Java.bind_ok hresume, removeFirstBlocked, Java.bind_ok (Java.get_run _)]
  conv_lhs => simp only [hq, peek_congr hk, hpeek, modifyResource_run]
  simp [ran, dequeued, setResource, setAction, ranOn, ranAction, reserved]

theorem Sound.dequeued (hs : Sound impls s) (w : WorkerId) (a : ActionId) : Sound impls (dequeued s w a) :=
  hs.setResource w (fun b hb => hs.queued w b (List.mem_of_mem_erase hb)) ((hs.nodup_queue w).erase a)

theorem Frame.dequeued (hf : Frame s t) (w : WorkerId) (a : ActionId) : Frame s (dequeued t w a) :=
  hf.setResource w _

theorem Sound.not_mem_dequeued (hs : Sound impls s) (ha : a ∈ (s.resource w).blocked) (v : WorkerId) :
    a ∉ ((TaskScheduler.dequeued s w a).resource v).blocked := by
  intro hv
  simp only [TaskScheduler.dequeued, TaskScheduler.setResource, Function.update_apply] at hv
  split at hv
  · exact (hs.nodup_queue w).not_mem_erase hv
  · next hne => exact hne (hs.queue_unique hv ha)

/-- A round of the loop over a queue: the first of it is resumed, when it fits. -/
theorem tryToLaunchBlockedActions_cons (hpeek : peek s (s.resource w).blocked = some a)
    (hw : (s.action a).state = .waiting) (hsel : (s.action a).selectedResource = some w)
    {impl : Implementation τ} (hi : (s.action a).selectedImpl = some impl) (fuel : Nat) :
    tryToLaunchBlockedActions ctx w (fuel + 1) s =
      if (s.action a).isToReserveResources = true ∧
          ctx.ops.canRunNow (s.resource w).myWorker impl.requirements = false then .ok () s
      else tryToLaunchBlockedActions ctx w fuel (ran ctx (dequeued s w a) w a) := by
  have hrun : tryToLaunchBlockedActions ctx w (fuel + 1) s =
      (if (if (s.action a).isToReserveResources then ctx.ops.canRunNow (s.resource w).myWorker impl.requirements
          else true) then do
        tryCatch (do resumeExecution ctx a; removeFirstBlocked w) fun e =>
          if e = .actionNotWaiting then pure () else throw e
        tryToLaunchBlockedActions ctx w fuel
      else pure () : M δ τ Unit) s := by
    rw [tryToLaunchBlockedActions, Java.bind_ok (Java.get_run s)]
    conv_lhs => simp only [hpeek, hi]
    cases (s.action a).isToReserveResources <;> rfl
  have hresume := Java.tryCatch_ok (h := fun e : Thrown => if e = .actionNotWaiting then pure () else throw e)
    (resume_run ctx hpeek hw hsel (by rw [hi]; rfl))
  by_cases hfits : (s.action a).isToReserveResources = true ∧
      ctx.ops.canRunNow (s.resource w).myWorker impl.requirements = false
  · rw [hrun, if_pos hfits, if_pos hfits.1, if_neg (by simp [hfits.2])]
    rfl
  · have hgo : (if (s.action a).isToReserveResources then ctx.ops.canRunNow (s.resource w).myWorker impl.requirements
        else true) = true := by
      split
      · next hr => simpa [hr] using hfits
      · rfl
    rw [hrun, if_neg hfits, if_pos hgo, Java.bind_ok hresume]

theorem tryToLaunchBlockedActions_nil (hpeek : peek s (s.resource w).blocked = none) (fuel : Nat) :
    tryToLaunchBlockedActions ctx w (fuel + 1) s = .ok () s := by
  rw [tryToLaunchBlockedActions, Java.bind_ok (Java.get_run s)]
  conv_lhs => simp only [hpeek]
  rfl

/-- The loop over a queue keeps the frame. -/
theorem tryToLaunchBlockedActions_keeps (w : WorkerId) : ∀ fuel : Nat,
    Java.Keeps (fun t => Frame s t ∧ Sound impls t) (tryToLaunchBlockedActions ctx w fuel)
  | 0 => Java.Keeps.throw _
  | fuel + 1 => by
    intro t ht
    cases hpeek : peek t (t.resource w).blocked with
    | none =>
      rw [tryToLaunchBlockedActions_nil ctx hpeek]
      exact ht
    | some a =>
      have hq := mem_of_peek hpeek
      obtain ⟨hwait, hsel⟩ := ht.2.queued w a hq
      have hsel' : (t.action a).selectedResource.isSome := by rw [hsel]; rfl
      have hpend : (t.action a).isPending = true := by rw [Action.isPending, hwait]; rfl
      obtain ⟨impl, hi⟩ := Option.isSome_iff_exists.mp (ht.2.assigned a hsel').2
      rw [tryToLaunchBlockedActions_cons ctx hpeek hwait hsel hi]
      split
      · exact ht
      · have hf := (ht.1.dequeued w a).ran ctx (w := w) (Action.Alike.refl _) hpend
        rw [setAction_eq_self] at hf
        refine tryToLaunchBlockedActions_keeps w fuel _ ⟨hf, ?_⟩
        exact (ht.2.dequeued w a).ran ctx hsel' (ht.2.launched a (.inr (.inl hwait)))
          (ht.2.not_mem_dequeued hq)

end

/-! ## Placing -/

section
variable (ctx : Ctx δ τ) {impls : CoreId → List τ} {s t h : TaskScheduler δ τ} {a : ActionId} {w : WorkerId}
  {x y : Action τ} {score : Score}

theorem Sound.fits_assigned (hs : Sound impls s) (ha : a < s.nextId) (hy : Assigned (s.action a) y) : Fits s a y := by
  rcases hy with rfl | ⟨hr, w, impl, rfl⟩
  · exact hs.fits_self a
  · exact {
      hs.fits_self a with
      alike := ⟨rfl, rfl, rfl, rfl, rfl, fun _ => rfl⟩
      running := fun h => by rw [hr] at h; cases h
      assigned := fun _ => ⟨ha, rfl⟩
      queued := fun v hv => absurd hv (hs.not_queued (by rw [hr]; decide) v)
      pending := .inl (by rw [Action.isPending]; simp [hr]) }

theorem Frame.assigned (hf : Frame s t) (hy : Assigned (t.action a) y) : Frame s (t.setAction a y) := by
  refine hf.setAction hy.alike (by rw [Action.isPending, hy.state_eq]; rfl) fun h hr => ?_
  rw [hy.executingResources_eq]
  exact h (hy.state_eq ▸ hr)

/-- What a `scheduleAction` that returns leaves. -/
def Placed (s : TaskScheduler δ τ) (a : ActionId) (t : TaskScheduler δ τ) : Prop :=
  ∃ y lost, Assigned (s.action a) y ∧ t = { s.setAction a y with lost := lost }

theorem Placed.sound (hs : Sound impls s) (ha : a < s.nextId) (ht : Placed s a t) : Sound impls t := by
  obtain ⟨y, lost, hy, rfl⟩ := ht
  exact { hs.setAction (hs.fits_assigned ha hy) with }

theorem Placed.frame (hf : Frame s t) (ht : Placed t a h) : Frame s h := by
  obtain ⟨y, lost, hy, rfl⟩ := ht
  exact { hf.assigned hy with }

theorem Placed.hasNullCandidate (ht : Placed s a t) (hn : t.HasNullCandidate (t.action a)) :
    s.HasNullCandidate (s.action a) := by
  obtain ⟨y, lost, hy, rfl⟩ := ht
  have hn' : (s.setAction a y).HasNullCandidate y := by
    rw [show TaskScheduler.action { s.setAction a y with lost := lost } a = y by simp] at hn
    exact hn
  exact (HasNullCandidate.of_setAction hy.alike hn').of_alike hy.alike

theorem scheduleAction_blocked (hb : s.AllExecuted (s.action a)) :
    scheduleAction ctx a score s = .error .blockedAction s := by
  rw [scheduleAction, Java.tryCatch_error (schedule_blocked ctx hb)]
  rfl

theorem scheduleAction_cases (score : Score) (hne : ¬ s.AllExecuted (s.action a)) :
    (∃ t, scheduleAction ctx a score s = .ok () t ∧ Placed s a t) ∨
    (scheduleAction ctx a score s = .error .nullPointer s ∧ s.MeetsNull (s.action a)) := by
  rcases schedule_cases ctx score hne with ⟨y, hr, hy⟩ | hr | ⟨hr, hn⟩
  · exact .inl ⟨_, Java.tryCatch_ok hr, y, s.lost, hy, rfl⟩
  · refine .inl ⟨{ s with lost := a :: s.lost }, ?_, s.action a, a :: s.lost, .inl rfl, ?_⟩
    · rw [scheduleAction, Java.tryCatch_error hr]
      rfl
    · rw [setAction_eq_self]
  · refine .inr ⟨?_, hn⟩
    rw [scheduleAction, Java.tryCatch_error hr]
    rfl

/-- A call ends within the frame: it returns, or raises a
`NullPointerException` at a null candidate. -/
def Within (impls : CoreId → List τ) (s : TaskScheduler δ τ) (a : ActionId)
    (r : EStateM.Result Thrown (TaskScheduler δ τ) Unit) : Prop :=
  (∃ t, r = .ok () t ∧ Frame s t ∧ Sound impls t) ∨
  (∃ t, r = .error .nullPointer t ∧ s.HasNullCandidate (s.action a) ∧ Frame s t ∧ Sound impls t)

/-- An action that has candidates left is rescheduled when its constraints
forbid the launch. -/
theorem tryToLaunch_cases (hs : Sound impls s) (ha : a < s.nextId)
    (hne : (s.action a).state = .runnable →
      (s.action a).isSchedulingConstrained = true ∨ (s.action a).isTargetResourceEnforced = true →
      ¬ s.AllExecuted (s.action a)) : Within impls s a (tryToLaunch ctx a s) := by
  rcases tryToLaunchAction_cases ctx hs a with ⟨t, hr, ht⟩ | ⟨hr, hrun, hc⟩
  · exact .inl ⟨t, Java.tryCatch_ok hr, ht⟩
  · rw [tryToLaunch, Java.tryCatch_error hr, if_pos rfl]
    rcases scheduleAction_cases ctx (s.action a).actionScore (hne hrun hc) with ⟨t, hr, ht⟩ | ⟨hr, hn⟩
    · exact .inl ⟨t, Java.tryCatch_ok ((Java.bind_ok (Java.get_run s)).trans hr), ht.frame (.refl s), ht.sound hs ha⟩
    · refine .inr ⟨s, ?_, hn.hasNullCandidate, .refl s, hs⟩
      rw [Java.tryCatch_error ((Java.bind_ok (Java.get_run s)).trans hr)]
      rfl

/-- Candidates named by a constraint do not change with the assignment. -/
theorem Placed.candidates (hs : Sound impls s) (ht : Placed s a t)
    (hc : (s.action a).isSchedulingConstrained = true ∨ (s.action a).isTargetResourceEnforced = true)
    (coreId : CoreId) (appId : Int) :
    candidates t (t.action a) coreId appId = candidates s (s.action a) coreId appId := by
  obtain ⟨y, lost, hy, rfl⟩ := ht
  have hal := hy.alike
  rw [show TaskScheduler.action { s.setAction a y with lost := lost } a = y by simp]
  have henf : y.isTargetResourceEnforced = (s.action a).isTargetResourceEnforced := by
    rw [Action.isTargetResourceEnforced, hal.enforced]; rfl
  have hcons : y.isSchedulingConstrained = (s.action a).isSchedulingConstrained := by
    rw [Action.isSchedulingConstrained, hal.constraining]; rfl
  rw [TaskScheduler.candidates, TaskScheduler.candidates, henf, hcons, hal.enforced, hal.constraining]
  by_cases he : (s.action a).isTargetResourceEnforced = true
  · rw [if_pos he, if_pos he]
  · rw [if_neg he, if_neg he, if_pos (hc.resolve_right he), if_pos (hc.resolve_right he)]
    refine List.map_congr_left fun p hp => ?_
    have hpa : p ≠ a := by rintro rfl; exact hs.constraining _ hp
    change ((s.setAction a y).action p).selectedResource = _
    rw [setAction_action, if_neg hpa]

theorem Placed.not_allExecuted (hs : Sound impls s) (ht : Placed s a t)
    (hc : (s.action a).isSchedulingConstrained = true ∨ (s.action a).isTargetResourceEnforced = true)
    (hne : ¬ s.AllExecuted (s.action a)) : ¬ t.AllExecuted (t.action a) := by
  rintro ⟨coreId, appId, priority, hk, hall⟩
  rw [ht.candidates hs hc] at hall
  obtain ⟨y, lost, hy, rfl⟩ := ht
  simp only [setAction_self, hy.executingResources_eq] at hall hk
  exact hne ⟨coreId, appId, priority, hy.alike.kind ▸ hk, hall⟩

/-- An action is placed, found to be blocked, or lost at a null candidate. -/
theorem place_cases (score : Score) (hs : Sound impls s) (ha : a < s.nextId) :
    (s.AllExecuted (s.action a) ∧
      (do scheduleAction ctx a score; tryToLaunch ctx a : M δ τ Unit) s = .error .blockedAction s) ∨
    (¬ s.AllExecuted (s.action a) ∧
      Within impls s a ((do scheduleAction ctx a score; tryToLaunch ctx a : M δ τ Unit) s)) := by
  by_cases hb : s.AllExecuted (s.action a)
  · exact .inl ⟨hb, Java.bind_error (scheduleAction_blocked ctx hb)⟩
  · refine .inr ⟨hb, ?_⟩
    rcases scheduleAction_cases ctx score hb with ⟨t, hr, ht⟩ | ⟨hr, hn⟩
    · have hst := ht.sound hs ha
      have hft := ht.frame (.refl s)
      rw [Java.bind_ok hr]
      have hal : (s.action a).Alike (t.action a) := by
        obtain ⟨y, lost, hy, rfl⟩ := ht
        simpa using hy.alike
      have hc : (t.action a).isSchedulingConstrained = true ∨ (t.action a).isTargetResourceEnforced = true →
          ¬ t.AllExecuted (t.action a) := by
        rw [Action.isSchedulingConstrained, Action.isTargetResourceEnforced, hal.constraining, hal.enforced]
        exact fun hc => ht.not_allExecuted hs hc hb
      rcases tryToLaunch_cases ctx hst (ha.trans_le hft.nextId_le) (fun _ => hc) with
        ⟨u, hr, hu, hsu⟩ | ⟨u, hr, hn, hu, hsu⟩
      · exact .inl ⟨u, hr, hft.trans hu, hsu⟩
      · exact .inr ⟨u, hr, ht.hasNullCandidate hn, hft.trans hu, hsu⟩
    · exact .inr ⟨s, Java.bind_error hr, hn.hasNullCandidate, .refl s, hs⟩

end

/-! ## Blocking -/

section
variable {s : TaskScheduler δ τ} {a b : ActionId}

/-- The state after an action has been blocked. -/
def block (s : TaskScheduler δ τ) (a : ActionId) : TaskScheduler δ τ :=
  { s with blockedActions := s.blockedActions.addAction (s.action a).coreId a }

theorem isBlocked_block : (block s a).IsBlocked b ↔ s.IsBlocked b ∨ b = a := by
  by_cases hba : b = a
  · subst hba
    simp only [IsBlocked, block, ActionSet.Mem, ActionSet.addAction, or_true, iff_true]
    cases (s.action b).coreId <;> simp
  · simp only [IsBlocked, block, ActionSet.Mem, ActionSet.addAction, hba, or_false]
    cases ha : (s.action a).coreId with
    | none => cases hb : (s.action b).coreId <;> simp [hba]
    | some c =>
      cases hb : (s.action b).coreId with
      | none => simp
      | some d =>
        by_cases hd : d = c
        · subst hd; simp [hba]
        · simp [hd]

end

/-! ## Creating -/

section
variable (ctx : Ctx δ τ) {impls : CoreId → List τ} {s t : TaskScheduler δ τ} {a : ActionId} {w : WorkerId}

/-- A new action gets the next id. -/
def created (s : TaskScheduler δ τ) (x : Action τ) : TaskScheduler δ τ :=
  { s.setAction s.nextId x with nextId := s.nextId + 1 }

theorem Sound.hasNullCandidate_of_created (hs : Sound impls s) {x y : Action τ}
    (h : (created s x).HasNullCandidate y) : s.HasNullCandidate y := by
  obtain ⟨he, p, hp, hn⟩ := h
  refine ⟨he, p, hp, ?_⟩
  by_contra hsel
  have hlt := (hs.assigned p (Option.isSome_iff_ne_none.mpr hsel)).1
  change ((s.setAction s.nextId x).action p).selectedResource = none at hn
  rw [setAction_action, if_neg (Nat.ne_of_lt hlt)] at hn
  exact hsel hn

theorem Sound.created (hs : Sound impls s) {kind : ActionKind τ} {constraining : List ActionId}
    {enforced : Option WorkerId} (hc : s.nextId ∉ constraining)
    (hp : (Action.new kind constraining enforced).Proper impls) :
    Sound impls (created s (Action.new kind constraining enforced)) := by
  have hold : ∀ b < s.nextId,
      (TaskScheduler.created s (Action.new kind constraining enforced)).action b = s.action b := fun b hb => by
    change ((s.setAction s.nextId _).action b) = _
    rw [setAction_action, if_neg (Nat.ne_of_lt hb)]
  have hsucc : ∀ p b, b ∈ (TaskScheduler.created s (Action.new kind constraining enforced)).successors p →
      b ∈ s.successors p :=
    forall_setAction (P := fun p y => ∀ b, b ∈ y.dataSuccessors.elems → b ∈ s.successors p)
      (fun b hb => by cases hb) fun _ _ _ hb => hb
  refine {
    mirrored := fun p b hb => ?_
    nodup_successors := forall_setAction (P := fun _ y => y.dataSuccessors.elems.Nodup) List.nodup_nil
      fun b _ => hs.nodup_successors b
    nodup_predecessors := forall_setAction (P := fun _ y => y.dataPredecessors.Nodup) List.nodup_nil
      fun b _ => hs.nodup_predecessors b
    successor := fun p b hb => ?_
    launched := forall_setAction (P := fun _ y => y.Launched → y.dataPredecessors = []) (fun _ => rfl)
      fun b _ => hs.launched b
    running := forall_setAction (P := fun _ y => y.state = .running → y.selectedResource.isSome)
      (fun h => by cases h) fun b _ => hs.running b
    assigned := forall_setAction
      (P := fun b y => y.selectedResource.isSome → b < s.nextId + 1 ∧ y.selectedImpl.isSome) (fun h => by cases h)
      fun b _ h => ⟨Nat.lt_succ_of_lt (hs.assigned b h).1, (hs.assigned b h).2⟩
    queued := fun v b hb => ?_
    nodup_queue := hs.nodup_queue
    blocked := fun c b hb => ?_
    nodup_blocked := hs.nodup_blocked
    noCore := hs.noCore
    constraining := forall_setAction (P := fun b y => b ∉ y.constrainingPredecessors) hc
      fun b _ => hs.constraining b
    proper := forall_setAction (P := fun b y => b < s.nextId + 1 → y.Proper impls) (fun _ => hp)
      fun b hne hb => hs.proper b ((Nat.lt_succ_iff_lt_or_eq.mp hb).resolve_right hne) }
  · have hb' := hsucc p b hb
    rw [predecessors, hold b (hs.successor p b hb').1]
    exact hs.mirrored p b hb'
  · have hb' := hs.successor p b (hsucc p b hb)
    exact ⟨Nat.lt_succ_of_lt hb'.1, by rw [hold b hb'.1]; exact hb'.2⟩
  · have hb' := hs.queued v b hb
    rw [hold b (hs.assigned b (by rw [hb'.2]; rfl)).1]
    exact hb'
  · obtain ⟨h1, h2, h3, h4, h5⟩ := hs.blocked c b hb
    rw [predecessors, hold b h1]
    exact ⟨Nat.lt_succ_of_lt h1, h2, h3, h4, fun hn => h5 (hs.hasNullCandidate_of_created hn)⟩

theorem Frame.created (hs : Sound impls s) {x : Action τ} (hx : x.coreId = none) : Frame s (created s x) := by
  have hold : ∀ b < s.nextId, (TaskScheduler.created s x).action b = s.action b := fun b hb => by
    change ((s.setAction s.nextId x).action b) = _
    rw [setAction_action, if_neg (Nat.ne_of_lt hb)]
  exact {
    nextId_le := Nat.le_succ _
    kind := fun b hb => by rw [hold b hb]
    predecessors := fun b hb => congrArg Action.dataPredecessors (hold b hb)
    isPending := fun b hb => by rw [hold b hb]
    fresh := fun b hb h => by rw [hold b hb]; exact h
    hasNullCandidate := fun b hb h => hs.hasNullCandidate_of_created (by rwa [hold b hb] at h)
    coreless := fun b h1 h2 => by
      have hb : b = s.nextId := Nat.le_antisymm (Nat.le_of_lt_succ h2) h1
      rw [hb]
      change ((s.setAction s.nextId x).action s.nextId).coreId = none
      rwa [setAction_self]
    blockedActions := rfl
    readyCounts := rfl }

theorem launchWorkerAction_run (hs : Sound impls s) (ha : a < s.nextId) (w : WorkerId) (impl : Implementation τ) :
    ∃ t, launchWorkerAction ctx a w impl s = .ok () t ∧ Frame s t ∧ Sound impls t := by
  rcases scheduleWorkerAction_cases a w impl s with hr | ⟨y, hr, hy⟩
  · exact ⟨s, (Java.tryCatch_error (Java.bind_error hr)).trans rfl, .refl s, hs⟩
  · have hst := hs.setAction (hs.fits_assigned ha hy)
    have hft := (Frame.refl s).assigned hy
    rcases tryToLaunchAction_cases ctx hst a with ⟨t, ht, hf, hs'⟩ | ⟨ht, -⟩
    · exact ⟨t, Java.tryCatch_ok ((Java.bind_ok hr).trans ht), hft.trans hf, hs'⟩
    · exact ⟨_, (Java.tryCatch_error ((Java.bind_ok hr).trans ht)).trans rfl, hft, hst⟩

/-- A worker action is created and launched. -/
theorem newWorkerAction_launch (hs : Sound impls s) (w : WorkerId) (kind : ActionKind τ) (impl : Implementation τ)
    (hk : (Action.new kind [] (some w)).coreId = none) (hp : (Action.new kind [] (some w)).Proper impls) :
    ∃ t, (do let action ← newWorkerAction kind w; launchWorkerAction ctx action w impl : M δ τ Unit) s = .ok () t ∧
      Frame s t ∧ Sound impls t := by
  have hnew : newWorkerAction kind w s = .ok s.nextId (created s (Action.new kind [] (some w))) := rfl
  obtain ⟨t, ht, hf, hst⟩ := launchWorkerAction_run ctx (hs.created List.not_mem_nil hp) (Nat.lt_succ_self _) w impl
  exact ⟨t, (Java.bind_ok hnew).trans ht, (Frame.created hs hk).trans hf, hst⟩

/-- The state after the core table has been updated for a worker. -/
def changed (s : TaskScheduler δ τ) (w : WorkerId) : TaskScheduler δ τ :=
  let cores := ctx.ops.executableCores (s.resource w).myWorker
  { s with coreToWorkers := fun c => (s.coreToWorkers c).erase w ++ List.replicate (cores.count c) w }

theorem changesOnWorker_run : changesOnWorker ctx w s = .ok () (changed ctx s w) := rfl

theorem Sound.changed (hs : Sound impls s) : Sound impls (changed ctx s w) := { hs with }

theorem Frame.changed : Frame s (changed ctx s w) := { Frame.refl s with }

/-- Trying to move an action that waits does nothing while a worker is left
for it: it is assigned nothing and launched nowhere. -/
theorem placeRemoved_waiting (hw : (s.action a).state = .waiting) :
    (¬ s.AllExecuted (s.action a) ∧ ((∃ lost, placeRemoved ctx a s = .ok () { s with lost := lost }) ∨
      placeRemoved ctx a s = .error .nullPointer s ∧ s.MeetsNull (s.action a))) ∨
    (s.AllExecuted (s.action a) ∧ placeRemoved ctx a s =
      ((if (s.action a).hasDataPredecessors = false then removeFromReady ctx a else pure ()) >>= fun _ =>
        addToBlocked a : M δ τ Unit) s) := by
  by_cases hb : s.AllExecuted (s.action a)
  · exact .inr ⟨hb, Java.tryCatch_error (Java.bind_error (scheduleAction_blocked ctx hb))⟩
  · refine .inl ⟨hb, ?_⟩
    rcases scheduleAction_cases ctx (s.action a).actionScore hb with ⟨t, hr, y, lost, hy, rfl⟩ | ⟨hr, hn⟩
    · have hne : (s.action a).state ≠ .runnable := by rw [hw]; decide
      obtain rfl := assigned_of_not_runnable hne hy
      rw [setAction_eq_self] at hr
      have hskip : tryToLaunch ctx a { s with lost := lost } = .ok () { s with lost := lost } :=
        Java.tryCatch_ok (tryToLaunchAction_skip ctx fun hc => hne hc.1)
      exact .inl ⟨lost, Java.tryCatch_ok ((Java.bind_ok hr).trans hskip)⟩
    · exact .inr ⟨Java.tryCatch_error (Java.bind_error hr), hn⟩

end

/-! ## What launching touches -/

/-- `I` survives the updates of one action that leave its kind alone, those of
the workers, and the calls. -/
structure Local (I : TaskScheduler δ τ → Prop) (a : ActionId) : Prop where
  action : ∀ f : Action τ → Action τ, (∀ x, (f x).kind = x.kind) → Java.Keeps I (modifyAction a f)
  resource : ∀ w f, Java.Keeps I (modifyResource w f)
  call : ∀ c, Java.Keeps I (call c)

section
variable (ctx : Ctx δ τ) {I : TaskScheduler δ τ → Prop} {a : ActionId}

theorem run_local (hI : Local I a) (w : WorkerId) : Java.Keeps I (run ctx w a) := by
  refine .bind (hI.action _ fun _ => rfl) fun _ => .bind ?_ fun _ => .bind (hI.resource w _) fun _ => hI.call _
  refine .bind .get fun t => .ite (fun _ => ?_) fun _ => .pure _
  cases (t.action a).selectedImpl with
  | none => exact .throw _
  | some impl => exact .bind (hI.resource w _) fun _ => hI.action _ fun _ => rfl

theorem execute_local (hI : Local I a) (w : WorkerId) : Java.Keeps I (execute ctx w a) := by
  have hrest : ∀ c : Bool, Java.Keeps I (if c then do
        modifyAction a fun x => { x with executingResources := x.executingResources ++ [w] }
        run ctx w a
      else do
        modifyAction a fun x => { x with state := .waiting }
        waitOnResource w a : M δ τ Unit) := fun c =>
    .ite (fun _ => .bind (hI.action _ fun _ => rfl) fun _ => run_local ctx hI w)
      fun _ => .bind (hI.action _ fun _ => rfl) fun _ => hI.resource w _
  refine .bind .get fun t => .ite (fun _ => .bind ?_ fun e => hrest _) fun _ => .bind (.pure _) fun e => hrest _
  refine .bind .get fun u => ?_
  cases (u.action a).selectedImpl with
  | none => exact .throw _
  | some impl => exact .pure _

theorem tryToLaunchAction_local (hI : Local I a) : Java.Keeps I (tryToLaunchAction ctx a) := by
  refine .bind .get fun t => ?_
  dsimp only
  cases (t.action a).selectedResource with
  | none => exact .pure _
  | some w =>
    exact .ite (fun _ => .ite (fun _ => .throw _) fun _ => execute_local ctx hI w) fun _ => .pure _

theorem assign_kind (f : Action τ → Action τ) (hf : ∀ x, (f x).kind = x.kind) (x : Action τ) :
    (if x.state = .runnable then f x else x).kind = x.kind := by
  split
  · exact hf x
  · rfl

theorem launchWorkerAction_local (hI : Local I a) (w : WorkerId) (impl : Implementation τ) :
    Java.Keeps I (launchWorkerAction ctx a w impl) := by
  refine .tryCatch (.bind ?_ fun _ => tryToLaunchAction_local ctx hI) fun e => .ite (fun _ => .pure _) fun _ => .throw _
  exact .bind .get fun t => .ite
    (fun _ => .bind (hI.action _ (assign_kind _ fun _ => rfl)) fun _ => hI.action _ (assign_kind _ fun _ => rfl))
    fun _ => .throw _

end

end TaskScheduler

end Compss.Scheduler
