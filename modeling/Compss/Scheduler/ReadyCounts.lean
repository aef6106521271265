/-
The ready counts over runs of the scheduler.

A count is exact while the methods that guard it agree on what a ready action
is. They do not for an action that is blocked before its predecessors have
ended, for one that ends while it is among the blocked ones, and for one that
is blocked twice; as long as an operation does none of these, the counts stay
exact (`readyCounts_exact`).
-/
import Compss.Scheduler.Cascade
import Compss.Lib.Run
import Mathlib

namespace Compss.Scheduler

open Lib

variable {δ τ : Type}

namespace TaskScheduler

/-! ## Ready actions -/

/-- The action belongs to the core, waits for no data, has not ended and is
not blocked. -/
def Ready (s : TaskScheduler δ τ) (c : CoreId) (a : ActionId) : Prop :=
  (s.action a).coreId = some c ∧ s.predecessors a = [] ∧ (s.action a).isPending = true ∧ ¬ s.IsBlocked a

instance (s : TaskScheduler δ τ) (c : CoreId) (a : ActionId) : Decidable (s.Ready c a) :=
  inferInstanceAs (Decidable (_ ∧ _ ∧ _ ∧ _))

/-- How many registered actions of the core are ready. -/
def readyActions (s : TaskScheduler δ τ) (c : CoreId) : Nat := ((Finset.range s.nextId).filter (s.Ready c)).card

/-- The counts are those of the ready actions; none is negative. -/
def ReadyCountsExact (s : TaskScheduler δ τ) : Prop :=
  ∀ c, s.readyCounts c = s.readyActions c ∧ 0 ≤ s.readyCounts c

/-- The counts differ from those of the ready actions by `k`. -/
def Off (s : TaskScheduler δ τ) (k : CoreId → Int) : Prop := ∀ c, s.readyCounts c = s.readyActions c + k c

/-- One for the core of an action, nothing for an action without. -/
def one (core : Option CoreId) : CoreId → Int := fun c => if core = some c then 1 else 0

/-- The actions of a list, counted by their cores. -/
def counted (s : TaskScheduler δ τ) (l : List ActionId) : CoreId → Int :=
  fun c => (l.countP fun a => (s.action a).coreId = some c : Nat)

theorem Off.exact {s : TaskScheduler δ τ} (h : Off s 0) : s.ReadyCountsExact := by
  intro c
  have hc : s.readyCounts c = s.readyActions c := by simpa using h c
  exact ⟨hc, by omega⟩

section
variable {impls : CoreId → List τ} {s t : TaskScheduler δ τ} {a b : ActionId} {c : CoreId} {k : CoreId → Int}

theorem readyActions_congr (hn : t.nextId = s.nextId) (h : ∀ b < s.nextId, t.Ready c b ↔ s.Ready c b) :
    t.readyActions c = s.readyActions c := by
  rw [readyActions, readyActions, hn]
  exact congrArg Finset.card (Finset.filter_congr fun b hb => h b (Finset.mem_range.mp hb))

/-- The actions of `l` have become ready, and no others. -/
theorem readyActions_add (hn : t.nextId = s.nextId) {l : List ActionId} (hl : l.Nodup)
    (hlt : ∀ b ∈ l, b < s.nextId) (hnot : ∀ b ∈ l, ¬ s.Ready c b)
    (h : ∀ b < s.nextId, t.Ready c b ↔ s.Ready c b ∨ b ∈ l ∧ (s.action b).coreId = some c) :
    (t.readyActions c : Int) = s.readyActions c + counted s l c := by
  have hset : (Finset.range t.nextId).filter (t.Ready c) =
      (Finset.range s.nextId).filter (s.Ready c) ∪
        (l.filter fun b => (s.action b).coreId = some c).toFinset := by
    ext b
    simp only [Finset.mem_filter, Finset.mem_range, Finset.mem_union, List.mem_toFinset, List.mem_filter,
      decide_eq_true_eq, hn]
    constructor
    · rintro ⟨hb, hr⟩
      exact ((h b hb).mp hr).imp_left fun hr => ⟨hb, hr⟩
    · rintro (⟨hb, hr⟩ | hr)
      · exact ⟨hb, (h b hb).mpr (.inl hr)⟩
      · exact ⟨hlt b hr.1, (h b (hlt b hr.1)).mpr (.inr hr)⟩
  have hdisj : Disjoint ((Finset.range s.nextId).filter (s.Ready c))
      (l.filter fun b => (s.action b).coreId = some c).toFinset := by
    rw [Finset.disjoint_left]
    intro b hb hb'
    exact hnot b (List.mem_of_mem_filter (List.mem_toFinset.mp hb')) (Finset.mem_filter.mp hb).2
  rw [readyActions, hset, Finset.card_union_of_disjoint hdisj, List.toFinset_card_of_nodup (hl.filter _),
    ← List.countP_eq_length_filter]
  simp [readyActions, counted]

theorem counted_singleton (s : TaskScheduler δ τ) (a : ActionId) : counted s [a] = one (s.action a).coreId := by
  funext c
  simp only [counted, one, List.countP_singleton]
  split <;> simp_all

/-- `a` was ready and is no longer. -/
theorem Off.of_not_ready (h : Off s k) (hn : t.nextId = s.nextId) (hc : t.readyCounts = s.readyCounts)
    (ha : a < s.nextId) (hcore : (t.action a).coreId = (s.action a).coreId)
    (hs : ∀ c, (s.action a).coreId = some c → s.Ready c a) (ht : ∀ c, ¬ t.Ready c a)
    (hrest : ∀ c, ∀ b ≠ a, t.Ready c b ↔ s.Ready c b) : Off t (k + one (s.action a).coreId) := by
  intro c
  have hadd := readyActions_add (s := t) (t := s) hn.symm (c := c) (List.nodup_singleton a)
    (by simpa [hn] using ha) (by simpa using ht c) fun b _ => by
      by_cases hba : b = a
      · subst hba
        simp only [ht c, false_or, List.mem_singleton, true_and]
        exact ⟨fun hr => hcore ▸ hr.1, fun hr => hs c (hcore ▸ hr)⟩
      · simp [hba, hrest c b hba]
  rw [counted_singleton, hcore] at hadd
  have := h c
  simp only [Pi.add_apply]
  rw [hc]
  omega

/-- Nothing has changed that makes an action ready. -/
theorem Off.congr (h : Off s k) (hn : t.nextId = s.nextId) (hc : t.readyCounts = s.readyCounts)
    (hr : ∀ c, ∀ b < s.nextId, t.Ready c b ↔ s.Ready c b) : Off t k := by
  intro c
  rw [hc, readyActions_congr hn (hr c)]
  exact h c

theorem Frame.isBlocked (hf : Frame s t) (ha : a < s.nextId) : t.IsBlocked a ↔ s.IsBlocked a := by
  rw [IsBlocked, IsBlocked, hf.blockedActions, Action.coreId, hf.kind a ha]
  rfl

theorem Frame.ready (hf : Frame s t) (ha : a < s.nextId) : t.Ready c a ↔ s.Ready c a := by
  rw [Ready, Ready, hf.isBlocked ha, hf.predecessors a ha, hf.isPending a ha, Action.coreId, hf.kind a ha]
  rfl

theorem Off.frame (h : Off s k) (hf : Frame s t) : Off t k := by
  intro c
  have hset : (Finset.range t.nextId).filter (t.Ready c) = (Finset.range s.nextId).filter (s.Ready c) := by
    ext b
    simp only [Finset.mem_filter, Finset.mem_range]
    by_cases hb : b < s.nextId
    · simp only [hb, hf.ready hb, hb.trans_le hf.nextId_le]
    · refine ⟨fun ⟨hbt, hr⟩ => ?_, fun hr => absurd hr.1 hb⟩
      have := hf.coreless b (Nat.le_of_not_lt hb) hbt
      rw [hr.1] at this
      cases this
  rw [hf.readyCounts, readyActions, hset]
  exact h c

end

/-! ## Counting and blocking -/

section
variable (ctx : Ctx δ τ) {impls : CoreId → List τ} {s t : TaskScheduler δ τ} {a b : ActionId} {c : CoreId}
  {k : CoreId → Int}

/-- The counts with `k` added. -/
def recount (s : TaskScheduler δ τ) (k : CoreId → Int) : TaskScheduler δ τ :=
  { s with readyCounts := s.readyCounts + k }

theorem Sound.recount (hs : Sound impls s) (k : CoreId → Int) : Sound impls (recount s k) := { hs with }

theorem Off.recount (h : Off s k) (k' : CoreId → Int) : Off (recount s k') (k + k') := by
  intro c
  have := h c
  change s.readyCounts c + k' c = s.readyActions c + (k c + k' c)
  omega

@[simp] theorem one_none : one none = 0 := by
  funext c
  simp [one]

@[simp] theorem recount_zero (s : TaskScheduler δ τ) : recount s 0 = s := by
  simp [recount]

theorem update_add (counts : CoreId → Int) (c : CoreId) :
    Function.update counts c (counts c + 1) = counts + one (some c) := by
  funext d
  by_cases hd : d = c
  · subst hd; simp [one]
  · simp [one, hd, Ne.symm hd]

theorem update_sub (counts : CoreId → Int) (c : CoreId) :
    Function.update counts c (counts c - 1) = counts + -one (some c) := by
  funext d
  by_cases hd : d = c
  · subst hd; simp [one, Int.sub_eq_add_neg]
  · simp [one, hd, Ne.symm hd]

theorem addToReady_run (a : ActionId) (s : TaskScheduler δ τ) :
    addToReady a s = .ok () (recount s (one (s.action a).coreId)) := by
  rw [addToReady, Java.bind_ok (Java.get_run s)]
  cases hc : (s.action a).coreId with
  | none =>
    conv_lhs => simp only [hc]
    rw [one_none, recount_zero]
    rfl
  | some c =>
    conv_lhs => simp only [hc]
    rw [recount, ← update_add]
    rfl

/-- The first implementation of an action has the action's core. -/
theorem Action.Proper.implementations {x : Action τ} (hp : x.Proper ctx.coreImplementations) :
    ∃ impl impls, x.implementations ctx = impl :: impls ∧ impl.coreId = x.coreId := by
  rw [Action.Proper] at hp
  rw [Action.implementations, Action.coreId]
  cases hk : x.kind with
  | execution c appId hasPriority =>
    simp only [hk] at hp
    obtain ⟨r, rs, hr⟩ := List.exists_cons_of_ne_nil hp
    simp [Ctx.implementationsOf, hr, List.mapIdx_cons]
  | startWorker w impl | stopWorker w impl =>
    simp only [hk] at hp
    exact ⟨impl, [], rfl, hp⟩
  | reduceWorker w impl ru => simp only [hk] at hp

theorem removeFromReady_run (hp : (s.action a).Proper ctx.coreImplementations) :
    removeFromReady ctx a s = .ok () (recount s (-one (s.action a).coreId)) := by
  obtain ⟨impl, impls, hi, hc⟩ := Action.Proper.implementations ctx hp
  rw [removeFromReady, Java.bind_ok (Java.get_run s)]
  conv_lhs => simp only [hi, hc]
  cases hc : (s.action a).coreId with
  | none =>
    rw [show -one none = 0 by funext c; simp, recount_zero]
    rfl
  | some c =>
    rw [recount, ← update_sub]
    rfl

theorem Sound.block (hs : Sound impls s) (ha : a < s.nextId) {c : CoreId} (hc : (s.action a).coreId = some c)
    (hp : (s.action a).isPending = true) (hpred : s.predecessors a = [])
    (hn : ¬ s.HasNullCandidate (s.action a)) (hb : ¬ s.IsBlocked a) : Sound impls (block s a) :=
  { hs with
    blocked := fun d b hbd => by
      simp only [TaskScheduler.block, hc, ActionSet.addAction, Function.update_apply] at hbd
      split at hbd
      · next hd =>
        subst hd
        rcases List.mem_append.mp hbd with hbd | hbd
        · exact hs.blocked d b hbd
        · rw [List.mem_singleton.mp hbd]
          exact ⟨ha, hc, hp, hpred, hn⟩
      · exact hs.blocked d b hbd
    nodup_blocked := fun d => by
      simp only [TaskScheduler.block, hc, ActionSet.addAction, Function.update_apply]
      split
      · next hd =>
        subst hd
        have hnot : a ∉ s.blockedActions.coreIndexed d := by
          rw [IsBlocked, hc] at hb
          exact hb
        refine List.nodup_append.mpr ⟨hs.nodup_blocked d, by simp, fun b hbd e he => ?_⟩
        rw [List.mem_singleton.mp he]
        rintro rfl
        exact hnot hbd
      · exact hs.nodup_blocked d
    noCore := by
      simp only [TaskScheduler.block, hc, ActionSet.addAction]
      exact hs.noCore }

/-- A ready action is blocked: it is one less of its core. -/
theorem Off.block (h : Off s k) (ha : a < s.nextId) (hr : ∀ c, (s.action a).coreId = some c → s.Ready c a) :
    Off (block s a) (k + one (s.action a).coreId) :=
  h.of_not_ready rfl rfl ha rfl hr (fun c hc => hc.2.2.2 (isBlocked_block.mpr (.inr rfl))) fun c b hba => by
    have : (TaskScheduler.block s a).IsBlocked b ↔ s.IsBlocked b := by rw [isBlocked_block]; simp [hba]
    rw [Ready, Ready, this]
    rfl

end

/-! ## Placing an action -/

section
variable (ctx : Ctx δ τ) {impls : CoreId → List τ} {s t : TaskScheduler δ τ} {a b : ActionId} {c : CoreId}
  {k : CoreId → Int} {score : Score}

/-- A registered action that is ready for its core, if it has one. -/
structure Waits (s : TaskScheduler δ τ) (a : ActionId) : Prop where
  lt : a < s.nextId
  predecessors : s.predecessors a = []
  isPending : (s.action a).isPending = true
  notBlocked : ¬ s.IsBlocked a

theorem Waits.ready (h : Waits s a) (hc : (s.action a).coreId = some c) : s.Ready c a :=
  ⟨hc, h.predecessors, h.isPending, h.notBlocked⟩

theorem Waits.frame (h : Waits s a) (hf : Frame s t) : Waits t a where
  lt := h.lt.trans_le hf.nextId_le
  predecessors := (hf.predecessors a h.lt).trans h.predecessors
  isPending := (hf.isPending a h.lt).trans h.isPending
  notBlocked := fun hb => h.notBlocked ((hf.isBlocked h.lt).mp hb)

theorem Waits.recount (h : Waits s a) (k : CoreId → Int) : Waits (recount s k) a :=
  ⟨h.lt, h.predecessors, h.isPending, h.notBlocked⟩

/-- From `s` to `t` the other actions that could be placed still can. -/
def Beside (s : TaskScheduler δ τ) (a : ActionId) (t : TaskScheduler δ τ) : Prop :=
  ∀ b ≠ a, Waits s b → ¬ s.HasNullCandidate (s.action b) →
    Waits t b ∧ ¬ t.HasNullCandidate (t.action b) ∧ (t.action b).coreId = (s.action b).coreId

theorem Frame.beside (hf : Frame s t) (a : ActionId) : Beside s a t := fun b _ hb hn =>
  ⟨hb.frame hf, fun h => hn (hf.hasNullCandidate b hb.lt h), by rw [Action.coreId, hf.kind b hb.lt]; rfl⟩

theorem beside_block (s : TaskScheduler δ τ) (a : ActionId) (k : CoreId → Int) :
    Beside s a (block (recount s k) a) := fun b hba hb hn =>
  ⟨⟨hb.lt, hb.predecessors, hb.isPending, fun h => (isBlocked_block.mp h).elim hb.notBlocked hba⟩, hn, rfl⟩

theorem AllExecuted.not_hasNullCandidate {x : Action τ} (h : s.AllExecuted x) : ¬ s.HasNullCandidate x := by
  obtain ⟨coreId, appId, priority, -, hall⟩ := h
  rintro ⟨he, p, hp, hn⟩
  have hc : x.isSchedulingConstrained = true := by
    rw [Action.isSchedulingConstrained, Bool.not_eq_true', List.isEmpty_eq_false_iff_exists_mem]
    exact ⟨p, hp⟩
  have hmem : none ∈ candidates s x coreId appId := by
    rw [candidates, he, if_neg (by decide), if_pos hc]
    exact List.mem_map.mpr ⟨p, hp, hn⟩
  obtain ⟨w, -, hw⟩ := hall none hmem
  cases hw

theorem AllExecuted.coreId_eq {x : Action τ} (h : s.AllExecuted x) : ∃ c, x.coreId = some c := by
  obtain ⟨c, appId, priority, hk, -⟩ := h
  exact ⟨c, by rw [Action.coreId, hk]⟩

theorem placeAction_cases (score : Score) (hs : Sound impls s) (ha : a < s.nextId) (unready : M δ τ Unit) :
    (s.AllExecuted (s.action a) ∧
      placeAction ctx a score unready s = (do unready; addToBlocked a : M δ τ Unit) s) ∨
    (¬ s.AllExecuted (s.action a) ∧ Within impls s a (placeAction ctx a score unready s)) := by
  rcases place_cases ctx score hs ha with ⟨hb, hr⟩ | ⟨hb, ⟨t, hr, ht⟩ | ⟨t, hr, ht⟩⟩
  · exact .inl ⟨hb, Java.tryCatch_error hr⟩
  · exact .inr ⟨hb, .inl ⟨t, Java.tryCatch_ok hr, ht⟩⟩
  · exact .inr ⟨hb, .inr ⟨t, (Java.tryCatch_error hr).trans rfl, ht⟩⟩

/-- The state when a ready action has been taken out of the counts and
blocked. -/
def unready (s : TaskScheduler δ τ) (a : ActionId) : TaskScheduler δ τ := block (recount s (-one (s.action a).coreId)) a

theorem unready_run (hp : (s.action a).Proper ctx.coreImplementations) :
    (do removeFromReady ctx a; addToBlocked a : M δ τ Unit) s = .ok () (unready s a) :=
  Java.bind_ok (removeFromReady_run ctx hp)

theorem Sound.unready (hs : Sound impls s) (hw : Waits s a) (hb : s.AllExecuted (s.action a)) :
    Sound impls (unready s a) := by
  obtain ⟨c, hc⟩ := hb.coreId_eq
  exact (hs.recount _).block hw.lt hc hw.isPending hw.predecessors hb.not_hasNullCandidate hw.notBlocked

theorem Off.unready (h : Off s k) (hw : Waits s a) : Off (unready s a) k := by
  have hoff := (h.recount (-one (s.action a).coreId)).block hw.lt fun c hc => (hw.recount _).ready hc
  have hk : k + -one (s.action a).coreId + one (s.action a).coreId = k := by funext d; simp
  exact hk ▸ hoff

/-- Placing a ready action keeps the counts as they are; it returns, unless
it meets a null candidate. -/
theorem placeAction_waits (score : Score) (hs : Sound ctx.coreImplementations s) (h : Off s k) (hw : Waits s a) :
    ∃ t, (placeAction ctx a score (removeFromReady ctx a) s = .ok () t ∨
        placeAction ctx a score (removeFromReady ctx a) s = .error .nullPointer t ∧ s.HasNullCandidate (s.action a)) ∧
      Sound ctx.coreImplementations t ∧ Off t k ∧ Beside s a t := by
  rcases placeAction_cases ctx score hs hw.lt (removeFromReady ctx a) with
    ⟨hb, hr⟩ | ⟨-, ⟨t, hr, hf, hst⟩ | ⟨t, hr, hn, hf, hst⟩⟩
  · exact ⟨_, .inl (hr.trans (unready_run ctx (hs.proper a hw.lt))), hs.unready hw hb, h.unready hw,
      beside_block s a _⟩
  · exact ⟨t, .inl hr, hst, h.frame hf, hf.beside a⟩
  · exact ⟨t, .inr ⟨hr, hn⟩, hst, h.frame hf, hf.beside a⟩

/-- An action that has not been counted is, and is placed. -/
theorem placeReady_waits (hs : Sound ctx.coreImplementations s) (h : Off s (k - one (s.action a).coreId))
    (hw : Waits s a) :
    ∃ t, (placeReady ctx a s = .ok () t ∨
        placeReady ctx a s = .error .nullPointer t ∧ s.HasNullCandidate (s.action a)) ∧
      Sound ctx.coreImplementations t ∧ Off t k ∧ Beside s a t := by
  have hready : placeReady ctx a s = (do
      placeAction ctx a ((← get).action a).actionScore (removeFromReady ctx a) : M δ τ Unit)
        (recount s (one (s.action a).coreId)) := by
    have hp : (s.action a).hasDataPredecessors = false := by
      simpa [Action.hasDataPredecessors, predecessors] using hw.predecessors
    rw [placeReady, Java.bind_ok (Java.get_run s), if_pos hp, Java.bind_ok (addToReady_run a s)]
  have hoff : Off (TaskScheduler.recount s (one (s.action a).coreId)) k := by
    have hoff := h.recount (one (s.action a).coreId)
    rwa [show k - one (s.action a).coreId + one (s.action a).coreId = k by funext d; simp] at hoff
  obtain ⟨t, hr, hst, ht, hbeside⟩ :=
    placeAction_waits ctx (s.action a).actionScore (hs.recount _) hoff (hw.recount _)
  rw [hready, Java.bind_ok (Java.get_run _)]
  exact ⟨t, hr, hst, ht, fun b hba hb hn => hbeside b hba (hb.recount _) hn⟩

/-- Actions taken back from the blocked ones are all placed. -/
theorem forM_placeReady : ∀ (l : List ActionId) {s : TaskScheduler δ τ}, l.Nodup →
    Sound ctx.coreImplementations s → (∀ b ∈ l, Waits s b ∧ ¬ s.HasNullCandidate (s.action b)) →
    Off s (-counted s l) →
    ∃ t, l.forM (placeReady ctx) s = .ok () t ∧ Sound ctx.coreImplementations t ∧ Off t 0
  | [], s, _, hs, _, h => ⟨s, rfl, hs, fun c => by simpa [counted] using h c⟩
  | a :: l, s, hn, hs, hl, h => by
    obtain ⟨hal, hn⟩ := List.nodup_cons.mp hn
    obtain ⟨hw, hnull⟩ := hl a (by simp)
    have hoff : Off s (-counted s l - one (s.action a).coreId) := by
      intro d
      have := h d
      have hcons : counted s (a :: l) d = counted s l d + one (s.action a).coreId d := by
        simp only [counted, one, List.countP_cons, decide_eq_true_eq]
        split <;> simp
      simp only [Pi.neg_apply, Pi.sub_apply] at this ⊢
      omega
    obtain ⟨t, hr, hst, ht, hbeside⟩ := placeReady_waits ctx hs hoff hw
    have hr := hr.resolve_right fun hr => hnull hr.2
    have hl' : ∀ b ∈ l, Waits t b ∧ ¬ t.HasNullCandidate (t.action b) ∧
        (t.action b).coreId = (s.action b).coreId := by
      intro b hb
      have hba : b ≠ a := by rintro rfl; exact hal hb
      exact hbeside b hba (hl b (by simp [hb])).1 (hl b (by simp [hb])).2
    have hcount : counted t l = counted s l := by
      funext d
      exact congrArg Nat.cast (List.countP_congr fun b hb => by rw [(hl' b hb).2.2])
    rw [← hcount] at ht
    obtain ⟨u, hu, hsu⟩ := forM_placeReady l hn hst (fun b hb => ⟨(hl' b hb).1, (hl' b hb).2.1⟩) ht
    exact ⟨u, (Java.bind_ok hr).trans hu, hsu⟩

end

/-! ## A new action -/

section
variable {impls : CoreId → List τ} {s s₀ t : TaskScheduler δ τ} {a n p : ActionId} {ps : List ActionId}
  {x : Action τ} {k : CoreId → Int}

/-- How far the new action `n` of `s₀` has been linked to its predecessors,
which are among `ps`. -/
structure Linking (impls : CoreId → List τ) (s₀ : TaskScheduler δ τ) (n : ActionId) (ps : List ActionId)
    (t : TaskScheduler δ τ) : Prop where
  sound : Sound impls t
  relinked : Relinked s₀ t
  readyCounts : t.readyCounts = s₀.readyCounts
  coreToWorkers : t.coreToWorkers = s₀.coreToWorkers
  predecessors : ∀ b ≠ n, t.predecessors b = s₀.predecessors b
  mem : ∀ p ∈ t.predecessors n, p ∈ ps ∧ (s₀.action p).isPending = true

/-- A new action: registered, never launched and in no set. -/
structure New (s : TaskScheduler δ τ) (n : ActionId) : Prop where
  lt : n < s.nextId
  runnable : (s.action n).state = .runnable
  fresh : (s.action n).executingResources = []
  notBlocked : ∀ c, n ∉ s.blockedActions.coreIndexed c

theorem New.relinked (h : New s n) (hr : Relinked s t) : New t n := by
  obtain ⟨ps, ss, hn⟩ := hr.action n
  exact ⟨by rw [hr.nextId]; exact h.lt, by rw [hn]; exact h.runnable, by rw [hn]; exact h.fresh,
    by rw [hr.blockedActions]; exact h.notBlocked⟩

theorem New.not_launched (h : New s n) : ¬ (s.action n).Launched := by
  simp [Action.Launched, h.runnable, h.fresh]

theorem New.isPending (h : New s n) : (s.action n).isPending = true := by
  simp [Action.isPending, h.runnable]

theorem Relinked.setLinks (h : Relinked s t) (a : ActionId) (ps : List ActionId) (ss : LinkedList ActionId) :
    Relinked s (t.setAction a { t.action a with dataPredecessors := ps, dataSuccessors := ss }) where
  nextId := h.nextId
  resource := h.resource
  blockedActions := h.blockedActions
  action := forall_setAction
    (P := fun b y => ∃ ps ss, y = { s.action b with dataPredecessors := ps, dataSuccessors := ss })
    (by obtain ⟨ps', ss', ha⟩ := h.action a; exact ⟨ps, ss, by rw [ha]⟩) fun b _ => h.action b

theorem Relinked.refl (s : TaskScheduler δ τ) : Relinked s s := ⟨rfl, rfl, rfl, fun _ => ⟨_, _, rfl⟩⟩

theorem Linking.addPredecessor (hn : New s₀ n) (h : Linking impls s₀ n ps t) (hp : p ∈ ps)
    (hpend : (t.action p).isPending = true) (hnot : p ∉ t.predecessors n) :
    Linking impls s₀ n ps
      (t.setAction n { t.action n with dataPredecessors := (t.action n).dataPredecessors ++ [p] }) := by
  have hnt := hn.relinked h.relinked
  have hpred : ∀ b, (t.setAction n { t.action n with
      dataPredecessors := (t.action n).dataPredecessors ++ [p] }).predecessors b =
        if b = n then t.predecessors n ++ [p] else t.predecessors b := by
    intro b
    rw [TaskScheduler.predecessors, setAction_action]
    split <;> rfl
  have hsucc : ∀ b, (t.setAction n { t.action n with
      dataPredecessors := (t.action n).dataPredecessors ++ [p] }).successors b = t.successors b :=
    forall_setAction (P := fun b y => y.dataSuccessors.elems = t.successors b) rfl fun _ _ => rfl
  refine {
    sound := h.sound.relink ((Relinked.refl t).setLinks n _ _) (fun q b hb => ?_) (fun q => ?_) (fun b => ?_)
      (fun q b hb => ?_) (fun b hb => ?_)
    relinked := h.relinked.setLinks n _ _
    readyCounts := h.readyCounts
    coreToWorkers := h.coreToWorkers
    predecessors := fun b hbn => by rw [hpred, if_neg hbn]; exact h.predecessors b hbn
    mem := fun q hq => ?_ }
  · have := h.sound.mirrored q b (hsucc q ▸ hb)
    rw [hpred]
    split
    · next he => subst he; exact List.mem_append_left _ this
    · exact this
  · rw [hsucc]; exact h.sound.nodup_successors q
  · rw [hpred]
    split
    · refine List.nodup_append.mpr ⟨h.sound.nodup_predecessors n, by simp, fun q hq r hr => ?_⟩
      rw [List.mem_singleton.mp hr]
      rintro rfl
      exact hnot hq
    · exact h.sound.nodup_predecessors b
  · exact h.sound.successor q b (hsucc q ▸ hb)
  · have hbn : b ≠ n := by
      rintro rfl
      rcases hb with hl | ⟨c, hc⟩
      · exact hnt.not_launched hl
      · exact hnt.notBlocked c hc
    rw [hpred, if_neg hbn]
    rcases hb with hl | ⟨c, hc⟩
    · exact h.sound.launched b hl
    · exact (h.sound.blocked c b hc).2.2.2.1
  · rw [hpred, if_pos rfl] at hq
    rcases List.mem_append.mp hq with hq | hq
    · exact h.mem q hq
    · rw [List.mem_singleton.mp hq]
      exact ⟨hp, by rw [← h.relinked.isPending]; exact hpend⟩

theorem Linking.addSuccessor (hn : New s₀ n) (h : Linking impls s₀ n ps t) (hp : p ∈ t.predecessors n)
    (hnot : n ∉ t.successors p) :
    Linking impls s₀ n ps
      (t.setAction p { t.action p with dataSuccessors := (t.action p).dataSuccessors.add n }) := by
  have hnt := hn.relinked h.relinked
  have hsucc : ∀ b, (t.setAction p { t.action p with
      dataSuccessors := (t.action p).dataSuccessors.add n }).successors b =
        if b = p then t.successors p ++ [n] else t.successors b := by
    intro b
    rw [successors, setAction_action]
    split <;> rfl
  have hpred : ∀ b, (t.setAction p { t.action p with
      dataSuccessors := (t.action p).dataSuccessors.add n }).predecessors b = t.predecessors b :=
    forall_setAction (P := fun b y => y.dataPredecessors = t.predecessors b) rfl fun _ _ => rfl
  have hmem : ∀ q b, b ∈ (t.setAction p { t.action p with
      dataSuccessors := (t.action p).dataSuccessors.add n }).successors q → b ∈ t.successors q ∨ q = p ∧ b = n := by
    intro q b hb
    rw [hsucc] at hb
    split at hb
    · next he =>
      subst he
      exact (List.mem_append.mp hb).imp id fun hb => ⟨rfl, List.mem_singleton.mp hb⟩
    · exact .inl hb
  refine {
    sound := h.sound.relink ((Relinked.refl t).setLinks p _ _) (fun q b hb => ?_) (fun q => ?_) (fun b => ?_)
      (fun q b hb => ?_) (fun b hb => ?_)
    relinked := h.relinked.setLinks p _ _
    readyCounts := h.readyCounts
    coreToWorkers := h.coreToWorkers
    predecessors := fun b hbn => by rw [hpred]; exact h.predecessors b hbn
    mem := fun q hq => h.mem q (hpred n ▸ hq) }
  · rw [hpred]
    rcases hmem q b hb with hb | ⟨rfl, rfl⟩
    · exact h.sound.mirrored q b hb
    · exact hp
  · rw [hsucc]
    split
    · refine List.nodup_append.mpr ⟨h.sound.nodup_successors p, by simp, fun b hb r hr => ?_⟩
      rw [List.mem_singleton.mp hr]
      rintro rfl
      exact hnot hb
    · exact h.sound.nodup_successors q
  · rw [hpred]; exact h.sound.nodup_predecessors b
  · rcases hmem q b hb with hb | ⟨rfl, rfl⟩
    · exact h.sound.successor q b hb
    · exact ⟨hnt.lt, hnt.isPending⟩
  · rw [hpred]
    rcases hb with hl | ⟨c, hc⟩
    · exact h.sound.launched b hl
    · exact (h.sound.blocked c b hc).2.2.2.1

/-- Linking the new action to one more predecessor, when it is pending. -/
theorem addDataPredecessor_run (hn : New s₀ n) (h : Linking impls s₀ n ps t) (hp : p ∈ ps) (hpn : p ≠ n) :
    ∃ u, addDataPredecessor n p t = .ok () u ∧ Linking impls s₀ n ps u := by
  rw [addDataPredecessor, Java.bind_ok (Java.get_run t)]
  by_cases hpend : (t.action p).isPending = true
  · have hfirst : ∃ u, t.setAction n (if p ∈ (t.action n).dataPredecessors then t.action n
          else { t.action n with dataPredecessors := (t.action n).dataPredecessors ++ [p] }) = u ∧
        Linking impls s₀ n ps u ∧ p ∈ u.predecessors n := by
      refine ⟨_, rfl, ?_⟩
      split
      · next hmem => rw [setAction_eq_self]; exact ⟨h, hmem⟩
      · next hmem => exact ⟨h.addPredecessor hn hp hpend hmem, by simp [predecessors]⟩
    obtain ⟨u, hu, hlink, hmem⟩ := hfirst
    rw [if_pos hpend, Java.bind_ok (modifyAction_run ..), hu, modifyAction_run]
    refine ⟨_, rfl, ?_⟩
    split
    · rw [setAction_eq_self]; exact hlink
    · next hnot => exact hlink.addSuccessor hn hmem hnot
  · rw [if_neg hpend]
    exact ⟨t, rfl, h⟩

/-- A new action is linked to those of the given predecessors that are
pending. -/
theorem forM_addDataPredecessor (hn : New s₀ n) : ∀ (l : List ActionId) {t : TaskScheduler δ τ},
    Linking impls s₀ n ps t → (∀ p ∈ l, p ∈ ps ∧ p ≠ n) →
    ∃ u, l.forM (addDataPredecessor n) t = .ok () u ∧ Linking impls s₀ n ps u
  | [], t, h, _ => ⟨t, rfl, h⟩
  | p :: l, t, h, hl => by
    obtain ⟨u, hu, hlink⟩ := addDataPredecessor_run hn h (hl p (by simp)).1 (hl p (by simp)).2
    obtain ⟨v, hv, hlinkv⟩ := forM_addDataPredecessor hn l hlink fun q hq => hl q (by simp [hq])
    exact ⟨v, (Java.bind_ok hu).trans hv, hlinkv⟩

theorem created_action (s : TaskScheduler δ τ) (x : Action τ) (b : ActionId) :
    (created s x).action b = if b = s.nextId then x else s.action b := setAction_action ..

theorem new_created (hs : Sound impls s) (hr : x.state = .runnable) (he : x.executingResources = []) :
    New (created s x) s.nextId where
  lt := Nat.lt_succ_self _
  runnable := by rw [created_action, if_pos rfl]; exact hr
  fresh := by rw [created_action, if_pos rfl]; exact he
  notBlocked c hc := Nat.lt_irrefl _ (hs.blocked c _ hc).1

/-- A new action is counted with those of its core, unless it has
predecessors. -/
theorem Off.created (hs : Sound impls s) (h : Off s k) (hr : x.state = .runnable) (hp : x.dataPredecessors = []) :
    Off (created s x) (k - one x.coreId) := by
  intro c
  have hold : ∀ b ∈ Finset.range s.nextId, ((TaskScheduler.created s x).Ready c b ↔ s.Ready c b) := by
    intro b hb
    have hne : b ≠ s.nextId := Nat.ne_of_lt (Finset.mem_range.mp hb)
    simp only [Ready, IsBlocked, TaskScheduler.predecessors, created_action, if_neg hne]
    rfl
  have hnew : (TaskScheduler.created s x).Ready c s.nextId ↔ x.coreId = some c := by
    simp only [Ready, IsBlocked, TaskScheduler.predecessors, created_action, if_true, hp, true_and]
    refine ⟨fun h => h.1, fun hc => ⟨hc, by simp [Action.isPending, hr], fun hb => ?_⟩⟩
    rw [hc] at hb
    exact Nat.lt_irrefl _ (hs.blocked c _ hb).1
  have hcard : ((TaskScheduler.created s x).readyActions c : Int) = s.readyActions c + one x.coreId c := by
    rw [readyActions, show (TaskScheduler.created s x).nextId = s.nextId + 1 from rfl, Finset.range_add_one,
      Finset.filter_insert, Finset.filter_congr hold]
    by_cases hc : x.coreId = some c
    · rw [if_pos (hnew.mpr hc), Finset.card_insert_of_notMem (by simp)]
      simp [readyActions, one, hc]
    · rw [if_neg fun hn => hc (hnew.mp hn)]
      simp [readyActions, one, hc]
  have := h c
  change s.readyCounts c = _
  rw [hcard]
  simp only [Pi.sub_apply]
  omega

/-- The links of a new action: it is not ready when it has a predecessor. -/
theorem Linking.off (hn : New s₀ n) (h : Linking impls s₀ n ps t) (hp : s₀.predecessors n = [])
    (hoff : Off s₀ (-one (s₀.action n).coreId)) :
    Off t (if t.predecessors n = [] then -one (s₀.action n).coreId else 0) := by
  have hblocked : ∀ b, t.IsBlocked b ↔ s₀.IsBlocked b := fun b => by
    rw [IsBlocked, IsBlocked, h.relinked.blockedActions, h.relinked.coreId]
  have hready : ∀ c, ∀ b ≠ n, t.Ready c b ↔ s₀.Ready c b := fun c b hb => by
    rw [Ready, Ready, hblocked, h.relinked.coreId, h.relinked.isPending, h.predecessors b hb]
  split
  · next hnil =>
    refine hoff.congr h.relinked.nextId h.readyCounts fun c b _ => ?_
    by_cases hb : b = n
    · subst hb
      rw [Ready, Ready, hblocked, h.relinked.coreId, h.relinked.isPending, hnil, hp]
    · exact hready c b hb
  · next hne =>
    have hcore := h.relinked.coreId n
    have := hoff.of_not_ready h.relinked.nextId h.readyCounts hn.lt hcore
      (fun c hc => ⟨hc, hp, hn.isPending, fun hb => hn.notBlocked c (by rw [IsBlocked, hc] at hb; exact hb)⟩)
      (fun c hc => hne hc.2.1) hready
    have hk : -one (s₀.action n).coreId + one (s₀.action n).coreId = 0 := by funext d; simp
    exact hk ▸ this

theorem newExecutionAction_run (hs : Sound impls s) (coreId : CoreId) (appId : Int) (hasPriority : Bool)
    {constraining : List ActionId} (enforced : Option WorkerId) (hi : impls coreId ≠ [])
    (hc : s.nextId ∉ constraining) (hp : ∀ p ∈ ps, p ≠ s.nextId) :
    ∃ t, newExecutionAction coreId appId hasPriority constraining enforced ps s = .ok s.nextId t ∧
      Linking impls (created s (Action.new (.execution coreId appId hasPriority) constraining enforced)) s.nextId ps t := by
  have hnew := new_created hs (x := Action.new (.execution coreId appId hasPriority) constraining enforced) rfl rfl
  have hlink : Linking impls (created s (Action.new (.execution coreId appId hasPriority) constraining enforced))
      s.nextId ps (created s (Action.new (.execution coreId appId hasPriority) constraining enforced)) :=
    { sound := hs.created hc hi
      relinked := .refl _
      readyCounts := rfl
      coreToWorkers := rfl
      predecessors := fun _ _ => rfl
      mem := fun p hp => by simp [predecessors, created_action, Action.new] at hp }
  obtain ⟨t, ht, hlinkt⟩ := forM_addDataPredecessor hnew ps hlink fun p hp' => ⟨hp', hp p hp'⟩
  refine ⟨t, ?_, hlinkt⟩
  rw [newExecutionAction, Java.bind_ok (Java.get_run s), Java.bind_ok (Java.modify_run _ _)]
  exact (Java.bind_ok ht).trans rfl

end

/-! ## The operations -/

section
variable (ctx : Ctx δ τ) {s t : TaskScheduler δ τ} {a n : ActionId} {k : CoreId → Int}

/-- The counts are exact, in a state that is sound. -/
def Exact (impls : CoreId → List τ) (s : TaskScheduler δ τ) : Prop := Sound impls s ∧ Off s 0

/-- An execution with a candidate that has not run it is not blocked. -/
def HasCandidate (s : TaskScheduler δ τ) (coreId : CoreId) (appId : Int) (constraining : List ActionId)
    (enforced : Option WorkerId) : Prop :=
  enforced.isSome ∨ constraining ≠ [] ∨ getCompatibleWorkers s coreId appId ≠ []

theorem HasCandidate.not_allExecuted {coreId : CoreId} {appId : Int} {hasPriority : Bool}
    {constraining : List ActionId} {enforced : Option WorkerId} {x : Action τ}
    (h : s.HasCandidate coreId appId constraining enforced) (hk : x.kind = .execution coreId appId hasPriority)
    (hc : x.constrainingPredecessors = constraining) (he : x.enforcedTargetResource = enforced)
    (hx : x.executingResources = []) : ¬ s.AllExecuted x := by
  rintro ⟨coreId', appId', priority, hk', hall⟩
  rw [hk] at hk'
  cases hk'
  have hnil : candidates s x coreId appId = [] := by
    rw [List.eq_nil_iff_forall_not_mem]
    intro o ho
    obtain ⟨w, hw, -⟩ := hall o ho
    rw [hx] at hw
    cases hw
  rw [candidates, Action.isTargetResourceEnforced, Action.isSchedulingConstrained, hc, he] at hnil
  split at hnil
  · cases hnil
  · next hne =>
    split at hnil
    · next hcons =>
      rw [List.map_eq_nil_iff] at hnil
      simp [hnil] at hcons
    · next hcons =>
      rcases h with h | h | h
      · exact hne h
      · exact hcons (by simpa using h)
      · exact h (List.map_eq_nil_iff.mp hnil)

theorem New.not_isBlocked (h : New s n) (hs : Sound ctx.coreImplementations s) : ¬ s.IsBlocked n := by
  intro hb
  rw [IsBlocked] at hb
  cases hc : (s.action n).coreId with
  | none =>
    rw [hc] at hb
    change n ∈ s.blockedActions.noCore at hb
    rw [hs.noCore] at hb
    cases hb
  | some c => exact h.notBlocked c (by rw [hc] at hb; exact hb)

theorem newAllocatableAction_exact {coreId : CoreId} {appId : Int} {hasPriority : Bool}
    {constraining ps : List ActionId} {enforced : Option WorkerId} (hs : Exact ctx.coreImplementations s)
    (hi : ctx.coreImplementations coreId ≠ []) (hc : s.nextId ∉ constraining) (hp : ∀ p ∈ ps, p ≠ s.nextId)
    (hfree : (∃ p ∈ ps, (s.action p).isPending = true) → s.HasCandidate coreId appId constraining enforced) :
    Exact ctx.coreImplementations (Java.final ((do
      let a ← newExecutionAction coreId appId hasPriority constraining enforced ps
      newAllocatableAction ctx a : M δ τ Unit) s)) := by
  obtain ⟨t, ht, hlink⟩ := newExecutionAction_run hs.1 coreId appId hasPriority enforced hi hc hp
  generalize hx : Action.new (.execution coreId appId hasPriority) constraining enforced = x at hlink
  have hn : (created s x).action s.nextId = x := by rw [created_action, if_pos rfl]
  have hnew : New (created s x) s.nextId := new_created hs.1 (hx ▸ rfl) (hx ▸ rfl)
  have hoff := hlink.off hnew (by rw [predecessors, hn, ← hx]; rfl)
    (by rw [hn, ← zero_sub]; exact hs.2.created hs.1 (hx ▸ rfl) (hx ▸ rfl))
  have hnt := hnew.relinked hlink.relinked
  have hcore := hlink.relinked.coreId s.nextId
  rw [Java.bind_ok ht, newAllocatableAction]
  by_cases hnil : t.predecessors s.nextId = []
  · -- counted by `addToReady`
    rw [if_pos hnil, ← hcore, ← zero_sub] at hoff
    obtain ⟨u, hr, hsu, hu, -⟩ := placeReady_waits ctx hlink.sound hoff
      ⟨hnt.lt, hnil, hnt.isPending, hnt.not_isBlocked ctx hlink.sound⟩
    rcases hr with hr | ⟨hr, -⟩ <;> rw [hr] <;> exact ⟨hsu, hu⟩
  · -- not counted, and not blocked
    rw [if_neg hnil] at hoff
    obtain ⟨p, hpt⟩ := List.exists_mem_of_ne_nil _ hnil
    obtain ⟨hps, hpend⟩ := hlink.mem p hpt
    rw [created_action, if_neg (hp p hps)] at hpend
    have hcand : t.HasCandidate coreId appId constraining enforced := by
      have := hfree ⟨p, hps, hpend⟩
      rwa [HasCandidate, getCompatibleWorkers, hlink.relinked.resource, hlink.coreToWorkers]
    obtain ⟨ps', ss', hnx⟩ := hlink.relinked.action s.nextId
    have hnot : ¬ t.AllExecuted (t.action s.nextId) := by
      rw [hnx, hn, ← hx]
      exact hcand.not_allExecuted rfl rfl rfl rfl
    have hdep : ¬ (t.action s.nextId).hasDataPredecessors = false := by
      simpa [Action.hasDataPredecessors, predecessors] using hnil
    have hplace : placeReady ctx s.nextId t =
        placeAction ctx s.nextId (t.action s.nextId).actionScore (removeFromReady ctx s.nextId) t := by
      rw [placeReady, Java.bind_ok (Java.get_run t), if_neg hdep]
      rfl
    rw [hplace]
    rcases placeAction_cases ctx (t.action s.nextId).actionScore hlink.sound hnt.lt
      (removeFromReady ctx s.nextId) with ⟨hb, -⟩ | ⟨-, ⟨u, hr, hf, hsu⟩ | ⟨u, hr, -, hf, hsu⟩⟩
    · exact absurd hb hnot
    all_goals rw [hr]; exact ⟨hsu, hoff.frame hf⟩

/-! ### The end of an action -/

/-- A worker's resources and running actions do not matter to the frame. -/
theorem modifyResource_keeps (w : WorkerId) (f : ResourceScheduler δ → ResourceScheduler δ)
    (hf : ∀ r, (f r).blocked = r.blocked) {impls : CoreId → List τ} :
    Java.Keeps (fun t => Frame s t ∧ Sound impls t) (modifyResource w f) := by
  intro t ht
  refine ⟨ht.1.setResource w _, ht.2.setResource w (fun b hb => ht.2.queued w b ?_) ?_⟩
  · rwa [hf] at hb
  · rw [hf]; exact ht.2.nodup_queue w

theorem releaseResources_keeps (w : WorkerId) (a : ActionId) {impls : CoreId → List τ} :
    Java.Keeps (fun t => Frame s t ∧ Sound impls t) (releaseResources ctx w a) := by
  refine .bind .get fun u => .ite (fun _ => ?_) fun _ => .pure _
  cases (u.action a).resourceConsumption with
  | none => exact .throw _
  | some c => exact modifyResource_keeps w (fun r => { r with myWorker := ctx.ops.endTask r.myWorker c }) fun _ => rfl

theorem leaveResource_frame {impls : CoreId → List τ} (state : ActionState)
    (hs : Sound impls (s.setAction a { s.action a with state := state })) :
    Frame (s.setAction a { s.action a with state := state }) (Java.final (leaveResource ctx a state s)) ∧
      Sound impls (Java.final (leaveResource ctx a state s)) := by
  rw [leaveResource, Java.bind_ok (modifyAction_run ..)]
  generalize s.setAction a { s.action a with state := state } = u at hs
  have hkeeps : ∀ x : M δ τ Unit, Java.Keeps (fun t => Frame u t ∧ Sound impls t) x →
      Frame u (Java.final (x u)) ∧ Sound impls (Java.final (x u)) := fun x hx => hx u ⟨Frame.refl _, hs⟩
  refine hkeeps _ (.bind .get fun v => ?_)
  cases (v.action a).selectedResource with
  | none => exact .throw _
  | some w =>
    refine .bind (releaseResources_keeps ctx w a) fun _ => .bind ?_ fun _ =>
      .bind .get fun _ => tryToLaunchBlockedActions_keeps ctx w _
    exact modifyResource_keeps w (fun r => { r with running := r.running.erase a }) fun _ => rfl

theorem doCompleted_run {impls : CoreId → List τ} (hp : (s.action a).Proper impls) :
    doCompleted ctx a s = .ok () { s with calls := .doCompleted a :: s.calls } := by
  rw [doCompleted, Java.bind_ok (call_run ..), Java.bind_ok (Java.get_run _)]
  rw [Action.Proper] at hp
  cases hk : (s.action a).kind with
  | execution | startWorker | stopWorker =>
    conv_lhs => simp only [hk]
    rfl
  | reduceWorker w impl ru => simp only [hk] at hp

/-- The successors of `l` without `a` among their predecessors. -/
def dataPredecessorsDone (s : TaskScheduler δ τ) (a : ActionId) (l : List ActionId) : TaskScheduler δ τ :=
  { s with action := fun b =>
      if b ∈ l then { s.action b with dataPredecessors := (s.action b).dataPredecessors.filter (· ≠ a) }
      else s.action b }

theorem releaseSuccessors_run (a : ActionId) : ∀ (l : List ActionId) (s : TaskScheduler δ τ),
    releaseSuccessors a l s =
      .ok (l.filter fun b => (s.predecessors b).filter (· ≠ a) = []) (dataPredecessorsDone s a l)
  | [], s => by simp [releaseSuccessors, dataPredecessorsDone]
  | b :: l, s => by
    have hdone : dataPredecessorDone b a s =
        .ok () (s.setAction b { s.action b with dataPredecessors := (s.predecessors b).filter (· ≠ a) }) := rfl
    generalize hu : s.setAction b { s.action b with dataPredecessors := (s.predecessors b).filter (· ≠ a) } = u at hdone
    have hpred : ∀ y, (u.predecessors y).filter (· ≠ a) = (s.predecessors y).filter (· ≠ a) := by
      intro y
      rw [← hu, predecessors, setAction_action]
      split
      · next hy => subst hy; simp
      · rfl
    have hub : u.predecessors b = (s.predecessors b).filter (· ≠ a) := by rw [← hu, predecessors, setAction_self]
    have hstate : dataPredecessorsDone u a l = dataPredecessorsDone s a (b :: l) := by
      rw [← hu]
      simp only [dataPredecessorsDone, TaskScheduler.setAction, mk.injEq, true_and, and_true]
      funext y
      by_cases hyb : y = b
      · subst hyb
        by_cases hyl : y ∈ l <;> simp [hyl, predecessors]
      · simp [hyb]
    have hrec := releaseSuccessors_run a l u
    simp only [hpred, hstate] at hrec
    rw [releaseSuccessors, Java.bind_ok hdone, Java.bind_ok (Java.get_run _)]
    by_cases hfree : (s.predecessors b).filter (· ≠ a) = []
    · have hnone : (u.action b).hasDataPredecessors = false := by
        rw [Action.hasDataPredecessors, show (u.action b).dataPredecessors = [] from hub.trans hfree]
        rfl
      rw [if_pos hnone, Java.bind_ok hrec, List.filter_cons_of_pos (by simpa using hfree)]
      rfl
    · have hsome : ¬ (u.action b).hasDataPredecessors = false := by
        rw [Action.hasDataPredecessors, show (u.action b).dataPredecessors = _ from hub]
        simpa using hfree
      rw [if_neg hsome, hrec, List.filter_cons_of_neg (by simpa using hfree)]

/-- The state after the successors of `a` have been released. -/
def released (s : TaskScheduler δ τ) (a : ActionId) : TaskScheduler δ τ :=
  let t := dataPredecessorsDone s a (s.successors a)
  t.setAction a { t.action a with dataSuccessors := (t.action a).dataSuccessors.clear }

/-- The actions freed with it. -/
def freed (s : TaskScheduler δ τ) (a : ActionId) : List ActionId :=
  (s.successors a).filter fun b => (s.predecessors b).filter (· ≠ a) = []

section
variable {impls : CoreId → List τ}

theorem released_predecessors (s : TaskScheduler δ τ) (a b : ActionId) :
    (released s a).predecessors b =
      if b ∈ s.successors a then (s.predecessors b).filter (· ≠ a) else s.predecessors b := by
  simp only [released, dataPredecessorsDone, predecessors, setAction_action]
  by_cases hb : b = a
  · subst hb
    rw [if_pos rfl]
    by_cases hs : b ∈ s.successors b <;> simp [hs]
  · rw [if_neg hb]
    by_cases hs : b ∈ s.successors a <;> simp [hs]

theorem released_successors (s : TaskScheduler δ τ) (a b : ActionId) :
    (released s a).successors b = if b = a then [] else s.successors b := by
  simp only [released, dataPredecessorsDone, successors, setAction_action]
  by_cases hb : b = a
  · simp [hb]
  · rw [if_neg hb, if_neg hb]
    by_cases hs : b ∈ (s.action a).dataSuccessors.elems <;> simp [hs]

theorem relinked_released (s : TaskScheduler δ τ) (a : ActionId) : Relinked s (released s a) where
  nextId := rfl
  resource := rfl
  blockedActions := rfl
  action := by
    refine forall_setAction
      (P := fun b y => ∃ ps ss, y = { s.action b with dataPredecessors := ps, dataSuccessors := ss }) ?_ fun b _ => ?_
    · simp only [dataPredecessorsDone]
      split
      · exact ⟨_, _, rfl⟩
      · exact ⟨_, _, rfl⟩
    · simp only [dataPredecessorsDone]
      split
      · exact ⟨_, _, rfl⟩
      · exact ⟨_, _, rfl⟩

theorem Sound.released (hs : Sound impls s) (a : ActionId) : Sound impls (released s a) := by
  have hsub : ∀ p b, b ∈ (TaskScheduler.released s a).successors p → p ≠ a ∧ b ∈ s.successors p := by
    intro p b hb
    rw [released_successors] at hb
    split at hb
    · cases hb
    · exact ⟨‹_›, hb⟩
  refine hs.relink (relinked_released s a) (fun p b hb => ?_) (fun p => ?_) (fun b => ?_) (fun p b hb => ?_)
    fun b hb => ?_
  · obtain ⟨hpa, hb⟩ := hsub p b hb
    have hp := hs.mirrored p b hb
    rw [released_predecessors]
    split
    · exact List.mem_filter.mpr ⟨hp, by simpa using hpa⟩
    · exact hp
  · rw [released_successors]
    split
    · exact List.nodup_nil
    · exact hs.nodup_successors p
  · rw [released_predecessors]
    split
    · exact (hs.nodup_predecessors b).filter _
    · exact hs.nodup_predecessors b
  · exact hs.successor p b (hsub p b hb).2
  · have hnil : s.predecessors b = [] := hb.elim (hs.launched b) fun ⟨c, hc⟩ => (hs.blocked c b hc).2.2.2.1
    rw [released_predecessors, hnil]
    split <;> rfl

/-- The freed actions are ready, and not counted yet. -/
theorem Off.released (hs : Sound impls s) (h : Off s k) (a : ActionId) :
    Off (released s a) (k - counted s (freed s a)) := by
  have hrel := relinked_released s a
  have hmem : ∀ b ∈ s.successors a, b < s.nextId ∧ (s.action b).isPending = true ∧ s.predecessors b ≠ [] :=
    fun b hb => ⟨(hs.successor a b hb).1, (hs.successor a b hb).2, List.ne_nil_of_mem (hs.mirrored a b hb)⟩
  have hblocked : ∀ b, (TaskScheduler.released s a).IsBlocked b ↔ s.IsBlocked b := fun b => by
    rw [IsBlocked, IsBlocked, hrel.blockedActions, hrel.coreId]
  have hnot : ∀ c, ∀ b ∈ s.successors a, (s.action b).coreId = some c → ¬ s.IsBlocked b := by
    intro c b hb hc hblk
    rw [IsBlocked, hc] at hblk
    exact (hmem b hb).2.2 (hs.blocked c b hblk).2.2.2.1
  intro c
  have hadd := readyActions_add (s := s) (t := TaskScheduler.released s a) (c := c) (l := freed s a) rfl
    ((hs.nodup_successors a).filter _) (fun b hb => (hmem b (List.mem_of_mem_filter hb)).1)
    (fun b hb hr => (hmem b (List.mem_of_mem_filter hb)).2.2 hr.2.1) fun b _ => by
      rw [Ready, Ready, hrel.coreId, hrel.isPending, hblocked, released_predecessors]
      by_cases hb : b ∈ s.successors a
      · simp only [hb, if_true, freed, List.mem_filter, true_and, (hmem b hb).2.2, false_and, and_false, false_or,
          decide_eq_true_eq, (hmem b hb).2.1]
        exact ⟨fun h => ⟨h.2.1, h.1⟩, fun h => ⟨h.2, h.1, hnot c b hb h.2⟩⟩
      · simp [hb, freed]
  have := h c
  change s.readyCounts c = _
  rw [hadd]
  simp only [Pi.sub_apply]
  omega

end

theorem forM_addToReady : ∀ (l : List ActionId) (s : TaskScheduler δ τ),
    l.forM addToReady s = .ok () (recount s (counted s l))
  | [], s => by
    have : counted s [] = 0 := by funext c; simp [counted]
    rw [this, recount_zero]
    rfl
  | a :: l, s => by
    have hcons : counted s (a :: l) = one (s.action a).coreId + counted s l := by
      funext c
      simp only [counted, one, List.countP_cons, decide_eq_true_eq, Pi.add_apply]
      split <;> simp [Int.add_comm]
    have hrec := forM_addToReady l (recount s (one (s.action a).coreId))
    refine (Java.bind_ok (addToReady_run a s)).trans (hrec.trans ?_)
    rw [hcons]
    simp only [recount, add_assoc]
    rfl

theorem not_allExecuted_of_constrained {x : Action τ} (hx : x.executingResources = [])
    (hc : x.isSchedulingConstrained = true ∨ x.isTargetResourceEnforced = true) : ¬ s.AllExecuted x := by
  rintro ⟨coreId, appId, priority, hk, hall⟩
  have hcand : s.HasCandidate coreId appId x.constrainingPredecessors x.enforcedTargetResource := by
    rcases hc with hc | hc
    · exact .inr (.inl (by simpa [Action.isSchedulingConstrained] using hc))
    · exact .inl hc
  exact hcand.not_allExecuted hk rfl rfl hx ⟨coreId, appId, priority, hk, hall⟩

theorem mem_of_mem_byScore {α : Type} {l : List (α × Option Score)} {x : α} (h : x ∈ byScore l) :
    ∃ score, (x, score) ∈ l := by
  obtain ⟨p, hp, rfl⟩ := List.mem_map.mp h
  exact ⟨p.2, (List.mem_insertionSort _).mp hp⟩

/-- Actions that have never run keep the counts exact when they are launched. -/
theorem handleDependencyFreeActions_exact (hs : Exact ctx.coreImplementations s) {l : List ActionId} (w : WorkerId)
    (hl : ∀ b ∈ l, b < s.nextId ∧ (s.action b).Fresh) :
    Exact ctx.coreImplementations (Java.final (handleDependencyFreeActions ctx l w s)) := by
  have hkeeps : Java.Keeps
      (fun t => Exact ctx.coreImplementations t ∧ ∀ b ∈ l, b < t.nextId ∧ (t.action b).Fresh)
      (handleDependencyFreeActions ctx l w) := by
    refine .bind .get fun u => .forM _ fun b hb t ⟨ht, htl⟩ => ?_
    obtain ⟨score, hb⟩ := mem_of_mem_byScore hb
    obtain ⟨b', hb', he⟩ := List.mem_map.mp hb
    obtain rfl := (Prod.mk.inj he).1
    have hframe : ∀ v, Frame t v → Sound ctx.coreImplementations v →
        Exact ctx.coreImplementations v ∧ ∀ b ∈ l, b < v.nextId ∧ (v.action b).Fresh := fun v hf hv =>
      ⟨⟨hv, ht.2.frame hf⟩, fun b hb => ⟨(htl b hb).1.trans_le hf.nextId_le, hf.fresh b (htl b hb).1 (htl b hb).2⟩⟩
    rcases tryToLaunch_cases ctx ht.1 (htl b' hb').1 (fun hr hc =>
      not_allExecuted_of_constrained ((htl b' hb').2 hr) hc) with ⟨v, hr, hf, hv⟩ | ⟨v, hr, -, hf, hv⟩
    all_goals rw [hr]; exact hframe v hf hv
  exact (hkeeps s ⟨hs, hl⟩).1

/-- An action that has run: registered, with a worker and nothing to wait for. -/
theorem Sound.waits_of_running {impls : CoreId → List τ} (hs : Sound impls s) (ha : a < s.nextId)
    (hr : (s.action a).state = .running) (hb : ¬ s.IsBlocked a) : Waits s a :=
  ⟨ha, hs.launched a (.inl hr), by simp [Action.isPending, hr], hb⟩

/-- The end of an action that was ready and is not blocked. -/
theorem Sound.ended {impls : CoreId → List τ} (hs : Sound impls s) (hw : Waits s a)
    (hr : (s.action a).state = .running) :
    Sound impls (s.setAction a { s.action a with state := .finished }) := by
  refine hs.setAction
    { hs.fits_self a with
      alike := ⟨rfl, rfl, rfl, rfl, rfl, id⟩
      launched := fun _ => hw.predecessors
      running := fun h => by cases h
      queued := fun v hv => absurd hv (hs.not_queued (by rw [hr]; decide) v)
      pending := .inr ⟨fun p hp => ?_, fun c hc => ?_⟩ }
  · have := hs.mirrored p a hp
    rw [hw.predecessors] at this
    cases this
  · refine hw.notBlocked ?_
    rw [IsBlocked, (hs.blocked c a hc).2.1]
    exact hc

theorem Off.ended (h : Off s (-one (s.action a).coreId)) (hw : Waits s a) {x : Action τ}
    (hk : x.kind = (s.action a).kind) (hx : x.isPending = false) : Off (s.setAction a x) 0 := by
  have hcore : ((s.setAction a x).action a).coreId = (s.action a).coreId := by
    rw [setAction_self, Action.coreId, hk]; rfl
  have := h.of_not_ready (t := s.setAction a x) rfl rfl hw.lt hcore (fun c hc => hw.ready hc)
    (fun c hc => by rw [Ready, setAction_self, hx] at hc; exact absurd hc.2.2.1 (by decide)) fun c b hb => by
      rw [Ready, Ready, IsBlocked, IsBlocked, predecessors, predecessors, setAction_action, if_neg hb]
      rfl
  have hk0 : -one (s.action a).coreId + one (s.action a).coreId = 0 := by funext d; simp
  exact hk0 ▸ this

/-- `completed`, once the queue of the worker has been tried. -/
theorem completed_run (hs : Sound ctx.coreImplementations s) (ha : a < s.nextId) :
    (do
      doCompleted ctx a
      let freeTasks ← releaseSuccessors a ((← get).action a).dataSuccessors.elems
      modifyAction a fun x => { x with dataSuccessors := x.dataSuccessors.clear }
      return freeTasks : M δ τ (List ActionId)) s =
    .ok (freed s a) (released { s with calls := .doCompleted a :: s.calls } a) := by
  rw [Java.bind_ok (doCompleted_run ctx (hs.proper a ha)), Java.bind_ok (Java.get_run _),
    Java.bind_ok (releaseSuccessors_run a _ _), Java.bind_ok (modifyAction_run ..)]
  rfl

theorem actionCompleted_exact (hs : Exact ctx.coreImplementations s) (ha : a < s.nextId)
    (hr : (s.action a).state = .running) (hb : ¬ s.IsBlocked a) :
    Exact ctx.coreImplementations (Java.final (actionCompleted ctx a s)) := by
  obtain ⟨w, hsel⟩ := Option.isSome_iff_exists.mp (hs.1.running a hr)
  obtain ⟨u, hu⟩ : ∃ u, u = recount s (-one (s.action a).coreId) := ⟨_, rfl⟩
  have hrun : actionCompleted ctx a s = (do
      let dataFreeActions ← completed ctx a
      dataFreeActions.forM addToReady
      handleDependencyFreeActions ctx dataFreeActions w : M δ τ Unit) u := by
    rw [actionCompleted, Java.bind_ok (removeFromReady_run ctx (hs.1.proper a ha)), Java.bind_ok (Java.get_run _), hu]
    conv_lhs => simp only [show (recount s (-one (s.action a).coreId)).action = s.action from rfl, hsel]
  have hact : u.action = s.action := by rw [hu]; rfl
  have hsu : Sound ctx.coreImplementations u := hu ▸ hs.1.recount _
  have hwu : Waits u a := hu ▸ (hs.1.waits_of_running ha hr hb).recount _
  have hoffu : Off u (-one (u.action a).coreId) := by
    have := hs.2.recount (-one (s.action a).coreId)
    rwa [zero_add, ← hu, ← hact] at this
  rw [← hact] at hr
  have hoff := hoffu.ended hwu (x := { u.action a with state := .finished }) rfl rfl
  obtain ⟨hf, hst⟩ := leaveResource_frame ctx .finished (hsu.ended hwu hr)
  rw [hrun, completed]
  cases hl : leaveResource ctx a .finished u with
  | error e t =>
    rw [hl, Java.final_error] at hf hst
    rw [Java.bind_error (Java.bind_error hl)]
    exact ⟨hst, hoff.frame hf⟩
  | ok _ t =>
    rw [hl, Java.final_ok] at hf hst
    have hat : a < t.nextId := hwu.lt.trans_le hf.nextId_le
    rw [Java.bind_ok ((Java.bind_ok hl).trans (completed_run ctx hst hat))]
    generalize hv : ({ t with calls := .doCompleted a :: t.calls } : TaskScheduler δ τ) = v
    have hsv : Sound ctx.coreImplementations v := hv ▸ { hst with }
    have hoffv : Off v 0 := hv ▸ hoff.frame { hf with }
    rw [show freed t a = freed v a by rw [← hv]; rfl, Java.bind_ok (forM_addToReady _ _)]
    have hcount : counted (released v a) (freed v a) = counted v (freed v a) := by
      funext c
      exact congrArg Nat.cast (List.countP_congr fun b _ => by rw [(relinked_released v a).coreId b])
    refine handleDependencyFreeActions_exact ctx ⟨(hsv.released a).recount _, ?_⟩ w fun b hb => ?_
    · have := (hoffv.released hsv a).recount (counted (released v a) (freed v a))
      rw [hcount] at this ⊢
      have hk : 0 - counted v (freed v a) + counted v (freed v a) = 0 := by funext c; simp
      exact hk ▸ this
    · have hmem := List.mem_of_mem_filter hb
      obtain ⟨ps, ss, hbv⟩ := (relinked_released v a).action b
      refine ⟨(hsv.successor a b hmem).1, fun _ => ?_⟩
      change ((released v a).action b).executingResources = []
      rw [hbv]
      by_contra hne
      exact List.ne_nil_of_mem (hsv.mirrored a b hmem) (hsv.launched b (.inr (.inr hne)))

/-! ### The failure of an action -/

section
variable {impls : CoreId → List τ}

theorem relinked_forgotten (a : ActionId) (l : List ActionId) (s : TaskScheduler δ τ) :
    Relinked s (forgotten a l s) where
  nextId := rfl
  resource := rfl
  blockedActions := rfl
  action b := by
    rw [forgotten]
    dsimp only
    split <;> exact ⟨_, _, rfl⟩

theorem forgotten_predecessors (a : ActionId) (l : List ActionId) (s : TaskScheduler δ τ) (b : ActionId) :
    (forgotten a l s).predecessors b = s.predecessors b := by
  simp only [predecessors, forgotten]
  split <;> rfl

theorem forgotten_successors (a : ActionId) (l : List ActionId) (s : TaskScheduler δ τ) (b : ActionId) :
    (forgotten a l s).successors b = if b ∈ l then (s.successors b).erase a else s.successors b := by
  simp only [successors, forgotten]
  split
  · exact LinkedList.remove_elems ..
  · rfl

/-- The action is out of every list of successors. -/
theorem Sound.not_mem_forgotten (hs : Sound impls s) (p : ActionId) :
    a ∉ (forgotten a (s.predecessors a) s).successors p := by
  rw [forgotten_successors]
  split
  · exact (hs.nodup_successors p).not_mem_erase
  · next hp => exact fun ha => hp (hs.mirrored p a ha)

theorem Sound.forgotten (hs : Sound impls s) : Sound impls (forgotten a (s.predecessors a) s) := by
  have hsub : ∀ p b, b ∈ (TaskScheduler.forgotten a (s.predecessors a) s).successors p → b ∈ s.successors p := by
    intro p b hb
    rw [forgotten_successors] at hb
    split at hb
    · exact List.mem_of_mem_erase hb
    · exact hb
  refine hs.relink (relinked_forgotten a _ s) (fun p b hb => ?_) (fun p => ?_) (fun b => ?_) (fun p b hb => ?_)
    fun b hb => ?_
  · rw [forgotten_predecessors]; exact hs.mirrored p b (hsub p b hb)
  · rw [forgotten_successors]
    split
    · exact (hs.nodup_successors p).erase a
    · exact hs.nodup_successors p
  · rw [forgotten_predecessors]; exact hs.nodup_predecessors b
  · exact hs.successor p b (hsub p b hb)
  · rw [forgotten_predecessors]
    exact hb.elim (hs.launched b) fun ⟨c, hc⟩ => (hs.blocked c b hc).2.2.2.1

/-- Cancelling takes the action off the queue it waits in. -/
theorem Sound.cancelled (hs : Sound impls s) :
    Sound impls (cancelled a s) ∧ ∀ v, a ∉ ((TaskScheduler.cancelled a s).resource v).blocked := by
  rw [TaskScheduler.cancelled]
  cases hsel : (s.action a).selectedResource with
  | none =>
    refine ⟨hs, fun v hv => ?_⟩
    have := (hs.queued v a hv).2
    rw [hsel] at this
    cases this
  | some w =>
    refine ⟨hs.dequeued w a, fun v hv => ?_⟩
    simp only [TaskScheduler.setResource, Function.update_apply] at hv
    split at hv
    · exact (hs.nodup_queue w).not_mem_erase hv
    · next hne =>
      have := (hs.queued v a hv).2
      rw [hsel] at this
      exact hne (Option.some.inj this).symm

/-- Withdrawing an action: its predecessors forget it, it leaves its queue,
it is failed. -/
theorem withdrawn_eq (a : ActionId) (s : TaskScheduler δ τ) : withdrawn a s =
    let t := cancelled a (forgotten a (s.predecessors a) s)
    t.setAction a { t.action a with state := .failed } := by
  have haction : (fun y => if y ∈ s.predecessors a then
        { (s.setAction a { s.action a with state := .failed }).action y with
          dataSuccessors := ((s.setAction a { s.action a with state := .failed }).action y).dataSuccessors.remove a }
      else (s.setAction a { s.action a with state := .failed }).action y) =
      Function.update (forgotten a (s.predecessors a) s).action a
        { (forgotten a (s.predecessors a) s).action a with state := .failed } := by
    funext y
    simp only [setAction_action, forgotten, Function.update_apply]
    by_cases hy : y = a
    · subst hy
      by_cases hp : y ∈ s.predecessors y <;> simp [hp]
    · simp [hy]
  have hsel := (relinked_forgotten a (s.predecessors a) s).selectedResource a
  rw [withdrawn, cancelled, cancelled, setAction_self, hsel]
  cases (s.action a).selectedResource with
  | none =>
    simp only [forgotten, setAction, mk.injEq, true_and, and_true] at haction ⊢
    exact haction
  | some w =>
    simp only [forgotten, setAction, setResource, mk.injEq, true_and, and_true] at haction ⊢
    exact haction

/-- An action that is in no set of blocked ones fails. -/
theorem Sound.withdrawn (hs : Sound impls s) (ha : ∀ c, a ∉ s.blockedActions.coreIndexed c) :
    Sound impls (withdrawn a s) := by
  obtain ⟨hsc, hqueue⟩ := (hs.forgotten (a := a)).cancelled (a := a)
  have hsucc : ∀ p, a ∉ (TaskScheduler.cancelled a (TaskScheduler.forgotten a (s.predecessors a) s)).successors p := by
    intro p
    rw [successors, cancelled_action]
    exact hs.not_mem_forgotten p
  have hblocked : (TaskScheduler.cancelled a (TaskScheduler.forgotten a (s.predecessors a) s)).blockedActions =
      s.blockedActions := by
    rw [TaskScheduler.cancelled]
    split <;> rfl
  rw [withdrawn_eq]
  refine hsc.setAction
    { hsc.fits_self a with
      alike := ⟨rfl, rfl, rfl, rfl, rfl, id⟩
      launched := fun hl => hsc.launched a (hl.elim (fun h => by cases h) fun h => h.elim (fun h => by cases h) fun h => .inr (.inr h))
      running := fun h => by cases h
      queued := fun v hv => absurd hv (hqueue v)
      pending := .inr ⟨hsucc, fun c => by rw [hblocked]; exact ha c⟩ }

end

theorem withdrawn_fields (a : ActionId) (s : TaskScheduler δ τ) : (withdrawn a s).nextId = s.nextId ∧
    (withdrawn a s).readyCounts = s.readyCounts ∧ (withdrawn a s).blockedActions = s.blockedActions := by
  rw [withdrawn, cancelled]
  split <;> exact ⟨rfl, rfl, rfl⟩

theorem withdrawn_ready {b : ActionId} (hb : b ≠ a) (c : CoreId) : (withdrawn a s).Ready c b ↔ s.Ready c b := by
  rw [Ready, Ready, IsBlocked, IsBlocked, withdrawn_predecessors, Action.isPending, withdrawn_state, if_neg hb,
    (withdrawn_fields a s).2.2, Action.coreId, withdrawn_kind]
  rfl

theorem not_ready_of_failed {b : ActionId} (hb : (s.action b).state = .failed) (c : CoreId) : ¬ s.Ready c b := by
  rintro ⟨-, -, hp, -⟩
  rw [Action.isPending, hb] at hp
  cases hp

/-- A ready action that is withdrawn is one less of its core. -/
theorem Off.withdrawn (h : Off s k) (hw : Waits s a) :
    Off (withdrawn a s) (k + one (s.action a).coreId) := by
  obtain ⟨hn, hc, -⟩ := withdrawn_fields a s
  refine h.of_not_ready hn hc hw.lt ?_ (fun c hc => hw.ready hc) (not_ready_of_failed ?_)
    fun c b hb => withdrawn_ready hb c
  · rw [Action.coreId, withdrawn_kind]; rfl
  · rw [withdrawn_state, if_pos rfl]

/-- An action with predecessors was not counted. -/
theorem Off.withdrawn_of_predecessors (h : Off s k) (hp : s.predecessors a ≠ []) :
    Off (TaskScheduler.withdrawn a s) k := by
  obtain ⟨hn, hc, -⟩ := withdrawn_fields a s
  refine h.congr hn hc fun c b _ => ?_
  by_cases hb : b = a
  · subst hb
    exact iff_of_false (not_ready_of_failed (by rw [withdrawn_state, if_pos rfl]) c) fun hr => hp hr.2.1
  · exact withdrawn_ready hb c

section
variable {impls : CoreId → List τ}

theorem Sound.settled (hs : Sound impls s) (hf : (s.action a).state = .failed) : Sound impls (settled a s) := by
  have hrel := (Relinked.refl s).setLinks a [] (s.action a).dataSuccessors.clear
  have hpred : ∀ b, (s.setAction a { s.action a with
      dataPredecessors := [], dataSuccessors := (s.action a).dataSuccessors.clear }).predecessors b =
        if b = a then [] else s.predecessors b := fun b => by
    rw [predecessors, setAction_action]
    split <;> rfl
  have hsub : ∀ p b, b ∈ (s.setAction a { s.action a with
      dataPredecessors := [], dataSuccessors := (s.action a).dataSuccessors.clear }).successors p →
        b ∈ s.successors p ∧ b ≠ a := by
    intro p b hb
    rw [successors, setAction_action] at hb
    split at hb
    · cases hb
    · refine ⟨hb, ?_⟩
      rintro rfl
      have := (hs.successor p b hb).2
      rw [Action.isPending, hf] at this
      cases this
  have hsound : Sound impls (s.setAction a { s.action a with
      dataPredecessors := [], dataSuccessors := (s.action a).dataSuccessors.clear }) := by
    refine hs.relink hrel (fun p b hb => ?_) (fun p => ?_) (fun b => ?_) (fun p b hb => ?_) fun b hb => ?_
    · rw [hpred, if_neg (hsub p b hb).2]
      exact hs.mirrored p b (hsub p b hb).1
    · rw [successors, setAction_action]
      split
      · exact List.nodup_nil
      · exact hs.nodup_successors p
    · rw [hpred]
      split
      · exact List.nodup_nil
      · exact hs.nodup_predecessors b
    · exact hs.successor p b (hsub p b hb).1
    · rw [hpred]
      split
      · rfl
      · rcases hb with hl | ⟨c, hc⟩
        · exact hs.launched b hl
        · exact (hs.blocked c b hc).2.2.2.1
  exact { hsound with }

theorem Off.settled (h : Off s k) (hf : (s.action a).state = .failed) : Off (settled a s) k := by
  refine h.congr rfl rfl fun c b _ => ?_
  by_cases hb : b = a
  · subst hb
    exact iff_of_false (not_ready_of_failed (by simp [TaskScheduler.settled, hf]) c) (not_ready_of_failed hf c)
  · have : (TaskScheduler.settled a s).action b = s.action b := (setAction_action ..).trans (if_neg hb)
    rw [Ready, Ready, IsBlocked, IsBlocked, predecessors, this]
    rfl

/-- A cascade keeps the counts, while the actions of `F` are failed. -/
structure Failing (impls : CoreId → List τ) (k : CoreId → Int) (F : List ActionId) (s : TaskScheduler δ τ) : Prop where
  sound : Sound impls s
  off : Off s k
  failed : ∀ x ∈ F, x < s.nextId ∧ (s.action x).state = .failed

theorem Failing.withdrawn {F : List ActionId} {k' : CoreId → Int} (h : Failing impls k F s) (ha : a < s.nextId)
    (hb : ∀ c, a ∉ s.blockedActions.coreIndexed c) (hoff : Off (withdrawn a s) k') :
    Failing impls k' (a :: F) (withdrawn a s) where
  sound := h.sound.withdrawn hb
  off := hoff
  failed x hx := by
    rw [(withdrawn_fields a s).1, withdrawn_state]
    rcases List.mem_cons.mp hx with rfl | hx
    · exact ⟨ha, if_pos rfl⟩
    · refine ⟨(h.failed x hx).1, ?_⟩
      split
      · rfl
      · exact (h.failed x hx).2

theorem doFailed_run (hp : (s.action a).Proper impls) : doFailed ctx a s = .ok () s := by
  rw [doFailed, Java.bind_ok (Java.get_run s)]
  rw [Action.Proper] at hp
  cases hk : (s.action a).kind with
  | execution | startWorker | stopWorker =>
    conv_lhs => simp only [hk]
    rfl
  | reduceWorker w impl ru => simp only [hk] at hp

/-- What `failed` does once the action is withdrawn, when the failures of its
successors keep the counts. -/
theorem failed_rest {F : List ActionId} {fuel : Nat} (it : LinkedList.Iter)
    (ih : ∀ b s, Failing impls k (a :: F) s → b < s.nextId → s.predecessors b ≠ [] →
      Failing impls k (a :: F) (Java.final (failed (doFailed ctx) fuel b s))) :
    Java.Keeps (Failing impls k (a :: F)) (do
      let l ← walk (doFailed ctx) fuel a it
      modifyAction a fun x => { x with dataPredecessors := [], dataSuccessors := x.dataSuccessors.clear }
      call (.doFailed a)
      doFailed ctx a
      return l ++ [a] : M δ τ (List ActionId)) := by
  refine .bind (Java.Keeps.forEach (fun acc b s hs hb => ?_) _ _ _) fun l s hs => ?_
  · have hrec := ih b s hs (hs.sound.successor a b hb).1 (List.ne_nil_of_mem (hs.sound.mirrored a b hb))
    cases hr : failed (doFailed ctx) fuel b s with
    | ok r t => rw [hr] at hrec; rw [Java.bind_ok hr]; exact hrec
    | error e t => rw [hr] at hrec; rw [Java.bind_error hr]; exact hrec
  · obtain ⟨ha, hf⟩ := hs.failed a (by simp)
    have hst := hs.sound.settled hf
    have hrun : (do
        modifyAction a fun x => { x with dataPredecessors := [], dataSuccessors := x.dataSuccessors.clear }
        call (.doFailed a)
        doFailed ctx a
        return l ++ [a] : M δ τ (List ActionId)) s = .ok (l ++ [a]) (settled a s) := by
      rw [Java.bind_ok (modifyAction_run ..), Java.bind_ok (call_run ..)]
      exact Java.bind_ok (doFailed_run ctx (hst.proper a ha))
    rw [hrun]
    refine ⟨hst, hs.off.settled hf, fun x hx => ⟨(hs.failed x hx).1, ?_⟩⟩
    rw [← (hs.failed x hx).2, Java.final_ok, TaskScheduler.settled]
    dsimp only
    rw [setAction_action]
    split
    · next he => rw [he]
    · rfl

/-- The failure of a successor keeps the counts. -/
theorem failed_keeps : ∀ (fuel : Nat) {F : List ActionId} (a : ActionId) (s : TaskScheduler δ τ),
    Failing impls k F s → a < s.nextId → s.predecessors a ≠ [] →
      Failing impls k F (Java.final (failed (doFailed ctx) fuel a s))
  | 0, _, _, _, h, _, _ => h
  | fuel + 1, F, a, s, h, ha, hp => by
    rw [failed_succ (doFailed ctx) fuel (h.sound.nodup_predecessors a)]
    have hw := h.withdrawn ha (fun c hc => hp (h.sound.blocked c a hc).2.2.2.1) (h.off.withdrawn_of_predecessors hp)
    have ih : ∀ b s, Failing impls k (a :: F) s → b < s.nextId → s.predecessors b ≠ [] →
        Failing impls k (a :: F) (Java.final (failed (doFailed ctx) fuel b s)) :=
      fun b s hs hb hpb => failed_keeps fuel b s hs hb hpb
    have := failed_rest ctx ((withdrawn a s).action a).dataSuccessors.iterator ih _ hw
    exact ⟨this.sound, this.off, fun x hx => this.failed x (by simp [hx])⟩

end

/-- The failure of a ready action, taken out of the counts first. -/
theorem failed_exact (fuel : Nat) (hs : Sound ctx.coreImplementations s) (h : Off s (-one (s.action a).coreId))
    (hw : Waits s a) : Exact ctx.coreImplementations (Java.final (failed (doFailed ctx) (fuel + 1) a s)) := by
  rw [failed_succ (doFailed ctx) fuel (hs.nodup_predecessors a)]
  have hb : ∀ c, a ∉ s.blockedActions.coreIndexed c := fun c hc =>
    hw.notBlocked (by rw [IsBlocked, (hs.blocked c a hc).2.1]; exact hc)
  have hoff := h.withdrawn hw
  have hk : -one (s.action a).coreId + one (s.action a).coreId = 0 := by funext d; simp
  rw [hk] at hoff
  have hfail : Failing ctx.coreImplementations (-one (s.action a).coreId) [] s := ⟨hs, h, by simp⟩
  have := failed_rest ctx ((withdrawn a s).action a).dataSuccessors.iterator
    (fun b s hs hb hpb => failed_keeps ctx fuel b s hs hb hpb) _ (hfail.withdrawn hw.lt hb hoff)
  exact ⟨this.sound, this.off⟩

theorem doError_cases (a : ActionId) (s : TaskScheduler δ τ) :
    doError a s = .ok () { s with calls := .doError a :: s.calls } ∨
    doError a s = .error .failedAction { s with calls := .doError a :: s.calls } := by
  rw [doError, Java.bind_ok (call_run ..), Java.bind_ok (Java.get_run _)]
  cases hk : (s.action a).kind with
  | execution c appId hasPriority =>
    conv => congr <;> (lhs; simp only [hk])
    by_cases hc : schedulingChances ≤ (s.action a).executingResources.length
    · exact .inr (congrFun (if_pos hc) _)
    · exact .inl (congrFun (if_neg hc) _)
  | startWorker | reduceWorker | stopWorker =>
    conv => congr <;> (lhs; simp only [hk])
    exact .inr rfl

/-- The failure that ends an erroneous action. -/
theorem unready_failed_cases (fuel : Nat) (hs : Exact ctx.coreImplementations s) (hw : Waits s a)
    {m : M δ τ Bool} (hm : m = do
      removeFromReady ctx a
      let _ ← failed (doFailed ctx) (fuel + 1) a
      return true) :
    (∃ t, m s = .ok true t ∧ Exact ctx.coreImplementations t) ∨
    (∃ e t, m s = .error e t ∧ Exact ctx.coreImplementations t) := by
  have hoff := hs.2.recount (-one (s.action a).coreId)
  rw [zero_add] at hoff
  have hexact := failed_exact ctx fuel (hs.1.recount _) hoff (hw.recount _)
  rw [hm, Java.bind_ok (removeFromReady_run ctx (hs.1.proper a hw.lt))]
  cases hr : failed (doFailed ctx) (fuel + 1) a (recount s (-one (s.action a).coreId)) with
  | ok l t => rw [hr] at hexact; exact .inl ⟨t, Java.bind_ok hr, hexact⟩
  | error e t => rw [hr] at hexact; exact .inr ⟨e, t, Java.bind_error hr, hexact⟩

/-- The error of an action: where it leaves the action, whether it raises or
not. -/
theorem error_cases (hs : Exact ctx.coreImplementations s) (ha : a < s.nextId) (hr : (s.action a).state = .running)
    (hb : ¬ s.IsBlocked a) :
    Exact ctx.coreImplementations (Java.final (error ctx a s)) ∧ Waits (Java.final (error ctx a s)) a := by
  have hw := hs.1.waits_of_running ha hr hb
  have hst : Sound ctx.coreImplementations (s.setAction a { s.action a with state := .runnable }) :=
    hs.1.setAction
      { hs.1.fits_self a with
        alike := ⟨rfl, rfl, rfl, rfl, rfl, id⟩
        launched := fun _ => hw.predecessors
        running := fun h => by cases h
        queued := fun v hv => absurd hv (hs.1.not_queued (by rw [hr]; decide) v)
        pending := .inl rfl }
  have hwt : Waits (s.setAction a { s.action a with state := .runnable }) a :=
    ⟨ha, by rw [predecessors, setAction_self]; exact hw.predecessors, by rw [setAction_self]; rfl,
      fun h => hb (by rw [IsBlocked, setAction_self] at h; exact h)⟩
  have hoff : Off (s.setAction a { s.action a with state := .runnable }) 0 := by
    refine hs.2.congr rfl rfl fun c b _ => ?_
    by_cases hba : b = a
    · subst hba
      constructor
      · rintro ⟨hc, -⟩
        rw [setAction_self] at hc
        exact hw.ready hc
      · rintro ⟨hc, -⟩
        exact hwt.ready (by rw [setAction_self]; exact hc)
    · rw [Ready, Ready, IsBlocked, IsBlocked, predecessors, predecessors, setAction_action, if_neg hba]
      rfl
  obtain ⟨hf, hsl⟩ := leaveResource_frame ctx .runnable hst
  rw [error]
  cases hl : leaveResource ctx a .runnable s with
  | error e t =>
    rw [hl, Java.final_error] at hf hsl
    rw [Java.bind_error hl]
    exact ⟨⟨hsl, hoff.frame hf⟩, hwt.frame hf⟩
  | ok _ t =>
    rw [hl, Java.final_ok] at hf hsl
    have hf' : Frame (s.setAction a { s.action a with state := .runnable })
        { t with calls := .doError a :: t.calls } := { hf with }
    rw [Java.bind_ok hl]
    rcases doError_cases a t with he | he <;> rw [he] <;>
      exact ⟨⟨{ hsl with }, hoff.frame hf'⟩, hwt.frame hf'⟩

theorem processError_cases (fuel : Nat) (hs : Exact ctx.coreImplementations s) (ha : a < s.nextId)
    (hr : (s.action a).state = .running) (hb : ¬ s.IsBlocked a) :
    (∃ t, processError ctx (fuel + 1) a s = .ok false t ∧ Exact ctx.coreImplementations t ∧ Waits t a) ∨
    (∃ t, processError ctx (fuel + 1) a s = .ok true t ∧ Exact ctx.coreImplementations t) ∨
    (∃ e t, processError ctx (fuel + 1) a s = .error e t ∧ Exact ctx.coreImplementations t) := by
  obtain ⟨hexact, hwait⟩ := error_cases ctx hs ha hr hb
  cases he : error ctx a s with
  | ok _ t =>
    rw [he, Java.final_ok] at hexact hwait
    exact .inl ⟨t, Java.tryCatch_ok ((Java.bind_ok he).trans rfl), hexact, hwait⟩
  | error e t =>
    rw [he, Java.final_error] at hexact hwait
    have hcatch : processError ctx (fuel + 1) a s = (if e = .failedAction then do
        removeFromReady ctx a
        let _ ← failed (doFailed ctx) (fuel + 1) a
        return true
      else throw e : M δ τ Bool) t := Java.tryCatch_error (Java.bind_error he)
    refine .inr ?_
    rw [hcatch]
    by_cases hef : e = .failedAction
    · rw [if_pos hef]
      exact unready_failed_cases ctx fuel hexact hwait rfl
    · rw [if_neg hef]
      exact .inr ⟨e, t, rfl, hexact⟩

theorem errorOnAction_exact (fuel : Nat) (hs : Exact ctx.coreImplementations s) (ha : a < s.nextId)
    (hr : (s.action a).state = .running) (hb : ¬ s.IsBlocked a) :
    Exact ctx.coreImplementations (Java.final (errorOnAction ctx (fuel + 1) a s)) := by
  rw [errorOnAction]
  rcases processError_cases ctx fuel hs ha hr hb with ⟨t, ht, hexact, hwait⟩ | ⟨t, ht, hexact⟩ | ⟨e, t, ht, hexact⟩
  · obtain ⟨u, hr, hsu, hu, -⟩ := placeAction_waits ctx (t.action a).actionScore hexact.1 hexact.2 hwait
    rw [Java.bind_ok ht, if_neg (by decide), Java.bind_ok (Java.get_run t)]
    rcases hr with hr | ⟨hr, -⟩ <;> rw [hr] <;> exact ⟨hsu, hu⟩
  · rw [Java.bind_ok ht]
    exact hexact
  · rw [Java.bind_error ht]
    exact hexact

/-! ### Worker updates -/

theorem removeCores_coreIndexed (c : CoreId) : ∀ (cores : List CoreId) (set : ActionSet),
    (set.removeCores cores).1.coreIndexed c = if c ∈ cores then [] else set.coreIndexed c
  | [], set => by simp [ActionSet.removeCores]
  | d :: cores, set => by
    rw [ActionSet.removeCores]
    dsimp only
    rw [removeCores_coreIndexed c cores]
    by_cases hcd : c = d
    · subst hcd; simp
    · simp [hcd]

theorem removeCores_noCore : ∀ (cores : List CoreId) (set : ActionSet),
    (set.removeCores cores).1.noCore = set.noCore
  | [], set => rfl
  | d :: cores, set => by rw [ActionSet.removeCores]; exact removeCores_noCore cores _

theorem mem_removeCores {b : ActionId} : ∀ (cores : List CoreId) (set : ActionSet),
    b ∈ (set.removeCores cores).2 ↔ ∃ c ∈ cores, b ∈ set.coreIndexed c
  | [], set => by simp [ActionSet.removeCores]
  | d :: cores, set => by
    rw [ActionSet.removeCores]
    dsimp only
    rw [List.mem_append, mem_removeCores cores]
    constructor
    · rintro (hb | ⟨c, hc, hb⟩)
      · exact ⟨d, by simp, hb⟩
      · simp only [Function.update_apply] at hb
        split at hb
        · cases hb
        · exact ⟨c, by simp [hc], hb⟩
    · rintro ⟨c, hc, hb⟩
      by_cases hcd : c = d
      · exact .inl (hcd ▸ hb)
      · refine .inr ⟨c, (List.mem_cons.mp hc).resolve_left hcd, ?_⟩
        simp only [Function.update_apply, if_neg hcd]
        exact hb

/-- An action is in the list of one core only, and once. -/
theorem nodup_removeCores (core : ActionId → Option CoreId) : ∀ (cores : List CoreId) (set : ActionSet),
    (∀ c, (set.coreIndexed c).Nodup) → (∀ c, ∀ b ∈ set.coreIndexed c, core b = some c) →
      (set.removeCores cores).2.Nodup
  | [], set, _, _ => by simp [ActionSet.removeCores]
  | d :: cores, set, hn, hcore => by
    rw [ActionSet.removeCores]
    dsimp only
    have hsub : ∀ c, ∀ b ∈ Function.update set.coreIndexed d [] c, c ≠ d ∧ b ∈ set.coreIndexed c := by
      intro c b hb
      rw [Function.update_apply] at hb
      split at hb
      · cases hb
      · exact ⟨‹_›, hb⟩
    refine List.nodup_append.mpr ⟨hn d, nodup_removeCores core cores _ (fun c => ?_) (fun c b hb => ?_), ?_⟩
    · dsimp only
      rw [Function.update_apply]
      split
      · exact List.nodup_nil
      · exact hn c
    · exact hcore c b (hsub c b hb).2
    · rintro b hb e he rfl
      obtain ⟨c, -, hbc⟩ := (mem_removeCores cores _).mp he
      obtain ⟨hcd, hbc⟩ := hsub c b hbc
      exact hcd (Option.some.inj ((hcore c b hbc).symm.trans (hcore d b hb)))

section
variable {impls : CoreId → List τ}

/-- The state when the blocked actions of some cores have been taken out. -/
def takenOut (s : TaskScheduler δ τ) (w : WorkerId) (cores : List CoreId) : TaskScheduler δ τ :=
  { s with blockedActions := (s.blockedActions.removeAllCompatibleActions (isWorkerOf s w) cores).1 }

/-- The blocked actions of the cores. -/
def taken (s : TaskScheduler δ τ) (w : WorkerId) (cores : List CoreId) : List ActionId :=
  (s.blockedActions.removeAllCompatibleActions (isWorkerOf s w) cores).2

theorem takenOut_coreIndexed (w : WorkerId) (cores : List CoreId) (c : CoreId) :
    (takenOut s w cores).blockedActions.coreIndexed c = if c ∈ cores then [] else s.blockedActions.coreIndexed c :=
  removeCores_coreIndexed c cores _

theorem Sound.mem_taken (hs : Sound impls s) (w : WorkerId) (cores : List CoreId) {b : ActionId} :
    b ∈ taken s w cores ↔ ∃ c ∈ cores, b ∈ s.blockedActions.coreIndexed c := by
  simp only [taken, ActionSet.removeAllCompatibleActions, hs.noCore, List.filter_nil, List.nil_append]
  exact mem_removeCores cores _

theorem Sound.nodup_taken (hs : Sound impls s) (w : WorkerId) (cores : List CoreId) : (taken s w cores).Nodup := by
  simp only [taken, ActionSet.removeAllCompatibleActions, hs.noCore, List.filter_nil, List.nil_append]
  exact nodup_removeCores (fun b => (s.action b).coreId) cores _ hs.nodup_blocked
    fun c b hb => (hs.blocked c b hb).2.1

theorem Sound.takenOut (hs : Sound impls s) (w : WorkerId) (cores : List CoreId) :
    Sound impls (takenOut s w cores) :=
  { hs with
    blocked := fun c b hb => by
      rw [takenOut_coreIndexed] at hb
      split at hb
      · cases hb
      · exact hs.blocked c b hb
    nodup_blocked := fun c => by
      rw [takenOut_coreIndexed]
      split
      · exact List.nodup_nil
      · exact hs.nodup_blocked c
    noCore := by
      simp only [TaskScheduler.takenOut, ActionSet.removeAllCompatibleActions, removeCores_noCore, hs.noCore,
        List.filter_nil] }

/-- The actions taken out can be placed. -/
theorem Sound.waits_taken (hs : Sound impls s) (w : WorkerId) (cores : List CoreId) {b : ActionId}
    (hb : b ∈ taken s w cores) :
    Waits (TaskScheduler.takenOut s w cores) b ∧
      ¬ (TaskScheduler.takenOut s w cores).HasNullCandidate ((TaskScheduler.takenOut s w cores).action b) := by
  obtain ⟨c, hc, hbc⟩ := (hs.mem_taken w cores).mp hb
  obtain ⟨h1, h2, h3, h4, h5⟩ := hs.blocked c b hbc
  refine ⟨⟨h1, h4, h3, fun hblk => ?_⟩, h5⟩
  have hcore : ((TaskScheduler.takenOut s w cores).action b).coreId = some c := h2
  rw [IsBlocked, hcore] at hblk
  change b ∈ (TaskScheduler.takenOut s w cores).blockedActions.coreIndexed c at hblk
  rw [takenOut_coreIndexed, if_pos hc] at hblk
  cases hblk

theorem Off.takenOut (hs : Sound impls s) (h : Off s 0) (w : WorkerId) (cores : List CoreId) :
    Off (takenOut s w cores) (-counted s (taken s w cores)) := by
  intro c
  have hblocked : ∀ b, (s.action b).coreId = some c → b ∉ taken s w cores →
      ((TaskScheduler.takenOut s w cores).IsBlocked b ↔ s.IsBlocked b) := by
    intro b hc hb
    have hcore : ((TaskScheduler.takenOut s w cores).action b).coreId = some c := hc
    rw [IsBlocked, IsBlocked, hc, hcore]
    change b ∈ (TaskScheduler.takenOut s w cores).blockedActions.coreIndexed c ↔ b ∈ s.blockedActions.coreIndexed c
    rw [takenOut_coreIndexed]
    split
    · next hcc => exact iff_of_false List.not_mem_nil fun hbc => hb ((hs.mem_taken w cores).mpr ⟨c, hcc, hbc⟩)
    · exact Iff.rfl
  have hadd := readyActions_add (s := s) (t := TaskScheduler.takenOut s w cores) (c := c) (l := taken s w cores) rfl
    (hs.nodup_taken w cores)
    (fun b hb => by obtain ⟨d, -, hbd⟩ := (hs.mem_taken w cores).mp hb; exact (hs.blocked d b hbd).1)
    (fun b hb hr => by
      obtain ⟨d, -, hbd⟩ := (hs.mem_taken w cores).mp hb
      refine hr.2.2.2 ?_
      rw [IsBlocked, (hs.blocked d b hbd).2.1]
      exact hbd)
    fun b _ => by
      by_cases hb : b ∈ taken s w cores
      · refine ⟨fun hr => .inr ⟨hb, hr.1⟩, fun hr => ?_⟩
        rcases hr with hr | ⟨-, hc⟩
        · exact (hs.waits_taken w cores hb).1.ready hr.1
        · exact (hs.waits_taken w cores hb).1.ready hc
      · simp only [hb, false_and, or_false]
        constructor
        · rintro ⟨h1, h2, h3, h4⟩
          exact ⟨h1, h2, h3, fun hblk => h4 ((hblocked b h1 hb).mpr hblk)⟩
        · rintro ⟨h1, h2, h3, h4⟩
          exact ⟨h1, h2, h3, fun hblk => h4 ((hblocked b h1 hb).mp hblk)⟩
  have := h c
  change s.readyCounts c = _
  rw [hadd]
  simp only [Pi.zero_apply, Pi.neg_apply] at this ⊢
  omega

end

theorem byScore_perm {α : Type} (l : List (α × Option Score)) : (byScore l).Perm (l.map Prod.fst) :=
  (List.perm_insertionSort _ l).map _

theorem increasedWorkerResources_exact (hs : Exact ctx.coreImplementations s) (w : WorkerId) :
    Exact ctx.coreImplementations (Java.final (increasedWorkerResources ctx w s)) := by
  rw [increasedWorkerResources, Java.bind_ok (Java.get_run s)]
  dsimp only
  split
  · exact hs
  · generalize ctx.ops.executableCores (s.resource w).myWorker = cores
    have hperm : (byScore ((taken s w cores).map fun a => (a, some (s.action a).actionScore))).Perm
        (taken s w cores) := by
      refine (byScore_perm _).trans ?_
      rw [List.map_map]
      exact List.Perm.of_eq (List.map_id' _)
    have hcount : counted (takenOut s w cores)
        (byScore ((taken s w cores).map fun a => (a, some (s.action a).actionScore))) =
          counted s (taken s w cores) := by
      funext c
      exact congrArg Nat.cast (hperm.countP_eq _)
    obtain ⟨t, ht, hexact⟩ := forM_placeReady ctx
      (byScore ((taken s w cores).map fun a => (a, some (s.action a).actionScore)))
      (hperm.nodup_iff.mpr (hs.1.nodup_taken w cores)) (hs.1.takenOut w cores)
      (fun b hb => hs.1.waits_taken w cores (hperm.mem_iff.mp hb))
      (by rw [hcount]; exact hs.2.takenOut hs.1 w cores)
    change Exact _ (Java.final ((byScore ((taken s w cores).map fun a => (a, some (s.action a).actionScore))).forM
      (placeReady ctx) (takenOut s w cores)))
    rw [ht]
    exact hexact

/-- The queue of a removed worker, when none of its actions that are blocked
already is to be blocked again. -/
theorem forM_placeRemoved : ∀ (l : List ActionId) {s : TaskScheduler δ τ}, l.Nodup →
    Exact ctx.coreImplementations s →
    (∀ b ∈ l, b < s.nextId ∧ (s.action b).state = .waiting ∧ (s.IsBlocked b → ¬ s.AllExecuted (s.action b))) →
    Exact ctx.coreImplementations (Java.final (l.forM (placeRemoved ctx) s))
  | [], s, _, hs, _ => hs
  | a :: l, s, hn, hs, hl => by
    obtain ⟨hal, hn⟩ := List.nodup_cons.mp hn
    obtain ⟨ha, hw, hblk⟩ := hl a (by simp)
    have hp : s.predecessors a = [] := hs.1.launched a (.inr (.inl hw))
    change Exact _ (Java.final ((placeRemoved ctx a >>= fun _ => l.forM (placeRemoved ctx)) s))
    have hdep : (s.action a).hasDataPredecessors = false := by simpa [Action.hasDataPredecessors, predecessors] using hp
    rcases placeRemoved_waiting ctx hw with ⟨-, ⟨lost, hr⟩ | ⟨hr, -⟩⟩ | ⟨hb, hr⟩
    · rw [Java.bind_ok hr]
      exact forM_placeRemoved l hn ⟨{ hs.1 with }, hs.2⟩ fun b hb => hl b (by simp [hb])
    · rw [Java.bind_error hr]
      exact hs
    · rw [if_pos hdep] at hr
      have hwait : Waits s a := ⟨ha, hp, by simp [Action.isPending, hw], fun h => hblk h hb⟩
      rw [Java.bind_ok (hr.trans (unready_run ctx (hs.1.proper a ha)))]
      refine forM_placeRemoved l hn ⟨hs.1.unready hwait hb, hs.2.unready hwait⟩ fun b hbl => ?_
      have hba : b ≠ a := by rintro rfl; exact hal hbl
      obtain ⟨h1, h2, h3⟩ := hl b (by simp [hbl])
      exact ⟨h1, h2, fun hblk => h3 ((isBlocked_block.mp hblk).resolve_right hba)⟩

theorem reducedWorkerResources_exact (hs : Exact ctx.coreImplementations s) (w : WorkerId)
    (hb : ctx.ops.shouldBeStopped (s.resource w).myWorker = true →
      ∀ b ∈ (s.resource w).blocked, s.IsBlocked b → ¬ s.AllExecuted (s.action b)) :
    Exact ctx.coreImplementations (Java.final (reducedWorkerResources ctx w s)) := by
  rw [reducedWorkerResources, Java.bind_ok (Java.get_run s)]
  by_cases hstop : ctx.ops.shouldBeStopped (s.resource w).myWorker = true
  · rw [if_pos hstop, Java.bind_ok (Java.modify_run _ s)]
    generalize hu : ({ s with workers := s.workers.filter (· ≠ w) } : TaskScheduler δ τ) = u
    have hsu : Exact ctx.coreImplementations u := hu ▸ ⟨{ hs.1 with }, hs.2⟩
    have hremoved : Exact ctx.coreImplementations (Java.final (workerRemoved ctx w u)) := by
      rw [workerRemoved, Java.bind_ok (Java.get_run u)]
      refine forM_placeRemoved ctx _ (hsu.1.nodup_queue w) hsu fun b hbq => ?_
      obtain ⟨hwait, hsel⟩ := hsu.1.queued w b hbq
      refine ⟨(hsu.1.assigned b (by rw [hsel]; rfl)).1, hwait, ?_⟩
      subst hu
      exact hb hstop b hbq
    cases hr : workerRemoved ctx w u with
    | error e t =>
      rw [hr, Java.final_error] at hremoved
      rw [Java.bind_error hr]
      exact hremoved
    | ok _ t =>
      rw [hr, Java.final_ok] at hremoved
      obtain ⟨v, hv, hf, hsv⟩ := newWorkerAction_launch ctx hremoved.1 w
        (.stopWorker w ⟨none, 0, ctx.ops.stopRequirements⟩) ⟨none, 0, ctx.ops.stopRequirements⟩ rfl rfl
      rw [Java.bind_ok hr]
      change Exact _ (Java.final ((do
        let action ← newWorkerAction (.stopWorker w ⟨none, 0, ctx.ops.stopRequirements⟩) w
        launchWorkerAction ctx action w ⟨none, 0, ctx.ops.stopRequirements⟩ : M δ τ Unit) t))
      rw [hv]
      exact ⟨hsv, hremoved.2.frame hf⟩
  · rw [if_neg hstop]
    exact hs

theorem completedResourceUpdate_exact (hs : Exact ctx.coreImplementations s) (w : WorkerId) (ru : ResourceUpdate τ)
    (hb : ru.type = .reduce → ctx.ops.shouldBeStopped (s.resource w).myWorker = true →
      ∀ b ∈ (s.resource w).blocked, s.IsBlocked b → ¬ (changed ctx s w).AllExecuted (s.action b)) :
    Exact ctx.coreImplementations (Java.final (completedResourceUpdate ctx w ru s)) := by
  have hc : Exact ctx.coreImplementations (changed ctx s w) := ⟨hs.1.changed ctx, hs.2.frame (Frame.changed ctx)⟩
  rw [completedResourceUpdate, Java.bind_ok (changesOnWorker_run ctx)]
  cases ht : ru.type with
  | increase => exact increasedWorkerResources_exact ctx hc w
  | reduce => exact reducedWorkerResources_exact ctx hc w (hb ht)

end

/-! ## Runs -/

/-- The operations of the scheduler. A new action is the execution of a task;
an update comes with the worker's new description. -/
inductive Op (δ τ : Type)
  | newAllocatableAction (coreId : CoreId) (appId : Int) (hasPriority : Bool)
      (constrainingPredecessors : List ActionId) (enforced : Option WorkerId) (predecessors : List ActionId)
  | actionCompleted (a : ActionId)
  | errorOnAction (fuel : Nat) (a : ActionId)
  | completedResourceUpdate (w : WorkerId) (description : δ) (ru : ResourceUpdate τ)

namespace Op

/-- New actions refer to registered ones; those that end are running. -/
def Enabled (s : TaskScheduler δ τ) : Op δ τ → Prop
  | .newAllocatableAction _ _ _ constraining _ predecessors =>
    (∀ p ∈ constraining, p < s.nextId) ∧ ∀ p ∈ predecessors, p < s.nextId
  | .actionCompleted a | .errorOnAction _ a => a < s.nextId ∧ (s.action a).state = .running
  | .completedResourceUpdate .. => True

instance (s : TaskScheduler δ τ) (op : Op δ τ) : Decidable (op.Enabled s) := by
  cases op <;> unfold Enabled <;> infer_instance

def call (ctx : Ctx δ τ) : Op δ τ → M δ τ Unit
  | .newAllocatableAction coreId appId hasPriority constraining enforced predecessors => do
    let a ← newExecutionAction coreId appId hasPriority constraining enforced predecessors
    TaskScheduler.newAllocatableAction ctx a
  | .actionCompleted a => TaskScheduler.actionCompleted ctx a
  | .errorOnAction fuel a => TaskScheduler.errorOnAction ctx (fuel + 1) a
  | .completedResourceUpdate w description ru => do
    modifyResource w fun r => { r with myWorker := description }
    TaskScheduler.completedResourceUpdate ctx w ru

end Op

/-- The state a call leaves, returned or raised, unless it is still looping. -/
def ended : EStateM.Result Thrown (TaskScheduler δ τ) Unit → Option (TaskScheduler δ τ)
  | .ok _ t => some t
  | .error e t => if e = .noReturn then none else some t

/-- One operation, with what the world outside answers during it. -/
def step (ctx : Ctx δ τ) (s : TaskScheduler δ τ) (label : Outside τ × Op δ τ) : Option (TaskScheduler δ τ) :=
  if label.2.Enabled s then ended (label.2.call { ctx with toOutside := label.1 } s) else none

/-- A scheduler without actions, over any workers. -/
def initial (workers : List WorkerId) (description : WorkerId → δ) (assignedAppId : WorkerId → Option Int)
    (coreToWorkers : CoreId → List WorkerId) : TaskScheduler δ τ where
  nextId := 0
  action _ := Action.new (.execution 0 0 false) [] none
  resource w := ⟨description w, assignedAppId w, [], []⟩
  workers := workers
  coreToWorkers := coreToWorkers
  blockedActions := .empty
  readyCounts _ := 0
  calls := []
  lost := []

/-- What an operation must not do: block an action that is not counted, take
an action that is blocked out of the counts, or block one twice. -/
def Op.KeepsCounts (ctx : Ctx δ τ) (s : TaskScheduler δ τ) : Op δ τ → Prop
  | .newAllocatableAction coreId appId _ constraining enforced predecessors =>
    ctx.coreImplementations coreId ≠ [] ∧
      ((∃ p ∈ predecessors, (s.action p).isPending = true) → s.HasCandidate coreId appId constraining enforced)
  | .actionCompleted a | .errorOnAction _ a => ¬ s.IsBlocked a
  | .completedResourceUpdate w description ru =>
    ru.type = .reduce → ctx.ops.shouldBeStopped description = true → ∀ b ∈ (s.resource w).blocked, s.IsBlocked b →
      ¬ (changed ctx (s.setResource w { s.resource w with myWorker := description }) w).AllExecuted (s.action b)

section
variable (ctx : Ctx δ τ) {s t : TaskScheduler δ τ}

theorem exact_initial (workers : List WorkerId) (description : WorkerId → δ) (assignedAppId : WorkerId → Option Int)
    (coreToWorkers : CoreId → List WorkerId) {impls : CoreId → List τ} :
    Exact impls (initial workers description assignedAppId coreToWorkers) where
  left :=
    { mirrored := fun p a h => by cases h
      nodup_successors := fun p => List.nodup_nil
      nodup_predecessors := fun a => List.nodup_nil
      successor := fun p a h => by cases h
      launched := fun a _ => rfl
      running := fun a h => by cases h
      assigned := fun a h => by cases h
      queued := fun w a h => by cases h
      nodup_queue := fun w => List.nodup_nil
      blocked := fun c a h => by cases h
      nodup_blocked := fun c => List.nodup_nil
      noCore := rfl
      constraining := fun a h => by cases h
      proper := fun a h => absurd h (Nat.not_lt_zero a) }
  right c := by
    have hnone : (Finset.range 0).filter ((initial workers description assignedAppId coreToWorkers :
      TaskScheduler δ τ).Ready c) = ∅ := rfl
    rw [readyActions, show (initial workers description assignedAppId coreToWorkers :
      TaskScheduler δ τ).nextId = 0 from rfl, hnone]
    rfl

theorem call_exact {op : Op δ τ} (hs : Exact ctx.coreImplementations s) (hen : op.Enabled s)
    (hk : op.KeepsCounts ctx s) : Exact ctx.coreImplementations (Java.final (op.call ctx s)) := by
  cases op with
  | newAllocatableAction coreId appId hasPriority constraining enforced predecessors =>
    exact newAllocatableAction_exact ctx hs hk.1 (fun h => Nat.lt_irrefl _ (hen.1 _ h))
      (fun p hp => Nat.ne_of_lt (hen.2 p hp)) hk.2
  | actionCompleted a => exact actionCompleted_exact ctx hs hen.1 hen.2 hk
  | errorOnAction fuel a => exact errorOnAction_exact ctx fuel hs hen.1 hen.2 hk
  | completedResourceUpdate w description ru =>
    have hset : Exact ctx.coreImplementations (s.setResource w { s.resource w with myWorker := description }) :=
      ⟨hs.1.setResource w (hs.1.queued w) (hs.1.nodup_queue w), hs.2⟩
    rw [Op.call, Java.bind_ok (modifyResource_run ..)]
    refine completedResourceUpdate_exact ctx hset w ru fun hr hstop b hb hblk => ?_
    simp only [setResource, Function.update_self] at hstop hb
    exact hk hr hstop b hb hblk

theorem enabled_of_step {label : Outside τ × Op δ τ} (ht : step ctx s label = some t) : label.2.Enabled s := by
  by_contra hn
  rw [step, if_neg hn] at ht
  cases ht

theorem eq_final_of_step {label : Outside τ × Op δ τ} (ht : step ctx s label = some t) :
    t = Java.final (label.2.call { ctx with toOutside := label.1 } s) := by
  rw [step] at ht
  split at ht
  · cases hr : label.2.call { ctx with toOutside := label.1 } s with
    | ok _ u =>
      rw [hr] at ht
      exact (Option.some.inj ht).symm
    | error e u =>
      rw [hr, ended] at ht
      split at ht
      · cases ht
      · exact (Option.some.inj ht).symm
  · cases ht

theorem step_exact {label : Outside τ × Op δ τ} (hs : Exact ctx.coreImplementations s)
    (hk : label.2.KeepsCounts ctx s) (ht : step ctx s label = some t) : Exact ctx.coreImplementations t := by
  have hen := enabled_of_step ctx ht
  obtain rfl := eq_final_of_step ctx ht
  exact call_exact { ctx with toOutside := label.1 } hs hen hk

/-- **The ready counts.** In a run from a scheduler without actions, over any
workers, whose operations neither block an action that still waits for data
nor end or block one that is blocked already, the count of every core is the
number of its registered actions that wait for no data, have not ended and are
not blocked, in every state reached. -/
theorem readyCounts_exact (workers : List WorkerId) (description : WorkerId → δ)
    (assignedAppId : WorkerId → Option Int) (coreToWorkers : CoreId → List WorkerId)
    (labels : List (Outside τ × Op δ τ))
    (hk : Along (step ctx) (fun s label => label.2.KeepsCounts ctx s)
      (initial workers description assignedAppId coreToWorkers) labels) :
    Always (step ctx) ReadyCountsExact (initial workers description assignedAppId coreToWorkers) labels :=
  always_of_along (I := Exact ctx.coreImplementations) (fun _ hs => hs.2.exact)
    (fun _ _ _ hs hk ht => step_exact ctx hs hk ht) (exact_initial workers description assignedAppId coreToWorkers) hk

end

/-- Workers without limits that run the core `0`, which has one implementation. -/
def plain : Ctx Unit Unit where
  dataLocality _ _ := 0
  averageExecutionTime _ _ := 0
  ops :=
    { canRunCore := fun _ c => c = 0
      canRun := fun _ _ => true
      canRunNow := fun _ _ => true
      runTask := fun _ _ => ((), some ())
      endTask := fun _ _ => ()
      executableCores := fun _ => [0]
      executableImpls := fun _ c => if c = 0 then [⟨some c, 0, ()⟩] else []
      shouldBeStopped := fun _ => false
      startRequirements := fun _ => ()
      stopRequirements := () }
  coreImplementations c := if c = 0 then [()] else []

/-- An execution of the core `0` that depends on `predecessors`. -/
def newTask (predecessors : List ActionId) : Outside Unit × Op Unit Unit :=
  (plain.toOutside, .newAllocatableAction 0 0 false [] none predecessors)

/-- A task and one that depends on it, on a worker that runs both. -/
theorem readyCounts_exact_pair :
    Always (step plain) ReadyCountsExact (initial [0] (fun _ => ()) (fun _ => none) fun c => if c = 0 then [0] else [])
      [newTask [], newTask [0], (plain.toOutside, .actionCompleted 0)] := by
  refine readyCounts_exact plain _ _ _ _ _ fun s hs => ⟨⟨by decide, fun ⟨p, hp, _⟩ => by cases hp⟩, ?_⟩
  obtain rfl := Option.some.inj hs
  refine fun t ht => ⟨⟨by decide, fun _ => .inr (.inr (by decide))⟩, ?_⟩
  obtain rfl := Option.some.inj ht
  refine fun u hu => ⟨?_, trivial⟩
  change ¬ IsBlocked _ 0
  decide

/-- No worker runs the core: the second task is blocked before its predecessor
has ended, and the count is negative. -/
theorem blocked_before_ready : ¬ ∀ labels : List (Outside Unit × Op Unit Unit),
    Always (step plain) ReadyCountsExact (initial [] (fun _ => ()) (fun _ => none) fun _ => []) labels := by
  intro h
  obtain ⟨-, h⟩ := h [newTask [], newTask [0]]
  obtain ⟨-, h⟩ := h _ rfl
  exact absurd (h _ rfl 0).2 (by decide)

end TaskScheduler

end Compss.Scheduler
