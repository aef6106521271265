/-
The operations of the scheduler as moves, and what a run of them makes of the
queues.

Every operation is a chain of moves, whatever it is asked for and however it
ends. The queues are therefore exact between any two operations, and a loop
over one of them returns. A queue whose head could run is left behind only by
a move that is not careful.
-/
import Compss.Scheduler.Queue
import Compss.Scheduler.Reduction

namespace Compss.Scheduler

open Lib

variable {δ τ : Type}

namespace TaskScheduler

/-! ## Chains of moves -/

def Moves (ctx : Ctx δ τ) (s t : TaskScheduler δ τ) : Prop :=
  ∃ l : QueueMove δ τ, l.Enabled s ∧ l.next ctx s = t

def CarefulMoves (ctx : Ctx δ τ) (s t : TaskScheduler δ τ) : Prop :=
  ∃ l : QueueMove δ τ, l.Enabled s ∧ l.Careful ctx s ∧ l.next ctx s = t

/-- Blocked actions and data successors are registered. -/
structure Known (s : TaskScheduler δ τ) : Prop where
  coreIndexed : ∀ c, ∀ a ∈ s.blockedActions.coreIndexed c, a < s.nextId
  noCore : ∀ a ∈ s.blockedActions.noCore, a < s.nextId
  successor : ∀ p, ∀ a ∈ s.successors p, a < s.nextId

/-- Moves lead from `s` to `t`. -/
structure Carried (ctx : Ctx δ τ) (s t : TaskScheduler δ τ) : Prop where
  moves : Relation.ReflTransGen (Moves ctx) s t
  nextId_le : s.nextId ≤ t.nextId
  known : Known t

section
variable {ctx : Ctx δ τ} {s t u : TaskScheduler δ τ} {a : ActionId} {w : WorkerId}

theorem queuesSound_of_moves (h : Relation.ReflTransGen (Moves ctx) s t) (hs : QueuesSound s) : QueuesSound t := by
  induction h with
  | refl => exact hs
  | tail _ hm ih =>
    obtain ⟨l, hl, rfl⟩ := hm
    exact hl.queuesSound ih

theorem headWaits_of_carefulMoves (h : Relation.ReflTransGen (CarefulMoves ctx) s t) (hs : QueuesSound s)
    (hh : ∀ v, HeadWaits ctx s v) : QueuesSound t ∧ ∀ v, HeadWaits ctx t v := by
  induction h with
  | refl => exact ⟨hs, hh⟩
  | tail _ hm ih =>
    obtain ⟨l, hl, hc, rfl⟩ := hm
    exact ⟨hl.queuesSound ih.1, hc.headWaits hl ih.1 ih.2⟩

theorem Carried.refl (hk : Known s) : Carried ctx s s := ⟨.refl, Nat.le_refl _, hk⟩

theorem Carried.trans (h : Carried ctx s t) (h' : Carried ctx t u) : Carried ctx s u :=
  ⟨h.moves.trans h'.moves, h.nextId_le.trans h'.nextId_le, h'.known⟩

theorem Carried.queuesSound (h : Carried ctx s t) (hs : QueuesSound s) : QueuesSound t :=
  queuesSound_of_moves h.moves hs

/-- What was registered stays so. -/
theorem Known.congr (hk : Known s) (hn : s.nextId ≤ t.nextId) (hb : t.blockedActions = s.blockedActions)
    (hsucc : ∀ p, ∀ b ∈ t.successors p, b ∈ s.successors p ∨ b < t.nextId) : Known t where
  coreIndexed c b h := by rw [hb] at h; exact (hk.coreIndexed c b h).trans_le hn
  noCore b h := by rw [hb] at h; exact (hk.noCore b h).trans_le hn
  successor p b h := (hsucc p b h).elim (fun h => (hk.successor p b h).trans_le hn) id

theorem Carried.move (h : Carried ctx s t) (l : QueueMove δ τ) (hl : l.Enabled t) (hn : t.nextId ≤ (l.next ctx t).nextId)
    (hk : Known (l.next ctx t)) : Carried ctx s (l.next ctx t) :=
  ⟨h.moves.tail ⟨l, hl, rfl⟩, h.nextId_le.trans hn, hk⟩

/-- The queues do not depend on the step. -/
theorem Carried.elsewhere (h : Carried ctx s t) (hu : SameQueues t u) (hk : Known u) : Carried ctx s u :=
  h.move (.elsewhere u) hu (Nat.le_of_eq hu.nextId.symm) hk

/-- The step does not touch the actions, nor what waits. -/
def Aside (t u : TaskScheduler δ τ) : Prop :=
  u.action = t.action ∧ u.resource = t.resource ∧ u.nextId = t.nextId

theorem Aside.sameQueues (h : Aside t u) : SameQueues t u where
  nextId := h.2.2
  resource := h.2.1
  kind a := by rw [h.1]
  state a := by rw [h.1]
  selected a := .inl (by rw [h.1]; exact ⟨rfl, rfl⟩)

theorem Aside.known (h : Aside t u) (hb : u.blockedActions = t.blockedActions) (hk : Known t) : Known u :=
  hk.congr (Nat.le_of_eq h.2.2.symm) hb fun p b hp => .inl (by rw [successors, h.1] at hp; exact hp)

theorem carried_modify {f : TaskScheduler δ τ → TaskScheduler δ τ}
    (hf : ∀ t, Aside t (f t) ∧ (f t).blockedActions = t.blockedActions) :
    Java.Keeps (Carried ctx s) (modify f : M δ τ PUnit) :=
  .modify fun t ht => ht.elsewhere (hf t).1.sameQueues ((hf t).1.known (hf t).2 ht.known)

theorem call_carried (c : Call) : Java.Keeps (Carried ctx s) (TaskScheduler.call c) :=
  carried_modify fun _ => ⟨⟨rfl, rfl, rfl⟩, rfl⟩

theorem addToReady_carried (a : ActionId) : Java.Keeps (Carried ctx s) (addToReady a) := by
  refine .bind .get fun t => ?_
  cases (t.action a).coreId with
  | none => exact .pure _
  | some c => exact carried_modify fun _ => ⟨⟨rfl, rfl, rfl⟩, rfl⟩

theorem removeFromReady_carried (a : ActionId) : Java.Keeps (Carried ctx s) (removeFromReady ctx a) := by
  intro t ht
  obtain ⟨counts, hr⟩ := removeFromReady_ok ctx a t
  have haside : Aside t { t with readyCounts := counts } := ⟨rfl, rfl, rfl⟩
  rw [hr]
  exact ht.elsewhere haside.sameQueues (haside.known rfl ht.known)

theorem addToBlocked_carried (ha : a < s.nextId) : Java.Keeps (Carried ctx s) (addToBlocked a) := by
  refine .modify fun t ht => ?_
  have haside : Aside t (block t a) := ⟨rfl, rfl, rfl⟩
  have hat : a < t.nextId := ha.trans_le ht.nextId_le
  refine ht.elsewhere haside.sameQueues ⟨fun c b hb => ?_, fun b hb => ?_, ht.known.successor⟩
  · simp only [ActionSet.addAction] at hb
    split at hb
    · exact ht.known.coreIndexed c b hb
    · dsimp only at hb
      rw [Function.update_apply] at hb
      split at hb
      · next hc =>
        rcases List.mem_append.mp hb with hb | hb
        · exact ht.known.coreIndexed _ b hb
        · rw [List.mem_singleton.mp hb]
          exact hat
      · exact ht.known.coreIndexed c b hb
  · simp only [ActionSet.addAction] at hb
    split at hb
    · rcases List.mem_append.mp hb with hb | hb
      · exact ht.known.noCore b hb
      · rw [List.mem_singleton.mp hb]
        exact hat
    · exact ht.known.noCore b hb

/-- The links of an action are updated. -/
theorem modifyAction_carried (a : ActionId) {f : Action τ → Action τ}
    (hf : ∀ x, ∃ ps ss, f x = { x with dataPredecessors := ps, dataSuccessors := ss } ∧
      ∀ b ∈ ss.elems, b ∈ x.dataSuccessors.elems ∨ b < s.nextId) :
    Java.Keeps (Carried ctx s) (modifyAction a f) := by
  refine .modify fun t ht => ?_
  obtain ⟨ps, ss, hx, hss⟩ := hf (t.action a)
  have hsame : SameQueues t (t.setAction a (f (t.action a))) :=
    { nextId := rfl
      resource := rfl
      kind := forall_setAction (P := fun b y => y.kind = (t.action b).kind) (by rw [hx]) fun _ _ => rfl
      state := forall_setAction (P := fun b y => y.state = (t.action b).state) (by rw [hx]) fun _ _ => rfl
      selected := fun b => .inl (forall_setAction (P := fun b y => y.selectedResource = (t.action b).selectedResource ∧
        y.selectedImpl = (t.action b).selectedImpl) (by rw [hx]; exact ⟨rfl, rfl⟩) (fun _ _ => ⟨rfl, rfl⟩) b) }
  refine ht.elsewhere hsame (ht.known.congr (Nat.le_refl _) rfl ?_)
  exact forall_setAction (P := fun p y => ∀ b ∈ y.dataSuccessors.elems, b ∈ t.successors p ∨ b < t.nextId)
    (by rw [hx]; exact fun b hb => (hss b hb).imp_right fun h => h.trans_le ht.nextId_le) fun _ _ b hb => .inl hb

/-! ## Placing -/

theorem SameQueues.assigned (ha : a < t.nextId) {y : Action τ} (hy : Assigned (t.action a) y) :
    SameQueues t (t.setAction a y) where
  nextId := rfl
  resource := rfl
  kind := forall_setAction (P := fun b y => y.kind = (t.action b).kind) hy.alike.kind fun _ _ => rfl
  state := forall_setAction (P := fun b y => y.state = (t.action b).state) hy.state_eq fun _ _ => rfl
  selected := forall_setAction (P := fun b y => y.selectedResource = (t.action b).selectedResource ∧
      y.selectedImpl = (t.action b).selectedImpl ∨
    (t.action b).state = .runnable ∧ b < t.nextId ∧ y.selectedImpl.isSome)
    (by
      rcases hy with rfl | ⟨hr, w, impl, rfl⟩
      · exact .inl ⟨rfl, rfl⟩
      · exact .inr ⟨hr, ha, rfl⟩)
    fun _ _ => .inl ⟨rfl, rfl⟩

theorem Carried.assigned (h : Carried ctx s t) (ha : a < s.nextId) {y : Action τ} (hy : Assigned (t.action a) y) :
    Carried ctx s (t.setAction a y) := by
  refine h.elsewhere (.assigned (ha.trans_le h.nextId_le) hy) (h.known.congr (Nat.le_refl _) rfl fun p b hb => .inl ?_)
  refine forall_setAction (P := fun p y => ∀ b ∈ y.dataSuccessors.elems, b ∈ t.successors p) ?_ (fun _ _ _ hb => hb) p b hb
  rw [hy.alike.dataSuccessors]
  exact fun b hb => hb

theorem scheduleAction_carried (score : Score) (ha : a < s.nextId) :
    Java.Keeps (Carried ctx s) (scheduleAction ctx a score) := by
  intro t ht
  by_cases hb : t.AllExecuted (t.action a)
  · rw [scheduleAction_blocked ctx hb]
    exact ht
  · rcases scheduleAction_cases ctx score hb with ⟨u, hr, y, lost, hy, rfl⟩ | ⟨hr, -⟩
    · rw [hr]
      have hset := ht.assigned ha hy
      have haside : Aside (t.setAction a y) { t.setAction a y with lost := lost } := ⟨rfl, rfl, rfl⟩
      exact hset.elsewhere haside.sameQueues (haside.known rfl hset.known)
    · rw [hr]
      exact ht

theorem tryToLaunchAction_carried (hs : QueuesSound s) (a : ActionId) :
    Java.Keeps (Carried ctx s) (tryToLaunchAction ctx a) := by
  intro t ht
  have hkeeps : ∀ u, u = Java.final (tryToLaunchAction ctx a t) → u.nextId = t.nextId ∧
      u.blockedActions = t.blockedActions ∧ ∀ p, u.successors p = t.successors p := by
    rintro u rfl
    rcases tryToLaunchAction_final ctx (ht.queuesSound hs) a with h | ⟨w, impl, -, -, -, -, h⟩
    · rw [h]
      exact ⟨rfl, rfl, fun _ => rfl⟩
    · rw [h]
      split
      · have hnoted : ∀ p, (noted t w a).successors p = t.successors p :=
          forall_setAction (P := fun p y => y.dataSuccessors.elems = t.successors p) rfl fun _ _ => rfl
        have hran : ∀ p, (ran ctx (noted t w a) w a).successors p = (noted t w a).successors p :=
          forall_setAction (P := fun p y => y.dataSuccessors.elems = (noted t w a).successors p) rfl fun _ _ => rfl
        exact ⟨rfl, rfl, fun p => (hran p).trans (hnoted p)⟩
      · exact ⟨rfl, rfl, forall_setAction (P := fun p y => y.dataSuccessors.elems = t.successors p) rfl fun _ _ => rfl⟩
  obtain ⟨hn, hb, hsucc⟩ := hkeeps _ rfl
  exact ht.move (.tryToLaunch a) trivial (Nat.le_of_eq hn.symm)
    (ht.known.congr (Nat.le_of_eq hn.symm) hb fun p b hp => .inl (by rw [← hsucc p]; exact hp))

theorem tryToLaunch_carried_of_lt (hs : QueuesSound s) (ha : a < s.nextId) :
    Java.Keeps (Carried ctx s) (tryToLaunch ctx a) := by
  refine .tryCatch (tryToLaunchAction_carried hs a) fun e => .ite (fun _ => .tryCatch ?_ fun e => ?_) fun _ => .throw _
  · exact .bind .get fun t => scheduleAction_carried _ ha
  · exact .ite (fun _ => addToBlocked_carried ha) fun _ => .throw _

/-- An action that is not registered has no worker to be launched on. -/
theorem tryToLaunch_carried (hs : QueuesSound s) (a : ActionId) : Java.Keeps (Carried ctx s) (tryToLaunch ctx a) := by
  intro t ht
  cases hw : (t.action a).selectedResource with
  | none =>
    have hr : tryToLaunch ctx a t = .ok () t := Java.tryCatch_ok (tryToLaunchAction_none ctx hw)
    rw [hr]
    exact ht
  | some w =>
    have hst := ht.queuesSound hs
    exact ht.trans (tryToLaunch_carried_of_lt hst (hst.registered a (.inr (by rw [hw]; rfl))) t (.refl ht.known))

theorem placeAction_carried (hs : QueuesSound s) (ha : a < s.nextId) (score : Score) {unready : M δ τ Unit}
    (hun : Java.Keeps (Carried ctx s) unready) : Java.Keeps (Carried ctx s) (placeAction ctx a score unready) := by
  refine .tryCatch (.bind (scheduleAction_carried score ha) fun _ => tryToLaunch_carried hs a) fun e => ?_
  exact .ite (fun _ => .bind hun fun _ => addToBlocked_carried ha) fun _ => .throw _

theorem placeReady_carried (hs : QueuesSound s) (ha : a < s.nextId) :
    Java.Keeps (Carried ctx s) (placeReady ctx a) := by
  have hplace : Java.Keeps (Carried ctx s)
      (do placeAction ctx a ((← get).action a).actionScore (removeFromReady ctx a) : M δ τ Unit) :=
    .bind .get fun t => placeAction_carried hs ha _ (removeFromReady_carried a)
  refine .bind .get fun t => .ite (fun _ => ?_) fun _ => hplace
  exact .bind (addToReady_carried a) fun _ => hplace

/-! ## Creating -/

theorem Carried.created (h : Carried ctx s t) (kind : ActionKind τ) (constraining : List ActionId)
    (enforced : Option WorkerId) : Carried ctx s (created t (Action.new kind constraining enforced)) := by
  refine h.move (.create (Action.new kind constraining enforced)) ⟨rfl, rfl⟩ (Nat.le_succ _)
    (h.known.congr (Nat.le_succ _) rfl fun p b hb => .inl ?_)
  exact forall_setAction (P := fun p y => ∀ b ∈ y.dataSuccessors.elems, b ∈ t.successors p) (fun b hb => by cases hb)
    (fun _ _ _ hb => hb) p b hb

theorem launchWorkerAction_carried (hs : QueuesSound s) (ha : a < s.nextId) (w : WorkerId) (impl : Implementation τ) :
    Java.Keeps (Carried ctx s) (launchWorkerAction ctx a w impl) := by
  refine .tryCatch (.bind (fun t ht => ?_) fun _ => tryToLaunchAction_carried hs a) fun e =>
    .ite (fun _ => .pure _) fun _ => .throw _
  rcases scheduleWorkerAction_cases a w impl t with hr | ⟨y, hr, hy⟩
  · rw [hr]
    exact ht
  · rw [hr]
    exact ht.assigned ha hy

theorem newWorkerAction_carried (hs : QueuesSound s) (kind : ActionKind τ) (w : WorkerId) (impl : Implementation τ) :
    Java.Keeps (Carried ctx s) (do
      let action ← newWorkerAction kind w
      launchWorkerAction ctx action w impl : M δ τ Unit) := by
  intro t ht
  have hc := ht.created kind [] (some w)
  have hlt : t.nextId < (created t (Action.new kind [] (some w))).nextId := Nat.lt_succ_self _
  exact hc.trans (launchWorkerAction_carried (hc.queuesSound hs) hlt w impl _ (.refl hc.known))

/-- A new action is linked to its predecessors and placed. -/
theorem newAllocatableAction_carried (hs : QueuesSound s) (coreId : CoreId) (appId : Int) (hasPriority : Bool)
    (constraining : List ActionId) (enforced : Option WorkerId) (predecessors : List ActionId) :
    Java.Keeps (Carried ctx s)
      (Op.call ctx (.newAllocatableAction coreId appId hasPriority constraining enforced predecessors)) := by
  intro t ht
  have hc := ht.created (.execution coreId appId hasPriority) constraining enforced
  obtain ⟨u, hu⟩ : ∃ u, u = created t (Action.new (.execution coreId appId hasPriority) constraining enforced) := ⟨_, rfl⟩
  rw [← hu] at hc
  have hlt : t.nextId < u.nextId := by rw [hu]; exact Nat.lt_succ_self _
  have hlink : Java.Keeps (Carried ctx u) (predecessors.forM (addDataPredecessor t.nextId)) := by
    refine .forM _ fun p _ => .bind .get fun v => .ite (fun _ => .bind ?_ fun _ => ?_) fun _ => .pure _
    · refine modifyAction_carried _ fun x => ?_
      split
      · exact ⟨_, _, rfl, fun b hb => .inl hb⟩
      · exact ⟨_, _, rfl, fun b hb => .inl hb⟩
    · refine modifyAction_carried _ fun x => ?_
      split
      · exact ⟨_, _, rfl, fun b hb => .inl hb⟩
      · refine ⟨_, _, rfl, fun b hb => ?_⟩
        rcases List.mem_append.mp hb with hb | hb
        · exact .inl hb
        · rw [List.mem_singleton.mp hb]
          exact .inr hlt
  have hrun : Op.call ctx (.newAllocatableAction coreId appId hasPriority constraining enforced predecessors) t = (do
      predecessors.forM (addDataPredecessor t.nextId)
      placeReady ctx t.nextId : M δ τ Unit) u := by
    rw [Op.call, newExecutionAction, bind_assoc, Java.bind_ok (Java.get_run t), bind_assoc,
      Java.bind_ok (Java.modify_run _ t), bind_assoc, hu]
    rfl
  rw [hrun]
  exact hc.trans (Java.Keeps.bind hlink (fun _ => placeReady_carried (hc.queuesSound hs) hlt) u (.refl hc.known))

/-! ## Worker updates -/

/-- What is taken out of the blocked actions was there. -/
theorem Known.taken (hk : Known s) (w : WorkerId) (cores : List CoreId) :
    Known (takenOut s w cores) ∧ ∀ b ∈ taken s w cores, b < s.nextId := by
  refine ⟨⟨fun c b hb => ?_, fun b hb => ?_, hk.successor⟩, fun b hb => ?_⟩
  · rw [takenOut_coreIndexed] at hb
    split at hb
    · cases hb
    · exact hk.coreIndexed c b hb
  · simp only [takenOut, ActionSet.removeAllCompatibleActions, removeCores_noCore] at hb
    exact hk.noCore b (List.mem_filter.mp hb).1
  · simp only [TaskScheduler.taken, ActionSet.removeAllCompatibleActions] at hb
    rcases List.mem_append.mp hb with hb | hb
    · exact hk.noCore b (List.mem_filter.mp hb).1
    · obtain ⟨c, -, hb⟩ := (mem_removeCores cores _).mp hb
      exact hk.coreIndexed c b hb

theorem increasedWorkerResources_carried (hs : QueuesSound s) (w : WorkerId) :
    Java.Keeps (Carried ctx s) (increasedWorkerResources ctx w) := by
  intro t ht
  rw [increasedWorkerResources, Java.bind_ok (Java.get_run t)]
  dsimp only
  split
  · exact ht
  · generalize ctx.ops.executableCores (t.resource w).myWorker = cores
    obtain ⟨hk, hlt⟩ := ht.known.taken w cores
    have haside : Aside t (takenOut t w cores) := ⟨rfl, rfl, rfl⟩
    have hu : Carried ctx s (takenOut t w cores) := ht.elsewhere haside.sameQueues hk
    refine hu.trans (Java.Keeps.forM (I := Carried ctx (takenOut t w cores)) _ (fun b hb => ?_) _ (.refl hk))
    obtain ⟨score, hb⟩ := mem_of_mem_byScore hb
    obtain ⟨b', hb', he⟩ := List.mem_map.mp hb
    obtain rfl := (Prod.mk.inj he).1
    exact placeReady_carried (hu.queuesSound hs) (hlt _ hb')

theorem workerRemoved_carried (hs : QueuesSound s) (w : WorkerId) :
    Java.Keeps (Carried ctx s) (workerRemoved ctx w) := by
  intro t ht
  have hst := ht.queuesSound hs
  rw [workerRemoved, Java.bind_ok (Java.get_run t)]
  refine ht.trans (Java.Keeps.forM (I := Carried ctx t) _ (fun b hb => ?_) t (.refl ht.known))
  have hlt : b < t.nextId := hst.registered b (.inl (by rw [((hst.queue w b).mp hb).1]; decide))
  refine .bind .get fun u => placeAction_carried hst hlt _ ?_
  exact .ite (fun _ => removeFromReady_carried b) fun _ => .pure _

theorem reducedWorkerResources_carried (hs : QueuesSound s) (w : WorkerId) :
    Java.Keeps (Carried ctx s) (reducedWorkerResources ctx w) := by
  refine .bind .get fun t => .ite (fun _ => ?_) fun _ => .pure _
  refine .bind (carried_modify fun _ => ⟨⟨rfl, rfl, rfl⟩, rfl⟩) fun _ => .bind (workerRemoved_carried hs w) fun _ => ?_
  exact newWorkerAction_carried hs _ w _

theorem completedResourceUpdate_carried (hs : QueuesSound s) (w : WorkerId) (ru : ResourceUpdate τ) :
    Java.Keeps (Carried ctx s) (completedResourceUpdate ctx w ru) := by
  refine .bind (carried_modify fun _ => ⟨⟨rfl, rfl, rfl⟩, rfl⟩) fun _ => ?_
  cases ru.type with
  | increase => exact increasedWorkerResources_carried hs w
  | reduce => exact reducedWorkerResources_carried hs w

theorem doCompleted_carried (hs : QueuesSound s) (a : ActionId) : Java.Keeps (Carried ctx s) (doCompleted ctx a) := by
  refine .bind (call_carried _) fun _ => .bind .get fun t => ?_
  cases (t.action a).kind with
  | execution | startWorker | stopWorker => exact .pure _
  | reduceWorker w impl ru => exact completedResourceUpdate_carried hs w ru

theorem doFailed_carried (hs : QueuesSound s) (a : ActionId) : Java.Keeps (Carried ctx s) (doFailed ctx a) := by
  refine .bind .get fun t => ?_
  cases (t.action a).kind with
  | execution | startWorker | stopWorker => exact .pure _
  | reduceWorker w impl ru => exact completedResourceUpdate_carried hs w ru

/-! ## The end of an action -/

theorem leaveResource_carried (hs : QueuesSound s) (hk : Known s) (hr : (s.action a).state = .running)
    {state : ActionState} (hstate : state = .finished ∨ state = .runnable) :
    Carried ctx s (Java.final (leaveResource ctx a state s)) := by
  have hset : ∀ p, (s.setAction a { s.action a with state := state }).successors p = s.successors p :=
    forall_setAction (P := fun p y => y.dataSuccessors.elems = s.successors p) rfl fun _ _ => rfl
  have hkeeps : ∀ u, u = Java.final (leaveResource ctx a state s) → u.nextId = s.nextId ∧
      u.blockedActions = s.blockedActions ∧ ∀ p, u.successors p = s.successors p := by
    rintro u rfl
    rcases leaveResource_final ctx hs hr hstate with h | ⟨w, d, t, h, hres, -⟩
    · rw [h]
      exact ⟨rfl, rfl, hset⟩
    · rw [h]
      refine ⟨hres.nextId, hres.blockedActions, fun p => ?_⟩
      rw [Java.final_ok, successors, hres.dataSuccessors]
      exact hset p
  obtain ⟨hn, hb, hsucc⟩ := hkeeps _ rfl
  exact (Carried.refl hk).move (.leave a state) ⟨hr, hstate⟩ (Nat.le_of_eq hn.symm)
    (hk.congr (Nat.le_of_eq hn.symm) hb fun p b hp => .inl (by rw [← hsucc p]; exact hp))

theorem releaseSuccessors_carried (a : ActionId) : ∀ l : List ActionId,
    Java.Keeps (Carried ctx s) (releaseSuccessors a l)
  | [] => .pure _
  | aa :: l => by
    have hdone : Java.Keeps (Carried ctx s) (dataPredecessorDone aa a) :=
      modifyAction_carried _ fun x => ⟨_, _, rfl, fun b hb => .inl hb⟩
    refine .bind hdone fun _ => .bind .get fun t => .ite (fun _ => ?_) fun _ => releaseSuccessors_carried a l
    exact .bind (releaseSuccessors_carried a l) fun _ => .pure _

theorem completed_carried (hs : QueuesSound s) (hk : Known s) (hr : (s.action a).state = .running) :
    Carried ctx s (Java.final (completed ctx a s)) := by
  refine Java.Keeps.final_bind (leaveResource_carried hs hk hr (.inl rfl)) fun _ => .bind (doCompleted_carried hs a) fun _ => ?_
  refine .bind .get fun t => .bind (releaseSuccessors_carried a _) fun l => ?_
  exact .bind (modifyAction_carried _ fun x => ⟨_, _, rfl, fun b hb => by cases hb⟩) fun _ => .pure _

theorem actionCompleted_carried (hs : QueuesSound s) (hk : Known s) (hr : (s.action a).state = .running) :
    Carried ctx s (Java.final (actionCompleted ctx a s)) := by
  obtain ⟨counts, hc⟩ := removeFromReady_ok ctx a s
  have haside : Aside s { s with readyCounts := counts } := ⟨rfl, rfl, rfl⟩
  have hu : Carried ctx s { s with readyCounts := counts } :=
    (Carried.refl hk).elsewhere haside.sameQueues (haside.known rfl hk)
  generalize ({ s with readyCounts := counts } : TaskScheduler δ τ) = u at *
  have hru : (u.action a).state = .running := by rw [haside.1]; exact hr
  have hsu := hu.queuesSound hs
  rw [actionCompleted, Java.bind_ok hc, Java.bind_ok (Java.get_run u)]
  cases hw : (u.action a).selectedResource with
  | none => exact hu
  | some w =>
    refine hu.trans (Java.Keeps.final_bind (completed_carried hsu hu.known hru) fun l => ?_)
    refine .bind (.forM _ fun b _ => addToReady_carried b) fun _ => .bind .get fun t => ?_
    exact .forM _ fun b _ => tryToLaunch_carried hsu b

theorem withdraw_carried (ha : a < s.nextId) : Java.Keeps (Carried ctx s) (withdraw a) := by
  intro t ht
  obtain ⟨u, hu⟩ : ∃ u, u = cancelled a (t.setAction a { t.action a with state := .failed }) := ⟨_, rfl⟩
  have hfields : u.nextId = t.nextId ∧ u.blockedActions = t.blockedActions := by
    rw [hu, cancelled]
    split <;> exact ⟨rfl, rfl⟩
  have hsucc : ∀ p, u.successors p = t.successors p := by
    rw [hu]
    simp only [successors, cancelled_action]
    exact forall_setAction (P := fun p y => y.dataSuccessors.elems = t.successors p) rfl fun _ _ => rfl
  have hcancel : Carried ctx s u := by
    rw [hu] at hfields hsucc ⊢
    exact ht.move (.cancel a) (ha.trans_le ht.nextId_le) (Nat.le_of_eq hfields.1.symm)
      (ht.known.congr (Nat.le_of_eq hfields.1.symm) hfields.2 fun p b hp => .inl (by rw [← hsucc p]; exact hp))
  rw [withdraw, Java.bind_ok (modifyAction_run ..), Java.bind_ok (cancelOnResource_run ..),
    Java.bind_ok (Java.get_run _), ← hu]
  refine Java.Keeps.forM _ (fun p _ => modifyAction_carried p fun x => ⟨_, _, rfl, fun b hb => .inl ?_⟩) u hcancel
  rw [LinkedList.remove_elems] at hb
  exact List.mem_of_mem_erase hb

theorem failed_carried : ∀ (fuel : Nat) {s : TaskScheduler δ τ} {a : ActionId}, QueuesSound s → a < s.nextId →
    Java.Keeps (Carried ctx s) (failed (doFailed ctx) fuel a)
  | 0, _, _, _, _ => .throw _
  | fuel + 1, s, a, hs, ha => by
    refine .bind (withdraw_carried ha) fun _ => .bind .get fun t => .bind ?_ fun l => ?_
    · refine Java.Keeps.forEach (fun acc b u hu hb => ?_) _ _ _
      have hlt : b < u.nextId := hu.known.successor a b hb
      have hrec := failed_carried fuel (hu.queuesSound hs) hlt u (.refl hu.known)
      exact hu.trans (Java.Keeps.final_bind hrec fun l => .pure _)
    · refine .bind (modifyAction_carried _ fun x => ⟨_, _, rfl, fun b hb => by cases hb⟩) fun _ => ?_
      exact .bind (call_carried _) fun _ => .bind (doFailed_carried hs a) fun _ => .pure _

theorem doError_carried (a : ActionId) : Java.Keeps (Carried ctx s) (doError a) := by
  refine .bind (call_carried _) fun _ => .bind .get fun t => ?_
  dsimp only
  cases (t.action a).kind with
  | execution => exact .ite (fun _ => .throw _) fun _ => .pure _
  | startWorker | reduceWorker | stopWorker => exact .throw _

theorem errorOnAction_carried (hs : QueuesSound s) (hk : Known s) (ha : a < s.nextId)
    (hr : (s.action a).state = .running) (fuel : Nat) :
    Carried ctx s (Java.final (errorOnAction ctx fuel a s)) := by
  have hprocess : Carried ctx s (Java.final (processError ctx fuel a s)) := by
    refine Java.Keeps.final_tryCatch (Java.Keeps.final_bind ?_ fun _ => .pure _) fun e => .ite (fun _ => ?_) fun _ => .throw _
    · exact Java.Keeps.final_bind (leaveResource_carried hs hk hr (.inr rfl)) fun _ => doError_carried a
    · exact .bind (removeFromReady_carried a) fun _ => .bind (failed_carried fuel hs ha) fun _ => .pure _
  refine Java.Keeps.final_bind hprocess fun b => .ite (fun _ => .pure _) fun _ => ?_
  exact .bind .get fun t => placeAction_carried hs ha _ (removeFromReady_carried a)

/-- **Operations are moves.** Every operation, returned or raised, is a chain
of moves. -/
theorem call_carried_of_enabled {op : Op δ τ} (hs : QueuesSound s) (hk : Known s) (hen : op.Enabled s) :
    Carried ctx s (Java.final (op.call ctx s)) := by
  cases op with
  | newAllocatableAction coreId appId hasPriority constraining enforced predecessors =>
    exact newAllocatableAction_carried hs coreId appId hasPriority constraining enforced predecessors s (.refl hk)
  | actionCompleted a => exact actionCompleted_carried hs hk hen.2
  | errorOnAction fuel a => exact errorOnAction_carried hs hk hen.1 hen.2 (fuel + 1)
  | completedResourceUpdate w description ru =>
    have hu : Carried ctx s (s.setResource w { s.resource w with myWorker := description }) :=
      (Carried.refl hk).move (.update w description) trivial (Nat.le_refl _)
        (hk.congr (Nat.le_refl _) rfl fun p b hp => .inl hp)
    exact hu.trans (completedResourceUpdate_carried (hu.queuesSound hs) w ru _ (.refl hu.known))

end

/-! ## Runs -/

/-- The loop over the queue of `w` returns, and takes off it exactly the
actions it resumes. -/
def TakesOff (ctx : Ctx δ τ) (w : WorkerId) (s : TaskScheduler δ τ) : Prop :=
  ∃ t, tryToLaunchBlockedActions ctx w ((s.resource w).blocked.length + 1) s = .ok () t ∧ QueuesExact t ∧
    (∀ v ≠ w, (t.resource v).blocked = (s.resource v).blocked) ∧
    ∀ a, a ∈ (s.resource w).blocked ∧ a ∉ (t.resource w).blocked ↔
      (s.action a).state = .waiting ∧ (t.action a).state = .running

/-- The queues are exact, the loops over them end, and no queue could go on. -/
structure NeverStalls (ctx : Ctx δ τ) (s : TaskScheduler δ τ) : Prop extends QueuesExact s where
  /-- Whatever the worker has room for. -/
  takesOff : ∀ w description, TakesOff ctx w (s.setResource w { s.resource w with myWorker := description })
  /-- When an action leaves its worker. -/
  leaves : ∀ a state w t, (s.action a).state = .running → state = .finished ∨ state = .runnable →
    leave ctx a state s = .ok w t → TakesOff ctx w t
  headWaits : ∀ w, HeadWaits ctx s w

/-- The operation is carried out by careful moves. -/
def Op.Careful (ctx : Ctx δ τ) (s : TaskScheduler δ τ) (op : Op δ τ) : Prop :=
  Relation.ReflTransGen (CarefulMoves ctx) s (Java.final (op.call ctx s))

section
variable (ctx : Ctx δ τ) {s t : TaskScheduler δ τ}

theorem QueuesSound.takesOff (hs : QueuesSound s) (w : WorkerId) : TakesOff ctx w s := by
  obtain ⟨t, ht, hres, hst, -⟩ := tryToLaunchBlockedActions_spec ctx w _ s hs (Nat.lt_succ_self _)
  refine ⟨t, ht, hst.toQueuesExact, fun v hv => by rw [hres.resource v hv], fun a => ?_⟩
  rw [hs.queue, hst.queue, hres.selectedResource]
  rcases hres.state a with h | ⟨hw, hsel, hr⟩
  · rw [h]
    constructor
    · rintro ⟨ha, hn⟩
      exact absurd ha hn
    · rintro ⟨hw, hr⟩
      rw [hw] at hr
      cases hr
  · rw [hr]
    exact ⟨fun _ => ⟨hw, rfl⟩, fun _ => ⟨⟨hw, hsel⟩, fun h => by cases h.1⟩⟩

theorem QueuesSound.neverStalls (hs : QueuesSound s) (hh : ∀ v, HeadWaits ctx s v) : NeverStalls ctx s where
  toQueuesExact := hs.toQueuesExact
  takesOff w description := by
    have hupdate : QueuesSound (QueueMove.next ctx s (.update w description)) :=
      QueueMove.Enabled.queuesSound trivial hs
    exact hupdate.takesOff ctx w
  leaves a state w t hr hstate ht := by
    rcases leave_cases ctx a state s with h | ⟨v, d, -, h⟩
    · rw [h] at ht
      cases ht
    · rw [h] at ht
      cases ht
      exact (hs.left hr hstate w d).2.takesOff ctx w
  headWaits := hh

theorem queuesSound_initial (workers : List WorkerId) (description : WorkerId → δ) (assignedAppId : WorkerId → Option Int)
    (coreToWorkers : CoreId → List WorkerId) :
    QueuesSound (initial workers description assignedAppId coreToWorkers : TaskScheduler δ τ) where
  queue w a := iff_of_false List.not_mem_nil fun h => by cases h.1
  nodup w := List.nodup_nil
  assigned a h := by cases h
  reserves a h := by cases h
  registered a h := h.elim (fun h => absurd rfl h) fun h => by cases h

theorem known_initial (workers : List WorkerId) (description : WorkerId → δ) (assignedAppId : WorkerId → Option Int)
    (coreToWorkers : CoreId → List WorkerId) :
    Known (initial workers description assignedAppId coreToWorkers : TaskScheduler δ τ) where
  coreIndexed c a h := by cases h
  noCore a h := by cases h
  successor p a h := by cases h

/-- In every run the queues are exact, whatever the operations do. -/
theorem queuesExact_always (workers : List WorkerId) (description : WorkerId → δ)
    (assignedAppId : WorkerId → Option Int) (coreToWorkers : CoreId → List WorkerId)
    (labels : List (Outside τ × Op δ τ)) :
    Always (step ctx) QueuesExact (initial workers description assignedAppId coreToWorkers) labels := by
  refine always_of_along (I := fun s => QueuesSound s ∧ Known s) (fun s hs => hs.1.toQueuesExact)
    (fun s label t hs _ ht => ?_)
    ⟨queuesSound_initial .., known_initial ..⟩ (along_true labels)
  have hcarried : Carried { ctx with toOutside := label.1 } s t := by
    rw [eq_final_of_step ctx ht]
    exact call_carried_of_enabled hs.1 hs.2 (enabled_of_step ctx ht)
  exact ⟨hcarried.queuesSound hs.1, hcarried.known⟩

end

/-! ## A worker that grows -/

/-- One worker, which runs executions of the core `0` one at a time. -/
def oneSlot : TaskScheduler Nat Unit := initial [0] (fun _ => 1) (fun _ => none) fun c => if c = 0 then [0] else []

/-- An execution of the core `0`. -/
def newExecution : Outside Unit × Op Nat Unit :=
  (Chronicle.slots.toOutside, .newAllocatableAction 0 0 false [] none [])

end TaskScheduler

end Compss.Scheduler
