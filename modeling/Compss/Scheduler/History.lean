/-
The executions of a task's action: on which workers it has been run, and how
often it is scheduled again after an error.

`executingResources` is what the action remembers of them. `execute` adds the
worker to it before it calls `run`; `resumeExecution` calls `run` as well, and
adds nothing. `schedule` passes over the workers of the list and `doError`
counts them, so that an execution resumed from the queue of a worker is
forgotten by both.
-/
import Compss.Lib.Run
import Compss.Scheduler.Invariant

namespace Compss.Scheduler

open Lib

variable {δ τ : Type}

/-- What the code of a worker makes sure of: what can run now is reserved, and
the implementations the worker lists can run on it. -/
structure WorkerOps.Reliable (ops : WorkerOps δ τ) : Prop where
  reserves : ∀ d requirements, ops.canRunNow d requirements = true → (ops.runTask d requirements).2.isSome = true
  executable : ∀ d coreId, ∀ impl ∈ ops.executableImpls d coreId, ops.canRun d impl = true

namespace Action

/-- The action executes a task. -/
def IsExecution (x : Action τ) : Prop := ∃ coreId appId hasPriority, x.kind = .execution coreId appId hasPriority

theorem IsExecution.isToReserveResources {x : Action τ} (h : x.IsExecution) : x.isToReserveResources = true := by
  obtain ⟨coreId, appId, hasPriority, hk⟩ := h
  simp only [Action.isToReserveResources, hk]

theorem IsExecution.isToReleaseResources {x : Action τ} (h : x.IsExecution) : x.isToReleaseResources = true := by
  obtain ⟨coreId, appId, hasPriority, hk⟩ := h
  simp only [Action.isToReleaseResources, hk]

end Action

/-! ## Histories -/

/-- The scheduler, and the workers each action has been run on. -/
structure Chronicle (δ τ : Type) where
  scheduler : TaskScheduler δ τ
  ranOn : ActionId → List WorkerId

/-- What happens to actions. `completed` and `error` are the calls for the end
of an execution; the actions they resume on the worker, one by one, and those
they launch are steps of their own. -/
inductive HistoryStep (δ τ : Type)
  | schedule (a : ActionId) (actionScore : Score) (outside : Outside τ)
  | tryToLaunch (a : ActionId)
  | resumeExecution (a : ActionId)
  | completed (a : ActionId)
  | error (a : ActionId)
  | failed (a : ActionId)
  /-- The workers change, and the predecessors of actions. -/
  | elsewhere (resource : WorkerId → ResourceScheduler δ) (coreToWorkers : CoreId → List WorkerId)
      (dataPredecessors : ActionId → List ActionId)

namespace TaskScheduler

section
variable (ctx : Ctx δ τ)

/-- `leaveResource` up to the actions that wait for the worker. -/
def leave (a : ActionId) (state : ActionState) : M δ τ WorkerId := do
  modifyAction a fun x => { x with state := state }
  match ((← get).action a).selectedResource with
  | none => throw .nullPointer
  | some w =>
    releaseResources ctx w a
    unhostAction w a
    return w

/-- `error`, and `failed` when no chance is left. -/
def leaveOnError (a : ActionId) : M δ τ Unit :=
  tryCatch
    (do
      let _ ← leave ctx a .runnable
      doError a)
    fun e => if e = .failedAction then withdraw a else throw e

/-- The actions that wait for a worker are tried when the one that leaves it
has left. -/
theorem leaveResource_eq (a : ActionId) (state : ActionState) (s : TaskScheduler δ τ) :
    leaveResource ctx a state s = (do
      let w ← leave ctx a state
      tryToLaunchBlockedActions ctx w (((← get).resource w).blocked.length + 1) : M δ τ Unit) s := by
  rw [leaveResource, leave, bind_assoc, Java.bind_ok (modifyAction_run ..), Java.bind_ok (modifyAction_run ..),
    bind_assoc, Java.bind_ok (Java.get_run _), Java.bind_ok (Java.get_run _)]
  cases ((s.setAction a { s.action a with state := state }).action a).selectedResource with
  | none => rfl
  | some w => simp only [bind_assoc, pure_bind]

end

end TaskScheduler

namespace HistoryStep

variable (ctx : Ctx δ τ)

/-- The method the step calls. -/
def call : HistoryStep δ τ → TaskScheduler.M δ τ Unit
  | .schedule a actionScore outside => TaskScheduler.schedule { ctx with toOutside := outside } a actionScore
  | .tryToLaunch a => TaskScheduler.tryToLaunchAction ctx a
  | .resumeExecution a => TaskScheduler.resumeExecution ctx a
  | .completed a => do let _ ← TaskScheduler.leave ctx a .finished
  | .error a => TaskScheduler.leaveOnError ctx a
  | .failed a => TaskScheduler.withdraw a
  | .elsewhere resource coreToWorkers dataPredecessors =>
    modify fun s =>
      { s with
        resource := resource, coreToWorkers := coreToWorkers,
        action := fun a => { s.action a with dataPredecessors := dataPredecessors a } }

/-- Only what runs ends. -/
def Enabled (s : TaskScheduler δ τ) : HistoryStep δ τ → Prop
  | .completed a | .error a => (s.action a).state = .running
  | .schedule .. | .tryToLaunch _ | .resumeExecution _ | .failed _ | .elsewhere .. => True

instance (s : TaskScheduler δ τ) (l : HistoryStep δ τ) : Decidable (l.Enabled s) := by
  unfold Enabled; split <;> infer_instance

end HistoryStep

namespace Chronicle

/-- The worker of an action that `run` has just started. -/
def started (x y : Action τ) : List WorkerId :=
  if x.state ≠ .running ∧ y.state = .running then y.selectedResource.toList else []

section
variable (ctx : Ctx δ τ)

def step (c : Chronicle δ τ) (l : HistoryStep δ τ) : Option (Chronicle δ τ) :=
  if l.Enabled c.scheduler then
    let t := Java.final (l.call ctx c.scheduler)
    some ⟨t, fun a => c.ranOn a ++ started (c.scheduler.action a) (t.action a)⟩
  else none

/-- Every action is as its constructor makes it. -/
structure Initial (c : Chronicle δ τ) : Prop where
  action : ∀ a, ∃ kind constraining enforced, c.scheduler.action a = Action.new kind constraining enforced
  ranOn : ∀ a, c.ranOn a = []

/-- The history of an execution bounds its retries. -/
structure Remembers (c : Chronicle δ τ) (a : ActionId) : Prop where
  /-- While it runs, its worker is in its list. -/
  executing : (c.scheduler.action a).state = .running → ∃ w,
    (c.scheduler.action a).selectedResource = some w ∧ w ∈ (c.scheduler.action a).executingResources
  /-- It is assigned only workers it has not been run on. -/
  fresh : ∀ outside actionScore t, (c.scheduler.action a).state = .runnable →
    TaskScheduler.schedule { ctx with toOutside := outside } a actionScore c.scheduler = .ok () t →
      ∃ w, (t.action a).selectedResource = some w ∧ w ∉ c.ranOn a
  /-- It stays with the worker it had only when no other candidate can execute it. -/
  unassigned : ∀ outside actionScore t coreId appId hasPriority, (c.scheduler.action a).state = .runnable →
    TaskScheduler.schedule { ctx with toOutside := outside } a actionScore c.scheduler = .error .unassignedAction t →
    (c.scheduler.action a).kind = .execution coreId appId hasPriority →
      ∀ w, some w ∈ TaskScheduler.candidates c.scheduler (c.scheduler.action a) coreId appId → w ∉ c.ranOn a →
        ctx.ops.executableImpls (c.scheduler.resource w).myWorker coreId = []
  rounds : (c.ranOn a).length ≤ TaskScheduler.schedulingChances
  /-- It is launched again only while it has a chance left. -/
  chance : (c.scheduler.action a).state = .runnable ∨ (c.scheduler.action a).state = .waiting →
    (c.ranOn a).length < TaskScheduler.schedulingChances

/-- The step does not resume the action from the queue of a worker. -/
def Direct (a : ActionId) (c : Chronicle δ τ) (l : HistoryStep δ τ) : Prop :=
  l = .resumeExecution a → (c.scheduler.action a).state ≠ .waiting

end

end Chronicle

/-! ## What a step touches -/

namespace Action

/-- An update the history of the action does not see. -/
structure Undisturbed (x y : Action τ) : Prop where
  kind : y.kind = x.kind
  state : y.state = x.state
  selectedResource : y.selectedResource = x.selectedResource
  resourceConsumption : y.resourceConsumption = x.resourceConsumption
  executingResources : y.executingResources = x.executingResources

theorem Undisturbed.refl (x : Action τ) : x.Undisturbed x := ⟨rfl, rfl, rfl, rfl, rfl⟩

theorem Undisturbed.trans {x y z : Action τ} (h : x.Undisturbed y) (h' : y.Undisturbed z) : x.Undisturbed z :=
  ⟨h'.kind.trans h.kind, h'.state.trans h.state, h'.selectedResource.trans h.selectedResource,
    h'.resourceConsumption.trans h.resourceConsumption, h'.executingResources.trans h.executingResources⟩

end Action

namespace TaskScheduler

/-- Only the action `a` has got a different history, and its kind is the same. -/
structure ApartFrom (a : ActionId) (s t : TaskScheduler δ τ) : Prop where
  others : ∀ b ≠ a, (s.action b).Undisturbed (t.action b)
  kind : (t.action a).kind = (s.action a).kind

section
variable (ctx : Ctx δ τ) {s t : TaskScheduler δ τ} {a : ActionId}

theorem ApartFrom.refl (a : ActionId) (s : TaskScheduler δ τ) : ApartFrom a s s := ⟨fun _ _ => .refl _, rfl⟩

theorem apart_local : Local (ApartFrom a s) a where
  action f hf := .modify fun t ht => ⟨fun b hb => by
    rw [setAction_action, if_neg hb]
    exact ht.others b hb, by
    rw [setAction_self, hf]
    exact ht.kind⟩
  resource _ _ := .modify fun _ ht => ⟨ht.others, ht.kind⟩
  call _ := .modify fun _ ht => ⟨ht.others, ht.kind⟩

theorem schedule_apart (a : ActionId) (score : Score) (s : TaskScheduler δ τ) :
    ApartFrom a s (Java.final (schedule ctx a score s)) := by
  have hassigned : ∀ y, Assigned (s.action a) y → ApartFrom a s (s.setAction a y) := fun y hy =>
    ⟨fun b hb => by rw [setAction_action, if_neg hb]; exact .refl _, by rw [setAction_self]; exact hy.alike.kind⟩
  by_cases hall : s.AllExecuted (s.action a)
  · rw [schedule_blocked ctx hall]
    exact .refl a s
  · rcases schedule_cases ctx score hall with ⟨y, hr, hy⟩ | hr | ⟨hr, -⟩
    · rw [hr]
      exact hassigned y hy
    · rw [hr]
      exact .refl a s
    · rw [hr]
      exact .refl a s

theorem resumeExecution_local {I : TaskScheduler δ τ → Prop} (hI : Local I a) : Java.Keeps I (resumeExecution ctx a) := by
  refine .bind .get fun t => .ite (fun _ => ?_) fun _ => .throw _
  cases (t.action a).selectedResource with
  | none => exact .throw _
  | some w => exact run_local ctx hI w

theorem leave_local {I : TaskScheduler δ τ → Prop} (hI : Local I a) (state : ActionState) :
    Java.Keeps I (leave ctx a state) := by
  refine .bind (hI.action _ fun _ => rfl) fun _ => .bind .get fun t => ?_
  cases (t.action a).selectedResource with
  | none => exact .throw _
  | some w =>
    refine .bind (.bind .get fun u => .ite (fun _ => ?_) fun _ => .pure _) fun _ =>
      .bind (hI.resource w _) fun _ => .pure _
    cases (u.action a).resourceConsumption with
    | none => exact .throw _
    | some consumption => exact hI.resource w _

theorem doError_local {I : TaskScheduler δ τ → Prop} (hI : Local I a) : Java.Keeps I (doError a) := by
  refine .bind (hI.call _) fun _ => .bind .get fun t => ?_
  dsimp only
  cases (t.action a).kind with
  | execution coreId appId hasPriority => exact .ite (fun _ => .throw _) fun _ => .pure _
  | startWorker w impl => exact .throw _
  | reduceWorker w impl ru => exact .throw _
  | stopWorker w impl => exact .throw _

/-- The predecessors of an action lose a successor, which none of them sees. -/
theorem forget_undisturbed (a : ActionId) : ∀ (l : List ActionId) (s : TaskScheduler δ τ) (b : ActionId),
    (s.action b).Undisturbed ((Java.final (l.forM (fun pred =>
      modifyAction pred fun x => { x with dataSuccessors := x.dataSuccessors.remove a } : ActionId → M δ τ Unit) s)).action b)
  | [], s, b => .refl _
  | pred :: l, s, b => by
    refine Action.Undisturbed.trans ?_ (forget_undisturbed a l _ b)
    rw [setAction_action]
    split
    · next hb => subst hb; exact ⟨rfl, rfl, rfl, rfl, rfl⟩
    · exact .refl _

theorem cancelOnResource_final (a : ActionId) (s : TaskScheduler δ τ) :
    ∃ t, cancelOnResource a s = .ok () t ∧ t.action = s.action := by
  rw [cancelOnResource, Java.bind_ok (Java.get_run s)]
  cases (s.action a).selectedResource with
  | none => exact ⟨s, rfl, rfl⟩
  | some w => exact ⟨_, modifyResource_run .., rfl⟩

/-- `withdraw` marks the action as failed; its history is as it was. -/
theorem withdraw_action (a : ActionId) (s : TaskScheduler δ τ) (b : ActionId) :
    ((s.setAction a { s.action a with state := .failed }).action b).Undisturbed
      ((Java.final (withdraw a s)).action b) := by
  obtain ⟨t, ht, hta⟩ := cancelOnResource_final a (s.setAction a { s.action a with state := .failed })
  rw [withdraw, Java.bind_ok (modifyAction_run ..), Java.bind_ok ht, Java.bind_ok (Java.get_run t), ← hta]
  exact forget_undisturbed a _ t b

theorem withdraw_apart (h : ApartFrom a s t) : ApartFrom a s (Java.final (withdraw a t)) := by
  constructor
  · intro b hb
    have hw := withdraw_action a t b
    rw [setAction_action, if_neg hb] at hw
    exact (h.others b hb).trans hw
  · have hw := withdraw_action a t a
    rw [setAction_self] at hw
    exact hw.kind.trans h.kind

theorem leaveOnError_apart (a : ActionId) (s : TaskScheduler δ τ) :
    ApartFrom a s (Java.final (leaveOnError ctx a s)) := by
  have h : Java.Keeps (ApartFrom a s) (leaveOnError ctx a) :=
    .tryCatch (.bind (leave_local ctx apart_local _) fun _ => doError_local apart_local)
      fun e => .ite (fun _ _ ht => withdraw_apart ht) fun _ => .throw _
  exact h s (.refl a s)

end

end TaskScheduler

/-! ## What a step makes of an execution -/

namespace Action

/-- What the steps that resume nothing make of an execution. -/
inductive Moves (x : Action τ) : Action τ → Prop
  | undisturbed {y : Action τ} : x.Undisturbed y → Moves x y
  | assigned {w : WorkerId} {impl : Implementation τ} : x.state = .runnable →
      Moves x { x with selectedResource := some w, selectedImpl := some impl }
  | launched {w : WorkerId} {consumption : Option τ} : x.state = .runnable → x.selectedResource = some w →
      consumption.isSome → Moves x
        { x with
          state := .running, executingResources := x.executingResources ++ [w],
          resourceConsumption := consumption }
  | waits : x.state = .runnable → Moves x { x with state := .waiting }
  | completed {y : Action τ} : y.state = .finished → y.executingResources = x.executingResources → Moves x y
  | retried : x.state = .running → x.executingResources.length < TaskScheduler.schedulingChances →
      Moves x { x with state := .runnable }
  | failed {y : Action τ} : y.state = .failed → y.executingResources = x.executingResources → Moves x y

/-- The list of an execution is its history, and bounds its retries. -/
structure Follows (x : Action τ) (ranOn : List WorkerId) : Prop where
  ranOn : ranOn = x.executingResources
  executing : x.state = .running → ∃ w, x.selectedResource = some w ∧ w ∈ x.executingResources
  consumes : x.state = .running → x.resourceConsumption.isSome
  rounds : x.executingResources.length ≤ TaskScheduler.schedulingChances
  chance : x.state = .runnable ∨ x.state = .waiting → x.executingResources.length < TaskScheduler.schedulingChances

theorem Follows.move {x y : Action τ} {l : List WorkerId} (h : x.Follows l) (hm : x.Moves y) :
    y.Follows (l ++ Chronicle.started x y) := by
  cases hm with
  | undisturbed hu =>
    have hs : Chronicle.started x y = [] := by
      rw [Chronicle.started, if_neg]
      rintro ⟨h1, h2⟩
      exact h1 (hu.state ▸ h2)
    rw [hs, List.append_nil]
    exact
      { ranOn := h.ranOn.trans hu.executingResources.symm
        executing := by rw [hu.state, hu.selectedResource, hu.executingResources]; exact h.executing
        consumes := by rw [hu.state, hu.resourceConsumption]; exact h.consumes
        rounds := by rw [hu.executingResources]; exact h.rounds
        chance := by rw [hu.state, hu.executingResources]; exact h.chance }
  | assigned hr =>
    rw [Chronicle.started, if_neg (by simp [hr]), List.append_nil]
    exact { h with executing := fun hrun => absurd hrun (by simp [hr]) }
  | launched hr hsel hc =>
    have hlt := h.chance (.inl hr)
    rw [Chronicle.started, if_pos ⟨by simp [hr], rfl⟩]
    exact
      { ranOn := by simp [hsel, h.ranOn]
        executing := fun _ => ⟨_, hsel, by simp⟩
        consumes := fun _ => hc
        rounds := by rw [List.length_append]; exact hlt
        chance := by simp }
  | waits hr =>
    rw [Chronicle.started, if_neg (by simp), List.append_nil]
    exact
      { h with
        executing := (nomatch ·)
        consumes := (nomatch ·)
        chance := fun _ => h.chance (.inl hr) }
  | completed hf he =>
    rw [Chronicle.started, if_neg (by simp [hf]), List.append_nil]
    exact
      { ranOn := h.ranOn.trans he.symm, executing := by simp [hf], consumes := by simp [hf]
        rounds := by rw [he]; exact h.rounds, chance := by simp [hf] }
  | retried hr hlt =>
    rw [Chronicle.started, if_neg (by simp), List.append_nil]
    exact
      { h with
        executing := (nomatch ·)
        consumes := (nomatch ·)
        chance := fun _ => hlt }
  | failed hf he =>
    rw [Chronicle.started, if_neg (by simp [hf]), List.append_nil]
    exact
      { ranOn := h.ranOn.trans he.symm, executing := by simp [hf], consumes := by simp [hf]
        rounds := by rw [he]; exact h.rounds, chance := by simp [hf] }

end Action

namespace TaskScheduler

section
variable (ctx : Ctx δ τ) {s t : TaskScheduler δ τ} {a : ActionId} {w : WorkerId}

theorem Assigned.moves {x y : Action τ} (h : Assigned x y) : x.Moves y := by
  rcases h with rfl | ⟨hr, w, impl, rfl⟩
  · exact .undisturbed (.refl _)
  · exact .assigned hr

theorem schedule_moves (score : Score) (s : TaskScheduler δ τ) (a : ActionId) :
    (s.action a).Moves ((Java.final (schedule ctx a score s)).action a) := by
  by_cases hall : s.AllExecuted (s.action a)
  · rw [schedule_blocked ctx hall]
    exact .undisturbed (.refl _)
  · rcases schedule_cases ctx score hall with ⟨y, hr, hy⟩ | hr | ⟨hr, -⟩
    · rw [hr, Java.final_ok, setAction_self]
      exact hy.moves
    · rw [hr]
      exact .undisturbed (.refl _)
    · rw [hr]
      exact .undisturbed (.refl _)

/-- `execute` of an action that reserves resources: it has no implementation,
it runs, or it waits. -/
theorem execute_cases (hk : (s.action a).isToReserveResources = true) :
    execute ctx w a s = .error .nullPointer s ∨
    (∃ impl, (s.action a).selectedImpl = some impl ∧
      ctx.ops.canRunNow (s.resource w).myWorker impl.requirements = true ∧
      execute ctx w a s = .ok () (ran ctx (s.setAction a
        { s.action a with executingResources := (s.action a).executingResources ++ [w] }) w a)) ∨
    execute ctx w a s = .ok () (waited s w a) := by
  rw [execute, Java.bind_ok (Java.get_run s), if_pos hk]
  cases hi : (s.action a).selectedImpl with
  | none =>
    refine .inl (Java.bind_error ?_)
    rw [areEnoughResources, Java.bind_ok (Java.get_run s)]
    conv_lhs => simp only [hi]
    rfl
  | some impl =>
    rw [Java.bind_ok (areEnoughResources_run ctx hi)]
    dsimp only
    split
    · next hc =>
      refine .inr (.inl ⟨impl, rfl, ?_, ?_⟩)
      · simp only [hk, Bool.not_true, Bool.false_or, Bool.and_eq_true] at hc
        exact hc.2
      · rw [Java.bind_ok (modifyAction_run ..), run_run ctx (by simp [hi])]
    · exact .inr (.inr rfl)

theorem tryToLaunchAction_moves (hops : ctx.ops.Reliable) (hx : (s.action a).IsExecution) :
    (s.action a).Moves ((Java.final (tryToLaunchAction ctx a s)).action a) := by
  have hk := hx.isToReserveResources
  by_cases hc : (s.action a).state = .runnable ∧ (s.action a).hasDataPredecessors = false
  · cases hw : (s.action a).selectedResource with
    | none =>
      rw [tryToLaunchAction_none ctx hw]
      exact .undisturbed (.refl _)
    | some w =>
      rw [tryToLaunchAction_eq ctx hw hc]
      split
      · exact .undisturbed (.refl _)
      · rcases execute_cases ctx (w := w) hk with he | ⟨impl, hi, hnow, he⟩ | he
        · rw [he]
          exact .undisturbed (.refl _)
        · rw [he, Java.final_ok]
          have hres := hops.reserves _ _ hnow
          have hact : (ran ctx (s.setAction a
              { s.action a with executingResources := (s.action a).executingResources ++ [w] }) w a).action a =
              { s.action a with
                state := .running, executingResources := (s.action a).executingResources ++ [w],
                resourceConsumption := (ctx.ops.runTask (s.resource w).myWorker impl.requirements).2 } := by
            simp only [ran, ranAction, setResource_action, setAction_self]
            rw [reserved_eq ctx (x := { s.action a with
              executingResources := (s.action a).executingResources ++ [w] }) hk hi]
            rfl
          rw [hact]
          exact .launched hc.1 hw hres
        · rw [he, Java.final_ok, waited, setResource_action, setAction_self]
          exact .waits hc.1
  · rw [tryToLaunchAction_skip ctx hc]
    exact .undisturbed (.refl _)

/-- Only what waits is resumed. -/
theorem resumeExecution_moves (hw : (s.action a).state ≠ .waiting) :
    (s.action a).Moves ((Java.final (resumeExecution ctx a s)).action a) := by
  rw [resumeExecution, Java.bind_ok (Java.get_run s), if_neg hw]
  exact .undisturbed (.refl _)

/-- What runs has a worker and holds resources of it, so that it can leave. -/
theorem leave_run (state : ActionState) (hs : (s.action a).selectedResource = some w)
    (hc : (s.action a).resourceConsumption.isSome) (hx : (s.action a).IsExecution) :
    ∃ t, leave ctx a state s = .ok w t ∧ t.action a = { s.action a with state := state } := by
  obtain ⟨consumption, hc⟩ := Option.isSome_iff_exists.mp hc
  obtain ⟨u, hu⟩ : ∃ u, u = s.setAction a { s.action a with state := state } := ⟨_, rfl⟩
  have hua : u.action a = { s.action a with state := state } := by rw [hu, setAction_self]
  have hsel : (u.action a).selectedResource = some w := by rw [hua]; exact hs
  have hk : (u.action a).isToReleaseResources = true := by rw [hua]; exact hx.isToReleaseResources
  have hcu : (u.action a).resourceConsumption = some consumption := by rw [hua]; exact hc
  have hrelease : ∃ v, releaseResources ctx w a u = .ok () v ∧ v.action = u.action := by
    rw [releaseResources, Java.bind_ok (Java.get_run u), if_pos hk]
    simp only [hcu]
    exact ⟨_, modifyResource_run .., rfl⟩
  obtain ⟨v, hv, hva⟩ := hrelease
  refine ⟨v.setResource w { v.resource w with running := (v.resource w).running.erase a }, ?_, ?_⟩
  · rw [leave, Java.bind_ok (modifyAction_run ..), Java.bind_ok (Java.get_run _), ← hu]
    conv_lhs => simp only [hsel]
    rw [Java.bind_ok hv, unhostAction, Java.bind_ok (modifyResource_run ..)]
    rfl
  · rw [setResource_action, hva, hua]

/-- An error gives the action another chance, or is its last. -/
theorem leaveOnError_moves (hr : (s.action a).state = .running) (hs : (s.action a).selectedResource = some w)
    (hc : (s.action a).resourceConsumption.isSome) (hx : (s.action a).IsExecution) :
    (s.action a).Moves ((Java.final (leaveOnError ctx a s)).action a) := by
  obtain ⟨t, ht, hta⟩ := leave_run ctx .runnable hs hc hx
  obtain ⟨u, hu⟩ : ∃ u : TaskScheduler δ τ, u = { t with calls := .doError a :: t.calls } := ⟨_, rfl⟩
  have hua : u.action a = { s.action a with state := .runnable } := by rw [hu]; exact hta
  obtain ⟨coreId, appId, hasPriority, hk⟩ := hx
  have hku : (u.action a).kind = .execution coreId appId hasPriority := by rw [hua]; exact hk
  have hdo : doError a t = (if schedulingChances ≤ (u.action a).executingResources.length then
      throw .failedAction else pure () : M δ τ Unit) u := by
    rw [doError, Java.bind_ok (call_run ..), Java.bind_ok (Java.get_run _), ← hu]
    conv_lhs => simp only [hku]
  by_cases hle : schedulingChances ≤ (u.action a).executingResources.length
  · rw [if_pos hle] at hdo
    have hrun : leaveOnError ctx a s = withdraw a u := by
      rw [leaveOnError, Java.tryCatch_error ((Java.bind_ok ht).trans hdo), if_pos rfl]
    have hw := withdraw_action a u a
    rw [setAction_self] at hw
    rw [hrun]
    exact .failed hw.state (hw.executingResources.trans (by rw [hua]))
  · rw [if_neg hle] at hdo
    have hrun : leaveOnError ctx a s = .ok () u := Java.tryCatch_ok ((Java.bind_ok ht).trans hdo)
    rw [hrun, Java.final_ok, hua]
    rw [hua] at hle
    exact .retried hr (Nat.lt_of_not_le hle)

end

/-! ## Scheduling again -/

section
variable (ctx : Ctx δ τ) {s t h : TaskScheduler δ τ} {a : ActionId} {w : WorkerId}

/-- A best implementation is found among those of the worker, unless it has none. -/
theorem bestImplementation_cases (resourceScore : Score) : ∀ (impls : List (Implementation τ)) (best : Option (Choice τ)),
    (bestImplementation ctx s w resourceScore best impls = none → best = none ∧ impls = []) ∧
    ∀ c, bestImplementation ctx s w resourceScore best impls = some c → best = some c ∨ c.1 = w ∧ c.2.1 ∈ impls
  | [], best => ⟨fun hn => ⟨hn, rfl⟩, fun _ hc => .inl hc⟩
  | impl :: impls, best => by
    rw [bestImplementation]
    obtain ⟨hnone, hsome⟩ := bestImplementation_cases resourceScore impls
      (if Score.isBetterOrNull (some (generateImplementationScore ctx s w impl resourceScore)) (best.map fun c => c.2.2)
        then some (w, impl, generateImplementationScore ctx s w impl resourceScore) else best)
    constructor
    · intro hn
      have hbest := (hnone hn).1
      split at hbest
      · cases hbest
      · next hb => subst hbest; exact absurd rfl hb
    · intro c hc
      rcases hsome c hc with hbest | ⟨hw, hi⟩
      · split at hbest
        · cases hbest
          exact .inr ⟨rfl, by simp⟩
        · exact .inl hbest
      · exact .inr ⟨hw, by simp [hi]⟩

/-- The best choice is an implementation its worker lists, unless no candidate
the action has not been run on lists any. -/
theorem bestChoice_found (score : Score) (coreId : CoreId) : ∀ (l : List (Option WorkerId)) (best best' : Option (Choice τ))
    (useful useful' : Nat), bestChoice ctx s a coreId score best useful l h = .ok (best', useful') h →
    (best' = none → best = none ∧ ∀ w, some w ∈ l → w ∉ (s.action a).executingResources →
      ctx.ops.executableImpls (s.resource w).myWorker coreId = []) ∧
    ∀ c, best' = some c → best = some c ∨
      c.1 ∉ (s.action a).executingResources ∧ c.2.1 ∈ ctx.ops.executableImpls (s.resource c.1).myWorker coreId
  | [], best, best', useful, useful', hr => by
    cases hr
    exact ⟨fun hn => ⟨hn, fun w hw => absurd hw List.not_mem_nil⟩, fun _ hc => .inl hc⟩
  | none :: l, best, best', useful, useful', hr => by cases hr
  | some w :: l, best, best', useful, useful', hr => by
    rw [bestChoice] at hr
    split at hr
    · next hw =>
      obtain ⟨hnone, hsome⟩ := bestChoice_found score coreId l best best' useful useful' hr
      refine ⟨fun hn => ⟨(hnone hn).1, fun v hv hnot => ?_⟩, hsome⟩
      rcases List.mem_cons.mp hv with hv | hv
      · cases hv
        exact absurd hw hnot
      · exact (hnone hn).2 v hv hnot
    · next hw =>
      obtain ⟨hnone, hsome⟩ := bestChoice_found score coreId l _ best' (useful + 1) useful' hr
      obtain ⟨hnone', hsome'⟩ := bestImplementation_cases ctx (s := s) (w := w) (generateResourceScore ctx s w a score)
        (ctx.ops.executableImpls (s.resource w).myWorker coreId) best
      constructor
      · intro hn
        obtain ⟨hb, himpls⟩ := hnone' (hnone hn).1
        refine ⟨hb, fun v hv hnot => ?_⟩
        rcases List.mem_cons.mp hv with hv | hv
        · cases hv
          exact himpls
        · exact (hnone hn).2 v hv hnot
      · intro c hc
        rcases hsome c hc with hb | hfound
        · rcases hsome' c hb with hb | ⟨rfl, hi⟩
          · exact .inl hb
          · exact .inr ⟨hw, hi⟩
        · exact .inr hfound

/-- An execution is assigned a worker that is not in its list. -/
theorem schedule_fresh {score : Score} (hr : (s.action a).state = .runnable) (hx : (s.action a).IsExecution)
    (hok : schedule ctx a score s = .ok () t) :
    ∃ w, (t.action a).selectedResource = some w ∧ w ∉ (s.action a).executingResources := by
  obtain ⟨coreId, appId, hasPriority, hk⟩ := hx
  rw [schedule, Java.bind_ok (Java.get_run s)] at hok
  simp only [hk] at hok
  rw [scheduleExecution, Java.bind_ok (Java.get_run s)] at hok
  obtain ⟨⟨best, useful⟩, u, hbest, hok⟩ := Java.bind_eq_ok.mp hok
  obtain rfl : u = s := by
    rcases bestChoice_cases ctx s s a score coreId (candidates s (s.action a) coreId appId) none 0 with
      ⟨he, -⟩ | ⟨best', useful', he, -⟩
    · rw [he] at hbest; cases hbest
    · rw [he] at hbest; cases hbest; rfl
  cases best with
  | none =>
    dsimp only at hok
    split at hok <;> cases hok
  | some c =>
    change scheduleImplementation ctx a c.1 c.2.1 u = .ok () t at hok
    rw [scheduleImplementation, Java.bind_ok (Java.get_run u)] at hok
    split at hok
    · cases hok
    · next hnot =>
      refine ⟨c.1, ?_, fun hmem => hnot (by simp [hmem])⟩
      rw [assignImplementation, Java.bind_ok (modifyAction_run ..), assignResource, modifyAction_run] at hok
      cases hok
      simp [hr]

/-- It stays unassigned only when no candidate that is not in its list can
execute it. -/
theorem schedule_unassigned {score : Score} (hops : ctx.ops.Reliable) {coreId : CoreId} {appId : Int} {hasPriority : Bool}
    (hk : (s.action a).kind = .execution coreId appId hasPriority)
    (hun : schedule ctx a score s = .error .unassignedAction t)
    (hw : some w ∈ candidates s (s.action a) coreId appId) (hnot : w ∉ (s.action a).executingResources) :
    ctx.ops.executableImpls (s.resource w).myWorker coreId = [] := by
  rw [schedule, Java.bind_ok (Java.get_run s)] at hun
  simp only [hk] at hun
  rw [scheduleExecution, Java.bind_ok (Java.get_run s)] at hun
  rcases bestChoice_cases ctx s s a score coreId (candidates s (s.action a) coreId appId) none 0 with
    ⟨he, -⟩ | ⟨best, useful, he, -⟩
  · rw [Java.bind_error he] at hun
    cases hun
  · rw [Java.bind_ok he] at hun
    obtain ⟨hnone, hsome⟩ := bestChoice_found ctx score coreId _ none best 0 useful he
    cases best with
    | none => exact (hnone rfl).2 w hw hnot
    | some c =>
      rcases hsome c rfl with hb | ⟨hc, hi⟩
      · cases hb
      · exfalso
        have hcan := hops.executable _ _ _ hi
        change scheduleImplementation ctx a c.1 c.2.1 s = .error .unassignedAction t at hun
        rw [scheduleImplementation, Java.bind_ok (Java.get_run s), if_neg (by simp [hcan, hc]), assignImplementation,
          Java.bind_ok (modifyAction_run ..), assignResource, modifyAction_run] at hun
        cases hun

end

end TaskScheduler

/-! ## Runs -/

namespace Chronicle

section
variable (ctx : Ctx δ τ) {c c' : Chronicle δ τ} {a : ActionId} {l : HistoryStep δ τ}

/-- The action is an execution, and its list is its history. -/
def Followed (a : ActionId) (c : Chronicle δ τ) : Prop :=
  (c.scheduler.action a).IsExecution ∧ (c.scheduler.action a).Follows (c.ranOn a)

theorem Initial.followed (hc : c.Initial) (hx : (c.scheduler.action a).IsExecution) : c.Followed a := by
  refine ⟨hx, ?_⟩
  obtain ⟨kind, constraining, enforced, hx⟩ := hc.action a
  rw [hx, hc.ranOn a]
  exact ⟨rfl, (nomatch ·), (nomatch ·), Nat.zero_le _, fun _ => Nat.zero_lt_two⟩

theorem Followed.remembers (hops : ctx.ops.Reliable) (hc : c.Followed a) : c.Remembers ctx a := by
  obtain ⟨hx, h⟩ := hc
  exact
    { executing := h.executing
      fresh := fun outside score t hr hok => by
        rw [h.ranOn]
        exact TaskScheduler.schedule_fresh { ctx with toOutside := outside } hr hx hok
      unassigned := fun outside score t coreId appId hasPriority _ hun hk w hw hnot => by
        rw [h.ranOn] at hnot
        exact TaskScheduler.schedule_unassigned { ctx with toOutside := outside } ⟨hops.reserves, hops.executable⟩
          hk hun hw hnot
      rounds := by rw [h.ranOn]; exact h.rounds
      chance := fun hs => by rw [h.ranOn]; exact h.chance hs }

/-- The action the step is about. -/
def about : HistoryStep δ τ → Option ActionId
  | .schedule a _ _ | .tryToLaunch a | .resumeExecution a | .completed a | .error a | .failed a => some a
  | .elsewhere .. => none

theorem call_apart (s : TaskScheduler δ τ) (h : about l = some a) :
    TaskScheduler.ApartFrom a s (Java.final (l.call ctx s)) := by
  have hrefl := TaskScheduler.ApartFrom.refl a s
  cases l with
  | schedule b score outside => cases h; exact TaskScheduler.schedule_apart _ _ _ _
  | tryToLaunch b => cases h; exact TaskScheduler.tryToLaunchAction_local ctx TaskScheduler.apart_local s hrefl
  | resumeExecution b => cases h; exact TaskScheduler.resumeExecution_local ctx TaskScheduler.apart_local s hrefl
  | completed b =>
    cases h
    exact Java.Keeps.bind (TaskScheduler.leave_local ctx TaskScheduler.apart_local _) (fun _ => .pure _) s hrefl
  | error b => cases h; exact TaskScheduler.leaveOnError_apart ctx _ s
  | failed b => cases h; exact TaskScheduler.withdraw_apart hrefl
  | elsewhere resource coreToWorkers dataPredecessors => cases h

theorem call_elsewhere (s : TaskScheduler δ τ) (h : about l = none) (b : ActionId) :
    (s.action b).Undisturbed ((Java.final (l.call ctx s)).action b) := by
  cases l with
  | elsewhere resource coreToWorkers dataPredecessors => exact ⟨rfl, rfl, rfl, rfl, rfl⟩
  | schedule | tryToLaunch | resumeExecution | completed | error | failed => cases h

/-- A step changes no kind. -/
theorem call_kind (s : TaskScheduler δ τ) (l : HistoryStep δ τ) (b : ActionId) :
    ((Java.final (l.call ctx s)).action b).kind = (s.action b).kind := by
  cases h : about l with
  | none => exact (call_elsewhere ctx s h b).kind
  | some a =>
    by_cases hb : b = a
    · subst hb; exact (call_apart ctx s h).kind
    · exact ((call_apart ctx s h).others b hb).kind

/-- A step that does not resume the action makes a move of it. -/
theorem call_moves (hops : ctx.ops.Reliable) (hc : c.Followed a) (hl : l.Enabled c.scheduler) (hd : Direct a c l) :
    (c.scheduler.action a).Moves ((Java.final (l.call ctx c.scheduler)).action a) := by
  obtain ⟨hx, hfollow⟩ := hc
  cases h : about l with
  | none => exact .undisturbed (call_elsewhere ctx c.scheduler h a)
  | some b =>
    by_cases hab : a = b
    · subst hab
      cases l with
      | schedule b score outside => cases h; exact TaskScheduler.schedule_moves _ score _ _
      | tryToLaunch b => cases h; exact TaskScheduler.tryToLaunchAction_moves ctx hops hx
      | resumeExecution b => cases h; exact TaskScheduler.resumeExecution_moves ctx (hd rfl)
      | completed b =>
        cases h
        obtain ⟨w, hw, -⟩ := hfollow.executing hl
        obtain ⟨t, ht, hta⟩ := TaskScheduler.leave_run ctx .finished hw (hfollow.consumes hl) hx
        have hrun : HistoryStep.call ctx (.completed a) c.scheduler = .ok () t := Java.bind_ok ht
        rw [hrun, Java.final_ok, hta]
        exact .completed rfl rfl
      | error b =>
        cases h
        obtain ⟨w, hw, -⟩ := hfollow.executing hl
        exact TaskScheduler.leaveOnError_moves ctx hl hw (hfollow.consumes hl) hx
      | failed b =>
        cases h
        have hw := TaskScheduler.withdraw_action a c.scheduler a
        rw [TaskScheduler.setAction_self] at hw
        exact .failed hw.state hw.executingResources
      | elsewhere resource coreToWorkers dataPredecessors => cases h
    · exact .undisturbed ((call_apart ctx c.scheduler h).others a hab)

theorem Followed.step (hops : ctx.ops.Reliable) (hc : c.Followed a) (hd : Direct a c l)
    (hst : c.step ctx l = some c') : c'.Followed a := by
  simp only [Chronicle.step, Option.ite_none_right_eq_some] at hst
  obtain ⟨hl, hst⟩ := hst
  cases hst
  refine ⟨?_, hc.2.move (call_moves ctx hops hc hl hd)⟩
  rw [Action.IsExecution, call_kind ctx c.scheduler l a]
  exact hc.1

/-- **Retries.** In a run that never resumes an execution from the queue of a
worker, its history bounds its retries in every state. -/
theorem remembers_of_direct (hops : ctx.ops.Reliable) (hc : c.Initial) (hx : (c.scheduler.action a).IsExecution)
    (labels : List (HistoryStep δ τ)) (hd : Along (step ctx) (Direct a) c labels) :
    Always (step ctx) (Remembers ctx · a) c labels :=
  always_of_along (fun _ h => h.remembers ctx hops) (fun _ _ _ h hl hst => h.step ctx hops hl hst) (hc.followed hx) hd

end

/-- A worker with as many slots as its description says, for the core `0`. -/
def slots : Ctx Nat Unit where
  dataLocality _ _ := 0
  averageExecutionTime _ _ := 0
  ops :=
    { canRunCore := fun _ c => c = 0
      canRun := fun _ _ => true
      canRunNow := fun d _ => 0 < d
      runTask := fun d _ => if 0 < d then (d - 1, some ()) else (d, none)
      endTask := fun d _ => d + 1
      executableCores := fun _ => [0]
      executableImpls := fun _ c => if c = 0 then [⟨some c, 0, ()⟩] else []
      shouldBeStopped := fun _ => false
      startRequirements := fun _ => ()
      stopRequirements := () }
  coreImplementations c := if c = 0 then [()] else []

theorem slots_reliable : slots.ops.Reliable where
  reserves d _ h := by
    have hd : 0 < d := of_decide_eq_true h
    simp [slots, hd]
  executable _ _ _ _ := rfl

/-- Executions of the core `0`, which the worker `0` runs one at a time. -/
def oneWorker : Chronicle Nat Unit where
  scheduler :=
    { nextId := 2
      action := fun _ => Action.new (.execution 0 0 false) [] none
      resource := fun _ => ⟨1, none, [], []⟩
      workers := [0]
      coreToWorkers := fun c => if c = 0 then [0] else []
      blockedActions := .empty
      readyCounts := fun c => if c = 0 then 2 else 0
      calls := []
      lost := [] }
  ranOn _ := []

theorem oneWorker_initial : oneWorker.Initial := ⟨fun _ => ⟨_, _, _, rfl⟩, fun _ => rfl⟩

/-- Two executions, one after the other. -/
def inTurn : List (HistoryStep Nat Unit) :=
  [.schedule 0 ⟨0, 0, 0, 0⟩ ⟨fun _ _ => 0, fun _ _ => 0⟩, .tryToLaunch 0, .completed 0,
    .schedule 1 ⟨0, 0, 0, 0⟩ ⟨fun _ _ => 0, fun _ _ => 0⟩, .tryToLaunch 1, .error 1]

/-- The execution that finds the worker free is remembered. -/
theorem remembers_of_direct_inTurn : Always (step slots) (Remembers slots · 1) oneWorker inTurn := by
  refine remembers_of_direct slots slots_reliable oneWorker_initial ⟨0, 0, false, rfl⟩ inTurn ?_
  simp only [inTurn, Along, Direct, reduceCtorEq, false_implies, true_and]
  exact fun _ _ _ _ _ _ _ _ _ _ _ _ => trivial

/-- The second execution waits for the worker, and is resumed there when the
first one ends: it runs, and its list is empty. -/
theorem resumed_forgotten : oneWorker.Initial ∧ (oneWorker.scheduler.action 1).IsExecution ∧ slots.ops.Reliable ∧
    ¬ Always (step slots) (Remembers slots · 1) oneWorker
      [.schedule 0 ⟨0, 0, 0, 0⟩ ⟨fun _ _ => 0, fun _ _ => 0⟩, .tryToLaunch 0,
        .schedule 1 ⟨0, 0, 0, 0⟩ ⟨fun _ _ => 0, fun _ _ => 0⟩, .tryToLaunch 1, .completed 0, .resumeExecution 1] := by
  refine ⟨oneWorker_initial, ⟨0, 0, false, rfl⟩, slots_reliable, fun h => ?_⟩
  have hlast := (((((h.2 _ rfl).2 _ rfl).2 _ rfl).2 _ rfl).2 _ rfl).2 _ rfl
  obtain ⟨w, -, hw⟩ := hlast.executing rfl
  exact absurd hw List.not_mem_nil

end Chronicle

end Compss.Scheduler
