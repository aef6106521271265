/-
The failure of an action and of the actions that depend on it.

`failed` walks the list of data successors while each successor, failing in
its turn, takes itself out of that list. The walk therefore never gets past
the first successor: it is over when at most one other is left, which is
skipped in silence, and raises when there are more. What fails is the chain of
first successors, and the cascade is what it should be exactly when nothing
else depends on the action (`cascades_iff_chainClosed`).
-/
import Compss.Scheduler.Invariant
import Mathlib.Logic.Relation

namespace Compss.Scheduler

open Lib Relation

variable {δ τ : Type}

namespace TaskScheduler

def DependsOn (s : TaskScheduler δ τ) (a x : ActionId) : Prop := ReflTransGen (fun x y => y ∈ s.successors x) a x

/-- `x` is on the chain of first data successors that starts with `a`. -/
def OnChain (s : TaskScheduler δ τ) (a x : ActionId) : Prop :=
  ReflTransGen (fun x y => (s.successors x).head? = some y) a x

/-- Every data successor of an action of the chain is itself on it. -/
def ChainClosed (s : TaskScheduler δ τ) (a : ActionId) : Prop :=
  ∀ x y, s.OnChain a x → y ∈ s.successors x → s.OnChain a y

def IsReduce (s : TaskScheduler δ τ) (a : ActionId) : Prop :=
  ∃ w impl ru, (s.action a).kind = .reduceWorker w impl ru

/-- The links `addDataPredecessor` makes between pending actions. Only the
executions of tasks have any. -/
structure WellLinked (s : TaskScheduler δ τ) : Prop where
  mirrored : ∀ p a, a ∈ s.successors p ↔ p ∈ s.predecessors a
  nodup_successors : ∀ a, (s.successors a).Nodup
  nodup_predecessors : ∀ a, (s.predecessors a).Nodup
  pending : ∀ p a, a ∈ s.successors p → (s.action p).isPending = true ∧ (s.action a).isPending = true
  execution : ∀ p a, a ∈ s.successors p → ¬ s.IsReduce p ∧ ¬ s.IsReduce a

/-- What `a.failed()` should do in `s`: end in `s'` with the answer `r`. -/
structure Cascaded (s s' : TaskScheduler δ τ) (a : ActionId) (r : List ActionId) : Prop where
  failed : ∀ x, (s'.action x).state = .failed ↔ (s.action x).state = .failed ∨ s.DependsOn a x
  returned : r.Nodup ∧ ∀ x, x ∈ r ↔ s.DependsOn a x
  called : ∃ calls, s'.calls = calls ++ s.calls ∧ calls.Nodup ∧
    ∀ c, c ∈ calls ↔ ∃ x, s.DependsOn a x ∧ c = .doFailed x
  unlinked : ∀ x, (s'.action x).isPending = true → ∀ y, y ∈ s'.predecessors x ∨ y ∈ s'.successors x →
    (s'.action y).state ≠ .failed

/-! ## Following successors -/

section
variable {s : TaskScheduler δ τ}

theorem OnChain.dependsOn {a x : ActionId} (h : s.OnChain a x) : s.DependsOn a x := by
  induction h with
  | refl => exact .refl
  | tail _ hy ih => exact .tail ih (List.mem_of_head? hy)

theorem not_dependsOn_of_mem (hwf : WellFounded fun y x => y ∈ s.successors x) (x : ActionId) :
    ∀ y ∈ s.successors x, ¬ s.DependsOn y x := by
  induction x using hwf.induction with
  | _ x ih =>
    intro y hy hdep
    rcases ReflTransGen.cases_head hdep with rfl | ⟨z, hz, hzx⟩
    · exact ih y hy y hy .refl
    · exact ih y hy z hz (hzx.tail hy)

/-- The chain below `x`: `x` itself, then the chain of its first successor. -/
theorem onChain_iff {x : ActionId} (z : ActionId) :
    s.OnChain x z ↔ z = x ∨ ∃ y, (s.successors x).head? = some y ∧ s.OnChain y z := by
  constructor
  · intro h
    rcases ReflTransGen.cases_head h with rfl | ⟨y, hy, hyz⟩
    · exact .inl rfl
    · exact .inr ⟨y, hy, hyz⟩
  · rintro (rfl | ⟨y, hy, hyz⟩)
    · exact .refl
    · exact .head hy hyz

theorem ChainClosed.dependsOn_iff {a : ActionId} (h : s.ChainClosed a) (x : ActionId) :
    s.DependsOn a x ↔ s.OnChain a x := by
  refine ⟨fun hx => ?_, OnChain.dependsOn⟩
  induction hx with
  | refl => exact .refl
  | tail _ hy ih => exact h _ _ ih hy

/-- A closed chain is closed below its first successor. -/
theorem ChainClosed.next (hwf : WellFounded fun y x => y ∈ s.successors x) {x y : ActionId}
    (h : s.ChainClosed x) (hy : (s.successors x).head? = some y) : s.ChainClosed y := by
  intro u v hu hv
  have hxv := h u v ((onChain_iff u).mpr (.inr ⟨y, hy, hu⟩)) hv
  rcases (onChain_iff v).mp hxv with rfl | ⟨y', hy', hv'⟩
  · exact absurd (hu.dependsOn.tail hv) (not_dependsOn_of_mem hwf v y (List.mem_of_head? hy))
  · rw [hy] at hy'
    cases hy'
    exact hv'

end

/-! ## One failing action -/

def cancelled (a : ActionId) (h : TaskScheduler δ τ) : TaskScheduler δ τ :=
  match (h.action a).selectedResource with
  | none => h
  | some w => h.setResource w { h.resource w with blocked := (h.resource w).blocked.erase a }

theorem cancelOnResource_run (a : ActionId) (h : TaskScheduler δ τ) :
    cancelOnResource a h = .ok () (cancelled a h) := by
  rw [cancelOnResource, Java.bind_ok (Java.get_run h), cancelled]
  cases (h.action a).selectedResource <;> rfl

@[simp] theorem cancelled_action (a : ActionId) (h : TaskScheduler δ τ) :
    (cancelled a h).action = h.action := by
  rw [cancelled]; split <;> rfl

@[simp] theorem cancelled_calls (a : ActionId) (h : TaskScheduler δ τ) : (cancelled a h).calls = h.calls := by
  rw [cancelled]; split <;> rfl

/-- The predecessors `l` forget the action. -/
def forgotten (a : ActionId) (l : List ActionId) (h : TaskScheduler δ τ) : TaskScheduler δ τ :=
  { h with action := fun y =>
      if y ∈ l then { h.action y with dataSuccessors := (h.action y).dataSuccessors.remove a }
      else h.action y }

theorem forget_run (a : ActionId) : ∀ (l : List ActionId) (h : TaskScheduler δ τ), l.Nodup →
    (l.forM fun pred => modifyAction pred fun x : Action τ =>
      { x with dataSuccessors := x.dataSuccessors.remove a }) h = .ok () (forgotten a l h)
  | [], h, _ => by simp [List.forM, forgotten]
  | p :: l, h, hn => by
    obtain ⟨hp, hn⟩ := List.nodup_cons.mp hn
    change ((modifyAction p fun x : Action τ => { x with dataSuccessors := x.dataSuccessors.remove a }) >>=
      fun _ => l.forM fun pred => modifyAction pred fun x : Action τ =>
        { x with dataSuccessors := x.dataSuccessors.remove a }) h = _
    rw [Java.bind_ok (modifyAction_run ..), forget_run a l _ hn]
    congr 1
    simp only [forgotten, setAction, TaskScheduler.mk.injEq, true_and, and_true]
    funext y
    by_cases hy : y = p
    · subst hy; simp [hp]
    · simp [hy]

/-- The state `withdraw` leaves. -/
def withdrawn (a : ActionId) (h : TaskScheduler δ τ) : TaskScheduler δ τ :=
  forgotten a (h.predecessors a) (cancelled a (h.setAction a { h.action a with state := .failed }))

theorem withdraw_run {a : ActionId} {h : TaskScheduler δ τ} (hn : (h.predecessors a).Nodup) :
    withdraw a h = .ok () (withdrawn a h) := by
  rw [withdraw, Java.bind_ok (modifyAction_run ..), Java.bind_ok (cancelOnResource_run ..),
    Java.bind_ok (Java.get_run _), cancelled_action, setAction_self]
  exact forget_run a _ _ hn

section
variable (a : ActionId) (h : TaskScheduler δ τ) (y : ActionId)

theorem withdrawn_state :
    ((withdrawn a h).action y).state = if y = a then .failed else (h.action y).state := by
  simp only [withdrawn, forgotten, cancelled_action, setAction_action]
  split <;> split <;> rfl

theorem withdrawn_kind : ((withdrawn a h).action y).kind = (h.action y).kind := by
  simp only [withdrawn, forgotten, cancelled_action, setAction_action]
  split <;> split <;> simp_all

theorem withdrawn_predecessors : (withdrawn a h).predecessors y = h.predecessors y := by
  simp only [predecessors, withdrawn, forgotten, cancelled_action, setAction_action]
  split <;> split <;> simp_all

theorem withdrawn_dataSuccessors : ((withdrawn a h).action y).dataSuccessors =
    if y ∈ h.predecessors a then (h.action y).dataSuccessors.remove a else (h.action y).dataSuccessors := by
  simp only [withdrawn, forgotten, cancelled_action, setAction_action]
  split <;> split <;> simp_all

@[simp] theorem withdrawn_calls : (withdrawn a h).calls = h.calls := by
  simp [withdrawn, forgotten]

end

/-- The state `failed` leaves when its walk is over: the links of the action
are cleared and its `doFailed` called. -/
def settled (a : ActionId) (h : TaskScheduler δ τ) : TaskScheduler δ τ :=
  { h.setAction a { h.action a with
      dataPredecessors := [], dataSuccessors := (h.action a).dataSuccessors.clear } with
    calls := .doFailed a :: h.calls }

/-- The walk over the data successors. -/
def walk (doF : ActionId → M δ τ Unit) (fuel : Nat) (a : ActionId) (it : LinkedList.Iter) :
    M δ τ (List ActionId) :=
  Java.forEach (fun s => (s.action a).dataSuccessors)
    (fun l succ => do return l ++ (← failed doF fuel succ)) .concurrentModification .noReturn fuel it []

theorem failed_succ (doF : ActionId → M δ τ Unit) (fuel : Nat) {a : ActionId} {h : TaskScheduler δ τ}
    (hn : (h.predecessors a).Nodup) : failed doF (fuel + 1) a h = (do
      let l ← walk doF fuel a ((withdrawn a h).action a).dataSuccessors.iterator
      modifyAction a fun x => { x with dataPredecessors := [], dataSuccessors := x.dataSuccessors.clear }
      call (.doFailed a)
      doF a
      return l ++ [a] : M δ τ (List ActionId)) (withdrawn a h) := by
  rw [failed, Java.bind_ok (withdraw_run hn), Java.bind_ok (Java.get_run _)]
  rfl

section
variable {doF : ActionId → M δ τ Unit} {fuel : Nat} {a b : ActionId} {h h₁ : TaskScheduler δ τ}

theorem walk_nil (hs : h.successors a = []) :
    walk doF (fuel + 1) a (h.action a).dataSuccessors.iterator h = .ok [] h :=
  Java.forEach_nil _ _ _ _ fuel [] hs

/-- The walk ends with its first successor, one way or the other: that one has
modified the list. -/
theorem walk_cons {bs l : List ActionId} (hs : h.successors a = b :: bs)
    (hb : failed doF (fuel + 2) b h = .ok l h₁)
    (hmod : (h.action a).dataSuccessors.modCount < (h₁.action a).dataSuccessors.modCount) :
    walk doF (fuel + 2) a (h.action a).dataSuccessors.iterator h =
      if (h₁.successors a).length ≤ 1 then .ok l h₁ else .error .concurrentModification h₁ := by
  have hbody : ((do return [] ++ (← failed doF (fuel + 2) b) : M δ τ (List ActionId)) h) = .ok l h₁ := by
    rw [Java.bind_ok hb]
    rfl
  have hfirst := Java.forEach_cons (fun s : TaskScheduler δ τ => (s.action a).dataSuccessors)
    (fun l succ => do return l ++ (← failed doF (fuel + 2) succ))
    Thrown.concurrentModification .noReturn (fuel + 1) [] (s := h) hs
  exact (hfirst.trans (Java.bind_ok hbody)).trans (Java.forEach_edited _ _ _ _ fuel _ l hmod)

/-- A walk that returns over a list that is not empty: its first successor
failed and returned. -/
theorem walk_eq_ok {bs l : List ActionId} {it : LinkedList.Iter} (hs : h.successors a = b :: bs)
    (hit : it = (h.action a).dataSuccessors.iterator) (hw : walk doF fuel a it h = .ok l h₁) :
    ∃ n l' h', fuel = n + 2 ∧ failed doF fuel b h = .ok l' h' := by
  subst hit
  cases fuel with
  | zero => cases hw
  | succ n =>
    have hfirst := Java.forEach_cons (fun s : TaskScheduler δ τ => (s.action a).dataSuccessors)
      (fun l succ => do return l ++ (← failed doF (n + 1) succ))
      Thrown.concurrentModification .noReturn n [] (s := h) hs
    obtain ⟨acc, h', hbody, hrest⟩ := Java.bind_eq_ok.mp (hfirst.symm.trans hw)
    obtain ⟨l', h'', hb, -⟩ := Java.bind_eq_ok.mp hbody
    clear hfirst hw hbody
    cases n with
    | zero => cases hrest
    | succ n => exact ⟨n, l', h'', rfl, hb⟩

end

/-! ## The chain that fails -/

/-- How far a cascade in `s` has come: the actions of `K` are marked and out of
their predecessors' lists, those of `C` are done, in this order. -/
structure During (s : TaskScheduler δ τ) (K C : List ActionId) (h : TaskScheduler δ τ) : Prop where
  kind : ∀ y, (h.action y).kind = (s.action y).kind
  state : ∀ y, (h.action y).state = if y ∈ K then .failed else (s.action y).state
  predecessors : ∀ y, h.predecessors y = if y ∈ C then [] else s.predecessors y
  successors : ∀ y, h.successors y = if y ∈ C then [] else (s.successors y).filter (· ∉ K)
  calls : h.calls = C.reverse.map .doFailed ++ s.calls

section
variable {s h : TaskScheduler δ τ} {K C : List ActionId} {a : ActionId}

theorem During.init (s : TaskScheduler δ τ) : During s [] [] s := by
  constructor <;> simp

theorem During.withdrawn (hl : s.WellLinked) (hd : During s K [] h) :
    During s (a :: K) [] (withdrawn a h) where
  kind y := (withdrawn_kind a h y).trans (hd.kind y)
  state y := by
    rw [withdrawn_state, hd.state]
    by_cases hy : y = a <;> simp [hy]
  predecessors y := by
    rw [withdrawn_predecessors, hd.predecessors]
  successors y := by
    have hp : h.predecessors a = s.predecessors a := by rw [hd.predecessors]; simp
    have hy : h.successors y = (s.successors y).filter (· ∉ K) := by rw [hd.successors]; simp
    rw [if_neg List.not_mem_nil, TaskScheduler.successors, withdrawn_dataSuccessors, hp]
    split
    · rw [LinkedList.remove_elems, show (h.action y).dataSuccessors.elems = _ from hy,
        ((hl.nodup_successors y).filter _).erase_eq_filter, List.filter_filter]
      refine List.filter_congr fun z _ => ?_
      by_cases hza : z = a <;> simp [hza]
    · next hn =>
      rw [show (h.action y).dataSuccessors.elems = _ from hy]
      refine List.filter_congr fun z hz => ?_
      have hza : z ≠ a := by rintro rfl; exact hn ((hl.mirrored y z).mp hz)
      simp [hza]
  calls := by rw [withdrawn_calls, hd.calls]

theorem During.settled (hd : During s K C h) :
    During s K (C ++ [a]) (settled a h) where
  kind y := by
    rw [← hd.kind y]
    simp only [TaskScheduler.settled, setAction_action]
    split <;> simp_all
  state y := by
    rw [← hd.state y]
    simp only [TaskScheduler.settled, setAction_action]
    split <;> simp_all
  predecessors y := by
    have := hd.predecessors y
    simp only [TaskScheduler.predecessors, TaskScheduler.settled, setAction_action, List.mem_append,
      List.mem_singleton] at this ⊢
    by_cases hy : y = a
    · simp [hy]
    · simp [hy, this]
  successors y := by
    have := hd.successors y
    simp only [TaskScheduler.successors, TaskScheduler.settled, setAction_action, List.mem_append,
      List.mem_singleton] at this ⊢
    by_cases hy : y = a
    · simp [hy]
    · simp [hy, this]
  calls := by simp [TaskScheduler.settled, hd.calls]

theorem modCount_withdrawn (a : ActionId) (h : TaskScheduler δ τ) (y : ActionId) :
    (h.action y).dataSuccessors.modCount ≤ ((withdrawn a h).action y).dataSuccessors.modCount := by
  rw [withdrawn_dataSuccessors]
  split
  · exact LinkedList.modCount_le_remove ..
  · exact Nat.le_refl _

theorem modCount_settled (a : ActionId) (h : TaskScheduler δ τ) (y : ActionId) :
    (h.action y).dataSuccessors.modCount ≤ ((settled a h).action y).dataSuccessors.modCount := by
  simp only [settled, setAction_action]
  split
  · next he => subst he; exact Nat.le_succ _
  · exact Nat.le_refl _

/-- What `doFailed` may do for the cascade to be the business of `failed`
alone: nothing, on the actions of the graph below `a`. -/
def Quiet (doF : ActionId → M δ τ Unit) (s : TaskScheduler δ τ) (a : ActionId) : Prop :=
  ∀ y h, s.DependsOn a y → (∀ z, (h.action z).kind = (s.action z).kind) → doF y h = .ok () h

theorem Quiet.of_mem {doF : ActionId → M δ τ Unit} {b : ActionId} (hq : Quiet doF s a)
    (hb : b ∈ s.successors a) : Quiet doF s b :=
  fun y h hy hk => hq y h (.head hb hy) hk

/-- The end of `failed`, after a walk that returned. -/
theorem failed_tail {doF : ActionId → M δ τ Unit} {l : List ActionId} (hdoF : doF a (settled a h) = .ok () (settled a h)) :
    (do modifyAction a fun x => { x with dataPredecessors := [], dataSuccessors := x.dataSuccessors.clear }
        call (.doFailed a)
        doF a
        return l ++ [a] : M δ τ (List ActionId)) h = .ok (l ++ [a]) (settled a h) := by
  rw [Java.bind_ok (modifyAction_run ..), Java.bind_ok (call_run ..)]
  exact Java.bind_ok hdoF

/-- Whenever `failed` returns, what it answers is on the chain. -/
theorem failed_onChain {doF : ActionId → M δ τ Unit} (hl : s.WellLinked)
    (hwf : WellFounded fun y x => y ∈ s.successors x) : ∀ (fuel : Nat) {a : ActionId} {K : List ActionId}
      {h h' : TaskScheduler δ τ} {l : List ActionId}, Quiet doF s a → During s K [] h →
      (∀ y, s.DependsOn a y → y ∉ K) → failed doF fuel a h = .ok l h' →
      (∀ y ∈ l, s.OnChain a y) ∧ (∀ y, (h'.action y).kind = (s.action y).kind) ∧
        ∀ y, ((withdrawn a h).action y).dataSuccessors.modCount ≤ (h'.action y).dataSuccessors.modCount
  | 0, _, _, _, _, _, _, _, _, hf => by cases hf
  | fuel + 1, a, K, h, h', l, hq, hd, hK, hf => by
    have hdw := hd.withdrawn (a := a) hl
    have hpred : h.predecessors a = s.predecessors a := by rw [hd.predecessors]; simp
    rw [failed_succ doF fuel (hpred ▸ hl.nodup_predecessors a)] at hf
    obtain ⟨l₁, h₁, hwalk, htail⟩ := Java.bind_eq_ok.mp hf
    have hKa : ∀ b ∈ s.successors a, ∀ y, s.DependsOn b y → y ∉ a :: K := by
      intro b hb y hy hmem
      rcases List.mem_cons.mp hmem with rfl | hmem
      · exact not_dependsOn_of_mem hwf y b hb hy
      · exact hK y (.head hb hy) hmem
    have hsucc : (withdrawn a h).successors a = s.successors a := by
      rw [hdw.successors, if_neg List.not_mem_nil, List.filter_eq_self]
      intro y hy
      simpa using hKa y hy y .refl
    -- what the walk answers is on the chain below the first successor
    have hmid : (∀ y ∈ l₁, s.OnChain a y) ∧ (∀ y, (h₁.action y).kind = (s.action y).kind) ∧
        ∀ y, ((withdrawn a h).action y).dataSuccessors.modCount ≤ (h₁.action y).dataSuccessors.modCount := by
      cases hs : s.successors a with
      | nil =>
        match fuel, hwalk with
        | 0, hwalk => cases hwalk
        | n + 1, hwalk =>
          rw [walk_nil (hsucc.trans hs)] at hwalk
          cases hwalk
          exact ⟨by simp, hdw.kind, fun _ => Nat.le_refl _⟩
      | cons b bs =>
        have hb : b ∈ s.successors a := by rw [hs]; exact List.mem_cons_self ..
        obtain ⟨n, l', h'', rfl, hfb⟩ := walk_eq_ok (hsucc.trans hs) rfl hwalk
        obtain ⟨hl', hkind, hmod⟩ := failed_onChain hl hwf (n + 2) (hq.of_mem hb) hdw (hKa b hb) hfb
        have hmodb : ∀ y, ((withdrawn a h).action y).dataSuccessors.modCount ≤
            (h''.action y).dataSuccessors.modCount :=
          fun y => Nat.le_trans (modCount_withdrawn b _ y) (hmod y)
        have hstrict : ((withdrawn a h).action a).dataSuccessors.modCount <
            (h''.action a).dataSuccessors.modCount := by
          refine Nat.lt_of_lt_of_le ?_ (hmod a)
          have hpb : a ∈ (withdrawn a h).predecessors b := by
            rw [hdw.predecessors, if_neg List.not_mem_nil]
            exact (hl.mirrored a b).mp hb
          rw [withdrawn_dataSuccessors b, if_pos hpb]
          refine LinkedList.modCount_lt_remove ?_
          rw [show ((withdrawn a h).action a).dataSuccessors.elems = _ from hsucc]
          exact hb
        rw [walk_cons (hsucc.trans hs) hfb hstrict] at hwalk
        split at hwalk
        · cases hwalk
          refine ⟨fun y hy => (onChain_iff y).mpr (.inr ⟨b, ?_, hl' y hy⟩), hkind, hmodb⟩
          rw [hs]
          rfl
        · cases hwalk
    have hdoF : doF a (settled a h₁) = .ok () (settled a h₁) := by
      refine hq a _ .refl fun z => ?_
      rw [← hmid.2.1 z]
      simp only [settled, setAction_action]
      split <;> simp_all
    rw [failed_tail hdoF] at htail
    cases htail
    refine ⟨fun y hy => ?_, fun y => ?_, fun y => ?_⟩
    · rcases List.mem_append.mp hy with hy | hy
      · exact hmid.1 y hy
      · rw [List.mem_singleton.mp hy]; exact .refl
    · rw [← hmid.2.1 y]
      simp only [settled, setAction_action]
      split <;> simp_all
    · exact Nat.le_trans (hmid.2.2 y) (modCount_settled a h₁ y)

/-- The walk of an action whose first successor has failed, for the strict
growth the iterator notices. -/
theorem modCount_lt_of_failed {doF : ActionId → M δ τ Unit} (hl : s.WellLinked)
    (hwf : WellFounded fun y x => y ∈ s.successors x) {b : ActionId} {fuel : Nat} {l : List ActionId}
    {h' : TaskScheduler δ τ} (hq : Quiet doF s b) (hd : During s K [] h) (hK : ∀ y, s.DependsOn b y → y ∉ K)
    (hb : b ∈ s.successors a) (hba : b ∈ h.successors a) (hf : failed doF fuel b h = .ok l h') :
    (h.action a).dataSuccessors.modCount < (h'.action a).dataSuccessors.modCount := by
  refine Nat.lt_of_lt_of_le ?_ ((failed_onChain hl hwf fuel hq hd hK hf).2.2 a)
  have hpb : a ∈ h.predecessors b := by
    rw [hd.predecessors, if_neg List.not_mem_nil]
    exact (hl.mirrored a b).mp hb
  rw [withdrawn_dataSuccessors b, if_pos hpb]
  exact LinkedList.modCount_lt_remove hba

/-- A closed chain fails from its end to its beginning. -/
theorem failed_of_chainClosed {doF : ActionId → M δ τ Unit} (hl : s.WellLinked)
    (hwf : WellFounded fun y x => y ∈ s.successors x) (a : ActionId) : ∀ {K : List ActionId}
      {h : TaskScheduler δ τ}, s.ChainClosed a → Quiet doF s a → During s K [] h →
      (∀ y, s.DependsOn a y → y ∉ K) → ∃ n l h', failed doF (n + 2) a h = .ok l h' ∧
        During s (l ++ K) l h' ∧ l.Nodup ∧ ∀ y, y ∈ l ↔ s.OnChain a y := by
  induction a using hwf.induction with
  | _ a ih =>
    intro K h hc hq hd hK
    have hdw := hd.withdrawn (a := a) hl
    have hpred : h.predecessors a = s.predecessors a := by rw [hd.predecessors]; simp
    have hfailed := fun fuel => failed_succ doF fuel (hpred ▸ hl.nodup_predecessors a : (h.predecessors a).Nodup)
    have hKa : ∀ b ∈ s.successors a, ∀ y, s.DependsOn b y → y ∉ a :: K := by
      intro b hb y hy hmem
      rcases List.mem_cons.mp hmem with rfl | hmem
      · exact not_dependsOn_of_mem hwf y b hb hy
      · exact hK y (.head hb hy) hmem
    have hsucc : (TaskScheduler.withdrawn a h).successors a = s.successors a := by
      rw [hdw.successors, if_neg List.not_mem_nil, List.filter_eq_self]
      intro y hy
      simpa using hKa y hy y .refl
    have hdone : ∀ {l : List ActionId} {h₁ : TaskScheduler δ τ}, During s (l ++ a :: K) l h₁ →
        doF a (TaskScheduler.settled a h₁) = .ok () (TaskScheduler.settled a h₁) := by
      intro l h₁ hd₁
      exact hq a _ .refl hd₁.settled.kind
    cases hs : s.successors a with
    | nil =>
      refine ⟨0, [a], TaskScheduler.settled a (TaskScheduler.withdrawn a h), ?_, ?_, by simp, fun y => ?_⟩
      · rw [hfailed, Java.bind_ok (walk_nil (hsucc.trans hs)), failed_tail (hdone (l := []) hdw)]
        rfl
      · exact hdw.settled
      · rw [onChain_iff, hs]
        simp
    | cons b bs =>
      have hb : b ∈ s.successors a := by rw [hs]; exact List.mem_cons_self ..
      have hhead : (s.successors a).head? = some b := by rw [hs]; rfl
      obtain ⟨n, l, h₁, hf, hd₁, hnodup, hmem⟩ :=
        ih b hb (hc.next hwf hhead) (hq.of_mem hb) hdw (hKa b hb)
      have hmod := modCount_lt_of_failed hl hwf (hq.of_mem hb) hdw (hKa b hb) hb (hsucc ▸ hb) hf
      have hal : a ∉ l := fun ha => not_dependsOn_of_mem hwf a b hb ((hmem a).mp ha).dependsOn
      have hrest : h₁.successors a = [] := by
        rw [hd₁.successors, if_neg hal, List.filter_eq_nil_iff]
        intro y hy
        have hya := hc a y .refl hy
        rcases (onChain_iff y).mp hya with rfl | ⟨b', hb', hyb⟩
        · simp
        · rw [hhead] at hb'
          cases hb'
          simp [(hmem y).mpr hyb]
      refine ⟨n + 1, l ++ [a], TaskScheduler.settled a h₁, ?_, ?_, ?_, fun y => ?_⟩
      · rw [hfailed, Java.bind_ok (walk_cons (hsucc.trans hs) hf hmod |>.trans (by rw [hrest]; rfl)),
          failed_tail (hdone hd₁)]
      · rw [List.append_assoc]
        exact hd₁.settled
      · exact List.nodup_append.mpr ⟨hnodup, by simp, by
          intro x hx y hy
          rw [List.mem_singleton.mp hy]
          rintro rfl
          exact hal hx⟩
      · rw [onChain_iff, hhead]
        simp [hmem, or_comm]

/-! ## The cascade -/

theorem During.cascaded (hl : s.WellLinked) {l : List ActionId} (hd : During s l l h) (hnodup : l.Nodup)
    (hmem : ∀ y, y ∈ l ↔ s.DependsOn a y) : Cascaded s h a l where
  failed x := by
    rw [hd.state, ← hmem]
    by_cases hx : x ∈ l <;> simp [hx]
  returned := ⟨hnodup, hmem⟩
  called := by
    refine ⟨_, hd.calls, ?_, fun c => ?_⟩
    · exact List.Nodup.map (fun _ _ he => by cases he; rfl) (List.nodup_reverse.mpr hnodup)
    · simp only [List.mem_map, List.mem_reverse, hmem]
      constructor
      · rintro ⟨x, hx, rfl⟩; exact ⟨x, hx, rfl⟩
      · rintro ⟨x, hx, rfl⟩; exact ⟨x, hx, rfl⟩
  unlinked x hx y hy := by
    have hxl : x ∉ l := by
      intro hxl
      rw [Action.isPending, hd.state, if_pos hxl] at hx
      simp at hx
    have hpend : ∀ z, (s.action z).isPending = true → (s.action z).state ≠ .failed := by
      intro z hz he
      simp [Action.isPending, he] at hz
    rw [hd.predecessors, hd.successors, if_neg hxl, if_neg hxl] at hy
    rw [hd.state]
    rcases hy with hy | hy
    · have hys := (hl.mirrored y x).mpr hy
      have hyl : y ∉ l := fun hyl => hxl ((hmem x).mpr (((hmem y).mp hyl).tail hys))
      rw [if_neg hyl]
      exact hpend y (hl.pending y x hys).1
    · obtain ⟨hys, hyl⟩ := List.mem_filter.mp hy
      rw [if_neg (by simpa using hyl)]
      exact hpend y (hl.pending x y hys).2

end

theorem quiet_doFailed (ctx : Ctx δ τ) {s : TaskScheduler δ τ} (hl : s.WellLinked) {a : ActionId}
    (ha : ¬ s.IsReduce a) : Quiet (doFailed ctx) s a := by
  intro y h hy hk
  have hy' : ¬ s.IsReduce y := by
    rcases ReflTransGen.cases_tail hy with rfl | ⟨p, -, hp⟩
    · exact ha
    · exact (hl.execution p y hp).2
  rw [doFailed, Java.bind_ok (Java.get_run h), hk y]
  cases hkind : (s.action y).kind with
  | reduceWorker w impl ru => exact absurd ⟨w, impl, ru, hkind⟩ hy'
  | execution | startWorker | stopWorker => rfl

/-- **The failure cascade.** In an acyclic graph of pending actions,
`a.failed()` returns with `a` and everything that depends on it failed, and
nothing else, exactly when every data successor of an action on the chain of
first successors of `a` is itself on that chain. -/
theorem cascades_iff_chainClosed (ctx : Ctx δ τ) (s : TaskScheduler δ τ) (a : ActionId) (hl : s.WellLinked)
    (hwf : WellFounded fun y x => y ∈ s.successors x) (ha : ¬ s.IsReduce a) :
    (∃ fuel r s', failed (doFailed ctx) fuel a s = .ok r s' ∧ Cascaded s s' a r) ↔ s.ChainClosed a := by
  have hq := quiet_doFailed ctx hl ha
  constructor
  · rintro ⟨fuel, r, s', hf, hc⟩ x y hx hy
    have hr := (failed_onChain hl hwf fuel hq (During.init s) (by simp) hf).1
    exact hr y ((hc.returned.2 y).mpr (hx.dependsOn.tail hy))
  · intro hc
    obtain ⟨n, l, h, hf, hd, hnodup, hmem⟩ := failed_of_chainClosed hl hwf a hc hq (During.init s) (by simp)
    rw [List.append_nil] at hd
    exact ⟨n + 2, l, h, hf, hd.cascaded hl hnodup fun y => (hmem y).trans (hc.dependsOn_iff y).symm⟩

/-- An execution `0` on which the executions `1`, .., `n` depend. -/
def star (n : Nat) : TaskScheduler Unit Unit where
  nextId := n + 1
  action a := { Action.new (.execution 0 0 false) [] none with
    dataPredecessors := if 1 ≤ a ∧ a ≤ n then [0] else [],
    dataSuccessors := if a = 0 then ⟨List.range' 1 n, n⟩ else .empty }
  resource _ := ⟨(), none, [], []⟩
  workers := []
  coreToWorkers _ := []
  blockedActions := .empty
  readyCounts _ := 0
  calls := []
  lost := []

theorem mem_successors_star {n a b : Nat} : b ∈ (star n).successors a ↔ a = 0 ∧ 1 ≤ b ∧ b ≤ n := by
  by_cases ha : a = 0
  · simp only [successors, star, ha, if_true, List.mem_range', true_and]
    constructor
    · rintro ⟨i, hi, rfl⟩; omega
    · rintro ⟨h1, h2⟩; exact ⟨b - 1, by omega, by omega⟩
  · simp [successors, star, ha, LinkedList.empty]

theorem wellLinked_star (n : Nat) : (star n).WellLinked where
  mirrored p a := by
    rw [mem_successors_star]
    simp only [predecessors, star]
    split <;> simp_all
  nodup_successors a := by
    simp only [successors, star]
    split
    · exact List.nodup_range'
    · exact List.nodup_nil
  nodup_predecessors a := by
    simp only [predecessors, star]
    split <;> simp
  pending _ _ _ := ⟨rfl, rfl⟩
  execution _ _ _ := by constructor <;> (rintro ⟨w, impl, ru, h⟩; cases h)

theorem wellFounded_star (n : Nat) : WellFounded fun y x => y ∈ (star n).successors x := by
  refine Subrelation.wf (fun {y x} h => ?_) (measure fun x => if x = 0 then 1 else 0).wf
  obtain ⟨rfl, h1, -⟩ := mem_successors_star.mp h
  have hy : y ≠ 0 := Nat.one_le_iff_ne_zero.mp h1
  simp [WellFoundedRelation.rel, InvImage, hy]

theorem not_isReduce_star (n a : Nat) : ¬ (star n).IsReduce a := by
  rintro ⟨w, impl, ru, h⟩
  cases h

/-- Workers that run nothing. -/
def idle : Ctx Unit Unit where
  dataLocality _ _ := 0
  averageExecutionTime _ _ := 0
  ops :=
    { canRunCore := fun _ _ => false
      canRun := fun _ _ => false
      canRunNow := fun _ _ => false
      runTask := fun d _ => (d, none)
      endTask := fun d _ => d
      executableCores := fun _ => []
      executableImpls := fun _ _ => []
      shouldBeStopped := fun _ => false
      startRequirements := fun _ => ()
      stopRequirements := () }
  coreImplementations _ := []

/-- One action depends on `0`: it fails with it. -/
theorem cascades_iff_chainClosed_pair : (star 1).WellLinked ∧
    (WellFounded fun y x => y ∈ (star 1).successors x) ∧ ¬ (star 1).IsReduce 0 ∧
    ((∃ fuel r s', failed (doFailed idle) fuel 0 (star 1) = .ok r s' ∧ Cascaded (star 1) s' 0 r) ↔
      (star 1).ChainClosed 0) :=
  ⟨wellLinked_star 1, wellFounded_star 1, not_isReduce_star 1 0,
    cascades_iff_chainClosed idle (star 1) 0 (wellLinked_star 1) (wellFounded_star 1) (not_isReduce_star 1 0)⟩

/-- Two actions depend on `0`: when it fails, the second is skipped. -/
theorem second_successor_skipped :
    ¬ ∃ fuel r s', failed (doFailed idle) fuel 0 (star 2) = .ok r s' ∧ Cascaded (star 2) s' 0 r := by
  rintro ⟨fuel, r, s', hf, hc⟩
  have hq := quiet_doFailed idle (wellLinked_star 2) (not_isReduce_star 2 0)
  have hr := (failed_onChain (wellLinked_star 2) (wellFounded_star 2) fuel hq (During.init _) (by simp) hf).1
  have h2 : (2 : ActionId) ∈ r := (hc.returned.2 2).mpr (.single (mem_successors_star.mpr (by simp)))
  rcases (onChain_iff 2).mp (hr 2 h2) with h | ⟨y, hy, hy2⟩
  · cases h
  · cases hy
    rcases (onChain_iff 2).mp hy2 with h | ⟨z, hz, -⟩
    · cases h
    · cases hz

end TaskScheduler

end Compss.Scheduler
