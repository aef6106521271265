/-
`PriorityActionSet`: a queue of actions for each core, one for the actions
without a core, and a queue of the first action of each.

The flags `toReschedule` of the actions change from outside; an action whose
flag has been cleared is dropped when it comes up. `offer` and `removeFirst`
build the queue of the first actions anew. `peekAll`, which drops first
actions, and `remove`, which may take one out, do not: until it is built anew
it is stale, and a `poll` takes from the queue of a core another action than
the one it has found.
-/
import Compss.Lib.PriorityQueue
import Compss.Lib.Run
import Mathlib.Algebra.Ring.Nat

namespace Compss.MultiObjective

open Lib

variable {α : Type} {cmp : α → α → Ordering} [Std.TransCmp cmp]

structure PriorityActionSet (cmp : α → α → Ordering) where
  noCoreActions : PriorityQueue cmp
  coreActions : List (PriorityQueue cmp)
  priority : PriorityQueue cmp

namespace PriorityActionSet

def new : PriorityActionSet cmp := ⟨.empty, [], .empty⟩

def queues (s : PriorityActionSet cmp) : List (PriorityQueue cmp) := s.noCoreActions :: s.coreActions

/-- The place of the queue of a core among all. -/
def place (core : Option Nat) : Nat := core.elim 0 (· + 1)

def modifyQueue (core : Option Nat) (f : PriorityQueue cmp → PriorityQueue cmp) (s : PriorityActionSet cmp) :
    PriorityActionSet cmp :=
  match core with
  | none => { s with noCoreActions := f s.noCoreActions }
  | some c => { s with coreActions := s.coreActions.modify c f }

/-- The first action of a core. -/
def first (core : Option Nat) (s : PriorityActionSet cmp) : Option α := s.queues[place core]?.bind PriorityQueue.peek

/-- The first actions of all cores that have one. -/
def heads (s : PriorityActionSet cmp) : List α := s.queues.flatMap fun q => q.peek.toList

def rebuildPriorityQueue (s : PriorityActionSet cmp) : PriorityActionSet cmp :=
  { s with priority := s.heads.foldl PriorityQueue.add .empty }

/-- With a queue for the core. -/
def resize (core : Option Nat) (s : PriorityActionSet cmp) : PriorityActionSet cmp :=
  match core with
  | none => s
  | some c => { s with coreActions := s.coreActions ++ List.replicate (c + 1 - s.coreActions.length) .empty }

variable (coreId : α → Option Nat) (isToReschedule : α → Bool)

def offer [DecidableEq α] (action : α) (s : PriorityActionSet cmp) : PriorityActionSet cmp :=
  if isToReschedule action then
    let currentPeek := s.first (coreId action)
    let s := (s.resize (coreId action)).modifyQueue (coreId action) fun q => q.add action
    if currentPeek ≠ some action then s.rebuildPriorityQueue else s
  else s

/-- The loop of `poll`. -/
def pollLoop : Nat → PriorityActionSet cmp → Option α × PriorityActionSet cmp
  | 0, s => (none, s)
  | fuel + 1, s =>
    match s.priority.peek with
    | none => (none, s)
    | some currentPeek =>
      let s := { s with priority := s.priority.poll }
      let s := s.modifyQueue (coreId currentPeek) PriorityQueue.poll
      let s :=
        match s.first (coreId currentPeek) with
        | none => s
        | some nextPeek => { s with priority := s.priority.add nextPeek }
      if isToReschedule currentPeek then (some currentPeek, s) else pollLoop fuel s

/-- The actions held. -/
def held (s : PriorityActionSet cmp) : List α := s.queues.flatMap PriorityQueue.toList

def size (s : PriorityActionSet cmp) : Nat := (s.queues.map PriorityQueue.size).sum

/-- Each turn takes an action out, or one off the queue of the first actions. -/
def poll (s : PriorityActionSet cmp) : Option α × PriorityActionSet cmp :=
  pollLoop coreId isToReschedule (s.size + s.priority.size + 1) s

/-- It raises, and changes nothing, when there is no queue for the core. -/
def removeFirst (core : Option Nat) (s : PriorityActionSet cmp) : PriorityActionSet cmp :=
  if place core < s.queues.length then (s.modifyQueue core PriorityQueue.poll).rebuildPriorityQueue else s

/-- The loop of `peek`. -/
def peekLoop : Nat → PriorityActionSet cmp → Option α × PriorityActionSet cmp
  | 0, s => (none, s)
  | fuel + 1, s =>
    match s.priority.peek with
    | none => (none, s)
    | some currentPeek =>
      if isToReschedule currentPeek then (some currentPeek, s)
      else peekLoop fuel (s.removeFirst (coreId currentPeek))

/-- The first turn may find an action that is gone; each turn after it takes one out. -/
def peek (s : PriorityActionSet cmp) : Option α × PriorityActionSet cmp :=
  peekLoop coreId isToReschedule (s.size + 2) s

/-- One first action is dropped when its flag is not set. -/
def dropFirst (q : PriorityQueue cmp) : PriorityQueue cmp :=
  match q.peek with
  | some a => if isToReschedule a then q else q.poll
  | none => q

/-- The set left, and the first actions. -/
def peekAll (s : PriorityActionSet cmp) : PriorityActionSet cmp × PriorityQueue cmp :=
  let s := { s with
    noCoreActions := dropFirst isToReschedule s.noCoreActions
    coreActions := s.coreActions.map (dropFirst isToReschedule) }
  (s, s.heads.foldl PriorityQueue.add .empty)

/-- It raises when there is no queue for the core. -/
def remove [DecidableEq α] (action : α) (s : PriorityActionSet cmp) : PriorityActionSet cmp :=
  s.modifyQueue (coreId action) fun q => q.remove action

/-! ## One queue changed -/

section
variable {s : PriorityActionSet cmp} {core : Option Nat} {f : PriorityQueue cmp → PriorityQueue cmp}

omit [Std.TransCmp cmp] in
theorem queues_modifyQueue : (s.modifyQueue core f).queues = s.queues.modify (place core) f := by
  cases core <;> rfl

omit [Std.TransCmp cmp] in
@[simp] theorem priority_modifyQueue : (s.modifyQueue core f).priority = s.priority := by cases core <;> rfl

omit [Std.TransCmp cmp] in
/-- What the queue of the core has, and what the others have. -/
theorem flatMap_modify_perm {β : Type} (g : PriorityQueue cmp → List β) {q : PriorityQueue cmp}
    (hq : s.queues[place core]? = some q) :
    ∃ others, (s.queues.flatMap g).Perm (g q ++ others) ∧
      ∀ f, ((s.modifyQueue core f).queues.flatMap g).Perm (g (f q) ++ others) := by
  obtain ⟨hlt, rfl⟩ := List.getElem?_eq_some_iff.mp hq
  refine ⟨(s.queues.take (place core)).flatMap g ++ (s.queues.drop (place core + 1)).flatMap g, ?_, fun f => ?_⟩
  · conv_lhs => rw [← List.take_append_drop (place core) s.queues, List.drop_eq_getElem_cons hlt]
    rw [List.flatMap_append, List.flatMap_cons]
    exact List.perm_append_comm_assoc _ _ _
  · rw [queues_modifyQueue, List.modify_eq_take_cons_drop hlt, List.flatMap_append, List.flatMap_cons]
    exact List.perm_append_comm_assoc _ _ _

end

/-! ## Dropping actions whose flag is not set -/

/-- Only actions whose flag is not set are gone. -/
def Dropped (isToReschedule : α → Bool) (before after : List α) : Prop :=
  ∃ dropped, (∀ d ∈ dropped, isToReschedule d = false) ∧ before.Perm (dropped ++ after)

/-- The action is one of the best whose flag is set; none when there is none. -/
def Best (cmp : α → α → Ordering) (isToReschedule : α → Bool) (actions : List α) : Option α → Prop
  | some a => a ∈ actions ∧ isToReschedule a = true ∧ ∀ b ∈ actions, isToReschedule b = true → (cmp a b).isLE
  | none => ∀ b ∈ actions, isToReschedule b = false

section
variable {isToReschedule : α → Bool} {l l' l'' : List α}

theorem Dropped.of_perm (h : l.Perm l') : Dropped isToReschedule l l' := ⟨[], by simp, h⟩

theorem Dropped.trans (h : Dropped isToReschedule l l') (h' : Dropped isToReschedule l' l'') :
    Dropped isToReschedule l l'' := by
  obtain ⟨d, hd, hl⟩ := h
  obtain ⟨d', hd', hl'⟩ := h'
  refine ⟨d ++ d', ?_, ?_⟩
  · intro a ha
    rcases List.mem_append.mp ha with ha | ha
    · exact hd a ha
    · exact hd' a ha
  · rw [List.append_assoc]
    exact hl.trans (hl'.append_left d)

theorem Dropped.cons {a : α} (ha : isToReschedule a = false) (h : l.Perm (a :: l')) : Dropped isToReschedule l l' :=
  ⟨[a], by simpa using ha, h⟩

theorem Dropped.append {m m' : List α} (h : Dropped isToReschedule l l') (h' : Dropped isToReschedule m m') :
    Dropped isToReschedule (l ++ m) (l' ++ m') := by
  obtain ⟨d, hd, hl⟩ := h
  obtain ⟨d', hd', hm⟩ := h'
  refine ⟨d ++ d', ?_, ?_⟩
  · intro a ha
    rcases List.mem_append.mp ha with ha | ha
    · exact hd a ha
    · exact hd' a ha
  · refine (hl.append hm).trans ?_
    rw [List.append_assoc, List.append_assoc]
    exact (List.perm_append_comm_assoc _ _ _).append_left d

theorem Dropped.count [DecidableEq α] (h : Dropped isToReschedule l l') {a : α} (ha : isToReschedule a = true) : l.count a = l'.count a := by
  obtain ⟨d, hd, hl⟩ := h
  have hnot : a ∉ d := fun hmem => by rw [hd a hmem] at ha; cases ha
  rw [hl.count_eq, List.count_append, List.count_eq_zero.mpr hnot, Nat.zero_add]

theorem Dropped.subset (h : Dropped isToReschedule l l') : l' ⊆ l := by
  obtain ⟨d, -, hl⟩ := h
  exact fun a ha => hl.mem_iff.mpr (List.mem_append_right d ha)

omit [Std.TransCmp cmp] in
theorem Best.of_dropped {result : Option α} (h : Dropped isToReschedule l l') (hbest : Best cmp isToReschedule l' result) :
    Best cmp isToReschedule l result := by
  obtain ⟨d, hd, hl⟩ := h
  have hmem : ∀ b ∈ l, isToReschedule b = true → b ∈ l' := by
    intro b hb hflag
    rcases List.mem_append.mp (hl.mem_iff.mp hb) with hb | hb
    · rw [hd b hb] at hflag
      cases hflag
    · exact hb
  cases result with
  | some a =>
    obtain ⟨ha, hflag, hle⟩ := hbest
    exact ⟨hl.mem_iff.mpr (List.mem_append_right d ha), hflag, fun b hb hb' => hle b (hmem b hb hb') hb'⟩
  | none =>
    intro b hb
    rw [← Bool.not_eq_true]
    intro hflag
    rw [hbest b (hmem b hb hflag)] at hflag
    cases hflag

end

/-! ## The queue of the first actions -/

/-- Each action is in the queue of its core. -/
def Placed (s : PriorityActionSet cmp) : Prop :=
  ∀ i q, s.queues[i]? = some q → ∀ a ∈ q.toList, place (coreId a) = i

/-- The queue of the first actions has them. -/
def Mirrors (s : PriorityActionSet cmp) : Prop := s.priority.toList.Perm s.heads

section
variable {coreId isToReschedule} {s : PriorityActionSet cmp}

theorem mirrors_rebuild (s : PriorityActionSet cmp) : s.rebuildPriorityQueue.Mirrors := by
  have h := PriorityQueue.toList_foldl_add (q := (.empty : PriorityQueue cmp)) s.heads
  have hempty : (PriorityQueue.empty : PriorityQueue cmp).toList = [] := List.ofFn_zero
  rw [hempty, List.nil_append] at h
  exact h

omit [Std.TransCmp cmp] in
theorem length_held (s : PriorityActionSet cmp) : s.held.length = s.size := by
  simp [held, size, List.length_flatMap, PriorityQueue.toList]

omit [Std.TransCmp cmp] in
theorem heads_eq_nil (h : s.heads = []) : s.held = [] := by
  rw [heads, List.flatMap_eq_nil_iff] at h
  rw [held, List.flatMap_eq_nil_iff]
  intro q hq
  have hpeek := h q hq
  rw [Option.toList_eq_nil_iff] at hpeek
  exact PriorityQueue.peek_eq_none.mp hpeek

omit [Std.TransCmp cmp] in
theorem Mirrors.held_eq_nil (h : s.Mirrors) (hpeek : s.priority.peek = none) : s.held = [] := by
  rw [Mirrors, PriorityQueue.peek_eq_none.mp hpeek] at h
  exact heads_eq_nil h.nil_eq.symm

/-- Each action held comes after the first one of its queue. -/
theorem exists_head_le {b : α} (hb : b ∈ s.held) : ∃ a ∈ s.heads, (cmp a b).isLE := by
  obtain ⟨q, hq, hbq⟩ := List.mem_flatMap.mp hb
  cases hpeek : q.peek with
  | none =>
    rw [PriorityQueue.peek_eq_none.mp hpeek] at hbq
    cases hbq
  | some a =>
    exact ⟨a, List.mem_flatMap.mpr ⟨q, hq, by simp [hpeek]⟩, PriorityQueue.peek_le hpeek hbq⟩

omit [Std.TransCmp cmp] in
/-- A first action is the first of the queue of its core. -/
theorem Placed.queue_of_head (h : s.Placed coreId) {a : α} (ha : a ∈ s.heads) :
    ∃ q, s.queues[place (coreId a)]? = some q ∧ q.peek = some a := by
  obtain ⟨q, hq, haq⟩ := List.mem_flatMap.mp ha
  have hpeek : q.peek = some a := by simpa using haq
  obtain ⟨i, hi, rfl⟩ := List.getElem_of_mem hq
  have hplace := h i _ (List.getElem?_eq_getElem hi) a (PriorityQueue.mem_of_peek hpeek)
  exact ⟨_, by rw [hplace]; exact List.getElem?_eq_getElem hi, hpeek⟩

omit [Std.TransCmp cmp] in
theorem Placed.queue_of_mem (h : s.Placed coreId) {a : α} (ha : a ∈ s.held) :
    ∃ q, s.queues[place (coreId a)]? = some q ∧ a ∈ q.toList := by
  obtain ⟨q, hq, haq⟩ := List.mem_flatMap.mp ha
  obtain ⟨i, hi, rfl⟩ := List.getElem_of_mem hq
  have hplace := h i _ (List.getElem?_eq_getElem hi) a haq
  exact ⟨_, by rw [hplace]; exact List.getElem?_eq_getElem hi, haq⟩

omit [Std.TransCmp cmp] in
theorem Placed.modifyQueue (h : s.Placed coreId) (core : Option Nat) {f : PriorityQueue cmp → PriorityQueue cmp}
    (hf : ∀ q, ∀ a ∈ (f q).toList, a ∈ q.toList ∨ coreId a = core) : (s.modifyQueue core f).Placed coreId := by
  intro i q hq a ha
  rw [queues_modifyQueue, List.getElem?_modify] at hq
  cases hi : s.queues[i]? with
  | none => simp [hi] at hq
  | some q' =>
    simp only [hi, Option.map_eq_map, Option.map_some, Option.some.injEq] at hq
    split at hq
    next heq =>
      subst hq
      rcases hf q' a ha with ha | ha
      · exact h i q' hi a ha
      · rw [ha, heq]
    next =>
      subst hq
      exact h i q' hi a ha

theorem subset_poll (q : PriorityQueue cmp) : q.poll.toList ⊆ q.toList := by
  intro b hb
  cases hpeek : q.peek with
  | none => rwa [PriorityQueue.poll_of_peek_none hpeek] at hb
  | some a => exact (PriorityQueue.toList_poll hpeek).mem_iff.mpr (List.mem_cons_of_mem a hb)

/-- What the first turn of `poll` leaves, when it finds an action. -/
def afterTurn (coreId : α → Option Nat) (a : α) (s : PriorityActionSet cmp) : PriorityActionSet cmp :=
  let s := ({ s with priority := s.priority.poll }).modifyQueue (coreId a) PriorityQueue.poll
  match s.first (coreId a) with
  | none => s
  | some nextPeek => { s with priority := s.priority.add nextPeek }

theorem pollLoop_succ {a : α} (h : s.priority.peek = some a) (fuel : Nat) :
    s.pollLoop coreId isToReschedule (fuel + 1) =
      if isToReschedule a then (some a, s.afterTurn coreId a)
      else (s.afterTurn coreId a).pollLoop coreId isToReschedule fuel := by
  simp only [pollLoop, h]
  rfl

theorem queues_afterTurn (a : α) : (s.afterTurn coreId a).queues = (s.modifyQueue (coreId a) PriorityQueue.poll).queues := by
  unfold afterTurn
  dsimp only
  split <;> cases coreId a <;> rfl

omit [Std.TransCmp cmp] in
theorem first_modifyQueue {core : Option Nat} {f : PriorityQueue cmp → PriorityQueue cmp} {q : PriorityQueue cmp}
    (hq : s.queues[place core]? = some q) : (s.modifyQueue core f).first core = (f q).peek := by
  rw [first, queues_modifyQueue, List.getElem?_modify_eq, hq]
  rfl

/-- The action found is held, before all others that are, and the turn takes it out. -/
theorem turn_spec (hplaced : s.Placed coreId) (hmirrors : s.Mirrors) {a : α} (ha : s.priority.peek = some a) :
    s.held.Perm (a :: (s.afterTurn coreId a).held) ∧ (∀ b ∈ s.held, (cmp a b).isLE) ∧
      (s.afterTurn coreId a).Placed coreId ∧ (s.afterTurn coreId a).Mirrors := by
  have hhead : a ∈ s.heads := hmirrors.mem_iff.mp (PriorityQueue.mem_of_peek ha)
  obtain ⟨q, hq, hpeek⟩ := hplaced.queue_of_head hhead
  obtain ⟨others, hheld, hheld'⟩ := flatMap_modify_perm PriorityQueue.toList hq
  obtain ⟨otherHeads, hheads, hheads'⟩ := flatMap_modify_perm (fun q => q.peek.toList) hq
  refine ⟨?_, ?_, ?_, ?_⟩
  · rw [held, held, queues_afterTurn]
    refine hheld.trans ?_
    exact ((PriorityQueue.toList_poll hpeek).append_right others).trans ((hheld' PriorityQueue.poll).symm.cons a)
  · intro b hb
    obtain ⟨c, hc, hcb⟩ := exists_head_le hb
    exact Std.TransCmp.isLE_trans (PriorityQueue.peek_le ha (hmirrors.mem_iff.mpr hc)) hcb
  · intro i q' hq'
    rw [queues_afterTurn] at hq'
    exact hplaced.modifyQueue (coreId a) (fun q b hb => .inl (subset_poll q hb)) i q' hq'
  · -- the queue of the first actions without this one has the other first actions
    have hothers : s.priority.poll.toList.Perm otherHeads := by
      have := ((PriorityQueue.toList_poll ha).symm.trans hmirrors).trans hheads
      rw [hpeek] at this
      exact (List.perm_cons a).mp this
    have hnext : ({ s with priority := s.priority.poll }.modifyQueue (coreId a) PriorityQueue.poll).first (coreId a) =
        q.poll.peek := first_modifyQueue hq
    rw [Mirrors, heads, queues_afterTurn]
    refine List.Perm.trans ?_ (hheads' PriorityQueue.poll).symm
    unfold afterTurn
    simp only [hnext]
    cases q.poll.peek with
    | none => simpa using hothers
    | some next =>
      simp only [priority_modifyQueue, Option.toList_some, List.singleton_append]
      exact PriorityQueue.toList_add.trans (hothers.cons next)

/-- By induction on the turns: what comes up without its flag is dropped, the first
action with its flag is the best of those held. -/
theorem pollLoop_spec : ∀ (fuel : Nat) {s : PriorityActionSet cmp}, s.Placed coreId → s.Mirrors → s.held.length < fuel →
    Dropped isToReschedule s.held ((s.pollLoop coreId isToReschedule fuel).1.toList ++
        (s.pollLoop coreId isToReschedule fuel).2.held) ∧
      Best cmp isToReschedule s.held (s.pollLoop coreId isToReschedule fuel).1 ∧
      (s.pollLoop coreId isToReschedule fuel).2.Placed coreId ∧ (s.pollLoop coreId isToReschedule fuel).2.Mirrors
  | fuel + 1, s, hplaced, hmirrors, hfuel => by
    cases hpeek : s.priority.peek with
    | none =>
      have hloop : s.pollLoop coreId isToReschedule (fuel + 1) = (none, s) := by simp [pollLoop, hpeek]
      rw [hloop]
      refine ⟨.of_perm (List.Perm.refl _), ?_, hplaced, hmirrors⟩
      intro b hb
      rw [hmirrors.held_eq_nil hpeek] at hb
      cases hb
    | some a =>
      obtain ⟨hheld, hle, hplaced', hmirrors'⟩ := turn_spec hplaced hmirrors hpeek
      rw [pollLoop_succ hpeek]
      by_cases hflag : isToReschedule a = true
      · rw [if_pos hflag]
        exact ⟨.of_perm hheld, ⟨hheld.mem_iff.mpr List.mem_cons_self, hflag, fun b hb _ => hle b hb⟩, hplaced', hmirrors'⟩
      · rw [if_neg hflag]
        have hlength := hheld.length_eq
        rw [List.length_cons] at hlength
        obtain ⟨hdropped, hbest, hrest⟩ := pollLoop_spec fuel hplaced' hmirrors' (by omega)
        have hdrop : Dropped isToReschedule s.held (s.afterTurn coreId a).held := .cons (by simpa using hflag) hheld
        exact ⟨hdrop.trans hdropped, hbest.of_dropped hdrop, hrest⟩

/-! ## Turns enough -/

omit [Std.TransCmp cmp] in
theorem size_modifyQueue (core : Option Nat) {f : PriorityQueue cmp → PriorityQueue cmp} {q : PriorityQueue cmp}
    (hq : s.queues[place core]? = some q) : (s.modifyQueue core f).size + q.size = s.size + (f q).size := by
  obtain ⟨others, hheld, hheld'⟩ := flatMap_modify_perm PriorityQueue.toList hq
  have hbefore := hheld.length_eq
  have hafter := (hheld' f).length_eq
  rw [← held, length_held, List.length_append] at hbefore hafter
  simp only [PriorityQueue.toList, List.length_ofFn] at hbefore hafter
  omega

/-- A turn of `poll` takes an action out of its queue, or one that is gone off the
queue of the first actions. -/
theorem size_afterTurn {a : α} (ha : s.priority.peek = some a) :
    (s.afterTurn coreId a).size + (s.afterTurn coreId a).priority.size < s.size + s.priority.size := by
  have hpriority := PriorityQueue.size_poll ha
  have hsize : (s.afterTurn coreId a).size = (s.modifyQueue (coreId a) PriorityQueue.poll).size := by
    rw [size, queues_afterTurn, ← size]
  rw [hsize]
  cases hq : s.queues[place (coreId a)]? with
  | none =>
    have hsame : (s.modifyQueue (coreId a) PriorityQueue.poll).size = s.size := by
      rw [size, queues_modifyQueue, List.modify_eq_self (List.getElem?_eq_none_iff.mp hq), ← size]
    have hfirst : (({ s with priority := s.priority.poll } : PriorityActionSet cmp).modifyQueue (coreId a)
        PriorityQueue.poll).first (coreId a) = none := by
      rw [first, queues_modifyQueue]
      simp [queues] at hq ⊢
      simp [hq]
    unfold afterTurn
    simp only [hfirst, priority_modifyQueue]
    omega
  | some q =>
    have hnext : (({ s with priority := s.priority.poll } : PriorityActionSet cmp).modifyQueue (coreId a)
        PriorityQueue.poll).first (coreId a) = q.poll.peek := first_modifyQueue hq
    have hmodify : (s.modifyQueue (coreId a) PriorityQueue.poll).size + q.size = s.size + q.poll.size :=
      size_modifyQueue (coreId a) hq
    unfold afterTurn
    simp only [hnext]
    cases hpeek : q.peek with
    | none =>
      rw [PriorityQueue.poll_of_peek_none hpeek] at hmodify
      rw [PriorityQueue.poll_of_peek_none hpeek, hpeek]
      simp only [priority_modifyQueue]
      omega
    | some b =>
      have hpoll := PriorityQueue.size_poll hpeek
      cases q.poll.peek with
      | none =>
        simp only [priority_modifyQueue]
        omega
      | some next =>
        simp only [priority_modifyQueue, PriorityQueue.add]
        omega

/-- Turns past those `poll` is given change nothing. -/
theorem pollLoop_fuel : ∀ {fuel : Nat} (more : Nat) {s : PriorityActionSet cmp}, s.size + s.priority.size < fuel →
    s.pollLoop coreId isToReschedule (fuel + more) = s.pollLoop coreId isToReschedule fuel
  | fuel + 1, more, s, hfuel => by
    rw [Nat.add_right_comm]
    cases hpeek : s.priority.peek with
    | none => simp [pollLoop, hpeek]
    | some a =>
      have hturn : (s.afterTurn coreId a).size + (s.afterTurn coreId a).priority.size < s.size + s.priority.size :=
        size_afterTurn hpeek
      rw [pollLoop_succ hpeek, pollLoop_succ hpeek]
      split
      next => rfl
      next => exact pollLoop_fuel more (by omega)

/-! ## The other operations -/

omit [Std.TransCmp cmp] in
theorem place_lt_of_getElem? {q : PriorityQueue cmp} {i : Nat} (hq : s.queues[i]? = some q) : i < s.queues.length :=
  (List.getElem?_eq_some_iff.mp hq).1

/-- The first action of the core is taken out, and the queue of the first actions built anew. -/
theorem removeFirst_spec (hplaced : s.Placed coreId) {core : Option Nat} (hcore : place core < s.queues.length) :
    s.held.Perm ((s.first core).toList ++ (s.removeFirst core).held) ∧ (s.removeFirst core).Placed coreId ∧
      (s.removeFirst core).Mirrors := by
  have hq := List.getElem?_eq_getElem hcore
  obtain ⟨others, hheld, hheld'⟩ := flatMap_modify_perm PriorityQueue.toList hq
  have hfirst : s.first core = s.queues[place core].peek := by rw [first, hq]; rfl
  rw [removeFirst, if_pos hcore, hfirst]
  refine ⟨?_, ?_, mirrors_rebuild _⟩
  · refine hheld.trans (List.Perm.trans ?_ ((hheld' PriorityQueue.poll).symm.append_left _))
    rw [← List.append_assoc]
    refine List.Perm.append_right others ?_
    cases hpeek : s.queues[place core].peek with
    | none => rw [Option.toList_none, List.nil_append, PriorityQueue.poll_of_peek_none hpeek]
    | some a => exact PriorityQueue.toList_poll hpeek
  · exact hplaced.modifyQueue core fun q b hb => .inl (subset_poll q hb)

theorem peekLoop_succ {a : α} (h : s.priority.peek = some a) (fuel : Nat) :
    s.peekLoop coreId isToReschedule (fuel + 1) =
      if isToReschedule a then (some a, s)
      else (s.removeFirst (coreId a)).peekLoop coreId isToReschedule fuel := by
  simp only [peekLoop, h]

theorem held_removeFirst (hplaced : s.Placed coreId) (hmirrors : s.Mirrors) {a : α} (ha : s.priority.peek = some a) :
    place (coreId a) < s.queues.length ∧ s.held.Perm (a :: (s.removeFirst (coreId a)).held) := by
  obtain ⟨q, hq, hqpeek⟩ := hplaced.queue_of_head (hmirrors.mem_iff.mp (PriorityQueue.mem_of_peek ha))
  have hlt := place_lt_of_getElem? hq
  have hheld := (removeFirst_spec hplaced hlt).1
  have hfirst : s.first (coreId a) = some a := by rw [first, hq]; exact hqpeek
  rw [hfirst] at hheld
  exact ⟨hlt, hheld⟩

theorem peekLoop_spec : ∀ (fuel : Nat) {s : PriorityActionSet cmp}, s.Placed coreId → s.Mirrors → s.held.length < fuel →
    Dropped isToReschedule s.held (s.peekLoop coreId isToReschedule fuel).2.held ∧
      Best cmp isToReschedule s.held (s.peekLoop coreId isToReschedule fuel).1 ∧
      (s.peekLoop coreId isToReschedule fuel).2.Placed coreId ∧ (s.peekLoop coreId isToReschedule fuel).2.Mirrors
  | fuel + 1, s, hplaced, hmirrors, hfuel => by
    cases hpeek : s.priority.peek with
    | none =>
      have hloop : s.peekLoop coreId isToReschedule (fuel + 1) = (none, s) := by simp [peekLoop, hpeek]
      rw [hloop]
      refine ⟨.of_perm (List.Perm.refl _), ?_, hplaced, hmirrors⟩
      intro b hb
      rw [hmirrors.held_eq_nil hpeek] at hb
      cases hb
    | some a =>
      obtain ⟨hheldTurn, hle, -, -⟩ := turn_spec hplaced hmirrors hpeek
      rw [peekLoop_succ hpeek]
      by_cases hflag : isToReschedule a = true
      · rw [if_pos hflag]
        exact ⟨.of_perm (List.Perm.refl _), ⟨hheldTurn.mem_iff.mpr List.mem_cons_self, hflag, fun b hb _ => hle b hb⟩,
          hplaced, hmirrors⟩
      · rw [if_neg hflag]
        obtain ⟨hlt, hheld⟩ := held_removeFirst hplaced hmirrors hpeek
        obtain ⟨-, hplaced', hmirrors'⟩ := removeFirst_spec hplaced hlt
        have hlength := hheld.length_eq
        rw [List.length_cons] at hlength
        obtain ⟨hdropped, hbest, hrest⟩ := peekLoop_spec fuel hplaced' hmirrors' (by omega)
        have hdrop : Dropped isToReschedule s.held (s.removeFirst (coreId a)).held := .cons (by simpa using hflag) hheld
        exact ⟨hdrop.trans hdropped, hbest.of_dropped hdrop, hrest⟩

/-- Turns past one more than there are actions change nothing, once the queue of the
first actions is built. -/
theorem peekLoop_fuel_of_mirrors : ∀ {fuel : Nat} (more : Nat) {s : PriorityActionSet cmp}, s.Placed coreId → s.Mirrors →
    s.held.length < fuel → s.peekLoop coreId isToReschedule (fuel + more) = s.peekLoop coreId isToReschedule fuel
  | fuel + 1, more, s, hplaced, hmirrors, hfuel => by
    rw [Nat.add_right_comm]
    cases hpeek : s.priority.peek with
    | none => simp [peekLoop, hpeek]
    | some a =>
      obtain ⟨hlt, hheld⟩ := held_removeFirst hplaced hmirrors hpeek
      obtain ⟨-, hplaced', hmirrors'⟩ := removeFirst_spec hplaced hlt
      have hlength := hheld.length_eq
      rw [List.length_cons] at hlength
      rw [peekLoop_succ hpeek, peekLoop_succ hpeek]
      split
      next => rfl
      next => exact peekLoop_fuel_of_mirrors more hplaced' hmirrors' (by omega)

/-- Nor do turns past those `peek` is given: its first turn builds the queue of the
first actions if it does not find an action with its flag. -/
theorem peekLoop_fuel {fuel : Nat} (more : Nat) (hplaced : s.Placed coreId)
    (hcore : ∀ a, s.priority.peek = some a → place (coreId a) < s.queues.length) (hfuel : s.size + 1 < fuel) :
    s.peekLoop coreId isToReschedule (fuel + more) = s.peekLoop coreId isToReschedule fuel := by
  cases fuel with
  | zero => omega
  | succ fuel =>
    rw [Nat.add_right_comm]
    cases hpeek : s.priority.peek with
    | none => simp [peekLoop, hpeek]
    | some a =>
      obtain ⟨hheld, hplaced', hmirrors'⟩ := removeFirst_spec hplaced (hcore a hpeek)
      have hlength := hheld.length_eq
      rw [length_held, List.length_append] at hlength
      rw [peekLoop_succ hpeek, peekLoop_succ hpeek]
      split
      next => rfl
      next => exact peekLoop_fuel_of_mirrors more hplaced' hmirrors' (by omega)

theorem dropFirst_dropped (isToReschedule : α → Bool) (q : PriorityQueue cmp) :
    Dropped isToReschedule q.toList (dropFirst isToReschedule q).toList := by
  unfold dropFirst
  split
  next a hpeek =>
    split
    next => exact .of_perm (List.Perm.refl _)
    next hflag => exact .cons (by simpa using hflag) (PriorityQueue.toList_poll hpeek)
  next => exact .of_perm (List.Perm.refl _)

theorem queues_peekAll (isToReschedule : α → Bool) (s : PriorityActionSet cmp) :
    (s.peekAll isToReschedule).1.queues = s.queues.map (dropFirst isToReschedule) := rfl

theorem peekAll_dropped (isToReschedule : α → Bool) (s : PriorityActionSet cmp) :
    Dropped isToReschedule s.held (s.peekAll isToReschedule).1.held := by
  rw [held, held, queues_peekAll]
  induction s.queues with
  | nil => exact .of_perm (List.Perm.refl _)
  | cons q queues ih =>
    rw [List.map_cons, List.flatMap_cons, List.flatMap_cons]
    exact (dropFirst_dropped isToReschedule q).append ih

theorem Placed.peekAll (h : s.Placed coreId) (isToReschedule : α → Bool) : (s.peekAll isToReschedule).1.Placed coreId := by
  intro i q hq a ha
  rw [queues_peekAll, List.getElem?_map] at hq
  obtain ⟨q', hq', rfl⟩ := Option.map_eq_some_iff.mp hq
  exact h i q' hq' a ((dropFirst_dropped isToReschedule q').subset ha)

/-- Nothing is dropped while the first actions have their flags. -/
theorem peekAll_of_flags (h : ∀ a ∈ s.heads, isToReschedule a = true) : (s.peekAll isToReschedule).1 = s := by
  have hdrop : ∀ q ∈ s.queues, dropFirst isToReschedule q = q := by
    intro q hq
    unfold dropFirst
    split
    next a hpeek => rw [if_pos (h a (List.mem_flatMap.mpr ⟨q, hq, by simp [hpeek]⟩))]
    next => rfl
  obtain ⟨noCoreActions, coreActions, priority⟩ := s
  simp only [queues, List.mem_cons, forall_eq_or_imp] at hdrop
  simp only [PriorityActionSet.peekAll, hdrop.1]
  congr 1
  exact (List.map_congr_left hdrop.2).trans (List.map_id _)

theorem remove_spec [DecidableEq α] (hplaced : s.Placed coreId) (a : α) :
    (s.remove coreId a).held.Perm (s.held.erase a) ∧ (s.remove coreId a).Placed coreId ∧
      (s.Mirrors → s.first (coreId a) ≠ some a → (s.remove coreId a).Mirrors) := by
  refine ⟨?_, ?_, ?_⟩
  · cases hq : s.queues[place (coreId a)]? with
    | none =>
      have hnot : a ∉ s.held := by
        intro ha
        obtain ⟨q, hq', -⟩ := hplaced.queue_of_mem ha
        rw [hq] at hq'
        cases hq'
      rw [List.erase_of_not_mem hnot, remove, held, queues_modifyQueue,
        List.modify_eq_self (List.getElem?_eq_none_iff.mp hq)]
      exact List.Perm.refl _
    | some q =>
      obtain ⟨others, hheld, hheld'⟩ := flatMap_modify_perm PriorityQueue.toList hq
      refine (hheld' fun q => q.remove a).trans (((PriorityQueue.toList_remove q a).append_right others).trans ?_)
      by_cases ha : a ∈ q.toList
      · rw [← List.erase_append_left others ha]
        exact (hheld.erase a).symm
      · have hnot : a ∉ s.held := by
          intro hmem
          obtain ⟨q', hq', haq⟩ := hplaced.queue_of_mem hmem
          rw [hq, Option.some.injEq] at hq'
          exact ha (hq' ▸ haq)
        rw [List.erase_of_not_mem ha, List.erase_of_not_mem hnot]
        exact hheld.symm
  · refine hplaced.modifyQueue (coreId a) fun q b hb => .inl ?_
    exact List.erase_subset ((PriorityQueue.toList_remove q a).mem_iff.mp hb)
  · intro hmirrors hfirst
    rw [Mirrors, remove, priority_modifyQueue]
    refine hmirrors.trans ?_
    cases hq : s.queues[place (coreId a)]? with
    | none =>
      rw [heads, heads, queues_modifyQueue, List.modify_eq_self (List.getElem?_eq_none_iff.mp hq)]
    | some q =>
      obtain ⟨others, hheads, hheads'⟩ := flatMap_modify_perm (fun q => q.peek.toList) hq
      have hpeek : q.peek ≠ some a := by
        rw [first, hq] at hfirst
        exact hfirst
      refine hheads.trans (List.Perm.trans ?_ (hheads' fun q => q.remove a).symm)
      rw [PriorityQueue.peek_remove hpeek]

omit [Std.TransCmp cmp] in
theorem queues_resize (core : Option Nat) : ∃ n, (s.resize core).queues = s.queues ++ List.replicate n .empty ∧
    place core < (s.resize core).queues.length := by
  cases core with
  | none => exact ⟨0, by simp [resize], by simp [resize, place, queues]⟩
  | some c =>
    refine ⟨c + 1 - s.coreActions.length, by simp [resize, queues], ?_⟩
    simp only [resize, place, queues, Option.elim, List.length_cons, List.length_append, List.length_replicate]
    omega

omit [Std.TransCmp cmp] in
theorem toList_empty : (PriorityQueue.empty : PriorityQueue cmp).toList = [] := List.ofFn_zero

/-- An empty queue more changes nothing. -/
theorem resize_spec (hplaced : s.Placed coreId) (core : Option Nat) :
    (s.resize core).held = s.held ∧ (s.resize core).heads = s.heads ∧ (s.resize core).Placed coreId ∧
      (s.resize core).first core = s.first core ∧ (s.resize core).priority = s.priority := by
  obtain ⟨n, hqueues, -⟩ := queues_resize (s := s) core
  have hpeek : (PriorityQueue.empty : PriorityQueue cmp).peek = none := rfl
  have hnew : ∀ {i : Nat} {q : PriorityQueue cmp}, (s.queues ++ List.replicate n .empty)[i]? = some q →
      s.queues[i]? = some q ∨ q = .empty ∧ s.queues[i]? = none := by
    intro i q hq
    rw [List.getElem?_append] at hq
    split at hq
    next => exact .inl hq
    next h =>
      rw [List.getElem?_replicate] at hq
      split at hq
      next => exact .inr ⟨(Option.some.inj hq).symm, List.getElem?_eq_none (Nat.not_lt.mp h)⟩
      next => cases hq
  refine ⟨?_, ?_, ?_, ?_, ?_⟩
  · rw [held, held, hqueues, List.flatMap_append]
    simp [List.flatMap_replicate, toList_empty]
  · rw [heads, heads, hqueues, List.flatMap_append]
    simp [List.flatMap_replicate, hpeek]
  · intro i q hq a ha
    rw [hqueues] at hq
    rcases hnew hq with hq | ⟨rfl, -⟩
    · exact hplaced i q hq a ha
    · rw [toList_empty] at ha
      cases ha
  · rw [first, first, hqueues]
    cases hq : (s.queues ++ List.replicate n .empty)[place core]? with
    | none =>
      rw [List.getElem?_eq_none_iff, List.length_append] at hq
      rw [List.getElem?_eq_none (by omega)]
    | some q =>
      rcases hnew hq with hq' | ⟨rfl, hq'⟩
      · rw [hq']
      · rw [hq']
        rfl
  · cases core <;> rfl

/-- The action is held, and the first actions are known, if they were or another
one than the action was the first. -/
theorem offer_spec [DecidableEq α] (hplaced : s.Placed coreId) {a : α} (hflag : isToReschedule a = true) :
    (s.offer coreId isToReschedule a).held.Perm (a :: s.held) ∧ (s.offer coreId isToReschedule a).Placed coreId ∧
      (s.Mirrors ∨ s.first (coreId a) ≠ some a → (s.offer coreId isToReschedule a).Mirrors) := by
  obtain ⟨hheldR, hheadsR, hplacedR, hfirstR, hpriorityR⟩ := resize_spec hplaced (coreId a)
  obtain ⟨-, -, hlt⟩ := queues_resize (s := s) (coreId a)
  have hq := List.getElem?_eq_getElem hlt
  set q := (s.resize (coreId a)).queues[place (coreId a)] with hqdef
  obtain ⟨others, hheld, hheld'⟩ := flatMap_modify_perm PriorityQueue.toList hq
  have hadded : ((s.resize (coreId a)).modifyQueue (coreId a) fun q => q.add a).held.Perm (a :: s.held) := by
    rw [← hheldR]
    refine (hheld' fun q => q.add a).trans ?_
    exact (PriorityQueue.toList_add.append_right others).trans (hheld.symm.cons a)
  have hplaced' : ((s.resize (coreId a)).modifyQueue (coreId a) fun q => q.add a).Placed coreId := by
    refine hplacedR.modifyQueue (coreId a) fun q b hb => ?_
    rcases List.mem_cons.mp (PriorityQueue.toList_add.mem_iff.mp hb) with rfl | hb
    · exact .inr rfl
    · exact .inl hb
  rw [offer, if_pos hflag]
  by_cases hfirst : s.first (coreId a) = some a
  · -- the action is offered once more, and stays the first of its queue
    simp only [ne_eq, hfirst, not_true_eq_false, if_false, or_false]
    refine ⟨hadded, hplaced', fun hmirrors => ?_⟩
    obtain ⟨otherHeads, hheads, hheads'⟩ := flatMap_modify_perm (fun q => q.peek.toList) hq
    have hpeek : q.peek = some a := by
      rw [← hfirstR, first, hq] at hfirst
      exact hfirst
    rw [Mirrors, priority_modifyQueue, hpriorityR]
    refine hmirrors.trans ?_
    rw [← hheadsR]
    refine hheads.trans (List.Perm.trans ?_ (hheads' fun q => q.add a).symm)
    rw [PriorityQueue.peek_add hpeek Std.ReflCmp.isLE_rfl, hpeek]
  · simp only [ne_eq, hfirst, not_false_eq_true, if_true]
    exact ⟨hadded, hplaced', fun _ => mirrors_rebuild _⟩

end

/-! ## Runs -/

inductive Op (α : Type)
  | offer (action : α)
  | poll
  | peek
  | peekAll
  | removeFirst (core : Option Nat)
  | remove (action : α)
  /-- `setToReschedule(false)` -/
  | clear (action : α)

end PriorityActionSet

/-- A set with the flags of the actions, and what has been offered with its flag set,
returned by `poll` and removed. -/
structure WatchedActions (cmp : α → α → Ordering) where
  set : PriorityActionSet cmp
  isToReschedule : α → Bool
  /-- A first action may have gone, or another come, since the queue of the first
  actions was built. -/
  stale : Bool
  offered : List α
  returned : List α
  removed : List α

namespace WatchedActions

open PriorityActionSet

variable [DecidableEq α]

def new (isToReschedule : α → Bool) : WatchedActions cmp := ⟨.new, isToReschedule, false, [], [], []⟩

def step (coreId : α → Option Nat) (w : WatchedActions cmp) : Op α → Option (WatchedActions cmp)
  | .offer a =>
    some { w with
      set := w.set.offer coreId w.isToReschedule a
      stale := if w.isToReschedule a then w.stale && w.set.first (coreId a) = some a else w.stale
      offered := if w.isToReschedule a then a :: w.offered else w.offered }
  | .poll =>
    some { w with
      set := (w.set.poll coreId w.isToReschedule).2
      returned := (w.set.poll coreId w.isToReschedule).1.toList ++ w.returned }
  | .peek => some { w with set := (w.set.peek coreId w.isToReschedule).2 }
  | .peekAll =>
    some { w with
      set := (w.set.peekAll w.isToReschedule).1
      stale := w.stale || w.set.heads.any fun a => !w.isToReschedule a }
  | .removeFirst core =>
    some { w with
      set := w.set.removeFirst core
      stale := if place core < w.set.queues.length then false else w.stale
      removed := (w.set.first core).toList ++ w.removed }
  | .remove a =>
    some { w with
      set := w.set.remove coreId a
      stale := w.stale || w.set.first (coreId a) = some a
      removed := if a ∈ w.set.held then a :: w.removed else w.removed }
  | .clear a => some { w with isToReschedule := Function.update w.isToReschedule a false }

/-- As often as an action whose flag is set has been offered, it has been returned
or removed, or is held; and `size` counts the actions held. -/
structure LosesNone (w : WatchedActions cmp) : Prop where
  balance : ∀ a, w.isToReschedule a = true →
    w.offered.count a = w.returned.count a + w.removed.count a + w.set.held.count a
  size : w.set.size = w.set.held.length

/-- `poll` serves the best action whose flag is set. -/
def ServesBest (coreId : α → Option Nat) (w : WatchedActions cmp) : Op α → Prop
  | .poll => Best cmp w.isToReschedule w.set.held (w.set.poll coreId w.isToReschedule).1
  | _ => True

/-- The queue of the first actions is not used while it is stale. -/
def Fresh (w : WatchedActions cmp) : Op α → Prop
  | .poll => w.stale = false
  | .peek => w.stale = false
  | _ => True

/-- What holds along a run. -/
structure OK (coreId : α → Option Nat) (w : WatchedActions cmp) : Prop where
  balance : ∀ a, w.isToReschedule a = true →
    w.offered.count a = w.returned.count a + w.removed.count a + w.set.held.count a
  placed : w.set.Placed coreId
  mirrors : w.stale = false → w.set.Mirrors

section
variable {coreId : α → Option Nat} {w : WatchedActions cmp}

omit [Std.TransCmp cmp] in
theorem OK.losesNone (h : w.OK coreId) : w.LosesNone := ⟨h.balance, (length_held w.set).symm⟩

theorem OK.init (isToReschedule : α → Bool) : OK coreId (WatchedActions.new isToReschedule : WatchedActions cmp) where
  balance a _ := by simp [WatchedActions.new, PriorityActionSet.new, held, queues, toList_empty]
  placed i q hq a ha := by
    cases i with
    | zero =>
      obtain rfl : PriorityQueue.empty = q := by simpa [WatchedActions.new, PriorityActionSet.new, queues] using hq
      rw [toList_empty] at ha
      cases ha
    | succ i => simp [WatchedActions.new, PriorityActionSet.new, queues] at hq
  mirrors _ := List.Perm.refl _

omit [Std.TransCmp cmp] in
/-- Nothing but actions whose flag is not set is lost. -/
theorem OK.balance_of_dropped (h : w.OK coreId) {r l : List α} (hd : Dropped w.isToReschedule w.set.held (r ++ l)) :
    ∀ a, w.isToReschedule a = true →
      w.offered.count a = (r ++ w.returned).count a + w.removed.count a + l.count a := by
  intro a ha
  have hcount := hd.count ha
  have hbalance := h.balance a ha
  rw [List.count_append] at hcount ⊢
  omega

theorem OK.poll (h : w.OK coreId) (hfresh : w.stale = false) :
    OK coreId { w with
        set := (w.set.poll coreId w.isToReschedule).2
        returned := (w.set.poll coreId w.isToReschedule).1.toList ++ w.returned } ∧
      w.ServesBest coreId .poll := by
  have hfuel : w.set.held.length < w.set.size + w.set.priority.size + 1 := by
    rw [length_held]
    omega
  obtain ⟨hdropped, hbest, hplaced, hmirrors⟩ := @pollLoop_spec α cmp _ coreId w.isToReschedule _ w.set h.placed
    (h.mirrors hfresh) hfuel
  exact ⟨⟨h.balance_of_dropped hdropped, hplaced, fun _ => hmirrors⟩, hbest⟩

theorem OK.step {t : WatchedActions cmp} {op : Op α} (h : w.OK coreId) (hfresh : w.Fresh op)
    (hstep : WatchedActions.step coreId w op = some t) : t.OK coreId ∧ w.ServesBest coreId op := by
  cases op with
  | offer a =>
    cases hstep
    refine ⟨?_, trivial⟩
    by_cases hflag : w.isToReschedule a = true
    · obtain ⟨hheld, hplaced, hmirrors⟩ := offer_spec h.placed hflag
      simp only [hflag, if_true]
      refine ⟨fun b hb => ?_, hplaced, fun hstale => hmirrors ?_⟩
      · have hbalance := h.balance b hb
        simp only [hheld.count_eq, List.count_cons]
        omega
      · simp only [Bool.and_eq_false_iff, decide_eq_false_iff_not] at hstale
        exact hstale.imp h.mirrors id
    · simp only [hflag, if_false, offer]
      exact h
  | poll =>
    cases hstep
    exact h.poll hfresh
  | peek =>
    cases hstep
    obtain ⟨hdropped, -, hplaced, hmirrors⟩ := @peekLoop_spec α cmp _ coreId w.isToReschedule (w.set.size + 2) w.set
      h.placed (h.mirrors hfresh) (by rw [length_held]; omega)
    refine ⟨⟨?_, hplaced, fun _ => hmirrors⟩, trivial⟩
    exact h.balance_of_dropped (r := []) hdropped
  | peekAll =>
    cases hstep
    refine ⟨⟨?_, h.placed.peekAll _, fun hstale => ?_⟩, trivial⟩
    · exact h.balance_of_dropped (r := []) (peekAll_dropped w.isToReschedule w.set)
    · simp only [Bool.or_eq_false_iff, List.any_eq_false, Bool.not_eq_true', Bool.not_eq_false] at hstale
      rw [peekAll_of_flags hstale.2]
      exact h.mirrors hstale.1
  | removeFirst core =>
    cases hstep
    refine ⟨?_, trivial⟩
    by_cases hcore : place core < w.set.queues.length
    · obtain ⟨hheld, hplaced, hmirrors⟩ := removeFirst_spec h.placed hcore
      refine ⟨fun a ha => ?_, hplaced, fun _ => hmirrors⟩
      have hbalance := h.balance a ha
      have hcount := hheld.count_eq a
      simp only [List.count_append] at hcount ⊢
      omega
    · have hfirst : w.set.first core = none := by
        rw [first, List.getElem?_eq_none (Nat.not_lt.mp hcore)]
        rfl
      simp only [hfirst, removeFirst, hcore, if_false, Option.toList_none, List.nil_append]
      exact h
  | remove a =>
    cases hstep
    obtain ⟨hheld, hplaced, hmirrors⟩ := remove_spec h.placed a
    refine ⟨⟨fun b hb => ?_, hplaced, fun hstale => ?_⟩, trivial⟩
    · have hbalance := h.balance b hb
      simp only [hheld.count_eq]
      by_cases ha : a ∈ w.set.held
      · have hpos := List.count_pos_iff.mpr ha
        simp only [ha, if_true, List.count_cons, List.count_erase]
        by_cases hab : a = b
        · subst hab
          simp only [beq_self_eq_true, if_true]
          omega
        · have hne : (a == b) = false := by simpa using hab
          simp only [hne, Bool.false_eq_true, if_false]
          omega
      · simp only [ha, if_false, List.erase_of_not_mem ha]
        exact hbalance
    · simp only [Bool.or_eq_false_iff, decide_eq_false_iff_not] at hstale
      exact hmirrors (h.mirrors hstale.1) hstale.2
  | clear a =>
    cases hstep
    refine ⟨⟨fun b hb => h.balance b ?_, h.placed, h.mirrors⟩, trivial⟩
    simp only [Function.update_apply] at hb
    split at hb
    next => cases hb
    next => exact hb

/-- In every run that uses the queue of the first actions only while it is not stale,
no action is lost and each `poll` serves the best. -/
theorem losesNone_servesBest (coreId : α → Option Nat) (isToReschedule : α → Bool) (ops : List (Op α))
    (hfresh : Along (step coreId) Fresh (new isToReschedule : WatchedActions cmp) ops) :
    Always (step coreId) LosesNone (new isToReschedule : WatchedActions cmp) ops ∧
      Along (step coreId) (ServesBest coreId) (new isToReschedule : WatchedActions cmp) ops := by
  have hinit : OK coreId (new isToReschedule : WatchedActions cmp) := .init isToReschedule
  have hkeeps : ∀ (w : WatchedActions cmp) op t, w.OK coreId → w.Fresh op → step coreId w op = some t → t.OK coreId :=
    fun w op t hw hop ht => (hw.step hop ht).1
  have hserves : ∀ (w : WatchedActions cmp) op t, w.OK coreId → w.Fresh op → step coreId w op = some t →
      w.ServesBest coreId op := fun w op t hw hop ht => (hw.step hop ht).2
  exact ⟨always_of_along (fun _ hw => hw.losesNone) hkeeps hinit hfresh, along_of_along hserves hkeeps hinit hfresh⟩

/-- An action whose flag is cleared is dropped by `peekAll`, and one more is offered
before the next `poll`. -/
theorem losesNone_servesBest_offered :
    let ops := [.offer 1, .offer 2, .clear 1, .peekAll, .offer 3, .poll]
    Always (step fun _ => some 0) LosesNone (new fun _ => true : WatchedActions (compare : Nat → Nat → Ordering)) ops ∧
      Along (step fun _ => some 0) (ServesBest fun _ => some 0)
        (new fun _ => true : WatchedActions (compare : Nat → Nat → Ordering)) ops := by
  refine losesNone_servesBest _ _ _ ?_
  iterate 5 refine fun _ h => ⟨trivial, ?_⟩; cases h
  refine fun _ _ => ⟨?_, trivial⟩
  change _ = false
  decide +kernel

/-- Without that one, `poll` takes 2 out of the queue of its core for 1, and returns
neither. -/
theorem peekAll_loses :
    ¬ (Always (step fun _ => some 0) LosesNone (new fun _ => true : WatchedActions (compare : Nat → Nat → Ordering))
        [.offer 1, .offer 2, .clear 1, .peekAll, .poll] ∧
      Along (step fun _ => some 0) (ServesBest fun _ => some 0)
        (new fun _ => true : WatchedActions (compare : Nat → Nat → Ordering))
        [.offer 1, .offer 2, .clear 1, .peekAll, .poll]) := by
  rintro ⟨h, -⟩
  let w : WatchedActions (compare : Nat → Nat → Ordering) := new fun _ => true
  have hrun : (run (step fun _ => some 0) w [.offer 1, .offer 2, .clear 1, .peekAll, .poll]).map (fun w =>
      (w.isToReschedule 2, w.offered.count 2, w.returned.count 2 + w.removed.count 2 + w.set.held.count 2)) =
      some (true, 1, 0) := by decide +kernel
  obtain ⟨t, ht, hlost⟩ := Option.map_eq_some_iff.mp hrun
  simp only [Prod.mk.injEq] at hlost
  have hbalance := (Always.of_run h ht).balance 2 hlost.1
  omega

end

end WatchedActions

end Compss.MultiObjective
