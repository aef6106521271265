/-
Who holds the slots of a thread binder, over all sequences of binds and
releases.

Each call is described by what it does to the free slots and to those held
(`Binds`, `Releases`); a run keeps, beside the binder, the units each running
job was given, and the slots held are those at all times (`Exclusive`). What a
bind raises when there are too few free slots depends on the sockets: the
recursion over them ends at one without a free slot, and past the last one
when there is none.
-/
import Compss.Worker.ThreadBinder
import Compss.Lib.Run
import Mathlib.Algebra.Ring.Nat

namespace Compss.Worker

/-! ## One list of slots -/

theorem takeFree_binds (job : Nat) : ∀ n slots,
    Binds job (takeFree job n slots).2.length (takeFree job n slots).2 slots (takeFree job n slots).1
  | 0, slots => ⟨by simp [takeFree], by simp [takeFree], by simp [takeFree]⟩
  | n + 1, [] => ⟨by simp [takeFree], by simp [takeFree], by simp [takeFree]⟩
  | n + 1, s :: slots => by
    unfold takeFree
    split
    next hfree =>
      have ih := takeFree_binds job n slots
      refine ⟨by simp, ?_, ?_⟩
      · rw [free_cons_of_free _ hfree, free_cons_of_held _ (isFree_bound s.id job)]
        exact ih.free.cons _
      · rw [held_cons_of_free _ hfree, held_cons_of_held _ (isFree_bound s.id job)]
        exact ih.held.cons _
    next hfree =>
      replace hfree : s.isFree = false := by simpa using hfree
      have ih := takeFree_binds job (n + 1) slots
      refine ⟨rfl, ?_, ?_⟩
      · rw [free_cons_of_held _ hfree, free_cons_of_held _ hfree]
        exact ih.free
      · rw [held_cons_of_held _ hfree, held_cons_of_held _ hfree]
        exact (ih.held.cons _).trans List.perm_middle.symm

theorem length_takeFree (job : Nat) : ∀ n slots, (takeFree job n slots).2.length = min n (slots.countP Slot.isFree)
  | 0, slots => by simp [takeFree]
  | n + 1, [] => by simp [takeFree]
  | n + 1, s :: slots => by
    unfold takeFree
    split
    next hfree =>
      rw [List.length_cons, length_takeFree job n slots, List.countP_cons_of_pos hfree]
      omega
    next hfree => rw [length_takeFree job (n + 1) slots, List.countP_cons_of_neg hfree]

theorem assignedCoreUnits_of_length {n : Nat} {ids : List Int} (h : ids.length = n) : assignedCoreUnits n ids = ids := by
  simp [assignedCoreUnits, h]

/-! ## The sockets of a map -/

namespace BindToMap

def availableSlots (b : BindToMap) : Nat := (b.map getAvailableSlots).sum

theorem length_free_flatten (b : BindToMap) : (free b.flatten).length = b.availableSlots := by
  rw [length_free, List.countP_flatten]
  rfl

/-- Sockets that have enough, from the first on, the last of them first. -/
theorem recursiveBinding_ok : ∀ {b : BindToMap} {amount index : Nat} {used : List Nat},
    recursiveBindingComputingUnits amount index b = .ok (some used) →
      ∃ k < b.length, used = (List.range' index (k + 1)).reverse ∧ amount ≤ availableSlots (b.take (k + 1))
  | [], _, _, _, h => by simp [recursiveBindingComputingUnits] at h
  | socket :: sockets, amount, index, used, h => by
    unfold recursiveBindingComputingUnits at h
    simp only at h
    split at h
    next henough =>
      cases h
      exact ⟨0, by simp, by simp, by simpa [availableSlots] using henough⟩
    next hmore =>
      split at h
      next hpos =>
        cases hrec : recursiveBindingComputingUnits (amount - getAvailableSlots socket) (index + 1) sockets with
        | error e => simp [hrec, Except.map] at h
        | ok next =>
          cases next with
          | none => simp [hrec, Except.map] at h
          | some next =>
            obtain ⟨k, hk, rfl, hamount⟩ := recursiveBinding_ok hrec
            simp only [hrec, Except.map, Option.map_some, Except.ok.injEq, Option.some.injEq] at h
            refine ⟨k + 1, by simpa using hk, ?_, ?_⟩
            · conv_rhs => rw [List.range'_succ, List.reverse_cons]
              exact h.symm
            · simp only [availableSlots, List.take_succ_cons, List.map_cons, List.sum_cons] at hamount ⊢
              omega
      next => simp at h

/-- Too few: the recursion ends at the first socket without a free slot, or past
the last one. -/
theorem recursiveBinding_of_lt : ∀ {b : BindToMap} {amount : Nat} (index : Nat), availableSlots b < amount →
    recursiveBindingComputingUnits amount index b =
      if ∃ socket ∈ b, getAvailableSlots socket = 0 then .ok none else .error .indexOutOfBounds
  | [], _, _, _ => by simp [recursiveBindingComputingUnits]
  | socket :: sockets, amount, index, h => by
    simp only [availableSlots, List.map_cons, List.sum_cons] at h
    unfold recursiveBindingComputingUnits
    have hfew : ¬ getAvailableSlots socket ≥ amount := by omega
    simp only [hfew, if_false]
    by_cases hpos : getAvailableSlots socket > 0
    · have hrest : availableSlots sockets < amount - getAvailableSlots socket := by
        simp only [availableSlots]
        omega
      rw [if_pos hpos, recursiveBinding_of_lt (index + 1) hrest]
      have hsocket : getAvailableSlots socket ≠ 0 := by omega
      simp only [List.mem_cons, exists_eq_or_imp, hsocket, false_or]
      split <;> rfl
    · have hsocket : getAvailableSlots socket = 0 := by omega
      rw [if_neg hpos]
      simp [hsocket]

theorem assign_binds (job : Nat) : ∀ (k n : Nat) (b : BindToMap), k ≤ b.length →
    Binds job (assign job (List.range k).reverse n b).2.length (assign job (List.range k).reverse n b).2 b.flatten
        (assign job (List.range k).reverse n b).1.flatten ∧
      (assign job (List.range k).reverse n b).2.length = min n (availableSlots (b.take k))
  | 0, n, b, _ => by
    refine ⟨(SameOccupation.refl _).binds, by simp [assign, availableSlots]⟩
  | k + 1, n, b, hk => by
    have hk' : k < b.length := hk
    have hsplit : b.flatten = (b.take k).flatten ++ (b[k] ++ (b.drop (k + 1)).flatten) := by
      conv_lhs => rw [← List.take_append_drop k b, List.drop_eq_getElem_cons hk']
      rw [List.flatten_append, List.flatten_cons]
    have hset : (b.set k (takeFree job n b[k]).1).flatten =
        (b.take k).flatten ++ ((takeFree job n b[k]).1 ++ (b.drop (k + 1)).flatten) := by
      rw [List.set_eq_take_append_cons_drop, if_pos hk', List.flatten_append, List.flatten_cons]
    have hbinds := (takeFree_binds job n b[k]).frame (b.take k).flatten (b.drop (k + 1)).flatten
    rw [← hsplit, ← hset] at hbinds
    have hlength := length_takeFree job n b[k]
    have havailable : availableSlots (b.take (k + 1)) = availableSlots (b.take k) + b[k].countP Slot.isFree := by
      rw [List.take_succ_eq_append_getElem hk', availableSlots, List.map_append, List.sum_append]
      rfl
    rw [List.range_succ, List.reverse_append, List.reverse_singleton, List.singleton_append, havailable]
    simp only [assign, List.getElem?_eq_getElem hk', Option.getD_some]
    split
    next hn => exact ⟨hbinds, by dsimp only; omega⟩
    next hn =>
      dsimp only
      obtain ⟨hrest, hrestLength⟩ := assign_binds job k (n - (takeFree job n b[k]).2.length)
        (b.set k (takeFree job n b[k]).1) (by simpa using hk'.le)
      rw [List.take_set_of_le le_rfl] at hrestLength
      refine ⟨?_, ?_⟩
      · rw [List.length_append]
        exact hbinds.trans hrest
      · rw [List.length_append]
        omega

theorem sameOccupation_updateSocketPriority (b : BindToMap) :
    SameOccupation b.flatten (updateSocketPriority b).flatten :=
  .of_perm (List.perm_insertionSort _ b).flatten

theorem bindComputingUnits_spec (debug : Bool) (job numCUs : Nat) (b : BindToMap) :
    (∃ units, (b.bindComputingUnits debug job numCUs).1 = .ok units ∧
      Binds job numCUs units b.flatten (b.bindComputingUnits debug job numCUs).2.flatten) ∨
    (∃ e, (b.bindComputingUnits debug job numCUs).1 = .error e ∧
      SameOccupation b.flatten (b.bindComputingUnits debug job numCUs).2.flatten) := by
  unfold bindComputingUnits
  split
  next e _ => exact .inr ⟨e, rfl, .refl _⟩
  next => exact .inr ⟨_, rfl, .refl _⟩
  next used hused =>
    obtain ⟨k, hk, rfl, henough⟩ := recursiveBinding_ok hused
    rw [← List.range_eq_range']
    obtain ⟨hbinds, hlength⟩ := assign_binds job (k + 1) numCUs b hk
    rw [Nat.min_eq_left henough] at hlength
    replace hbinds := hbinds.trans_same (sameOccupation_updateSocketPriority _)
    rw [hlength] at hbinds
    dsimp only
    by_cases hshown : debug = true ∧ numCUs = 0
    · refine .inr ⟨_, by rw [if_pos hshown], ?_⟩
      rw [hshown.2] at hbinds ⊢
      exact hbinds.same
    · refine .inl ⟨_, by rw [if_neg hshown], ?_⟩
      rw [assignedCoreUnits_of_length hlength]
      exact hbinds

theorem bindComputingUnits_of_lt (debug : Bool) (job : Nat) {numCUs : Nat} {b : BindToMap}
    (h : (free b.flatten).length < numCUs) :
    b.bindComputingUnits debug job numCUs =
      (.error (if ∃ socket ∈ b, getAvailableSlots socket = 0 then .unsufficientAvailableComputingUnits
        else .indexOutOfBounds), b) := by
  rw [length_free_flatten] at h
  unfold bindComputingUnits
  rw [recursiveBinding_of_lt 0 h]
  by_cases hstops : ∃ socket ∈ b, getAvailableSlots socket = 0
  · rw [if_pos hstops, if_pos hstops]
  · rw [if_neg hstops, if_neg hstops]

theorem releaseComputingUnits_spec (job : Nat) (b : BindToMap) :
    Releases job b.flatten (b.releaseComputingUnits job).flatten := by
  have h := releases_map job b.flatten
  rw [List.map_flatten] at h
  exact h.trans_same (sameOccupation_updateSocketPriority _)

end BindToMap

/-! ## The units of a resource -/

namespace BindToResource

theorem assignFrom_eq (job : Nat) : ∀ (n coreId : Nat) (b : BindToResource),
    slotsFrom coreId (assignFrom job n coreId b).1 = (takeFree job n (slotsFrom coreId b)).1 ∧
      (assignFrom job n coreId b).2 = (takeFree job n (slotsFrom coreId b)).2
  | 0, coreId, b => by simp [assignFrom, takeFree]
  | n + 1, coreId, [] => by simp [assignFrom, takeFree, slotsFrom]
  | n + 1, coreId, j :: b => by
    by_cases hj : j = -1
    · obtain ⟨ih, ih'⟩ := assignFrom_eq job n (coreId + 1) b
      simp [assignFrom, takeFree, slotsFrom, Slot.isFree, hj, ih, ih']
    · obtain ⟨ih, ih'⟩ := assignFrom_eq job (n + 1) (coreId + 1) b
      simp [assignFrom, takeFree, slotsFrom, Slot.isFree, hj, ih, ih']

theorem slotsFrom_release (job : Nat) : ∀ (coreId : Nat) (b : BindToResource),
    slotsFrom coreId (b.releaseComputingUnits job) = (slotsFrom coreId b).map (Slot.release job)
  | _, [] => rfl
  | coreId, j :: b => by
    have ih := slotsFrom_release job (coreId + 1) b
    simp only [releaseComputingUnits, List.map_cons, slotsFrom] at ih ⊢
    rw [ih]
    by_cases hj : j = job <;> simp [Slot.release, hj]

theorem assignFrom_binds (job n : Nat) (b : BindToResource) :
    Binds job (assignFrom job n 0 b).2.length (assignFrom job n 0 b).2 (slotsFrom 0 b)
      (slotsFrom 0 (assignFrom job n 0 b).1) := by
  rw [(assignFrom_eq job n 0 b).1, (assignFrom_eq job n 0 b).2]
  exact takeFree_binds job n _

/-- A job that has no unit gets the units it asks for, or none. -/
theorem bindComputingUnits_spec (job numCUs : Nat) (b : BindToResource)
    (hnew : ∀ s ∈ held (slotsFrom 0 b), s.job ≠ job) :
    (∃ units, (b.bindComputingUnits job numCUs).1 = .ok units ∧
      Binds job numCUs units (slotsFrom 0 b) (slotsFrom 0 (b.bindComputingUnits job numCUs).2)) ∨
    ((b.bindComputingUnits job numCUs).1 = .error .unsufficientAvailableComputingUnits ∧
      SameOccupation (slotsFrom 0 b) (slotsFrom 0 (b.bindComputingUnits job numCUs).2)) := by
  unfold bindComputingUnits
  have hbinds := assignFrom_binds job numCUs b
  split
  next hpos =>
    by_cases hlength : (assignFrom job numCUs 0 b).2.length = numCUs
    · simp only [hlength, ne_eq, not_true_eq_false, if_false]
      refine .inl ⟨_, rfl, ?_⟩
      rw [hlength] at hbinds
      rw [assignedCoreUnits_of_length hlength]
      exact hbinds
    · simp only [ne_eq, hlength, not_false_eq_true, if_true]
      refine .inr ⟨trivial, ?_⟩
      rw [slotsFrom_release]
      exact hbinds.releases (releases_map job _) hnew
  next hzero =>
    obtain rfl : numCUs = 0 := by omega
    exact .inl ⟨_, rfl, (SameOccupation.refl _).binds⟩

theorem bindComputingUnits_of_lt (job : Nat) {numCUs : Nat} {b : BindToResource}
    (h : (free (slotsFrom 0 b)).length < numCUs) :
    (b.bindComputingUnits job numCUs).1 = .error .unsufficientAvailableComputingUnits := by
  have hlength := length_takeFree job numCUs (slotsFrom 0 b)
  rw [← (assignFrom_eq job numCUs 0 b).2, ← length_free] at hlength
  have hpos : 0 < numCUs := by omega
  have hne : (assignFrom job numCUs 0 b).2.length ≠ numCUs := by omega
  simp [bindComputingUnits, hpos, hne]

end BindToResource

/-! ## Any binder -/

namespace ThreadBinder

/-- What is raised for too few free slots is raised by a test: in a map, at a
socket without a free slot. -/
def Stops : ThreadBinder → Prop
  | toMap b => ∃ socket ∈ b, BindToMap.getAvailableSlots socket = 0
  | toResource _ => True

instance : DecidablePred Stops
  | toMap b => inferInstanceAs (Decidable (∃ socket ∈ b, BindToMap.getAvailableSlots socket = 0))
  | toResource _ => inferInstanceAs (Decidable True)

theorem bindComputingUnits_spec (debug : Bool) (job numCUs : Nat) (b : ThreadBinder)
    (hnew : ∀ s ∈ held b.slots, s.job ≠ job) :
    (∃ units, (b.bindComputingUnits debug job numCUs).1 = .ok units ∧
      Binds job numCUs units b.slots (b.bindComputingUnits debug job numCUs).2.slots) ∨
    (∃ e, (b.bindComputingUnits debug job numCUs).1 = .error e ∧
      SameOccupation b.slots (b.bindComputingUnits debug job numCUs).2.slots) := by
  cases b with
  | toMap b => exact b.bindComputingUnits_spec debug job numCUs
  | toResource b =>
    rcases b.bindComputingUnits_spec job numCUs hnew with hok | ⟨herror, hsame⟩
    · exact .inl hok
    · exact .inr ⟨_, herror, hsame⟩

theorem bindComputingUnits_of_lt (debug : Bool) (job : Nat) {numCUs : Nat} {b : ThreadBinder}
    (h : (free b.slots).length < numCUs) :
    (b.bindComputingUnits debug job numCUs).1 =
      .error (if b.Stops then .unsufficientAvailableComputingUnits else .indexOutOfBounds) := by
  cases b with
  | toMap b =>
    have := b.bindComputingUnits_of_lt debug job h
    simp only [bindComputingUnits, this]
    rfl
  | toResource b => exact b.bindComputingUnits_of_lt job h

theorem releaseComputingUnits_spec (job : Nat) (b : ThreadBinder) :
    Releases job b.slots (b.releaseComputingUnits job).slots := by
  cases b with
  | toMap b => exact b.releaseComputingUnits_spec job
  | toResource b =>
    change Releases job _ (BindToResource.slotsFrom 0 (b.releaseComputingUnits job))
    rw [BindToResource.slotsFrom_release]
    exact releases_map job _

end ThreadBinder

/-! ## Runs -/

inductive BinderCall
  | bind (job numCUs : Nat)
  | release (job : Nat)
  deriving DecidableEq, Repr

/-- A binder, and the units each running job was given. -/
structure Occupied where
  binder : ThreadBinder
  running : List (Nat × List Int)
  deriving DecidableEq, Repr

namespace Occupied

/-- A job that is running is not bound again. -/
def step (debug : Bool) (s : Occupied) : BinderCall → Option Occupied
  | .bind job numCUs =>
    if job ∈ s.running.map Prod.fst then none
    else
      let r := s.binder.bindComputingUnits debug job numCUs
      some ⟨r.2, match r.1 with
        | .ok units => (job, units) :: s.running
        | .error _ => s.running⟩
  | .release job => some ⟨s.binder.releaseComputingUnits job, s.running.filter fun r => r.1 ≠ job⟩

/-- The slots the running jobs were given, each held by its job. -/
def given (running : List (Nat × List Int)) : List Slot := running.flatMap fun r => r.2.map (⟨·, r.1⟩)

/-- Each slot, of those the binder was made with, is free or is one of those
given to one of the running jobs, and the binder has it so. -/
structure Exclusive (ids : List Int) (s : Occupied) : Prop where
  jobs : (s.running.map Prod.fst).Nodup
  held : (held s.binder.slots).Perm (given s.running)
  slots : (free s.binder.slots ++ (given s.running).map Slot.id).Perm ids

/-- What a call should do: a bind that succeeds returns as many units as it was
asked for, which were free, one with too few free slots raises the exception
made for it and changes nothing, a release frees the slots of the job. -/
def Meets (debug : Bool) (s : Occupied) : BinderCall → Prop
  | .bind job numCUs =>
    (∀ units, (s.binder.bindComputingUnits debug job numCUs).1 = .ok units →
      Binds job numCUs units s.binder.slots (s.binder.bindComputingUnits debug job numCUs).2.slots) ∧
    ((free s.binder.slots).length < numCUs →
      (s.binder.bindComputingUnits debug job numCUs).1 = .error .unsufficientAvailableComputingUnits ∧
      SameOccupation s.binder.slots (s.binder.bindComputingUnits debug job numCUs).2.slots)
  | .release job => Releases job s.binder.slots (s.binder.releaseComputingUnits job).slots

/-- Too few free slots are noticed. -/
def Noticed (s : Occupied) : BinderCall → Prop
  | .bind _ numCUs => (free s.binder.slots).length < numCUs → s.binder.Stops
  | .release _ => True

instance (s : Occupied) : DecidablePred s.Noticed
  | .bind _ numCUs => inferInstanceAs (Decidable ((free s.binder.slots).length < numCUs → s.binder.Stops))
  | .release _ => inferInstanceAs (Decidable True)

theorem given_cons (job : Nat) (units : List Int) (running : List (Nat × List Int)) :
    given ((job, units) :: running) = units.map (⟨·, job⟩) ++ given running := List.flatMap_cons

theorem mem_given {running : List (Nat × List Int)} {s : Slot} (h : s ∈ given running) :
    ∃ job ∈ running.map Prod.fst, s.job = (job : Int) := by
  simp only [given, List.mem_flatMap, List.mem_map] at h
  obtain ⟨r, hr, id, _, rfl⟩ := h
  exact ⟨r.1, List.mem_map_of_mem hr, rfl⟩

theorem filter_given (job : Nat) : ∀ running : List (Nat × List Int),
    (given running).filter (fun s : Slot => s.job ≠ job) = given (running.filter fun r => r.1 ≠ job)
  | [] => rfl
  | (j, units) :: running => by
    rw [given_cons, List.filter_append, filter_given job running, List.filter_map]
    by_cases hj : j = job
    · rw [List.filter_cons_of_neg (by simpa using hj)]
      simp [Function.comp_def, hj]
    · have hj' : (j : Int) ≠ job := by exact_mod_cast hj
      rw [List.filter_cons_of_pos (by simpa using hj), given_cons]
      simp [Function.comp_def, hj']

theorem Exclusive.new {ids : List Int} {s : Occupied} (h : Exclusive ids s) {job : Nat}
    (hjob : job ∉ s.running.map Prod.fst) : ∀ slot ∈ Worker.held s.binder.slots, slot.job ≠ job := by
  intro slot hslot heq
  obtain ⟨j, hj, hslotj⟩ := mem_given (h.held.mem_iff.mp hslot)
  have : j = job := by exact_mod_cast hslotj.symm.trans heq
  exact hjob (this ▸ hj)

theorem Exclusive.same {ids : List Int} {s : Occupied} (h : Exclusive ids s) {binder : ThreadBinder}
    (hsame : SameOccupation s.binder.slots binder.slots) : Exclusive ids ⟨binder, s.running⟩ :=
  ⟨h.jobs, hsame.held.trans h.held, (hsame.free.append_right _).trans h.slots⟩

theorem Exclusive.bind {ids : List Int} {s : Occupied} (h : Exclusive ids s) {job n : Nat} {units : List Int}
    {binder : ThreadBinder} (hjob : job ∉ s.running.map Prod.fst)
    (hbinds : Binds job n units s.binder.slots binder.slots) :
    Exclusive ids ⟨binder, (job, units) :: s.running⟩ where
  jobs := List.nodup_cons.mpr ⟨hjob, h.jobs⟩
  held := by
    rw [given_cons]
    exact hbinds.held.trans (h.held.append_left _)
  slots := by
    refine List.Perm.trans ?_ h.slots
    rw [given_cons, List.map_append, List.map_map, ← List.append_assoc]
    have hids : units.map (Slot.id ∘ fun x => (⟨x, job⟩ : Slot)) = units := by simp [Function.comp_def]
    rw [hids]
    exact (List.perm_append_comm.trans hbinds.free.symm).append_right _

theorem Exclusive.release {ids : List Int} {s : Occupied} (h : Exclusive ids s) {job : Nat} {binder : ThreadBinder}
    (hreleases : Releases job s.binder.slots binder.slots) :
    Exclusive ids ⟨binder, s.running.filter fun r => r.1 ≠ job⟩ where
  jobs := (List.filter_sublist.map _).nodup h.jobs
  held := by
    rw [← filter_given]
    exact hreleases.held.trans (h.held.filter _)
  slots := by
    refine List.Perm.trans ?_ h.slots
    have hfree := hreleases.free.trans (((h.held.filter _).map Slot.id).append_right _)
    rw [← filter_given]
    refine (hfree.append_right _).trans ?_
    -- the slots given to the job and those given to the others are those given
    have hsplit := (List.filter_append_perm (fun s : Slot => decide (s.job = job)) (given s.running)).map Slot.id
    have hnot : (fun s : Slot => !decide (s.job = job)) = fun s : Slot => decide (s.job ≠ job) := by
      funext s
      simp
    rw [List.map_append, hnot] at hsplit
    rw [List.append_assoc]
    refine (List.perm_append_comm_assoc _ _ _).trans ?_
    exact hsplit.append_left _

theorem step_exclusive {debug : Bool} {ids : List Int} {s t : Occupied} {call : BinderCall} (h : Exclusive ids s)
    (hstep : step debug s call = some t) : Exclusive ids t := by
  cases call with
  | bind job numCUs =>
    simp only [step] at hstep
    split at hstep
    next => cases hstep
    next hjob =>
      cases hstep
      rcases s.binder.bindComputingUnits_spec debug job numCUs (h.new hjob) with ⟨units, hok, hbinds⟩ | ⟨e, herror, hsame⟩
      · simp only [hok]
        exact h.bind hjob hbinds
      · simp only [herror]
        exact h.same hsame
  | release job =>
    cases hstep
    exact h.release (s.binder.releaseComputingUnits_spec job)

/-- A call does what it should exactly if it notices that there are too few free
slots. -/
theorem meets_iff_noticed {debug : Bool} {ids : List Int} {s t : Occupied} {call : BinderCall} (h : Exclusive ids s)
    (hstep : step debug s call = some t) : Meets debug s call ↔ Noticed s call := by
  cases call with
  | release job => simp [Meets, Noticed, s.binder.releaseComputingUnits_spec job]
  | bind job numCUs =>
    have hjob : job ∉ s.running.map Prod.fst := by
      intro hjob
      simp [step, hjob] at hstep
    have hspec := s.binder.bindComputingUnits_spec debug job numCUs (h.new hjob)
    simp only [Meets, Noticed]
    constructor
    · rintro ⟨-, hraises⟩ hfew
      have hraised := (hraises hfew).1
      rw [s.binder.bindComputingUnits_of_lt debug job hfew] at hraised
      by_contra hstops
      simp [hstops] at hraised
    · intro hnoticed
      refine ⟨?_, ?_⟩
      · intro units hunits
        rcases hspec with ⟨units', hok, hbinds⟩ | ⟨e, herror, -⟩
        · rw [hok, Except.ok.injEq] at hunits
          exact hunits ▸ hbinds
        · rw [herror] at hunits
          cases hunits
      · intro hfew
        have hraised := s.binder.bindComputingUnits_of_lt debug job hfew
        rw [if_pos (hnoticed hfew)] at hraised
        refine ⟨hraised, ?_⟩
        rcases hspec with ⟨units, hok, -⟩ | ⟨e, -, hsame⟩
        · rw [hok] at hraised
          cases hraised
        · exact hsame

end Occupied

/-! ## New binders -/

theorem held_eq_nil {slots : List Slot} (h : ∀ s ∈ slots, s.job = -1) : held slots = [] := by
  simp only [held, List.filter_eq_nil_iff, Slot.isFree]
  intro s hs
  simp [h s hs]

namespace ThreadBinder

/-- What the constructors make, of any map. -/
inductive Created : ThreadBinder → Prop
  | toMap {numThreads totalAmountThreads : Int} {computingUnitsIds : List (List Int)} {b : BindToMap}
      (h : BindToMap.auxiliarConstructor numThreads computingUnitsIds totalAmountThreads = some b) : Created (toMap b)
  | toResource (numThreads : Nat) : Created (toResource (BindToResource.new numThreads))

theorem mem_slotsFrom {b : BindToResource} {s : Slot} : ∀ {coreId : Nat}, s ∈ BindToResource.slotsFrom coreId b → s.job ∈ b := by
  induction b with
  | nil => simp [BindToResource.slotsFrom]
  | cons j b ih =>
    intro coreId hs
    simp only [BindToResource.slotsFrom, List.mem_cons] at hs
    rcases hs with rfl | hs
    · exact List.mem_cons_self
    · exact List.mem_cons_of_mem _ (ih hs)

theorem Created.held_slots {b : ThreadBinder} (h : Created b) : held b.slots = [] := by
  apply held_eq_nil
  intro s hs
  cases h with
  | toMap h =>
    obtain ⟨idList, -, rfl⟩ := Option.map_eq_some_iff.mp h
    simp only [slots, List.mem_flatten, List.mem_map] at hs
    obtain ⟨_, ⟨ids, _, rfl⟩, hs⟩ := hs
    obtain ⟨id, _, rfl⟩ := List.mem_map.mp hs
    rfl
  | toResource numThreads => exact List.eq_of_mem_replicate (mem_slotsFrom hs)

end ThreadBinder

theorem Occupied.Exclusive.created {b : ThreadBinder} (h : b.Created) : Occupied.Exclusive (free b.slots) ⟨b, []⟩ where
  jobs := List.nodup_nil
  held := by
    rw [h.held_slots]
    exact List.Perm.refl _
  slots := by simp [Occupied.given]

/-- **When binding is exclusive and balanced.** For every binder a constructor
makes and every run of binds of jobs that are not running and of releases: at
all times each slot is free or given to one running job, every bind that
succeeds returns as many units as asked for, which were free, every bind with
too few free slots raises the exception made for it and changes nothing, and
every release frees the slots of its job, exactly if each bind on a map with
too few free slots finds a socket without any. -/
theorem binds_exclusive_balanced (debug : Bool) (binder : ThreadBinder) (h : binder.Created) (calls : List BinderCall) :
    (Lib.Always (Occupied.step debug) (Occupied.Exclusive (free binder.slots)) ⟨binder, []⟩ calls ∧
        Lib.Along (Occupied.step debug) (Occupied.Meets debug) ⟨binder, []⟩ calls) ↔
      Lib.Along (Occupied.step debug) Occupied.Noticed ⟨binder, []⟩ calls := by
  have hcreated := Occupied.Exclusive.created h
  constructor
  · rintro ⟨-, hmeets⟩
    exact Lib.along_of_along (I := Occupied.Exclusive (free binder.slots))
      (fun s call t hs hmeets hstep => (Occupied.meets_iff_noticed hs hstep).mp hmeets)
      (fun s call t hs _ hstep => Occupied.step_exclusive hs hstep) hcreated hmeets
  · intro hnoticed
    refine ⟨?_, ?_⟩
    · exact Lib.always_of_along (fun s hs => hs) (fun s call t hs _ hstep => Occupied.step_exclusive hs hstep) hcreated
        hnoticed
    · exact Lib.along_of_along (I := Occupied.Exclusive (free binder.slots))
        (fun s call t hs hnoticed hstep => (Occupied.meets_iff_noticed hs hstep).mpr hnoticed)
        (fun s call t hs _ hstep => Occupied.step_exclusive hs hstep) hcreated hnoticed

/-- A unit for job 1, two for job 2, of two sockets with two units in all: job 2
has to wait its turn. -/
theorem binds_exclusive_balanced_two_sockets :
    Lib.Always (Occupied.step false) (Occupied.Exclusive [0, 1]) ⟨.toMap [[⟨0, -1⟩], [⟨1, -1⟩]], []⟩
        [.bind 1 1, .bind 2 2] ∧
      Lib.Along (Occupied.step false) (Occupied.Meets false) ⟨.toMap [[⟨0, -1⟩], [⟨1, -1⟩]], []⟩
        [.bind 1 1, .bind 2 2] := by
  refine (binds_exclusive_balanced false (.toMap [[⟨0, -1⟩], [⟨1, -1⟩]])
    (.toMap (b := [[⟨0, -1⟩], [⟨1, -1⟩]]) (show BindToMap.auxiliarConstructor 2 [[0], [1]] 2 = some _ from rfl)) _).mpr ?_
  rintro t ht
  cases ht
  refine ⟨by decide, ?_⟩
  rintro t ht
  cases ht
  exact ⟨by decide, trivial⟩

/-- On one socket the recursion goes on past it. -/
theorem bind_past_last_socket :
    ∃ s, Lib.run (Occupied.step false) ⟨.toMap [[⟨0, -1⟩, ⟨1, -1⟩]], []⟩ [.bind 1 1] = some s ∧
      BindToMap.auxiliarConstructor 2 [[0, 1]] 2 = some [[⟨0, -1⟩, ⟨1, -1⟩]] ∧
      (free s.binder.slots).length = 1 ∧
      (s.binder.bindComputingUnits false 2 2).1 = .error .indexOutOfBounds := by
  refine ⟨⟨.toMap [[⟨0, 1⟩, ⟨1, -1⟩]], [(1, [0])]⟩, by decide, by decide, by decide, by decide⟩

end Compss.Worker
