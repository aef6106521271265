/-
The thread binders of a worker: `BindToMap`, which binds a job to the slots of
a map of sockets, and `BindToResource`, which has one list of slots.

A slot has the id of a computing unit and the job it is bound to, -1 when it
is free; the lists `idList` and `bindedCPUs` of `BindToMap` are one list of
sockets here, as they are always changed together. A map is any list of lists
of ids here; `SocketMap` has how it is read from a text.
-/
import Mathlib.Data.List.Sort

namespace Compss.Worker

structure Slot where
  id : Int
  job : Int
  deriving DecidableEq, Repr

namespace Slot

def isFree (s : Slot) : Bool := s.job == -1

def release (job : Nat) (s : Slot) : Slot := if s.job = job then { s with job := -1 } else s

end Slot

inductive BindException
  | unsufficientAvailableComputingUnits
  | indexOutOfBounds
  | arrayIndexOutOfBounds
  deriving DecidableEq, Repr

/-- Binds the first `n` free slots, and gives their ids. -/
def takeFree (job : Nat) : Nat → List Slot → List Slot × List Int
  | 0, slots => (slots, [])
  | _, [] => ([], [])
  | n + 1, s :: slots =>
    if s.isFree then ({ s with job := job } :: (takeFree job n slots).1, s.id :: (takeFree job n slots).2)
    else (s :: (takeFree job (n + 1) slots).1, (takeFree job (n + 1) slots).2)

/-- The array of `n` units, zero where none has been assigned. -/
def assignedCoreUnits (n : Nat) (ids : List Int) : List Int := ids ++ List.replicate (n - ids.length) 0

abbrev Socket := List Slot

abbrev BindToMap := List Socket

namespace BindToMap

def getAvailableSlots (socket : Socket) : Nat := socket.countP Slot.isFree

/-- One round of the replication: the `i`-th id of each socket once more, while
there are threads to place; with the threads left. -/
def replicateRow (i : Nat) : Nat → List (List Int) → Option (List (List Int) × Nat)
  | 0, idList => some (idList, 0)
  | left, [] => some ([], left)
  | left + 1, ids :: idList =>
    ids[i]?.bind fun id => (replicateRow i left idList).map fun r => ((ids ++ [id]) :: r.1, r.2)

/-- The rounds, until all threads are placed; each places one at least. -/
def replicateSockets : Nat → Nat → Nat → List (List Int) → Option (List (List Int))
  | 0, _, _, idList => some idList
  | fuel + 1, i, left, idList =>
    idList.head?.bind fun first =>
      if i < first.length ∧ 0 < left then
        (replicateRow i left idList).bind fun r => replicateSockets fuel (i + 1) r.2 r.1
      else some idList

/-- Missing when the constructor throws. -/
def auxiliarConstructor (numThreads : Int) (computingUnitsIds : List (List Int)) (totalAmountThreads : Int) :
    Option BindToMap :=
  let left := (numThreads - totalAmountThreads).toNat
  (replicateSockets (left + 1) 0 left computingUnitsIds).map (List.map (List.map fun id => ⟨id, -1⟩))

/-- The sockets to use for `amount` units, the last first; none when one without
a free slot is reached. The sockets are those from `index` on. -/
def recursiveBindingComputingUnits : Nat → Nat → BindToMap → Except BindException (Option (List Nat))
  | _, _, [] => .error .indexOutOfBounds
  | amount, index, socket :: sockets =>
    let availableSlots := getAvailableSlots socket
    if availableSlots ≥ amount then .ok (some [index])
    else if availableSlots > 0 then
      (recursiveBindingComputingUnits (amount - availableSlots) (index + 1) sockets).map (Option.map (· ++ [index]))
    else .ok none

/-- The loop over the sockets to use. -/
def assign (job : Nat) : List Nat → Nat → BindToMap → BindToMap × List Int
  | [], _, b => (b, [])
  | socket :: usedSockets, n, b =>
    let r := takeFree job n (b[socket]?.getD [])
    let b' := b.set socket r.1
    if r.2.length = n then (b', r.2)
    else
      let rest := assign job usedSockets (n - r.2.length) b'
      (rest.1, r.2 ++ rest.2)

/-- A stable sort, the sockets with more free slots first. -/
def updateSocketPriority (b : BindToMap) : BindToMap :=
  b.insertionSort fun first second => getAvailableSlots second ≤ getAvailableSlots first

/-- With debug messages on, the first of the units is read to be shown. -/
def bindComputingUnits (debug : Bool) (job numCUs : Nat) (b : BindToMap) :
    Except BindException (List Int) × BindToMap :=
  match recursiveBindingComputingUnits numCUs 0 b with
  | .error e => (.error e, b)
  | .ok none => (.error .unsufficientAvailableComputingUnits, b)
  | .ok (some usedSockets) =>
    let r := assign job usedSockets numCUs b
    (if debug ∧ numCUs = 0 then .error .arrayIndexOutOfBounds else .ok (assignedCoreUnits numCUs r.2),
      updateSocketPriority r.1)

def releaseComputingUnits (job : Nat) (b : BindToMap) : BindToMap :=
  updateSocketPriority (b.map (List.map (Slot.release job)))

end BindToMap

/-- The job each unit is bound to, by the number of the unit. -/
abbrev BindToResource := List Int

namespace BindToResource

def new (numThreads : Nat) : BindToResource := List.replicate numThreads (-1)

def releaseComputingUnits (job : Nat) (b : BindToResource) : BindToResource :=
  b.map fun j : Int => if j = job then -1 else j

/-- The loop over the units from `coreId` on. -/
def assignFrom (job : Nat) : Nat → Nat → BindToResource → BindToResource × List Int
  | 0, _, b => (b, [])
  | _, _, [] => ([], [])
  | n + 1, coreId, j :: b =>
    if j = -1 then
      ((job : Int) :: (assignFrom job n (coreId + 1) b).1, (coreId : Int) :: (assignFrom job n (coreId + 1) b).2)
    else (j :: (assignFrom job (n + 1) (coreId + 1) b).1, (assignFrom job (n + 1) (coreId + 1) b).2)

def bindComputingUnits (job numCUs : Nat) (b : BindToResource) : Except BindException (List Int) × BindToResource :=
  if 0 < numCUs then
    let r := assignFrom job numCUs 0 b
    if r.2.length ≠ numCUs then (.error .unsufficientAvailableComputingUnits, releaseComputingUnits job r.1)
    else (.ok (assignedCoreUnits numCUs r.2), r.1)
  else (.ok (assignedCoreUnits numCUs []), b)

/-- The units from `coreId` on, as slots. -/
def slotsFrom : Nat → BindToResource → List Slot
  | _, [] => []
  | coreId, j :: b => ⟨coreId, j⟩ :: slotsFrom (coreId + 1) b

end BindToResource

inductive ThreadBinder
  | toMap (b : BindToMap)
  | toResource (b : BindToResource)
  deriving DecidableEq, Repr

namespace ThreadBinder

def slots : ThreadBinder → List Slot
  | toMap b => b.flatten
  | toResource b => BindToResource.slotsFrom 0 b

def bindComputingUnits (debug : Bool) (job numCUs : Nat) : ThreadBinder → Except BindException (List Int) × ThreadBinder
  | toMap b => ((b.bindComputingUnits debug job numCUs).1, toMap (b.bindComputingUnits debug job numCUs).2)
  | toResource b => ((b.bindComputingUnits job numCUs).1, toResource (b.bindComputingUnits job numCUs).2)

def releaseComputingUnits (job : Nat) : ThreadBinder → ThreadBinder
  | toMap b => toMap (b.releaseComputingUnits job)
  | toResource b => toResource (b.releaseComputingUnits job)

end ThreadBinder

/-! ## The occupation of the slots -/

/-- The ids of the free slots. -/
def free (slots : List Slot) : List Int := (slots.filter Slot.isFree).map Slot.id

def held (slots : List Slot) : List Slot := slots.filter fun s => !s.isFree

/-- `n` free slots, those with the ids `units`, go to the job. -/
structure Binds (job n : Nat) (units : List Int) (before after : List Slot) : Prop where
  length : units.length = n
  free : (free before).Perm (units ++ free after)
  held : (held after).Perm (units.map (⟨·, job⟩) ++ held before)

/-- The slots of the job become free. -/
structure Releases (job : Nat) (before after : List Slot) : Prop where
  free : (free after).Perm (((held before).filter fun s : Slot => s.job = job).map Slot.id ++ free before)
  held : (held after).Perm ((held before).filter fun s : Slot => s.job ≠ job)

structure SameOccupation (before after : List Slot) : Prop where
  free : (free after).Perm (free before)
  held : (held after).Perm (held before)

@[simp] theorem free_append (a b : List Slot) : free (a ++ b) = free a ++ free b := by simp [free]
@[simp] theorem held_append (a b : List Slot) : held (a ++ b) = held a ++ held b := by simp [held]

theorem free_cons_of_free {s : Slot} (slots : List Slot) (h : s.isFree = true) : free (s :: slots) = s.id :: free slots := by
  simp [free, h]

theorem free_cons_of_held {s : Slot} (slots : List Slot) (h : s.isFree = false) : free (s :: slots) = free slots := by
  simp [free, h]

theorem held_cons_of_free {s : Slot} (slots : List Slot) (h : s.isFree = true) : held (s :: slots) = held slots := by
  simp [held, h]

theorem held_cons_of_held {s : Slot} (slots : List Slot) (h : s.isFree = false) : held (s :: slots) = s :: held slots := by
  simp [held, h]

theorem isFree_bound (id : Int) (job : Nat) : Slot.isFree ⟨id, job⟩ = false := by
  simp only [Slot.isFree, beq_eq_false_iff_ne]
  omega

theorem length_free (slots : List Slot) : (free slots).length = slots.countP Slot.isFree := by
  simp [free, List.countP_eq_length_filter]

theorem SameOccupation.refl (slots : List Slot) : SameOccupation slots slots := ⟨List.Perm.refl _, List.Perm.refl _⟩

theorem SameOccupation.of_perm {before after : List Slot} (h : after.Perm before) : SameOccupation before after :=
  ⟨(h.filter _).map _, h.filter _⟩

theorem SameOccupation.binds {job : Nat} {before after : List Slot} (h : SameOccupation before after) :
    Binds job 0 [] before after := ⟨rfl, h.free.symm, h.held⟩

theorem Binds.same {job : Nat} {units : List Int} {before after : List Slot} (h : Binds job 0 units before after) :
    SameOccupation before after := by
  have hnil : units = [] := List.length_eq_zero_iff.mp h.length
  subst hnil
  exact ⟨h.free.symm, h.held⟩

theorem Binds.trans {job n m : Nat} {us vs : List Int} {a b c : List Slot} (h : Binds job n us a b)
    (h' : Binds job m vs b c) : Binds job (n + m) (us ++ vs) a c where
  length := by rw [List.length_append, h.length, h'.length]
  free := by
    rw [List.append_assoc]
    exact h.free.trans (h'.free.append_left us)
  held := by
    rw [List.map_append, List.append_assoc]
    refine (h'.held.trans (h.held.append_left _)).trans ?_
    rw [← List.append_assoc, ← List.append_assoc]
    exact (List.perm_append_comm).append_right _

theorem Binds.trans_same {job n : Nat} {us : List Int} {a b c : List Slot} (h : Binds job n us a b)
    (h' : SameOccupation b c) : Binds job n us a c := by
  have hsame : Binds job 0 [] b c := h'.binds
  simpa using h.trans hsame

/-- Binding in one socket binds in all of them. -/
theorem Binds.frame {job n : Nat} {us : List Int} {a b : List Slot} (h : Binds job n us a b) (pre post : List Slot) :
    Binds job n us (pre ++ (a ++ post)) (pre ++ (b ++ post)) where
  length := h.length
  free := by
    simp only [free_append]
    have := (h.free.append_right (Worker.free post)).append_left (Worker.free pre)
    refine this.trans ?_
    rw [List.append_assoc]
    exact List.perm_append_comm_assoc _ _ _
  held := by
    simp only [held_append]
    have := (h.held.append_right (Worker.held post)).append_left (Worker.held pre)
    refine this.trans ?_
    rw [List.append_assoc]
    exact List.perm_append_comm_assoc _ _ _

theorem releases_map (job : Nat) : ∀ slots : List Slot, Releases job slots (slots.map (Slot.release job))
  | [] => ⟨List.Perm.refl _, List.Perm.refl _⟩
  | s :: slots => by
    have ih := releases_map job slots
    by_cases hfree : s.isFree = true
    · have hne : s.release job = s := by
        have : s.job ≠ job := by simp only [Slot.isFree, beq_iff_eq] at hfree; omega
        simp [Slot.release, this]
      constructor
      · rw [List.map_cons, hne, free_cons_of_free _ hfree, free_cons_of_free _ hfree, held_cons_of_free _ hfree]
        exact (ih.free.cons _).trans List.perm_middle.symm
      · rw [List.map_cons, hne, held_cons_of_free _ hfree, held_cons_of_free _ hfree]
        exact ih.held
    · replace hfree : s.isFree = false := by simpa using hfree
      by_cases hjob : s.job = job
      · have hrel : s.release job = ⟨s.id, -1⟩ := by simp [Slot.release, hjob]
        constructor
        · rw [List.map_cons, hrel, free_cons_of_free _ rfl, free_cons_of_held _ hfree, held_cons_of_held _ hfree,
            List.filter_cons_of_pos (by simpa using hjob)]
          exact ih.free.cons _
        · rw [List.map_cons, hrel, held_cons_of_free _ rfl, held_cons_of_held _ hfree,
            List.filter_cons_of_neg (by simpa using hjob)]
          exact ih.held
      · have hne : s.release job = s := by simp [Slot.release, hjob]
        constructor
        · rw [List.map_cons, hne, free_cons_of_held _ hfree, free_cons_of_held _ hfree, held_cons_of_held _ hfree,
            List.filter_cons_of_neg (by simpa using hjob)]
          exact ih.free
        · rw [List.map_cons, hne, held_cons_of_held _ hfree, held_cons_of_held _ hfree,
            List.filter_cons_of_pos (by simpa using hjob)]
          exact ih.held.cons _

theorem Releases.trans_same {job : Nat} {a b c : List Slot} (h : Releases job a b) (h' : SameOccupation b c) :
    Releases job a c := ⟨h'.free.trans h.free, h'.held.trans h.held⟩

/-- A job that had no slot gives back what it has been bound to. -/
theorem Binds.releases {job n : Nat} {us : List Int} {a b c : List Slot} (h : Binds job n us a b)
    (h' : Releases job b c) (hnew : ∀ s ∈ Worker.held a, s.job ≠ job) : SameOccupation a c := by
  have hself : (Worker.held a).filter (fun s : Slot => decide (s.job = job)) = [] := by
    simpa [List.filter_eq_nil_iff] using hnew
  have hothers : (Worker.held a).filter (fun s : Slot => decide (s.job ≠ job)) = Worker.held a := by
    simpa [List.filter_eq_self] using hnew
  constructor
  · refine h'.free.trans (((h.held.filter _).map _).append_right _ |>.trans ?_)
    rw [List.filter_append, hself, List.filter_map, List.append_nil, List.map_map]
    have hids : (List.map (Slot.id ∘ fun x => (⟨x, job⟩ : Slot))
        (List.filter ((fun s : Slot => decide (s.job = job)) ∘ fun x => ⟨x, job⟩) us)) = us := by
      simp [Function.comp_def]
    rw [hids]
    exact h.free.symm
  · refine h'.held.trans ((h.held.filter _).trans ?_)
    rw [List.filter_append, hothers, List.filter_map]
    simp [Function.comp_def]

end Compss.Worker
