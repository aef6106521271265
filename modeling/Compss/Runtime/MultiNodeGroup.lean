/-
`MultiNodeGroup`: the executions of a multi-node task, of which one becomes
the master when it is launched.

A member registers when it starts to run and obtains the next process id,
counting down from the size of the group; id 1 is the master, which runs the
job, and the slaves only wait for it. The counter is never set back, so that a
group that runs again after an error goes on below 1 (`no_master_after_error`).
-/
import Compss.Lib.Run
import Mathlib.Data.Int.Interval
import Mathlib.Logic.Function.Basic

namespace Compss.MultiNode

open Lib

abbrev MemberId := Nat

def masterGroupId : Int := 1

def unassignedId : Int := -1

structure MultiNodeGroup where
  groupSize : Nat
  nextProcessId : Int
  registeredSlaves : List (Int × MemberId)
  registeredMaster : Option MemberId

namespace MultiNodeGroup

def new (groupSize : Nat) : MultiNodeGroup := ⟨groupSize, groupSize, [], none⟩

/-- The group after the registration, and the id assigned. -/
def registerProcess (g : MultiNodeGroup) (m : MemberId) : MultiNodeGroup × Int :=
  let actionId := g.nextProcessId
  let g := { g with nextProcessId := actionId - 1 }
  if actionId = masterGroupId then ({ g with registeredMaster := some m }, actionId)
  else ({ g with registeredSlaves := (actionId, m) :: g.registeredSlaves.filter (·.1 ≠ actionId) }, actionId)

end MultiNodeGroup

/-- How a job ends. -/
inductive JobEnd
  | completed
  | error
  deriving DecidableEq, Repr

inductive MemberState
  | runnable
  | waiting
  | running
  | finished
  | failed
  deriving DecidableEq, Repr

/-- A `MultiNodeExecutionAction`. `hasJob` says that the job it submitted has
not ended. -/
structure Member where
  state : MemberState
  multiNodeId : Int
  executingResources : Nat
  hasJob : Bool

def Member.new : Member := ⟨.runnable, unassignedId, 0, false⟩

/-- `ExecutionAction.SCHEDULING_CHANCES`. -/
def schedulingChances : Nat := 2

/-- The group, its members and what has been told to the orchestrator and not
been processed yet. -/
structure Round where
  group : MultiNodeGroup
  member : MemberId → Member
  updates : List (MemberId × JobEnd)

/-- What happens to one member. -/
inductive Label
  | execute (m : MemberId)
  | waitOnResource (m : MemberId)
  | resumeExecution (m : MemberId)
  | jobEnded (m : MemberId) (e : JobEnd)
  | update (m : MemberId) (e : JobEnd)
  | cancelled (m : MemberId)
  deriving DecidableEq, Repr

namespace Round

def init (n : Nat) : Round := ⟨.new n, fun _ => .new, []⟩

def setMember (s : Round) (m : MemberId) (x : Member) : Round :=
  { s with member := Function.update s.member m x }

/-- `doAction`: the member registers, and submits the job as master. -/
def doAction (s : Round) (m : MemberId) : Round :=
  let r := s.group.registerProcess m
  { s.setMember m { s.member m with state := .running, multiNodeId := r.2, hasJob := decide (r.2 = masterGroupId) }
    with group := r.1 }

/-- `notifyCompleted` and `notifyError`: the master tells the slaves, which
tell the orchestrator, and so does it. -/
def notify (s : Round) (m : MemberId) (e : JobEnd) : Round :=
  let slaves := if (s.member m).multiNodeId = masterGroupId then s.group.registeredSlaves.map (·.2) else []
  { s with updates := s.updates ++ (slaves ++ [m]).map fun x => (x, e) }

/-- `error`, and `failed` when the chances are used up. -/
def error (s : Round) (m : MemberId) : Round :=
  let x := s.member m
  s.setMember m { x with state := if schedulingChances ≤ x.executingResources then .failed else .runnable }

def step (s : Round) : Label → Option Round
  | .execute m =>
    let x := s.member m
    if m < s.group.groupSize ∧ x.state = .runnable then
      some ((s.setMember m { x with executingResources := x.executingResources + 1 }).doAction m)
    else none
  | .waitOnResource m =>
    let x := s.member m
    if m < s.group.groupSize ∧ x.state = .runnable then some (s.setMember m { x with state := .waiting }) else none
  | .resumeExecution m => if (s.member m).state = .waiting then some (s.doAction m) else none
  | .jobEnded m e =>
    let x := s.member m
    if x.state = .running ∧ x.hasJob = true then some ((s.setMember m { x with hasJob := false }).notify m e)
    else none
  | .update m e =>
    let x := s.member m
    if (m, e) ∈ s.updates ∧ x.state = .running then
      let s := { s with updates := s.updates.erase (m, e) }
      match e with
      | .completed => some (s.setMember m { x with state := .finished })
      | .error => some (s.error m)
    else none
  | .cancelled m =>
    let x := s.member m
    if x.state = .runnable ∨ x.state = .waiting then some (s.setMember m { x with state := .failed }) else none

/-- All the members of the group run at the same time. -/
def InRound (s : Round) : Prop :=
  0 < s.group.groupSize ∧ ∀ m < s.group.groupSize, (s.member m).state = .running

/-- In a round the process ids are distinct and lie in `1..n`, and exactly one
member is the master. -/
def OneMaster (s : Round) : Prop :=
  s.InRound →
    (∀ m < s.group.groupSize, 1 ≤ (s.member m).multiNodeId ∧ (s.member m).multiNodeId ≤ s.group.groupSize) ∧
    (∀ m < s.group.groupSize, ∀ m' < s.group.groupSize,
      (s.member m).multiNodeId = (s.member m').multiNodeId → m = m') ∧
    ∃ m < s.group.groupSize, (s.member m).multiNodeId = masterGroupId ∧
      ∀ m' < s.group.groupSize, (s.member m').multiNodeId = masterGroupId → m' = m

/-- A member registers only while the group has ids left. -/
def Registers (s : Round) : Label → Prop
  | .execute _ | .resumeExecution _ => 1 ≤ s.group.nextProcessId
  | .waitOnResource _ | .jobEnded .. | .update .. | .cancelled _ => True

/-! ## The ids handed out -/

variable {s t : Round} {m : MemberId}

@[simp] theorem setMember_group (x : Member) : (s.setMember m x).group = s.group := rfl

theorem setMember_member (x : Member) (m' : MemberId) :
    (s.setMember m x).member m' = if m' = m then x else s.member m' := by
  simp [setMember, Function.update_apply]

/-- Running members hold ids the counter has passed, each its own. -/
structure Issued (s : Round) : Prop where
  nonneg : 0 ≤ s.group.nextProcessId
  le : s.group.nextProcessId ≤ s.group.groupSize
  passed : ∀ m, (s.member m).state = .running →
    s.group.nextProcessId < (s.member m).multiNodeId ∧ (s.member m).multiNodeId ≤ s.group.groupSize
  distinct : ∀ m m', (s.member m).state = .running → (s.member m').state = .running →
    (s.member m).multiNodeId = (s.member m').multiNodeId → m = m'

theorem Issued.init (n : Nat) : Issued (init n) where
  nonneg := Int.natCast_nonneg n
  le := Int.le_refl _
  passed _ h := by cases h
  distinct _ _ h := by cases h

/-- A change that leaves no new member running. -/
theorem Issued.setMember {x : Member} (h : Issued s)
    (hx : x.state = .running → (s.member m).state = .running ∧ x.multiNodeId = (s.member m).multiNodeId) :
    Issued (s.setMember m x) := by
  have hold : ∀ m', ((s.setMember m x).member m').state = .running → (s.member m').state = .running ∧
      ((s.setMember m x).member m').multiNodeId = (s.member m').multiNodeId := by
    intro m' hm'
    rw [setMember_member] at hm' ⊢
    split at hm'
    · next he => rw [he, if_pos rfl]; exact hx hm'
    · next he => rw [if_neg he]; exact ⟨hm', rfl⟩
  refine ⟨h.nonneg, h.le, fun m' hm' => ?_, fun m' m'' hm' hm'' heq => ?_⟩
  · obtain ⟨hr, hid⟩ := hold m' hm'
    rw [hid]
    exact h.passed m' hr
  · obtain ⟨hr, hid⟩ := hold m' hm'
    obtain ⟨hr', hid'⟩ := hold m'' hm''
    exact h.distinct m' m'' hr hr' (by rw [← hid, ← hid', heq])

@[simp] theorem registerProcess_snd (g : MultiNodeGroup) : (g.registerProcess m).2 = g.nextProcessId := by
  by_cases hid : g.nextProcessId = masterGroupId <;> simp [MultiNodeGroup.registerProcess, hid]

@[simp] theorem registerProcess_nextProcessId (g : MultiNodeGroup) :
    (g.registerProcess m).1.nextProcessId = g.nextProcessId - 1 := by
  by_cases hid : g.nextProcessId = masterGroupId <;> simp [MultiNodeGroup.registerProcess, hid]

@[simp] theorem registerProcess_groupSize (g : MultiNodeGroup) :
    (g.registerProcess m).1.groupSize = g.groupSize := by
  by_cases hid : g.nextProcessId = masterGroupId <;> simp [MultiNodeGroup.registerProcess, hid]

/-- The member that registers gets an id nobody has. -/
theorem Issued.doAction (h : Issued s) (hm : (s.member m).state ≠ .running) (hid : 1 ≤ s.group.nextProcessId) :
    Issued (s.doAction m) := by
  have hnew : ∀ m', ((s.doAction m).member m').state = .running →
      m' = m ∧ ((s.doAction m).member m').multiNodeId = s.group.nextProcessId ∨
      m' ≠ m ∧ (s.member m').state = .running ∧
        ((s.doAction m).member m').multiNodeId = (s.member m').multiNodeId := by
    intro m' hm'
    simp only [Round.doAction, setMember_member, registerProcess_snd] at hm' ⊢
    by_cases he : m' = m
    · exact .inl ⟨he, by rw [if_pos he]⟩
    · rw [if_neg he] at hm' ⊢
      exact .inr ⟨he, hm', rfl⟩
  have hnext : (s.doAction m).group.nextProcessId = s.group.nextProcessId - 1 := registerProcess_nextProcessId _
  have hsize : (s.doAction m).group.groupSize = s.group.groupSize := registerProcess_groupSize _
  have hle := h.le
  refine ⟨by omega, by omega, fun m' hm' => ?_, fun m' m'' hm' hm'' heq => ?_⟩
  · rw [hnext, hsize]
    rcases hnew m' hm' with ⟨-, hi⟩ | ⟨-, hr, hi⟩
    · omega
    · have := h.passed m' hr
      omega
  · rcases hnew m' hm' with ⟨rfl, hi⟩ | ⟨-, hr, hi⟩
    · rcases hnew m'' hm'' with ⟨rfl, -⟩ | ⟨-, hr', hi'⟩
      · rfl
      · have := h.passed m'' hr'
        omega
    · rcases hnew m'' hm'' with ⟨rfl, hi'⟩ | ⟨-, hr', hi'⟩
      · have := h.passed m' hr
        omega
      · exact h.distinct m' m'' hr hr' (by omega)

theorem Issued.step {l : Label} (h : Issued s) (hl : s.Registers l) (hst : s.step l = some t) : Issued t := by
  cases l with
  | execute m =>
    simp only [Round.step] at hst
    split at hst
    next hc =>
      cases hst
      have hset : Issued (s.setMember m { s.member m with executingResources := (s.member m).executingResources + 1 }) :=
        h.setMember fun hr => ⟨hr, rfl⟩
      refine hset.doAction ?_ hl
      rw [setMember_member, if_pos rfl, hc.2]
      decide
    · cases hst
  | waitOnResource m =>
    simp only [Round.step] at hst
    split at hst
    · cases hst
      exact h.setMember fun hr => by cases hr
    · cases hst
  | resumeExecution m =>
    simp only [Round.step] at hst
    split at hst
    next hc =>
      cases hst
      exact h.doAction (by rw [hc]; decide) hl
    · cases hst
  | jobEnded m e =>
    simp only [Round.step] at hst
    split at hst
    · cases hst
      obtain ⟨h1, h2, h3, h4⟩ := h.setMember (m := m) (x := { s.member m with hasJob := false }) fun hr => ⟨hr, rfl⟩
      exact ⟨h1, h2, h3, h4⟩
    · cases hst
  | update m e =>
    simp only [Round.step] at hst
    split at hst
    · have hs : Issued { s with updates := s.updates.erase (m, e) } := ⟨h.nonneg, h.le, h.passed, h.distinct⟩
      cases e with
      | completed =>
        cases hst
        exact hs.setMember fun hr => by cases hr
      | error =>
        cases hst
        refine hs.setMember fun hr => ?_
        split at hr <;> cases hr
    · cases hst
  | cancelled m =>
    simp only [Round.step] at hst
    split at hst
    · cases hst
      exact h.setMember fun hr => by cases hr
    · cases hst

/-- `n` distinct ids in `1..n` are all of them, 1 included. -/
theorem Issued.oneMaster (h : Issued s) : OneMaster s := by
  intro hround
  obtain ⟨hpos, hrun⟩ := hround
  have hrange : ∀ m < s.group.groupSize,
      1 ≤ (s.member m).multiNodeId ∧ (s.member m).multiNodeId ≤ s.group.groupSize := by
    intro m hm
    have := h.passed m (hrun m hm)
    have := h.nonneg
    omega
  have hdist : ∀ m < s.group.groupSize, ∀ m' < s.group.groupSize,
      (s.member m).multiNodeId = (s.member m').multiNodeId → m = m' :=
    fun m hm m' hm' => h.distinct m m' (hrun m hm) (hrun m' hm')
  refine ⟨hrange, hdist, ?_⟩
  have hsub : (Finset.range s.group.groupSize).image (fun m => (s.member m).multiNodeId) ⊆
      Finset.Icc 1 (s.group.groupSize : Int) := by
    intro i hi
    obtain ⟨m, hm, rfl⟩ := Finset.mem_image.mp hi
    exact Finset.mem_Icc.mpr (hrange m (Finset.mem_range.mp hm))
  have hcard : ((Finset.range s.group.groupSize).image fun m => (s.member m).multiNodeId).card =
      s.group.groupSize := by
    rw [Finset.card_image_of_injOn, Finset.card_range]
    intro m hm m' hm' heq
    exact hdist m (Finset.mem_range.mp hm) m' (Finset.mem_range.mp hm') heq
  have himage := Finset.eq_of_subset_of_card_le hsub (by rw [hcard, Int.card_Icc]; omega)
  have hone : (1 : Int) ∈ (Finset.range s.group.groupSize).image fun m => (s.member m).multiNodeId := by
    rw [himage]
    exact Finset.mem_Icc.mpr (by omega)
  obtain ⟨m, hm, hm1⟩ := Finset.mem_image.mp hone
  have hmn := Finset.mem_range.mp hm
  exact ⟨m, hmn, hm1, fun m' hm' h1 => hdist m' hm' m hmn (h1.trans hm1.symm)⟩

/-- **One master in a round**, in every run whose registrations all find an id
left, whatever the members go through. -/
theorem oneMaster_of_registers (n : Nat) (labels : List Label) (h : Along step Registers (init n) labels) :
    Always step OneMaster (init n) labels :=
  always_of_along (fun _ hs => hs.oneMaster) (fun _ _ _ hs hl hst => hs.step hl hst) (Issued.init n) h

/-- Two members start. -/
theorem oneMaster_of_registers_pair : Along step Registers (init 2) [.execute 0, .execute 1] ∧
    Always step OneMaster (init 2) [.execute 0, .execute 1] := by
  have h : Along step Registers (init 2) [.execute 0, .execute 1] := by
    intro t ht
    cases ht
    refine ⟨show (1 : Int) ≤ 2 by decide, ?_⟩
    intro u hu
    cases hu
    exact ⟨show (1 : Int) ≤ 1 by decide, trivial⟩
  exact ⟨h, oneMaster_of_registers 2 _ h⟩

/-- The job of the first round ends in error: both members are rescheduled,
run again as 0 and -1, and none is the master. -/
theorem no_master_after_error : ¬ Always step OneMaster (init 2)
    [.execute 0, .execute 1, .jobEnded 1 .error, .update 0 .error, .update 1 .error, .execute 0, .execute 1] := by
  intro h
  have hlast := ((((((h.2 _ rfl).2 _ rfl).2 _ rfl).2 _ rfl).2 _ rfl).2 _ rfl).2 _ rfl
  have htwo : ∀ m : Nat, m < 2 → m = 0 ∨ m = 1 := by omega
  obtain ⟨m, hm, hmaster, -⟩ := (hlast ⟨by decide, fun m hm => by
    rcases htwo m hm with rfl | rfl <;> rfl⟩).2.2
  rcases htwo m hm with rfl | rfl <;> exact absurd hmaster (by decide)

end Round

end Compss.MultiNode
