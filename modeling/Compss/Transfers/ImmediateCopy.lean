/-
`DataOperation` and `ImmediateCopy`: copies of one datum, and the listeners
that are to be told how they end.

`perform` takes the lock of the source datum to find out whether the data is
there already, is being copied to the same target, or has to be moved; each of
its synchronized sections is a step, and so is each section on the listeners
of a copy inside them. A copy that finds its data on the way ends with
`OP_IN_PROGRESS` and hands its listeners over to the copy in progress. It keeps
that end state, in which `addEventListener` neither stores nor notifies
(`listener_of_merged_copy`).
-/
import Compss.Lib.Run
import Compss.Lib.Custody

namespace Compss.Operation

open Lib

abbrev ListenerId := Nat
abbrev CopyId := Nat

/-- `DataOperation.OpEndState`. -/
inductive OpEndState
  | ok
  | inProgress
  | failed
  | preparationFailed
  | waitingSources
  deriving DecidableEq, Repr

/-- What a listener is told. -/
inductive Notice
  | notifyEnd
  | notifyFailure
  deriving DecidableEq, Repr

/-- The cases of `notifyEnd`, and of `addEventListener` after it. -/
def OpEndState.notice : OpEndState → Option Notice
  | .ok => some .notifyEnd
  | .inProgress | .waitingSources => none
  | .failed | .preparationFailed => some .notifyFailure

/-- How `perform` returned. -/
inductive Returned
  | available
  | moved
  | failed
  | merged (into : CopyId)
  deriving DecidableEq, Repr

/-- Where `perform` is. -/
inductive Phase
  | created
  /-- The data is there; `end(OP_OK)` is next. -/
  | available
  /-- A copy to the target is in progress; `end(OP_IN_PROGRESS)` is next. -/
  | merging (into : CopyId)
  /-- `addEventListeners` on the copy in progress is next. -/
  | handing (into : CopyId)
  | copying
  /-- `specificCopy` has raised; `end(OP_FAILED)` is next. -/
  | failing
  /-- `finishedCopy` is next. -/
  | finishing (ok : Bool)
  /-- The location of the copy is to be added to the target data. -/
  | locating (ok : Bool)
  /-- `end(OP_OK)` is next. -/
  | ending
  | returned (r : Returned)
  deriving DecidableEq, Repr

/-- The target data: null, the source datum itself or another one. -/
inductive TgtData
  | null
  | source
  | other
  deriving DecidableEq, Repr

structure ImmediateCopy (Loc : Type) where
  tgtLoc : Loc
  tgtData : TgtData
  listeners : List ListenerId
  endState : Option OpEndState
  phase : Phase

/-- What the locations answer: whether a location has a URI in the first host
of a target, and whether a copy to one location is a copy to another. -/
structure Locations (Loc : Type) where
  inHost : Loc → Loc → Bool
  hasTarget : Loc → Loc → Bool

/-- The source datum with its copies. -/
structure Copies (Loc : Type) where
  nextCopy : CopyId
  copy : CopyId → ImmediateCopy Loc
  locations : List Loc
  inProgress : List CopyId
  /-- The copy whose `perform` has the lock of the source datum. -/
  srcLock : Option CopyId
  nextListener : ListenerId
  /-- The listeners given or added, with the copy. -/
  given : List (ListenerId × CopyId)
  notices : List (ListenerId × Notice)

inductive Label (Loc : Type)
  | create (tgtLoc : Loc) (tgtData : TgtData)
  | addEventListener (c : CopyId)
  /-- Anything else that is done to the locations of the source datum. -/
  | setLocations (ls : List Loc)
  | perform (c : CopyId)
  | endAvailable (c : CopyId)
  | endInProgress (c : CopyId)
  | handOver (c : CopyId)
  | specificCopy (c : CopyId) (ok : Bool)
  | endFailed (c : CopyId)
  | finishedCopy (c : CopyId)
  | addLocation (c : CopyId)
  | endOk (c : CopyId)

namespace Copies

variable {Loc : Type} (env : Locations Loc)

def init (loc : Loc) : Copies Loc where
  nextCopy := 0
  copy _ := ⟨loc, .null, [], none, .created⟩
  locations := []
  inProgress := []
  srcLock := none
  nextListener := 0
  given := []
  notices := []

def setCopy (s : Copies Loc) (c : CopyId) (x : ImmediateCopy Loc) : Copies Loc :=
  { s with copy := Function.update s.copy c x }

def setPhase (s : Copies Loc) (c : CopyId) (p : Phase) : Copies Loc :=
  s.setCopy c { s.copy c with phase := p }

/-- The notifications an operation with that end state makes. -/
def notifyAll (st : OpEndState) (ls : List ListenerId) : List (ListenerId × Notice) :=
  match st.notice with
  | none => []
  | some n => ls.map fun l => (l, n)

/-- `addEventListeners`, also of one listener. -/
def addEventListeners (s : Copies Loc) (c : CopyId) (ls : List ListenerId) : Copies Loc :=
  match (s.copy c).endState with
  | none => s.setCopy c { s.copy c with listeners := (s.copy c).listeners ++ ls }
  | some st => { s with notices := s.notices ++ notifyAll st ls }

/-- `end`. -/
def endOp (s : Copies Loc) (c : CopyId) (st : OpEndState) (p : Phase) : Copies Loc :=
  { s.setCopy c { s.copy c with endState := some st, phase := p } with
    notices := s.notices ++ notifyAll st (s.copy c).listeners }

/-- `alreadyAvailable`. -/
def alreadyAvailable (s : Copies Loc) (tgtLoc : Loc) : Bool := s.locations.any fun l => env.inHost l tgtLoc

/-- `alreadyCopying`. -/
def alreadyCopying (s : Copies Loc) (tgtLoc : Loc) : Option CopyId :=
  s.inProgress.find? fun c => env.hasTarget (s.copy c).tgtLoc tgtLoc

/-- The decision of `perform`; only `startCopy` gives the lock back at once. -/
def perform (s : Copies Loc) (c : CopyId) : Copies Loc :=
  let x := s.copy c
  let found := if x.tgtData = .null then none else alreadyCopying env s x.tgtLoc
  if x.tgtData ≠ .null ∧ alreadyAvailable env s x.tgtLoc = true then
    { s.setPhase c .available with srcLock := some c }
  else
    match found with
    | some c' => { s.setPhase c (.merging c') with srcLock := some c }
    | none => { s.setPhase c .copying with inProgress := s.inProgress ++ [c] }

def step (s : Copies Loc) : Label Loc → Option (Copies Loc)
  | .create tgtLoc tgtData =>
    some { s.setCopy s.nextCopy ⟨tgtLoc, tgtData, [s.nextListener], none, .created⟩ with
      nextCopy := s.nextCopy + 1, nextListener := s.nextListener + 1,
      given := (s.nextListener, s.nextCopy) :: s.given }
  | .addEventListener c =>
    if c < s.nextCopy then
      some { s.addEventListeners c [s.nextListener] with
        nextListener := s.nextListener + 1, given := (s.nextListener, c) :: s.given }
    else none
  | .setLocations ls => if s.srcLock = none then some { s with locations := ls } else none
  | .perform c =>
    if c < s.nextCopy ∧ (s.copy c).phase = .created ∧ s.srcLock = none then some (perform env s c) else none
  | .endAvailable c =>
    if (s.copy c).phase = .available then some { s.endOp c .ok (.returned .available) with srcLock := none }
    else none
  | .endInProgress c =>
    match (s.copy c).phase with
    | .merging c' => some (s.endOp c .inProgress (.handing c'))
    | _ => none
  | .handOver c =>
    match (s.copy c).phase with
    | .handing c' =>
      some { (s.setPhase c (.returned (.merged c'))).addEventListeners c' (s.copy c).listeners with srcLock := none }
    | _ => none
  | .specificCopy c ok =>
    if (s.copy c).phase = .copying then some (s.setPhase c (if ok then .finishing true else .failing)) else none
  | .endFailed c =>
    if (s.copy c).phase = .failing then some (s.endOp c .failed (.finishing false)) else none
  | .finishedCopy c =>
    match (s.copy c).phase with
    | .finishing ok =>
      if s.srcLock = none then
        some { s.setPhase c (.locating ok) with inProgress := s.inProgress.filter (· ≠ c) }
      else none
    | _ => none
  | .addLocation c =>
    match (s.copy c).phase with
    | .locating ok =>
      let x := s.copy c
      if x.tgtData = .source ∧ s.srcLock ≠ none then none
      else
        some { s.setPhase c (if ok then .ending else .returned .failed) with
          locations := if x.tgtData = .source then x.tgtLoc :: s.locations else s.locations }
    | _ => none
  | .endOk c =>
    if (s.copy c).phase = .ending ∧ s.srcLock = none then some (s.endOp c .ok (.returned .moved)) else none

/-- What the listeners of `c` are to be told, once `c` and the copy it was
merged into have returned. -/
def outcome (s : Copies Loc) (c : CopyId) : Option Notice :=
  match (s.copy c).phase with
  | .returned .available | .returned .moved => some .notifyEnd
  | .returned .failed => some .notifyFailure
  | .returned (.merged c') =>
    match (s.copy c').phase with
    | .returned .moved => some .notifyEnd
    | .returned .failed => some .notifyFailure
    | _ => none
  | _ => none

/-- Once every `perform` has returned, each listener has been told the outcome
of its copy, and has been told once. -/
def Informed (s : Copies Loc) : Prop :=
  (∀ c < s.nextCopy, ∃ r, (s.copy c).phase = .returned r) →
    ∀ l c, (l, c) ∈ s.given →
      ∃ n, outcome s c = some n ∧ (l, n) ∈ s.notices ∧ (s.notices.map Prod.fst).count l = 1

/-- A listener is added to a copy that has not been merged into another. -/
def AddsInTime (s : Copies Loc) : Label Loc → Prop
  | .addEventListener c => (s.copy c).endState ≠ some .inProgress
  | _ => True

end Copies

/-! ## Where the listeners are -/

namespace Phase

/-- The end state of an operation, by where its `perform` is. -/
def endState : Phase → Option OpEndState
  | .created | .available | .merging _ | .copying | .failing | .finishing true | .locating true | .ending => none
  | .handing _ | .returned (.merged _) => some .inProgress
  | .finishing false | .locating false | .returned .failed => some .failed
  | .returned .available | .returned .moved => some .ok

/-- The listeners of the copy are still its own to notify or to hand over. -/
def holds (p : Phase) : Bool :=
  match p with
  | .handing _ => true
  | p => p.endState.isNone

/-- The copy is among those in progress. -/
def isInProgress : Phase → Bool
  | .copying | .failing | .finishing _ => true
  | _ => false

/-- The copy moves the data itself, or has. -/
def moves : Phase → Bool
  | .copying | .failing | .finishing _ | .locating _ | .ending | .returned .moved | .returned .failed => true
  | _ => false

/-- The copy another one is merged into. -/
def mergedInto : Phase → Option CopyId
  | .returned (.merged c) => some c
  | _ => none

/-- `perform` has the lock of the source datum. -/
def inSection : Phase → Bool
  | .available | .merging _ | .handing _ => true
  | _ => false

/-- The copy in progress that was found. -/
def target : Phase → Option CopyId
  | .merging c | .handing c => some c
  | _ => none

theorem holds_of_endState {p : Phase} (h : p.endState = none) : p.holds = true := by
  cases p <;> simp_all [holds, endState]

end Phase

namespace Copies

variable {Loc : Type} {env : Locations Loc} {s t : Copies Loc} {c c' : CopyId} {l : ListenerId}
  {place : ListenerId → Place CopyId Notice}

/-- The listeners the copy has to notify or to hand over. -/
def held (s : Copies Loc) (c : CopyId) : List ListenerId :=
  if (s.copy c).phase.holds then (s.copy c).listeners else []

/-- The listeners of `c₀` are told by `c`. -/
def Serves (s : Copies Loc) (c₀ c : CopyId) : Prop := c = c₀ ∨ (s.copy c₀).phase.mergedInto = some c

/-- Every listener is with the copy that is to tell it, or has been told by it. -/
structure Routed (place : ListenerId → Place CopyId Notice) (s : Copies Loc) : Prop where
  custody : Custody place s.held s.notices
  endState : ∀ c, (s.copy c).endState = (s.copy c).phase.endState
  known : ∀ l c, (l, c) ∈ s.given → place l ≠ .unknown
  heldBy : ∀ l c₀ c, (l, c₀) ∈ s.given → place l = .held c → s.Serves c₀ c
  toldBy : ∀ l c₀ n, (l, c₀) ∈ s.given → place l = .delivered n →
    ∃ c, s.Serves c₀ c ∧ (s.copy c).phase.endState.bind OpEndState.notice = some n
  fresh : ∀ l, s.nextListener ≤ l → place l = .unknown
  uncreated : ∀ c, s.nextCopy ≤ c → (s.copy c).phase = .created ∧ (s.copy c).listeners = []

/-- What is merged is merged into a copy that moves the data. -/
structure Phased (s : Copies Loc) : Prop where
  locked : ∀ c, (s.copy c).phase.inSection = true → s.srcLock = some c
  target : ∀ c c', (s.copy c).phase.target = some c' → c' ∈ s.inProgress
  merged : ∀ c c', (s.copy c).phase.mergedInto = some c' → (s.copy c').phase.moves = true
  inProgress : ∀ c ∈ s.inProgress, (s.copy c).phase.isInProgress = true

def OK (s : Copies Loc) : Prop := (∃ place, Routed place s) ∧ Phased s

theorem OK.init (loc : Loc) : OK (init loc) := by
  refine ⟨⟨fun _ => .unknown, ?_⟩, ?_⟩
  · exact {
      custody := Custody.init.congr fun _ => ite_self _
      endState := fun _ => rfl
      known := fun _ _ h => by cases h
      heldBy := fun _ _ _ h => by cases h
      toldBy := fun _ _ _ h => by cases h
      fresh := fun _ _ => rfl
      uncreated := fun _ _ => ⟨rfl, rfl⟩ }
  · exact ⟨fun _ h => (by cases h), fun _ _ h => (by cases h), fun _ _ h => (by cases h), fun _ h => (by cases h)⟩

theorem OK.informed (h : OK s) : Informed s := by
  obtain ⟨⟨place, hr⟩, hp⟩ := h
  intro hall l c hlc
  have hcreated : ∀ c, (s.copy c).phase ≠ .created → c < s.nextCopy := fun c hc => by
    by_contra hge
    exact hc (hr.uncreated c (Nat.le_of_not_lt hge)).1
  cases hpl : place l with
  | unknown => exact absurd hpl (hr.known l c hlc)
  | held c₁ =>
    -- a copy that still holds a listener has not returned
    have hmem := (hr.custody.mem_held c₁ l).mpr hpl
    unfold held at hmem
    split at hmem
    next hholds =>
      by_cases hlt : c₁ < s.nextCopy
      · obtain ⟨r, hret⟩ := hall c₁ hlt
        rw [hret] at hholds
        cases r <;> cases hholds
      · rw [(hr.uncreated c₁ (Nat.le_of_not_lt hlt)).2] at hmem
        cases hmem
    next => cases hmem
  | delivered n =>
    obtain ⟨hmem, hcount⟩ := hr.custody.once hpl
    refine ⟨n, ?_, hmem, hcount⟩
    obtain ⟨c₁, hserves, hn⟩ := hr.toldBy l c n hlc hpl
    rcases hserves with rfl | hmerged
    · have hlt : c₁ < s.nextCopy := hcreated c₁ fun hc => by rw [hc] at hn; cases hn
      obtain ⟨r, hret⟩ := hall c₁ hlt
      unfold outcome
      rw [hret] at hn ⊢
      cases r with
      | available => exact hn
      | moved => exact hn
      | failed => exact hn
      | merged c' => cases hn
    · have hmoves := hp.merged c c₁ hmerged
      obtain ⟨r, hret⟩ := hall c₁ (hcreated c₁ fun hc => by rw [hc] at hmoves; cases hmoves)
      have hphase : (s.copy c).phase = .returned (.merged c₁) := by
        unfold Phase.mergedInto at hmerged
        split at hmerged
        next heq => cases hmerged; exact heq
        next => cases hmerged
      rw [hret] at hn hmoves
      cases r with
      | available => cases hmoves
      | moved => simp only [outcome, hphase, hret]; exact hn
      | failed => simp only [outcome, hphase, hret]; exact hn
      | merged c' => cases hmoves

/-! ## Steps of `perform` -/

theorem setCopy_copy (x : ImmediateCopy Loc) : (s.setCopy c x).copy c' = if c' = c then x else s.copy c' := by
  simp [setCopy, Function.update_apply]

/-- A step of `c` that leaves the listeners where they are. -/
theorem Routed.move (h : Routed place s) {p : Phase}
    (hcopy : ∀ i, t.copy i = if i = c then { s.copy c with phase := p } else s.copy i)
    (hholds : p.holds = (s.copy c).phase.holds) (hend : p.endState = (s.copy c).phase.endState)
    (hmerged : p.mergedInto = (s.copy c).phase.mergedInto) (hc : c < s.nextCopy)
    (hnc : t.nextCopy = s.nextCopy) (hnl : t.nextListener = s.nextListener) (hg : t.given = s.given)
    (hn : t.notices = s.notices) : Routed place t := by
  have hphase : ∀ i, (t.copy i).phase.endState = (s.copy i).phase.endState ∧
      (t.copy i).phase.holds = (s.copy i).phase.holds ∧
      (t.copy i).phase.mergedInto = (s.copy i).phase.mergedInto := by
    intro i
    rw [hcopy]
    split
    next hi => rw [hi]; exact ⟨hend, hholds, hmerged⟩
    next => exact ⟨rfl, rfl, rfl⟩
  have hlisteners : ∀ i, (t.copy i).listeners = (s.copy i).listeners ∧ (t.copy i).endState = (s.copy i).endState := by
    intro i
    rw [hcopy]
    split
    next hi => rw [hi]; exact ⟨rfl, rfl⟩
    next => exact ⟨rfl, rfl⟩
  have hserves : ∀ c₀ c₁, t.Serves c₀ c₁ ↔ s.Serves c₀ c₁ := fun c₀ c₁ => by
    unfold Serves
    rw [(hphase c₀).2.2]
  refine { custody := ?_, endState := ?_, known := ?_, heldBy := ?_, toldBy := ?_, fresh := ?_, uncreated := ?_ }
  · rw [hn]
    refine h.custody.congr fun i => ?_
    unfold held
    rw [(hphase i).2.1, (hlisteners i).1]
  · intro i
    rw [(hlisteners i).2, (hphase i).1]
    exact h.endState i
  · intro l c₀ hl
    exact h.known l c₀ (hg ▸ hl)
  · intro l c₀ c₁ hl hp
    exact (hserves c₀ c₁).mpr (h.heldBy l c₀ c₁ (hg ▸ hl) hp)
  · intro l c₀ n hl hp
    obtain ⟨c₁, hs, he⟩ := h.toldBy l c₀ n (hg ▸ hl) hp
    exact ⟨c₁, (hserves c₀ c₁).mpr hs, by rw [(hphase c₁).1]; exact he⟩
  · intro l hl
    exact h.fresh l (hnl ▸ hl)
  · intro i hi
    rw [hnc] at hi
    have hic : i ≠ c := fun he => absurd hc (Nat.not_lt.mpr (he ▸ hi))
    rw [hcopy, if_neg hic]
    exact h.uncreated i hi

/-- An operation that ends tells its listeners, if it tells anything. -/
theorem Routed.endOp (h : Routed place s) (st : OpEndState) (p : Phase) (hc : c < s.nextCopy)
    (hnone : (s.copy c).phase.endState = none) (hp : p.endState = some st)
    (hholds : p.holds = st.notice.isNone) (hmerged : p.mergedInto = none) :
    ∃ place', Routed place' (s.endOp c st p) := by
  have hold : (s.copy c).phase.holds = true := Phase.holds_of_endState hnone
  have hcopy : ∀ i, (s.endOp c st p).copy i =
      if i = c then { s.copy c with endState := some st, phase := p } else s.copy i := fun i => setCopy_copy _
  have hphase : ∀ i, i ≠ c → ((s.endOp c st p).copy i).phase = (s.copy i).phase := fun i hi => by
    rw [hcopy, if_neg hi]
  have hphasec : ((s.endOp c st p).copy c).phase = p := by rw [hcopy, if_pos rfl]
  have hmergedc : (s.copy c).phase.mergedInto = none := by
    unfold Phase.mergedInto
    split
    next heq => rw [heq] at hnone; cases hnone
    next => rfl
  have hserves : ∀ c₀ c₁, (s.endOp c st p).Serves c₀ c₁ ↔ s.Serves c₀ c₁ := by
    intro c₀ c₁
    unfold Serves
    by_cases h0 : c₀ = c
    · rw [h0, hphasec, hmerged, hmergedc]
    · rw [hphase c₀ h0]
  have hend : ∀ i, ((s.endOp c st p).copy i).endState = ((s.endOp c st p).copy i).phase.endState := by
    intro i
    by_cases hi : i = c
    · rw [hi, hphasec, hp, hcopy, if_pos rfl]
    · rw [hphase i hi, hcopy, if_neg hi]
      exact h.endState i
  have huncreated : ∀ i, (s.endOp c st p).nextCopy ≤ i →
      ((s.endOp c st p).copy i).phase = .created ∧ ((s.endOp c st p).copy i).listeners = [] := by
    intro i hi
    have hic : i ≠ c := fun he => absurd hc (Nat.not_lt.mpr (he ▸ hi))
    rw [hcopy, if_neg hic]
    exact h.uncreated i hi
  -- what was told before was told by another copy
  have htold : ∀ l c₀ n, (l, c₀) ∈ s.given → place l = .delivered n →
      ∃ c₁, (s.endOp c st p).Serves c₀ c₁ ∧
        ((s.endOp c st p).copy c₁).phase.endState.bind OpEndState.notice = some n := by
    intro l c₀ n hl hpl
    obtain ⟨c₁, hs, hn⟩ := h.toldBy l c₀ n hl hpl
    refine ⟨c₁, (hserves c₀ c₁).mpr hs, ?_⟩
    have h1 : c₁ ≠ c := by
      intro he
      rw [he, hnone] at hn
      cases hn
    rw [hphase c₁ h1]
    exact hn
  cases hn : st.notice with
  | none =>
    refine ⟨place, ?_⟩
    rw [hn] at hholds
    refine {
      custody := ?_
      endState := hend
      known := h.known
      heldBy := fun l c₀ c₁ hl hpl => (hserves c₀ c₁).mpr (h.heldBy l c₀ c₁ hl hpl)
      toldBy := htold
      fresh := h.fresh
      uncreated := huncreated }
    have hnot : (s.endOp c st p).notices = s.notices := by
      simp [Copies.endOp, notifyAll, hn]
    rw [hnot]
    refine h.custody.congr fun i => ?_
    unfold held
    by_cases hi : i = c
    · rw [hi, hphasec, hholds, hcopy, if_pos rfl, hold]
      rfl
    · rw [hphase i hi, hcopy, if_neg hi]
  | some n =>
    refine ⟨Custody.redirect place c fun _ => .delivered n, ?_⟩
    rw [hn] at hholds
    refine {
      custody := ?_
      endState := hend
      known := fun l c₀ hl => ?_
      heldBy := fun l c₀ c₁ hl hpl => ?_
      toldBy := fun l c₀ m hl hpl => ?_
      fresh := fun l hl => ?_
      uncreated := huncreated }
    · have hnot : (s.endOp c st p).notices = s.notices ++ (s.held c).map fun l => (l, n) := by
        simp [Copies.endOp, notifyAll, hn, held, hold]
      rw [hnot]
      refine (h.custody.deliverAll c n).congr fun i => ?_
      rw [Function.update_apply]
      unfold held
      by_cases hi : i = c
      · rw [if_pos hi, hi, hphasec, hholds]
        rfl
      · rw [if_neg hi, hphase i hi, hcopy, if_neg hi]
    · by_cases hpl : place l = .held c
      · rw [Custody.redirect_held hpl]; intro he; cases he
      · rw [Custody.redirect_of_ne hpl]; exact h.known l c₀ hl
    · by_cases hpl' : place l = .held c
      · rw [Custody.redirect_held hpl'] at hpl; cases hpl
      · rw [Custody.redirect_of_ne hpl'] at hpl
        exact (hserves c₀ c₁).mpr (h.heldBy l c₀ c₁ hl hpl)
    · by_cases hpl' : place l = .held c
      · rw [Custody.redirect_held hpl'] at hpl
        cases hpl
        exact ⟨c, (hserves c₀ c).mpr (h.heldBy l c₀ c hl hpl'), by rw [hphasec, hp]; exact hn⟩
      · rw [Custody.redirect_of_ne hpl'] at hpl
        exact htold l c₀ m hl hpl
    · have hpl := h.fresh l hl
      rw [Custody.redirect_of_ne (by rw [hpl]; intro he; cases he)]
      exact hpl

theorem Routed.created (h : Routed place s) (hc : (s.copy c).phase ≠ .created) : c < s.nextCopy := by
  by_contra hge
  exact hc (h.uncreated c (Nat.le_of_not_lt hge)).1

/-- A copy in progress either has no end state yet or has failed. -/
theorem endState_of_isInProgress {p : Phase} (h : p.isInProgress = true) :
    p.endState = none ∨ p.endState = some .failed := by
  cases p with
  | finishing ok => cases ok <;> simp [Phase.endState]
  | _ => simp_all [Phase.isInProgress, Phase.endState]

/-- The listeners of a merged copy go to the copy in progress, or are told
that it has failed. -/
theorem Routed.handOver (h : Routed place s) (hph : Phased s) (hp : (s.copy c).phase = .handing c') :
    ∃ place', Routed place' { (s.setPhase c (.returned (.merged c'))).addEventListeners c' (s.copy c).listeners with
      srcLock := none } := by
  have hin : (s.copy c').phase.isInProgress = true :=
    hph.inProgress c' (hph.target c c' (by rw [hp]; rfl))
  have hcc : c ≠ c' := by
    intro he
    rw [← he, hp] at hin
    cases hin
  have hcn : c < s.nextCopy := h.created (by rw [hp]; intro he; cases he)
  have hheld : s.held c = (s.copy c).listeners := by simp [held, hp, Phase.holds]
  have hcopyc' : (s.setPhase c (.returned (.merged c'))).copy c' = s.copy c' := by
    rw [setPhase, setCopy_copy, if_neg hcc.symm]
  -- nobody was merged into `c`, and `c` itself was merged into nobody yet
  have hnot : ∀ c₀, s.Serves c₀ c → c₀ = c := by
    intro c₀ hs
    rcases hs with he | hm
    · exact he.symm
    · have := hph.merged c₀ c hm
      rw [hp] at this
      cases this
  have hself : ∀ c₁, s.Serves c c₁ → c₁ = c := by
    intro c₁ hs
    rcases hs with he | hm
    · exact he
    · rw [hp] at hm; cases hm
  have hend := endState_of_isInProgress hin
  rw [← h.endState] at hend
  rcases hend with hend | hend
  · -- the copy goes on: it takes the listeners
    have ht : (s.setPhase c (.returned (.merged c'))).addEventListeners c' (s.copy c).listeners =
        (s.setPhase c (.returned (.merged c'))).setCopy c'
          { s.copy c' with listeners := (s.copy c').listeners ++ (s.copy c).listeners } := by
      unfold addEventListeners
      rw [hcopyc', hend]
    rw [ht]
    have hcopy : ∀ i, ((s.setPhase c (.returned (.merged c'))).setCopy c'
        { s.copy c' with listeners := (s.copy c').listeners ++ (s.copy c).listeners }).copy i =
          if i = c' then { s.copy c' with listeners := (s.copy c').listeners ++ (s.copy c).listeners }
          else if i = c then { s.copy c with phase := .returned (.merged c') } else s.copy i := by
      intro i
      rw [setCopy_copy, setPhase, setCopy_copy]
    have hphase : ∀ i, i ≠ c → (((s.setPhase c (.returned (.merged c'))).setCopy c'
        { s.copy c' with listeners := (s.copy c').listeners ++ (s.copy c).listeners }).copy i).phase =
          (s.copy i).phase := by
      intro i hi
      rw [hcopy]
      by_cases hi' : i = c'
      · rw [if_pos hi', hi']
      · rw [if_neg hi', if_neg hi]
    have hholds : (s.copy c).phase.holds = true := by rw [hp]; rfl
    have hholds' : (s.copy c').phase.holds = true :=
      Phase.holds_of_endState (by rw [← h.endState, hend])
    refine ⟨Custody.redirect place c fun _ => .held c', ?_⟩
    refine { custody := ?_, endState := ?_, known := ?_, heldBy := ?_, toldBy := ?_, fresh := ?_, uncreated := ?_ }
    · refine (h.custody.hand hcc).congr fun i => ?_
      rw [Function.update_apply, Function.update_apply]
      unfold held
      rw [hcopy]
      by_cases hi' : i = c'
      · simp [hi', hholds', hholds]
      · by_cases hi : i = c
        · simp [hi, hcc, Phase.holds, Phase.endState]
        · simp [hi, hi']
    · intro i
      by_cases hi : i = c
      · have := h.endState c
        rw [hp] at this
        rw [hcopy, hi, if_neg hcc, if_pos rfl]
        exact this
      · rw [hphase i hi, ← h.endState i, hcopy]
        by_cases hi' : i = c'
        · rw [if_pos hi', hi']
        · rw [if_neg hi', if_neg hi]
    · intro l c₀ hl
      by_cases hpl : place l = .held c
      · rw [Custody.redirect_held hpl]; intro he; cases he
      · rw [Custody.redirect_of_ne hpl]; exact h.known l c₀ hl
    · intro l c₀ c₁ hl hpl
      unfold Serves
      by_cases hpl' : place l = .held c
      · rw [Custody.redirect_held hpl'] at hpl
        cases hpl
        have hc₀ := hnot c₀ (h.heldBy l c₀ c hl hpl')
        rw [hcopy, hc₀, if_neg hcc, if_pos rfl]
        exact .inr rfl
      · rw [Custody.redirect_of_ne hpl'] at hpl
        have hs := h.heldBy l c₀ c₁ hl hpl
        have hc₀ : c₀ ≠ c := fun he => hpl' (by rw [hpl, hself c₁ (he ▸ hs)])
        rw [hphase c₀ hc₀]
        exact hs
    · intro l c₀ n hl hpl
      have hpl' : place l = .delivered n := by
        by_cases hpl' : place l = .held c
        · rw [Custody.redirect_held hpl'] at hpl; cases hpl
        · rw [Custody.redirect_of_ne hpl'] at hpl; exact hpl
      obtain ⟨c₁, hs, hn⟩ := h.toldBy l c₀ n hl hpl'
      have hc₁ : c₁ ≠ c := fun he => by rw [he, hp] at hn; cases hn
      have hc₀ : c₀ ≠ c := fun he => hc₁ (hself c₁ (he ▸ hs))
      refine ⟨c₁, ?_, by rw [hphase c₁ hc₁]; exact hn⟩
      unfold Serves
      rw [hphase c₀ hc₀]
      exact hs
    · intro l hl
      have hpl := h.fresh l hl
      rw [Custody.redirect_of_ne (by rw [hpl]; intro he; cases he)]
      exact hpl
    · intro i hi
      have hic : i ≠ c := fun he => absurd hcn (Nat.not_lt.mpr (he ▸ hi))
      have hic' : i ≠ c' := by
        intro he
        have := (h.uncreated i hi).1
        rw [he] at this
        rw [this] at hin
        cases hin
      rw [hcopy, if_neg hic', if_neg hic]
      exact h.uncreated i hi
  · -- the copy has failed and is about to leave the list of copies in progress
    have ht : (s.setPhase c (.returned (.merged c'))).addEventListeners c' (s.copy c).listeners =
        { s.setPhase c (.returned (.merged c')) with
          notices := s.notices ++ (s.held c).map fun l => (l, .notifyFailure) } := by
      unfold addEventListeners
      rw [hcopyc', hend, hheld]
      rfl
    rw [ht]
    have hcopy : ∀ i, (s.setPhase c (.returned (.merged c'))).copy i =
        if i = c then { s.copy c with phase := .returned (.merged c') } else s.copy i := fun i => setCopy_copy _
    refine ⟨Custody.redirect place c fun _ => .delivered .notifyFailure, ?_⟩
    refine { custody := ?_, endState := ?_, known := ?_, heldBy := ?_, toldBy := ?_, fresh := ?_, uncreated := ?_ }
    · refine (h.custody.deliverAll c .notifyFailure).congr fun i => ?_
      rw [Function.update_apply]
      unfold held
      rw [hcopy]
      by_cases hi : i = c
      · simp [hi, Phase.holds, Phase.endState]
      · rw [if_neg hi, if_neg hi]
    · intro i
      rw [hcopy]
      split
      next hi =>
        have := h.endState c
        rw [hp] at this
        exact this
      next => exact h.endState i
    · intro l c₀ hl
      by_cases hpl : place l = .held c
      · rw [Custody.redirect_held hpl]; intro he; cases he
      · rw [Custody.redirect_of_ne hpl]; exact h.known l c₀ hl
    · intro l c₀ c₁ hl hpl
      by_cases hpl' : place l = .held c
      · rw [Custody.redirect_held hpl'] at hpl; cases hpl
      · rw [Custody.redirect_of_ne hpl'] at hpl
        have hs := h.heldBy l c₀ c₁ hl hpl
        have hc₀ : c₀ ≠ c := fun he => hpl' (by rw [hpl, hself c₁ (he ▸ hs)])
        unfold Serves
        rw [hcopy, if_neg hc₀]
        exact hs
    · intro l c₀ n hl hpl
      by_cases hpl' : place l = .held c
      · rw [Custody.redirect_held hpl'] at hpl
        cases hpl
        have hc₀ := hnot c₀ (h.heldBy l c₀ c hl hpl')
        refine ⟨c', .inr ?_, ?_⟩
        · rw [hcopy, if_pos hc₀]; rfl
        · rw [hcopy, if_neg hcc.symm, ← h.endState, hend]; rfl
      · rw [Custody.redirect_of_ne hpl'] at hpl
        obtain ⟨c₁, hs, hn⟩ := h.toldBy l c₀ n hl hpl
        have hc₁ : c₁ ≠ c := fun he => by rw [he, hp] at hn; cases hn
        have hc₀ : c₀ ≠ c := fun he => hc₁ (hself c₁ (he ▸ hs))
        refine ⟨c₁, ?_, by rw [hcopy, if_neg hc₁]; exact hn⟩
        unfold Serves
        rw [hcopy, if_neg hc₀]
        exact hs
    · intro l hl
      have hpl := h.fresh l hl
      rw [Custody.redirect_of_ne (by rw [hpl]; intro he; cases he)]
      exact hpl
    · intro i hi
      have hic : i ≠ c := fun he => absurd hcn (Nat.not_lt.mpr (he ▸ hi))
      rw [hcopy, if_neg hic]
      exact h.uncreated i hi

/-! ## New listeners -/

/-- A new listener of `c` that `c` holds. -/
theorem Routed.give (h : Routed place s) (hphase : ∀ i, (t.copy i).phase = (s.copy i).phase)
    (hend : ∀ i, (t.copy i).endState = (s.copy i).endState)
    (hheld : ∀ i, t.held i = Function.update s.held c (s.held c ++ [s.nextListener]) i)
    (hn : t.notices = s.notices) (hg : t.given = (s.nextListener, c) :: s.given)
    (hnl : t.nextListener = s.nextListener + 1)
    (huncreated : ∀ i, t.nextCopy ≤ i → (t.copy i).phase = .created ∧ (t.copy i).listeners = []) :
    ∃ place', Routed place' t := by
  have hunknown := h.fresh s.nextListener (Nat.le_refl _)
  have hserves : ∀ c₀ c₁, t.Serves c₀ c₁ ↔ s.Serves c₀ c₁ := fun c₀ c₁ => by
    unfold Serves
    rw [hphase]
  have hold : ∀ l c₀, (l, c₀) ∈ s.given → l ≠ s.nextListener := by
    intro l c₀ hl he
    exact h.known l c₀ hl (he ▸ hunknown)
  refine ⟨Function.update place s.nextListener (.held c), ?_⟩
  refine {
    custody := ?_, endState := ?_, known := ?_, heldBy := ?_, toldBy := ?_, fresh := ?_, uncreated := huncreated }
  · rw [hn]
    exact (h.custody.give hunknown c).congr hheld
  · intro i
    rw [hend, hphase]
    exact h.endState i
  · intro l c₀ hl
    rw [hg] at hl
    rcases List.mem_cons.mp hl with he | hl
    · cases he
      rw [Function.update_self]
      intro he
      cases he
    · rw [Function.update_of_ne (hold l c₀ hl)]
      exact h.known l c₀ hl
  · intro l c₀ c₁ hl hp
    rw [hg] at hl
    rcases List.mem_cons.mp hl with he | hl
    · cases he
      rw [Function.update_self] at hp
      cases hp
      exact .inl rfl
    · rw [Function.update_of_ne (hold l c₀ hl)] at hp
      exact (hserves c₀ c₁).mpr (h.heldBy l c₀ c₁ hl hp)
  · intro l c₀ n hl hp
    rw [hg] at hl
    rcases List.mem_cons.mp hl with he | hl
    · cases he
      rw [Function.update_self] at hp
      cases hp
    · rw [Function.update_of_ne (hold l c₀ hl)] at hp
      obtain ⟨c₁, hs, hn'⟩ := h.toldBy l c₀ n hl hp
      exact ⟨c₁, (hserves c₀ c₁).mpr hs, by rw [hphase]; exact hn'⟩
  · intro l hl
    rw [hnl] at hl
    rw [Function.update_of_ne (Nat.ne_of_gt hl)]
    exact h.fresh l (Nat.le_of_succ_le hl)

/-- A new listener of an operation that has ended is told at once. -/
theorem Routed.tellNew (h : Routed place s) {n : Notice}
    (hc : (s.copy c).phase.endState.bind OpEndState.notice = some n) :
    ∃ place', Routed place' { s with
      nextListener := s.nextListener + 1, given := (s.nextListener, c) :: s.given,
      notices := s.notices ++ [(s.nextListener, n)] } := by
  have hunknown := h.fresh s.nextListener (Nat.le_refl _)
  have hold : ∀ l c₀, (l, c₀) ∈ s.given → l ≠ s.nextListener := by
    intro l c₀ hl he
    exact h.known l c₀ hl (he ▸ hunknown)
  refine ⟨Function.update place s.nextListener (.delivered n), ?_⟩
  refine {
    custody := h.custody.deliverNew hunknown n, endState := h.endState, known := ?_, heldBy := ?_, toldBy := ?_,
    fresh := ?_, uncreated := h.uncreated }
  · intro l c₀ hl
    rcases List.mem_cons.mp hl with he | hl
    · cases he
      rw [Function.update_self]
      intro he
      cases he
    · rw [Function.update_of_ne (hold l c₀ hl)]
      exact h.known l c₀ hl
  · intro l c₀ c₁ hl hp
    rcases List.mem_cons.mp hl with he | hl
    · cases he
      rw [Function.update_self] at hp
      cases hp
    · rw [Function.update_of_ne (hold l c₀ hl)] at hp
      exact h.heldBy l c₀ c₁ hl hp
  · intro l c₀ m hl hp
    rcases List.mem_cons.mp hl with he | hl
    · cases he
      rw [Function.update_self] at hp
      cases hp
      exact ⟨c, .inl rfl, hc⟩
    · rw [Function.update_of_ne (hold l c₀ hl)] at hp
      exact h.toldBy l c₀ m hl hp
  · intro l hl
    rw [Function.update_of_ne (Nat.ne_of_gt hl)]
    exact h.fresh l (Nat.le_of_succ_le hl)

/-- The end states a copy can have outside of a merge are told to listeners. -/
theorem notice_of_endState {p : Phase} {st : OpEndState} (h : p.endState = some st) (hne : st ≠ .inProgress) :
    ∃ n, st.notice = some n := by
  cases st with
  | ok => exact ⟨_, rfl⟩
  | inProgress => exact absurd rfl hne
  | failed => exact ⟨_, rfl⟩
  | preparationFailed => exact ⟨_, rfl⟩
  | waitingSources =>
    unfold Phase.endState at h
    split at h <;> cases h

theorem Routed.addEventListener (h : Routed place s) (hc : c < s.nextCopy)
    (hadd : (s.copy c).endState ≠ some .inProgress) :
    ∃ place', Routed place' { s.addEventListeners c [s.nextListener] with
      nextListener := s.nextListener + 1, given := (s.nextListener, c) :: s.given } := by
  cases hend : (s.copy c).endState with
  | none =>
    have ht : s.addEventListeners c [s.nextListener] =
        s.setCopy c { s.copy c with listeners := (s.copy c).listeners ++ [s.nextListener] } := by
      unfold addEventListeners
      rw [hend]
    have hholds : (s.copy c).phase.holds = true := Phase.holds_of_endState (by rw [← h.endState, hend])
    rw [ht]
    have hcopy : ∀ i, (s.setCopy c { s.copy c with listeners := (s.copy c).listeners ++ [s.nextListener] }).copy i =
        if i = c then { s.copy c with listeners := (s.copy c).listeners ++ [s.nextListener] } else s.copy i :=
      fun i => setCopy_copy _
    refine h.give (c := c) (fun i => ?_) (fun i => ?_) (fun i => ?_) rfl rfl rfl fun i hi => ?_
    · rw [hcopy]; split
      next hi => rw [hi]
      next => rfl
    · rw [hcopy]; split
      next hi => rw [hi]
      next => rfl
    · unfold held
      rw [hcopy, Function.update_apply]
      by_cases hi : i = c
      · rw [if_pos hi, if_pos hi]
        simp [hholds]
      · rw [if_neg hi, if_neg hi]
    · have hic : i ≠ c := fun he => absurd hc (Nat.not_lt.mpr (he ▸ hi))
      rw [hcopy, if_neg hic]
      exact h.uncreated i hi
  | some st =>
    rw [hend] at hadd
    have hph : (s.copy c).phase.endState = some st := by rw [← h.endState, hend]
    obtain ⟨n, hn⟩ := notice_of_endState hph fun he => hadd (by rw [he])
    have ht : s.addEventListeners c [s.nextListener] =
        { s with notices := s.notices ++ [(s.nextListener, n)] } := by
      unfold addEventListeners notifyAll
      rw [hend]
      simp [hn]
    rw [ht]
    exact h.tellNew (c := c) (by rw [hph]; exact hn)

theorem Routed.create (h : Routed place s) (tgtLoc : Loc) (tgtData : TgtData) :
    ∃ place', Routed place' { s.setCopy s.nextCopy ⟨tgtLoc, tgtData, [s.nextListener], none, .created⟩ with
      nextCopy := s.nextCopy + 1, nextListener := s.nextListener + 1,
      given := (s.nextListener, s.nextCopy) :: s.given } := by
  obtain ⟨hcreated, hnil⟩ := h.uncreated s.nextCopy (Nat.le_refl _)
  have hcopy : ∀ i, (s.setCopy s.nextCopy ⟨tgtLoc, tgtData, [s.nextListener], none, .created⟩).copy i =
      if i = s.nextCopy then ⟨tgtLoc, tgtData, [s.nextListener], none, .created⟩ else s.copy i :=
    fun i => setCopy_copy _
  refine h.give (c := s.nextCopy) (fun i => ?_) (fun i => ?_) (fun i => ?_) rfl rfl rfl fun i hi => ?_
  · rw [hcopy]; split
    next hi => rw [hi, hcreated]
    next => rfl
  · rw [hcopy]; split
    next hi => rw [hi, h.endState, hcreated]; rfl
    next => rfl
  · unfold held
    rw [hcopy, Function.update_apply]
    by_cases hi : i = s.nextCopy
    · rw [if_pos hi, if_pos hi]
      simp [hcreated, hnil, Phase.holds, Phase.endState]
    · rw [if_neg hi, if_neg hi]
  · have hic : i ≠ s.nextCopy := Nat.ne_of_gt hi
    rw [hcopy, if_neg hic]
    exact h.uncreated i (Nat.le_of_succ_le hi)

/-! ## The copies in progress -/

/-- When nobody else has the lock, no other `perform` is in its section. -/
theorem Phased.alone (h : Phased s) (hl : s.srcLock = none ∨ s.srcLock = some c) {i : CopyId} (hi : i ≠ c) :
    (s.copy i).phase.inSection = false ∧ (s.copy i).phase.target = none := by
  have hsec : (s.copy i).phase.inSection = false := by
    cases hsec : (s.copy i).phase.inSection with
    | false => rfl
    | true =>
      have := h.locked i hsec
      rcases hl with hl | hl
      · rw [hl] at this; cases this
      · rw [hl] at this; cases this; exact absurd rfl hi
  refine ⟨hsec, ?_⟩
  unfold Phase.inSection at hsec
  unfold Phase.target
  split at hsec
  · cases hsec
  · cases hsec
  · cases hsec
  next h1 h2 h3 =>
    split
    next c₁ heq => exact absurd heq (h2 c₁)
    next c₁ heq => exact absurd heq (h3 c₁)
    next => rfl

/-- A step of `c` from where it has the lock, or nobody has. -/
theorem Phased.move (h : Phased s) {p : Phase} (hphase : ∀ i, (t.copy i).phase = if i = c then p else (s.copy i).phase)
    (hl : s.srcLock = none ∨ s.srcLock = some c) (hsec : p.inSection = true → t.srcLock = some c)
    (htarget : ∀ c', p.target = some c' → c' ∈ t.inProgress)
    (hmerged : ∀ c', p.mergedInto = some c' → c' ≠ c ∧ (s.copy c').phase.moves = true)
    (hmoves : (s.copy c).phase.moves = true → p.moves = true)
    (hin : ∀ i ∈ t.inProgress, i ≠ c → i ∈ s.inProgress) (hinc : c ∈ t.inProgress → p.isInProgress = true) :
    Phased t := by
  refine ⟨fun i hi => ?_, fun i c' hi => ?_, fun i c' hi => ?_, fun i hi => ?_⟩
  · rw [hphase] at hi
    split at hi
    next he => rw [he]; exact hsec hi
    next he => rw [(h.alone hl he).1] at hi; cases hi
  · rw [hphase] at hi
    split at hi
    next he => exact htarget c' hi
    next he => rw [(h.alone hl he).2] at hi; cases hi
  · have hstays : (s.copy c').phase.moves = true → (t.copy c').phase.moves = true := by
      intro hm
      rw [hphase]
      split
      next he => rw [he] at hm; exact hmoves hm
      next => exact hm
    rw [hphase] at hi
    split at hi
    next he => exact hstays (hmerged c' hi).2
    next he => exact hstays (h.merged i c' hi)
  · rw [hphase]
    split
    next he => rw [he] at hi; exact hinc hi
    next he => exact h.inProgress i (hin i hi he)

/-- A step of `c` that has nothing to do with the lock or the list. -/
theorem Phased.stay (h : Phased s) {p : Phase} (hphase : ∀ i, (t.copy i).phase = if i = c then p else (s.copy i).phase)
    (hlock : t.srcLock = s.srcLock) (hlist : t.inProgress = s.inProgress)
    (hsec : p.inSection = (s.copy c).phase.inSection) (htarget : p.target = (s.copy c).phase.target)
    (hmerged : p.mergedInto = none) (hmoves : (s.copy c).phase.moves = true → p.moves = true)
    (hin : p.isInProgress = (s.copy c).phase.isInProgress) : Phased t := by
  refine ⟨fun i hi => ?_, fun i c' hi => ?_, fun i c' hi => ?_, fun i hi => ?_⟩
  · rw [hlock]
    rw [hphase] at hi
    split at hi
    next he => rw [he]; exact h.locked c (hsec ▸ hi)
    next => exact h.locked i hi
  · rw [hlist]
    rw [hphase] at hi
    split at hi
    next => exact h.target c c' (htarget ▸ hi)
    next => exact h.target i c' hi
  · rw [hphase] at hi
    split at hi
    next => rw [hmerged] at hi; cases hi
    next =>
      have hm := h.merged i c' hi
      rw [hphase]
      split
      next he => rw [he] at hm; exact hmoves hm
      next => exact hm
  · rw [hlist] at hi
    have := h.inProgress i hi
    rw [hphase]
    split
    next he => rw [he] at this; rw [hin]; exact this
    next => exact this

/-- A step that changes no phase. -/
theorem Phased.congr (h : Phased s) (hphase : ∀ i, (t.copy i).phase = (s.copy i).phase)
    (hlock : t.srcLock = s.srcLock) (hlist : t.inProgress = s.inProgress) : Phased t := by
  refine ⟨fun i hi => ?_, fun i c' hi => ?_, fun i c' hi => ?_, fun i hi => ?_⟩
  · rw [hlock]; rw [hphase] at hi; exact h.locked i hi
  · rw [hlist]; rw [hphase] at hi; exact h.target i c' hi
  · rw [hphase] at hi ⊢; exact h.merged i c' hi
  · rw [hlist] at hi; rw [hphase]; exact h.inProgress i hi

theorem setPhase_copy (p : Phase) (i : CopyId) :
    (s.setPhase c p).copy i = if i = c then { s.copy c with phase := p } else s.copy i := setCopy_copy _

theorem setPhase_phase (p : Phase) (i : CopyId) :
    ((s.setPhase c p).copy i).phase = if i = c then p else (s.copy i).phase := by
  rw [setPhase_copy]
  split <;> rfl

theorem endOp_phase (st : OpEndState) (p : Phase) (i : CopyId) :
    ((s.endOp c st p).copy i).phase = if i = c then p else (s.copy i).phase := by
  have hcopy : (s.endOp c st p).copy i =
      if i = c then { s.copy c with endState := some st, phase := p } else s.copy i := setCopy_copy _
  rw [hcopy]
  split <;> rfl

theorem addEventListeners_phase (ls : List ListenerId) (i : CopyId) :
    ((s.addEventListeners c ls).copy i).phase = (s.copy i).phase := by
  unfold addEventListeners
  split
  · rw [setCopy_copy]
    split
    next hi => rw [hi]
    next => rfl
  · rfl

theorem addEventListeners_srcLock (ls : List ListenerId) : (s.addEventListeners c ls).srcLock = s.srcLock := by
  unfold addEventListeners
  split <;> rfl

theorem addEventListeners_inProgress (ls : List ListenerId) :
    (s.addEventListeners c ls).inProgress = s.inProgress := by
  unfold addEventListeners
  split <;> rfl

/-! ## Runs -/

theorem OK.perform (h : OK s) (hc : c < s.nextCopy) (hp : (s.copy c).phase = .created) (hl : s.srcLock = none) :
    OK (perform env s c) := by
  obtain ⟨⟨place, hr⟩, hph⟩ := h
  have hmove : ∀ (p : Phase) (t : Copies Loc), p.endState = none → p.mergedInto = none →
      t.copy = (s.setPhase c p).copy → t.nextCopy = s.nextCopy → t.nextListener = s.nextListener →
      t.given = s.given → t.notices = s.notices → Routed place t := by
    intro p t he hm htc htn htl htg hts
    refine hr.move (c := c) (p := p) (fun i => by rw [htc, setPhase_copy]) ?_ ?_ ?_ hc htn htl htg hts
    · rw [Phase.holds_of_endState he, hp]; rfl
    · rw [he, hp]; rfl
    · rw [hm, hp]; rfl
  unfold Copies.perform
  simp only
  split
  · refine ⟨⟨place, hmove .available _ rfl rfl rfl rfl rfl rfl rfl⟩, ?_⟩
    exact hph.move (c := c) (fun i => setPhase_phase _ i) (.inl hl) (fun _ => rfl) (fun _ he => by cases he)
      (fun _ he => by cases he) (fun hm => by rw [hp] at hm; cases hm) (fun _ hi _ => hi)
      (fun hi => by have := hph.inProgress c hi; rw [hp] at this; cases this)
  · split
    next c' hfound =>
      have hmem : c' ∈ s.inProgress := by
        split at hfound
        · cases hfound
        · exact List.mem_of_find?_eq_some hfound
      refine ⟨⟨place, hmove (.merging c') _ rfl rfl rfl rfl rfl rfl rfl⟩, ?_⟩
      exact hph.move (c := c) (fun i => setPhase_phase _ i) (.inl hl) (fun _ => rfl)
        (fun _ he => by cases he; exact hmem) (fun _ he => by cases he) (fun hm => by rw [hp] at hm; cases hm)
        (fun _ hi _ => hi) (fun hi => by have := hph.inProgress c hi; rw [hp] at this; cases this)
    next =>
      refine ⟨⟨place, hmove .copying _ rfl rfl rfl rfl rfl rfl rfl⟩, ?_⟩
      refine hph.move (c := c) (fun i => setPhase_phase _ i) (.inl hl) (fun he => by cases he)
        (fun _ he => by cases he) (fun _ he => by cases he) (fun _ => rfl) (fun i hi hic => ?_) (fun _ => rfl)
      rcases List.mem_append.mp hi with hi | hi
      · exact hi
      · exact absurd (List.mem_singleton.mp hi) hic

theorem OK.step {lb : Label Loc} (h : OK s) (hl : s.AddsInTime lb) (hst : step env s lb = some t) : OK t := by
  obtain ⟨⟨place, hr⟩, hph⟩ := h
  cases lb with
  | create tgtLoc tgtData =>
    cases hst
    refine ⟨hr.create tgtLoc tgtData, hph.congr (fun i => ?_) rfl rfl⟩
    have hcopy : (s.setCopy s.nextCopy ⟨tgtLoc, tgtData, [s.nextListener], none, .created⟩).copy i =
        if i = s.nextCopy then ⟨tgtLoc, tgtData, [s.nextListener], none, .created⟩ else s.copy i := setCopy_copy _
    refine (congrArg ImmediateCopy.phase hcopy).trans ?_
    split
    next hi => rw [hi, (hr.uncreated s.nextCopy (Nat.le_refl _)).1]
    next => rfl
  | addEventListener c =>
    simp only [Copies.step, Option.ite_none_right_eq_some] at hst
    obtain ⟨hc, hst⟩ := hst
    cases hst
    exact ⟨hr.addEventListener hc hl, hph.congr (fun i => addEventListeners_phase _ i)
      (addEventListeners_srcLock _) (addEventListeners_inProgress _)⟩
  | setLocations ls =>
    simp only [Copies.step, Option.ite_none_right_eq_some] at hst
    obtain ⟨-, hst⟩ := hst
    cases hst
    exact ⟨⟨place, { hr with }⟩, hph.congr (fun _ => rfl) rfl rfl⟩
  | perform c =>
    simp only [Copies.step, Option.ite_none_right_eq_some] at hst
    obtain ⟨⟨hc, hp, hlock⟩, hst⟩ := hst
    cases hst
    exact OK.perform ⟨⟨place, hr⟩, hph⟩ hc hp hlock
  | endAvailable c =>
    simp only [Copies.step, Option.ite_none_right_eq_some] at hst
    obtain ⟨hp, hst⟩ := hst
    cases hst
    have hc : c < s.nextCopy := hr.created (by rw [hp]; decide)
    obtain ⟨place', hr'⟩ := hr.endOp .ok (.returned .available) hc (by rw [hp]; rfl) rfl rfl rfl
    have hlock := hph.locked c (by rw [hp]; rfl)
    refine ⟨⟨place', { hr' with }⟩, hph.move (c := c) (fun i => endOp_phase _ _ i) (.inr hlock) (fun he => by cases he)
      (fun _ he => by cases he) (fun _ he => by cases he) (fun hm => by rw [hp] at hm; cases hm) (fun _ hi _ => hi)
      (fun hi => ?_)⟩
    have := hph.inProgress c hi
    rw [hp] at this
    cases this
  | endInProgress c =>
    simp only [Copies.step] at hst
    split at hst
    next c' hp =>
      cases hst
      have hc : c < s.nextCopy := hr.created (by rw [hp]; intro he; cases he)
      refine ⟨hr.endOp .inProgress (.handing c') hc (by rw [hp]; rfl) rfl rfl rfl,
        hph.stay (c := c) (fun i => endOp_phase _ _ i) rfl rfl (by rw [hp]; rfl) (by rw [hp]; rfl) rfl
          (fun hm => by rw [hp] at hm; cases hm) (by rw [hp]; rfl)⟩
    · cases hst
  | handOver c =>
    simp only [Copies.step] at hst
    split at hst
    next c' hp =>
      cases hst
      have hlock := hph.locked c (by rw [hp]; rfl)
      have hin := hph.inProgress c' (hph.target c c' (by rw [hp]; rfl))
      have hcc : c' ≠ c := by
        intro he
        rw [he, hp] at hin
        cases hin
      refine ⟨hr.handOver hph hp, hph.move (c := c) (fun i => (addEventListeners_phase _ i).trans (setPhase_phase _ i))
        (.inr hlock) (fun he => by cases he) (fun _ he => by cases he) (fun _ he => ?_)
        (fun hm => by rw [hp] at hm; cases hm) (fun i hi _ => ?_) (fun hi => ?_)⟩
      · cases he
        refine ⟨hcc, ?_⟩
        unfold Phase.isInProgress at hin
        unfold Phase.moves
        split at hin <;> simp_all
      · rw [addEventListeners_inProgress] at hi
        exact hi
      · rw [addEventListeners_inProgress] at hi
        have := hph.inProgress c hi
        rw [hp] at this
        cases this
    · cases hst
  | specificCopy c ok =>
    simp only [Copies.step, Option.ite_none_right_eq_some] at hst
    obtain ⟨hp, hst⟩ := hst
    cases hst
    have hc : c < s.nextCopy := hr.created (by rw [hp]; decide)
    refine ⟨⟨place, hr.move (c := c) (fun i => setPhase_copy _ i) ?_ ?_ ?_ hc rfl rfl rfl rfl⟩,
      hph.stay (c := c) (fun i => setPhase_phase _ i) rfl rfl ?_ ?_ ?_ (fun _ => ?_) ?_⟩
    all_goals cases ok <;> first | rfl | (rw [hp]; rfl)
  | endFailed c =>
    simp only [Copies.step, Option.ite_none_right_eq_some] at hst
    obtain ⟨hp, hst⟩ := hst
    cases hst
    have hc : c < s.nextCopy := hr.created (by rw [hp]; decide)
    exact ⟨hr.endOp .failed (.finishing false) hc (by rw [hp]; rfl) rfl rfl rfl,
      hph.stay (c := c) (fun i => endOp_phase _ _ i) rfl rfl (by rw [hp]; rfl) (by rw [hp]; rfl) rfl (fun _ => rfl)
        (by rw [hp]; rfl)⟩
  | finishedCopy c =>
    simp only [Copies.step] at hst
    split at hst
    next ok hp =>
      simp only [Option.ite_none_right_eq_some] at hst
      obtain ⟨hlock, hst⟩ := hst
      cases hst
      have hc : c < s.nextCopy := hr.created (by rw [hp]; intro he; cases he)
      refine ⟨⟨place, hr.move (c := c) (fun i => setPhase_copy _ i) ?_ ?_ ?_ hc rfl rfl rfl rfl⟩,
        hph.move (c := c) (fun i => setPhase_phase _ i) (.inl hlock) (fun he => by cases he) (fun _ he => by cases he)
          (fun _ he => by cases he) (fun _ => rfl) (fun i hi _ => (List.mem_filter.mp hi).1) (fun hi => ?_)⟩
      · rw [hp]; cases ok <;> rfl
      · rw [hp]; cases ok <;> rfl
      · rw [hp]; rfl
      · simp at hi
    · cases hst
  | addLocation c =>
    simp only [Copies.step] at hst
    split at hst
    next ok hp =>
      split at hst
      · cases hst
      cases hst
      have hc : c < s.nextCopy := hr.created (by rw [hp]; intro he; cases he)
      refine ⟨⟨place, hr.move (c := c) (fun i => setPhase_copy _ i) ?_ ?_ ?_ hc rfl rfl rfl rfl⟩,
        hph.stay (c := c) (fun i => setPhase_phase _ i) rfl rfl ?_ ?_ ?_ (fun _ => ?_) ?_⟩
      all_goals cases ok <;> first | rfl | (rw [hp]; rfl)
    · cases hst
  | endOk c =>
    simp only [Copies.step, Option.ite_none_right_eq_some] at hst
    obtain ⟨⟨hp, -⟩, hst⟩ := hst
    cases hst
    have hc : c < s.nextCopy := hr.created (by rw [hp]; decide)
    exact ⟨hr.endOp .ok (.returned .moved) hc (by rw [hp]; rfl) rfl rfl rfl,
      hph.stay (c := c) (fun i => endOp_phase _ _ i) rfl rfl (by rw [hp]; rfl) (by rw [hp]; rfl) rfl (fun _ => rfl)
        (by rw [hp]; rfl)⟩

/-- **Every listener learns the outcome of its copy once**, in every run of
copies of one datum, whatever their targets and in whatever order their
sections and the calls of `addEventListener` come, when no listener is added
to a copy that was merged into another. -/
theorem informed_of_addsInTime (env : Locations Loc) (loc : Loc) (labels : List (Label Loc))
    (h : Along (Copies.step env) AddsInTime (Copies.init loc) labels) :
    Always (Copies.step env) Informed (Copies.init loc) labels :=
  always_of_along (fun _ hs => hs.informed) (fun _ _ _ hs hl hst => hs.step hl hst) (OK.init loc) h

/-- One location. -/
def here : Locations Unit := ⟨fun _ _ => true, fun _ _ => true⟩

/-- A copy that is merged into another one, which fails. -/
def mergedRun : List (Label Unit) :=
  [.create () .other, .create () .other, .perform 0, .perform 1, .endInProgress 1, .handOver 1,
    .specificCopy 0 false, .endFailed 0, .finishedCopy 0, .addLocation 0]

theorem informed_of_addsInTime_merged : Along (Copies.step here) AddsInTime (Copies.init ()) mergedRun ∧
    Always (Copies.step here) Informed (Copies.init ()) mergedRun := by
  have h : Along (Copies.step here) AddsInTime (Copies.init ()) mergedRun := by
    simp [mergedRun, Along, AddsInTime]
  exact ⟨h, informed_of_addsInTime here () mergedRun h⟩

/-- A listener is added to the copy after it was merged: it is never told. -/
theorem listener_of_merged_copy : ¬ Always (Copies.step here) Informed (Copies.init ())
    [.create () .other, .create () .other, .perform 0, .perform 1, .endInProgress 1, .handOver 1,
      .addEventListener 1, .specificCopy 0 true, .finishedCopy 0, .addLocation 0, .endOk 0] := by
  intro h
  have hlast := ((((((((((h.2 _ rfl).2 _ rfl).2 _ rfl).2 _ rfl).2 _ rfl).2 _ rfl).2 _ rfl).2 _ rfl).2 _ rfl).2 _ rfl).2 _ rfl
  have htwo : ∀ c : Nat, c < 2 → c = 0 ∨ c = 1 := by omega
  obtain ⟨n, -, hmem, -⟩ := hlast (fun c hc => by
    rcases htwo c hc with rfl | rfl
    · exact ⟨.moved, rfl⟩
    · exact ⟨.merged 0, rfl⟩) 2 1 (by decide)
  cases n <;> exact absurd hmem (by decide)

end Copies

end Compss.Operation
