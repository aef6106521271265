/-
`NIOAgent`: the data a node asks the others for, and the slots it receives it
in.

The requests of a datum are merged: the first is queued and starts a
transfer when a slot is free, the others join it in `dataToRequests`, and all
are answered when the transfer ends. A datum that has arrived is passed on
target by target. `requestTransfers` is a loop that takes a request and a slot
under a lock and starts a connection outside of it, so that a loop is before
its lock (`testing`) or has a request in hand (`starting`).

What the library writes or builds, and so the type of a request, is left to
the `Transfer` it reports. `shutdown` is not modelled.
-/
import Compss.Lib.Custody
import Compss.Lib.Run
import Mathlib.Data.List.Dedup
import Mathlib.Data.List.Perm.Basic

namespace Compss.Transfers

open Lib

abbrev ConnectionId := Nat

/-- A request, by its identity, for the datum `source`. -/
structure DataRequest (N : Type) where
  id : Nat
  source : N
  target : N
  deriving DecidableEq, Repr

/-- What has arrived: the file that was written, or an object. -/
structure Transfer (N : Type) where
  file : Option N

inductive Answer (N : Type)
  | receivedValue (target : N)
  | notAvailable

structure NIOAgent (N : Type) where
  pendingRequests : List (DataRequest N)
  dataToRequests : N → Option (List (DataRequest N))
  ongoingTransfers : ConnectionId → Option N
  receiveTransfers : Int
  testing : Nat
  starting : List (DataRequest N)
  /-- A request has been queued since `requestTransfers` was last called. -/
  uncalled : Bool
  /-- The transfers the library has accepted and not ended. -/
  accepted : List ConnectionId
  added : List (DataRequest N)
  answers : List (DataRequest N × Answer N)

inductive AgentStep (N : Type)
  | addTransferRequest (dr : DataRequest N)
  | requestTransfers
  /-- The synchronized section of a loop. -/
  | acquireSlot
  | startConnection (dr : DataRequest N) (c : ConnectionId)
  | startRaises (dr : DataRequest N)
  /-- The connection is there, and sending the command raises. -/
  | commandRaises (dr : DataRequest N) (c : ConnectionId)
  /-- `order` is that in which the map is walked; `copied` tells for which targets the copy succeeds. -/
  | receivedData (c : ConnectionId) (t : Transfer N) (order : List N) (copied : N → Bool)
  | dataNotAvailable (c : ConnectionId)

namespace NIOAgent

variable {N : Type} [DecidableEq N]

def init : NIOAgent N := ⟨[], fun _ => none, fun _ => none, 0, 0, [], false, [], [], []⟩

def addTransferRequest (a : NIOAgent N) (dr : DataRequest N) : NIOAgent N :=
  match a.dataToRequests dr.source with
  | none =>
    { a with
      dataToRequests := Function.update a.dataToRequests dr.source (some [dr])
      pendingRequests := a.pendingRequests ++ [dr]
      uncalled := true
      added := dr :: a.added }
  | some list =>
    { a with
      dataToRequests := Function.update a.dataToRequests dr.source (some (list ++ [dr]))
      added := dr :: a.added }

omit [DecidableEq N] in
/-- A loop begins. -/
def requestTransfers (a : NIOAgent N) : NIOAgent N := { a with testing := a.testing + 1, uncalled := false }

/-- `tryAcquireReceiveSlot` and the removal of the first request, when there is one. -/
def acquireSlot (maxReceive : Nat) (a : NIOAgent N) : NIOAgent N :=
  match a.pendingRequests with
  | [] => { a with testing := a.testing - 1 }
  | dr :: rest =>
    if a.receiveTransfers < maxReceive then
      { a with
        testing := a.testing - 1
        pendingRequests := rest
        starting := dr :: a.starting
        receiveTransfers := a.receiveTransfers + 1 }
    else { a with testing := a.testing - 1 }

/-- The requests of a datum by their targets, in the order in which the map is walked. -/
def byTarget (requests : List (DataRequest N)) (order : List N) : List (N × List (DataRequest N)) :=
  order.map fun target => (target, requests.filter fun dr => dr.target = target)

def receivedValue (target : N) (requests : List (DataRequest N)) : List (DataRequest N × Answer N) :=
  requests.map fun dr => (dr, .receivedValue target)

/-- The loop over the entries: the answers, and whether it ends. The entry of
a copied file is taken out of the map, after which the walk goes on to no
further entry but raises. -/
def replicate (isFile : Bool) (copied : N → Bool) :
    List (N × List (DataRequest N)) → List (DataRequest N × Answer N) × Bool
  | [] => ([], true)
  | (target, reqs) :: rest =>
    if copied target = false then replicate isFile copied rest
    else if isFile then (receivedValue target reqs, rest.isEmpty)
    else
      let others := replicate isFile copied rest
      (receivedValue target reqs ++ others.1, others.2)

/-- A datum that has arrived goes to its requests; `false` is an exception. -/
def passOn (dataId : N) (t : Transfer N) (copied : N → Bool) (requests : List (DataRequest N))
    (entries : List (N × List (DataRequest N))) : List (DataRequest N × Answer N) × Bool :=
  if entries.length = 1 then
    match requests with
    | [] => ([], false)
    | dr :: _ => (receivedValue dr.target requests, true)
  else
    let own := t.file.getD dataId
    match entries.lookup own with
    | none => ([], false)
    | some reqs =>
      let others := replicate t.file.isSome copied (entries.filter fun entry => entry.1 ≠ own)
      (receivedValue own reqs ++ others.1, others.2)

/-- `ongoingTransfers.remove(c)` and `releaseReceiveSlot`. -/
def endTransfer (a : NIOAgent N) (c : ConnectionId) : NIOAgent N :=
  { a with
    ongoingTransfers := Function.update a.ongoingTransfers c none
    accepted := a.accepted.erase c
    receiveTransfers := a.receiveTransfers - 1 }

/-- `dataToRequests.remove(dataId)`. -/
def removeRequests (a : NIOAgent N) (dataId : N) : NIOAgent N :=
  { a with dataToRequests := Function.update a.dataToRequests dataId none }

omit [DecidableEq N] in
def answer (a : NIOAgent N) (answers : List (DataRequest N × Answer N)) : NIOAgent N :=
  { a with answers := a.answers ++ answers }

def step (maxReceive : Nat) (a : NIOAgent N) : AgentStep N → Option (NIOAgent N)
  | .addTransferRequest dr => if dr ∈ a.added then none else some (a.addTransferRequest dr)
  | .requestTransfers => some a.requestTransfers
  | .acquireSlot => if 0 < a.testing then some (acquireSlot maxReceive a) else none
  | .startConnection dr c =>
    if dr ∈ a.starting ∧ a.ongoingTransfers c = none then
      some { a with
        starting := a.starting.erase dr
        ongoingTransfers := Function.update a.ongoingTransfers c (some dr.source)
        accepted := c :: a.accepted
        testing := a.testing + 1 }
    else none
  | .startRaises dr =>
    if dr ∈ a.starting then some { a with starting := a.starting.erase dr, testing := a.testing + 1 } else none
  | .commandRaises dr c =>
    if dr ∈ a.starting ∧ a.ongoingTransfers c = none then
      some { a with
        starting := a.starting.erase dr
        ongoingTransfers := Function.update a.ongoingTransfers c (some dr.source)
        testing := a.testing + 1 }
    else none
  | .receivedData c t order copied =>
    match a.ongoingTransfers c with
    | none => some a
    | some dataId =>
      if c ∈ a.accepted then
        match a.dataToRequests dataId with
        | none => some (a.endTransfer c)
        | some requests =>
          if order.Perm (requests.map DataRequest.target).dedup then
            let passed := passOn dataId t copied requests (byTarget requests order)
            let a := ((a.endTransfer c).removeRequests dataId).answer passed.1
            some (if passed.2 then a.requestTransfers else a)
          else none
      else none
  | .dataNotAvailable c =>
    match a.ongoingTransfers c with
    | none => some a
    | some dataId =>
      if c ∈ a.accepted then
        match a.dataToRequests dataId with
        | none => some (a.endTransfer c)
        | some requests =>
          some (((a.endTransfer c).removeRequests dataId).answer
            (requests.map fun dr => (dr, .notAvailable))).requestTransfers
      else none

omit [DecidableEq N] in
/-- No loop is running, and who has queued a request has had its loop. -/
def Quiet (a : NIOAgent N) : Prop := a.testing = 0 ∧ a.starting = [] ∧ a.uncalled = false

omit [DecidableEq N] in
/-- A transfer of the datum is queued, being started or in progress. -/
def OnItsWay (a : NIOAgent N) (dataId : N) : Prop :=
  (∃ dr ∈ a.pendingRequests, dr.source = dataId) ∨ (∃ dr ∈ a.starting, dr.source = dataId) ∨
    ∃ c ∈ a.accepted, a.ongoingTransfers c = some dataId

/-- Requests are answered once, with their own target, and slots are
conserved. A request that has not been answered waits for a transfer. -/
structure Conserved (maxReceive : Nat) (a : NIOAgent N) : Prop where
  once : (a.answers.map Prod.fst).Nodup
  own : ∀ dr ans, (dr, ans) ∈ a.answers →
    dr ∈ a.added ∧ (ans = .receivedValue dr.target ∨ ans = .notAvailable)
  waits : ∀ dr ∈ a.added, dr ∈ a.answers.map Prod.fst ∨ a.OnItsWay dr.source
  ended : 0 < maxReceive → a.Quiet → a.accepted = [] → ∀ dr ∈ a.added, (a.answers.map Prod.fst).count dr = 1
  slots : 0 ≤ a.receiveTransfers ∧ a.receiveTransfers ≤ maxReceive
  transfers : a.receiveTransfers = a.accepted.length + a.starting.length
  pending : a.Quiet → a.receiveTransfers < maxReceive → a.pendingRequests = []

/-- Connections start, and a datum that has arrived has one target; or it has
arrived as one of its targets and can be copied to the others, of which there
is one at most when it is a file. -/
def Answers (a : NIOAgent N) : AgentStep N → Prop
  | .startRaises _ | .commandRaises _ _ => False
  | .receivedData c t order copied =>
    ∀ dataId, a.ongoingTransfers c = some dataId →
      order.length = 1 ∨
        (t.file.getD dataId ∈ order ∧ (∀ target ∈ order, target ≠ t.file.getD dataId → copied target = true) ∧
          (t.file.isSome = true → order.length ≤ 2))
  | _ => True

/-! ## Passing a datum on -/

theorem receivedValue_of_target (requests : List (DataRequest N)) {target : N}
    (h : ∀ dr ∈ requests, dr.target = target) :
    receivedValue target requests = requests.map fun dr => (dr, .receivedValue dr.target) := by
  refine List.map_congr_left fun dr hdr => ?_
  rw [h dr hdr]

/-- The answers of the entries of a map, entry by entry, are those of its requests. -/
theorem flatMap_perm {order : List N} (hn : order.Nodup) :
    ∀ {requests : List (DataRequest N)}, (∀ dr ∈ requests, dr.target ∈ order) →
      ((byTarget requests order).flatMap fun entry => receivedValue entry.1 entry.2).Perm
        (requests.map fun dr => (dr, .receivedValue dr.target)) := by
  induction order with
  | nil =>
    intro requests h
    have : requests = [] := List.eq_nil_iff_forall_not_mem.mpr fun dr hdr => List.not_mem_nil (h dr hdr)
    subst this
    exact .nil
  | cons target order ih =>
    intro requests h
    obtain ⟨hnot, hn⟩ := List.nodup_cons.mp hn
    have hrest : byTarget requests order = byTarget (requests.filter fun dr => ¬ dr.target = target) order := by
      refine List.map_congr_left fun x hx => ?_
      have hxt : x ≠ target := fun he => hnot (he ▸ hx)
      rw [List.filter_filter]
      congr 1
      refine List.filter_congr fun dr _ => ?_
      by_cases hdx : dr.target = x
      · simp [hdx, hxt]
      · simp [hdx]
    have hown := receivedValue_of_target (requests.filter fun dr => dr.target = target)
      fun dr hdr => of_decide_eq_true (List.mem_filter.mp hdr).2
    have hothers : ∀ dr ∈ requests.filter (fun dr => ¬ dr.target = target), dr.target ∈ order := by
      intro dr hdr
      obtain ⟨hmem, hne⟩ := List.mem_filter.mp hdr
      exact (List.mem_cons.mp (h dr hmem)).resolve_left (of_decide_eq_true hne)
    show (receivedValue target (requests.filter fun dr => dr.target = target) ++
      (byTarget requests order).flatMap fun entry => receivedValue entry.1 entry.2).Perm _
    rw [hown, hrest]
    refine ((ih hn hothers).append_left _).trans ?_
    rw [← List.map_append]
    refine List.Perm.map _ ?_
    simpa using List.filter_append_perm (fun dr : DataRequest N => decide (dr.target = target)) requests

omit [DecidableEq N] in
/-- The loop answers every entry when every copy succeeds and a file has one target more at most. -/
theorem replicate_eq {isFile : Bool} {copied : N → Bool} {entries : List (N × List (DataRequest N))}
    (hc : ∀ entry ∈ entries, copied entry.1 = true) (hf : isFile = true → entries.length ≤ 1) :
    replicate isFile copied entries = (entries.flatMap fun entry => receivedValue entry.1 entry.2, true) := by
  induction entries with
  | nil => rfl
  | cons entry rest ih =>
    obtain ⟨target, reqs⟩ := entry
    have hcopied : copied target = true := hc (target, reqs) List.mem_cons_self
    unfold replicate
    rw [if_neg (by rw [hcopied]; decide)]
    split
    next hfile =>
      have hlen : rest.length + 1 ≤ 1 := hf hfile
      have hnil : rest = [] := List.length_eq_zero_iff.mp (by omega)
      subst hnil
      simp
    next hobj =>
      rw [ih (fun entry hentry => hc entry (List.mem_cons_of_mem _ hentry)) fun he => absurd he hobj]
      rfl

theorem lookup_byTarget (requests : List (DataRequest N)) {order : List N} {target : N} (h : target ∈ order) :
    (byTarget requests order).lookup target = some (requests.filter fun dr => dr.target = target) := by
  induction order with
  | nil => exact absurd h List.not_mem_nil
  | cons x order ih =>
    unfold byTarget at ih ⊢
    rw [List.map_cons, List.lookup_cons]
    by_cases hx : target = x
    · subst hx
      simp
    · have hb : (target == x) = false := by simpa using hx
      rw [hb]
      exact ih ((List.mem_cons.mp h).resolve_left hx)

/-- The other entries of the map. -/
theorem filter_byTarget (requests : List (DataRequest N)) (order : List N) (own : N) :
    (byTarget requests order).filter (fun entry => entry.1 ≠ own) =
      byTarget requests (order.filter fun target => target ≠ own) := by
  unfold byTarget
  rw [List.filter_map]
  rfl

/-- Every request of a datum is passed its own target when the step `Answers`. -/
theorem passOn_perm {dataId : N} {t : Transfer N} {copied : N → Bool} {requests : List (DataRequest N)}
    {order : List N} (hne : requests ≠ []) (hperm : order.Perm (requests.map DataRequest.target).dedup)
    (h : order.length = 1 ∨
      (t.file.getD dataId ∈ order ∧ (∀ target ∈ order, target ≠ t.file.getD dataId → copied target = true) ∧
        (t.file.isSome = true → order.length ≤ 2))) :
    (passOn dataId t copied requests (byTarget requests order)).2 = true ∧
      (passOn dataId t copied requests (byTarget requests order)).1.Perm
        (requests.map fun dr => (dr, .receivedValue dr.target)) := by
  have hnodup : order.Nodup := hperm.nodup_iff.mpr (List.nodup_dedup _)
  have hmem : ∀ dr ∈ requests, dr.target ∈ order := fun dr hdr =>
    hperm.mem_iff.mpr (List.mem_dedup.mpr (List.mem_map_of_mem hdr))
  have hlength : (byTarget requests order).length = order.length := List.length_map _
  unfold passOn
  split
  next h1 =>
    obtain ⟨target, horder⟩ := List.length_eq_one_iff.mp (hlength ▸ h1)
    have htarget : ∀ dr ∈ requests, dr.target = target := fun dr hdr => by
      have := hmem dr hdr
      rw [horder] at this
      exact List.mem_singleton.mp this
    match requests, hne, htarget with
    | dr :: rest, _, htarget =>
      refine ⟨rfl, ?_⟩
      show (receivedValue dr.target (dr :: rest)).Perm _
      rw [receivedValue_of_target _ fun x hx => by rw [htarget x hx, htarget dr List.mem_cons_self]]
  next h1 =>
    obtain ⟨hown, hcopied, hfile⟩ := h.resolve_left (hlength ▸ h1)
    have hlook := lookup_byTarget requests hown
    have hshort : t.file.isSome = true →
        (byTarget requests (order.filter fun target => target ≠ t.file.getD dataId)).length ≤ 1 := by
      intro hf
      have hlt := List.length_filter_lt_length_iff_exists (p := fun target => decide (target ≠ t.file.getD dataId)).mpr
        ⟨_, hown, by simp⟩
      have hlen := hfile hf
      rw [byTarget, List.length_map]
      omega
    have hothers : ∀ entry ∈ byTarget requests (order.filter fun target => target ≠ t.file.getD dataId),
        copied entry.1 = true := by
      intro entry hentry
      obtain ⟨target, htarget, rfl⟩ := List.mem_map.mp hentry
      obtain ⟨htarget, hne⟩ := List.mem_filter.mp htarget
      exact hcopied target htarget (of_decide_eq_true hne)
    have hnodup' : (t.file.getD dataId :: order.filter fun target => target ≠ t.file.getD dataId).Nodup :=
      List.nodup_cons.mpr ⟨fun hin => of_decide_eq_true (List.mem_filter.mp hin).2 rfl, hnodup.filter _⟩
    have hall : ∀ dr ∈ requests,
        dr.target ∈ t.file.getD dataId :: order.filter fun target => target ≠ t.file.getD dataId := by
      intro dr hdr
      by_cases he : dr.target = t.file.getD dataId
      · rw [he]
        exact List.mem_cons_self
      · exact List.mem_cons_of_mem _ (List.mem_filter.mpr ⟨hmem dr hdr, decide_eq_true he⟩)
    simp only [hlook]
    rw [filter_byTarget, replicate_eq hothers hshort]
    exact ⟨rfl, flatMap_perm hnodup' hall⟩

/-! ## The requests and their transfers -/

omit [DecidableEq N] in
/-- The requests that wait for a datum. -/
def held (a : NIOAgent N) (dataId : N) : List (DataRequest N) := (a.dataToRequests dataId).getD []

omit [DecidableEq N] in
/-- The data whose transfers are queued, being started and in progress. -/
def moving (a : NIOAgent N) : List N :=
  (a.pendingRequests ++ a.starting).map DataRequest.source ++ a.accepted.filterMap a.ongoingTransfers

omit [DecidableEq N] in
structure Entrusted (place : DataRequest N → Place N (Answer N)) (a : NIOAgent N) : Prop where
  custody : Custody place a.held a.answers
  added : ∀ dr, place dr = .unknown ↔ dr ∉ a.added
  source : ∀ dr dataId, place dr = .held dataId → dataId = dr.source
  own : ∀ dr ans, place dr = .delivered ans → ans = .receivedValue dr.target ∨ ans = .notAvailable
  nonempty : ∀ dataId, a.dataToRequests dataId ≠ some []

omit [DecidableEq N] in
/-- Every datum that is asked for has one transfer, and every slot in use one. -/
structure Serving (maxReceive : Nat) (a : NIOAgent N) : Prop where
  entrusted : ∃ place, Entrusted place a
  moving : a.moving.Nodup
  mem_moving : ∀ dataId, dataId ∈ a.moving ↔ (a.dataToRequests dataId).isSome = true
  accepted : a.accepted.Nodup
  ongoing : ∀ c, c ∈ a.accepted ↔ (a.ongoingTransfers c).isSome = true
  transfers : a.receiveTransfers = a.accepted.length + a.starting.length
  bound : a.receiveTransfers ≤ maxReceive
  pending : a.Quiet → a.receiveTransfers < maxReceive → a.pendingRequests = []

variable {maxReceive : Nat} {x y : NIOAgent N}

omit [DecidableEq N] in
theorem onItsWay_of_moving {dataId : N} (h : dataId ∈ x.moving) : x.OnItsWay dataId := by
  unfold moving at h
  rw [List.map_append, List.append_assoc] at h
  rcases List.mem_append.mp h with h | h
  · exact .inl (List.mem_map.mp h)
  · rcases List.mem_append.mp h with h | h
    · exact .inr (.inl (List.mem_map.mp h))
    · exact .inr (.inr (List.mem_filterMap.mp h))

theorem Serving.waits (h : Serving maxReceive x) {dr : DataRequest N} (hdr : dr ∈ x.added) :
    dr ∈ x.answers.map Prod.fst ∨ x.OnItsWay dr.source := by
  obtain ⟨place, he⟩ := h.entrusted
  cases hp : place dr with
  | unknown => exact absurd hdr ((he.added dr).mp hp)
  | held dataId =>
    have hmem : dr ∈ x.held dataId := (he.custody.mem_held dataId dr).mpr hp
    have hsome : (x.dataToRequests dataId).isSome = true := by
      unfold held at hmem
      cases hd : x.dataToRequests dataId with
      | none =>
        rw [hd] at hmem
        exact absurd hmem List.not_mem_nil
      | some => rfl
    rw [he.source dr dataId hp] at hsome
    exact .inr (onItsWay_of_moving ((h.mem_moving _).mpr hsome))
  | delivered ans => exact .inl (List.mem_map_of_mem ((he.custody.mem_delivered dr ans).mpr hp))

theorem Serving.conserved (h : Serving maxReceive x) : Conserved maxReceive x := by
  obtain ⟨place, he⟩ := h.entrusted
  have htransfers := h.transfers
  refine {
    once := he.custody.nodup_delivered, own := fun dr ans hmem => ?_, waits := fun dr hdr => h.waits hdr
    ended := fun hmax hq hnil dr hdr => ?_, slots := ⟨by omega, h.bound⟩, transfers := htransfers
    pending := h.pending }
  · have hp := (he.custody.mem_delivered dr ans).mp hmem
    refine ⟨?_, he.own dr ans hp⟩
    by_contra hnot
    rw [(he.added dr).mpr hnot] at hp
    cases hp
  · obtain ⟨-, hstarting, -⟩ := id hq
    rw [hnil, hstarting] at htransfers
    have hzero : x.receiveTransfers = 0 := htransfers
    have hpending := h.pending hq (by omega)
    refine List.count_eq_one_of_mem he.custody.nodup_delivered ((h.waits hdr).resolve_right ?_)
    rintro (⟨r, hr, -⟩ | ⟨r, hr, -⟩ | ⟨c, hc, -⟩)
    · rw [hpending] at hr
      exact absurd hr List.not_mem_nil
    · rw [hstarting] at hr
      exact absurd hr List.not_mem_nil
    · rw [hnil] at hc
      exact absurd hc List.not_mem_nil

theorem Serving.init : Serving maxReceive (init : NIOAgent N) where
  entrusted := ⟨fun _ => .unknown, {
    custody := Custody.init
    added := fun _ => by simp [NIOAgent.init]
    source := fun _ _ he => by cases he
    own := fun _ _ he => by cases he
    nonempty := fun _ he => by cases he }⟩
  moving := List.nodup_nil
  mem_moving _ := by simp [NIOAgent.init, NIOAgent.moving]
  accepted := List.nodup_nil
  ongoing _ := by simp [NIOAgent.init]
  transfers := rfl
  bound := Int.natCast_nonneg _
  pending _ _ := rfl

/-! ## The steps -/

theorem addTransferRequest_none {dr : DataRequest N} (hd : x.dataToRequests dr.source = none) :
    x.addTransferRequest dr =
      { x with
        dataToRequests := Function.update x.dataToRequests dr.source (some [dr])
        pendingRequests := x.pendingRequests ++ [dr]
        uncalled := true
        added := dr :: x.added } := by
  unfold addTransferRequest
  rw [hd]

theorem addTransferRequest_some {dr : DataRequest N} {list : List (DataRequest N)}
    (hd : x.dataToRequests dr.source = some list) :
    x.addTransferRequest dr =
      { x with
        dataToRequests := Function.update x.dataToRequests dr.source (some (list ++ [dr]))
        added := dr :: x.added } := by
  unfold addTransferRequest
  rw [hd]

theorem held_add (dr : DataRequest N) (dataId : N) :
    (x.addTransferRequest dr).held dataId = Function.update x.held dr.source (x.held dr.source ++ [dr]) dataId := by
  unfold held addTransferRequest
  rw [Function.update_apply]
  cases hd : x.dataToRequests dr.source with
  | none =>
    by_cases hi : dataId = dr.source
    · simp [hi]
    · simp [hi]
  | some list =>
    by_cases hi : dataId = dr.source
    · simp [hi]
    · simp [hi]

theorem Entrusted.add {place : DataRequest N → Place N (Answer N)} (h : Entrusted place x) {dr : DataRequest N}
    (hdr : dr ∉ x.added) :
    Entrusted (Function.update place dr (.held dr.source)) (x.addTransferRequest dr) := by
  have hadded : (x.addTransferRequest dr).added = dr :: x.added := by
    unfold addTransferRequest
    split <;> rfl
  have hanswers : (x.addTransferRequest dr).answers = x.answers := by
    unfold addTransferRequest
    split <;> rfl
  refine { custody := ?_, added := fun r => ?_, source := fun r d hp => ?_, own := fun r ans hp => ?_, nonempty := ?_ }
  · rw [hanswers]
    exact (h.custody.give ((h.added dr).mpr hdr) dr.source).congr fun d => held_add dr d
  · rw [hadded, Function.update_apply, List.mem_cons, not_or]
    split
    next he => exact iff_of_false (by intro hc; cases hc) fun hc => hc.1 he
    next he => rw [h.added r]; exact ⟨fun hn => ⟨he, hn⟩, And.right⟩
  · rw [Function.update_apply] at hp
    split at hp
    next he => cases hp; rw [he]
    next => exact h.source r d hp
  · rw [Function.update_apply] at hp
    split at hp
    next => cases hp
    next => exact h.own r ans hp
  · intro d
    cases hd : x.dataToRequests dr.source with
    | none =>
      rw [addTransferRequest_none hd]
      show Function.update _ _ _ _ ≠ _
      rw [Function.update_apply]
      split
      · simp
      · exact h.nonempty d
    | some list =>
      rw [addTransferRequest_some hd]
      show Function.update _ _ _ _ ≠ _
      rw [Function.update_apply]
      split
      · simp
      · exact h.nonempty d

theorem Serving.add (h : Serving maxReceive x) {dr : DataRequest N} (hdr : dr ∉ x.added) :
    Serving maxReceive (x.addTransferRequest dr) := by
  obtain ⟨place, he⟩ := h.entrusted
  have hentrusted : ∃ place, Entrusted place (x.addTransferRequest dr) := ⟨_, he.add hdr⟩
  cases hd : x.dataToRequests dr.source with
  | none =>
    rw [addTransferRequest_none hd] at hentrusted ⊢
    have hnot : dr.source ∉ x.moving := by
      rw [h.mem_moving, hd]
      exact Bool.false_ne_true
    have hmoving : ((x.pendingRequests ++ [dr] ++ x.starting).map DataRequest.source ++
        x.accepted.filterMap x.ongoingTransfers).Perm (dr.source :: x.moving) := by
      unfold NIOAgent.moving
      simp only [List.map_append, List.map_cons, List.map_nil, List.append_assoc]
      exact List.perm_middle
    refine {
      entrusted := hentrusted, moving := hmoving.nodup_iff.mpr (List.nodup_cons.mpr ⟨hnot, h.moving⟩)
      mem_moving := fun d => (hmoving.mem_iff (a := d)).trans ?_, accepted := h.accepted, ongoing := h.ongoing
      transfers := h.transfers, bound := h.bound, pending := fun hq => absurd hq.2.2 Bool.noConfusion }
    show _ ↔ (Function.update x.dataToRequests dr.source (some [dr]) d).isSome = true
    rw [List.mem_cons, h.mem_moving, Function.update_apply]
    split
    next hi => exact iff_of_true (.inl hi) rfl
    next hi => exact ⟨fun ho => ho.resolve_left hi, .inr⟩
  | some list =>
    rw [addTransferRequest_some hd] at hentrusted ⊢
    refine {
      entrusted := hentrusted, moving := h.moving, mem_moving := fun d => ?_, accepted := h.accepted
      ongoing := h.ongoing, transfers := h.transfers, bound := h.bound, pending := h.pending }
    show d ∈ x.moving ↔ (Function.update x.dataToRequests dr.source (some (list ++ [dr])) d).isSome = true
    rw [h.mem_moving, Function.update_apply]
    split
    next hi => rw [hi, hd]; exact iff_of_true rfl rfl
    next => rfl

omit [DecidableEq N] in
/-- What leaves the requests and the answers as they are keeps them entrusted. -/
theorem Serving.entrusted_of_eq (h : Serving maxReceive x) (hd : y.dataToRequests = x.dataToRequests)
    (hans : y.answers = x.answers) (hadd : y.added = x.added) : ∃ place, Entrusted place y := by
  obtain ⟨place, he⟩ := h.entrusted
  refine ⟨place, ?_⟩
  refine { custody := ?_, added := ?_, source := he.source, own := he.own, nonempty := ?_ }
  · rw [hans]
    exact he.custody.congr fun d => by unfold held; rw [hd]
  · rw [hadd]
    exact he.added
  · rw [hd]
    exact he.nonempty

omit [DecidableEq N] in
/-- A loop ends when there is no request or no slot. -/
theorem Serving.leave (h : Serving maxReceive x)
    (hend : x.receiveTransfers < maxReceive → x.pendingRequests = []) :
    Serving maxReceive { x with testing := x.testing - 1 } where
  entrusted := h.entrusted_of_eq rfl rfl rfl
  moving := h.moving
  mem_moving := h.mem_moving
  accepted := h.accepted
  ongoing := h.ongoing
  transfers := h.transfers
  bound := h.bound
  pending _ := hend

theorem Serving.acquireSlot (h : Serving maxReceive x) : Serving maxReceive (acquireSlot maxReceive x) := by
  have htransfers := h.transfers
  cases hp : x.pendingRequests with
  | nil =>
    have hx : NIOAgent.acquireSlot maxReceive x = { x with testing := x.testing - 1 } := by
      unfold NIOAgent.acquireSlot
      rw [hp]
    rw [hx]
    exact h.leave fun _ => hp
  | cons dr rest =>
    by_cases hlt : x.receiveTransfers < maxReceive
    · have hx : NIOAgent.acquireSlot maxReceive x =
          { x with
            testing := x.testing - 1
            pendingRequests := rest
            starting := dr :: x.starting
            receiveTransfers := x.receiveTransfers + 1 } := by
        unfold NIOAgent.acquireSlot
        rw [hp]
        exact if_pos hlt
      have hmoving : (NIOAgent.acquireSlot maxReceive x).moving.Perm x.moving := by
        rw [hx]
        unfold NIOAgent.moving
        rw [hp]
        exact (List.perm_middle.map _).append_right _
      refine {
        entrusted := h.entrusted_of_eq ?_ ?_ ?_, moving := hmoving.nodup_iff.mpr h.moving
        mem_moving := fun d => ?_, accepted := ?_, ongoing := ?_, transfers := ?_, bound := ?_, pending := ?_ }
      · rw [hx]
      · rw [hx]
      · rw [hx]
      · rw [hmoving.mem_iff, h.mem_moving, hx]
      all_goals rw [hx]
      · exact h.accepted
      · exact h.ongoing
      · show x.receiveTransfers + 1 = x.accepted.length + (x.starting.length + 1 : Nat)
        omega
      · show x.receiveTransfers + 1 ≤ maxReceive
        omega
      · exact fun hq => absurd hq.2.1 (List.cons_ne_nil _ _)
    · have hx : NIOAgent.acquireSlot maxReceive x = { x with testing := x.testing - 1 } := by
        unfold NIOAgent.acquireSlot
        rw [hp]
        exact if_neg hlt
      rw [hx]
      exact h.leave fun hl => absurd hl hlt

theorem Serving.start (h : Serving maxReceive x) {dr : DataRequest N} {c : ConnectionId} (hdr : dr ∈ x.starting)
    (hc : x.ongoingTransfers c = none) :
    Serving maxReceive
      { x with
        starting := x.starting.erase dr
        ongoingTransfers := Function.update x.ongoingTransfers c (some dr.source)
        accepted := c :: x.accepted
        testing := x.testing + 1 } := by
  have hnot : c ∉ x.accepted := by
    rw [h.ongoing, hc]
    exact Bool.false_ne_true
  have hothers : x.accepted.filterMap (Function.update x.ongoingTransfers c (some dr.source)) =
      x.accepted.filterMap x.ongoingTransfers :=
    List.filterMap_congr fun c' hc' => Function.update_of_ne (ne_of_mem_of_not_mem hc' hnot) _ _
  have hmoving : ((x.pendingRequests ++ x.starting.erase dr).map DataRequest.source ++
      (c :: x.accepted).filterMap (Function.update x.ongoingTransfers c (some dr.source))).Perm x.moving := by
    rw [List.filterMap_cons_some (Function.update_self ..), hothers]
    unfold NIOAgent.moving
    refine List.perm_middle.trans ?_
    rw [← List.cons_append, ← List.map_cons]
    refine (List.Perm.map _ ?_).append_right _
    exact List.perm_middle.symm.trans ((List.perm_cons_erase hdr).symm.append_left _)
  have hpos : 0 < x.starting.length := List.length_pos_of_mem hdr
  have htransfers := h.transfers
  refine {
    entrusted := h.entrusted_of_eq rfl rfl rfl, moving := hmoving.nodup_iff.mpr h.moving
    mem_moving := fun d => hmoving.mem_iff.trans (h.mem_moving d)
    accepted := List.nodup_cons.mpr ⟨hnot, h.accepted⟩, ongoing := fun c' => ?_, transfers := ?_, bound := h.bound
    pending := fun hq => absurd hq.1 (Nat.succ_ne_zero _) }
  · show c' ∈ c :: x.accepted ↔ (Function.update x.ongoingTransfers c (some dr.source) c').isSome = true
    rw [List.mem_cons, Function.update_apply, h.ongoing]
    split
    next he => exact iff_of_true (.inl he) rfl
    next he => exact ⟨fun ho => ho.resolve_left he, .inr⟩
  · show x.receiveTransfers = (x.accepted.length + 1 : Nat) + ((x.starting.erase dr).length : Int)
    rw [List.length_erase_of_mem hdr]
    omega

/-- A transfer ends and the requests of its datum are answered. -/
theorem Serving.answered (h : Serving maxReceive x) {c : ConnectionId} {dataId : N} {requests : List (DataRequest N)}
    (hc : x.ongoingTransfers c = some dataId) (hd : x.dataToRequests dataId = some requests)
    {answers : List (DataRequest N × Answer N)} (f : DataRequest N → Answer N)
    (hf : ∀ dr, f dr = .receivedValue dr.target ∨ f dr = .notAvailable)
    (hp : answers.Perm (requests.map fun dr => (dr, f dr))) :
    Serving maxReceive (((x.endTransfer c).removeRequests dataId).answer answers).requestTransfers := by
  obtain ⟨place, he⟩ := h.entrusted
  have hmem : c ∈ x.accepted := (h.ongoing c).mpr (by rw [hc]; rfl)
  have hothers : (x.accepted.erase c).filterMap (Function.update x.ongoingTransfers c none) =
      (x.accepted.erase c).filterMap x.ongoingTransfers := by
    refine List.filterMap_congr fun c' hc' => Function.update_of_ne ?_ _ _
    intro heq
    rw [heq] at hc'
    exact absurd hc' h.accepted.not_mem_erase
  have hmoving : x.moving.Perm (dataId :: ((x.pendingRequests ++ x.starting).map DataRequest.source ++
      (x.accepted.erase c).filterMap (Function.update x.ongoingTransfers c none))) := by
    rw [hothers]
    unfold NIOAgent.moving
    refine List.Perm.trans (((List.perm_cons_erase hmem).filterMap _).append_left _) ?_
    rw [List.filterMap_cons_some hc]
    exact List.perm_middle
  obtain ⟨hnot, hnodup⟩ := List.nodup_cons.mp (hmoving.nodup_iff.mp h.moving)
  have hheld : x.held dataId = requests := by
    unfold held
    rw [hd]
    rfl
  have htransfers := h.transfers
  have hpos : 0 < x.accepted.length := List.length_pos_of_mem hmem
  refine {
    entrusted := ⟨Custody.redirect place dataId fun dr => .delivered (f dr), ?_⟩
    moving := hnodup, mem_moving := fun d => ?_, accepted := h.accepted.erase c, ongoing := fun c' => ?_
    transfers := ?_, bound := ?_, pending := fun hq => absurd hq.1 (Nat.succ_ne_zero _) }
  · have hcustody := he.custody.deliverEach dataId f
    rw [hheld] at hcustody
    refine {
      custody := (hcustody.perm (hp.symm.append_left _)).congr fun d => ?_, added := fun dr => ?_
      source := fun dr d hpl => ?_, own := fun dr ans hpl => ?_, nonempty := fun d => ?_ }
    · show (Function.update x.dataToRequests dataId none d).getD [] = _
      rw [Function.update_apply, Function.update_apply]
      split <;> rfl
    · by_cases hpl : place dr = .held dataId
      · rw [Custody.redirect_held hpl]
        have hin : dr ∈ x.added := by
          by_contra hn
          rw [(he.added dr).mpr hn] at hpl
          cases hpl
        exact iff_of_false (by intro hx; cases hx) fun hn => hn hin
      · rw [Custody.redirect_of_ne hpl]
        exact he.added dr
    · by_cases hpl' : place dr = .held dataId
      · rw [Custody.redirect_held hpl'] at hpl
        cases hpl
      · rw [Custody.redirect_of_ne hpl'] at hpl
        exact he.source dr d hpl
    · by_cases hpl' : place dr = .held dataId
      · rw [Custody.redirect_held hpl'] at hpl
        cases hpl
        exact hf dr
      · rw [Custody.redirect_of_ne hpl'] at hpl
        exact he.own dr ans hpl
    · show Function.update x.dataToRequests dataId none d ≠ some []
      rw [Function.update_apply]
      split
      · exact fun hx => by cases hx
      · exact he.nonempty d
  · show d ∈ _ ↔ (Function.update x.dataToRequests dataId none d).isSome = true
    rw [Function.update_apply]
    have hiff := h.mem_moving d
    rw [hmoving.mem_iff, List.mem_cons] at hiff
    split
    next hi => exact iff_of_false (hi ▸ hnot) Bool.false_ne_true
    next hi => rw [← hiff]; exact ⟨.inr, fun ho => ho.resolve_left hi⟩
  · show c' ∈ x.accepted.erase c ↔ (Function.update x.ongoingTransfers c none c').isSome = true
    rw [Function.update_apply]
    split
    next hi => exact iff_of_false (hi ▸ h.accepted.not_mem_erase) Bool.false_ne_true
    next hi => rw [List.mem_erase_of_ne hi]; exact h.ongoing c'
  · show x.receiveTransfers - 1 = ((x.accepted.erase c).length : Int) + x.starting.length
    rw [List.length_erase_of_mem hmem]
    omega
  · have := h.bound
    show x.receiveTransfers - 1 ≤ maxReceive
    omega

theorem Serving.requested (h : Serving maxReceive x) {c : ConnectionId} {dataId : N}
    (hc : x.ongoingTransfers c = some dataId) :
    ∃ requests, x.dataToRequests dataId = some requests ∧ requests ≠ [] := by
  have hmem : c ∈ x.accepted := (h.ongoing c).mpr (by rw [hc]; rfl)
  have hmoving : dataId ∈ x.moving := List.mem_append_right _ (List.mem_filterMap.mpr ⟨c, hmem, hc⟩)
  obtain ⟨requests, hd⟩ := Option.isSome_iff_exists.mp ((h.mem_moving dataId).mp hmoving)
  obtain ⟨place, he⟩ := h.entrusted
  exact ⟨requests, hd, fun hnil => he.nonempty dataId (by rw [hd, hnil])⟩

theorem Serving.step {l : AgentStep N} (h : Serving maxReceive x) (hl : x.Answers l)
    (hst : x.step maxReceive l = some y) : Serving maxReceive y := by
  cases l with
  | addTransferRequest dr =>
    simp only [NIOAgent.step, Option.ite_none_left_eq_some] at hst
    obtain ⟨hdr, hst⟩ := hst
    cases hst
    exact h.add hdr
  | requestTransfers =>
    cases hst
    exact {
      entrusted := h.entrusted_of_eq rfl rfl rfl, moving := h.moving, mem_moving := h.mem_moving
      accepted := h.accepted, ongoing := h.ongoing, transfers := h.transfers, bound := h.bound
      pending := fun hq => absurd hq.1 (Nat.succ_ne_zero _) }
  | acquireSlot =>
    simp only [NIOAgent.step, Option.ite_none_right_eq_some] at hst
    cases hst.2
    exact h.acquireSlot
  | startConnection dr c =>
    simp only [NIOAgent.step, Option.ite_none_right_eq_some] at hst
    obtain ⟨⟨hdr, hc⟩, hst⟩ := hst
    cases hst
    exact h.start hdr hc
  | startRaises dr => exact hl.elim
  | commandRaises dr c => exact hl.elim
  | receivedData c t order copied =>
    simp only [NIOAgent.step] at hst
    cases hc : x.ongoingTransfers c with
    | none =>
      rw [hc] at hst
      cases hst
      exact h
    | some dataId =>
      obtain ⟨requests, hd, hne⟩ := h.requested hc
      simp only [hc, hd, Option.ite_none_right_eq_some] at hst
      obtain ⟨-, hperm, hst⟩ := hst
      obtain ⟨hdone, hanswers⟩ := passOn_perm hne hperm (hl dataId hc)
      rw [hdone] at hst
      cases hst
      exact h.answered hc hd (fun dr => .receivedValue dr.target) (fun _ => .inl rfl) hanswers
  | dataNotAvailable c =>
    simp only [NIOAgent.step] at hst
    cases hc : x.ongoingTransfers c with
    | none =>
      rw [hc] at hst
      cases hst
      exact h
    | some dataId =>
      obtain ⟨requests, hd, -⟩ := h.requested hc
      simp only [hc, hd, Option.ite_none_right_eq_some] at hst
      obtain ⟨-, hst⟩ := hst
      cases hst
      exact h.answered hc hd (fun _ => .notAvailable) (fun _ => .inr rfl) (.refl _)

/-- Two requests of a file with a target each, of which the second joins the first. -/
def twoTargets : List (AgentStep Nat) :=
  [.addTransferRequest ⟨0, 7, 1⟩, .requestTransfers, .addTransferRequest ⟨1, 7, 2⟩, .acquireSlot,
    .startConnection ⟨0, 7, 1⟩ 0, .acquireSlot, .receivedData 0 ⟨some 1⟩ [1, 2] fun _ => true, .acquireSlot]

end NIOAgent

end Compss.Transfers
