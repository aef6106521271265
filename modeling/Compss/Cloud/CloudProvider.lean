/-
`CloudProvider`: the virtual machines a provider counts and the tasks that
the machines it has asked for will run.

`currentVMCount` and `pendingCoreCount` go up when a creation is requested
and down when it is refused or confirmed, by what the request holds. When
implementations are registered, the slots of the instance types, the counts
of the requests and `pendingCoreCount` are computed anew. An instance type is
an object: `descriptions` holds them all, a `TypeId` is a reference to one,
and `types` is the table of the `CloudTypeManager`.

How many tasks a machine can host is a parameter. An access outside an array
raises; what a method has done by then stays.
-/
import Compss.Lib.Run
import Mathlib

namespace Compss.Cloud

open Lib

abbrev CoreId := Nat
abbrev TypeId := Nat
abbrev RequestId := Nat
abbrev WorkerId := Nat

inductive TaskType
  | method
  | service
  deriving DecidableEq, Repr

structure Implementation (D : Type) where
  taskType : TaskType
  requirements : D

/-- The implementations of every core. -/
abbrev CoreManager (D : Type) := List (List (Implementation D))

/-- `none` is a row that is null. -/
structure CloudInstanceTypeDescription (D : Type) where
  rd : D
  slotsCore : List Int
  slotsImpl : List (Option (List Int))

structure ResourceCreationRequest where
  id : RequestId
  /-- The type composition. -/
  requested : List (TypeId × Int)
  requestedSimultaneousTaskCount : List (List Int)

structure CloudProvider (D : Type) where
  coreManager : CoreManager D
  /-- Cores with implementations that have not been announced. -/
  unannounced : List CoreId
  descriptions : List (CloudInstanceTypeDescription D)
  types : List (String × TypeId)
  currentVMCount : Int
  pendingRequests : List ResourceCreationRequest
  pendingCoreCount : List Int
  hostedWorkers : List WorkerId
  nextRequest : RequestId
  /-- Instances granted and reduced so far. -/
  granted : Int
  reduced : Int

inductive CloudStep (D : Type)
  | registerNewImplementations (coreId : CoreId) (impls : List (Implementation D))
  | newCoreElementsDetected (newCores : List CoreId)
  | addInstanceType (name : String) (rd : D)
  | getCompatibleTypes (requested : D)
  /-- `accepted` is what the connector answers. -/
  | requestResourceCreation (composition : List (TypeId × Int)) (accepted : Bool)
  | refusedCreation (id : RequestId)
  | confirmedCreation (id : RequestId) (worker : WorkerId) (granted : List (TypeId × Int))
  /-- `emptied` tells whether nothing is left of the worker. -/
  | requestResourceReduction (worker : WorkerId) (emptied : Bool) (reduction : List (TypeId × Int))

section
variable {D : Type} (canHostSimultaneously : D → D → Int)

namespace CloudInstanceTypeDescription

/-- The slots of a type for the implementations of a core. -/
def slots (rd : D) (impls : List (Implementation D)) : List Int :=
  impls.map fun impl =>
    match impl.taskType with
    | .method => canHostSimultaneously rd impl.requirements
    | .service => 0

def coreSlots (rd : D) (initial : Int) (impls : List (Implementation D)) : Int :=
  impls.foldl (fun most impl =>
    match impl.taskType with
    | .method => max most (canHostSimultaneously rd impl.requirements)
    | .service => most) initial

/-- The constructor. -/
def new (cores : CoreManager D) (rd : D) : CloudInstanceTypeDescription D where
  rd := rd
  slotsCore := cores.map (coreSlots canHostSimultaneously rd 0)
  slotsImpl := cores.map fun impls => some (slots canHostSimultaneously rd impls)

/-- A type whose slots for the announced cores are computed anew. -/
def refreshed (cores : CoreManager D) (newCores : List CoreId) (type : CloudInstanceTypeDescription D) :
    CloudInstanceTypeDescription D where
  rd := type.rd
  slotsCore := newCores.foldl
    (fun slots coreId => slots.modify coreId fun n =>
      coreSlots canHostSimultaneously type.rd n (cores.getD coreId []))
    ((type.slotsCore ++ List.replicate (cores.length - type.slotsCore.length) 0).take cores.length)
  slotsImpl := newCores.foldl
    (fun rows coreId => rows.set coreId (some (slots canHostSimultaneously type.rd (cores.getD coreId []))))
    (type.slotsImpl ++ List.replicate (cores.length - type.slotsImpl.length) none)

/-- A round of `CloudTypeManager.newCoreElementsDetected`; `none` when it raises. -/
def update (cores : CoreManager D) (newCores : List CoreId) (type : CloudInstanceTypeDescription D) :
    Option (CloudInstanceTypeDescription D) :=
  if type.slotsImpl.length ≤ cores.length ∧ (∀ row ∈ type.slotsImpl, row.isSome = true) ∧
      ∀ coreId ∈ newCores, coreId < cores.length then
    some (type.refreshed canHostSimultaneously cores newCores)
  else none

end CloudInstanceTypeDescription

/-- The loop of `CloudTypeManager.newCoreElementsDetected` over the types, and whether it ends. -/
def refreshTypes (cores : CoreManager D) (newCores : List CoreId) :
    List TypeId → List (CloudInstanceTypeDescription D) → List (CloudInstanceTypeDescription D) × Bool
  | [], descriptions => (descriptions, true)
  | t :: ts, descriptions =>
    match descriptions[t]?.bind (CloudInstanceTypeDescription.update canHostSimultaneously cores newCores) with
    | none => (descriptions, false)
    | some type => refreshTypes cores newCores ts (descriptions.set t type)

/-- The instances of a composition. -/
def instances (composition : List (TypeId × Int)) : Int := (composition.map Prod.snd).sum

/-- The most tasks of a core that run at once, whichever implementation they have. -/
def coreSlots (row : List Int) : Int := row.foldl max 0

def addCoreCounts (counts : List Int) (simultaneous : List (List Int)) : List Int :=
  counts.mapIdx fun coreId n => n + coreSlots (simultaneous.getD coreId [])

def subCoreCounts (counts : List Int) (simultaneous : List (List Int)) : List Int :=
  counts.mapIdx fun coreId n => n - coreSlots (simultaneous.getD coreId [])

namespace CloudProvider

def init (cores : CoreManager D) : CloudProvider D :=
  ⟨cores, [], [], [], 0, [], List.replicate cores.length 0, [], 0, 0, 0⟩

/-- `getSlotsImpl()[coreId][implId]`. -/
def slot (p : CloudProvider D) (t : TypeId) (coreId implId : Nat) : Option Int :=
  p.descriptions[t]?.bind fun type => type.slotsImpl[coreId]?.join.bind fun row => row[implId]?

/-- The types of the composition have slots for every implementation. -/
def HasSlots (p : CloudProvider D) (composition : List (TypeId × Int)) : Prop :=
  ∀ coreId < p.coreManager.length, ∀ implId < (p.coreManager.getD coreId []).length, ∀ entry ∈ composition,
    (p.slot entry.1 coreId implId).isSome = true

instance (p : CloudProvider D) (composition : List (TypeId × Int)) : Decidable (p.HasSlots composition) :=
  inferInstanceAs (Decidable (∀ coreId < p.coreManager.length,
    ∀ implId < (p.coreManager.getD coreId []).length, ∀ entry ∈ composition,
      (p.slot entry.1 coreId implId).isSome = true))

def simultaneousCounts (p : CloudProvider D) (composition : List (TypeId × Int)) : List (List Int) :=
  p.coreManager.mapIdx fun coreId impls => (List.range impls.length).map fun implId =>
    (composition.map fun entry => (p.slot entry.1 coreId implId).getD 0 * entry.2).sum

/-- `none` when a slot is missing: the access raises. -/
def computeSimultaneousCounts (p : CloudProvider D) (composition : List (TypeId × Int)) :
    Option (List (List Int)) :=
  if p.HasSlots composition then some (p.simultaneousCounts composition) else none

/-- A core is registered with its first implementations, or gets more. -/
def registerNewImplementations (p : CloudProvider D) (coreId : CoreId) (impls : List (Implementation D)) :
    CloudProvider D :=
  { p with
    coreManager := if coreId < p.coreManager.length then p.coreManager.modify coreId (· ++ impls)
      else p.coreManager ++ [impls]
    unannounced := coreId :: p.unannounced }

/-- The loop over the pending requests, and whether it ends. -/
def recount (p : CloudProvider D) :
    List ResourceCreationRequest → List Int → List ResourceCreationRequest × List Int × Bool
  | [], counts => ([], counts, true)
  | request :: requests, counts =>
    match p.computeSimultaneousCounts request.requested with
    | none => (request :: requests, counts, false)
    | some simultaneous =>
      let rest := p.recount requests (addCoreCounts counts simultaneous)
      ({ request with requestedSimultaneousTaskCount := simultaneous } :: rest.1, rest.2)

/-- The types are given new slots. -/
def announce (p : CloudProvider D) (descriptions : List (CloudInstanceTypeDescription D)) : CloudProvider D :=
  { p with descriptions := descriptions, unannounced := [] }

def newCoreElementsDetected (p : CloudProvider D) (newCores : List CoreId) : CloudProvider D :=
  let refreshed := refreshTypes canHostSimultaneously p.coreManager newCores (p.types.map Prod.snd) p.descriptions
  let q := p.announce refreshed.1
  if refreshed.2 then
    let recounted := q.recount p.pendingRequests (List.replicate p.coreManager.length 0)
    { q with pendingRequests := recounted.1, pendingCoreCount := recounted.2.1 }
  else q

/-- A new instance type, of the table or not. -/
def newType (p : CloudProvider D) (rd : D) : CloudProvider D :=
  { p with
    descriptions := p.descriptions ++ [CloudInstanceTypeDescription.new canHostSimultaneously p.coreManager rd] }

def addInstanceType (p : CloudProvider D) (name : String) (rd : D) : CloudProvider D :=
  { p.newType canHostSimultaneously rd with
    types := (p.types.filter fun entry => entry.1 ≠ name) ++ [(name, p.descriptions.length)] }

/-- A provider without types makes one up for whoever asks. -/
def getCompatibleTypes (p : CloudProvider D) (requested : D) : CloudProvider D :=
  if p.types = [] then p.newType canHostSimultaneously requested else p

/-- `new ResourceCreationRequest`. -/
def newRequest (p : CloudProvider D) (composition : List (TypeId × Int)) (simultaneous : List (List Int)) :
    ResourceCreationRequest :=
  ⟨p.nextRequest, composition, simultaneous⟩

/-- A request that the connector accepts. -/
def requestResourceCreation (p : CloudProvider D) (composition : List (TypeId × Int)) : CloudProvider D :=
  match p.computeSimultaneousCounts composition with
  | none => p
  | some simultaneous =>
    { p with
      currentVMCount := p.currentVMCount + instances composition
      pendingRequests := p.pendingRequests ++ [p.newRequest composition simultaneous]
      pendingCoreCount := addCoreCounts p.pendingCoreCount simultaneous
      nextRequest := p.nextRequest + 1 }

def removeRequest (p : CloudProvider D) (request : ResourceCreationRequest) : CloudProvider D :=
  { p with
    currentVMCount := p.currentVMCount - instances request.requested
    pendingRequests := p.pendingRequests.eraseP fun r => r.id = request.id
    pendingCoreCount := subCoreCounts p.pendingCoreCount request.requestedSimultaneousTaskCount }

def refusedCreation (p : CloudProvider D) (id : RequestId) : Option (CloudProvider D) :=
  (p.pendingRequests.find? fun r => r.id = id).map fun request => p.removeRequest request

def confirmedCreation (p : CloudProvider D) (id : RequestId) (worker : WorkerId) (granted : List (TypeId × Int)) :
    Option (CloudProvider D) :=
  (p.pendingRequests.find? fun r => r.id = id).map fun request =>
    let q := p.removeRequest request
    { q with
      currentVMCount := q.currentVMCount + instances granted
      granted := q.granted + instances granted
      hostedWorkers :=
        -- the loop over the cores of the request has raised
        if p.pendingCoreCount.length < request.requestedSimultaneousTaskCount.length then q.hostedWorkers
        else worker :: q.hostedWorkers }

def requestResourceReduction (p : CloudProvider D) (worker : WorkerId) (emptied : Bool)
    (reduction : List (TypeId × Int)) : CloudProvider D :=
  { p with
    currentVMCount := p.currentVMCount - instances reduction
    reduced := p.reduced + instances reduction
    hostedWorkers := if emptied then p.hostedWorkers.erase worker else p.hostedWorkers }

/-- Who registers implementations announces their cores. -/
def step (p : CloudProvider D) : CloudStep D → Option (CloudProvider D)
  | .registerNewImplementations coreId impls =>
    if coreId ≤ p.coreManager.length then some (p.registerNewImplementations coreId impls) else none
  | .newCoreElementsDetected newCores =>
    if (∀ coreId ∈ p.unannounced, coreId ∈ newCores) ∧ ∀ coreId ∈ newCores, coreId < p.coreManager.length then
      some (p.newCoreElementsDetected canHostSimultaneously newCores)
    else none
  | .addInstanceType name rd => some (p.addInstanceType canHostSimultaneously name rd)
  | .getCompatibleTypes requested => some (p.getCompatibleTypes canHostSimultaneously requested)
  | .requestResourceCreation composition accepted =>
    if ∀ entry ∈ composition, entry.1 < p.descriptions.length then
      some (if accepted then p.requestResourceCreation composition else p)
    else none
  | .refusedCreation id => p.refusedCreation id
  | .confirmedCreation id worker granted => p.confirmedCreation id worker granted
  | .requestResourceReduction worker emptied reduction =>
    if worker ∈ p.hostedWorkers then some (p.requestResourceReduction worker emptied reduction) else none

/-- The counters are those of the requests that are pending, each of which
counts what its types give. -/
structure Accounted (p : CloudProvider D) : Prop where
  currentVMCount : p.currentVMCount =
    (p.pendingRequests.map fun r => instances r.requested).sum + p.granted - p.reduced
  cores : p.unannounced = [] → p.pendingCoreCount.length = p.coreManager.length
  pendingCoreCount : ∀ coreId n, p.pendingCoreCount[coreId]? = some n →
    n = (p.pendingRequests.map fun r => coreSlots (r.requestedSimultaneousTaskCount.getD coreId [])).sum
  simultaneous : p.unannounced = [] → ∀ r ∈ p.pendingRequests,
    r.requestedSimultaneousTaskCount = p.simultaneousCounts r.requested
  restored : ∀ composition q, (p.requestResourceCreation composition).refusedCreation p.nextRequest = some q →
    q.currentVMCount = p.currentVMCount ∧ q.pendingCoreCount = p.pendingCoreCount ∧
      q.pendingRequests = p.pendingRequests

/-- When cores are announced, every type of a pending request is one of the
provider's table, or has slots for all that is registered. -/
def Refreshes (p : CloudProvider D) : CloudStep D → Prop
  | .newCoreElementsDetected _ => ∀ r ∈ p.pendingRequests, ∀ entry ∈ r.requested,
      entry.1 ∈ p.types.map Prod.snd ∨ p.HasSlots [entry]
  | _ => True

/-! ## Sums over the pending requests -/

omit canHostSimultaneously in
/-- What the removed request adds is taken from the sum. -/
theorem sum_eraseP (f : ResourceCreationRequest → Int) {q : ResourceCreationRequest → Bool}
    {l : List ResourceCreationRequest} {r : ResourceCreationRequest} (h : l.find? q = some r) :
    (l.map f).sum = f r + ((l.eraseP q).map f).sum := by
  induction l with
  | nil => cases h
  | cons x l ih =>
    rw [List.find?_cons] at h
    cases hx : q x with
    | true =>
      rw [hx] at h
      cases h
      rw [List.eraseP_cons_of_pos hx, List.map_cons, List.sum_cons]
    | false =>
      rw [hx] at h
      have hx' : ¬ q x = true := by rw [hx]; decide
      rw [List.eraseP_cons_of_neg hx', List.map_cons, List.sum_cons, List.map_cons, List.sum_cons, ih h]
      omega

theorem addCoreCounts_get {counts : List Int} {simultaneous : List (List Int)} {coreId : Nat} {n : Int}
    (h : (addCoreCounts counts simultaneous)[coreId]? = some n) :
    ∃ m, counts[coreId]? = some m ∧ n = m + coreSlots (simultaneous.getD coreId []) := by
  unfold addCoreCounts at h
  rw [List.getElem?_mapIdx, Option.map_eq_some_iff] at h
  obtain ⟨m, hm, rfl⟩ := h
  exact ⟨m, hm, rfl⟩

theorem subCoreCounts_get {counts : List Int} {simultaneous : List (List Int)} {coreId : Nat} {n : Int}
    (h : (subCoreCounts counts simultaneous)[coreId]? = some n) :
    ∃ m, counts[coreId]? = some m ∧ n = m - coreSlots (simultaneous.getD coreId []) := by
  unfold subCoreCounts at h
  rw [List.getElem?_mapIdx, Option.map_eq_some_iff] at h
  obtain ⟨m, hm, rfl⟩ := h
  exact ⟨m, hm, rfl⟩

@[simp] theorem length_addCoreCounts (counts : List Int) (simultaneous : List (List Int)) :
    (addCoreCounts counts simultaneous).length = counts.length := List.length_mapIdx

@[simp] theorem length_subCoreCounts (counts : List Int) (simultaneous : List (List Int)) :
    (subCoreCounts counts simultaneous).length = counts.length := List.length_mapIdx

theorem sub_addCoreCounts (counts : List Int) (simultaneous : List (List Int)) :
    subCoreCounts (addCoreCounts counts simultaneous) simultaneous = counts := by
  refine List.ext_getElem? fun coreId => ?_
  unfold subCoreCounts addCoreCounts
  rw [List.getElem?_mapIdx, List.getElem?_mapIdx, Option.map_map]
  cases counts[coreId]? with
  | none => rfl
  | some n => simp

/-! ## Slots -/

section
variable {p q : CloudProvider D} {composition : List (TypeId × Int)} {cores : CoreManager D}
  {unannounced : List CoreId} {type : CloudInstanceTypeDescription D}

omit canHostSimultaneously

theorem hasSlots_iff : p.HasSlots composition ↔ ∀ entry ∈ composition, p.HasSlots [entry] := by
  constructor
  · intro h entry hentry coreId hc implId hi e he
    rw [List.mem_singleton.mp he]
    exact h coreId hc implId hi entry hentry
  · intro h coreId hc implId hi entry hentry
    exact h entry hentry coreId hc implId hi entry List.mem_cons_self

/-- The rows of a type are those of registered cores, and none is null. -/
structure Rowed (cores : CoreManager D) (type : CloudInstanceTypeDescription D) : Prop where
  length : type.slotsImpl.length ≤ cores.length
  isSome : ∀ row ∈ type.slotsImpl, row.isSome = true

/-- A type has a slot for every implementation of the cores that are not waiting to be announced. -/
def Tabled (cores : CoreManager D) (unannounced : List CoreId) (type : CloudInstanceTypeDescription D) : Prop :=
  ∀ coreId < cores.length, coreId ∈ unannounced ∨
    ∃ row, type.slotsImpl[coreId]? = some (some row) ∧ row.length = (cores.getD coreId []).length

theorem hasSlots_of_tabled {t : TypeId} {n : Int} (ht : p.descriptions[t]? = some type)
    (h : Tabled p.coreManager [] type) : p.HasSlots [(t, n)] := by
  intro coreId hc implId hi entry hentry
  rw [List.mem_singleton.mp hentry]
  obtain ⟨row, hrow, hlength⟩ := (h coreId hc).resolve_left List.not_mem_nil
  unfold slot
  rw [ht, Option.bind_some, hrow]
  show (row[implId]?).isSome = true
  rw [List.getElem?_eq_getElem (hlength ▸ hi)]
  rfl

end

theorem rowed_new (cores : CoreManager D) (rd : D) :
    Rowed cores (CloudInstanceTypeDescription.new canHostSimultaneously cores rd) where
  length := Nat.le_of_eq (List.length_map _)
  isSome row hrow := by
    obtain ⟨impls, -, rfl⟩ := List.mem_map.mp hrow
    rfl

theorem tabled_new (cores : CoreManager D) (unannounced : List CoreId) (rd : D) :
    Tabled cores unannounced (CloudInstanceTypeDescription.new canHostSimultaneously cores rd) := by
  intro coreId hc
  refine .inr ⟨CloudInstanceTypeDescription.slots canHostSimultaneously rd (cores.getD coreId []), ?_,
    List.length_map _⟩
  show (cores.map _)[coreId]? = _
  rw [List.getElem?_map, List.getElem?_eq_getElem hc]
  exact congrArg (fun impls => some (some (CloudInstanceTypeDescription.slots canHostSimultaneously rd impls)))
    (by rw [List.getD_eq_getElem?_getD, List.getElem?_eq_getElem hc]; rfl)

omit canHostSimultaneously in
/-- The rows after the announced ones are written. -/
theorem foldl_set_get (value : CoreId → Option (List Int)) (newCores : List CoreId) :
    ∀ (rows : List (Option (List Int))) {coreId : CoreId}, coreId < rows.length →
      (newCores.foldl (fun rows coreId => rows.set coreId (value coreId)) rows)[coreId]? =
        if coreId ∈ newCores then some (value coreId) else rows[coreId]? := by
  induction newCores with
  | nil => intro rows coreId _; rw [if_neg List.not_mem_nil]; rfl
  | cons c newCores ih =>
    intro rows coreId hc
    rw [List.foldl_cons, ih _ (by rw [List.length_set]; exact hc)]
    by_cases hin : coreId ∈ newCores
    · rw [if_pos hin, if_pos (List.mem_cons_of_mem _ hin)]
    · rw [if_neg hin]
      by_cases he : coreId = c
      · subst he
        rw [if_pos List.mem_cons_self, List.getElem?_set_self hc]
      · rw [List.getElem?_set_ne (Ne.symm he), if_neg (by simp [he, hin])]

omit canHostSimultaneously in
theorem foldl_set_length (value : CoreId → Option (List Int)) (newCores : List CoreId) :
    ∀ rows : List (Option (List Int)),
      (newCores.foldl (fun rows coreId => rows.set coreId (value coreId)) rows).length = rows.length := by
  induction newCores with
  | nil => intro rows; rfl
  | cons c newCores ih => intro rows; rw [List.foldl_cons, ih, List.length_set]

theorem length_refreshed {cores : CoreManager D} (newCores : List CoreId) {type : CloudInstanceTypeDescription D}
    (h : type.slotsImpl.length ≤ cores.length) :
    (type.refreshed canHostSimultaneously cores newCores).slotsImpl.length = cores.length := by
  unfold CloudInstanceTypeDescription.refreshed
  rw [foldl_set_length, List.length_append, List.length_replicate]
  omega

theorem tabled_refreshed {cores : CoreManager D} {unannounced newCores : List CoreId}
    {type : CloudInstanceTypeDescription D} (hrow : Rowed cores type) (htab : Tabled cores unannounced type)
    (hall : ∀ coreId ∈ unannounced, coreId ∈ newCores) :
    Tabled cores [] (type.refreshed canHostSimultaneously cores newCores) := by
  intro coreId hc
  refine .inr ?_
  have hlen : coreId <
      (type.slotsImpl ++ List.replicate (cores.length - type.slotsImpl.length) none).length := by
    have := hrow.length
    rw [List.length_append, List.length_replicate]
    omega
  unfold CloudInstanceTypeDescription.refreshed
  rw [foldl_set_get (fun c => some (CloudInstanceTypeDescription.slots canHostSimultaneously type.rd
    (cores.getD c []))) newCores _ hlen]
  by_cases hin : coreId ∈ newCores
  · exact ⟨_, if_pos hin, List.length_map _⟩
  · rw [if_neg hin]
    obtain ⟨row, hget, hlength⟩ := (htab coreId hc).resolve_left fun hu => hin (hall coreId hu)
    have hlt : coreId < type.slotsImpl.length := (List.getElem?_eq_some_iff.mp hget).1
    exact ⟨row, by rw [List.getElem?_append_left hlt]; exact hget, hlength⟩

/-- A type is brought up to date when the announced cores are those that have changed. -/
theorem update_tabled {cores : CoreManager D} {unannounced newCores : List CoreId}
    {type : CloudInstanceTypeDescription D} (hrow : Rowed cores type) (htab : Tabled cores unannounced type)
    (hall : ∀ coreId ∈ unannounced, coreId ∈ newCores) (hnew : ∀ coreId ∈ newCores, coreId < cores.length) :
    ∃ type', CloudInstanceTypeDescription.update canHostSimultaneously cores newCores type = some type' ∧
      Rowed cores type' ∧ Tabled cores [] type' := by
  have htab' := tabled_refreshed canHostSimultaneously hrow htab hall
  have hlen := length_refreshed canHostSimultaneously newCores hrow.length
  refine ⟨_, if_pos ⟨hrow.length, hrow.isSome, hnew⟩, ⟨Nat.le_of_eq hlen, fun row hmem => ?_⟩, htab'⟩
  obtain ⟨coreId, hlt, hget⟩ := List.mem_iff_getElem.mp hmem
  obtain ⟨row', hget', -⟩ := (htab' coreId (hlen ▸ hlt)).resolve_left List.not_mem_nil
  rw [List.getElem?_eq_getElem hlt, hget] at hget'
  cases hget'
  rfl

/-- Every type of the table is brought up to date, and the others are left alone. -/
theorem refreshTypes_spec {cores : CoreManager D} {unannounced newCores : List CoreId}
    (hall : ∀ coreId ∈ unannounced, coreId ∈ newCores) (hnew : ∀ coreId ∈ newCores, coreId < cores.length) :
    ∀ (ts : List TypeId) {descriptions : List (CloudInstanceTypeDescription D)},
      (∀ type ∈ descriptions, Rowed cores type) →
      (∀ t ∈ ts, ∃ type, descriptions[t]? = some type ∧ Tabled cores unannounced type) →
      let refreshed := refreshTypes canHostSimultaneously cores newCores ts descriptions
      refreshed.2 = true ∧ refreshed.1.length = descriptions.length ∧ (∀ type ∈ refreshed.1, Rowed cores type) ∧
        (∀ t, t ∉ ts → refreshed.1[t]? = descriptions[t]?) ∧
        ∀ t ∈ ts, ∃ type, refreshed.1[t]? = some type ∧ Tabled cores [] type
  | [], descriptions, hrow, _ =>
    ⟨rfl, rfl, hrow, fun _ _ => rfl, fun _ ht => absurd ht List.not_mem_nil⟩
  | t :: ts, descriptions, hrow, htab => by
    obtain ⟨type, hget, htype⟩ := htab t List.mem_cons_self
    have hlt : t < descriptions.length := (List.getElem?_eq_some_iff.mp hget).1
    obtain ⟨type', hupdate, hrow', htab'⟩ :=
      update_tabled canHostSimultaneously (hrow type (List.mem_of_getElem? hget)) htype hall hnew
    have hrows : ∀ x ∈ descriptions.set t type', Rowed cores x := by
      intro x hx
      rcases List.mem_or_eq_of_mem_set hx with hx | rfl
      · exact hrow x hx
      · exact hrow'
    -- a type that is up to date already counts as one that waits for no core
    have htabs : ∀ t' ∈ ts, ∃ x, (descriptions.set t type')[t']? = some x ∧ Tabled cores unannounced x := by
      intro t' ht'
      by_cases he : t' = t
      · subst he
        exact ⟨type', List.getElem?_set_self hlt, fun c hc => .inr ((htab' c hc).resolve_left List.not_mem_nil)⟩
      · rw [List.getElem?_set_ne (Ne.symm he)]
        exact htab t' (List.mem_cons_of_mem _ ht')
    obtain ⟨h1, h2, h3, h4, h5⟩ := refreshTypes_spec hall hnew ts hrows htabs
    have hstep : refreshTypes canHostSimultaneously cores newCores (t :: ts) descriptions =
        refreshTypes canHostSimultaneously cores newCores ts (descriptions.set t type') := by
      rw [refreshTypes, hget, Option.bind_some, hupdate]
    simp only [hstep]
    refine ⟨h1, h2.trans (List.length_set ..), h3, fun x hx => ?_, fun x hx => ?_⟩
    · obtain ⟨hne, hin⟩ := not_or.mp fun ho => hx (List.mem_cons.mpr ho)
      rw [h4 x hin]
      exact List.getElem?_set_ne (Ne.symm hne)
    · by_cases hin : x ∈ ts
      · exact h5 x hin
      · have he : x = t := (List.mem_cons.mp hx).resolve_right hin
        rw [h4 x hin, he, List.getElem?_set_self hlt]
        exact ⟨type', rfl, htab'⟩

/-! ## The provider -/

section
variable {p q : CloudProvider D}

omit canHostSimultaneously

/-- A count is the sum of what the requests hold of its core. -/
def Counted (counts : List Int) (requests : List ResourceCreationRequest) : Prop :=
  ∀ coreId n, counts[coreId]? = some n →
    n = (requests.map fun r => coreSlots (r.requestedSimultaneousTaskCount.getD coreId [])).sum

theorem Counted.append {counts : List Int} {requests : List ResourceCreationRequest} (h : Counted counts requests)
    (r : ResourceCreationRequest) :
    Counted (addCoreCounts counts r.requestedSimultaneousTaskCount) (requests ++ [r]) := by
  intro coreId n hn
  obtain ⟨m, hm, rfl⟩ := addCoreCounts_get hn
  rw [h coreId m hm, List.map_append, List.sum_append]
  simp

/-- The loop over the requests counts them all when none lacks a slot. -/
theorem recount_spec {counts : List Int} {done requests : List ResourceCreationRequest} (h : Counted counts done)
    (hslots : ∀ r ∈ requests, p.HasSlots r.requested) :
    Counted (p.recount requests counts).2.1 (done ++ (p.recount requests counts).1) ∧
      (p.recount requests counts).2.1.length = counts.length ∧
      (p.recount requests counts).1 =
        requests.map fun r => { r with requestedSimultaneousTaskCount := p.simultaneousCounts r.requested } := by
  induction requests generalizing counts done with
  | nil => exact ⟨by rw [recount, List.append_nil]; exact h, rfl, rfl⟩
  | cons r requests ih =>
    have hr : p.computeSimultaneousCounts r.requested = some (p.simultaneousCounts r.requested) :=
      if_pos (hslots r List.mem_cons_self)
    obtain ⟨h1, h2, h3⟩ := ih
      (h.append { r with requestedSimultaneousTaskCount := p.simultaneousCounts r.requested })
      fun x hx => hslots x (List.mem_cons_of_mem _ hx)
    have hstep : p.recount (r :: requests) counts =
        ({ r with requestedSimultaneousTaskCount := p.simultaneousCounts r.requested } ::
            (p.recount requests (addCoreCounts counts (p.simultaneousCounts r.requested))).1,
          (p.recount requests (addCoreCounts counts (p.simultaneousCounts r.requested))).2) := by
      rw [recount, hr]
    rw [hstep]
    refine ⟨?_, h2.trans (length_addCoreCounts ..), ?_⟩
    · rw [List.append_assoc] at h1
      exact h1
    · show _ :: _ = _
      rw [h3, List.map_cons]

/-- What a provider keeps besides its counters. -/
structure Sound (p : CloudProvider D) : Prop where
  rowed : ∀ type ∈ p.descriptions, Rowed p.coreManager type
  tabled : ∀ t ∈ p.types.map Prod.snd, ∃ type,
    p.descriptions[t]? = some type ∧ Tabled p.coreManager p.unannounced type
  ids : ∀ r ∈ p.pendingRequests, r.id < p.nextRequest
  compositions : ∀ r ∈ p.pendingRequests, ∀ entry ∈ r.requested, entry.1 < p.descriptions.length
  currentVMCount : p.currentVMCount =
    (p.pendingRequests.map fun r => instances r.requested).sum + p.granted - p.reduced
  cores : p.unannounced = [] → p.pendingCoreCount.length = p.coreManager.length
  counted : Counted p.pendingCoreCount p.pendingRequests
  simultaneous : p.unannounced = [] → ∀ r ∈ p.pendingRequests,
    r.requestedSimultaneousTaskCount = p.simultaneousCounts r.requested

/-- A request that has just been made is the one that is found under its identity. -/
theorem Sound.find_new (h : Sound p) (composition : List (TypeId × Int)) (simultaneous : List (List Int)) :
    (p.pendingRequests ++ [p.newRequest composition simultaneous]).find? (fun r => r.id = p.nextRequest) =
        some (p.newRequest composition simultaneous) ∧
      (p.pendingRequests ++ [p.newRequest composition simultaneous]).eraseP (fun r => r.id = p.nextRequest) =
        p.pendingRequests := by
  have hnot : ∀ r ∈ p.pendingRequests, ¬ decide (r.id = p.nextRequest) = true := by
    intro r hr
    rw [decide_eq_true_eq]
    exact Nat.ne_of_lt (h.ids r hr)
  constructor
  · rw [List.find?_append, List.find?_eq_none.mpr hnot]
    simp [newRequest]
  · rw [List.eraseP_append_right _ hnot]
    simp [newRequest]

theorem Sound.accounted (h : Sound p) : Accounted p where
  currentVMCount := h.currentVMCount
  cores := h.cores
  pendingCoreCount := h.counted
  simultaneous := h.simultaneous
  restored composition q hq := by
    cases hc : p.computeSimultaneousCounts composition with
    | none =>
      simp only [requestResourceCreation, hc] at hq
      obtain ⟨r, hr, -⟩ := Option.map_eq_some_iff.mp hq
      have hid := List.find?_some hr
      exact absurd (of_decide_eq_true hid) (Nat.ne_of_lt (h.ids r (List.mem_of_find?_eq_some hr)))
    | some simultaneous =>
      obtain ⟨hfind, herase⟩ := h.find_new composition simultaneous
      simp only [requestResourceCreation, hc, refusedCreation, hfind, Option.map_some, Option.some.injEq] at hq
      subst hq
      refine ⟨?_, sub_addCoreCounts .., herase⟩
      show p.currentVMCount + instances composition - instances composition = p.currentVMCount
      omega

theorem Sound.init (cores : CoreManager D) : Sound (init cores) where
  rowed _ h := absurd h List.not_mem_nil
  tabled _ h := absurd h List.not_mem_nil
  ids _ h := absurd h List.not_mem_nil
  compositions _ h := absurd h List.not_mem_nil
  currentVMCount := rfl
  cores _ := List.length_replicate
  counted coreId n hn := by
    exact (List.mem_replicate.mp (List.mem_of_getElem? hn)).2
  simultaneous _ _ h := absurd h List.not_mem_nil

/-! ## The steps -/

/-- Descriptions that are there keep their slots. -/
theorem simultaneousCounts_congr {composition : List (TypeId × Int)} (hcores : q.coreManager = p.coreManager)
    (hdesc : ∀ entry ∈ composition, q.descriptions[entry.1]? = p.descriptions[entry.1]?) :
    q.simultaneousCounts composition = p.simultaneousCounts composition := by
  unfold simultaneousCounts slot
  rw [hcores]
  congr 1
  funext coreId impls
  congr 1
  funext implId
  congr 1
  exact List.map_congr_left fun entry hentry => by rw [hdesc entry hentry]

theorem Sound.remove (h : Sound p) {request : ResourceCreationRequest}
    (hr : p.pendingRequests.find? (fun r => r.id = request.id) = some request) : Sound (p.removeRequest request) where
  rowed := h.rowed
  tabled := h.tabled
  ids r hmem := h.ids r (List.mem_of_mem_eraseP hmem)
  compositions r hmem := h.compositions r (List.mem_of_mem_eraseP hmem)
  currentVMCount := by
    have hsum := sum_eraseP (fun r => instances r.requested) hr
    have hvm := h.currentVMCount
    show p.currentVMCount - instances request.requested =
      ((p.pendingRequests.eraseP fun r => r.id = request.id).map fun r => instances r.requested).sum + p.granted - p.reduced
    omega
  cores hu := (length_subCoreCounts ..).trans (h.cores hu)
  counted coreId n hn := by
    obtain ⟨m, hm, rfl⟩ := subCoreCounts_get hn
    have hsum := sum_eraseP (fun r => coreSlots (r.requestedSimultaneousTaskCount.getD coreId [])) hr
    have hcount := h.counted coreId m hm
    show m - coreSlots (request.requestedSimultaneousTaskCount.getD coreId []) =
      ((p.pendingRequests.eraseP fun r => r.id = request.id).map
        fun r => coreSlots (r.requestedSimultaneousTaskCount.getD coreId [])).sum
    omega
  simultaneous hu r hmem := h.simultaneous hu r (List.mem_of_mem_eraseP hmem)

theorem Sound.request (h : Sound p) {composition : List (TypeId × Int)}
    (hc : ∀ entry ∈ composition, entry.1 < p.descriptions.length) :
    Sound (p.requestResourceCreation composition) := by
  unfold requestResourceCreation computeSimultaneousCounts
  by_cases hslots : p.HasSlots composition
  · rw [if_pos hslots]
    have hvm := h.currentVMCount
    refine {
      rowed := h.rowed, tabled := h.tabled, ids := fun r hr => ?_, compositions := fun r hr => ?_
      currentVMCount := ?_, cores := fun hu => (length_addCoreCounts ..).trans (h.cores hu)
      counted := h.counted.append (p.newRequest composition (p.simultaneousCounts composition))
      simultaneous := fun hu r hr => ?_ }
    · show r.id < p.nextRequest + 1
      rcases List.mem_append.mp hr with hr | hr
      · exact Nat.lt_succ_of_lt (h.ids r hr)
      · rw [List.mem_singleton.mp hr]
        exact Nat.lt_succ_self _
    · rcases List.mem_append.mp hr with hr | hr
      · exact h.compositions r hr
      · rw [List.mem_singleton.mp hr]
        exact hc
    · show p.currentVMCount + instances composition =
        ((p.pendingRequests ++ [p.newRequest composition (p.simultaneousCounts composition)]).map
          fun r => instances r.requested).sum + p.granted - p.reduced
      rw [List.map_append, List.sum_append]
      have hnew : instances (p.newRequest composition (p.simultaneousCounts composition)).requested =
        instances composition := rfl
      simp only [List.map_cons, List.map_nil, List.sum_cons, List.sum_nil, hnew]
      omega
    · rcases List.mem_append.mp hr with hr | hr
      · exact h.simultaneous hu r hr
      · rw [List.mem_singleton.mp hr]
        rfl
  · rw [if_neg hslots]
    exact h

end

theorem Sound.newType {p : CloudProvider D} (h : Sound p) (rd : D) : Sound (p.newType canHostSimultaneously rd) where
  rowed type htype := by
    rcases List.mem_append.mp htype with htype | htype
    · exact h.rowed type htype
    · rw [List.mem_singleton.mp htype]
      exact rowed_new canHostSimultaneously p.coreManager rd
  tabled t ht := by
    obtain ⟨type, hget, htype⟩ := h.tabled t ht
    exact ⟨type, List.getElem?_append_left (List.getElem?_eq_some_iff.mp hget).1 ▸ hget, htype⟩
  ids := h.ids
  compositions r hr entry hentry := by
    show entry.1 < (p.descriptions ++ [_]).length
    rw [List.length_append]
    exact Nat.lt_add_right _ (h.compositions r hr entry hentry)
  currentVMCount := h.currentVMCount
  cores := h.cores
  counted := h.counted
  simultaneous hu r hr := by
    have hsame : (p.newType canHostSimultaneously rd).simultaneousCounts r.requested =
        p.simultaneousCounts r.requested :=
      simultaneousCounts_congr rfl fun entry hentry =>
        List.getElem?_append_left (h.compositions r hr entry hentry)
    rw [hsame]
    exact h.simultaneous hu r hr

theorem Sound.addInstanceType {p : CloudProvider D} (h : Sound p) (name : String) (rd : D) :
    Sound (p.addInstanceType canHostSimultaneously name rd) := by
  have hnew := h.newType canHostSimultaneously rd
  refine {
    rowed := hnew.rowed, tabled := fun t ht => ?_, ids := h.ids, compositions := hnew.compositions
    currentVMCount := h.currentVMCount, cores := h.cores, counted := h.counted, simultaneous := hnew.simultaneous }
  obtain ⟨entry, hentry, rfl⟩ := List.mem_map.mp ht
  rcases List.mem_append.mp hentry with hentry | hentry
  · exact hnew.tabled entry.2 (List.mem_map_of_mem (List.mem_filter.mp hentry).1)
  · rw [List.mem_singleton.mp hentry]
    exact ⟨_, List.getElem?_concat_length .., tabled_new canHostSimultaneously p.coreManager p.unannounced rd⟩

section
variable {p : CloudProvider D}

omit canHostSimultaneously in
/-- Registering leaves the other cores as they are. -/
theorem registered_of_ne {coreId c : CoreId} {impls : List (Implementation D)} (hne : c ≠ coreId)
    (hlt : c < (p.registerNewImplementations coreId impls).coreManager.length)
    (hle : coreId ≤ p.coreManager.length) :
    c < p.coreManager.length ∧
      (p.registerNewImplementations coreId impls).coreManager.getD c [] = p.coreManager.getD c [] := by
  unfold registerNewImplementations at hlt ⊢
  simp only at hlt ⊢
  split at hlt
  next h =>
    rw [List.length_modify] at hlt
    rw [if_pos h, List.getD_eq_getElem?_getD, List.getD_eq_getElem?_getD, List.getElem?_modify_ne _ _ (Ne.symm hne)]
    exact ⟨hlt, rfl⟩
  next h =>
    rw [List.length_append, List.length_singleton] at hlt
    have hc : c < p.coreManager.length := Nat.lt_of_le_of_ne (Nat.le_of_lt_succ hlt)
      fun he => hne (he.trans (Nat.le_antisymm (Nat.le_of_not_lt h) hle))
    rw [if_neg h, List.getD_eq_getElem?_getD, List.getD_eq_getElem?_getD, List.getElem?_append_left hc]
    exact ⟨hc, rfl⟩

omit canHostSimultaneously in
theorem Sound.register (h : Sound p) {coreId : CoreId} (impls : List (Implementation D))
    (hle : coreId ≤ p.coreManager.length) : Sound (p.registerNewImplementations coreId impls) where
  rowed type htype := by
    have hrow := h.rowed type htype
    refine ⟨Nat.le_trans hrow.length ?_, hrow.isSome⟩
    show p.coreManager.length ≤ (if coreId < p.coreManager.length then _ else _ : CoreManager D).length
    split
    · exact Nat.le_of_eq (List.length_modify ..).symm
    · rw [List.length_append]
      exact Nat.le_add_right ..
  tabled t ht := by
    obtain ⟨type, hget, htype⟩ := h.tabled t ht
    refine ⟨type, hget, fun c hc => ?_⟩
    by_cases he : c = coreId
    · exact .inl (he ▸ List.mem_cons_self)
    · obtain ⟨hlt, hsame⟩ := registered_of_ne he hc hle
      rw [hsame]
      exact (htype c hlt).imp (List.mem_cons_of_mem _) id
  ids := h.ids
  compositions := h.compositions
  currentVMCount := h.currentVMCount
  cores hu := absurd hu (List.cons_ne_nil _ _)
  counted := h.counted
  simultaneous hu := absurd hu (List.cons_ne_nil _ _)

theorem Sound.detected (h : Sound p) {newCores : List CoreId}
    (hall : ∀ coreId ∈ p.unannounced, coreId ∈ newCores) (hnew : ∀ coreId ∈ newCores, coreId < p.coreManager.length)
    (hr : ∀ r ∈ p.pendingRequests, ∀ entry ∈ r.requested,
      entry.1 ∈ p.types.map Prod.snd ∨ p.HasSlots [entry]) :
    Sound (p.newCoreElementsDetected canHostSimultaneously newCores) := by
  obtain ⟨hdone, hlength, hrowed, hother, htabled⟩ :=
    refreshTypes_spec canHostSimultaneously hall hnew (p.types.map Prod.snd) h.rowed h.tabled
  have hq : p.newCoreElementsDetected canHostSimultaneously newCores = _ := if_pos hdone
  rw [hq]
  generalize refreshTypes canHostSimultaneously p.coreManager newCores (p.types.map Prod.snd) p.descriptions =
    refreshed at hdone hlength hrowed hother htabled
  have hslots : ∀ r ∈ p.pendingRequests, (p.announce refreshed.1).HasSlots r.requested := by
    intro r hmem
    refine hasSlots_iff.mpr fun entry hentry => ?_
    by_cases hin : entry.1 ∈ p.types.map Prod.snd
    · obtain ⟨type, hget, htype⟩ := htabled entry.1 hin
      exact hasSlots_of_tabled hget htype
    · intro coreId hc implId hi e he
      rw [List.mem_singleton.mp he]
      have := (hr r hmem entry hentry).resolve_left hin coreId hc implId hi entry List.mem_cons_self
      unfold slot at this ⊢
      rw [← hother entry.1 hin] at this
      exact this
  have hzero : Counted (List.replicate p.coreManager.length 0) [] := fun coreId n hn =>
    (List.mem_replicate.mp (List.mem_of_getElem? hn)).2
  obtain ⟨hcounted, hlen, hpending⟩ := recount_spec hzero hslots
  have hmap : ∀ {P : ResourceCreationRequest → Prop},
      (∀ r ∈ p.pendingRequests,
        P ⟨r.id, r.requested, (p.announce refreshed.1).simultaneousCounts r.requested⟩) →
      ∀ r ∈ ((p.announce refreshed.1).recount p.pendingRequests (List.replicate p.coreManager.length 0)).1,
        P r := by
    intro P hP r hmem
    rw [hpending] at hmem
    obtain ⟨r', hmem', rfl⟩ := List.mem_map.mp hmem
    exact hP r' hmem'
  refine {
    rowed := hrowed, tabled := fun t ht => htabled t ht, ids := hmap fun r hmem => h.ids r hmem
    compositions := hmap fun r hmem entry hentry => ?_, currentVMCount := ?_
    cores := fun _ => hlen.trans List.length_replicate, counted := hcounted
    simultaneous := fun _ => hmap fun r hmem => rfl }
  · show entry.1 < refreshed.1.length
    rw [hlength]
    exact h.compositions r hmem entry hentry
  · have hvm := h.currentVMCount
    show p.currentVMCount = (((p.announce refreshed.1).recount p.pendingRequests
      (List.replicate p.coreManager.length 0)).1.map fun r => instances r.requested).sum + p.granted - p.reduced
    rw [hvm, hpending, List.map_map]
    rfl

theorem Sound.step {q : CloudProvider D} {l : CloudStep D} (h : Sound p) (hl : p.Refreshes l)
    (hst : p.step canHostSimultaneously l = some q) : Sound q := by
  cases l with
  | registerNewImplementations coreId impls =>
    simp only [CloudProvider.step, Option.ite_none_right_eq_some] at hst
    obtain ⟨hle, hst⟩ := hst
    cases hst
    exact h.register impls hle
  | newCoreElementsDetected newCores =>
    simp only [CloudProvider.step, Option.ite_none_right_eq_some] at hst
    obtain ⟨⟨hall, hnew⟩, hst⟩ := hst
    cases hst
    exact h.detected canHostSimultaneously hall hnew hl
  | addInstanceType name rd =>
    cases hst
    exact h.addInstanceType canHostSimultaneously name rd
  | getCompatibleTypes requested =>
    cases hst
    unfold getCompatibleTypes
    split
    · exact h.newType canHostSimultaneously requested
    · exact h
  | requestResourceCreation composition accepted =>
    simp only [CloudProvider.step, Option.ite_none_right_eq_some] at hst
    obtain ⟨hc, hst⟩ := hst
    cases hst
    split
    · exact h.request hc
    · exact h
  | refusedCreation id =>
    obtain ⟨request, hfind, rfl⟩ := Option.map_eq_some_iff.mp hst
    have hid := List.find?_some hfind
    exact h.remove (of_decide_eq_true hid ▸ hfind)
  | confirmedCreation id worker granted =>
    obtain ⟨request, hfind, rfl⟩ := Option.map_eq_some_iff.mp hst
    have hid := List.find?_some hfind
    have hq := h.remove (of_decide_eq_true hid ▸ hfind)
    have hvm := hq.currentVMCount
    refine {
      rowed := hq.rowed, tabled := hq.tabled, ids := hq.ids, compositions := hq.compositions
      currentVMCount := ?_, cores := hq.cores, counted := hq.counted, simultaneous := hq.simultaneous }
    show (p.removeRequest request).currentVMCount + instances granted =
      ((p.removeRequest request).pendingRequests.map fun r => instances r.requested).sum +
        ((p.removeRequest request).granted + instances granted) - (p.removeRequest request).reduced
    omega
  | requestResourceReduction worker emptied reduction =>
    simp only [CloudProvider.step, Option.ite_none_right_eq_some] at hst
    obtain ⟨-, hst⟩ := hst
    cases hst
    have hvm := h.currentVMCount
    refine {
      rowed := h.rowed, tabled := h.tabled, ids := h.ids, compositions := h.compositions
      currentVMCount := ?_, cores := h.cores, counted := h.counted, simultaneous := h.simultaneous }
    show p.currentVMCount - instances reduction =
      (p.pendingRequests.map fun r => instances r.requested).sum + p.granted - (p.reduced + instances reduction)
    omega

end

/-- **The counters of a provider are those of its requests**, in every run of
a provider in which, when cores are announced, the types of the pending
requests are types of its table or have slots for all that is registered. -/
theorem accounted_of_refreshes (cores : CoreManager D) (labels : List (CloudStep D))
    (h : Along (step canHostSimultaneously) Refreshes (init cores) labels) :
    Always (step canHostSimultaneously) Accounted (init cores) labels :=
  always_of_along (I := Sound) (fun _ hp => hp.accounted)
    (fun _ _ _ hp hl hst => hp.step canHostSimultaneously hl hst) (Sound.init cores) h

omit canHostSimultaneously

/-- A machine of a type of the table is requested, a core is registered, and the machine is granted. -/
def grantedRun : List (CloudStep Unit) :=
  [.addInstanceType "small" (), .requestResourceCreation [(0, 1)] true,
    .registerNewImplementations 1 [⟨.method, ()⟩], .newCoreElementsDetected [1], .confirmedCreation 0 0 [(0, 1)]]

theorem accounted_of_refreshes_granted :
    Along (step fun _ _ => 2) Refreshes (init [[⟨.method, ()⟩]]) grantedRun ∧
      Always (step fun _ _ => 2) Accounted (init [[⟨.method, ()⟩]]) grantedRun := by
  have h : Along (step fun _ _ => 2) Refreshes (init [[⟨.method, ()⟩]]) grantedRun := by
    refine fun w hw => ⟨trivial, ?_⟩
    cases hw
    refine fun w hw => ⟨trivial, ?_⟩
    cases hw
    refine fun w hw => ⟨trivial, ?_⟩
    cases hw
    refine fun w hw => ⟨fun r hr entry hentry => .inl ?_, ?_⟩
    · rw [List.mem_singleton.mp hr] at hentry
      rw [List.mem_singleton.mp hentry]
      exact List.mem_cons_self
    cases hw
    exact fun w hw => ⟨trivial, trivial⟩
  exact ⟨h, accounted_of_refreshes (fun _ _ => 2) _ _ h⟩

/-- A machine of a type the provider has made up is requested; a core is registered. The slots of
the type are not computed anew, the access to them raises, and nothing is counted. -/
theorem pending_not_counted : ¬ Always (step fun _ _ => 2) Accounted (init [[⟨.method, ()⟩]])
    [.getCompatibleTypes (), .requestResourceCreation [(0, 1)] true,
      .registerNewImplementations 1 [⟨.method, ()⟩], .newCoreElementsDetected [1]] := by
  intro h
  have hlast := ((((h.2 _ rfl).2 _ rfl).2 _ rfl).2 _ rfl).pendingCoreCount 0 0 rfl
  exact absurd hlast (by decide)

end CloudProvider
end

end Compss.Cloud
