/-
The tables of what a worker can execute: computed anew (`updatedFeatures`), and
for the core elements that were registered or changed (`updatedCoreElements`).

The second grows the old tables: a core element that is not updated keeps its
entries, one that is has them computed as in the first, except that its entry
of `coreSimultaneousTasks` stays what a new array holds.
-/
import Compss.Lib.Run
import Compss.Lib.Traverse
import Mathlib

namespace Compss.Resources

/-- What the classes of workers define of an implementation: its number within
its core element, whether the worker has what it asks for, how many of it fit
at once, and what the limit of tasks makes of that. -/
structure WorkerClass (ι : Type) where
  implementationId : ι → Nat
  canRun : ι → Bool
  simultaneousCapacity : ι → Int
  limitIdealSimultaneousTasks : Int → Int

/-- The implementations of each core element, as `CoreManager` holds them. -/
abbrev CoreImplementations (ι : Type) := List (List ι)

/-- The tables; all but the first are indexed by the core element. -/
structure WorkerTables (ι : Type) where
  executableCores : List Nat
  executableImpls : List (List ι)
  implSimultaneousTasks : List (List Int)
  coreSimultaneousTasks : List Int
  idealSimultaneousTasks : List Int

/-- The entries of one core element. -/
structure CoreEntries (ι : Type) where
  executableCore : Bool
  executableImpls : List ι
  implSimultaneousTasks : List Int
  coreSimultaneousTasks : Int
  idealSimultaneousTasks : Int

namespace WorkerTables

variable {ι : Type}

/-- The arrays, filled core by core. -/
def ofEntries (entries : List (CoreEntries ι)) : WorkerTables ι where
  executableCores := (List.range entries.length).filter fun coreId =>
    (entries[coreId]?.map CoreEntries.executableCore).getD false
  executableImpls := entries.map CoreEntries.executableImpls
  implSimultaneousTasks := entries.map CoreEntries.implSimultaneousTasks
  coreSimultaneousTasks := entries.map CoreEntries.coreSimultaneousTasks
  idealSimultaneousTasks := entries.map CoreEntries.idealSimultaneousTasks

/-- The constructor. -/
def new (cores : CoreImplementations ι) : WorkerTables ι where
  executableCores := []
  executableImpls := cores.map fun _ => []
  implSimultaneousTasks := cores.map fun impls => List.replicate impls.length 0
  coreSimultaneousTasks := cores.map fun _ => 0
  idealSimultaneousTasks := cores.map fun _ => 0

section
variable (w : WorkerClass ι)

/-- One turn of the loop over the implementations of a core element. -/
def scanImplementation (entries : CoreEntries ι) (impl : ι) : CoreEntries ι :=
  if w.canRun impl then
    let simultaneousCapacity := w.simultaneousCapacity impl
    let entries := { entries with
      idealSimultaneousTasks := max entries.idealSimultaneousTasks simultaneousCapacity
      implSimultaneousTasks := entries.implSimultaneousTasks.set (w.implementationId impl) simultaneousCapacity }
    if simultaneousCapacity > 0 then
      { entries with executableImpls := entries.executableImpls ++ [impl], executableCore := true }
    else entries
  else entries

/-- The loop over the implementations of a core element. -/
def scanImplementations (impls : List ι) : CoreEntries ι :=
  impls.foldl (scanImplementation w)
    { executableCore := false
      executableImpls := []
      implSimultaneousTasks := List.replicate impls.length 0
      coreSimultaneousTasks := 0
      idealSimultaneousTasks := 0 }

/-- One turn of the loop of `updatedFeatures`. -/
def fullEntries (impls : List ι) : CoreEntries ι :=
  let entries := scanImplementations w impls
  if entries.executableCore then
    { entries with coreSimultaneousTasks := w.limitIdealSimultaneousTasks entries.idealSimultaneousTasks }
  else entries

def updatedFeatures (cores : CoreImplementations ι) : WorkerTables ι := ofEntries (cores.map (fullEntries w))

/-- The entries a core element has, if the arrays reach so far. -/
def oldEntries (t : WorkerTables ι) (coreId : Nat) : Option (CoreEntries ι) := do
  let executableImpls ← t.executableImpls[coreId]?
  let implSimultaneousTasks ← t.implSimultaneousTasks[coreId]?
  let coreSimultaneousTasks ← t.coreSimultaneousTasks[coreId]?
  let idealSimultaneousTasks ← t.idealSimultaneousTasks[coreId]?
  some ⟨coreId ∈ t.executableCores, executableImpls, implSimultaneousTasks, coreSimultaneousTasks, idealSimultaneousTasks⟩

/-- One turn of the loop of `updatedCoreElements`. -/
def updatedEntries (t : WorkerTables ι) (updatedCoreIds : List Nat) (coreId : Nat) (impls : List ι) :
    Option (CoreEntries ι) :=
  if coreId ∈ updatedCoreIds then some (scanImplementations w impls) else t.oldEntries coreId

/-- None when an index is out of the bounds of an array: of an updated core
element, of one that was executable, or of one whose old entries are read. -/
def updatedCoreElements (t : WorkerTables ι) (cores : CoreImplementations ι) (updatedCoreIds : List Nat) :
    Option (WorkerTables ι) :=
  if (∀ coreId ∈ updatedCoreIds, coreId < cores.length) ∧ ∀ coreId ∈ t.executableCores, coreId < cores.length then
    (cores.zipIdx.mapM fun (impls, coreId) => updatedEntries w t updatedCoreIds coreId impls).map ofEntries
  else none

end

end WorkerTables

/-! ## Lives -/

/-- A worker's tables, and the core elements they were last computed for. -/
structure TablesState (ι : Type) where
  cores : CoreImplementations ι
  tables : WorkerTables ι

inductive TablesUpdate (ι : Type)
  | updatedFeatures (cores : CoreImplementations ι)
  | updatedCoreElements (cores : CoreImplementations ι) (updatedCoreIds : List Nat)

/-- No core element is ever unregistered. -/
def tablesStep {ι : Type} (w : WorkerClass ι) (s : TablesState ι) : TablesUpdate ι → Option (TablesState ι)
  | .updatedFeatures cores =>
    if s.cores.length ≤ cores.length then some ⟨cores, .updatedFeatures w cores⟩ else none
  | .updatedCoreElements cores updatedCoreIds =>
    if s.cores.length ≤ cores.length then
      (s.tables.updatedCoreElements w cores updatedCoreIds).map fun tables => ⟨cores, tables⟩
    else none

/-! ## Reading the tables -/

namespace WorkerTables

variable {ι : Type} {t t' : WorkerTables ι} {entries : List (CoreEntries ι)} {coreId n : Nat}

/-- The entries of a core element are the same. -/
structure SameEntries (t t' : WorkerTables ι) (coreId : Nat) : Prop where
  executableCores : coreId ∈ t.executableCores ↔ coreId ∈ t'.executableCores
  executableImpls : t.executableImpls[coreId]? = t'.executableImpls[coreId]?
  implSimultaneousTasks : t.implSimultaneousTasks[coreId]? = t'.implSimultaneousTasks[coreId]?
  coreSimultaneousTasks : t.coreSimultaneousTasks[coreId]? = t'.coreSimultaneousTasks[coreId]?
  idealSimultaneousTasks : t.idealSimultaneousTasks[coreId]? = t'.idealSimultaneousTasks[coreId]?

/-- The arrays are of one length, and what is executable is within it. -/
structure Consistent (t : WorkerTables ι) (n : Nat) : Prop where
  executableCores : ∀ coreId ∈ t.executableCores, coreId < n
  executableImpls : t.executableImpls.length = n
  implSimultaneousTasks : t.implSimultaneousTasks.length = n
  coreSimultaneousTasks : t.coreSimultaneousTasks.length = n
  idealSimultaneousTasks : t.idealSimultaneousTasks.length = n

theorem ofEntries_consistent (entries : List (CoreEntries ι)) : Consistent (ofEntries entries) entries.length where
  executableCores _ h := List.mem_range.mp (List.mem_filter.mp h).1
  executableImpls := List.length_map _
  implSimultaneousTasks := List.length_map _
  coreSimultaneousTasks := List.length_map _
  idealSimultaneousTasks := List.length_map _

theorem new_consistent (cores : CoreImplementations ι) : Consistent (new cores) cores.length where
  executableCores _ h := absurd h List.not_mem_nil
  executableImpls := List.length_map _
  implSimultaneousTasks := List.length_map _
  coreSimultaneousTasks := List.length_map _
  idealSimultaneousTasks := List.length_map _

/-- The arrays hold the entries they were filled with. -/
theorem oldEntries_ofEntries : (ofEntries entries).oldEntries coreId = entries[coreId]? := by
  cases h : entries[coreId]? with
  | none => simp [oldEntries, ofEntries, h]
  | some e =>
    obtain ⟨hlt, rfl⟩ := List.getElem?_eq_some_iff.mp h
    simp [oldEntries, ofEntries, hlt]

theorem Consistent.oldEntries_isSome (h : Consistent t n) : (t.oldEntries coreId).isSome ↔ coreId < n := by
  by_cases hlt : coreId < n
  · refine iff_of_true ?_ hlt
    have h1 := List.getElem?_eq_getElem (l := t.executableImpls) (h.executableImpls.symm ▸ hlt)
    have h2 := List.getElem?_eq_getElem (l := t.implSimultaneousTasks) (h.implSimultaneousTasks.symm ▸ hlt)
    have h3 := List.getElem?_eq_getElem (l := t.coreSimultaneousTasks) (h.coreSimultaneousTasks.symm ▸ hlt)
    have h4 := List.getElem?_eq_getElem (l := t.idealSimultaneousTasks) (h.idealSimultaneousTasks.symm ▸ hlt)
    simp [oldEntries, h1, h2, h3, h4]
  · refine iff_of_false ?_ hlt
    have h1 : t.executableImpls[coreId]? = none := List.getElem?_eq_none (by rw [h.executableImpls]; omega)
    simp [oldEntries, h1]

/-- Within consistent tables, the entries of a core element are those it reads. -/
theorem Consistent.sameEntries_iff {n' : Nat} (h : Consistent t n) (h' : Consistent t' n') (hn : coreId < n)
    (hn' : coreId < n') : SameEntries t t' coreId ↔ t.oldEntries coreId = t'.oldEntries coreId := by
  have h1 := List.getElem?_eq_getElem (l := t.executableImpls) (h.executableImpls.symm ▸ hn)
  have h2 := List.getElem?_eq_getElem (l := t.implSimultaneousTasks) (h.implSimultaneousTasks.symm ▸ hn)
  have h3 := List.getElem?_eq_getElem (l := t.coreSimultaneousTasks) (h.coreSimultaneousTasks.symm ▸ hn)
  have h4 := List.getElem?_eq_getElem (l := t.idealSimultaneousTasks) (h.idealSimultaneousTasks.symm ▸ hn)
  have h1' := List.getElem?_eq_getElem (l := t'.executableImpls) (h'.executableImpls.symm ▸ hn')
  have h2' := List.getElem?_eq_getElem (l := t'.implSimultaneousTasks) (h'.implSimultaneousTasks.symm ▸ hn')
  have h3' := List.getElem?_eq_getElem (l := t'.coreSimultaneousTasks) (h'.coreSimultaneousTasks.symm ▸ hn')
  have h4' := List.getElem?_eq_getElem (l := t'.idealSimultaneousTasks) (h'.idealSimultaneousTasks.symm ▸ hn')
  simp only [oldEntries, h1, h2, h3, h4, h1', h2', h3', h4', Option.bind_eq_bind, Option.bind_some, Option.some.injEq,
    CoreEntries.mk.injEq, decide_eq_decide]
  constructor
  · rintro ⟨g0, g1, g2, g3, g4⟩
    rw [h1, h1', Option.some.injEq] at g1
    rw [h2, h2', Option.some.injEq] at g2
    rw [h3, h3', Option.some.injEq] at g3
    rw [h4, h4', Option.some.injEq] at g4
    exact ⟨g0, g1, g2, g3, g4⟩
  · rintro ⟨g0, g1, g2, g3, g4⟩
    exact ⟨g0, by rw [h1, h1', g1], by rw [h2, h2', g2], by rw [h3, h3', g3], by rw [h4, h4', g4]⟩

/-! ## What is computed of a core element -/

section
variable (w : WorkerClass ι)

/-- The worker has room for some implementation. -/
def Executes (impls : List ι) : Prop := ∃ impl ∈ impls, w.canRun impl = true ∧ 0 < w.simultaneousCapacity impl

theorem scanImplementation_foldl (impls : List ι) (entries : CoreEntries ι) :
    ((impls.foldl (scanImplementation w) entries).executableCore = true ↔
      entries.executableCore = true ∨ Executes w impls) ∧
    (impls.foldl (scanImplementation w) entries).coreSimultaneousTasks = entries.coreSimultaneousTasks := by
  induction impls generalizing entries with
  | nil => exact ⟨⟨.inl, fun h => h.elim id fun ⟨_, hi, _⟩ => absurd hi List.not_mem_nil⟩, rfl⟩
  | cons impl impls ih =>
    obtain ⟨hexecutable, htasks⟩ := ih (scanImplementation w entries impl)
    have hcons : Executes w (impl :: impls) ↔
        (w.canRun impl = true ∧ 0 < w.simultaneousCapacity impl) ∨ Executes w impls := List.exists_mem_cons_iff ..
    rw [List.foldl_cons, hexecutable, htasks, hcons, ← or_assoc, scanImplementation]
    by_cases hrun : w.canRun impl = true
    · by_cases hcapacity : 0 < w.simultaneousCapacity impl
      · simp [hrun, hcapacity]
      · simp [hrun, hcapacity]
    · simp [hrun]

theorem scanImplementations_executableCore (impls : List ι) :
    (scanImplementations w impls).executableCore = true ↔ Executes w impls := by
  rw [scanImplementations, (scanImplementation_foldl w impls _).1]
  simp

theorem scanImplementations_coreSimultaneousTasks (impls : List ι) :
    (scanImplementations w impls).coreSimultaneousTasks = 0 := (scanImplementation_foldl w impls _).2

/-- The greatest capacity of the implementations the worker can run. -/
def idealTasks (impls : List ι) : Int := (scanImplementations w impls).idealSimultaneousTasks

/-- The two computations differ in the number of tasks of the core element. -/
theorem scan_eq_full_iff (impls : List ι) : scanImplementations w impls = fullEntries w impls ↔
    (Executes w impls → w.limitIdealSimultaneousTasks (idealTasks w impls) = 0) := by
  rw [← scanImplementations_executableCore, fullEntries]
  cases h : (scanImplementations w impls).executableCore with
  | false => simp
  | true =>
    have hzero := scanImplementations_coreSimultaneousTasks w impls
    rw [if_pos rfl]
    constructor
    · intro he _
      rw [← hzero, idealTasks]
      exact (congrArg CoreEntries.coreSimultaneousTasks he).symm
    · intro hlimit
      have := hlimit rfl
      rw [idealTasks] at this
      rw [this, ← hzero]
      exact congrArg (fun b => { scanImplementations w impls with executableCore := b }) h

end

/-! ## Updates -/

section
variable {w : WorkerClass ι} {cores : CoreImplementations ι} {ids : List Nat}

/-- An update fills the entry of each core element with those it computes for it,
or with its old ones. -/
theorem updatedCoreElements_eq_some_iff : t.updatedCoreElements w cores ids = some t' ↔
    ((∀ coreId ∈ ids, coreId < cores.length) ∧ ∀ coreId ∈ t.executableCores, coreId < cores.length) ∧
    ∃ entries, t' = ofEntries entries ∧ entries.length = cores.length ∧
      ∀ coreId impls, cores[coreId]? = some impls → updatedEntries w t ids coreId impls = entries[coreId]? := by
  rw [updatedCoreElements]
  split
  · next h =>
    rw [and_iff_right h, Option.map_eq_some_iff]
    refine exists_congr fun entries => ?_
    rw [Lib.mapM_eq_some_iff, List.forall₂_iff_get, and_comm, eq_comm (a := ofEntries entries)]
    refine and_congr_right fun _ => ⟨fun ⟨hlength, hall⟩ => ?_, fun ⟨hlength, hall⟩ => ?_⟩
    · rw [List.length_zipIdx] at hlength
      refine ⟨hlength.symm, fun coreId impls hi => ?_⟩
      obtain ⟨hlt, rfl⟩ := List.getElem?_eq_some_iff.mp hi
      have := hall coreId (by rw [List.length_zipIdx]; exact hlt) (hlength ▸ hlt)
      rw [List.getElem?_eq_getElem (hlength ▸ hlt)]
      simpa using this
    · refine ⟨by rw [List.length_zipIdx, hlength], fun i hi hi' => ?_⟩
      have hlt : i < cores.length := hlength ▸ hi'
      have := hall i cores[i] (List.getElem?_eq_getElem hlt)
      rw [List.getElem?_eq_getElem hi'] at this
      simpa using this
  · next h => exact iff_of_false (by simp) fun hall => h hall.1

theorem updatedFeatures_consistent (w : WorkerClass ι) (cores : CoreImplementations ι) :
    Consistent (updatedFeatures w cores) cores.length := by
  have h := ofEntries_consistent (cores.map (fullEntries w))
  rw [List.length_map] at h
  exact h

/-- The state a worker's tables are in after any updates. -/
theorem consistent_of_run {start : CoreImplementations ι} {updates : List (TablesUpdate ι)} {s : TablesState ι}
    (hrun : Lib.run (tablesStep w) ⟨start, new start⟩ updates = some s) : Consistent s.tables s.cores.length := by
  refine Lib.run_invariant_of_step (I := fun s => Consistent s.tables s.cores.length) (fun s a u hs hstep => ?_)
    (new_consistent start) hrun
  cases a with
  | updatedFeatures cores =>
    rw [tablesStep] at hstep
    split at hstep
    · cases hstep
      exact updatedFeatures_consistent w cores
    · cases hstep
  | updatedCoreElements cores ids =>
    rw [tablesStep] at hstep
    split at hstep
    · obtain ⟨tables, htables, rfl⟩ := Option.map_eq_some_iff.mp hstep
      obtain ⟨-, entries, rfl, hlength, -⟩ := updatedCoreElements_eq_some_iff.mp htables
      exact hlength ▸ ofEntries_consistent entries
    · cases hstep

/-- An update of registered core elements leaves for each what a full
computation would, and the others alone, exactly when it reads no entry the
tables do not have, and no core element it updates can be executed by a task. -/
theorem updatedCoreElements_agrees_iff {start : CoreImplementations ι} {updates : List (TablesUpdate ι)}
    {s : TablesState ι} (hrun : Lib.run (tablesStep w) ⟨start, new start⟩ updates = some s)
    (hgrows : s.cores.length ≤ cores.length) (hids : ∀ coreId ∈ ids, coreId < cores.length) :
    (∃ tables, s.tables.updatedCoreElements w cores ids = some tables ∧
      (∀ coreId ∈ ids, SameEntries tables (updatedFeatures w cores) coreId) ∧
      ∀ coreId < s.cores.length, coreId ∉ ids → SameEntries tables s.tables coreId) ↔
    (∀ coreId < cores.length, coreId ∉ ids → coreId < s.cores.length) ∧
      ∀ coreId ∈ ids, ∀ impls, cores[coreId]? = some impls → Executes w impls →
        w.limitIdealSimultaneousTasks (idealTasks w impls) = 0 := by
  have hs := consistent_of_run hrun
  have hfull := updatedFeatures_consistent w cores
  constructor
  · rintro ⟨tables, htables, hupdated, -⟩
    obtain ⟨-, entries, rfl, hlength, hentries⟩ := updatedCoreElements_eq_some_iff.mp htables
    constructor
    · intro coreId hlt hnot
      have := hentries coreId cores[coreId] (List.getElem?_eq_getElem hlt)
      rw [updatedEntries, if_neg hnot, List.getElem?_eq_getElem (hlength.symm ▸ hlt)] at this
      exact hs.oldEntries_isSome.mp (by rw [this]; rfl)
    · intro coreId hid impls himpls
      have hlt := hids coreId hid
      have hsame := ((ofEntries_consistent entries).sameEntries_iff hfull (hlength.symm ▸ hlt) hlt).mp (hupdated coreId hid)
      have := hentries coreId impls himpls
      rw [updatedEntries, if_pos hid] at this
      rw [oldEntries_ofEntries, ← this, updatedFeatures, oldEntries_ofEntries, List.getElem?_map, himpls,
        Option.map_some, Option.some.injEq, scan_eq_full_iff] at hsame
      exact hsame
  · rintro ⟨hold, hlimit⟩
    have hall : ∀ a ∈ cores.zipIdx, (updatedEntries w s.tables ids a.2 a.1).isSome := by
      rintro ⟨impls, coreId⟩ ha
      have hlt : coreId < cores.length := (List.getElem?_eq_some_iff.mp (List.mem_zipIdx_iff_getElem?.mp ha)).1
      rw [updatedEntries]
      split
      · rfl
      · next hnot => exact hs.oldEntries_isSome.mpr (hold coreId hlt hnot)
    obtain ⟨entries, hloop⟩ := Lib.mapM_isSome hall
    have htables : s.tables.updatedCoreElements w cores ids = some (ofEntries entries) := by
      rw [updatedCoreElements, if_pos ⟨hids, fun coreId h => by have := hs.executableCores coreId h; omega⟩]
      exact congrArg (Option.map ofEntries) hloop
    obtain ⟨-, entries', he, hlength, hentries⟩ := updatedCoreElements_eq_some_iff.mp htables
    refine ⟨_, htables, fun coreId hid => ?_, fun coreId hlt hnot => ?_⟩
    · have hlt := hids coreId hid
      rw [he, (ofEntries_consistent entries').sameEntries_iff hfull (hlength.symm ▸ hlt) hlt, oldEntries_ofEntries,
        ← hentries coreId cores[coreId] (List.getElem?_eq_getElem hlt), updatedEntries, if_pos hid, updatedFeatures,
        oldEntries_ofEntries, List.getElem?_map, List.getElem?_eq_getElem hlt, Option.map_some, Option.some.injEq,
        scan_eq_full_iff]
      exact hlimit coreId hid _ (List.getElem?_eq_getElem hlt)
    · have hlt' : coreId < cores.length := by omega
      rw [he, (ofEntries_consistent entries').sameEntries_iff hs (hlength.symm ▸ hlt') hlt, oldEntries_ofEntries,
        ← hentries coreId cores[coreId] (List.getElem?_eq_getElem hlt'), updatedEntries, if_neg hnot]

end

/-- A worker on which two of every implementation fit. -/
def twoTasks : WorkerClass Nat where
  implementationId impl := impl
  canRun _ := true
  simultaneousCapacity _ := 2
  limitIdealSimultaneousTasks ideal := ideal

/-- A core element without implementations is registered. -/
theorem updatedCoreElements_agrees_iff_twoTasks :
    (∃ tables, (new [[0]]).updatedCoreElements twoTasks [[0], []] [1] = some tables ∧
      (∀ coreId ∈ [1], SameEntries tables (updatedFeatures twoTasks [[0], []]) coreId) ∧
      ∀ coreId < [[0]].length, coreId ∉ [1] → SameEntries tables (new [[0]]) coreId) ↔
    (∀ coreId < [[0], []].length, coreId ∉ [1] → coreId < [[0]].length) ∧
      ∀ coreId ∈ [1], ∀ impls, [[0], []][coreId]? = some impls → Executes twoTasks impls →
        twoTasks.limitIdealSimultaneousTasks (idealTasks twoTasks impls) = 0 := by
  have hrun : Lib.run (tablesStep twoTasks) ⟨[[0]], new [[0]]⟩ [] = some ⟨[[0]], new [[0]]⟩ := rfl
  exact updatedCoreElements_agrees_iff hrun (by decide) (by decide)

/-- The registration of an implementation leaves its core element without tasks. -/
theorem updatedCoreElements_no_tasks :
    ¬ ∀ (w : WorkerClass Nat) (start cores : CoreImplementations Nat) (updates : List (TablesUpdate Nat))
      (s : TablesState Nat) (ids : List Nat), Lib.run (tablesStep w) ⟨start, new start⟩ updates = some s →
      s.cores.length ≤ cores.length → (∀ coreId ∈ ids, coreId < cores.length) →
      ∃ tables, s.tables.updatedCoreElements w cores ids = some tables ∧
        (∀ coreId ∈ ids, SameEntries tables (updatedFeatures w cores) coreId) ∧
        ∀ coreId < s.cores.length, coreId ∉ ids → SameEntries tables s.tables coreId := by
  intro h
  obtain ⟨tables, htables, hsame, -⟩ := h twoTasks [[]] [[0]] [] _ [0] rfl (by decide) (by decide)
  cases htables
  exact absurd (hsame 0 List.mem_cons_self).coreSimultaneousTasks (by decide)

end WorkerTables

end Compss.Resources
