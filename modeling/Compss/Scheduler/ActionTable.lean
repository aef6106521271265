/-
`ActionSet` with its arrays: the table of the actions of each core, which
grows when a core is registered, and the counters kept beside it.

`removeAction` takes one off the counters whether it has found the action or
not; a core behind the end of the table raises, in `removeAllCompatibleActions`
after the actions before it have been taken out. What a worker can run is a
parameter: its executable cores are those with an executable implementation.
-/
import Compss.Scheduler.Types
import Compss.Lib.Run

namespace Compss.Scheduler

open Lib

inductive TableException
  | arrayIndexOutOfBounds
  deriving DecidableEq, Repr

structure ActionTable where
  noCore : List ActionId
  coreIndexed : List (List ActionId)
  counts : List Int
  totalActions : Int
  sameLength : counts.length = coreIndexed.length

/-- A worker, as the set asks it. -/
structure CompatibleWorker (ι : Type) where
  /-- `isCompatible` of an action without a core. -/
  isCompatible : ActionId → Bool
  executableCores : List CoreId
  executableImpls : CoreId → List ι
  executable : ∀ c, c ∈ executableCores ↔ executableImpls c ≠ []

/-- `updatedFeatures`: the implementations the worker can run, some at a time. -/
def CompatibleWorker.updatedFeatures {ι : Type} (isCompatible : ActionId → Bool) (coreCount : Nat)
    (getCoreImplementations : CoreId → List ι) (runs : ι → Bool) : CompatibleWorker ι where
  isCompatible := isCompatible
  executableCores := (List.range coreCount).filter fun c => (getCoreImplementations c).any runs
  executableImpls := fun c => if c < coreCount then (getCoreImplementations c).filter runs else []
  executable := by
    intro c
    simp only [List.mem_filter, List.mem_range, List.any_eq_true]
    split
    next h => simp [h, List.filter_eq_nil_iff]
    next h => simp [h]

namespace ActionTable

def new (coreCount : Nat) : ActionTable := ⟨[], List.replicate coreCount [], List.replicate coreCount 0, 0, by simp⟩

def updateCoreCount (newCoreCount : Nat) (t : ActionTable) : ActionTable where
  noCore := t.noCore
  coreIndexed := t.coreIndexed ++ List.replicate (newCoreCount - t.coreIndexed.length) []
  counts := t.counts ++ List.replicate (newCoreCount - t.coreIndexed.length) 0
  totalActions := t.totalActions
  sameLength := by simp [t.sameLength]

/-- The actions of a core and their counter, changed; the total as well. -/
def modifyCore (c : CoreId) (actions : List ActionId → List ActionId) (count : Int → Int) (total : Int) (t : ActionTable) :
    ActionTable where
  noCore := t.noCore
  coreIndexed := t.coreIndexed.modify c actions
  counts := t.counts.modify c count
  totalActions := total
  sameLength := by simp [t.sameLength]

/-- `CoreManager.getCoreCount()` is `coreCount`. -/
def addAction (coreCount : Nat) (core : Option CoreId) (a : ActionId) (t : ActionTable) :
    ActionTable × Except TableException Unit :=
  match core with
  | none => ({ t with noCore := t.noCore ++ [a], totalActions := t.totalActions + 1 }, .ok ())
  | some c =>
    let t := if c ≥ t.coreIndexed.length then t.updateCoreCount coreCount else t
    if c < t.coreIndexed.length then (t.modifyCore c (· ++ [a]) (· + 1) (t.totalActions + 1), .ok ())
    else (t, .error .arrayIndexOutOfBounds)

def removeAction (core : Option CoreId) (a : ActionId) (t : ActionTable) : ActionTable × Except TableException Unit :=
  match core with
  | none => ({ t with noCore := t.noCore.erase a, totalActions := t.totalActions - 1 }, .ok ())
  | some c =>
    if c < t.coreIndexed.length then (t.modifyCore c (·.erase a) (· - 1) (t.totalActions - 1), .ok ())
    else (t, .error .arrayIndexOutOfBounds)

/-- The loop over the executable cores. -/
def removeCores (t : ActionTable) : List CoreId → ActionTable × Except TableException (List ActionId)
  | [] => (t, .ok [])
  | c :: cores =>
    if c < t.coreIndexed.length then
      let rest := removeCores (t.modifyCore c (fun _ => []) (fun _ => 0) (t.totalActions - t.counts[c]?.getD 0)) cores
      (rest.1, rest.2.map (t.coreIndexed[c]?.getD [] ++ ·))
    else (t, .error .arrayIndexOutOfBounds)

/-- The set left, and the actions taken out of it. -/
def removeAllCompatibleActions {ι : Type} (w : CompatibleWorker ι) (t : ActionTable) :
    ActionTable × Except TableException (List ActionId) :=
  let runnable := t.noCore.filter w.isCompatible
  let rest := removeCores
    { t with noCore := t.noCore.filter fun a => !w.isCompatible a, totalActions := t.totalActions - runnable.length }
    w.executableCores
  (rest.1, rest.2.map (runnable ++ ·))

def removeAllActions (t : ActionTable) : ActionTable × List ActionId :=
  (⟨[], t.coreIndexed.map fun _ => [], t.counts.map fun _ => 0, 0, by simp [t.sameLength]⟩,
    t.noCore ++ t.coreIndexed.flatten)

/-! ## Members -/

def entriesFrom : Nat → List (List ActionId) → List (Option CoreId × ActionId)
  | _, [] => []
  | c, actions :: coreIndexed => actions.map (some c, ·) ++ entriesFrom (c + 1) coreIndexed

/-- The members of the set, each with its core. -/
def entries (t : ActionTable) : List (Option CoreId × ActionId) := t.noCore.map (none, ·) ++ entriesFrom 0 t.coreIndexed

/-- The counters are right. -/
structure Counted (t : ActionTable) : Prop where
  counts : t.counts = t.coreIndexed.map fun actions => (actions.length : Int)
  total : t.totalActions = t.entries.length

/-- Some implementation of the action can run on the worker. -/
def CanRun {ι : Type} (w : CompatibleWorker ι) : Option CoreId × ActionId → Prop
  | (none, a) => w.isCompatible a = true
  | (some c, _) => ∃ impl, impl ∈ w.executableImpls c

instance {ι : Type} (w : CompatibleWorker ι) : DecidablePred (CanRun w)
  | (none, a) => inferInstanceAs (Decidable (w.isCompatible a = true))
  | (some c, _) => 
    decidable_of_iff (w.executableImpls c ≠ []) ⟨List.exists_mem_of_ne_nil _, fun ⟨_, h⟩ => List.ne_nil_of_mem h⟩

/-- The actions of a core, or those without one. -/
def members (t : ActionTable) : Option CoreId → List ActionId
  | none => t.noCore
  | some c => t.coreIndexed[c]?.getD []

theorem entriesFrom_core {e : Option CoreId × ActionId} : ∀ {k : Nat} {coreIndexed : List (List ActionId)},
    e ∈ entriesFrom k coreIndexed → ∃ c : Nat, k ≤ c ∧ e.1 = some c
  | k, actions :: coreIndexed, h => by
    rcases List.mem_append.mp h with h | h
    · obtain ⟨a, -, rfl⟩ := List.mem_map.mp h
      exact ⟨k, le_rfl, rfl⟩
    · obtain ⟨c, hc, he⟩ := entriesFrom_core h
      exact ⟨c, by omega, he⟩

theorem length_entriesFrom_modify (f : List ActionId → List ActionId) :
    ∀ (k : Nat) (coreIndexed : List (List ActionId)) (c : Nat) (hc : c < coreIndexed.length),
      (entriesFrom k (coreIndexed.modify c f)).length + coreIndexed[c].length =
        (entriesFrom k coreIndexed).length + (f coreIndexed[c]).length
  | k, actions :: coreIndexed, 0, _ => by
    simp only [List.modify_zero_cons, entriesFrom, List.length_append, List.length_map, List.getElem_cons_zero]
    omega
  | k, actions :: coreIndexed, c + 1, hc => by
    have ih := length_entriesFrom_modify f (k + 1) coreIndexed c (by simpa using hc)
    simp only [List.modify_succ_cons, entriesFrom, List.length_append, List.length_map, List.getElem_cons_succ]
    omega

/-- The entries of a core that is emptied. -/
theorem entriesFrom_clear : ∀ (k : Nat) (coreIndexed : List (List ActionId)) (c : Nat),
    entriesFrom k (coreIndexed.modify c fun _ => []) =
      (entriesFrom k coreIndexed).filter fun e => e.1 ≠ some (k + c)
  | k, [], c => by simp [entriesFrom]
  | k, actions :: coreIndexed, 0 => by
    have hothers : (entriesFrom (k + 1) coreIndexed).filter (fun e => e.1 ≠ some k) = entriesFrom (k + 1) coreIndexed := by
      simp only [List.filter_eq_self, decide_eq_true_eq]
      intro e he heq
      obtain ⟨c, hc, hec⟩ := entriesFrom_core he
      rw [heq, Option.some.injEq] at hec
      omega
    simp only [List.modify_zero_cons, entriesFrom, List.map_nil, List.nil_append, List.filter_append, Nat.add_zero]
    rw [hothers, List.filter_map]
    simp [Function.comp_def]
  | k, actions :: coreIndexed, c + 1 => by
    have ih := entriesFrom_clear (k + 1) coreIndexed c
    have hcore : k + 1 + c = k + (c + 1) := by omega
    simp only [List.modify_succ_cons, entriesFrom, List.filter_append]
    rw [ih, hcore, List.filter_map]
    simp [Function.comp_def]

/-- The entries of a core are its actions. -/
theorem entriesFrom_filter : ∀ (k : Nat) (coreIndexed : List (List ActionId)) (c : Nat),
    ((entriesFrom k coreIndexed).filter fun e => e.1 = some (k + c)).map Prod.snd = coreIndexed[c]?.getD []
  | k, [], c => by simp [entriesFrom]
  | k, actions :: coreIndexed, 0 => by
    have hothers : (entriesFrom (k + 1) coreIndexed).filter (fun e => e.1 = some k) = [] := by
      simp only [List.filter_eq_nil_iff, decide_eq_true_eq]
      intro e he heq
      obtain ⟨c, hc, hec⟩ := entriesFrom_core he
      rw [heq, Option.some.injEq] at hec
      omega
    simp only [entriesFrom, List.filter_append, Nat.add_zero]
    rw [hothers, List.filter_map]
    simp [Function.comp_def]
  | k, actions :: coreIndexed, c + 1 => by
    have ih := entriesFrom_filter (k + 1) coreIndexed c
    have hcore : k + 1 + c = k + (c + 1) := by omega
    rw [hcore] at ih
    simp only [entriesFrom, List.filter_append, List.map_append]
    rw [ih, List.filter_map]
    simp [Function.comp_def]

/-! ## The counters -/

theorem Counted.counts_getElem? {t : ActionTable} (h : t.Counted) (c : CoreId) :
    t.counts[c]?.getD 0 = (t.coreIndexed[c]?.getD []).length := by
  rw [h.counts, List.getElem?_map]
  cases t.coreIndexed[c]? <;> rfl

theorem length_entries (t : ActionTable) : t.entries.length = t.noCore.length + (entriesFrom 0 t.coreIndexed).length := by
  simp [entries]

/-- The counters of a core that is changed are right when they are changed with it. -/
theorem counted_modifyCore_iff {t : ActionTable} (h : t.Counted) {c : Nat} (hc : c < t.coreIndexed.length)
    (f : List ActionId → List ActionId) (g : Int → Int) (total : Int) :
    (t.modifyCore c f g total).Counted ↔
      g (t.coreIndexed[c].length) = (f t.coreIndexed[c]).length ∧
        total = t.totalActions - t.coreIndexed[c].length + (f t.coreIndexed[c]).length := by
  have hlength := length_entriesFrom_modify f 0 t.coreIndexed c hc
  have htotal : total = (t.modifyCore c f g total).entries.length ↔
      total = t.totalActions - t.coreIndexed[c].length + (f t.coreIndexed[c]).length := by
    have ht := h.total
    rw [length_entries] at ht ⊢
    simp only [modifyCore]
    omega
  have hcounts : (t.counts.modify c g = (t.coreIndexed.modify c f).map fun actions => (actions.length : Int)) ↔
      g (t.coreIndexed[c].length) = (f t.coreIndexed[c]).length := by
    rw [h.counts]
    constructor
    · intro heq
      have := congrArg (·[c]?) heq
      simpa [List.getElem?_eq_getElem hc] using this
    · intro hg
      apply List.ext_getElem?
      intro i
      by_cases hi : c = i
      · subst hi
        simp [List.getElem?_eq_getElem hc, hg]
      · simp [List.getElem?_modify_ne, hi]
  constructor
  · rintro ⟨hcs, hts⟩
    exact ⟨hcounts.mp hcs, htotal.mp hts⟩
  · rintro ⟨hcs, hts⟩
    exact ⟨hcounts.mpr hcs, htotal.mpr hts⟩

theorem entriesFrom_empty : ∀ k n : Nat, entriesFrom k (List.replicate n []) = []
  | _, 0 => rfl
  | k, n + 1 => by simpa [List.replicate_succ, entriesFrom] using entriesFrom_empty (k + 1) n

theorem Counted.new (coreCount : Nat) : (ActionTable.new coreCount).Counted where
  counts := by simp [ActionTable.new]
  total := by simp [entries, ActionTable.new, entriesFrom_empty]

theorem entriesFrom_append_empty (n : Nat) : ∀ (k : Nat) (coreIndexed : List (List ActionId)),
    entriesFrom k (coreIndexed ++ List.replicate n []) = entriesFrom k coreIndexed
  | k, [] => by simpa [entriesFrom] using entriesFrom_empty k n
  | k, actions :: coreIndexed => by
    simp [entriesFrom, entriesFrom_append_empty n (k + 1) coreIndexed]

theorem entries_updateCoreCount (n : Nat) (t : ActionTable) : (t.updateCoreCount n).entries = t.entries := by
  simp [entries, updateCoreCount, entriesFrom_append_empty]

theorem Counted.updateCoreCount {t : ActionTable} (h : t.Counted) (n : Nat) : (t.updateCoreCount n).Counted where
  counts := by simp [ActionTable.updateCoreCount, h.counts]
  total := by
    rw [entries_updateCoreCount]
    exact h.total

theorem Counted.addAction {t : ActionTable} (h : t.Counted) (coreCount : Nat) (core : Option CoreId) (a : ActionId) :
    (t.addAction coreCount core a).1.Counted := by
  cases core with
  | none =>
    refine ⟨h.counts, ?_⟩
    have ht := h.total
    rw [length_entries] at ht ⊢
    simp only [ActionTable.addAction, List.length_append, List.length_singleton]
    omega
  | some c =>
    have hgrown : (if c ≥ t.coreIndexed.length then t.updateCoreCount coreCount else t).Counted := by
      split
      · exact h.updateCoreCount coreCount
      · exact h
    simp only [ActionTable.addAction]
    generalize (if c ≥ t.coreIndexed.length then t.updateCoreCount coreCount else t) = t at hgrown
    split
    next hc => exact (counted_modifyCore_iff hgrown hc _ _ _).mpr ⟨by simp, by simp; omega⟩
    next => exact hgrown

/-- The action is in the set, or its core is behind the end of the table. -/
def Removable (t : ActionTable) (core : Option CoreId) (a : ActionId) : Prop :=
  a ∈ t.members core ∨ ∃ c, core = some c ∧ t.coreIndexed.length ≤ c

instance (t : ActionTable) : ∀ core a, Decidable (t.Removable core a)
  | none, a => decidable_of_iff (a ∈ t.noCore) (by simp [Removable, members])
  | some c, a => decidable_of_iff (a ∈ t.members (some c) ∨ t.coreIndexed.length ≤ c) (by simp [Removable])

theorem counted_removeAction_iff {t : ActionTable} (h : t.Counted) (core : Option CoreId) (a : ActionId) :
    (t.removeAction core a).1.Counted ↔ t.Removable core a := by
  cases core with
  | none =>
    have ht := h.total
    rw [length_entries] at ht
    have hiff : t.Removable none a ↔ a ∈ t.noCore := by simp [Removable, members]
    rw [hiff]
    constructor
    · intro hcounted
      by_contra ha
      have htotal := hcounted.total
      rw [length_entries] at htotal
      simp only [removeAction, List.erase_of_not_mem ha] at htotal
      omega
    · intro ha
      refine ⟨h.counts, ?_⟩
      have hpos := List.length_pos_of_mem ha
      rw [length_entries]
      simp only [removeAction, List.length_erase_of_mem ha]
      omega
  | some c =>
    simp only [removeAction]
    split
    next hc =>
      rw [counted_modifyCore_iff h hc]
      have hiff : t.Removable (some c) a ↔ a ∈ t.coreIndexed[c] := by
        simp [Removable, members, List.getElem?_eq_getElem hc, Nat.not_le.mpr hc]
      rw [hiff]
      constructor
      · rintro ⟨hcount, -⟩
        by_contra ha
        rw [List.erase_of_not_mem ha] at hcount
        omega
      · intro ha
        have hpos := List.length_pos_of_mem ha
        rw [List.length_erase_of_mem ha]
        omega
    next hc => exact ⟨fun _ => .inr ⟨c, rfl, Nat.not_lt.mp hc⟩, fun _ => h⟩

/-! ## The compatible actions -/

theorem entries_modifyCore_clear (t : ActionTable) (c : Nat) (g : Int → Int) (total : Int) :
    (t.modifyCore c (fun _ => []) g total).entries = t.entries.filter fun e => e.1 ≠ some c := by
  have hclear := entriesFrom_clear 0 t.coreIndexed c
  rw [Nat.zero_add] at hclear
  simp only [entries, modifyCore, hclear, List.filter_append, List.filter_map]
  simp [Function.comp_def]

theorem entries_filter_core (t : ActionTable) (c : Nat) :
    (t.entries.filter fun e => e.1 = some c).map Prod.snd = t.coreIndexed[c]?.getD [] := by
  have hfilter := entriesFrom_filter 0 t.coreIndexed c
  rw [Nat.zero_add] at hfilter
  simp only [entries, List.filter_append, List.map_append, hfilter, List.filter_map]
  simp [Function.comp_def]

/-- Cores that are all in the table are emptied, one after the other. -/
theorem removeCores_spec : ∀ {cores : List CoreId} {t : ActionTable}, (∀ c ∈ cores, c < t.coreIndexed.length) →
    ∃ runnable, (t.removeCores cores).2 = .ok runnable ∧
      (t.removeCores cores).1.entries = t.entries.filter (fun e => ¬ ∃ c ∈ cores, e.1 = some c) ∧
      runnable.Perm ((t.entries.filter fun e => ∃ c ∈ cores, e.1 = some c).map Prod.snd)
  | [], t, _ => ⟨[], rfl, by simp [removeCores], by simp⟩
  | c :: cores, t, hcores => by
    have hc : c < t.coreIndexed.length := hcores c (by simp)
    set t' := t.modifyCore c (fun _ => []) (fun _ => 0) (t.totalActions - t.counts[c]?.getD 0) with ht'
    have hcores' : ∀ d ∈ cores, d < t'.coreIndexed.length := by
      intro d hd
      simpa [ht', modifyCore] using hcores d (by simp [hd])
    obtain ⟨runnable, hok, hentries, hperm⟩ := removeCores_spec hcores'
    have hcleared : t'.entries = t.entries.filter fun e => e.1 ≠ some c := t.entries_modifyCore_clear c _ _
    rw [hcleared] at hentries hperm
    refine ⟨t.coreIndexed[c]?.getD [] ++ runnable, ?_, ?_, ?_⟩
    · simp only [removeCores, hc, if_true, ← ht', hok]
      rfl
    · simp only [removeCores, hc, if_true, ← ht', hentries, List.filter_filter]
      congr 1
      funext e
      simp only [List.mem_cons, exists_eq_or_imp, not_or, Bool.decide_and, Bool.and_comm]
    · refine (hperm.append_left _).trans ?_
      rw [← entries_filter_core, ← List.map_append, List.filter_filter]
      refine List.Perm.map _ ?_
      -- what the core has, and what the others have of the rest
      have hsplit := List.filter_append_perm (fun e : Option CoreId × ActionId => decide (e.1 = some c))
        (t.entries.filter fun e => ∃ d ∈ c :: cores, e.1 = some d)
      refine List.Perm.trans (List.Perm.of_eq ?_) hsplit
      rw [List.filter_filter, List.filter_filter]
      congr 1
      · congr 1
        funext e
        by_cases h : e.1 = some c <;> simp [h]
      · congr 1
        funext e
        by_cases h : e.1 = some c <;> simp [h]

/-- A core that is not in the table raises. -/
theorem removeCores_error : ∀ {cores : List CoreId} {t : ActionTable}, (∃ c ∈ cores, t.coreIndexed.length ≤ c) →
    (t.removeCores cores).2 = .error .arrayIndexOutOfBounds
  | c :: cores, t, hcores => by
    unfold removeCores
    split
    next hc =>
      have hrest : ∃ d ∈ cores, (t.modifyCore c (fun _ => []) (fun _ => 0)
          (t.totalActions - t.counts[c]?.getD 0)).coreIndexed.length ≤ d := by
        obtain ⟨d, hd, hle⟩ := hcores
        rcases List.mem_cons.mp hd with rfl | hd
        · exact absurd hc (Nat.not_lt.mpr hle)
        · exact ⟨d, hd, by simpa [modifyCore] using hle⟩
      simp only [removeCores_error hrest]
      rfl
    next => rfl

theorem Counted.removeCores : ∀ {cores : List CoreId} {t : ActionTable}, t.Counted → (t.removeCores cores).1.Counted
  | [], t, h => h
  | c :: cores, t, h => by
    unfold ActionTable.removeCores
    split
    next hc =>
      refine Counted.removeCores ((counted_modifyCore_iff h hc _ _ _).mpr ⟨by simp, ?_⟩)
      rw [h.counts_getElem? c, List.getElem?_eq_getElem hc]
      simp
    next => exact h

theorem filter_canRun_core {ι : Type} (w : CompatibleWorker ι) (k : Nat) (coreIndexed : List (List ActionId)) :
    (entriesFrom k coreIndexed).filter (fun e => CanRun w e) =
        (entriesFrom k coreIndexed).filter (fun e => ∃ c ∈ w.executableCores, e.1 = some c) ∧
      (entriesFrom k coreIndexed).filter (fun e => ¬ CanRun w e) =
        (entriesFrom k coreIndexed).filter (fun e => ¬ ∃ c ∈ w.executableCores, e.1 = some c) := by
  have hiff : ∀ e ∈ entriesFrom k coreIndexed, CanRun w e ↔ ∃ c ∈ w.executableCores, e.1 = some c := by
    rintro ⟨core, a⟩ he
    obtain ⟨c, -, rfl⟩ := entriesFrom_core he
    simp only [CanRun, Option.some.injEq, exists_eq_right']
    rw [w.executable c]
    exact ⟨fun ⟨_, h⟩ => List.ne_nil_of_mem h, List.exists_mem_of_ne_nil _⟩
  refine ⟨List.filter_congr fun e he => ?_, List.filter_congr fun e he => ?_⟩
  · simp only [decide_eq_decide]
    exact hiff e he
  · simp only [decide_eq_decide]
    exact not_congr (hiff e he)

/-- The actions that can run are returned, and the others stay. -/
def RemovesCompatible {ι : Type} (w : CompatibleWorker ι) (t : ActionTable) : Prop :=
  ∃ runnable, (t.removeAllCompatibleActions w).2 = .ok runnable ∧
    (t.removeAllCompatibleActions w).1.entries = t.entries.filter (fun e => ¬ CanRun w e) ∧
    runnable.Perm ((t.entries.filter fun e => CanRun w e).map Prod.snd)

theorem removesCompatible_iff {ι : Type} (w : CompatibleWorker ι) (t : ActionTable) :
    t.RemovesCompatible w ↔ ∀ c ∈ w.executableCores, c < t.coreIndexed.length := by
  set t' : ActionTable := { t with
    noCore := t.noCore.filter fun a => !w.isCompatible a
    totalActions := t.totalActions - (t.noCore.filter w.isCompatible).length } with ht'
  constructor
  · rintro ⟨runnable, hok, -⟩
    by_contra hout
    push Not at hout
    have herror : (t'.removeCores w.executableCores).2 = .error .arrayIndexOutOfBounds := removeCores_error hout
    simp only [removeAllCompatibleActions, ← ht', herror] at hok
    cases hok
  · intro hin
    obtain ⟨runnable, hok, hentries, hperm⟩ := removeCores_spec (t := t') hin
    have hcore := filter_canRun_core w 0 t.coreIndexed
    have hstay : (t.noCore.map fun a => ((none : Option CoreId), a)).filter (fun e => ¬ CanRun w e) =
        (t.noCore.filter fun a => !w.isCompatible a).map (none, ·) := by
      rw [List.filter_map]
      congr 1
      refine List.filter_congr fun a _ => ?_
      simp [CanRun]
    have hgo : ((t.noCore.map fun a => ((none : Option CoreId), a)).filter (fun e => CanRun w e)).map Prod.snd =
        t.noCore.filter w.isCompatible := by
      rw [List.filter_map, List.map_map]
      simp only [Function.comp_def, List.map_id']
      refine List.filter_congr fun a _ => ?_
      rw [Bool.eq_iff_iff, decide_eq_true_iff]
      rfl
    refine ⟨t.noCore.filter w.isCompatible ++ runnable, ?_, ?_, ?_⟩
    · simp only [removeAllCompatibleActions, ← ht', hok]
      rfl
    · simp only [removeAllCompatibleActions, ← ht', hentries]
      simp only [entries, ht', List.filter_append, hstay, hcore.2]
      simp [List.filter_map, Function.comp_def]
    · rw [entries, List.filter_append, List.map_append, hgo, hcore.1]
      refine List.Perm.append_left _ (hperm.trans (List.Perm.of_eq ?_))
      simp only [entries, ht', List.filter_append, List.map_append]
      simp [List.filter_map, Function.comp_def]

theorem Counted.removeAllCompatibleActions {ι : Type} {t : ActionTable} (h : t.Counted) (w : CompatibleWorker ι) :
    (t.removeAllCompatibleActions w).1.Counted := by
  refine Counted.removeCores ⟨h.counts, ?_⟩
  have ht := h.total
  rw [length_entries] at ht ⊢
  have hsplit := List.length_eq_length_filter_add (l := t.noCore) w.isCompatible
  dsimp only
  omega

theorem Counted.removeAllActions (t : ActionTable) : t.removeAllActions.1.Counted where
  counts := by simp [ActionTable.removeAllActions, t.sameLength]
  total := by simp [entries, ActionTable.removeAllActions, entriesFrom_empty]

/-! ## Runs -/

inductive Op (ι : Type)
  | addAction (coreCount : Nat) (core : Option CoreId) (a : ActionId)
  | removeAction (core : Option CoreId) (a : ActionId)
  | removeAllCompatibleActions (w : CompatibleWorker ι)
  | removeAllActions
  | updateCoreCount (newCoreCount : Nat)

variable {ι : Type}

/-- What an operation leaves, also when it raises. -/
def step (t : ActionTable) : Op ι → Option ActionTable
  | .addAction coreCount core a => some (t.addAction coreCount core a).1
  | .removeAction core a => some (t.removeAction core a).1
  | .removeAllCompatibleActions w => some (t.removeAllCompatibleActions w).1
  | .removeAllActions => some t.removeAllActions.1
  | .updateCoreCount newCoreCount => some (t.updateCoreCount newCoreCount)

def Meets (t : ActionTable) : Op ι → Prop
  | .removeAllCompatibleActions w => t.RemovesCompatible w
  | _ => True

/-- An action that is removed is in the set, or its core behind the end of the
table; the cores a worker can execute are in the table. -/
def Finds (t : ActionTable) : Op ι → Prop
  | .removeAction core a => t.Removable core a
  | .removeAllCompatibleActions w => ∀ c ∈ w.executableCores, c < t.coreIndexed.length
  | _ => True

theorem finds_iff {s t : ActionTable} {op : Op ι} (h : s.Counted) (hstep : step s op = some t) :
    s.Finds op ↔ t.Counted ∧ s.Meets op := by
  cases op with
  | addAction coreCount core a =>
    cases hstep
    simp [Finds, Meets, h.addAction coreCount core a]
  | removeAction core a =>
    cases hstep
    simp [Finds, Meets, counted_removeAction_iff h]
  | removeAllCompatibleActions w =>
    cases hstep
    simp only [Finds, Meets, removesCompatible_iff, h.removeAllCompatibleActions w, true_and]
  | removeAllActions =>
    cases hstep
    simp [Finds, Meets, Counted.removeAllActions s]
  | updateCoreCount n =>
    cases hstep
    simp [Finds, Meets, h.updateCoreCount n]

/-- **When the action set counts its members.** In every run of its operations
from a new set, the counter of each core is the number of its members and the
total the number of all, in every state, and every `removeAllCompatibleActions`
takes out exactly the actions some implementation of which can run on the
worker, exactly if every action removed by `removeAction` is in the set, unless
its core is behind the end of the table, and the executable cores of every
worker are in the table. -/
theorem counts_members (coreCount : Nat) (ops : List (Op ι)) :
    Lib.Always step Counted (ActionTable.new coreCount) ops ∧ Lib.Along step Meets (ActionTable.new coreCount) ops ↔
      Lib.Along step Finds (ActionTable.new coreCount) ops :=
  Lib.always_and_along_iff (fun _ _ _ => finds_iff) (Counted.new coreCount)

/-- An action that is not there is taken off both counters. -/
theorem removeAction_absent :
    let t := ((ActionTable.new 1).removeAction (some 0) 7).1
    t.entries = [] ∧ t.counts = [-1] ∧ t.totalActions = -1 := by
  refine ⟨by decide, by decide, by decide⟩

/-! ## The set without the table -/

/-- The set as the scheduler's model has it: each core with its actions, none
behind the end of the table. -/
def toActionSet (t : ActionTable) : ActionSet where
  noCore := t.noCore
  coreIndexed := fun c => t.coreIndexed[c]?.getD []
  counts := fun c => t.counts[c]?.getD 0
  totalActions := t.totalActions

theorem toActionSet_updateCoreCount (n : Nat) (t : ActionTable) : (t.updateCoreCount n).toActionSet = t.toActionSet := by
  have hget : ∀ {β : Type} (l : List β) (k : Nat) (b : β) (c : Nat), (l ++ List.replicate k b)[c]?.getD b = l[c]?.getD b := by
    intro β l k b c
    rw [List.getElem?_append]
    split
    next => rfl
    next h =>
      rw [List.getElem?_eq_none (Nat.not_lt.mp h), List.getElem?_replicate]
      split <;> rfl
  simp only [toActionSet, updateCoreCount, hget]

theorem toActionSet_modifyCore {t : ActionTable} {c : Nat} (hc : c < t.coreIndexed.length)
    (f : List ActionId → List ActionId) (g : Int → Int) (total : Int) :
    (t.modifyCore c f g total).toActionSet =
      { t.toActionSet with
        coreIndexed := Function.update t.toActionSet.coreIndexed c (f (t.toActionSet.coreIndexed c))
        counts := Function.update t.toActionSet.counts c (g (t.toActionSet.counts c))
        totalActions := total } := by
  have hget : ∀ {β : Type} (l : List β) (h : β → β) (b : β), c < l.length →
      (fun d => (l.modify c h)[d]?.getD b) = Function.update (fun d => l[d]?.getD b) c (h (l[c]?.getD b)) := by
    intro β l h b hl
    funext d
    by_cases hd : d = c
    · subst hd
      simp [List.getElem?_eq_getElem hl]
    · rw [Function.update_of_ne hd, List.getElem?_modify_ne _ _ (Ne.symm hd)]
  simp only [toActionSet, modifyCore, hget t.coreIndexed f [] hc, hget t.counts g 0 (t.sameLength ▸ hc)]

theorem toActionSet_addAction {t : ActionTable} {coreCount : Nat} {core : Option CoreId} {a : ActionId}
    (h : (t.addAction coreCount core a).2 = .ok ()) :
    (t.addAction coreCount core a).1.toActionSet = t.toActionSet.addAction core a := by
  cases core with
  | none => rfl
  | some c =>
    simp only [addAction] at h ⊢
    have hgrown : (if c ≥ t.coreIndexed.length then t.updateCoreCount coreCount else t).toActionSet = t.toActionSet := by
      split
      · exact t.toActionSet_updateCoreCount coreCount
      · rfl
    rw [← hgrown]
    generalize (if c ≥ t.coreIndexed.length then t.updateCoreCount coreCount else t) = t at h
    split at h
    next hc =>
      rw [if_pos hc, toActionSet_modifyCore hc]
      rfl
    next => cases h

theorem toActionSet_removeCores : ∀ {cores : List CoreId} {t : ActionTable}, (∀ c ∈ cores, c < t.coreIndexed.length) →
    (t.removeCores cores).1.toActionSet = (t.toActionSet.removeCores cores).1 ∧
      (t.removeCores cores).2 = .ok (t.toActionSet.removeCores cores).2
  | [], t, _ => ⟨rfl, rfl⟩
  | c :: cores, t, hcores => by
    have hc : c < t.coreIndexed.length := hcores c (by simp)
    have hcores' : ∀ d ∈ cores, d < (t.modifyCore c (fun _ => []) (fun _ => 0)
        (t.totalActions - t.counts[c]?.getD 0)).coreIndexed.length := by
      intro d hd
      simpa [modifyCore] using hcores d (by simp [hd])
    obtain ⟨hset, hok⟩ := toActionSet_removeCores hcores'
    rw [toActionSet_modifyCore hc] at hset hok
    simp only [removeCores, hc, if_true, ActionSet.removeCores]
    exact ⟨hset, by rw [hok]; rfl⟩

/-- With the cores of the worker in the table, `removeAllCompatibleActions` does to
the set what the scheduler's model says. -/
theorem toActionSet_removeAllCompatibleActions {t : ActionTable} {w : CompatibleWorker ι}
    (h : ∀ c ∈ w.executableCores, c < t.coreIndexed.length) :
    (t.removeAllCompatibleActions w).1.toActionSet =
        (t.toActionSet.removeAllCompatibleActions w.isCompatible w.executableCores).1 ∧
      (t.removeAllCompatibleActions w).2 =
        .ok (t.toActionSet.removeAllCompatibleActions w.isCompatible w.executableCores).2 := by
  obtain ⟨hset, hok⟩ := toActionSet_removeCores (t := { t with
    noCore := t.noCore.filter fun a => !w.isCompatible a
    totalActions := t.totalActions - (t.noCore.filter w.isCompatible).length }) h
  exact ⟨hset, by simp only [removeAllCompatibleActions, hok]; rfl⟩

end ActionTable

end Compss.Scheduler
