/-
`WorkerPool`: the resources of the pool, and which of the dynamic ones are
critical (must not be destroyed for lack of work).

Critical resources are also kept in an order. `defineCriticalSet` goes through
it and leaves critical what can execute a core that nothing before can; the
rest becomes non critical, for good. A deleted resource leaves its set but not
the order, and a resource that is not critical is never looked at again.
-/
import Compss.Lib.Run
import Mathlib.Data.String.Basic
import Mathlib.Order.Compare

namespace Compss.Resources

structure WorkerPool (ω : Type) where
  staticSet : List ω
  criticalSet : List ω
  nonCriticalSet : List ω
  criticalOrder : List ω

namespace WorkerPool

variable {ω ν N : Type} [LinearOrder ν] [LinearOrder N] (name : ω → N) (value : ω → ν)

/-- `new WorkerPool()`. -/
def new : WorkerPool ω := ⟨[], [], [], []⟩

/-! ## Maps by name and the ordered set -/

/-- `HashMap.put` under the resource's name. -/
def put (set : List ω) (resource : ω) : List ω := resource :: set.filter fun r => name r ≠ name resource

/-- `HashMap.remove`. -/
def remove (set : List ω) (resourceName : N) : List ω := set.filter fun r => name r ≠ resourceName

/-- `HashMap.remove` returns a resource. -/
def holds (set : List ω) (resourceName : N) : Bool := set.any fun r => name r = resourceName

/-- `MethodWorker.compareTo`: by value, then by name. -/
def compareTo (r t : ω) : Ordering := (compare (value r) (value t)).then (compare (name r) (name t))

/-- `TreeSet.add`: nothing is added beside an equal resource. -/
def orderedAdd (resource : ω) : List ω → List ω
  | [] => [resource]
  | r :: set =>
    match compareTo name value resource r with
    | .lt => resource :: r :: set
    | .eq => r :: set
    | .gt => r :: orderedAdd resource set

/-- `TreeSet.remove`. -/
def orderedRemove (set : List ω) (resource : ω) : List ω := set.filter fun r => compareTo name value resource r ≠ .eq

/-! ## Operations -/

def addStaticResource (p : WorkerPool ω) (newResource : ω) : WorkerPool ω :=
  { p with staticSet := put name p.staticSet newResource }

def addDynamicResource (p : WorkerPool ω) (newResource : ω) : WorkerPool ω :=
  { p with
    criticalSet := put name p.criticalSet newResource
    criticalOrder := orderedAdd name value newResource p.criticalOrder }

def delete (p : WorkerPool ω) (resource : ω) : WorkerPool ω :=
  let resourceName := name resource
  if holds name p.nonCriticalSet resourceName then
    { p with nonCriticalSet := remove name p.nonCriticalSet resourceName }
  else if holds name p.criticalSet resourceName then
    { p with criticalSet := remove name p.criticalSet resourceName }
  else { p with staticSet := remove name p.staticSet resourceName }

/-- What `defineCriticalSet` has at each turn. -/
structure Sweep (ω : Type) where
  runnable : List Nat
  criticalSet : List ω
  nonCriticalSet : List ω
  criticalOrderRemovals : List ω

/-- One turn of the loop over the critical order. -/
def sweep (executableCores : ω → List Nat) (s : Sweep ω) (resource : ω) : Sweep ω :=
  let needed := (executableCores resource).any fun coreId => coreId ∉ s.runnable
  if needed then { s with runnable := s.runnable ++ executableCores resource }
  else { s with
    criticalSet := remove name s.criticalSet (name resource)
    nonCriticalSet := put name s.nonCriticalSet resource
    criticalOrderRemovals := s.criticalOrderRemovals ++ [resource] }

def defineCriticalSet (executableCores : ω → List Nat) (p : WorkerPool ω) : WorkerPool ω :=
  let s := p.criticalOrder.foldl (sweep name executableCores)
    ⟨p.staticSet.flatMap executableCores, p.criticalSet, p.nonCriticalSet, []⟩
  { p with
    criticalSet := s.criticalSet
    nonCriticalSet := s.nonCriticalSet
    criticalOrder := s.criticalOrderRemovals.foldl (orderedRemove name value) p.criticalOrder }

end WorkerPool

/-! ## Histories -/

/-- The pool, what each resource can execute now, the dynamic resources that have
been added and not deleted, and whether the critical set has just been defined. -/
structure PoolState (ω : Type) where
  pool : WorkerPool ω
  executableCores : ω → List Nat
  dynamic : List ω
  defined : Bool

inductive PoolOperation (ω : Type)
  | addStaticResource (newResource : ω)
  | addDynamicResource (newResource : ω)
  | delete (resource : ω)
  | defineCriticalSet
  /-- The tables of some resources are computed again. -/
  | coresUpdated (executableCores : ω → List Nat)

namespace PoolState

variable {ω ν N : Type} [DecidableEq ω] [LinearOrder ν] [LinearOrder N] (name : ω → N) (value : ω → ν)

def empty (executableCores : ω → List Nat) : PoolState ω := ⟨.new, executableCores, [], false⟩

def step (s : PoolState ω) : PoolOperation ω → Option (PoolState ω)
  | .addStaticResource r => some { s with pool := s.pool.addStaticResource name r, defined := false }
  | .addDynamicResource r =>
    some { s with pool := s.pool.addDynamicResource name value r, dynamic := r :: s.dynamic, defined := false }
  | .delete r => some { s with pool := s.pool.delete name r, dynamic := s.dynamic.filter (· ≠ r), defined := false }
  | .defineCriticalSet =>
    some { s with pool := s.pool.defineCriticalSet name value s.executableCores, defined := true }
  | .coresUpdated executableCores => some { s with executableCores := executableCores, defined := false }

/-- What some resource of the pool can execute, a static or a critical one can. -/
def CoresCovered (s : PoolState ω) : Prop :=
  ∀ r, r ∈ s.pool.staticSet ∨ r ∈ s.dynamic → ∀ coreId ∈ s.executableCores r,
    ∃ x, (x ∈ s.pool.staticSet ∨ x ∈ s.pool.criticalSet) ∧ coreId ∈ s.executableCores x

/-- The two sets part the dynamic resources that have been added and not deleted;
and once the critical set is defined, the cores are covered. -/
structure CriticalCover (s : PoolState ω) : Prop where
  covered : s.defined = true → s.CoresCovered
  dynamic : ∀ r, r ∈ s.dynamic ↔ r ∈ s.pool.criticalSet ∨ r ∈ s.pool.nonCriticalSet
  apart : ∀ r ∈ s.pool.criticalSet, r ∉ s.pool.nonCriticalSet

/-- The resource is in the pool. -/
def Pooled (s : PoolState ω) (r : ω) : Prop :=
  r ∈ s.pool.staticSet ∨ r ∈ s.pool.criticalSet ∨ r ∈ s.pool.nonCriticalSet

/-- No two resources of the pool have one name, and no critical one is deleted. -/
def Orderly (s : PoolState ω) : PoolOperation ω → Prop
  | .addStaticResource r => ∀ x, x ∈ s.pool.criticalSet ∨ x ∈ s.pool.nonCriticalSet → name x ≠ name r
  | .addDynamicResource r => ∀ x, s.Pooled x → name x ≠ name r
  | .delete r => (∀ x, s.Pooled x → name x = name r → x = r) ∧ r ∉ s.pool.criticalSet
  | .defineCriticalSet => True
  | .coresUpdated _ => True

/-- When the critical set is defined, what a non critical resource can execute, a
static or a critical one can. -/
def Covers (s : PoolState ω) : PoolOperation ω → Prop
  | .defineCriticalSet => ∀ r ∈ s.pool.nonCriticalSet, ∀ coreId ∈ s.executableCores r,
    ∃ x, (x ∈ s.pool.staticSet ∨ x ∈ s.pool.criticalSet) ∧ coreId ∈ s.executableCores x
  | _ => True

end PoolState

/-! ## The collections -/

namespace WorkerPool

variable {ω ν N : Type} [LinearOrder ν] [LinearOrder N] {name : ω → N} {value : ω → ν} {set : List ω} {r x : ω}

theorem mem_put : x ∈ put name set r ↔ x = r ∨ (x ∈ set ∧ name x ≠ name r) := by
  simp [put]

theorem mem_remove {n : N} : x ∈ remove name set n ↔ x ∈ set ∧ name x ≠ n := by
  simp [remove]

theorem holds_iff {n : N} : holds name set n = true ↔ ∃ x ∈ set, name x = n := by
  simp [holds]

theorem compareTo_eq : compareTo name value r x = .eq ↔ value r = value x ∧ name r = name x := by
  rw [compareTo, Ordering.then_eq_eq, compare_eq_iff_eq, compare_eq_iff_eq]

/-- A resource of a new name is added. -/
theorem mem_orderedAdd (h : ∀ y ∈ set, name y ≠ name r) : x ∈ orderedAdd name value r set ↔ x = r ∨ x ∈ set := by
  induction set with
  | nil => simp [orderedAdd]
  | cons y set ih =>
    rw [orderedAdd]
    have ih := ih fun z hz => h z (List.mem_cons_of_mem y hz)
    cases hc : compareTo name value r y with
    | lt => simp
    | eq => exact absurd (compareTo_eq.mp hc).2.symm (h y List.mem_cons_self)
    | gt => simp [ih, or_left_comm]

theorem nodup_orderedAdd (h : ∀ y ∈ set, name y ≠ name r) (hset : set.Nodup) : (orderedAdd name value r set).Nodup := by
  induction set with
  | nil => simp [orderedAdd]
  | cons y set ih =>
    have hrest : ∀ z ∈ set, name z ≠ name r := fun z hz => h z (List.mem_cons_of_mem y hz)
    rw [List.nodup_cons] at hset
    rw [orderedAdd]
    cases hc : compareTo name value r y with
    | lt =>
      refine List.nodup_cons.mpr ⟨fun hr => h r hr rfl, List.nodup_cons.mpr hset⟩
    | eq => exact List.nodup_cons.mpr hset
    | gt =>
      refine List.nodup_cons.mpr ⟨fun hy => ?_, ih hrest hset.2⟩
      rcases (mem_orderedAdd hrest).mp hy with rfl | hy
      · exact h y List.mem_cons_self rfl
      · exact hset.1 hy

/-- Resources that are removed in turn, each the only one of its name. -/
theorem mem_foldl_orderedRemove {removals : List ω} (h : ∀ y ∈ removals, name x = name y → x = y) :
    x ∈ removals.foldl (orderedRemove name value) set ↔ x ∈ set ∧ x ∉ removals := by
  induction removals generalizing set with
  | nil => simp
  | cons y removals ih =>
    rw [List.foldl_cons, ih fun z hz => h z (List.mem_cons_of_mem y hz), orderedRemove, List.mem_filter,
      List.mem_cons, not_or, and_assoc, decide_eq_true_eq]
    refine and_congr_right fun _ => and_congr_left fun _ => not_congr ?_
    rw [compareTo_eq]
    exact ⟨fun ⟨_, hn⟩ => h y List.mem_cons_self hn.symm, fun he => he ▸ ⟨rfl, rfl⟩⟩

theorem foldl_orderedRemove_sublist (removals set : List ω) :
    (removals.foldl (orderedRemove name value) set).Sublist set := by
  induction removals generalizing set with
  | nil => exact List.Sublist.refl _
  | cons y removals ih => exact (ih _).trans List.filter_sublist

/-! ## The sweep -/

/-- The loop over resources that are the only ones of their names: it sends some
to the non critical set, and the others cover, with what was runnable before,
all that any of them can execute. -/
theorem sweep_foldl (name : ω → N) (executableCores : ω → List Nat) (resources : List ω) (s : Sweep ω)
    (hnodup : resources.Nodup)
    (hname : ∀ y ∈ resources, ∀ z, z ∈ resources ∨ z ∈ s.criticalSet ∨ z ∈ s.nonCriticalSet → name z = name y → z = y) :
    ∃ sent : List ω, let t := resources.foldl (sweep name executableCores) s
      t.criticalOrderRemovals = s.criticalOrderRemovals ++ sent ∧ (∀ y ∈ sent, y ∈ resources) ∧
      (∀ x, x ∈ t.criticalSet ↔ x ∈ s.criticalSet ∧ x ∉ sent) ∧
      (∀ x, x ∈ t.nonCriticalSet ↔ x ∈ s.nonCriticalSet ∨ x ∈ sent) ∧
      (∀ coreId, coreId ∈ t.runnable ↔
        coreId ∈ s.runnable ∨ ∃ y ∈ resources, y ∉ sent ∧ coreId ∈ executableCores y) ∧
      ∀ y ∈ resources, ∀ coreId ∈ executableCores y, coreId ∈ t.runnable := by
  induction resources generalizing s with
  | nil => exact ⟨[], by simp⟩
  | cons y resources ih =>
    rw [List.nodup_cons] at hnodup
    by_cases hneeded : (executableCores y).any (fun coreId => coreId ∉ s.runnable) = true
    · -- it stays critical
      have hsweep : sweep name executableCores s y = { s with runnable := s.runnable ++ executableCores y } := if_pos hneeded
      obtain ⟨sent, h1, h2, h3, h4, h5, h6⟩ := ih { s with runnable := s.runnable ++ executableCores y } hnodup.2
        fun z hz u hu => hname z (List.mem_cons_of_mem y hz) u (hu.imp_left (List.mem_cons_of_mem y))
      have hy : y ∉ sent := fun hy => hnodup.1 (h2 y hy)
      refine ⟨sent, ?_⟩
      rw [List.foldl_cons, hsweep]
      refine ⟨h1, fun z hz => List.mem_cons_of_mem y (h2 z hz), h3, h4, fun coreId => ?_, fun z hz coreId hc => ?_⟩
      · rw [h5, List.mem_append, or_assoc]
        refine or_congr_right ?_
        constructor
        · rintro (hc | ⟨z, hz, hns, hc⟩)
          · exact ⟨y, List.mem_cons_self, hy, hc⟩
          · exact ⟨z, List.mem_cons_of_mem y hz, hns, hc⟩
        · rintro ⟨z, hz, hns, hc⟩
          rcases List.mem_cons.mp hz with rfl | hz
          · exact .inl hc
          · exact .inr ⟨z, hz, hns, hc⟩
      · rcases List.mem_cons.mp hz with rfl | hz
        · exact (h5 coreId).mpr (.inl (List.mem_append_right _ hc))
        · exact h6 z hz coreId hc
    · -- it is sent: all it can execute is runnable already
      have hrunnable : ∀ coreId ∈ executableCores y, coreId ∈ s.runnable := by simpa using hneeded
      obtain ⟨sent, h1, h2, h3, h4, h5, h6⟩ := ih
        { s with
          criticalSet := remove name s.criticalSet (name y)
          nonCriticalSet := put name s.nonCriticalSet y
          criticalOrderRemovals := s.criticalOrderRemovals ++ [y] } hnodup.2 fun z hz u hu => by
        refine hname z (List.mem_cons_of_mem y hz) u ?_
        rcases hu with hu | hu | hu
        · exact .inl (List.mem_cons_of_mem y hu)
        · exact .inr (.inl (mem_remove.mp hu).1)
        · rcases mem_put.mp hu with rfl | hu
          · exact .inl List.mem_cons_self
          · exact .inr (.inr hu.1)
      refine ⟨y :: sent, ?_⟩
      rw [List.foldl_cons]
      have hsweep : sweep name executableCores s y =
        { s with
          criticalSet := remove name s.criticalSet (name y)
          nonCriticalSet := put name s.nonCriticalSet y
          criticalOrderRemovals := s.criticalOrderRemovals ++ [y] } := if_neg hneeded
      rw [hsweep]
      have hown : ∀ z, z ∈ s.criticalSet ∨ z ∈ s.nonCriticalSet → (name z = name y ↔ z = y) := fun z hz =>
        ⟨hname y List.mem_cons_self z (.inr hz), fun he => he ▸ rfl⟩
      refine ⟨by rw [h1]; simp, fun z hz => ?_, fun z => ?_, fun z => ?_, fun coreId => ?_, fun z hz coreId hc => ?_⟩
      · rcases List.mem_cons.mp hz with rfl | hz
        · exact List.mem_cons_self
        · exact List.mem_cons_of_mem y (h2 z hz)
      · rw [h3, mem_remove, List.mem_cons, not_or, and_assoc]
        refine and_congr_right fun hz => and_congr_left fun _ => not_congr (hown z (.inl hz))
      · rw [h4, mem_put, List.mem_cons]
        constructor
        · rintro ((rfl | ⟨hz, -⟩) | hz)
          · exact .inr (.inl rfl)
          · exact .inl hz
          · exact .inr (.inr hz)
        · rintro (hz | rfl | hz)
          · by_cases he : z = y
            · exact .inl (.inl he)
            · exact .inl (.inr ⟨hz, fun hn => he ((hown z (.inr hz)).mp hn)⟩)
          · exact .inl (.inl rfl)
          · exact .inr hz
      · rw [h5]
        refine or_congr_right ?_
        constructor
        · rintro ⟨z, hz, hns, hc⟩
          exact ⟨z, List.mem_cons_of_mem y hz, by
            rw [List.mem_cons, not_or]
            exact ⟨fun he => hnodup.1 (he ▸ hz), hns⟩, hc⟩
        · rintro ⟨z, hz, hns, hc⟩
          rw [List.mem_cons, not_or] at hns
          exact ⟨z, (List.mem_cons.mp hz).resolve_left hns.1, hns.2, hc⟩
      · rcases List.mem_cons.mp hz with rfl | hz
        · exact (h5 coreId).mpr (.inl (hrunnable coreId hc))
        · exact h6 z hz coreId hc

end WorkerPool

/-! ## Every history -/

namespace PoolState

open WorkerPool

section
variable {ω N : Type} {name : ω → N} {s : PoolState ω}

/-- Names tell the resources of the pool apart, the sets are disjoint, and the
order holds the critical ones. -/
structure Tidy (name : ω → N) (s : PoolState ω) : Prop where
  names : ∀ x y, s.Pooled x → s.Pooled y → name x = name y → x = y
  apart : ∀ x ∈ s.pool.criticalSet, x ∉ s.pool.nonCriticalSet
  staticApart : ∀ x ∈ s.pool.staticSet, x ∉ s.pool.criticalSet ∧ x ∉ s.pool.nonCriticalSet
  order : ∀ x, x ∈ s.pool.criticalOrder ↔ x ∈ s.pool.criticalSet
  nodup : s.pool.criticalOrder.Nodup
  dynamic : ∀ x, x ∈ s.dynamic ↔ x ∈ s.pool.criticalSet ∨ x ∈ s.pool.nonCriticalSet
  covered : s.defined = true → s.CoresCovered

theorem Tidy.cover (h : Tidy name s) : s.CriticalCover := ⟨h.covered, h.dynamic, h.apart⟩

theorem tidy_empty (executableCores : ω → List Nat) : Tidy name (empty executableCores) where
  names x y hx := by simp [Pooled, empty, WorkerPool.new] at hx
  apart x hx := absurd hx List.not_mem_nil
  staticApart x hx := absurd hx List.not_mem_nil
  order _ := Iff.rfl
  nodup := List.nodup_nil
  dynamic x := by simp [empty, WorkerPool.new]
  covered h := by cases h

end

section
variable {ω ν N : Type} [LinearOrder ν] [LinearOrder N] {name : ω → N} {value : ω → ν} {s t : PoolState ω} {r : ω}

theorem Tidy.addStaticResource (h : Tidy name s) (ho : s.Orderly name (.addStaticResource r)) :
    Tidy name { s with pool := s.pool.addStaticResource name r, defined := false } := by
  have hmem : ∀ x, x ∈ (s.pool.addStaticResource name r).staticSet ↔ x = r ∨ (x ∈ s.pool.staticSet ∧ name x ≠ name r) :=
    fun x => mem_put
  have hother : ∀ x, Pooled { s with pool := s.pool.addStaticResource name r, defined := false } x →
      x = r ∨ (s.Pooled x ∧ name x ≠ name r) := by
    rintro x (hx | hx)
    · exact ((hmem x).mp hx).imp_right fun hx => ⟨.inl hx.1, hx.2⟩
    · exact .inr ⟨.inr hx, ho x hx⟩
  refine { h with names := fun x y hx hy hn => ?_, staticApart := fun x hx => ?_, covered := fun hd => by cases hd }
  · rcases hother x hx with rfl | ⟨hx, hxn⟩
    · rcases hother y hy with rfl | ⟨_, hyn⟩
      · rfl
      · exact absurd hn.symm hyn
    · rcases hother y hy with rfl | ⟨hy, _⟩
      · exact absurd hn hxn
      · exact h.names x y hx hy hn
  · rcases (hmem x).mp hx with rfl | ⟨hx, _⟩
    · exact ⟨fun hc => ho x (.inl hc) rfl, fun hc => ho x (.inr hc) rfl⟩
    · exact h.staticApart x hx

theorem Tidy.addDynamicResource (h : Tidy name s) (ho : s.Orderly name (.addDynamicResource r)) :
    Tidy name { s with pool := s.pool.addDynamicResource name value r, dynamic := r :: s.dynamic, defined := false } := by
  have hcritical : ∀ x, x ∈ (s.pool.addDynamicResource name value r).criticalSet ↔ x = r ∨ x ∈ s.pool.criticalSet :=
    fun x => mem_put.trans (or_congr_right (and_iff_left_of_imp fun hx => ho x (.inr (.inl hx))))
  have hnames : ∀ x ∈ s.pool.criticalOrder, name x ≠ name r := fun x hx => ho x (.inr (.inl ((h.order x).mp hx)))
  have hother : ∀ x, Pooled { s with
      pool := s.pool.addDynamicResource name value r, dynamic := r :: s.dynamic, defined := false } x →
      x = r ∨ s.Pooled x := by
    rintro x (hx | hx | hx)
    · exact .inr (.inl hx)
    · exact ((hcritical x).mp hx).imp_right fun hx => .inr (.inl hx)
    · exact .inr (.inr (.inr hx))
  refine {
    names := fun x y hx hy hn => ?_
    apart := fun x hx hx' => ?_
    staticApart := fun x hx => ⟨fun hx' => ?_, (h.staticApart x hx).2⟩
    order := fun x => (mem_orderedAdd hnames).trans ((or_congr_right (h.order x)).trans (hcritical x).symm)
    nodup := nodup_orderedAdd hnames h.nodup
    dynamic := fun x => List.mem_cons.trans ((or_congr_right (h.dynamic x)).trans ?_)
    covered := fun hd => by cases hd }
  · rcases hother x hx with rfl | hpx
    · rcases hother y hy with rfl | hpy
      · rfl
      · exact absurd hn.symm (ho y hpy)
    · rcases hother y hy with rfl | hpy
      · exact absurd hn (ho x hpx)
      · exact h.names x y hpx hpy hn
  · rcases (hcritical x).mp hx with rfl | hx
    · exact ho x (.inr (.inr hx')) rfl
    · exact h.apart x hx hx'
  · rcases (hcritical x).mp hx' with rfl | hx'
    · exact ho x (.inl hx) rfl
    · exact (h.staticApart x hx).1 hx'
  · rw [hcritical, or_assoc]
    rfl

theorem Tidy.delete [DecidableEq ω] (h : Tidy name s) (ho : s.Orderly name (.delete r)) :
    Tidy name { s with pool := s.pool.delete name r, dynamic := s.dynamic.filter (· ≠ r), defined := false } := by
  obtain ⟨hown, hcritical⟩ := ho
  have hname : ∀ x, s.Pooled x → (name x ≠ name r ↔ x ≠ r) := fun x hx =>
    not_congr ⟨hown x hx, fun he => he ▸ rfl⟩
  by_cases hnon : holds name s.pool.nonCriticalSet (name r) = true
  · -- a non critical resource
    have hpool : s.pool.delete name r = { s.pool with nonCriticalSet := remove name s.pool.nonCriticalSet (name r) } :=
      if_pos hnon
    have hmem : ∀ x, x ∈ remove name s.pool.nonCriticalSet (name r) ↔ x ∈ s.pool.nonCriticalSet ∧ x ≠ r := fun x =>
      mem_remove.trans (and_congr_right fun hx => hname x (.inr (.inr hx)))
    rw [hpool]
    refine { h with
      names := fun x y hx hy => h.names x y ?_ ?_
      apart := fun x hx hx' => h.apart x hx ((hmem x).mp hx').1
      staticApart := fun x hx => ⟨(h.staticApart x hx).1, fun hx' => (h.staticApart x hx).2 ((hmem x).mp hx').1⟩
      dynamic := fun x => ?_
      covered := fun hd => by cases hd }
    · exact hx.imp_right (Or.imp_right fun hx => ((hmem x).mp hx).1)
    · exact hy.imp_right (Or.imp_right fun hy => ((hmem y).mp hy).1)
    · rw [List.mem_filter, h.dynamic, decide_eq_true_eq, hmem, or_and_right]
      exact or_congr_left (and_iff_left_of_imp fun hx he => hcritical (he ▸ hx))
  · -- a static one, or none of the pool
    have hnotCritical : ¬ holds name s.pool.criticalSet (name r) = true := fun hc => by
      obtain ⟨x, hx, hn⟩ := holds_iff.mp hc
      exact hcritical (hown x (.inr (.inl hx)) hn ▸ hx)
    have hpool : s.pool.delete name r = { s.pool with staticSet := remove name s.pool.staticSet (name r) } :=
      (if_neg hnon).trans (if_neg hnotCritical)
    rw [hpool]
    refine { h with
      names := fun x y hx hy => h.names x y ?_ ?_
      staticApart := fun x hx => h.staticApart x (mem_remove.mp hx).1
      dynamic := fun x => ?_
      covered := fun hd => by cases hd }
    · exact hx.imp_left fun hx => (mem_remove.mp hx).1
    · exact hy.imp_left fun hy => (mem_remove.mp hy).1
    · rw [List.mem_filter, h.dynamic, decide_eq_true_eq]
      refine and_iff_left_of_imp fun hx he => ?_
      rw [he] at hx
      exact hx.elim hcritical fun hx => hnon (holds_iff.mpr ⟨r, hx, rfl⟩)

/-- What the sweep leaves: it sends some of the critical resources to the others,
and covers what the critical ones could execute. -/
theorem Tidy.defineCriticalSet (h : Tidy name s) {p : WorkerPool ω}
    (hp : s.pool.defineCriticalSet name value s.executableCores = p) :
    (CoresCovered { s with pool := p, defined := true } ↔ s.Covers .defineCriticalSet) ∧
      (CoresCovered { s with pool := p, defined := true } → Tidy name { s with pool := p, defined := true }) := by
  have hpooled : ∀ y ∈ s.pool.criticalOrder, s.Pooled y := fun y hy => .inr (.inl ((h.order y).mp hy))
  obtain ⟨sent, hremovals, hsent, hcritical, hnon, hrunnable, hcovers⟩ :=
    sweep_foldl name s.executableCores s.pool.criticalOrder
      ⟨s.pool.staticSet.flatMap s.executableCores, s.pool.criticalSet, s.pool.nonCriticalSet, []⟩ h.nodup
      fun y hy z hz hn => by
        refine h.names z y ?_ (hpooled y hy) hn
        rcases hz with hz | hz | hz
        · exact hpooled z hz
        · exact .inr (.inl hz)
        · exact .inr (.inr hz)
  dsimp only at hremovals hcritical hnon hrunnable hcovers
  rw [List.nil_append] at hremovals
  have hpcritical : ∀ x, x ∈ p.criticalSet ↔ x ∈ s.pool.criticalSet ∧ x ∉ sent := by
    rw [← hp]
    exact hcritical
  have hpnon : ∀ x, x ∈ p.nonCriticalSet ↔ x ∈ s.pool.nonCriticalSet ∨ x ∈ sent := by
    rw [← hp]
    exact hnon
  have hpstatic : p.staticSet = s.pool.staticSet := by rw [← hp]; rfl
  have hporder : p.criticalOrder = sent.foldl (orderedRemove name value) s.pool.criticalOrder := by
    rw [← hp, WorkerPool.defineCriticalSet, hremovals]
  have hsentCritical : ∀ x ∈ sent, x ∈ s.pool.criticalSet := fun x hx => (h.order x).mp (hsent x hx)
  have hpdynamic : ∀ x, x ∈ p.criticalSet ∨ x ∈ p.nonCriticalSet ↔ x ∈ s.pool.criticalSet ∨ x ∈ s.pool.nonCriticalSet := by
    intro x
    rw [hpcritical, hpnon]
    by_cases hx : x ∈ sent
    · exact iff_of_true (.inr (.inr hx)) (.inl (hsentCritical x hx))
    · simp [hx]
  -- what is runnable at the end is what static and critical resources execute
  have hrun : ∀ coreId, (∃ x, (x ∈ p.staticSet ∨ x ∈ p.criticalSet) ∧ coreId ∈ s.executableCores x) ↔
      ∃ x, (x ∈ s.pool.staticSet ∨ x ∈ s.pool.criticalSet) ∧ coreId ∈ s.executableCores x := by
    intro coreId
    have hleft : (∃ x, (x ∈ p.staticSet ∨ x ∈ p.criticalSet) ∧ coreId ∈ s.executableCores x) ↔
        coreId ∈ s.pool.staticSet.flatMap s.executableCores ∨
          ∃ y ∈ s.pool.criticalOrder, y ∉ sent ∧ coreId ∈ s.executableCores y := by
      rw [List.mem_flatMap, hpstatic]
      constructor
      · rintro ⟨x, hx | hx, hc⟩
        · exact .inl ⟨x, hx, hc⟩
        · obtain ⟨hx, hns⟩ := (hpcritical x).mp hx
          exact .inr ⟨x, (h.order x).mpr hx, hns, hc⟩
      · rintro (⟨x, hx, hc⟩ | ⟨x, hx, hns, hc⟩)
        · exact ⟨x, .inl hx, hc⟩
        · exact ⟨x, .inr ((hpcritical x).mpr ⟨(h.order x).mp hx, hns⟩), hc⟩
    rw [hleft, ← hrunnable]
    constructor
    · intro hc
      rcases (hrunnable coreId).mp hc with hc | ⟨y, hy, -, hc⟩
      · obtain ⟨x, hx, hc⟩ := List.mem_flatMap.mp hc
        exact ⟨x, .inl hx, hc⟩
      · exact ⟨y, .inr ((h.order y).mp hy), hc⟩
    · rintro ⟨x, hx | hx, hc⟩
      · exact (hrunnable coreId).mpr (.inl (List.mem_flatMap.mpr ⟨x, hx, hc⟩))
      · exact hcovers x ((h.order x).mpr hx) coreId hc
  have hcovered : CoresCovered { s with pool := p, defined := true } ↔ s.Covers .defineCriticalSet := by
    constructor
    · intro hall x hx coreId hc
      exact (hrun coreId).mp (hall x (.inr ((h.dynamic x).mpr (.inr hx))) coreId hc)
    · intro hall x hx coreId hc
      refine (hrun coreId).mpr ?_
      rcases hx with hx | hx
      · exact ⟨x, .inl (hpstatic ▸ hx), hc⟩
      · rcases (h.dynamic x).mp hx with hx | hx
        · exact ⟨x, .inr hx, hc⟩
        · exact hall x hx coreId hc
  refine ⟨hcovered, fun hall => ?_⟩
  have hback : ∀ x, Pooled { s with pool := p, defined := true } x → s.Pooled x := by
    rintro x (hx | hx)
    · exact .inl (hpstatic ▸ hx)
    · exact .inr ((hpdynamic x).mp hx)
  have hown : ∀ x y, s.Pooled x → y ∈ sent → name x = name y → x = y := fun x y hx hy =>
    h.names x y hx (hpooled y (hsent y hy))
  refine {
    names := fun x y hx hy => h.names x y (hback x hx) (hback y hy)
    apart := fun x hx hx' => ?_
    staticApart := fun x hx => ?_
    order := fun x => ?_
    nodup := ?_
    dynamic := fun x => (h.dynamic x).trans (hpdynamic x).symm
    covered := fun _ => hall }
  · obtain ⟨hx, hns⟩ := (hpcritical x).mp hx
    exact ((hpnon x).mp hx').elim (h.apart x hx) hns
  · have hnot := h.staticApart x (hpstatic ▸ hx)
    exact not_or.mp fun hx' => ((hpdynamic x).mp hx').elim hnot.1 hnot.2
  · dsimp only
    rw [hporder, hpcritical, ← h.order]
    by_cases hx : x ∈ s.pool.criticalOrder
    · rw [mem_foldl_orderedRemove fun y hy => hown x y (hpooled x hx) hy]
    · refine iff_of_false (fun hf => hx ?_) fun hf => hx hf.1
      exact (foldl_orderedRemove_sublist sent _).subset hf
  · dsimp only
    rw [hporder]
    exact h.nodup.sublist (foldl_orderedRemove_sublist sent _)

theorem Tidy.step [DecidableEq ω] (h : Tidy name s) {a : PoolOperation ω} (ho : s.Orderly name a) (hc : s.Covers a)
    (hstep : s.step name value a = some t) : Tidy name t := by
  cases a with
  | addStaticResource r => cases hstep; exact h.addStaticResource ho
  | addDynamicResource r => cases hstep; exact h.addDynamicResource ho
  | delete r => cases hstep; exact h.delete ho
  | defineCriticalSet =>
    cases hstep
    have ⟨hcovered, htidy⟩ := h.defineCriticalSet (p := s.pool.defineCriticalSet name value s.executableCores) rfl
    exact htidy (hcovered.mpr hc)
  | coresUpdated cores => cases hstep; exact { h with covered := fun hd => by cases hd }

/-- As long as no two resources of the pool have one name and no critical one is
deleted, the critical set covers the pool's cores whenever it is defined, and
the two sets part the dynamic resources, exactly when what the non critical
ones can execute is covered by the others each time it is defined. -/
theorem criticalCover_always_iff [DecidableEq ω] {executableCores : ω → List Nat} {operations : List (PoolOperation ω)}
    (ho : Lib.Along (step name value) (Orderly name) (empty executableCores) operations) :
    Lib.Always (step name value) CriticalCover (empty executableCores) operations ↔
      Lib.Along (step name value) Covers (empty executableCores) operations := by
  refine Lib.always_iff_along_of (I := Tidy name) (fun _ h => h.cover) (fun s a t h => h.step)
    (fun s a t h _ hc hstep hcover => hc ?_) (tidy_empty executableCores) ho
  cases a with
  | defineCriticalSet =>
    cases hstep
    have hcovers := h.defineCriticalSet (p := s.pool.defineCriticalSet name value s.executableCores) rfl
    exact hcovers.1.mp (hcover.covered rfl)
  | _ => trivial

end

/-- One resource, with the one core there is. -/
theorem criticalCover_always_iff_one :
    Lib.Always (step (ω := Nat) id id) CriticalCover (empty fun _ => [0]) [.addDynamicResource 0, .defineCriticalSet] ↔
      Lib.Along (step (ω := Nat) id id) Covers (empty fun _ => [0]) [.addDynamicResource 0, .defineCriticalSet] :=
  criticalCover_always_iff fun _ _ => ⟨fun x hx => by simp [Pooled, empty, WorkerPool.new] at hx,
    fun _ _ => ⟨trivial, trivial⟩⟩

/-- A deleted resource is found in the order when another executes its cores, and
comes back as a non critical one. -/
theorem deleted_reappears :
    ¬ Lib.Always (step (ω := Nat) id id) CriticalCover (empty fun _ => [0])
      [.addDynamicResource 0, .delete 0, .addStaticResource 1, .defineCriticalSet] := by
  rintro ⟨-, h⟩
  obtain ⟨-, h⟩ := h _ rfl
  obtain ⟨-, h⟩ := h _ rfl
  obtain ⟨-, h⟩ := h _ rfl
  have hlast := h _ rfl
  exact absurd ((hlast.dynamic 0).mpr (.inr (by decide))) (by decide)

end PoolState

end Compss.Resources
