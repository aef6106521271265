/-
What the load simulation comes to: it ends, and the whole load is assigned.

An execution always goes to the resource that is free first, whether it has room
for the core or not. A resource without room is passed over only because its
time grows. So the simulation ends when these times do grow
(`simulate_assigns`), and it need not when one does not: with the right load and
start times that resource stays the first for ever (`simulate_assigns_iff`).
-/
import Compss.MultiObjective.LoadSimulation

namespace Compss.MultiObjective

open Lib

theorem toInt_add_of_lt {x y : Int64} (hx : 0 ≤ x.toInt) (hy : 0 ≤ y.toInt) (h : x.toInt + y.toInt < 2 ^ 63) :
    (x + y).toInt = x.toInt + y.toInt := by
  rw [Int64.toInt_add, Int.bmod_eq_of_le (by omega) (by omega)]

/-- The simulation changes the times and the counts of the resources only. -/
def Unchanged (o o' : ResourceId → Resource) : Prop :=
  ∀ r, o' r = { o r with time := (o' r).time, counts := (o' r).counts }

namespace Unchanged

variable {o o' o'' : ResourceId → Resource}

theorem refl (o : ResourceId → Resource) : Unchanged o o := fun _ => rfl

theorem trans (h : Unchanged o o') (h' : Unchanged o' o'') : Unchanged o o'' := fun r => by
  rw [h' r, h r]

theorem symm (h : Unchanged o o') : Unchanged o' o := fun r => by rw [h r]

theorem update (h : Unchanged o o') (r : ResourceId) (time : Int64) (counts : Nat → Int) :
    Unchanged o (Function.update o' r { o' r with time := time, counts := counts }) := by
  intro q
  by_cases hq : q = r
  · subst hq
    rw [Function.update_self, h q]
  · rw [Function.update_of_ne hq]
    exact h q

theorem capacity (h : Unchanged o o') (r : ResourceId) : (o' r).capacity = (o r).capacity := by rw [h r]

theorem profiles (h : Unchanged o o') (r : ResourceId) : (o' r).profiles = (o r).profiles := by rw [h r]

theorem averageExecutionTime (h : Unchanged o o') (r : ResourceId) (coreId : Nat) :
    (o' r).averageExecutionTime coreId = (o r).averageExecutionTime coreId := by
  unfold Resource.averageExecutionTime
  rw [h.profiles]

theorem canExecute (h : Unchanged o o') (r : ResourceId) : (o' r).canExecute = (o r).canExecute := by
  unfold Resource.canExecute
  rw [h r]

end Unchanged

/-- The tables of the resources that execute, for one core. `longest` bounds
the average times. -/
structure CoreTables (o : ResourceId → Resource) (working : List ResourceId) (longest : Int) (coreId : Nat) : Prop where
  nodup : working.Nodup
  capacity : ∀ r ∈ working, 0 ≤ (o r).capacity coreId
  average : ∀ r ∈ working, 0 ≤ ((o r).averageExecutionTime coreId).toInt
  average_le : ∀ r ∈ working, ((o r).averageExecutionTime coreId).toInt ≤ longest

/-! ## One core -/

/-- How far the times may have moved when this much of the load is left. -/
def spent (longest total left : Int) : Int := longest * (total - max left 0)

section
variable {longest total left left' : Int} (hlongest : 0 ≤ longest)
include hlongest

theorem spent_mono (h : left' ≤ left) : spent longest total left ≤ spent longest total left' :=
  mul_le_mul_of_nonneg_left (by omega) hlongest

theorem spent_add (hleft : 0 < left) (h : left' < left) :
    spent longest total left + longest ≤ spent longest total left' := by
  have hstep : longest * (total - max left 0 + 1) ≤ longest * (total - max left' 0) :=
    mul_le_mul_of_nonneg_left (by omega) hlongest
  rw [mul_add, mul_one] at hstep
  exact hstep

theorem spent_le : spent longest total left ≤ longest * total :=
  mul_le_mul_of_nonneg_left (by omega) hlongest

end

/-- While the load of a core is assigned: `begin` bounds the times before, and
`counts` are the counts before. -/
structure Assigning (o : ResourceId → Resource) (working : List ResourceId) (longest : Int) (coreId : Nat)
    (begin total : Int) (counts : ResourceId → Nat → Int) (s : Simulation) : Prop where
  unchanged : Unchanged o s.resources
  perm : s.values.Perm working
  sorted : SortedList.Sorted s.time s.values
  nonneg : ∀ r ∈ working, 0 ≤ (s.time r).toInt
  /-- A resource with room moves only when it takes executions. -/
  early : ∀ r ∈ working, 0 < (o r).capacity coreId →
    (s.time r).toInt ≤ begin + spent longest total s.workingCount
  bound : ∀ r ∈ working, (s.time r).toInt ≤ begin + spent longest total s.workingCount + longest
  sum : (s.values.map fun r => (s.resources r).counts coreId).sum + max s.workingCount 0 = total
  zero : ∀ r ∈ working, (o r).capacity coreId = 0 → (s.resources r).counts coreId = 0
  others : ∀ r, ∀ c ≠ coreId, (s.resources r).counts c = counts r c

section
variable {o : ResourceId → Resource} {working : List ResourceId} {longest : Int} {coreId : Nat}
  {begin total : Int} {counts : ResourceId → Nat → Int} {s : Simulation} {r : ResourceId}
  {rest : List ResourceId}

/-- The resources after one is given executions. -/
def given (coreId : Nat) (s : Simulation) (r : ResourceId) : ResourceId → Resource :=
  Function.update s.resources r
    { s.resources r with
      time := (s.resources r).time + (s.resources r).averageExecutionTime coreId
      counts := Function.update (s.resources r).counts coreId
        ((s.resources r).counts coreId + min ((s.resources r).capacity coreId) s.workingCount) }

theorem assign_cons (h : s.values = r :: rest) :
    s.assign coreId = ⟨given coreId s r, SortedList.insert (fun q => (given coreId s r q).time) r rest,
      s.workingCount - (s.resources r).capacity coreId⟩ := by
  unfold Simulation.assign
  rw [h]
  dsimp only
  rw [SortedList.add_cons]
  rfl

@[simp] theorem given_of_ne {q : ResourceId} (h : q ≠ r) : given coreId s r q = s.resources q :=
  Function.update_of_ne h _ _

theorem given_time : (given coreId s r r).time = s.time r + (s.resources r).averageExecutionTime coreId := by
  simp [given, Simulation.time]

theorem given_counts (c : Nat) : (given coreId s r r).counts c = if c = coreId
    then (s.resources r).counts coreId + min ((s.resources r).capacity coreId) s.workingCount
    else (s.resources r).counts c := by
  by_cases hc : c = coreId
  · subst hc
    simp [given]
  · simp [given, hc]

/-- The first of the list moves on. -/
theorem toInt_given_time (ht : CoreTables o working longest coreId)
    (h : Assigning o working longest coreId begin total counts s) (hr : r ∈ working)
    (hearly : (s.time r).toInt ≤ begin + spent longest total s.workingCount)
    (hroom : begin + longest * (total + 1) < 2 ^ 63) (hlongest : 0 ≤ longest) :
    ((given coreId s r r).time).toInt =
      (s.time r).toInt + ((o r).averageExecutionTime coreId).toInt := by
  rw [given_time, h.unchanged.averageExecutionTime]
  have hle : spent longest total s.workingCount ≤ longest * total := spent_le hlongest
  have havg := ht.average_le r hr
  rw [mul_add, mul_one] at hroom
  exact toInt_add_of_lt (h.nonneg r hr) (ht.average r hr) (by omega)

/-- One turn of the loop, on the first resource of the list. -/
theorem Assigning.assign (ht : CoreTables o working longest coreId) (hlongest : 0 ≤ longest)
    (hroom : begin + longest * (total + 1) < 2 ^ 63)
    (h : Assigning o working longest coreId begin total counts s) (hvalues : s.values = r :: rest)
    (hleft : 0 < s.workingCount)
    (hearly : (s.time r).toInt ≤ begin + spent longest total s.workingCount) :
    Assigning o working longest coreId begin total counts (s.assign coreId) := by
  have hperm := h.perm
  rw [hvalues] at hperm
  have hr : r ∈ working := hperm.mem_iff.mp (List.mem_cons_self ..)
  have hrest : r ∉ rest := (List.nodup_cons.mp (hperm.nodup_iff.mpr ht.nodup)).1
  have hcap := congrFun (h.unchanged.capacity r) coreId
  have hcap0 := ht.capacity r hr
  have htime := toInt_given_time ht h hr hearly hroom hlongest
  have havg0 := ht.average r hr
  have havg := ht.average_le r hr
  have hspent : spent longest total s.workingCount ≤
      spent longest total (s.workingCount - (s.resources r).capacity coreId) :=
    spent_mono hlongest (by omega)
  rw [assign_cons hvalues]
  constructor
  case unchanged => exact h.unchanged.update _ _ _
  case perm => exact (SortedList.insert_perm _ r rest).trans hperm
  case sorted =>
    have hsorted := h.sorted
    rw [hvalues, SortedList.Sorted, List.pairwise_cons] at hsorted
    exact SortedList.Sorted.insert _ (SortedList.Sorted.congr hsorted.2 fun q hq => by
      change (given coreId s r q).time = _
      rw [given_of_ne (ne_of_mem_of_not_mem hq hrest)]
      rfl)
  case nonneg =>
    intro q hq
    by_cases hqr : q = r
    · subst hqr
      exact htime ▸ add_nonneg (h.nonneg q hr) havg0
    · simpa [Simulation.time, hqr] using h.nonneg q hq
  case early =>
    intro q hq hqcap
    by_cases hqr : q = r
    · subst hqr
      have hstep : spent longest total s.workingCount + longest ≤
          spent longest total (s.workingCount - (s.resources q).capacity coreId) :=
        spent_add hlongest hleft (by omega)
      change ((given coreId s q q).time).toInt ≤ _
      dsimp only
      omega
    · have hle := h.early q hq hqcap
      simp only [Simulation.time, given_of_ne hqr] at hle ⊢
      omega
  case bound =>
    intro q hq
    by_cases hqr : q = r
    · subst hqr
      change ((given coreId s q q).time).toInt ≤ _
      dsimp only
      omega
    · have hle := h.bound q hq
      simp only [Simulation.time, given_of_ne hqr] at hle ⊢
      omega
  case sum =>
    have hsum := h.sum
    rw [hvalues, List.map_cons, List.sum_cons] at hsum
    have hsame : rest.map (fun q => (given coreId s r q).counts coreId) =
        rest.map fun q => (s.resources q).counts coreId :=
      List.map_congr_left fun q hq => by rw [given_of_ne (ne_of_mem_of_not_mem hq hrest)]
    rw [((SortedList.insert_perm _ r rest).map _).sum_eq, List.map_cons, List.sum_cons, hsame, given_counts,
      if_pos rfl]
    dsimp only
    omega
  case zero =>
    intro q hq hqcap
    by_cases hqr : q = r
    · subst hqr
      rw [given_counts, if_pos rfl, h.zero q hq hqcap, hcap, hqcap, min_eq_left hleft.le, add_zero]
    · change (given coreId s r q).counts coreId = 0
      rw [given_of_ne hqr]
      exact h.zero q hq hqcap
  case others =>
    intro q c hc
    by_cases hqr : q = r
    · subst hqr
      rw [given_counts, if_neg hc]
      exact h.others q c hc
    · change (given coreId s r q).counts c = _
      rw [given_of_ne hqr]
      exact h.others q c hc

/-! ## The loop ends -/

/-- How often the resources without room can still come before `able`. -/
def lag (o : ResourceId → Resource) (coreId : Nat) (able : ResourceId) (s : Simulation) : Nat :=
  (s.values.map fun r =>
    if (o r).capacity coreId = 0 then ((s.time able).toInt + 1 - (s.time r).toInt).toNat else 0).sum

/-- The load that is left, and how long it may take until it is less. -/
def toAssign (o : ResourceId → Resource) (coreId : Nat) (able : ResourceId) (s : Simulation) : ℕ ×ₗ ℕ :=
  toLex (s.workingCount.toNat, lag o coreId able s)

/-- The first of the list is not later than one with room. -/
theorem time_le_able (h : Assigning o working longest coreId begin total counts s) (hvalues : s.values = r :: rest)
    {able : ResourceId} (hable : able ∈ working) : (s.time r).toInt ≤ (s.time able).toInt := by
  have hmem : able ∈ s.values := h.perm.mem_iff.mpr hable
  have hsorted := h.sorted
  rw [hvalues] at hmem
  rw [hvalues, SortedList.Sorted, List.pairwise_cons] at hsorted
  rcases List.mem_cons.mp hmem with rfl | hmem
  · exact le_rfl
  · exact Int64.le_iff_toInt_le.mp (hsorted.1 able hmem)

theorem first_early (h : Assigning o working longest coreId begin total counts s) (hvalues : s.values = r :: rest)
    {able : ResourceId} (hable : able ∈ working) (hcap : 0 < (o able).capacity coreId) :
    (s.time r).toInt ≤ begin + spent longest total s.workingCount :=
  (time_le_able h hvalues hable).trans (h.early able hable hcap)

theorem toAssign_lt (ht : CoreTables o working longest coreId) (hlongest : 0 ≤ longest)
    (hroom : begin + longest * (total + 1) < 2 ^ 63)
    (hgrows : ∀ r ∈ working, (o r).capacity coreId = 0 → (o r).averageExecutionTime coreId ≠ 0)
    (h : Assigning o working longest coreId begin total counts s) (hvalues : s.values = r :: rest)
    (hleft : 0 < s.workingCount) {able : ResourceId} (hable : able ∈ working)
    (hcap : 0 < (o able).capacity coreId) :
    toAssign o coreId able (s.assign coreId) < toAssign o coreId able s := by
  have hperm := h.perm
  rw [hvalues] at hperm
  have hr : r ∈ working := hperm.mem_iff.mp (List.mem_cons_self ..)
  have hrest : r ∉ rest := (List.nodup_cons.mp (hperm.nodup_iff.mpr ht.nodup)).1
  have hcapr := congrFun (h.unchanged.capacity r) coreId
  rw [toAssign, toAssign, assign_cons hvalues, Prod.Lex.toLex_lt_toLex]
  rcases (ht.capacity r hr).lt_or_eq with hpos | hzero
  · left
    dsimp only
    omega
  · -- no room: the load stays, and the time of the resource grows
    right
    dsimp only
    refine ⟨by omega, ?_⟩
    have hne : able ≠ r := fun he => by subst he; omega
    have htime := toInt_given_time ht h hr (first_early h hvalues hable hcap) hroom hlongest
    have hle := time_le_able h hvalues hable
    have havg : 0 < ((o r).averageExecutionTime coreId).toInt :=
      (ht.average r hr).lt_of_ne fun h0 => hgrows r hr hzero.symm (Int64.toInt_inj.mp h0.symm)
    have hsame : ∀ q ∈ rest, given coreId s r q = s.resources q := fun q hq =>
      given_of_ne (ne_of_mem_of_not_mem hq hrest)
    unfold lag
    simp only [Simulation.time, given_of_ne hne] at htime hle ⊢
    rw [((SortedList.insert_perm _ r rest).map _).sum_eq, hvalues, List.map_cons, List.sum_cons, List.map_cons,
      List.sum_cons, if_pos hzero.symm, if_pos hzero.symm,
      List.map_congr_left fun q hq => by rw [hsame q hq], htime]
    omega

/-- The loop for a core for which the times of the resources without room grow. -/
theorem exists_assignLoad (ht : CoreTables o working longest coreId) (hlongest : 0 ≤ longest)
    (hroom : begin + longest * (total + 1) < 2 ^ 63)
    (hgrows : ∀ r ∈ working, (o r).capacity coreId = 0 → (o r).averageExecutionTime coreId ≠ 0)
    {able : ResourceId} (hable : able ∈ working) (hcap : 0 < (o able).capacity coreId)
    (h : Assigning o working longest coreId begin total counts s) :
    ∃ fuel t, whileLoop (fun s => 0 < s.workingCount) (Simulation.assign coreId) fuel s = some t ∧
      Assigning o working longest coreId begin total counts t ∧ t.workingCount ≤ 0 := by
  have hturn : ∀ s, Assigning o working longest coreId begin total counts s → decide (0 < s.workingCount) = true →
      Assigning o working longest coreId begin total counts (s.assign coreId) ∧
        toAssign o coreId able (s.assign coreId) < toAssign o coreId able s := fun s h hs => by
    have hleft := of_decide_eq_true hs
    have hne : s.values ≠ [] := fun hnil => by
      have := h.perm.mem_iff.mpr hable
      rw [hnil] at this
      cases this
    obtain ⟨r, rest, hvalues⟩ := List.exists_cons_of_ne_nil hne
    exact ⟨h.assign ht hlongest hroom hvalues hleft (first_early h hvalues hable hcap),
      toAssign_lt ht hlongest hroom hgrows h hvalues hleft hable hcap⟩
  obtain ⟨fuel, t, hrun, hI, hend⟩ := whileLoop_total (toAssign o coreId able) hturn h
  exact ⟨fuel, t, hrun, hI, by simpa using hend⟩

end

/-! ## All the cores -/

/-- The load of the first `k` cores is assigned, and none of the later ones. -/
structure Loaded (o : ResourceId → Resource) (working : List ResourceId) (load : Nat → Nat) (bound : Int) (k : Nat)
    (s : Simulation) : Prop where
  unchanged : Unchanged o s.resources
  perm : s.values.Perm working
  sorted : SortedList.Sorted s.time s.values
  nonneg : ∀ r ∈ working, 0 ≤ (s.time r).toInt
  bound : ∀ r ∈ working, (s.time r).toInt ≤ bound
  sum : ∀ c < k, (working.map fun r => (s.resources r).counts c).sum = load c
  zero : ∀ c < k, ∀ r ∈ working, (o r).capacity c = 0 → (s.resources r).counts c = 0
  later : ∀ c, k ≤ c → ∀ r ∈ working, (s.resources r).counts c = 0

section
variable {o : ResourceId → Resource} {working : List ResourceId} {longest bound : Int} {k : Nat}
  {load : Nat → Nat} {s t : Simulation}

/-- Before the loop. -/
theorem Loaded.assigning (h : Loaded o working load bound k s) (hlongest : 0 ≤ longest) :
    Assigning o working longest k bound (load k) (fun r => (s.resources r).counts)
      { s with workingCount := load k } where
  unchanged := h.unchanged
  perm := h.perm
  sorted := h.sorted
  nonneg := h.nonneg
  early r hr _ := by
    have hle := h.bound r hr
    simp only [spent, Simulation.time] at hle ⊢
    simpa using hle
  bound r hr := by
    have hle := h.bound r hr
    simp only [spent, Simulation.time] at hle ⊢
    simpa using hle.trans (by omega)
  sum := by
    have hzero : s.values.map (fun r => (s.resources r).counts k) = s.values.map fun _ => 0 :=
      List.map_congr_left fun r hr => h.later k le_rfl r (h.perm.mem_iff.mp hr)
    dsimp only
    rw [hzero]
    simp
  zero r hr _ := h.later k le_rfl r hr
  others _ _ _ := rfl

/-- After the loop. -/
theorem Assigning.loaded (hs : Loaded o working load bound k s) (hlongest : 0 ≤ longest)
    (h : Assigning o working longest k bound (load k) (fun r => (s.resources r).counts) t)
    (hend : t.workingCount ≤ 0) : Loaded o working load (bound + longest * (load k + 1)) (k + 1) t where
  unchanged := h.unchanged
  perm := h.perm
  sorted := h.sorted
  nonneg := h.nonneg
  bound r hr := by
    have hle := h.bound r hr
    have hspent : spent longest (load k) t.workingCount ≤ longest * load k := spent_le hlongest
    rw [mul_add, mul_one]
    omega
  sum c hc := by
    rcases Nat.lt_succ_iff_lt_or_eq.mp hc with hc | rfl
    · rw [← hs.sum c hc]
      exact congrArg List.sum (List.map_congr_left fun r _ => h.others r c hc.ne)
    · have hsum := h.sum
      rw [max_eq_right hend, add_zero, (h.perm.map _).sum_eq] at hsum
      exact hsum
  zero c hc r hr hcap := by
    rcases Nat.lt_succ_iff_lt_or_eq.mp hc with hc | rfl
    · rw [h.others r c hc.ne]
      exact hs.zero c hc r hr hcap
    · exact h.zero r hr hcap
  later c hc r hr := by
    rw [h.others r c (by omega)]
    exact hs.later c (by omega) r hr

/-- One core: it has no load, or there is room for it and time passes. -/
theorem Loaded.assignLoad (ht : CoreTables o working longest k) (hlongest : 0 ≤ longest)
    (hroom : bound + longest * (load k + 1) < 2 ^ 63)
    (hgrows : (∃ r ∈ working, 0 < (o r).capacity k) →
      ∀ r ∈ working, (o r).capacity k = 0 → (o r).averageExecutionTime k ≠ 0)
    (hable : 0 < load k → ∃ r ∈ working, 0 < (o r).capacity k) (h : Loaded o working load bound k s) :
    ∃ fuel t, Simulation.assignLoad load fuel s k = some t ∧
      Loaded o working load (bound + longest * (load k + 1)) (k + 1) t := by
  rcases Nat.eq_zero_or_pos (load k) with hload | hload
  · refine ⟨0, { s with workingCount := load k }, whileLoop_of_not 0 (by simp [hload]), ?_⟩
    exact (h.assigning hlongest).loaded h hlongest (by simp [hload])
  · obtain ⟨able, hable, hcap⟩ := hable hload
    obtain ⟨fuel, t, hrun, hI, hend⟩ := exists_assignLoad ht hlongest hroom (hgrows ⟨able, hable, hcap⟩) hable hcap
      (h.assigning hlongest)
    exact ⟨fuel, t, hrun, hI.loaded h hlongest hend⟩

theorem assignLoad_mono {fuel fuel' : Nat} (hle : fuel ≤ fuel')
    (h : Simulation.assignLoad load fuel s k = some t) : Simulation.assignLoad load fuel' s k = some t :=
  whileLoop_mono hle h

theorem foldlM_assignLoad_mono {fuel fuel' : Nat} (hle : fuel ≤ fuel') (cores : List Nat)
    (h : cores.foldlM (Simulation.assignLoad load fuel) s = some t) :
    cores.foldlM (Simulation.assignLoad load fuel') s = some t := by
  induction cores generalizing s with
  | nil => exact h
  | cons c cores ih =>
    rw [List.foldlM_cons, Option.bind_eq_bind, Option.bind_eq_some_iff] at h ⊢
    obtain ⟨u, hu, h⟩ := h
    exact ⟨u, assignLoad_mono hle hu, ih h⟩

/-- All the executions, and one more for each core. -/
def totalLoad (load : Nat → Nat) (coreCount : Nat) : Nat := ((List.range coreCount).map fun c => load c + 1).sum

@[simp] theorem totalLoad_succ (coreCount : Nat) :
    totalLoad load (coreCount + 1) = totalLoad load coreCount + (load coreCount + 1) := by
  simp [totalLoad, List.range_succ]

theorem totalLoad_single (c coreCount : Nat) :
    totalLoad (fun d => if d = c then 1 else 0) coreCount = coreCount + if c < coreCount then 1 else 0 := by
  induction coreCount with
  | zero => rfl
  | succ n ih =>
    rw [totalLoad_succ, ih]
    split_ifs <;> omega

/-- Every core. -/
theorem Loaded.assignAll (hlongest : 0 ≤ longest) (h : Loaded o working load bound 0 s) (coreCount : Nat)
    (ht : ∀ c < coreCount, CoreTables o working longest c)
    (hroom : bound + longest * totalLoad load coreCount < 2 ^ 63)
    (hgrows : ∀ c < coreCount, (∃ r ∈ working, 0 < (o r).capacity c) →
      ∀ r ∈ working, (o r).capacity c = 0 → (o r).averageExecutionTime c ≠ 0)
    (hable : ∀ c < coreCount, 0 < load c → ∃ r ∈ working, 0 < (o r).capacity c) :
    ∃ fuel t, (List.range coreCount).foldlM (Simulation.assignLoad load fuel) s = some t ∧
      Loaded o working load (bound + longest * totalLoad load coreCount) coreCount t := by
  induction coreCount with
  | zero => exact ⟨0, s, rfl, by simpa [totalLoad] using h⟩
  | succ n ih =>
    have hsplit : bound + longest * totalLoad load (n + 1) =
        bound + longest * totalLoad load n + longest * (load n + 1) := by
      rw [totalLoad_succ]
      push_cast
      ring
    rw [hsplit] at hroom ⊢
    have hpos : 0 ≤ longest * ((load n : Int) + 1) := mul_nonneg hlongest (by omega)
    obtain ⟨fuel, t, hrun, hI⟩ := ih (fun c hc => ht c (by omega)) (by omega) (fun c hc => hgrows c (by omega))
      (fun c hc => hable c (by omega))
    obtain ⟨fuel', u, hrun', hI'⟩ := hI.assignLoad (ht n (by omega)) hlongest hroom (hgrows n (by omega))
      (hable n (by omega))
    refine ⟨max fuel fuel', u, ?_, hI'⟩
    rw [List.range_succ, List.foldlM_append, foldlM_assignLoad_mono (le_max_left _ _) _ hrun]
    simpa using assignLoad_mono (le_max_right fuel fuel') hrun'

end

/-! ## A resource that stays the first -/

/-- `z` is before all the others, has no room for the core, and takes no time
for it. -/
structure Stuck (coreId : Nat) (z : ResourceId) (s : Simulation) : Prop where
  first : ∃ rest, s.values = z :: rest ∧ ∀ q ∈ rest, s.time z < s.time q
  capacity : (s.resources z).capacity coreId = 0
  average : (s.resources z).averageExecutionTime coreId = 0

section
variable {coreId : Nat} {z : ResourceId} {s : Simulation} {load : Nat → Nat}

theorem Stuck.assign (h : Stuck coreId z s) :
    Stuck coreId z (s.assign coreId) ∧ (s.assign coreId).workingCount = s.workingCount := by
  obtain ⟨rest, hvalues, hfirst⟩ := h.first
  have htime : ∀ q, (given coreId s z q).time = s.time q := by
    intro q
    by_cases hq : q = z
    · subst hq
      rw [given_time, h.average]
      exact Int64.add_zero _
    · rw [given_of_ne hq]
      rfl
  have hinsert : SortedList.insert (fun q => (given coreId s z q).time) z rest = z :: rest := by
    cases rest with
    | nil => rfl
    | cons q rest =>
      rw [SortedList.insert, List.orderedInsert_cons, if_pos]
      rw [htime, htime]
      exact hfirst q (List.mem_cons_self ..)
  rw [assign_cons hvalues, hinsert]
  refine ⟨⟨⟨rest, rfl, fun q hq => ?_⟩, ?_, ?_⟩, by rw [h.capacity]; exact Int.sub_zero _⟩
  · change (given coreId s z z).time < (given coreId s z q).time
    rw [htime, htime]
    exact hfirst q hq
  · simpa [given] using h.capacity
  · simpa [given, Resource.averageExecutionTime] using h.average

theorem Stuck.whileLoop (h : Stuck coreId z s) (hleft : 0 < s.workingCount) (fuel : Nat) :
    whileLoop (fun s => 0 < s.workingCount) (Simulation.assign coreId) fuel s = none :=
  whileLoop_diverges (I := fun s => Stuck coreId z s ∧ 0 < s.workingCount) (fun _ h => by simpa using h.2)
    (fun _ h => ⟨h.1.assign.1, h.1.assign.2 ▸ h.2⟩) ⟨h, hleft⟩ fuel

/-- A load of one for this core, after cores without load. -/
theorem Stuck.assignAll (h : Stuck coreId z s) (hload : 0 < load coreId) (hother : ∀ c ≠ coreId, load c = 0)
    (fuel : Nat) {cores : List Nat} (hmem : coreId ∈ cores) :
    cores.foldlM (Simulation.assignLoad load fuel) s = none := by
  induction cores generalizing s with
  | nil => cases hmem
  | cons c cores ih =>
    rw [List.foldlM_cons, Option.bind_eq_bind]
    by_cases hc : c = coreId
    · subst hc
      have hstuck : Stuck c z { s with workingCount := load c } := ⟨h.first, h.capacity, h.average⟩
      have hnone : Simulation.assignLoad load fuel s c = none := hstuck.whileLoop (by simpa using hload) fuel
      rw [hnone, Option.bind_none]
    · have hsome : Simulation.assignLoad load fuel s c = some { s with workingCount := load c } :=
        whileLoop_of_not fuel (by simp [hother c hc])
      rw [hsome, Option.bind_some]
      exact ih ⟨h.first, h.capacity, h.average⟩ ((List.mem_cons.mp hmem).resolve_left (Ne.symm hc))

end

namespace MOResourceOptimizer

/-! ## The simulation -/

/-- The resources of the array are cleared. -/
def cleared (o : ResourceId → Resource) (resources : List ResourceId) : ResourceId → Resource := fun r =>
  if r ∈ resources then { o r with time := (o r).startTime, counts := fun _ => 0 } else o r

theorem unchanged_cleared (o : ResourceId → Resource) (resources : List ResourceId) :
    Unchanged o (cleared o resources) := by
  intro r
  by_cases hr : r ∈ resources <;> simp [cleared, hr]

theorem clear_run {o : ResourceId → Resource} {r : ResourceId} (h : (o r).profiles ≠ none) :
    clear r o = .ok ⟨⟩ (Function.update o r { o r with time := (o r).startTime, counts := fun _ => 0 }) := by
  obtain ⟨profiles, hprofiles⟩ := Option.ne_none_iff_exists'.mp h
  simp [clear, Java.bind_run, hprofiles]

theorem cleared_cons (o : ResourceId → Resource) (r : ResourceId) (resources : List ResourceId) :
    cleared (Function.update o r { o r with time := (o r).startTime, counts := fun _ => 0 }) resources =
      cleared o (r :: resources) := by
  funext q
  by_cases hq : q = r
  · subst hq
    by_cases hmem : q ∈ resources <;> simp [cleared, hmem]
  · simp [cleared, hq]

theorem clearAll_run {o : ResourceId → Resource} {resources : List ResourceId}
    (h : ∀ r ∈ resources, (o r).profiles ≠ none) :
    resources.forM clear o = .ok ⟨⟩ (cleared o resources) := by
  induction resources generalizing o with
  | nil =>
    have hnil : cleared o [] = o := by funext r; simp [cleared]
    rw [hnil]
    rfl
  | cons r resources ih =>
    change (clear r >>= fun _ => resources.forM clear) o = _
    rw [Java.bind_ok (clear_run (h r (by simp))), ← cleared_cons]
    refine ih fun q hq => ?_
    by_cases hqr : q = r
    · subst hqr
      rw [Function.update_self]
      exact h q (by simp)
    · rw [Function.update_of_ne hqr]
      exact h q (by simp [hq])

theorem executable_cleared (o : ResourceId → Resource) (rs resources : List ResourceId) :
    executable (cleared o rs) resources = executable o resources :=
  List.filter_congr fun r _ => (unchanged_cleared o rs).canExecute r

/-- What the simulation begins with. -/
def begun (o : ResourceId → Resource) (resources : List ResourceId) : Simulation :=
  ⟨cleared o resources, SortedList.init (fun r => (cleared o resources r).time) (executable o resources), 0⟩

theorem simulate_eq {o : ResourceId → Resource} {resources : List ResourceId} {coreCount : Nat} {load : Nat → Nat}
    (hprofiles : ∀ r ∈ resources, (o r).profiles ≠ none) (fuel : Nat) (minTime : Int64) (minEnergy minCost : ℚ) :
    simulate fuel coreCount load resources minTime minEnergy minCost o =
      if executable o resources = [] ∧ ∃ c ∈ List.range coreCount, 0 < load c then
        .error .arrayIndexOutOfBounds (cleared o resources)
      else match (List.range coreCount).foldlM (Simulation.assignLoad load fuel) (begun o resources) with
        | none => .error .noReturn (cleared o resources)
        | some s => .ok (summary coreCount (resources.map s.resources) minTime minEnergy minCost, s.values)
            s.resources := by
  rw [simulate, Java.bind_ok (clearAll_run hprofiles), Java.bind_ok (Java.get_run _), executable_cleared]
  by_cases h : executable o resources = [] ∧ ∃ c ∈ List.range coreCount, 0 < load c
  · rw [if_pos h, if_pos h]
    rfl
  · rw [if_neg h, if_neg h, ← begun]
    cases (List.range coreCount).foldlM (Simulation.assignLoad load fuel) (begun o resources) <;> rfl

theorem simulate_run {o : ResourceId → Resource} {resources : List ResourceId} {coreCount : Nat} {load : Nat → Nat}
    (hprofiles : ∀ r ∈ resources, (o r).profiles ≠ none) (hworking : executable o resources ≠ []) (fuel : Nat)
    (minTime : Int64) (minEnergy minCost : ℚ) :
    simulate fuel coreCount load resources minTime minEnergy minCost o =
      match (List.range coreCount).foldlM (Simulation.assignLoad load fuel) (begun o resources) with
      | none => .error .noReturn (cleared o resources)
      | some s => .ok (summary coreCount (resources.map s.resources) minTime minEnergy minCost, s.values)
          s.resources := by
  rw [simulate_eq hprofiles, if_neg fun h => hworking h.1]

/-- An array of resources, with their capacities and average times. `longest`
bounds the average times, and leaves the times of one execution in range. -/
structure Tables (o : ResourceId → Resource) (resources : List ResourceId) (coreCount : Nat) (longest : Int) :
    Prop where
  nodup : resources.Nodup
  profiles : ∀ r ∈ resources, (o r).profiles ≠ none
  working : executable o resources ≠ []
  capacity : ∀ c < coreCount, ∀ r ∈ executable o resources, 0 ≤ (o r).capacity c
  average : ∀ c < coreCount, ∀ r ∈ executable o resources, 0 ≤ ((o r).averageExecutionTime c).toInt
  average_le : ∀ c < coreCount, ∀ r ∈ executable o resources, ((o r).averageExecutionTime c).toInt ≤ longest
  longest_nonneg : 0 ≤ longest
  room : 1 + longest * (coreCount + 1) < 2 ^ 63

/-- The array when the resources are free at these times. -/
def started (o : ResourceId → Resource) (start : ResourceId → Int64) : ResourceId → Resource := fun r =>
  { o r with startTime := start r }

/-- A load, and the times the resources are free at: each core with load has a
resource with room for it, and the times stay in the range of `long`. -/
structure Demand (o : ResourceId → Resource) (resources : List ResourceId) (coreCount : Nat) (longest : Int)
    (load : Nat → Nat) (start : ResourceId → Int64) : Prop where
  nonneg : ∀ r ∈ executable o resources, 0 ≤ (start r).toInt
  room : ∀ r ∈ executable o resources, (start r).toInt + longest * totalLoad load coreCount < 2 ^ 63
  able : ∀ c < coreCount, 0 < load c → ∃ r ∈ executable o resources, 0 < (o r).capacity c

/-- What is asked of the resources and of the sorted list at the end. -/
structure Assigns (working : List ResourceId) (coreCount : Nat) (load : Nat → Nat) (o : ResourceId → Resource)
    (values : List ResourceId) : Prop where
  sum : ∀ c < coreCount, (working.map fun r => (o r).counts c).sum = load c
  zero : ∀ c < coreCount, ∀ r ∈ working, (o r).capacity c = 0 → (o r).counts c = 0
  perm : values.Perm working
  sorted : SortedList.Sorted (fun r => (o r).time) values

/-- The simulation returns, and the whole load is assigned. -/
def Simulates (o : ResourceId → Resource) (resources : List ResourceId) (coreCount : Nat) (load : Nat → Nat) : Prop :=
  ∀ minTime minEnergy minCost, ∃ fuel sums values o',
    simulate fuel coreCount load resources minTime minEnergy minCost o = .ok (sums, values) o' ∧
      Assigns (executable o resources) coreCount load o' values

section
variable {o : ResourceId → Resource} {resources : List ResourceId} {coreCount : Nat} {longest : Int}
  {load : Nat → Nat} {start : ResourceId → Int64}

theorem mem_of_executable {r : ResourceId} (h : r ∈ executable o resources) : r ∈ resources :=
  (List.mem_filter.mp h).1

theorem begun_time {r : ResourceId} (h : r ∈ executable o resources) :
    (begun (started o start) resources).time r = start r := by
  simp [begun, Simulation.time, cleared, started, mem_of_executable h]

/-- The sorted list before anything is assigned. -/
theorem begun_perm : (begun (started o start) resources).values.Perm (executable o resources) :=
  SortedList.init_perm _ _

theorem begun_sorted :
    SortedList.Sorted (begun (started o start) resources).time (begun (started o start) resources).values :=
  SortedList.init_sorted _ _

theorem begun_unchanged : Unchanged (started o start) (begun (started o start) resources).resources :=
  unchanged_cleared _ _

theorem Tables.core (ht : Tables o resources coreCount longest) {c : Nat} (hc : c < coreCount) :
    CoreTables (started o start) (executable o resources) longest c where
  nodup := ht.nodup.filter _
  capacity := ht.capacity c hc
  average := ht.average c hc
  average_le := ht.average_le c hc

theorem Demand.loaded (hd : Demand o resources coreCount longest load start) :
    Loaded (started o start) (executable o resources) load (2 ^ 63 - 1 - longest * totalLoad load coreCount) 0
      (begun (started o start) resources) where
  unchanged := begun_unchanged
  perm := begun_perm
  sorted := begun_sorted
  nonneg r hr := by
    rw [begun_time hr]
    exact hd.nonneg r hr
  bound r hr := by
    have hroom := hd.room r hr
    rw [begun_time hr]
    omega
  sum c hc := absurd hc (by omega)
  zero c hc := absurd hc (by omega)
  later c _ r hr := by
    simp [begun, cleared, started, mem_of_executable hr]

/-- When the time of every resource without room grows, the simulation ends with
the whole load assigned. -/
theorem simulate_assigns (ht : Tables o resources coreCount longest)
    (hgrows : ∀ c < coreCount, (∃ r ∈ executable o resources, 0 < (o r).capacity c) →
      ∀ r ∈ executable o resources, (o r).capacity c = 0 → (o r).averageExecutionTime c ≠ 0)
    (hd : Demand o resources coreCount longest load start) :
    Simulates (started o start) resources coreCount load := by
  intro minTime minEnergy minCost
  obtain ⟨fuel, t, hrun, h⟩ := hd.loaded.assignAll ht.longest_nonneg coreCount (fun c hc => ht.core hc) (by omega)
    hgrows hd.able
  have hassigns : Assigns (executable (started o start) resources) coreCount load t.resources t.values :=
    ⟨h.sum, fun c hc r hr hcap => h.zero c hc r hr (by rw [← hcap, h.unchanged.capacity]), h.perm, h.sorted⟩
  refine ⟨fuel, summary coreCount (resources.map t.resources) minTime minEnergy minCost, t.values, t.resources,
    ?_, hassigns⟩
  rw [simulate_run (o := started o start) ht.profiles ht.working, hrun]

/-- The first of a sorted list. -/
theorem exists_first {time : ResourceId → Int64} {values : List ResourceId} {z : ResourceId}
    (hsorted : SortedList.Sorted time values) (hnodup : values.Nodup) (hz : z ∈ values)
    (hfirst : ∀ q ∈ values, q ≠ z → time z < time q) :
    ∃ rest, values = z :: rest ∧ ∀ q ∈ rest, time z < time q := by
  cases values with
  | nil => cases hz
  | cons r rest =>
    rw [SortedList.Sorted, List.pairwise_cons] at hsorted
    rw [List.nodup_cons] at hnodup
    have hr : r = z := by
      by_contra hne
      have hlt := hfirst r (by simp) hne
      have hle := hsorted.1 z ((List.mem_cons.mp hz).resolve_left (Ne.symm hne))
      exact Int64.not_le.mpr hlt hle
    subst hr
    exact ⟨rest, rfl, fun q hq => hfirst q (by simp [hq]) (ne_of_mem_of_not_mem hq hnodup.1)⟩

/-- One execution of the core, when all resources but `z` are free later. -/
theorem not_simulates (ht : Tables o resources coreCount longest) {c : Nat} (hc : c < coreCount) {z : ResourceId}
    (hz : z ∈ executable o resources) (hcap : (o z).capacity c = 0) (havg : (o z).averageExecutionTime c = 0) :
    ¬ Simulates (started o fun r => if r = z then 0 else 1) resources coreCount fun d => if d = c then 1 else 0 := by
  intro h
  obtain ⟨fuel, sums, values, o', hrun, _⟩ := h 0 0 0
  have hstuck : Stuck c z (begun (started o fun r => if r = z then 0 else 1) resources) := by
    refine ⟨exists_first begun_sorted (begun_perm.nodup_iff.mpr (ht.nodup.filter _)) (begun_perm.mem_iff.mpr hz) ?_,
      ?_, ?_⟩
    · intro q hq hne
      rw [begun_time hz, begun_time (begun_perm.mem_iff.mp hq), if_pos rfl, if_neg hne]
      decide
    · rw [begun_unchanged.capacity]
      exact hcap
    · rw [begun_unchanged.averageExecutionTime]
      exact havg
  rw [simulate_run (o := started o fun r => if r = z then 0 else 1) ht.profiles ht.working,
    hstuck.assignAll (by simp) (fun d hd => by simp [hd]) fuel (List.mem_range.mpr hc)] at hrun
  cases hrun

/-- For which tables every load is assigned, whenever the resources are free. -/
theorem simulate_assigns_iff (ht : Tables o resources coreCount longest) :
    (∀ load start, Demand o resources coreCount longest load start →
      Simulates (started o start) resources coreCount load) ↔
    ∀ c < coreCount, (∃ r ∈ executable o resources, 0 < (o r).capacity c) →
      ∀ r ∈ executable o resources, (o r).capacity c = 0 → (o r).averageExecutionTime c ≠ 0 := by
  constructor
  · rintro h c hc ⟨able, hable, hpos⟩ z hz hcap havg
    refine not_simulates ht hc hz hcap havg (h _ _ ⟨fun r _ => ?_, fun r _ => ?_, fun d hd hload => ?_⟩)
    · split <;> decide
    · have hroom := ht.room
      rw [totalLoad_single, if_pos hc]
      push_cast
      have hle : (if r = z then (0 : Int64) else 1).toInt ≤ 1 := by split <;> decide
      omega
    · obtain rfl : d = c := by
        by_contra hne
        simp [hne] at hload
      exact ⟨able, hable, hpos⟩
  · exact fun hgrows load start hd => simulate_assigns ht hgrows hd

end

/-- The first resource has no room for the core, and its executions have taken
no time so far. -/
def fullAndFree : ResourceId → Resource := fun r =>
  { worker := none
    idlePower := 0
    idlePrice := 0
    profiles := some fun _ => ⟨if r = 0 then 0 else 10, 0, 0⟩
    capacity := fun _ => if r = 0 then 0 else 1
    startTime := 0
    startEnergy := 0
    startCost := 0
    time := 0
    counts := fun _ => 0 }

theorem tables_fullAndFree (resources : List ResourceId) (hnodup : resources.Nodup) (hne : resources ≠ []) :
    Tables fullAndFree resources 1 10 where
  nodup := hnodup
  profiles r _ := Option.some_ne_none _
  working := by simpa [executable, fullAndFree, Resource.canExecute] using hne
  capacity c _ r _ := by
    unfold fullAndFree
    dsimp only
    split <;> decide
  average c _ r _ := by
    unfold fullAndFree Resource.averageExecutionTime
    dsimp only
    split <;> decide
  average_le c _ r _ := by
    unfold fullAndFree Resource.averageExecutionTime
    dsimp only
    split <;> decide
  longest_nonneg := by decide
  room := by decide

/-- Without the resource that has no room. -/
theorem simulates_free : Simulates (started fullAndFree fun _ => 0) [1] 1 fun _ => 3 :=
  (simulate_assigns_iff (tables_fullAndFree [1] (by decide) (by decide))).mpr
    (fun c _ _ r hr hcap => by
      obtain rfl : r = 1 := List.mem_singleton.mp (mem_of_executable hr)
      exact absurd hcap one_ne_zero) _ _
    ⟨fun r _ => by decide, fun r _ => by decide, fun c _ _ => ⟨1, by decide, one_pos⟩⟩

/-- The load is one execution, for which the second resource has room. -/
theorem not_simulates_full :
    Demand fullAndFree [0, 1] 1 10 (fun d => if d = 0 then 1 else 0) (fun r => if r = 0 then 0 else 1) ∧
    ¬ Simulates (started fullAndFree fun r => if r = 0 then 0 else 1) [0, 1] 1 fun d => if d = 0 then 1 else 0 := by
  have ht := tables_fullAndFree [0, 1] (by decide) (by decide)
  refine ⟨⟨fun r _ => ?_, fun r _ => ?_, fun c _ _ => ⟨1, by decide, one_pos⟩⟩,
    not_simulates ht one_pos (by decide) (by decide) (by decide)⟩
  · split <;> decide
  · split <;> decide

end MOResourceOptimizer

end Compss.MultiObjective
