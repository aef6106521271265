/-
The profiles of an implementation: what a worker has collected, and the records
it is saved in.

A record is kept for every worker and one for the implementation. When the state
is saved, the profile of the worker replaces its own record, and the difference
between the two is added to the record of the implementation. The difference
has no maximum (`updateJSON` puts the average twice in its place), so that the
maximum of the implementation is never raised (`saveAll_summarises_iff`).

The average is rounded whenever something is added to it. Times in milliseconds
are longs, and so are the counts, which do not overflow.
-/
import Mathlib.Data.List.Basic
import Mathlib.Logic.Function.Basic
import Mathlib.Algebra.Order.Ring.Int
import Mathlib.Order.Bounds.Basic
import Mathlib.Tactic.Common

namespace Compss.Scheduler

def Long.MAX_VALUE : Int := 2 ^ 63 - 1

def Long.MIN_VALUE : Int := -2 ^ 63

/-- The time one execution took. -/
structure Execution where
  time : Int
  isLong : Long.MIN_VALUE ≤ time ∧ time ≤ Long.MAX_VALUE

structure Profile where
  executions : Int
  minTime : Int
  averageTime : Int
  maxTime : Int
  deriving DecidableEq, Repr

/-- The fields a record of a profile may have. -/
structure ProfileJSON where
  executions : Option Int
  minTime : Option Int
  avgTime : Option Int
  maxTime : Option Int
  deriving DecidableEq, Repr

namespace Profile

def DEFAULT_EXECUTION_TIME : Int := 100

/-- `new Profile(json)`. -/
def ofJSON (json : ProfileJSON) : Profile where
  executions := json.executions.getD 0
  minTime := json.minTime.getD Long.MAX_VALUE
  averageTime := json.avgTime.getD DEFAULT_EXECUTION_TIME
  maxTime := json.maxTime.getD Long.MIN_VALUE

/-- A profile between `start` and `end`, after `end`. -/
def ofExecution (e : Execution) : Profile := ⟨1, e.time, e.time, e.time⟩

def accumulate (p profile : Profile) : Profile :=
  let totalExecutions := p.executions + profile.executions
  if 0 < totalExecutions then
    { executions := totalExecutions
      minTime := if p.executions = 0 then profile.minTime else min p.minTime profile.minTime
      averageTime :=
        (profile.averageTime * profile.executions + p.executions * p.averageTime).tdiv totalExecutions
      maxTime := if p.executions = 0 then profile.maxTime else max p.maxTime profile.maxTime }
  else p

def toJSONObject (p : Profile) : ProfileJSON :=
  ⟨some p.executions, some p.minTime, some p.averageTime, some p.maxTime⟩

/-- The difference, and what the record is changed to. The first average that is
put into the difference is replaced. -/
def updateJSON (p : Profile) (jo : ProfileJSON) : ProfileJSON × ProfileJSON :=
  let oldExecutions := jo.executions.getD 0
  let oldAvg := jo.avgTime.getD 0
  let newExecutions := p.executions - oldExecutions
  let oldTime := oldAvg * oldExecutions
  let newTime := p.averageTime * p.executions
  let avgTime := if 0 < newExecutions then (newTime - oldTime).tdiv newExecutions else 0
  (⟨some newExecutions, some p.minTime, some avgTime, none⟩, p.toJSONObject)

/-- What the record is changed to. -/
def accumulateJSON (p : Profile) (jo : ProfileJSON) : ProfileJSON :=
  let oldExecutions := jo.executions.getD 0
  let oldMin := jo.minTime.getD Long.MAX_VALUE
  let oldMax := jo.maxTime.getD Long.MIN_VALUE
  let oldAvg := jo.avgTime.getD 0
  if 0 < p.executions then
    { executions := some (p.executions + oldExecutions)
      minTime := some (min p.minTime oldMin)
      avgTime := some ((oldAvg * oldExecutions + p.averageTime * p.executions).tdiv (p.executions + oldExecutions))
      maxTime := some (max p.maxTime oldMax) }
  else { jo with executions := some (p.executions + oldExecutions) }

end Profile

/-! ## Executions and their summaries -/

/-- The least of the times, and `Long.MAX_VALUE` if there are none. -/
def least (es : List Execution) : Int := es.foldr (fun e m => min e.time m) Long.MAX_VALUE

/-- The greatest of the times, and `Long.MIN_VALUE` if there are none. -/
def greatest (es : List Execution) : Int := es.foldr (fun e m => max e.time m) Long.MIN_VALUE

/-- The record says how many executions there were, the least and the greatest
of their times. -/
structure ProfileJSON.Summarises (jo : ProfileJSON) (es : List Execution) : Prop where
  executions : jo.executions.getD 0 = es.length
  minTime : jo.minTime.getD Long.MAX_VALUE = least es
  maxTime : jo.maxTime.getD Long.MIN_VALUE = greatest es

/-- The same of a profile. Without executions its times are those of others, and
no matter. -/
structure Profile.Summarises (p : Profile) (es : List Execution) : Prop where
  executions : p.executions = es.length
  minTime : es ≠ [] → p.minTime = least es
  maxTime : es ≠ [] → p.maxTime = greatest es

section
variable {e : Execution} {es fs : List Execution} {p q : Profile} {jo : ProfileJSON}

theorem least_cons : least (e :: es) = min e.time (least es) := rfl
theorem greatest_cons : greatest (e :: es) = max e.time (greatest es) := rfl

theorem least_singleton : least [e] = e.time := min_eq_left e.isLong.2
theorem greatest_singleton : greatest [e] = e.time := max_eq_left e.isLong.1

theorem le_least {m : Int} (hm : m ≤ Long.MAX_VALUE) : m ≤ least es ↔ ∀ e ∈ es, m ≤ e.time := by
  induction es with
  | nil => simpa [least] using hm
  | cons e es ih => rw [least_cons, le_min_iff, ih, List.forall_mem_cons]

theorem greatest_le {m : Int} (hm : Long.MIN_VALUE ≤ m) : greatest es ≤ m ↔ ∀ e ∈ es, e.time ≤ m := by
  induction es with
  | nil => simpa [greatest] using hm
  | cons e es ih => rw [greatest_cons, max_le_iff, ih, List.forall_mem_cons]

theorem least_le_MAX_VALUE : least es ≤ Long.MAX_VALUE := by
  induction es with
  | nil => exact Int.le_refl _
  | cons e es ih => exact (min_le_right _ _).trans ih

theorem MIN_VALUE_le_greatest : Long.MIN_VALUE ≤ greatest es := by
  induction es with
  | nil => exact Int.le_refl _
  | cons e es ih => exact ih.trans (le_max_right _ _)

theorem least_append : least (es ++ fs) = min (least es) (least fs) := by
  induction es with
  | nil => exact (min_eq_right least_le_MAX_VALUE).symm
  | cons e es ih => rw [List.cons_append, least_cons, least_cons, ih, min_assoc]

theorem greatest_append : greatest (es ++ fs) = max (greatest es) (greatest fs) := by
  induction es with
  | nil => exact (max_eq_right MIN_VALUE_le_greatest).symm
  | cons e es ih => rw [List.cons_append, greatest_cons, greatest_cons, ih, max_assoc]

/-- Of some executions it is the time of one, and of no other less. -/
theorem least_isLeast (h : es ≠ []) : IsLeast {t | ∃ e ∈ es, e.time = t} (least es) := by
  refine ⟨?_, fun t ⟨e, he, ht⟩ => ht ▸ (le_least least_le_MAX_VALUE).mp (Int.le_refl _) e he⟩
  induction es with
  | nil => exact absurd rfl h
  | cons e es ih =>
    by_cases hes : es = []
    · subst hes
      exact ⟨e, List.mem_cons_self, least_singleton.symm⟩
    · obtain ⟨f, hf, ht⟩ := ih hes
      rw [least_cons]
      rcases min_choice e.time (least es) with hmin | hmin
      · exact ⟨e, List.mem_cons_self, hmin.symm⟩
      · exact ⟨f, List.mem_cons_of_mem e hf, ht.trans hmin.symm⟩

/-- Of some executions it is the time of one, and of no other greater. -/
theorem greatest_isGreatest (h : es ≠ []) : IsGreatest {t | ∃ e ∈ es, e.time = t} (greatest es) := by
  refine ⟨?_, fun t ⟨e, he, ht⟩ => ht ▸ (greatest_le MIN_VALUE_le_greatest).mp (Int.le_refl _) e he⟩
  induction es with
  | nil => exact absurd rfl h
  | cons e es ih =>
    by_cases hes : es = []
    · subst hes
      exact ⟨e, List.mem_cons_self, greatest_singleton.symm⟩
    · obtain ⟨f, hf, ht⟩ := ih hes
      rw [greatest_cons]
      rcases max_choice e.time (greatest es) with hmax | hmax
      · exact ⟨e, List.mem_cons_self, hmax.symm⟩
      · exact ⟨f, List.mem_cons_of_mem e hf, ht.trans hmax.symm⟩

theorem least_perm (h : es.Perm fs) : least es = least fs := by
  induction h with
  | nil => rfl
  | cons e _ ih => rw [least_cons, least_cons, ih]
  | swap e f es => exact min_left_comm _ _ _
  | trans _ _ ih ih' => exact ih.trans ih'

theorem greatest_perm (h : es.Perm fs) : greatest es = greatest fs := by
  induction h with
  | nil => rfl
  | cons e _ ih => rw [greatest_cons, greatest_cons, ih]
  | swap e f es => exact max_left_comm _ _ _
  | trans _ _ ih ih' => exact ih.trans ih'

theorem ProfileJSON.Summarises.perm (h : jo.Summarises es) (hp : es.Perm fs) : jo.Summarises fs :=
  ⟨by rw [h.executions, hp.length_eq], by rw [h.minTime, least_perm hp], by rw [h.maxTime, greatest_perm hp]⟩

theorem Profile.Summarises.accumulate (h : p.Summarises es) (e : Execution) :
    (p.accumulate (ofExecution e)).Summarises (es ++ [e]) := by
  have hpos : 0 < p.executions + (ofExecution e).executions := by
    rw [h.executions, ofExecution]
    dsimp only
    omega
  rw [Profile.accumulate]
  simp only [if_pos hpos]
  by_cases hes : es = []
  · -- the first execution: the times of others are left behind
    subst hes
    have h0 : p.executions = 0 := h.executions
    simp only [if_pos h0]
    exact ⟨by simp [h0, ofExecution], fun _ => least_singleton.symm, fun _ => greatest_singleton.symm⟩
  · have h0 : p.executions ≠ 0 := by
      rw [h.executions]
      simpa using hes
    simp only [if_neg h0]
    refine ⟨by simp [h.executions, ofExecution], fun _ => ?_, fun _ => ?_⟩
    · rw [h.minTime hes, least_append, least_singleton]
      rfl
    · rw [h.maxTime hes, greatest_append, greatest_singleton]
      rfl

/-- What is collected: any number of executions. -/
def Profile.accumulateAll (p : Profile) (es : List Execution) : Profile :=
  es.foldl (fun p e => p.accumulate (ofExecution e)) p

theorem Profile.Summarises.accumulateAll (h : p.Summarises es) (fs : List Execution) :
    (p.accumulateAll fs).Summarises (es ++ fs) := by
  induction fs generalizing p es with
  | nil => simpa [Profile.accumulateAll] using h
  | cons f fs ih => simpa [Profile.accumulateAll] using ih (h.accumulate f)

end

/-! ## Saving the profiles of the workers -/

/-- The records that are there when the workers are added: those of the workers
are of executions that the one of the implementation is of too. -/
structure StoredProfiles (W : Type) where
  impl : ProfileJSON
  implExecutions : List Execution
  impl_summarises : impl.Summarises implExecutions
  resource : W → ProfileJSON
  executions : W → List Execution
  resource_summarises : ∀ w, (Profile.ofJSON (resource w)).Summarises (executions w)
  included : ∀ w, ∀ e ∈ executions w, e ∈ implExecutions

/-- The records of one implementation, and its profiles on the workers. -/
structure ProfileRecords (W : Type) where
  impl : ProfileJSON
  resource : W → ProfileJSON
  profile : W → Profile

variable {W : Type}

/-- Every worker loads its own record. -/
def StoredProfiles.load (s : StoredProfiles W) : ProfileRecords W := ⟨s.impl, s.resource, fun w => .ofJSON (s.resource w)⟩

namespace ProfileRecords

variable [DecidableEq W]

/-- Some executions end on a worker, and `updateResourceJSON` saves its profile. -/
def save (m : ProfileRecords W) (w : W) (es : List Execution) : ProfileRecords W :=
  let profile := (m.profile w).accumulateAll es
  let (difference, jo) := profile.updateJSON (m.resource w)
  { impl := (Profile.ofJSON difference).accumulateJSON m.impl
    resource := Function.update m.resource w jo
    profile := Function.update m.profile w profile }

def saveAll (m : ProfileRecords W) (saves : List (W × List Execution)) : ProfileRecords W :=
  saves.foldl (fun m s => m.save s.1 s.2) m

/-- The executions the records are of: the implementation has all of them, but
the maximum of those it was stored with. -/
structure Tracks (m : ProfileRecords W) (stored all : List Execution) (executions : W → List Execution) : Prop where
  count : m.impl.executions.getD 0 = all.length
  minTime : m.impl.minTime.getD Long.MAX_VALUE = least all
  maxTime : m.impl.maxTime.getD Long.MIN_VALUE = greatest stored
  profile : ∀ w, (m.profile w).Summarises (executions w)
  resource : ∀ w, (m.resource w).executions.getD 0 = (executions w).length
  included : ∀ w, ∀ e ∈ executions w, e ∈ all

section
variable {m : ProfileRecords W} {stored all es : List Execution} {executions : W → List Execution} {w : W}

theorem Tracks.save (h : Tracks m stored all executions) (w : W) (es : List Execution) :
    Tracks (m.save w es) stored (all ++ es) (Function.update executions w (executions w ++ es)) := by
  have hprofile := (h.profile w).accumulateAll es
  have hnew : ((m.profile w).accumulateAll es).executions - (m.resource w).executions.getD 0 = es.length := by
    rw [hprofile.executions, h.resource w, List.length_append]
    omega
  have hsaved : (m.save w es).impl = (Profile.ofJSON
      (((m.profile w).accumulateAll es).updateJSON (m.resource w)).1).accumulateJSON m.impl := rfl
  have hmax : Long.MIN_VALUE ≤ greatest stored := MIN_VALUE_le_greatest
  have hpos : 0 < (es.length : Int) ↔ es ≠ [] := by
    rw [← List.length_pos_iff]
    omega
  refine ⟨?_, ?_, ?_, fun v => ?_, fun v => ?_, fun v => ?_⟩
  · rw [hsaved]
    simp only [Profile.updateJSON, Profile.ofJSON, Option.getD_some, Profile.accumulateJSON, hnew, h.count]
    split <;> simp [Int.add_comm]
  · rw [hsaved]
    simp only [Profile.updateJSON, Profile.ofJSON, Option.getD_some, Profile.accumulateJSON, hnew, hpos, h.minTime]
    split
    · next hes =>
      -- the executions the worker had are among all
      have hold : least all ≤ least (executions w) :=
        (le_least least_le_MAX_VALUE).mpr fun e he => (le_least least_le_MAX_VALUE).mp (Int.le_refl _) e (h.included w e he)
      rw [Option.getD_some, hprofile.minTime (by simp [hes]), least_append, least_append]
      omega
    · next hes =>
      obtain rfl : es = [] := Classical.not_not.mp hes
      rw [List.append_nil, h.minTime]
  · rw [hsaved]
    simp only [Profile.updateJSON, Profile.ofJSON, Option.getD_some, Profile.accumulateJSON, hnew, h.maxTime, Option.getD_none]
    split
    · exact max_eq_right hmax
    · exact h.maxTime
  · rw [Function.update_apply]
    split
    · next hv =>
      subst hv
      simpa [ProfileRecords.save] using hprofile
    · next hv => simpa [ProfileRecords.save, hv] using h.profile v
  · rw [Function.update_apply]
    split
    · next hv =>
      subst hv
      simpa [ProfileRecords.save, Profile.updateJSON, Profile.toJSONObject] using hprofile.executions
    · next hv => simpa [ProfileRecords.save, hv] using h.resource v
  · rw [Function.update_apply]
    intro e he
    split at he
    · rcases List.mem_append.mp he with he | he
      · exact List.mem_append_left _ (h.included w e he)
      · exact List.mem_append_right _ he
    · exact List.mem_append_left _ (h.included v e he)

theorem Tracks.saveAll (h : Tracks m stored all executions) (saves : List (W × List Execution)) :
    ∃ executions', Tracks (m.saveAll saves) stored (all ++ saves.flatMap Prod.snd) executions' := by
  induction saves generalizing m all executions with
  | nil => exact ⟨executions, by simpa [ProfileRecords.saveAll] using h⟩
  | cons s saves ih =>
    obtain ⟨executions', h'⟩ := ih (h.save s.1 s.2)
    exact ⟨executions', by simpa [ProfileRecords.saveAll, List.append_assoc] using h'⟩

end

end ProfileRecords

namespace StoredProfiles

variable [DecidableEq W] (s : StoredProfiles W)

omit [DecidableEq W] in
theorem load_tracks : s.load.Tracks s.implExecutions s.implExecutions s.executions where
  count := s.impl_summarises.executions
  minTime := s.impl_summarises.minTime
  maxTime := s.impl_summarises.maxTime
  profile := s.resource_summarises
  resource w := (s.resource_summarises w).executions
  included := s.included

/-- However often the workers are saved and in whatever order, the record of the
implementation has the count and the least time of the executions of all, and
the greatest of those it was stored with. -/
theorem saveAll_tracks (saves : List (W × List Execution)) :
    (s.load.saveAll saves).impl.executions.getD 0 = (s.implExecutions ++ saves.flatMap Prod.snd).length ∧
      (s.load.saveAll saves).impl.minTime.getD Long.MAX_VALUE = least (s.implExecutions ++ saves.flatMap Prod.snd) ∧
      (s.load.saveAll saves).impl.maxTime.getD Long.MIN_VALUE = greatest s.implExecutions := by
  obtain ⟨_, h⟩ := s.load_tracks.saveAll saves
  exact ⟨h.count, h.minTime, h.maxTime⟩

/-- The record of the implementation summarises all executions, in whatever
order the workers are saved, exactly when no new one took longer than the
longest that was stored. -/
theorem saveAll_summarises_iff (saves : List (W × List Execution)) :
    (∀ saves', saves'.Perm saves →
      (s.load.saveAll saves').impl.Summarises (s.implExecutions ++ saves.flatMap Prod.snd)) ↔
      ∀ e ∈ saves.flatMap Prod.snd, e.time ≤ greatest s.implExecutions := by
  have hmax : Long.MIN_VALUE ≤ greatest s.implExecutions := MIN_VALUE_le_greatest
  rw [← greatest_le hmax]
  constructor
  · intro h
    have hsaved := (h saves (List.Perm.refl _)).maxTime
    rw [(s.saveAll_tracks saves).2.2, greatest_append] at hsaved
    omega
  · intro h saves' hp
    have hall : (s.implExecutions ++ saves'.flatMap Prod.snd).Perm (s.implExecutions ++ saves.flatMap Prod.snd) :=
      (hp.flatMap_right Prod.snd).append_left _
    obtain ⟨hcount, hmin, hsaved⟩ := s.saveAll_tracks saves'
    refine ⟨by rw [hcount, hall.length_eq], by rw [hmin, least_perm hall], ?_⟩
    rw [hsaved, greatest_append]
    omega

/-- One worker, with a record of one execution of 5 ms. -/
def oneExecution : StoredProfiles Unit where
  impl := ⟨some 1, some 5, some 5, some 5⟩
  implExecutions := [⟨5, by decide⟩]
  impl_summarises := ⟨rfl, rfl, rfl⟩
  resource _ := ⟨some 1, some 5, some 5, some 5⟩
  executions _ := [⟨5, by decide⟩]
  resource_summarises _ := ⟨rfl, fun _ => rfl, fun _ => rfl⟩
  included _ _ h := h

/-- After an execution of 9 ms the greatest time is still 5 ms. -/
theorem oneExecution_maxTime :
    (oneExecution.load.saveAll [((), [⟨9, by decide⟩])]).impl = ⟨some 2, some 5, some 7, some 5⟩ ∧
      ¬ (oneExecution.load.saveAll [((), [⟨9, by decide⟩])]).impl.Summarises [⟨5, by decide⟩, ⟨9, by decide⟩] := by
  have hsaved : (oneExecution.load.saveAll [((), [⟨9, by decide⟩])]).impl = ⟨some 2, some 5, some 7, some 5⟩ := by
    decide
  refine ⟨hsaved, fun h => ?_⟩
  have hmax := h.maxTime
  rw [hsaved] at hmax
  exact absurd hmax (by decide)

end StoredProfiles

-- The average is rounded in the order the differences come in.
example :
    ((⟨1, 0, 0, 0⟩ : Profile).accumulateJSON ((⟨1, 3, 3, 3⟩ : Profile).accumulateJSON ⟨some 1, some 0, some 0, some 0⟩)).avgTime =
      some 0 := by decide

example :
    ((⟨1, 3, 3, 3⟩ : Profile).accumulateJSON ((⟨1, 0, 0, 0⟩ : Profile).accumulateJSON ⟨some 1, some 0, some 0, some 0⟩)).avgTime =
      some 1 := by decide

end Compss.Scheduler
