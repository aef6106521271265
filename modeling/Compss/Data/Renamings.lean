/-
The search for the last available version of a result file, on the texts the
source searches with: `previousVersionRenaming` reads the ids of the data and
of the version back out of the renaming.

The loop of `blockDataAndGetResultFile` goes back one version after the other
until `Comm` knows one. `previousVersionRenaming` answers null when the `v`
stands right behind the `d`, where an id always stands, so there is no first
version for it: behind version 0 comes -1, and behind the least `int` the
greatest.
-/
import Compss.Data.DataInfoProvider
import Compss.Lib.JavaText
import Compss.Lib.While
import Mathlib.Data.Int.LeastGreatest

namespace Compss

open Lib Lib.Text

inductive RenamingException
  | stringIndexOutOfBounds
  | numberFormat
  deriving DecidableEq, Repr

/-- A renaming of a data instance: `d<dataId>v<versionId>_`, and more. -/
structure Renaming where
  dataId : Int
  versionId : Int
  suffix : Text
  dataId_isInt : IsInt dataId
  versionId_isInt : IsInt versionId

namespace Renaming

def text (dataId versionId : Int) (suffix : Text) : Text :=
  'd' :: (decimal dataId ++ 'v' :: (decimal versionId ++ '_' :: suffix))

def getRenaming (r : Renaming) : Text := text r.dataId r.versionId r.suffix

/-- The suffix of the names of one run. -/
def timeSuffix (timeStamp : Text) : Text := timeStamp ++ ".IT".toList

/-- `Integer.parseInt(name.substring(beginIndex, endIndex))` -/
def readId (name : Text) (beginIndex endIndex : Int) : Except RenamingException Int :=
  match name.substring beginIndex endIndex with
  | none => .error .stringIndexOutOfBounds
  | some s =>
    match parseInt32? s with
    | none => .error .numberFormat
    | some i => .ok i

def previousVersionRenaming (timeStamp name : Text) : Except RenamingException (Option Text) :=
  let dIdx := indexOf 'd' name
  let vIdx := indexOf 'v' name
  let tIndex := indexOf '_' name
  if vIdx = 1 then .ok none
  else
    match readId name (dIdx + 1) vIdx with
    | .error e => .error e
    | .ok dataId =>
      match readId name (vIdx + 1) tIndex with
      | .error e => .error e
      | .ok version => .ok (some (text dataId (intPred version) (timeSuffix timeStamp)))

def isUnavailable (existsData : Text → Bool) : Except RenamingException (Option Text) → Bool
  | .ok (some name) => !existsData name
  | _ => false

def goBack (timeStamp : Text) : Except RenamingException (Option Text) → Except RenamingException (Option Text)
  | .ok (some name) => previousVersionRenaming timeStamp name
  | s => s

/-- The loop that looks for the last available version. -/
def lastAvailable (existsData : Text → Bool) (timeStamp : Text) :
    Nat → Except RenamingException (Option Text) → Option (Except RenamingException (Option Text)) :=
  whileLoop (isUnavailable existsData) (goBack timeStamp)

/-! ## One version back -/

theorem isInt_intPred {v : Int} (h : IsInt v) : IsInt (intPred v) := by
  unfold IsInt intPred at *
  split <;> omega

theorem not_mem_decimal {c : Char} (hdigit : c.isDigit = false) (hsign : c ≠ '-') (i : Int) : c ∉ decimal i := by
  intro h
  rcases mem_decimal h with h | h
  · rw [hdigit] at h
    cases h
  · exact hsign h

/-- The ids are read back, and the answer is never null. -/
theorem previousVersionRenaming_text (timeStamp : Text) {dataId versionId : Int} (suffix : Text) (hd : IsInt dataId)
    (hv : IsInt versionId) :
    previousVersionRenaming timeStamp (text dataId versionId suffix) =
      .ok (some (text dataId (intPred versionId) (timeSuffix timeStamp))) := by
  have hdIdx : indexOf 'd' (text dataId versionId suffix) = 0 :=
    indexOf_append_cons (a := []) _ (by simp)
  have hvIdx : indexOf 'v' (text dataId versionId suffix) = (1 + (decimal dataId).length : Nat) := by
    have hnot : 'v' ∉ 'd' :: decimal dataId := by
      simpa using not_mem_decimal (by decide) (by decide) dataId
    have := indexOf_append_cons (decimal versionId ++ '_' :: suffix) hnot
    simpa [text, Nat.add_comm] using this
  have htIdx : indexOf '_' (text dataId versionId suffix) =
      (1 + (decimal dataId).length + 1 + (decimal versionId).length : Nat) := by
    have hnot : '_' ∉ 'd' :: (decimal dataId ++ 'v' :: decimal versionId) := by
      simpa using ⟨not_mem_decimal (by decide) (by decide) dataId, not_mem_decimal (by decide) (by decide) versionId⟩
    have := indexOf_append_cons suffix hnot
    simpa [text, Nat.add_comm, Nat.add_left_comm, Nat.add_assoc] using this
  have hids : (text dataId versionId suffix).substring (0 + 1) (1 + (decimal dataId).length : Nat) =
      some (decimal dataId) := by
    simpa [text] using substring_append ['d'] (decimal dataId) ('v' :: (decimal versionId ++ '_' :: suffix))
  have hversion : (text dataId versionId suffix).substring ((1 + (decimal dataId).length : Nat) + 1)
      (1 + (decimal dataId).length + 1 + (decimal versionId).length : Nat) = some (decimal versionId) := by
    have := substring_append ('d' :: (decimal dataId ++ ['v'])) (decimal versionId) ('_' :: suffix)
    have hlength : ('d' :: (decimal dataId ++ ['v'])).length = 1 + (decimal dataId).length + 1 := by
      simp [Nat.add_comm, Nat.add_left_comm]
    rw [hlength] at this
    simpa [text] using this
  have hfirst : ((1 + (decimal dataId).length : Nat) : Int) ≠ 1 := by
    have := List.length_pos_iff.mpr (decimal_ne_nil dataId)
    omega
  unfold previousVersionRenaming
  rw [hdIdx, hvIdx, htIdx]
  simp only [hfirst, if_false, readId, hids, hversion, parseInt32?_decimal hd, parseInt32?_decimal hv]

/-! ## The search -/

variable (r : Renaming) (existsData : Text → Bool) (timeStamp : Text)

/-- The name the search has for version `k`: the renaming itself for its own. -/
def nameOf (k : Int) : Text := if k = r.versionId then r.getRenaming else text r.dataId k (timeSuffix timeStamp)

/-- A version not above that of the renaming, which `Comm` knows. -/
def Available (k : Int) : Prop := IsInt k ∧ k ≤ r.versionId ∧ existsData (r.nameOf timeStamp k) = true

/-- The search ends, at the greatest version available, or with null when none is. -/
def EndsRightly : Prop :=
  ∃ fuel result, lastAvailable existsData timeStamp fuel (.ok (some r.getRenaming)) = some result ∧
    ((∃ k, r.Available existsData timeStamp k ∧ (∀ l, r.Available existsData timeStamp l → l ≤ k) ∧
        result = .ok (some (r.nameOf timeStamp k))) ∨
      ((∀ k, ¬ r.Available existsData timeStamp k) ∧ result = .ok none))

variable {r existsData timeStamp}

theorem lastAvailable_of_exists {name : Text} (h : existsData name = true) (fuel : Nat) :
    lastAvailable existsData timeStamp fuel (.ok (some name)) = some (.ok (some name)) :=
  whileLoop_of_not fuel (by simp [isUnavailable, h])

theorem lastAvailable_zero {name : Text} (h : existsData name = false) :
    lastAvailable existsData timeStamp 0 (.ok (some name)) = none := by
  simp [lastAvailable, whileLoop, isUnavailable, h]

theorem lastAvailable_succ {name : Text} (h : existsData name = false) (fuel : Nat) :
    lastAvailable existsData timeStamp (fuel + 1) (.ok (some name)) =
      lastAvailable existsData timeStamp fuel (previousVersionRenaming timeStamp name) :=
  whileLoop_succ fuel (by simp [isUnavailable, h])

theorem nameOf_self : r.nameOf timeStamp r.versionId = r.getRenaming := if_pos rfl

theorem previousVersionRenaming_nameOf {k : Int} (hk : IsInt k) (hpred : IsInt (k - 1)) (hle : k ≤ r.versionId) :
    previousVersionRenaming timeStamp (r.nameOf timeStamp k) = .ok (some (r.nameOf timeStamp (k - 1))) := by
  have hpredEq : intPred k = k - 1 := by
    unfold IsInt at hpred
    exact if_neg (by omega)
  have hne : k - 1 ≠ r.versionId := by omega
  rw [nameOf, nameOf, if_neg hne, ← hpredEq]
  split
  next h =>
    subst h
    exact previousVersionRenaming_text timeStamp r.suffix r.dataId_isInt hk
  next => exact previousVersionRenaming_text timeStamp _ r.dataId_isInt hk

/-- From a version above, the search comes down to the greatest one available, by
induction on the distance. -/
theorem lastAvailable_down {k : Int} (hk : r.Available existsData timeStamp k)
    (hmax : ∀ l, r.Available existsData timeStamp l → l ≤ k) :
    ∀ n : Nat, k + n ≤ r.versionId →
      lastAvailable existsData timeStamp n (.ok (some (r.nameOf timeStamp (k + n)))) =
        some (.ok (some (r.nameOf timeStamp k)))
  | 0, _ => by
    rw [Nat.cast_zero, add_zero]
    exact lastAvailable_of_exists hk.2.2 0
  | n + 1, hn => by
    have hint : ∀ l : Int, k ≤ l → l ≤ r.versionId → IsInt l := fun l hl hl' =>
      ⟨hk.1.1.trans hl, hl'.trans r.versionId_isInt.2⟩
    have habove : IsInt (k + (n + 1 : Nat)) := hint _ (by omega) hn
    have hbelow : IsInt (k + (n + 1 : Nat) - 1) := hint _ (by omega) (by omega)
    have hgo : existsData (r.nameOf timeStamp (k + (n + 1 : Nat))) = false := by
      rw [← Bool.not_eq_true]
      intro hexists
      have := hmax _ ⟨habove, hn, hexists⟩
      omega
    have hprev : previousVersionRenaming timeStamp (r.nameOf timeStamp (k + (n + 1 : Nat))) =
        .ok (some (r.nameOf timeStamp (k + (n + 1 : Nat) - 1))) := previousVersionRenaming_nameOf habove hbelow hn
    have hsub : k + (n + 1 : Nat) - 1 = k + n := by omega
    rw [lastAvailable_succ hgo, hprev, hsub]
    exact lastAvailable_down hk hmax n (by omega)

/-- The search is never at null. -/
theorem lastAvailable_name {fuel : Nat} {result : Except RenamingException (Option Text)}
    (h : lastAvailable existsData timeStamp fuel (.ok (some r.getRenaming)) = some result) :
    ∃ r' : Renaming, result = .ok (some r'.getRenaming) := by
  refine (whileLoop_invariant (I := fun s => ∃ r' : Renaming, s = .ok (some r'.getRenaming)) ?_ h ⟨r, rfl⟩).1
  rintro s ⟨r', rfl⟩ -
  exact ⟨⟨r'.dataId, intPred r'.versionId, timeSuffix timeStamp, r'.dataId_isInt, isInt_intPred r'.versionId_isInt⟩,
    previousVersionRenaming_text timeStamp r'.suffix r'.dataId_isInt r'.versionId_isInt⟩

theorem exists_greatest_available {k : Int} (hk : r.Available existsData timeStamp k) :
    ∃ k, r.Available existsData timeStamp k ∧ ∀ l, r.Available existsData timeStamp l → l ≤ k :=
  Int.exists_greatest_of_bdd ⟨r.versionId, fun _ hl => hl.2.1⟩ ⟨k, hk⟩

/-- **When the search for an available version ends as it should.** For every
renaming and every set of registered data, the loop ends at the greatest
registered version not above that of the renaming, or with null when there is
none, exactly if there is one. -/
theorem lastAvailable_endsRightly (r : Renaming) (existsData : Text → Bool) (timeStamp : Text) :
    r.EndsRightly existsData timeStamp ↔ ∃ k, r.Available existsData timeStamp k := by
  constructor
  · rintro ⟨fuel, result, hrun, ⟨k, hk, -⟩ | ⟨-, rfl⟩⟩
    · exact ⟨k, hk⟩
    · obtain ⟨r', hr'⟩ := lastAvailable_name hrun
      simp at hr'
  · rintro ⟨k, hk⟩
    obtain ⟨k, hk, hmax⟩ := exists_greatest_available hk
    obtain ⟨n, hn⟩ := Int.le.dest hk.2.1
    have hrun := lastAvailable_down hk hmax n hn.le
    rw [hn, nameOf_self] at hrun
    exact ⟨n, _, hrun, .inl ⟨k, hk, hmax, rfl⟩⟩

/-- With no version registered the search goes on for ever. -/
theorem lastAvailable_diverges (r : Renaming) {existsData : Text → Bool} (timeStamp : Text)
    (hnone : ∀ r' : Renaming, r'.dataId = r.dataId → existsData r'.getRenaming = false) (fuel : Nat) :
    lastAvailable existsData timeStamp fuel (.ok (some r.getRenaming)) = none := by
  refine whileLoop_diverges (I := fun s => ∃ r' : Renaming, r'.dataId = r.dataId ∧ s = .ok (some r'.getRenaming))
    ?_ ?_ ⟨r, rfl, rfl⟩ fuel
  · rintro s ⟨r', hr', rfl⟩
    simp [isUnavailable, hnone r' hr']
  · rintro s ⟨r', hr', rfl⟩
    exact ⟨⟨r'.dataId, intPred r'.versionId, timeSuffix timeStamp, r'.dataId_isInt, isInt_intPred r'.versionId_isInt⟩, hr',
      previousVersionRenaming_text timeStamp r'.suffix r'.dataId_isInt r'.versionId_isInt⟩

/-- The search for a first version that is not registered never comes back. -/
theorem lastAvailable_first_version :
    ¬ ∃ fuel result, lastAvailable (fun _ => false) "1".toList fuel (.ok (some "d1v1_1.IT".toList)) = some result := by
  rintro ⟨fuel, result, h⟩
  have hdiverges := @lastAvailable_diverges ⟨1, 1, "1.IT".toList, by decide, by decide⟩ (fun _ => false)
    "1".toList (fun _ _ => rfl) fuel
  have hname : getRenaming ⟨1, 1, "1.IT".toList, by decide, by decide⟩ = "d1v1_1.IT".toList := by decide
  rw [hname, h] at hdiverges
  cases hdiverges

/-! ## The search by ids -/

/-- The name of a version in this run. -/
def ofInstance (timeStamp : Text) (i : DataInstanceId) : Text := text i.dataId i.versionId (timeSuffix timeStamp)

/-- The search by ids, whose data `Comm` knows by their names, is the search by
names. -/
theorem lastAvailable_availableVersion (existsData : Text → Bool) (timeStamp : Text) :
    ∀ (fuel : Nat) (i : DataInstanceId), IsInt i.dataId → IsInt i.versionId →
      lastAvailable existsData timeStamp fuel (.ok (some (ofInstance timeStamp i))) =
        (DataInfoProvider.availableVersion (fun i => existsData (ofInstance timeStamp i)) (fuel + 1) (some i)).map
          fun found => .ok (found.map (ofInstance timeStamp))
  | 0, i, _, _ => by
    cases h : existsData (ofInstance timeStamp i) with
    | true => simp [lastAvailable_of_exists h, DataInfoProvider.availableVersion, h]
    | false => simp [lastAvailable_zero h, DataInfoProvider.availableVersion, h]
  | fuel + 1, i, hd, hv => by
    cases h : existsData (ofInstance timeStamp i) with
    | true => simp [lastAvailable_of_exists h, DataInfoProvider.availableVersion, h]
    | false =>
      have ih := lastAvailable_availableVersion existsData timeStamp fuel { i with versionId := intPred i.versionId } hd
        (isInt_intPred hv)
      have hback : previousVersionRenaming timeStamp (ofInstance timeStamp i) =
          .ok (some (ofInstance timeStamp { i with versionId := intPred i.versionId })) :=
        previousVersionRenaming_text timeStamp _ hd hv
      have hnext : DataInfoProvider.availableVersion (fun i => existsData (ofInstance timeStamp i)) (fuel + 1 + 1) (some i) =
          DataInfoProvider.availableVersion (fun i => existsData (ofInstance timeStamp i)) (fuel + 1)
            (some { i with versionId := intPred i.versionId }) := by
        rw [DataInfoProvider.availableVersion, if_neg (by simp [h])]
        rfl
      rw [lastAvailable_succ h, hback, ih, hnext]

end Renaming

end Compss
