/-
`MOScore`: which of two places for an action is better, in each of the three
optimizations, and the scores `MOResourceScheduler` makes for an implementation.

Times are `long`s, and what they add up to wraps. A waiting time of
`Long.MAX_VALUE` stands for a worker without gaps. The doubles are a parameter;
what the order needs of them holds of every double that is a number, the
infinite ones included.
-/
import Mathlib

namespace Compss.MultiObjective

/-- Java's `double`. -/
class JavaDouble (φ : Type) where
  ofLong : Int64 → φ
  add : φ → φ → φ
  sub : φ → φ → φ
  mul : φ → φ → φ
  zero : φ
  maxValue : φ
  lt : φ → φ → Bool
  eq : φ → φ → Bool

/-- The sign of a difference compares its terms. The difference of two infinite
doubles is not a number, and not zero. -/
class LawfulJavaDouble (φ : Type) [LinearOrder φ] [JavaDouble φ] : Prop where
  lt_sub : ∀ x y : φ, JavaDouble.lt (JavaDouble.sub x y) JavaDouble.zero = true ↔ x < y
  eq_of_sub : ∀ x y : φ, JavaDouble.eq (JavaDouble.sub x y) JavaDouble.zero = true → x = y

/-- `MOConfiguration.OptimizationParameter`. -/
inductive OptimizationParameter
  | TIME
  | COST
  | ENERGY
  deriving DecidableEq, Repr

structure MOScore (φ : Type) where
  actionScore : Int64
  resourceScore : Int64
  waitingScore : Int64
  implementationScore : Int64
  expectedDataAvailable : Int64
  expectedCost : φ
  expectedEnergy : φ
  deriving DecidableEq, Repr

structure MOProfile (φ : Type) where
  averageExecutionTime : Int64
  power : φ
  price : φ
  deriving DecidableEq, Repr

/-- A relation that compares keys. -/
theorem isStrictWeakOrder_of_key {α κ : Type} [LinearOrder κ] {r : α → α → Prop} (key : α → κ)
    (h : ∀ a b, r a b ↔ key a < key b) : IsStrictWeakOrder α r where
  irrefl a := fun ha => lt_irrefl _ ((h a a).mp ha)
  trans a b c hab hbc := (h a c).mpr (((h a b).mp hab).trans ((h b c).mp hbc))
  incomp_trans a b c hab hbc := by
    simp only [h, not_lt] at hab hbc ⊢
    exact ⟨hbc.1.trans hab.1, hab.2.trans hbc.2⟩

namespace MOScore

variable {φ : Type}

def new (taskPriority dataAvailability resourceAvailability execTime : Int64) (energy cost : φ) : MOScore φ where
  actionScore := taskPriority
  resourceScore := resourceAvailability
  waitingScore := max resourceAvailability dataAvailability
  implementationScore := execTime
  expectedDataAvailable := dataAvailability
  expectedCost := cost
  expectedEnergy := energy

variable [JavaDouble φ]

open JavaDouble

/-- The comparison of the method, of which the optimization is a parameter. -/
def isBetter (optimization : OptimizationParameter) (a other : MOScore φ) : Bool :=
  if a.actionScore ≠ other.actionScore then a.actionScore > other.actionScore
  else
    let diffCost := sub a.expectedCost other.expectedCost
    let diffEnergy := sub a.expectedEnergy other.expectedEnergy
    let ownEnd := a.waitingScore + a.implementationScore
    let otherEnd := other.waitingScore + other.implementationScore
    let diffEnd := ownEnd - otherEnd
    match optimization with
    | .COST =>
      if eq diffCost zero then (if diffEnd = 0 then lt diffEnergy zero else diffEnd < 0)
      else lt diffCost zero
    | .ENERGY =>
      if eq diffEnergy zero then (if diffEnd = 0 then lt diffCost zero else diffEnd < 0)
      else lt diffEnergy zero
    | .TIME =>
      if diffEnd = 0 then (if eq diffEnergy zero then lt diffCost zero else lt diffEnergy zero)
      else diffEnd < 0

/-- `Score.isBetter`, on scores that may be null. -/
def isBetterOrNull (optimization : OptimizationParameter) : Option (MOScore φ) → Option (MOScore φ) → Bool
  | none, _ => false
  | some _, none => true
  | some a, some b => a.isBetter optimization b

/-- `MOResourceScheduler.generateMOScore`, on a worker with these prices. -/
def generateMOScore (idlePower idlePrice : φ) (profile : Option (MOProfile φ))
    (resourceFreeTime expectedDataAvailable actionPriority : Int64) : MOScore φ :=
  match profile with
  | none => new actionPriority expectedDataAvailable resourceFreeTime 0 zero zero
  | some p =>
    let implScore := p.averageExecutionTime
    let waitingTime := max resourceFreeTime expectedDataAvailable
    if waitingTime < Int64.maxValue then
      new actionPriority expectedDataAvailable resourceFreeTime implScore
        (add (mul (ofLong (waitingTime + implScore)) idlePower) (mul p.power (ofLong implScore)))
        (add (mul (ofLong (waitingTime + implScore)) idlePrice) (mul p.price (ofLong implScore)))
    else new actionPriority expectedDataAvailable resourceFreeTime implScore maxValue maxValue

/-! ## The expected ends -/

/-- When the execution would end: the sum, without a bound. -/
def expectedEnd (a : MOScore φ) : Int := a.waitingScore.toInt + a.implementationScore.toInt

/-- The scores of executions that neither wait nor run for a negative time. -/
def Timed (S : Set (MOScore φ)) : Prop :=
  ∀ a ∈ S, 0 ≤ a.waitingScore ∧ 0 ≤ a.implementationScore

/-- The scores of executions of one priority. -/
def SamePriority (S : Set (MOScore φ)) : Prop :=
  ∀ a ∈ S, ∀ b ∈ S, a.actionScore = b.actionScore

/-- What comparing the scores of `S` is for: it orders them, up to ties, and a
score that ends before another is better. -/
structure ComparesEnds (S : Set (MOScore φ)) : Prop where
  order : IsStrictWeakOrder S fun a b => a.1.isBetter .TIME b.1 = true
  earlier : ∀ a ∈ S, ∀ b ∈ S, a.expectedEnd < b.expectedEnd → a.isBetter .TIME b = true

omit [JavaDouble φ] in
/-- The source's difference of the ends is right modulo `2 ^ 64`. -/
theorem toInt_diffEnd (a b : MOScore φ) :
    (a.waitingScore + a.implementationScore - (b.waitingScore + b.implementationScore)).toInt =
      (a.expectedEnd - b.expectedEnd).bmod (2 ^ 64) := by
  rw [Int64.toInt_sub, Int64.toInt_add, Int64.toInt_add]
  simp [expectedEnd]

/-! ## The comparison where the ends are close -/

section
variable [LinearOrder φ]

/-- What `isBetter` compares when nothing wraps: the end, the energy and, unless
the energies are infinite, the cost. -/
def key (a : MOScore φ) : ℤ ×ₗ φ ×ₗ WithBot φ :=
  toLex (a.expectedEnd, toLex (a.expectedEnergy,
    if eq (sub a.expectedEnergy a.expectedEnergy) zero then (a.expectedCost : WithBot φ) else ⊥))

variable {a b : MOScore φ}

theorem key_lt_key : a.key < b.key ↔ a.expectedEnd < b.expectedEnd ∨ a.expectedEnd = b.expectedEnd ∧
    (a.expectedEnergy < b.expectedEnergy ∨ a.expectedEnergy = b.expectedEnergy ∧
      eq (sub a.expectedEnergy a.expectedEnergy) zero = true ∧ a.expectedCost < b.expectedCost) := by
  rw [key, key, Prod.Lex.toLex_lt_toLex, Prod.Lex.toLex_lt_toLex]
  refine or_congr_right (and_congr_right fun _ => or_congr_right (and_congr_right fun h => ?_))
  dsimp only at h
  rw [← h]
  split <;> simp_all

variable [LawfulJavaDouble φ]

/-- With equal ends. -/
theorem ties_iff (a b : MOScore φ) :
    (if eq (sub a.expectedEnergy b.expectedEnergy) zero then lt (sub a.expectedCost b.expectedCost) zero
      else lt (sub a.expectedEnergy b.expectedEnergy) zero) = true ↔
    a.expectedEnergy < b.expectedEnergy ∨ a.expectedEnergy = b.expectedEnergy ∧
      eq (sub a.expectedEnergy a.expectedEnergy) zero = true ∧ a.expectedCost < b.expectedCost := by
  split
  next h =>
    have hab := LawfulJavaDouble.eq_of_sub _ _ h
    rw [← hab] at h
    simp [← hab, h, LawfulJavaDouble.lt_sub]
  next h =>
    rw [LawfulJavaDouble.lt_sub]
    refine (or_iff_left fun ⟨hab, hself, _⟩ => h ?_).symm
    rwa [← hab]

theorem isBetter_time_iff (hp : a.actionScore = b.actionScore) {d : Int}
    (hd : (a.expectedEnd - b.expectedEnd).bmod (2 ^ 64) = d) :
    a.isBetter .TIME b = true ↔ d < 0 ∨ d = 0 ∧
      (a.expectedEnergy < b.expectedEnergy ∨ a.expectedEnergy = b.expectedEnergy ∧
        eq (sub a.expectedEnergy a.expectedEnergy) zero = true ∧ a.expectedCost < b.expectedCost) := by
  rw [← toInt_diffEnd] at hd
  rw [isBetter, if_neg (by simp [hp]), ← ties_iff, ← hd]
  dsimp only
  split
  next h => simp [h]
  next h =>
    have hne : (a.waitingScore + a.implementationScore - (b.waitingScore + b.implementationScore)).toInt ≠ 0 :=
      fun h0 => h (Int64.toInt_inj.mp h0)
    rw [decide_eq_true_iff, Int64.lt_iff_toInt_lt, Int64.toInt_zero, or_iff_left fun h0 => hne h0.1]

/-- Ends that are less than `2 ^ 63` apart are compared as they are. -/
theorem isBetter_iff_key_lt (hp : a.actionScore = b.actionScore)
    (hab : a.expectedEnd - b.expectedEnd < 2 ^ 63) (hba : b.expectedEnd - a.expectedEnd < 2 ^ 63) :
    a.isBetter .TIME b = true ↔ a.key < b.key := by
  have hd : (a.expectedEnd - b.expectedEnd).bmod (2 ^ 64) = a.expectedEnd - b.expectedEnd :=
    Int.bmod_eq_of_le (by omega) (by omega)
  rw [isBetter_time_iff hp hd, key_lt_key, sub_neg, sub_eq_zero]

/-- Of ends that are further apart, the later one is better. -/
theorem isBetter_of_far (hb : 0 ≤ b.waitingScore ∧ 0 ≤ b.implementationScore)
    (hp : a.actionScore = b.actionScore) (h : 2 ^ 63 ≤ a.expectedEnd - b.expectedEnd) : a.isBetter .TIME b = true := by
  have hbound : a.expectedEnd - b.expectedEnd < 2 ^ 64 := by
    have h1 := a.waitingScore.toInt_lt
    have h2 := a.implementationScore.toInt_lt
    rw [Int64.le_iff_toInt_le, Int64.le_iff_toInt_le] at hb
    simp only [Int64.toInt_zero] at hb
    simp only [expectedEnd]
    omega
  have hd : (a.expectedEnd - b.expectedEnd).bmod (2 ^ 64) = a.expectedEnd - b.expectedEnd - 2 ^ 64 := by
    rw [← Int.sub_bmod_right, Int.bmod_eq_of_le (by omega) (by omega)]
    norm_num
  exact (isBetter_time_iff hp hd).mpr (.inl (by omega))

/-- Scores are compared by their ends exactly when no two ends are `2 ^ 63`
apart or more. -/
theorem comparesEnds_iff (S : Set (MOScore φ)) (htimed : Timed S) (hp : SamePriority S) :
    ComparesEnds S ↔ ∀ a ∈ S, ∀ b ∈ S, a.expectedEnd - b.expectedEnd < 2 ^ 63 := by
  constructor
  · intro h a ha b hb
    by_contra hfar
    have hab := isBetter_of_far (htimed b hb) (hp a ha b hb) (by omega)
    have hba := h.earlier b hb a ha (by omega)
    have := h.order
    exact asymm_of (fun a b : S => a.1.isBetter .TIME b.1 = true) (a := ⟨a, ha⟩) (b := ⟨b, hb⟩) hab hba
  · intro h
    have hiff : ∀ a ∈ S, ∀ b ∈ S, (a.isBetter .TIME b = true ↔ a.key < b.key) := fun a ha b hb =>
      isBetter_iff_key_lt (hp a ha b hb) (h a ha b hb) (h b hb a ha)
    constructor
    · exact isStrictWeakOrder_of_key (fun a : S => a.1.key) fun a b => hiff a.1 a.2 b.1 b.2
    · intro a ha b hb hab
      exact (hiff a ha b hb).mpr (key_lt_key.mpr (.inl hab))

end

/-- Doubles without rounding. -/
instance : JavaDouble ℚ where
  ofLong x := x.toInt
  add := (· + ·)
  sub := (· - ·)
  mul := (· * ·)
  zero := 0
  maxValue := 2 ^ 1024
  lt x y := x < y
  eq x y := x = y

instance : LawfulJavaDouble ℚ where
  lt_sub x y := by simp [lt, sub, zero]
  eq_of_sub x y h := by simpa [eq, sub, zero, sub_eq_zero] using h

/-! ## A worker without gaps -/

/-- On a worker that is free now and on one that has no gaps. -/
def freeAndBlocked : Set (MOScore ℚ) :=
  {generateMOScore 1 0 (some ⟨10, 0, 0⟩) 0 0 0, generateMOScore 1 0 (some ⟨20, 0, 0⟩) Int64.maxValue 0 0}

theorem comparesEnds_free : ComparesEnds {generateMOScore (1 : ℚ) 0 (some ⟨10, 0, 0⟩) 0 0 0} :=
  (comparesEnds_iff _ (by rintro _ rfl; decide +kernel) (by rintro _ rfl _ rfl; rfl)).mpr
    (by rintro _ rfl _ rfl; decide +kernel)

/-- An execution that never starts is preferred to one that ends in ten
milliseconds. -/
theorem not_comparesEnds : Timed freeAndBlocked ∧ SamePriority freeAndBlocked ∧ ¬ ComparesEnds freeAndBlocked := by
  have htimed : Timed freeAndBlocked := by
    rintro _ (rfl | rfl) <;> decide +kernel
  have hp : SamePriority freeAndBlocked := by
    rintro _ (rfl | rfl) _ (rfl | rfl) <;> rfl
  refine ⟨htimed, hp, fun h => ?_⟩
  have hbetter := h.earlier _ (.inl rfl) _ (.inr rfl) (by decide +kernel)
  exact absurd hbetter (by decide +kernel)

end MOScore

end Compss.MultiObjective
