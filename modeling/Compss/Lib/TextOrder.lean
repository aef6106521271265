/-
The order of texts, as `String.compareTo` has it: by the first UTF-16 unit
that differs, then by length.
-/
import Compss.Lib.Text
import Compss.Lib.TreeSet

namespace Lib.Text

/-- The UTF-16 units of a character. -/
def unitsOf (c : Char) : List Nat :=
  if c.toNat < 0x10000 then [c.toNat]
  else [0xD800 + (c.toNat - 0x10000) / 0x400, 0xDC00 + (c.toNat - 0x10000) % 0x400]

def units (s : Text) : List Nat := s.flatMap unitsOf

/-- The difference of the first units that differ, else of the lengths. -/
def compareUnits : List Nat → List Nat → Int
  | [], bs => -bs.length
  | as, [] => as.length
  | a :: as, b :: bs => if a = b then compareUnits as bs else a - b

def compareTo (s t : Text) : Int := compareUnits s.units t.units

/-- Two first characters that differ decide, when each is one unit. -/
theorem compareTo_cons {c d : Char} (hc : c.toNat < 0x10000) (hd : d.toNat < 0x10000) (h : c ≠ d) (s t : Text) :
    compareTo (c :: s) (d :: t) = c.toNat - d.toNat := by
  have hne : c.toNat ≠ d.toNat := fun he => h (Char.toNat_inj.mp he)
  simp only [compareTo, units, List.flatMap_cons, unitsOf, if_pos hc, if_pos hd, List.cons_append, List.nil_append]
  rw [compareUnits, if_neg hne]

theorem unitsOf_append_inj {c d : Char} {as bs : List Nat} (h : unitsOf c ++ as = unitsOf d ++ bs) : c = d ∧ as = bs := by
  have hvalid : ∀ e : Char, e.toNat < 0xD800 ∨ 0xDFFF < e.toNat ∧ e.toNat < 0x110000 := fun e => e.valid
  have hc := hvalid c
  have hd := hvalid d
  simp only [unitsOf] at h
  have key : c.toNat = d.toNat ∧ as = bs := by
    split at h <;> split at h <;>
      simp only [List.cons_append, List.nil_append, List.cons.injEq] at h
    · exact h
    · omega
    · omega
    · obtain ⟨h₁, h₂, h₃⟩ := h
      exact ⟨by omega, h₃⟩
  exact ⟨Char.toNat_inj.mp key.1, key.2⟩

theorem units_inj : ∀ {s t : Text}, s.units = t.units → s = t
  | [], [], _ => rfl
  | [], d :: t, h => by
    simp only [units, List.flatMap_nil, List.flatMap_cons, unitsOf] at h
    split at h <;> simp at h
  | c :: s, [], h => by
    simp only [units, List.flatMap_nil, List.flatMap_cons, unitsOf] at h
    split at h <;> simp at h
  | c :: s, d :: t, h => by
    simp only [units, List.flatMap_cons] at h
    obtain ⟨rfl, hst⟩ := unitsOf_append_inj h
    rw [units_inj (s := s) (t := t) hst]

theorem compareUnits_swap : ∀ as bs : List Nat, compareUnits as bs = -compareUnits bs as
  | [], [] => rfl
  | [], b :: bs => by simp [compareUnits]
  | a :: as, [] => by simp [compareUnits]
  | a :: as, b :: bs => by
    simp only [compareUnits]
    by_cases hab : a = b
    · rw [if_pos hab, if_pos hab.symm, compareUnits_swap as bs]
    · rw [if_neg hab, if_neg fun h => hab h.symm]
      omega

theorem compareUnits_eq_zero : ∀ {as bs : List Nat}, compareUnits as bs = 0 ↔ as = bs
  | [], [] => by simp [compareUnits]
  | [], b :: bs => by
    simp only [compareUnits, List.length_cons]
    constructor
    · intro h
      omega
    · intro h
      simp at h
  | a :: as, [] => by
    simp only [compareUnits, List.length_cons]
    constructor
    · intro h
      omega
    · intro h
      simp at h
  | a :: as, b :: bs => by
    simp only [compareUnits, List.cons.injEq]
    split
    · rename_i hab
      rw [compareUnits_eq_zero]
      simp [hab]
    · rename_i hab
      simp only [hab, false_and, iff_false]
      omega

theorem compareUnits_trans : ∀ {as bs cs : List Nat}, compareUnits as bs ≤ 0 → compareUnits bs cs ≤ 0 →
    compareUnits as cs ≤ 0
  | [], _, cs, _, _ => by simp [compareUnits]
  | a :: as, [], _, h, _ => by
    simp only [compareUnits, List.length_cons] at h
    omega
  | a :: as, b :: bs, [], _, h => by
    simp only [compareUnits, List.length_cons] at h
    omega
  | a :: as, b :: bs, c :: cs, h₁, h₂ => by
    simp only [compareUnits] at h₁ h₂ ⊢
    split at h₁
    · rename_i hab
      subst hab
      split
      · rename_i hac
        rw [if_pos hac] at h₂
        exact compareUnits_trans h₁ h₂
      · rename_i hac
        rw [if_neg hac] at h₂
        exact h₂
    · split at h₂
      · rename_i hbc
        subst hbc
        rw [if_neg (by assumption)]
        exact h₁
      · rw [if_neg (by omega)]
        omega

/-- The order is total, and equal texts only compare equal. -/
theorem orders_compareTo : TreeSet.Orders compareTo id fun _ => True where
  antisymm s t _ _ := by
    have := compareUnits_swap s.units t.units
    simp only [compareTo]
    omega
  trans s t u _ _ _ := compareUnits_trans
  eq_zero s t _ _ := by
    rw [compareTo, compareUnits_eq_zero]
    exact ⟨units_inj, congrArg units⟩

end Lib.Text
