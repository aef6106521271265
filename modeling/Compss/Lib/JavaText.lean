/-
Methods of `String` and `Integer` on texts: where a character stands, the
text between two places, the number a text stands for, whether a text stands
in another, runs of blanks made single, a text replaced wherever it stands.
-/
import Compss.Lib.Text
import Mathlib.Algebra.Ring.Nat
import Mathlib.Data.List.Infix

namespace Lib.Text

/-- `indexOf`; -1 when the character is not there. -/
def indexOf (c : Char) (s : Text) : Int := if c ∈ s then s.idxOf c else -1

theorem indexOf_append_cons {c : Char} {a : Text} (b : Text) (h : c ∉ a) : indexOf c (a ++ c :: b) = a.length := by
  rw [indexOf, if_pos (by simp), List.idxOf_append_of_notMem h]
  simp

/-- `substring`; missing when it raises. -/
def substring (s : Text) (beginIndex endIndex : Int) : Option Text :=
  if 0 ≤ beginIndex ∧ beginIndex ≤ endIndex ∧ endIndex ≤ s.length then
    some ((s.take endIndex.toNat).drop beginIndex.toNat)
  else none

theorem substring_append (a b c : Text) : substring (a ++ (b ++ c)) a.length (a.length + b.length : Nat) = some b := by
  have hbounds : (0 : Int) ≤ a.length ∧ (a.length : Int) ≤ (a.length + b.length : Nat) ∧
      ((a.length + b.length : Nat) : Int) ≤ (a ++ (b ++ c)).length := by
    simp only [List.length_append]
    omega
  rw [substring, if_pos hbounds, Int.toNat_natCast, Int.toNat_natCast, ← List.append_assoc, ← List.length_append,
    List.take_left, List.drop_left]

/-- A 32-bit `int`. -/
def IsInt (i : Int) : Prop := -2147483648 ≤ i ∧ i ≤ 2147483647

instance (i : Int) : Decidable (IsInt i) := inferInstanceAs (Decidable (_ ∧ _))

/-- `Integer.parseInt`; missing when it raises. -/
def parseInt32? (s : Text) : Option Int := (parseInt? s).filter fun i => IsInt i

theorem parseInt32?_decimal {i : Int} (h : IsInt i) : parseInt32? (decimal i) = some i := by
  simp [parseInt32?, Option.filter, h]


/-- What an `int` computation gives: the result wraps. -/
def wrap (i : Int) : Int := i.bmod (2 ^ 32)

theorem wrap_of_isInt {i : Int} (h : IsInt i) : wrap i = i := Int.bmod_eq_of_le (by have := h.1; omega) (by have := h.2; omega)

/-! ## Texts in texts -/

/-- `contains` -/
def contains (pat s : Text) : Bool := decide (pat <:+: s)

theorem contains_of_append {pat s : Text} (a b : Text) (h : s = a ++ pat ++ b) : contains pat s = true :=
  decide_eq_true ⟨a, b, h.symm⟩

theorem not_contains_of_not_mem {pat s : Text} {c : Char} (hc : c ∈ pat) (hs : c ∉ s) : contains pat s = false :=
  decide_eq_false fun h => hs (h.subset hc)

/-! ## Blanks -/

/-- `replaceAll("  ", " ")` -/
def replaceBlanks : Text → Text
  | ' ' :: ' ' :: s => ' ' :: replaceBlanks s
  | c :: s => c :: replaceBlanks s
  | [] => []

/-- Replaces blanks while there are two next to each other; each turn makes the
text shorter. -/
def replaceAllBlanks : Nat → Text → Text
  | 0, s => s
  | fuel + 1, s => if contains [' ', ' '] s then replaceAllBlanks fuel (replaceBlanks s) else s

/-- Each run of blanks as one. -/
def squeeze : Text → Text
  | [] => []
  | c :: s => if c = ' ' ∧ s.head? = some ' ' then squeeze s else c :: squeeze s

theorem squeeze_blanks (s : Text) : squeeze (' ' :: ' ' :: s) = squeeze (' ' :: s) := by
  rw [squeeze, if_pos ⟨rfl, rfl⟩]

theorem squeeze_cons {c : Char} {s : Text} (h : c ≠ ' ' ∨ s.head? ≠ some ' ') : squeeze (c :: s) = c :: squeeze s := by
  rw [squeeze, if_neg]
  rintro ⟨hc, hs⟩
  exact h.elim (· hc) (· hs)

theorem squeeze_append {w : Text} (h : ' ' ∉ w) (s : Text) : squeeze (w ++ s) = w ++ squeeze s := by
  induction w with
  | nil => rfl
  | cons c w ih =>
    rw [List.cons_append, squeeze_cons (.inl fun hc => h (by simp [hc])), ih fun hw => h (List.mem_cons_of_mem c hw),
      List.cons_append]

/-- A run of blanks becomes one. -/
theorem squeeze_replicate (n : Nat) {s : Text} (h : s.head? ≠ some ' ') :
    squeeze (List.replicate (n + 1) ' ' ++ s) = ' ' :: squeeze s := by
  induction n with
  | zero => exact squeeze_cons (.inr h)
  | succ n ih =>
    rw [List.replicate_succ, List.replicate_succ, List.cons_append, List.cons_append, squeeze_blanks]
    rwa [List.replicate_succ, List.cons_append] at ih

/-- Runs of blanks stay runs, also behind a blank. -/
theorem squeeze_replaceBlanks (s : Text) :
    squeeze (replaceBlanks s) = squeeze s ∧ squeeze (' ' :: replaceBlanks s) = squeeze (' ' :: s) := by
  induction s using replaceBlanks.induct with
  | case1 s ih =>
    rw [replaceBlanks, squeeze_blanks, squeeze_blanks, squeeze_blanks]
    exact ⟨ih.2, ih.2⟩
  | case2 c s hpair ih =>
    rw [replaceBlanks.eq_2 c s hpair]
    by_cases hc : c = ' '
    · subst hc
      rw [squeeze_blanks, squeeze_blanks]
      exact ⟨ih.2, ih.2⟩
    · have hhead : ∀ t : Text, (c :: t).head? ≠ some ' ' := fun t => by simpa using hc
      rw [squeeze_cons (.inl hc), squeeze_cons (.inl hc), squeeze_cons (.inr (hhead _)), squeeze_cons (.inr (hhead _)),
        squeeze_cons (.inl hc), squeeze_cons (.inl hc), ih.1]
      exact ⟨rfl, rfl⟩
  | case3 => exact ⟨rfl, rfl⟩

theorem squeeze_of_not_contains {s : Text} (h : contains [' ', ' '] s = false) : squeeze s = s := by
  induction s with
  | nil => rfl
  | cons c s ih =>
    have hinfix : ¬ [' ', ' '] <:+: c :: s := of_decide_eq_false h
    have hrest : contains [' ', ' '] s = false := decide_eq_false fun hs => hinfix (hs.trans (List.suffix_cons c s).isInfix)
    rw [squeeze_cons, ih hrest]
    by_contra hboth
    push Not at hboth
    obtain ⟨rfl, hs⟩ := hboth
    cases s with
    | nil => cases hs
    | cons d s =>
      obtain rfl : d = ' ' := by simpa using hs
      exact hinfix ⟨[], s, rfl⟩

theorem length_replaceBlanks_le (s : Text) : (replaceBlanks s).length ≤ s.length := by
  induction s using replaceBlanks.induct with
  | case1 s ih =>
    simp only [replaceBlanks, List.length_cons]
    omega
  | case2 c s hpair ih =>
    rw [replaceBlanks.eq_2 c s hpair, List.length_cons, List.length_cons]
    omega
  | case3 => exact Nat.le_refl _

theorem length_replaceBlanks_lt {s : Text} (h : contains [' ', ' '] s = true) : (replaceBlanks s).length < s.length := by
  induction s using replaceBlanks.induct with
  | case1 s ih =>
    have hle := length_replaceBlanks_le s
    simp only [replaceBlanks, List.length_cons]
    omega
  | case2 c s hpair ih =>
    have hrest : contains [' ', ' '] s = true := by
      refine decide_eq_true ?_
      rcases List.infix_cons_iff.mp (of_decide_eq_true h) with hprefix | hs
      · obtain ⟨t, ht⟩ := hprefix
        rw [List.cons_append, List.cons_append, List.cons.injEq] at ht
        exact absurd ht.2.symm (hpair t ht.1.symm)
      · exact hs
    rw [replaceBlanks.eq_2 c s hpair, List.length_cons, List.length_cons]
    exact Nat.succ_lt_succ (ih hrest)
  | case3 => exact absurd (of_decide_eq_true h) (by simp)

/-- The loop ends with each run of blanks as one. -/
theorem replaceAllBlanks_eq {fuel : Nat} {s : Text} (hfuel : s.length ≤ fuel) : replaceAllBlanks fuel s = squeeze s := by
  induction fuel generalizing s with
  | zero =>
    obtain rfl : s = [] := List.eq_nil_of_length_eq_zero (Nat.le_zero.mp hfuel)
    rfl
  | succ fuel ih =>
    rw [replaceAllBlanks]
    split
    next h =>
      have hlt := length_replaceBlanks_lt h
      rw [ih (by omega), (squeeze_replaceBlanks s).1]
    next h => exact (squeeze_of_not_contains (by simpa using h)).symm

/-! ## Digits -/

theorem mem_decimal {c : Char} {i : Int} (h : c ∈ decimal i) : c.isDigit = true ∨ c = '-' := by
  cases i with
  | ofNat n => exact .inl (Nat.isDigit_of_mem_toDigits (by decide) (by decide) h)
  | negSucc n =>
    rcases List.mem_cons.mp h with rfl | h
    · exact .inr rfl
    · exact .inl (Nat.isDigit_of_mem_toDigits (by decide) (by decide) h)

theorem decimal_ne_nil (i : Int) : decimal i ≠ [] := by
  cases i with
  | ofNat n => exact Nat.toDigits_ne_nil
  | negSucc n => exact List.cons_ne_nil _ _

/-! ## Replacing -/

/-- `replace` of a text that is not empty, wherever it stands, from left to right; the
characters of one that has been replaced are passed over. -/
def replaceFrom (target replacement : Text) : Nat → Text → Text
  | _, [] => []
  | skip + 1, _ :: s => replaceFrom target replacement skip s
  | 0, c :: s =>
    if target <+: c :: s then replacement ++ replaceFrom target replacement (target.length - 1) s
    else c :: replaceFrom target replacement 0 s

def replaceText (target replacement s : Text) : Text := replaceFrom target replacement 0 s

section
variable {t v : Text}

/-- `t` begins at no character of the text, `rest` standing after it. -/
def Absent (t rest : Text) : Text → Prop
  | [] => True
  | c :: s => ¬ t <+: c :: (s ++ rest) ∧ Absent t rest s

instance decidableAbsent (t rest : Text) : ∀ s, Decidable (Absent t rest s)
  | [] => .isTrue trivial
  | c :: s => @instDecidableAnd (¬ t <+: c :: (s ++ rest)) (Absent t rest s) inferInstance (decidableAbsent t rest s)

theorem replaceFrom_skip (w s : Text) : replaceFrom t v w.length (w ++ s) = replaceFrom t v 0 s := by
  induction w with
  | nil => rfl
  | cons c w ih =>
    rw [List.length_cons, List.cons_append, replaceFrom]
    exact ih

theorem replaceFrom_self (ht : t ≠ []) (s : Text) : replaceFrom t v 0 (t ++ s) = v ++ replaceFrom t v 0 s := by
  cases t with
  | nil => exact absurd rfl ht
  | cons c t =>
    have hpre : c :: t <+: c :: (t ++ s) := List.prefix_append (c :: t) s
    rw [List.cons_append, replaceFrom, if_pos hpre, List.length_cons, Nat.add_sub_cancel, replaceFrom_skip]

theorem replaceFrom_absent {s rest : Text} (h : Absent t rest s) :
    replaceFrom t v 0 (s ++ rest) = s ++ replaceFrom t v 0 rest := by
  induction s with
  | nil => rfl
  | cons c s ih =>
    rw [List.cons_append, replaceFrom, if_neg h.1, ih h.2]
    rfl

theorem absent_of_not_within {s : Text} (h : ¬ t <:+: s) : Absent t [] s := by
  induction s with
  | nil => trivial
  | cons c s ih =>
    refine ⟨fun hp => h ?_, ih fun hs => h (hs.trans (List.suffix_cons c s).isInfix)⟩
    rw [List.append_nil] at hp
    exact hp.isInfix

theorem replaceText_of_not_within {s : Text} (h : ¬ t <:+: s) : replaceText t v s = s := by
  have habsent := replaceFrom_absent (v := v) (absent_of_not_within h)
  rwa [List.append_nil, replaceFrom, List.append_nil] at habsent

/-- The first character of the text is not there. -/
theorem absent_of_not_mem {c : Char} {u s rest : Text} (h : c ∉ s) : Absent (c :: u) rest s := by
  induction s with
  | nil => trivial
  | cons d s ih =>
    rw [List.mem_cons, not_or] at h
    exact ⟨fun hp => h.1 (List.cons_prefix_cons.mp hp).1, ih h.2⟩

theorem absent_append {s s' rest : Text} (h : Absent t (s' ++ rest) s) (h' : Absent t rest s') : Absent t rest (s ++ s') := by
  induction s with
  | nil => exact h'
  | cons c s ih => exact ⟨by simpa using h.1, ih h.2⟩

end

end Lib.Text
