/-
Lines of words: how they are put together, and how `split` takes them apart
again, with or without a separator; numbers in decimal, and back.

A text is its list of characters.
-/
import Mathlib.Data.List.Basic
import Mathlib.Tactic.Common

namespace Lib

abbrev Text := List Char

namespace Text

/-! ## Words -/

/-- Not empty, and without a separator. -/
def IsWord (sep : Char → Bool) (w : Text) : Prop := w ≠ [] ∧ ∀ c ∈ w, sep c = false

instance (sep : Char → Bool) (w : Text) : Decidable (IsWord sep w) :=
  @instDecidableAnd (w ≠ []) (∀ c ∈ w, sep c = false) inferInstance (List.decidableBAll _ w)

/-- The words between the separators. -/
def words (sep : Char → Bool) (s : Text) : List Text := (s.splitOnP sep).filter (· ≠ [])

/-- The fields between the `c`, without the empty ones at the end. -/
def fields (c : Char) (s : Text) : List Text :=
  if c ∈ s then ((s.splitOn c).reverse.dropWhile (· = [])).reverse else [s]

/-- The words with `c` between them. -/
def join (c : Char) : List Text → Text
  | [] => []
  | [w] => w
  | w :: ws => w ++ c :: join c ws

/-- Each word with `c` after it. -/
def terminated (c : Char) (ws : List Text) : Text := ws.flatMap (· ++ [c])

theorem terminated_cons (c : Char) (w : Text) (ws : List Text) :
    terminated c (w :: ws) = w ++ c :: terminated c ws := by
  simp [terminated]

section
variable {sep : Char → Bool} {c : Char} {w s : Text}

theorem IsWord.splitOnP (h : IsWord sep w) : w.splitOnP sep = [w] := List.splitOnP_eq_singleton h.2

theorem words_nil : words sep [] = [] := by simp [words]

theorem words_of_isWord (h : IsWord sep w) : words sep w = [w] := by
  simp [words, h.splitOnP, h.1]

theorem words_cons_sep (hc : sep c = true) : words sep (c :: s) = words sep s := by
  have := List.splitOnP_append_cons (p := sep) [] s hc
  rw [List.nil_append] at this
  simp [words, this]

theorem words_append_sep (h : IsWord sep w) (hc : sep c = true) : words sep (w ++ c :: s) = w :: words sep s := by
  rw [words, List.splitOnP_append_cons_of_forall_mem h.2 c hc, List.filter_cons, if_pos (by simpa using h.1)]
  rfl

theorem join_cons_cons (c : Char) (w v : Text) (ws : List Text) : join c (w :: v :: ws) = w ++ c :: join c (v :: ws) := rfl

theorem mem_join {x : Char} : ∀ {ws : List Text}, x ∈ join c ws → x = c ∨ ∃ w ∈ ws, x ∈ w
  | [w], h => .inr ⟨w, by simp, h⟩
  | w :: v :: ws, h => by
    rw [join_cons_cons, List.mem_append, List.mem_cons] at h
    rcases h with h | rfl | h
    · exact .inr ⟨w, by simp, h⟩
    · exact .inl rfl
    · rcases mem_join h with rfl | ⟨u, hu, hx⟩
      · exact .inl rfl
      · exact .inr ⟨u, by simp [hu], hx⟩

/-- Texts joined with a character that is no separator. -/
theorem join_isWord (hc : sep c = false) {ws : List Text} (hne : join c ws ≠ [])
    (h : ∀ w ∈ ws, ∀ x ∈ w, sep x = false) : IsWord sep (join c ws) := by
  refine ⟨hne, fun x hx => ?_⟩
  rcases mem_join hx with rfl | ⟨w, hw, hx⟩
  · exact hc
  · exact h w hw x hx

/-- A line of words is split into its words. -/
theorem words_join (hc : sep c = true) {e : Char} (he : sep e = true) :
    ∀ (ws : List Text), (∀ w ∈ ws, IsWord sep w) → words sep (join c ws ++ [e]) = ws
  | [], _ => by rw [join, List.nil_append, words_cons_sep he, words_nil]
  | [w], h => by rw [join, words_append_sep (h w (by simp)) he, words_nil]
  | w :: v :: ws, h => by
    have hrest := words_join hc he (v :: ws) fun u hu => h u (by simp [hu])
    rw [join, List.append_assoc, List.cons_append, words_append_sep (h w (by simp)) hc, hrest]
    simp

end

theorem mem_of_mem_splitOnP {p : Char → Bool} : ∀ {s w : Text}, w ∈ s.splitOnP p → ∀ x ∈ w, x ∈ s
  | [], w, hw, x, hx => by
    rw [List.splitOnP_nil, List.mem_singleton] at hw
    rw [← hw]
    exact hx
  | c :: s, w, hw, x, hx => by
    rw [List.splitOnP_cons_eq_if_modifyHead] at hw
    split at hw
    · rcases List.mem_cons.mp hw with rfl | hw
      · cases hx
      · exact List.mem_cons_of_mem c (mem_of_mem_splitOnP hw x hx)
    · cases hs : s.splitOnP p with
      | nil => exact absurd hs (List.splitOnP_ne_nil p s)
      | cons v vs =>
        rw [hs, List.modifyHead_cons] at hw
        rcases List.mem_cons.mp hw with rfl | hw
        · rcases List.mem_cons.mp hx with rfl | hx
          · exact List.mem_cons_self ..
          · exact List.mem_cons_of_mem c (mem_of_mem_splitOnP (p := p) (w := v) (by rw [hs]; simp) x hx)
        · exact List.mem_cons_of_mem c (mem_of_mem_splitOnP (p := p) (w := w) (by rw [hs]; simp [hw]) x hx)

theorem fields_of_not_mem {c : Char} {s : Text} (h : c ∉ s) : fields c s = [s] := if_neg h

theorem splitOn_terminated {c : Char} : ∀ {ws : List Text}, (∀ w ∈ ws, c ∉ w) → (terminated c ws).splitOn c = ws ++ [[]]
  | [], _ => by simp [terminated, List.splitOn_eq_splitOnP]
  | w :: ws, h => by
    rw [terminated_cons, List.splitOn_append_cons_self_of_not_mem (h w (by simp)),
      splitOn_terminated fun v hv => h v (by simp [hv])]
    rfl

theorem fields_terminated {c : Char} {ws : List Text} (hne : ws ≠ []) (h : ∀ w ∈ ws, w ≠ [] ∧ c ∉ w) :
    fields c (terminated c ws) = ws := by
  have hmem : c ∈ terminated c ws := by
    cases ws with
    | nil => exact absurd rfl hne
    | cons w ws => simp [terminated_cons]
  rw [fields, if_pos hmem, splitOn_terminated fun w hw => (h w hw).2, List.reverse_append]
  -- The last word is not empty.
  have hlast : ws.reverse.dropWhile (· = []) = ws.reverse := by
    cases hr : ws.reverse with
    | nil => rfl
    | cons v vs =>
      have hv : v ∈ ws := by rw [← List.mem_reverse, hr]; simp
      simp [(h v hv).1]
  simp [hlast]

/-- The empty fields at the end go, those before the last one that is not empty stay. -/
theorem fields_of_splitOn {c : Char} {s v : Text} {ws : List Text} {n : Nat}
    (h : s.splitOn c = ws ++ v :: List.replicate n []) (hv : v ≠ []) : fields c s = ws ++ [v] := by
  by_cases hmem : c ∈ s
  · rw [fields, if_pos hmem, h, List.reverse_append, List.reverse_cons, List.reverse_replicate, List.append_assoc,
      List.dropWhile_append_of_pos fun w hw => by simpa using List.eq_of_mem_replicate hw]
    simp [hv]
  · rw [List.splitOn_eq_singleton hmem] at h
    rw [fields_of_not_mem hmem]
    cases ws with
    | nil => rw [(List.cons_eq_cons.mp h).1, List.nil_append]
    | cons w ws => simp at h

/-- Only empty fields are left out. -/
theorem exists_splitOn_eq (c : Char) (s : Text) : ∃ n, s.splitOn c = fields c s ++ List.replicate n [] := by
  by_cases hmem : c ∈ s
  · refine ⟨((s.splitOn c).reverse.takeWhile (· = [])).length, ?_⟩
    have hempty : (s.splitOn c).reverse.takeWhile (· = []) =
        List.replicate ((s.splitOn c).reverse.takeWhile (· = [])).length [] :=
      List.eq_replicate_of_mem fun w hw => by simpa using List.all_eq_true.mp List.all_takeWhile w hw
    have hboth := congrArg List.reverse (List.takeWhile_append_dropWhile (p := (· = [])) (l := (s.splitOn c).reverse))
    rw [List.reverse_append, List.reverse_reverse, hempty, List.reverse_replicate] at hboth
    rw [fields, if_pos hmem]
    exact hboth.symm
  · exact ⟨0, by rw [fields_of_not_mem hmem, List.splitOn_eq_singleton hmem]; rfl⟩

theorem splitOn_join {c : Char} : ∀ {ws : List Text}, ws ≠ [] → (∀ w ∈ ws, c ∉ w) → (join c ws).splitOn c = ws
  | [w], _, h => List.splitOn_eq_singleton (h w (by simp))
  | w :: v :: ws, _, h => by
    rw [join_cons_cons, List.splitOn_append_cons_self_of_not_mem (h w (by simp)),
      splitOn_join (List.cons_ne_nil v ws) fun u hu => h u (by simp [hu])]

theorem fields_join {c : Char} {ws : List Text} (hne : ws ≠ []) (h : ∀ w ∈ ws, w ≠ [] ∧ c ∉ w) :
    fields c (join c ws) = ws := by
  obtain ⟨us, v, rfl⟩ : ∃ us v, ws = us ++ [v] := ⟨_, _, (List.dropLast_append_getLast hne).symm⟩
  refine fields_of_splitOn (n := 0) ?_ (h v (by simp)).1
  exact splitOn_join hne fun w hw => (h w hw).2

theorem splitOn_replicate (c : Char) (n : Nat) : (List.replicate n c).splitOn c = List.replicate (n + 1) [] := by
  induction n with
  | zero => rfl
  | succ n ih =>
    have hcons : (c :: List.replicate n c).splitOn c = [] :: (List.replicate n c).splitOn c :=
      List.splitOn_append_cons_self_of_not_mem List.not_mem_nil _
    rw [List.replicate_succ, hcons, ih]
    rfl

theorem join_cons (c : Char) (w : Text) : ∀ ws : List Text, join c (w :: ws) = w ++ ws.flatMap (c :: ·)
  | [] => (List.append_nil w).symm
  | v :: ws => by rw [join_cons_cons, join_cons c v ws, List.flatMap_cons, List.cons_append]

/-- Separators after the last word make no field. -/
theorem fields_join_append {c : Char} {ws : List Text} (n : Nat) (hne : ws ≠ []) (h : ∀ w ∈ ws, w ≠ [] ∧ c ∉ w) :
    fields c (join c ws ++ List.replicate n c) = ws := by
  have hsplit : (join c ws ++ List.replicate n c).splitOn c = ws ++ List.replicate n [] := by
    cases n with
    | zero =>
      rw [List.replicate_zero, List.replicate_zero, List.append_nil, List.append_nil]
      exact splitOn_join hne fun w hw => (h w hw).2
    | succ n =>
      rw [List.replicate_succ, List.splitOn_append_cons_self, splitOn_join hne fun w hw => (h w hw).2, splitOn_replicate]
  obtain ⟨us, v, rfl⟩ : ∃ us v, ws = us ++ [v] := ⟨_, _, (List.dropLast_append_getLast hne).symm⟩
  rw [List.append_assoc, List.singleton_append] at hsplit
  exact fields_of_splitOn hsplit (h v (by simp)).1

/-- With separators before and after it, a word is the last field. -/
theorem getLast?_fields {c : Char} {v : Text} (s : Text) (n : Nat) (hv : v ≠ []) (hc : c ∉ v) :
    (fields c (s ++ c :: (v ++ List.replicate n c))).getLast? = some v := by
  obtain ⟨k, hk⟩ : ∃ k, (v ++ List.replicate n c).splitOn c = v :: List.replicate k [] := by
    cases n with
    | zero => exact ⟨0, by rw [List.replicate_zero, List.append_nil]; exact List.splitOn_eq_singleton hc⟩
    | succ n =>
      refine ⟨n + 1, ?_⟩
      rw [List.replicate_succ, List.splitOn_append_cons_self_of_not_mem hc, splitOn_replicate]
  have hsplit : (s ++ c :: (v ++ List.replicate n c)).splitOn c = s.splitOn c ++ v :: List.replicate k [] := by
    rw [List.splitOn_append_cons_self, hk]
  rw [fields_of_splitOn hsplit hv, List.getLast?_concat]

/-! ## Numbers -/

def decimal : Int → Text
  | .ofNat n => Nat.toDigits 10 n
  | .negSucc n => '-' :: Nat.toDigits 10 (n + 1)

def parseNat? (s : Text) : Option Nat := if s ≠ [] ∧ s.all Char.isDigit then some (Nat.ofDigitChars 10 s 0) else none

/-- Digits, with a sign before them or none. -/
def parseInt? : Text → Option Int
  | '-' :: s => (parseNat? s).map fun n => -Int.ofNat n
  | '+' :: s => (parseNat? s).map Int.ofNat
  | s => (parseNat? s).map Int.ofNat

theorem parseNat?_toDigits (n : Nat) : parseNat? (Nat.toDigits 10 n) = some n := by
  have hdigits : (Nat.toDigits 10 n).all Char.isDigit = true :=
    List.all_eq_true.mpr fun c hc => Nat.isDigit_of_mem_toDigits (by decide) (by decide) hc
  rw [parseNat?, if_pos ⟨Nat.toDigits_ne_nil, hdigits⟩, Nat.ofDigitChars_ten_toDigits]

theorem parseInt?_of_digit {c : Char} {s : Text} (h : c.isDigit = true) :
    parseInt? (c :: s) = (parseNat? (c :: s)).map Int.ofNat := by
  unfold parseInt?
  split
  · next heq => cases heq; cases h
  · next heq => cases heq; cases h
  · rfl

@[simp] theorem parseInt?_decimal (i : Int) : parseInt? (decimal i) = some i := by
  cases i with
  | negSucc n =>
    rw [decimal, parseInt?, parseNat?_toDigits, Option.map_some]
    rfl
  | ofNat n =>
    rw [decimal]
    cases hd : Nat.toDigits 10 n with
    | nil => exact absurd hd Nat.toDigits_ne_nil
    | cons c cs =>
      have hc : c.isDigit = true :=
        Nat.isDigit_of_mem_toDigits (b := 10) (n := n) (by decide) (by decide) (by rw [hd]; simp)
      rw [parseInt?_of_digit hc, ← hd, parseNat?_toDigits, Option.map_some]

theorem decimal_inj {i j : Int} (h : decimal i = decimal j) : i = j := by
  rw [← Option.some.injEq, ← parseInt?_decimal, ← parseInt?_decimal, h]

/-- A number is a word, between separators that are no digit and no sign. -/
theorem decimal_isWord {sep : Char → Bool} (hdigit : ∀ c : Char, c.isDigit = true → sep c = false)
    (hsign : sep '-' = false) (i : Int) : IsWord sep (decimal i) := by
  have hdigits : ∀ (n : Nat), ∀ c ∈ Nat.toDigits 10 n, sep c = false := fun n c hc =>
    hdigit c (Nat.isDigit_of_mem_toDigits (by decide) (by decide) hc)
  cases i with
  | ofNat n => exact ⟨Nat.toDigits_ne_nil, hdigits n⟩
  | negSucc n =>
    refine ⟨List.cons_ne_nil _ _, fun c hc => ?_⟩
    rcases List.mem_cons.mp hc with rfl | hc
    · exact hsign
    · exact hdigits _ c hc

end Text

end Lib
