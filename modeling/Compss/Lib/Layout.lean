/-
Tokens with the gaps before them, and the text they make: the words of it, and what
is left of a line of it when the gaps around it are taken off.

A token is a word or has separators only. `Fits` says which tokens they are, and
what each gap keeps to.
-/
import Compss.Lib.Text
import Mathlib.Data.List.Chain
import Mathlib.Data.List.Forall2

namespace Lib

open Text

/-- Tokens, each with the gap before it. -/
abbrev Spaced := List (Text × Text)

namespace Spaced

def text (ts : Spaced) : Text := ts.flatMap fun p => p.1 ++ p.2

def tokens (ts : Spaced) : List Text := ts.map Prod.snd

/-- The first gap is left out. -/
def flush : Spaced → Spaced
  | [] => []
  | p :: ts => ([], p.2) :: ts

@[simp] theorem text_nil : text [] = [] := rfl

@[simp] theorem text_cons (p : Text × Text) (ts : Spaced) : text (p :: ts) = p.1 ++ (p.2 ++ text ts) := by
  simp [text]

@[simp] theorem text_append (ts us : Spaced) : text (ts ++ us) = text ts ++ text us := by
  simp [text]

@[simp] theorem tokens_nil : tokens [] = [] := rfl

@[simp] theorem tokens_cons (p : Text × Text) (ts : Spaced) : tokens (p :: ts) = p.2 :: tokens ts := rfl

@[simp] theorem tokens_append (ts us : Spaced) : tokens (ts ++ us) = tokens ts ++ tokens us := by
  simp [tokens]

@[simp] theorem tokens_flush : ∀ ts : Spaced, tokens (flush ts) = tokens ts
  | [] => rfl
  | _ :: _ => rfl

theorem mem_text {c : Char} {ts : Spaced} (h : c ∈ text ts) : ∃ p ∈ ts, c ∈ p.1 ∨ c ∈ p.2 := by
  obtain ⟨p, hp, hc⟩ := List.mem_flatMap.mp h
  exact ⟨p, hp, List.mem_append.mp hc⟩

/-! ## Words -/

section
variable {sep : Char → Bool} {w v x y : Text} {ts : Spaced}

/-- Where the separators begin, the word ends. -/
theorem word_unique (hw : ∀ c ∈ w, sep c = false) (hv : ∀ c ∈ v, sep c = false) (hx : ∀ c ∈ x.head?, sep c = true)
    (hy : ∀ c ∈ y.head?, sep c = true) (h : w ++ x = v ++ y) : w = v ∧ x = y := by
  have htake : ∀ {u z : Text}, (∀ c ∈ u, sep c = false) → (∀ c ∈ z.head?, sep c = true) →
      (u ++ z).takeWhile (fun c => !sep c) = u := by
    intro u z hu hz
    rw [List.takeWhile_append_of_pos fun c hc => by rw [hu c hc]; rfl]
    cases z with
    | nil => simp
    | cons c z => rw [List.takeWhile_cons_of_neg (by simp [hz c rfl]), List.append_nil]
  have hwv : w = v := by rw [← htake hw hx, h, htake hv hy]
  exact ⟨hwv, List.append_cancel_left (hwv ▸ h)⟩

theorem words_append_of_sep (hg : ∀ c ∈ w, sep c = true) : words sep (w ++ x) = words sep x := by
  induction w with
  | nil => rfl
  | cons c w ih => rw [List.cons_append, words_cons_sep (hg c (by simp)), ih fun d hd => hg d (by simp [hd])]

theorem words_append_word (hw : IsWord sep w) (hx : ∀ c ∈ x.head?, sep c = true) :
    words sep (w ++ x) = w :: words sep x := by
  cases x with
  | nil => rw [List.append_nil, words_of_isWord hw, words_nil]
  | cons c x => rw [words_append_sep hw (hx c rfl), words_cons_sep (hx c rfl)]

/-- A word, or separators. -/
def IsToken (sep : Char → Bool) (t : Text) : Prop := IsWord sep t ∨ t ≠ [] ∧ ∀ c ∈ t, sep c = true

/-- Two words have a gap between them. -/
def Apart (sep : Char → Bool) (p q : Text × Text) : Prop := q.1 ≠ [] ∨ p.2.all sep ∨ q.2.all sep

instance (sep : Char → Bool) (p q : Text × Text) : Decidable (Apart sep p q) := inferInstanceAs (Decidable (_ ∨ _))

structure WellSpaced (sep : Char → Bool) (ts : Spaced) : Prop where
  gaps : ∀ p ∈ ts, ∀ c ∈ p.1, sep c = true
  isToken : ∀ p ∈ ts, IsToken sep p.2
  apart : ts.IsChain (Apart sep)

theorem WellSpaced.tail {p : Text × Text} (h : WellSpaced sep (p :: ts)) : WellSpaced sep ts where
  gaps q hq := h.gaps q (List.mem_cons_of_mem p hq)
  isToken q hq := h.isToken q (List.mem_cons_of_mem p hq)
  apart := h.apart.tail

theorem not_all_of_isWord (hw : IsWord sep w) : w.all sep = false := by
  obtain ⟨c, hc⟩ := List.exists_mem_of_ne_nil w hw.1
  rw [List.all_eq_false]
  exact ⟨c, hc, by simp [hw.2 c hc]⟩

/-- What stands after a word begins with a separator. -/
theorem WellSpaced.head_text {p : Text × Text} (h : WellSpaced sep (p :: ts)) (hp : IsWord sep p.2) :
    ∀ c ∈ (text ts).head?, sep c = true := by
  intro c hc
  cases ts with
  | nil => cases hc
  | cons q ts =>
    rw [text_cons] at hc
    cases hq : q.1 with
    | cons d g =>
      rw [hq] at hc
      cases hc
      exact h.gaps q (by simp) c (by simp [hq])
    | nil =>
      have hapart := (List.isChain_cons_cons.mp h.apart).1
      simp only [Apart, hq, ne_eq, not_true, false_or, not_all_of_isWord hp, Bool.false_eq_true] at hapart
      rw [hq, List.nil_append] at hc
      cases ht : q.2 with
      | nil =>
        rcases h.isToken q (by simp) with hw | hs
        · exact absurd ht hw.1
        · exact absurd ht hs.1
      | cons d t =>
        rw [ht] at hc hapart
        cases hc
        exact List.all_eq_true.mp hapart c (by simp)

/-- The words of the text are the tokens that are words. -/
theorem words_text (h : WellSpaced sep ts) : words sep (text ts) = (tokens ts).filter fun t => !t.all sep := by
  induction ts with
  | nil => exact words_nil
  | cons p ts ih =>
    rw [text_cons, words_append_of_sep (h.gaps p (by simp)), tokens_cons]
    rcases h.isToken p (by simp) with hp | hp
    · rw [words_append_word hp (h.head_text hp), ih h.tail, List.filter_cons_of_pos (by rw [not_all_of_isWord hp]; rfl)]
    · rw [words_append_of_sep hp.2, ih h.tail, List.filter_cons_of_neg (by simpa using hp.2)]

end

/-- Each character by another. -/
def mapChars (f : Char → Char) (ts : Spaced) : Spaced := ts.map fun p => (p.1.map f, p.2.map f)

theorem text_mapChars (f : Char → Char) (ts : Spaced) : text (mapChars f ts) = (text ts).map f := by
  induction ts with
  | nil => rfl
  | cons p ts ih =>
    rw [mapChars, List.map_cons, text_cons, ← mapChars, ih, text_cons, List.map_append, List.map_append]

theorem tokens_mapChars (f : Char → Char) (ts : Spaced) : tokens (mapChars f ts) = (tokens ts).map (List.map f) := by
  simp [mapChars, tokens]

theorem wellSpaced_mapChars {sep sep' : Char → Bool} {f : Char → Char} {ts : Spaced}
    (hgaps : ∀ p ∈ ts, ∀ c ∈ p.1, sep' (f c) = true) (htoken : ∀ p ∈ ts, IsToken sep' (p.2.map f))
    (hsep : ∀ p ∈ ts, p.2.all sep = true → (p.2.map f).all sep' = true) (h : ts.IsChain (Apart sep)) :
    WellSpaced sep' (mapChars f ts) where
  gaps q hq c hc := by
    obtain ⟨p, hp, rfl⟩ := List.mem_map.mp hq
    obtain ⟨d, hd, rfl⟩ := List.mem_map.mp hc
    exact hgaps p hp d hd
  isToken q hq := by
    obtain ⟨p, hp, rfl⟩ := List.mem_map.mp hq
    exact htoken p hp
  apart := by
    rw [mapChars, List.isChain_map]
    refine h.imp_of_mem_imp fun p q hp hq hpq => ?_
    rcases hpq with hgap | hleft | hright
    · exact .inl (by simpa using hgap)
    · exact .inr (.inl (hsep p hp hleft))
    · exact .inr (.inr (hsep q hq hright))

/-! ## Lines -/

section
variable {p : Char → Bool} {ts : Spaced} {trail : Text}

theorem exists_text_eq_concat (htoken : ∀ q ∈ ts, q.2 ≠ [] ∧ ∀ c ∈ q.2, p c = false) (hne : ts ≠ []) :
    ∃ s c, text ts = s ++ [c] ∧ p c = false := by
  obtain ⟨us, q, rfl⟩ := List.eq_nil_or_concat ts |>.resolve_left hne
  obtain ⟨hq, hchars⟩ := htoken q (by simp)
  obtain ⟨t, c, ht⟩ := List.eq_nil_or_concat q.2 |>.resolve_left hq
  refine ⟨text us ++ (q.1 ++ t), c, by simp [ht], hchars c (by simp [ht])⟩

/-- The gaps around a line are taken off. -/
theorem strip_text (hgaps : ∀ q ∈ ts, ∀ c ∈ q.1, p c = true) (htrail : ∀ c ∈ trail, p c = true)
    (htoken : ∀ q ∈ ts, q.2 ≠ [] ∧ ∀ c ∈ q.2, p c = false) :
    ((((text ts ++ trail).dropWhile p).reverse).dropWhile p).reverse = text (flush ts) := by
  cases ts with
  | nil =>
    have hnone : (trail ++ []).dropWhile p = [] := by
      rw [List.dropWhile_append_of_pos htrail]
      rfl
    rw [text_nil, List.nil_append, ← List.append_nil trail, hnone]
    rfl
  | cons q ts =>
    have hflush : ∀ r ∈ ([], q.2) :: ts, r.2 ≠ [] ∧ ∀ c ∈ r.2, p c = false := by
      intro r hr
      rcases List.mem_cons.mp hr with rfl | hr
      · exact htoken q (by simp)
      · exact htoken r (by simp [hr])
    obtain ⟨s, c, hs, hc⟩ := exists_text_eq_concat hflush (by simp)
    have hdrop : (text (q :: ts) ++ trail).dropWhile p = text (flush (q :: ts)) ++ trail := by
      obtain ⟨hq, hchars⟩ := htoken q (by simp)
      cases ht : q.2 with
      | nil => exact absurd ht hq
      | cons d t =>
        rw [text_cons, List.append_assoc, List.dropWhile_append_of_pos (hgaps q (by simp)), ht, List.cons_append,
          List.cons_append, List.dropWhile_cons_of_neg (by simp [hchars d (by simp [ht])])]
        simp [flush, ht]
    rw [hdrop, flush, hs, List.reverse_append, List.dropWhile_append_of_pos (by simpa using htrail), List.reverse_append,
      List.reverse_singleton, List.singleton_append, List.dropWhile_cons_of_neg (by simp [hc])]
    simp

variable {g w x : Text}

theorem dropWhile_word (hne : w ≠ []) (hw : ∀ c ∈ w, p c = false) (x : Text) : (w ++ x).dropWhile p = w ++ x := by
  obtain ⟨c, v, rfl⟩ := List.exists_cons_of_ne_nil hne
  rw [List.cons_append, List.dropWhile_cons_of_neg (by simp [hw c (by simp)])]

/-- A word at the beginning of a line stays at its beginning. -/
theorem prefix_strip (hg : ∀ c ∈ g, p c = true) (hne : w ≠ []) (hw : ∀ c ∈ w, p c = false) (x : Text) :
    w <+: ((((g ++ (w ++ x)).dropWhile p).reverse).dropWhile p).reverse := by
  rw [List.dropWhile_append_of_pos hg, dropWhile_word hne hw, List.reverse_append, List.dropWhile_append]
  split
  · have hword := dropWhile_word (p := p) (w := w.reverse) (by simpa using hne) (by simpa using hw) []
    rw [List.append_nil] at hword
    exact ⟨[], by rw [List.append_nil, hword, List.reverse_reverse]⟩
  · rw [List.reverse_append, List.reverse_reverse]
    exact List.prefix_append ..

/-- A word at the end of a line stays at its end. -/
theorem suffix_strip (hg : ∀ c ∈ g, p c = true) (hne : w ≠ []) (hw : ∀ c ∈ w, p c = false) (x : Text) :
    w <:+ ((((x ++ (w ++ g)).dropWhile p).reverse).dropWhile p).reverse := by
  obtain ⟨y, hy⟩ : ∃ y, (x ++ (w ++ g)).dropWhile p = y ++ (w ++ g) := by
    rw [List.dropWhile_append]
    split
    · exact ⟨[], dropWhile_word hne hw g⟩
    · exact ⟨x.dropWhile p, rfl⟩
  rw [hy, List.reverse_append, List.reverse_append, List.append_assoc, List.dropWhile_append_of_pos (by simpa using hg),
    dropWhile_word (by simpa using hne) (by simpa using hw), List.reverse_append, List.reverse_reverse, List.reverse_reverse]
  exact List.suffix_append ..

theorem infix_strip (p : Char → Bool) (x : Text) : (((x.dropWhile p).reverse).dropWhile p).reverse <:+: x := by
  have hprefix : (((x.dropWhile p).reverse).dropWhile p).reverse <+: x.dropWhile p := by
    have h := List.dropWhile_suffix (l := (x.dropWhile p).reverse) p
    rwa [← List.reverse_prefix, List.reverse_reverse] at h
  exact hprefix.isInfix.trans (List.dropWhile_suffix p).isInfix

end

/-! ## What the tokens are -/

section
variable {ρ : Type} {holds : ρ → Text → Prop} {ts : Spaced} {rs rs' : List (ρ × Text)}

/-- The tokens of the list, and the gap before each keeps to its rule. -/
def Fits (holds : ρ → Text → Prop) (ts : Spaced) (rs : List (ρ × Text)) : Prop :=
  List.Forall₂ (fun p r => p.2 = r.2 ∧ holds r.1 p.1) ts rs

theorem Fits.tokens (h : Fits holds ts rs) : Spaced.tokens ts = rs.map Prod.snd := by
  induction h with
  | nil => rfl
  | cons hp _ ih => rw [tokens_cons, List.map_cons, hp.1, ih]

theorem fits_nil_iff : Fits holds ts [] ↔ ts = [] := List.forall₂_nil_right_iff

theorem fits_cons_iff {r : ρ × Text} : Fits holds ts (r :: rs) ↔ ∃ g us, ts = (g, r.2) :: us ∧ holds r.1 g ∧ Fits holds us rs := by
  rw [Fits, List.forall₂_cons_right_iff]
  constructor
  · rintro ⟨⟨g, t⟩, us, ⟨rfl, hg⟩, hus, rfl⟩
    exact ⟨g, us, rfl, hg, hus⟩
  · rintro ⟨g, us, rfl, hg, hus⟩
    exact ⟨(g, r.2), us, ⟨rfl, hg⟩, hus, rfl⟩

theorem fits_append_iff : Fits holds ts (rs ++ rs') ↔ ∃ us vs, ts = us ++ vs ∧ Fits holds us rs ∧ Fits holds vs rs' := by
  constructor
  · intro h
    refine ⟨ts.take rs.length, ts.drop rs.length, (List.take_append_drop ..).symm, ?_, ?_⟩
    · exact List.forall₂_take_append ts rs rs' h
    · exact List.forall₂_drop_append ts rs rs' h
  · rintro ⟨us, vs, rfl, hu, hv⟩
    exact List.rel_append hu hv

end

end Spaced

end Lib
