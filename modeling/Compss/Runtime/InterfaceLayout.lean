/-
Interface files read line by line: what the layout keeps to is enough for every
declaration to be registered as it was written.

A line outside a region begins an item or is passed over, the lines of a region are
put together as the text of the item, and the items are loaded in their order.
-/
import Compss.Runtime.InterfaceConstraints

namespace Compss.Runtime

open Lib Lib.Text Lib.Spaced Compss.Resources

namespace IDLParser

/-! ## Tokens -/

/-- Neither blanks nor ends of lines. -/
def Visible (t : Text) : Prop := t ≠ [] ∧ ∀ c ∈ t, ' ' < c ∧ isLineTerminator c = false

instance (t : Text) : Decidable (Visible t) :=
  @instDecidableAnd (t ≠ []) (∀ c ∈ t, ' ' < c ∧ isLineTerminator c = false) inferInstance (List.decidableBAll _ t)

/-- Visible, and not the end of an item. -/
def Within (t : Text) : Prop := Visible t ∧ ';' ∉ t

theorem IsIdentifier.within {w : Text} (h : IsIdentifier w) : Within w :=
  ⟨⟨h.1, fun c hc => ⟨(isWordChar_iff.mp (by simpa using h.2 c hc)).1, (isWordChar_iff.mp (by simpa using h.2 c hc)).2.2.1⟩⟩,
    h.not_mem (by decide)⟩

theorem IsValue.within {w : Text} (h : IsValue w) : Within w :=
  ⟨⟨h.1, fun c hc => ⟨(isValueChar_iff.mp (by simpa using h.2 c hc)).1, (isValueChar_iff.mp (by simpa using h.2 c hc)).2.2.1⟩⟩,
    h.not_mem (by decide)⟩

theorem within_of_mem {t : Text} (h : t ∈ [['('], [')'], [','], ['='], ['\x7b'], ['\x7d'], "static".toList, "@Processor".toList,
    processorIDL, constraintIDL, implementsIDL]) : Within t := by
  simp only [List.mem_cons, List.not_mem_nil, or_false] at h
  rcases h with rfl | rfl | rfl | rfl | rfl | rfl | rfl | rfl | rfl | rfl | rfl <;> exact ⟨by decide, by decide⟩

/-- The end of every item. -/
def endRule : Rule × Text := (.none, [';'])

def Item.WellFormed {φ : Type} [JavaFloat φ] (pf : Platform φ) : Item → Prop
  | constraints c => c.WellFormed ∧ (c.description pf).isSome
  | implements n => n.WellFormed
  | function f => f.WellFormed

theorem within_inCommas {α : Type} {comma lead next : Rule} {item : Rule → α → List (Rule × Text)} {xs : List α}
    (h : ∀ x ∈ xs, ∀ l, ∀ r ∈ item l x, Within r.2) : ∀ r ∈ inCommas comma lead next item xs, Within r.2 := by
  intro r hr
  rcases mem_inCommas hr with rfl | ⟨x, hx, l, hr⟩
  · exact within_of_mem (by simp)
  · exact h x hx l r hr

theorem within_pair {inner lead : Rule} {p : Text × Text} (hp : IsValue p.1 ∧ IsValue p.2) :
    ∀ r ∈ pairRules inner lead p, Within r.2 := by
  intro r hr
  simp only [pairRules, List.mem_cons, List.not_mem_nil, or_false] at hr
  rcases hr with rfl | rfl | rfl
  · exact hp.1.within
  · exact within_of_mem (by simp)
  · exact hp.2.within

theorem within_listed {lead : Rule} {listed : List (List (Text × Text))}
    (h : ∀ ps ∈ listed, ps ≠ [] ∧ ∀ p ∈ ps, IsValue p.1 ∧ IsValue p.2) : ∀ r ∈ listedRules lead listed, Within r.2 := by
  have hprocessor : ∀ ps ∈ listed, ∀ l, ∀ r ∈ processorRules l ps, Within r.2 := by
    intro ps hps l r hr
    rw [processorRules, List.mem_cons, List.mem_cons, List.mem_append, List.mem_singleton] at hr
    rcases hr with rfl | rfl | hr | rfl
    · exact within_of_mem (by simp)
    · exact within_of_mem (by simp)
    · exact within_inCommas (fun p hp l => within_pair ((h ps hps).2 p hp)) r hr
    · exact within_of_mem (by simp)
  intro r hr
  rw [listedRules, List.mem_cons, List.mem_cons, List.mem_cons, List.mem_append, List.mem_singleton] at hr
  rcases hr with rfl | rfl | rfl | hr | rfl
  · exact within_of_mem (by simp)
  · exact within_of_mem (by simp)
  · exact within_of_mem (by simp)
  · exact within_inCommas hprocessor r hr
  · exact within_of_mem (by simp)

theorem within_entries {c : Constraints} (hc : c.WellFormed) :
    ∀ e ∈ c.entries, ∀ l, ∀ r ∈ Sum.elim (listedRules l) (pairRules .flat l) e, Within r.2 := by
  intro e he l r hr
  rw [Constraints.entries, List.mem_append, List.mem_map] at he
  have hloose := hc.loose
  have hlisted := hc.listed
  rw [Constraints.loose] at hloose
  rw [Constraints.listed] at hlisted
  rcases he with ⟨p, hp, rfl⟩ | he
  · exact within_pair (hloose p (by simp [hp])) r hr
  · cases hprocessors : c.processors with
    | none =>
      rw [hprocessors] at he
      cases he
    | some q =>
      rw [hprocessors] at he hloose hlisted
      rw [Option.elim_some, List.mem_cons, List.mem_map] at he
      rcases he with rfl | ⟨p, hp, rfl⟩
      · exact within_listed hlisted r hr
      · exact within_pair (hloose p (by simp [hp])) r hr

section
variable {φ : Type} [JavaFloat φ] {pf : Platform φ} {i : Item}

/-- An item ends with its only semicolon, after a parenthesis. -/
theorem Item.WellFormed.rules_end (h : i.WellFormed pf) :
    ∃ rs r, i.rules = rs ++ [(r, [')']), endRule] ∧ (∀ r ∈ rs, Within r.2) ∧ ['('] ∈ rs.map Prod.snd := by
  cases i with
  | constraints c =>
    refine ⟨(.none, constraintIDL) :: (.none, ['(']) ::
      inCommas .flat .flat .flat (fun lead => Sum.elim (listedRules lead) (pairRules .flat lead)) c.entries, .flat, rfl,
      fun r hr => ?_, by simp⟩
    rw [List.mem_cons, List.mem_cons] at hr
    rcases hr with rfl | rfl | hr
    · exact within_of_mem (by simp)
    · exact within_of_mem (by simp)
    · exact within_inCommas (within_entries h.1) r hr
  | implements n =>
    refine ⟨[(.none, implementsIDL), (.none, ['(']), (.none, n.text)], .none, rfl, fun r hr => ?_, by simp⟩
    simp only [List.mem_cons, List.not_mem_nil, or_false] at hr
    rcases hr with rfl | rfl | rfl
    · exact within_of_mem (by simp)
    · exact within_of_mem (by simp)
    · exact h.isIdentifier.within
  | function f =>
    have hf : f.WellFormed := h
    have hparams : ∀ p ∈ f.params, ∀ l, ∀ r ∈ Param.rules l p, Within r.2 := by
      intro p hp l r hr
      simp only [Param.rules, List.mem_cons, List.not_mem_nil, or_false] at hr
      rcases hr with rfl | rfl | rfl
      · exact (Function.isIdentifier_direction _).within
      · exact (hf.params p hp).1.within
      · exact (hf.params p hp).2.within
    have hfrom : ∀ lead, ∃ rs, f.rulesFrom lead = rs ++ [(.any, [')']), endRule] ∧ (∀ r ∈ rs, Within r.2) ∧
        ['('] ∈ rs.map Prod.snd := by
      intro lead
      refine ⟨(lead, f.returnType) :: (if f.returnType = "void".toList then .leads else .any, f.name.text) :: (.any, ['(']) ::
        inCommas .any .any .any Param.rules f.params, rfl, fun r hr => ?_, by simp⟩
      rw [List.mem_cons, List.mem_cons, List.mem_cons] at hr
      rcases hr with rfl | rfl | rfl | hr
      · exact hf.returnType.1.within
      · exact hf.name.isIdentifier.within
      · exact within_of_mem (by simp)
      · exact within_inCommas hparams r hr
    cases hstatic : f.isStatic with
    | false =>
      obtain ⟨rs, hrules, hrs, hopen⟩ := hfrom .none
      exact ⟨rs, .any, by rw [Item.rules, Function.rules, hstatic, if_neg (by simp), hrules], hrs, hopen⟩
    | true =>
      obtain ⟨rs, hrules, hrs, hopen⟩ := hfrom .blank
      refine ⟨(.none, "static".toList) :: rs, .any, ?_, fun r hr => ?_, List.mem_cons_of_mem _ hopen⟩
      · rw [Item.rules, Function.rules, hstatic, if_pos rfl, hrules, List.cons_append]
      · rcases List.mem_cons.mp hr with rfl | hr
        · exact within_of_mem (by simp)
        · exact hrs r hr

theorem Item.WellFormed.visible (h : i.WellFormed pf) {ts : Spaced} (hts : Fits Rule.Holds ts i.rules) :
    ∀ p ∈ ts, Visible p.2 := by
  intro p hp
  obtain ⟨rs, r, hrules, hrs, -⟩ := h.rules_end
  have hmem : p.2 ∈ tokens ts := List.mem_map_of_mem hp
  rw [hts.tokens, hrules, List.map_append, List.mem_append] at hmem
  rcases hmem with hmem | hmem
  · obtain ⟨q, hq, hqp⟩ := List.mem_map.mp hmem
    rw [← hqp]
    exact (hrs q hq).1
  · simp only [List.map_cons, List.map_nil, endRule, List.mem_cons, List.not_mem_nil, or_false] at hmem
    rcases hmem with h | h <;> rw [h] <;> decide

end

/-! ## Lines -/

section
variable {l : CodeLine} {ts : Spaced}

theorem trim_line (hgaps : ∀ p ∈ l.tokens, IsGap p.1) (htrail : IsGap l.trail) (hvisible : ∀ p ∈ l.tokens, Visible p.2) :
    trim l.text = text (flush l.tokens) := by
  have hgap : ∀ {g : Text}, IsGap g → ∀ c ∈ g, decide (c ≤ ' ') = true := by
    intro g hg c hc
    have h := hg c hc
    simp only [List.mem_cons, List.not_mem_nil, or_false] at h
    rcases h with rfl | rfl | rfl | rfl <;> decide
  refine strip_text (fun p hp => hgap (hgaps p hp)) (hgap htrail) fun p hp => ⟨(hvisible p hp).1, fun c hc => ?_⟩
  exact decide_eq_false (not_le.mpr ((hvisible p hp).2 c hc).1)

theorem dots_text (hgaps : ∀ p ∈ ts, IsGap p.1) (hvisible : ∀ p ∈ ts, Visible p.2) : dots (text ts) = true := by
  refine List.all_eq_true.mpr fun c hc => ?_
  obtain ⟨p, hp, hc | hc⟩ := mem_text hc
  · have h := hgaps p hp c hc
    simp only [List.mem_cons, List.not_mem_nil, or_false] at h
    rcases h with rfl | rfl | rfl | rfl <;> decide
  · rw [((hvisible p hp).2 c hc).2]
    rfl

theorem mem_flush {p : Text × Text} (h : p ∈ flush ts) : p.1 = [] ∧ (∃ q ∈ ts, q.2 = p.2) ∨ p ∈ ts := by
  cases ts with
  | nil => cases h
  | cons q ts =>
    rcases List.mem_cons.mp h with rfl | h
    · exact .inl ⟨rfl, q, by simp, rfl⟩
    · exact .inr (by simp [h])

end

theorem prefix_cons_ne {c d : Char} {w x : Text} (h : c ≠ d) : ¬ c :: w <+: d :: x := fun hp =>
  h (List.cons_prefix_cons.mp hp).1

section
variable {φ : Type} [JavaFloat φ] {pf : Platform φ} {s : State φ} {c : Char} {y line : Text}

/-- What begins a line that is no comment. -/
def startsCode (c : Char) : Bool := c ≠ '/' ∧ c ≠ '#'

theorem readOutside_code (hc : startsCode c = true) (hline : line = c :: y) :
    readOutside pf line s =
      if isAnnotated constraintIDL line then readStart pf .constraint line s
      else if isAnnotated implementsIDL line then readStart pf .implementation line s
      else if hasCall line then readStart pf .function line s
      else some s := by
  simp only [startsCode, decide_eq_true_eq] at hc
  have hslash : ∀ w : Text, ¬ '/' :: w <+: line := fun w => by
    rw [hline]
    exact prefix_cons_ne (Ne.symm hc.1)
  have hhash : ¬ "#".toList <+: line := by
    rw [hline]
    exact prefix_cons_ne (Ne.symm hc.2)
  have hcomment : ¬ ("//".toList <+: line ∨ "#".toList <+: line ∨ ("/*".toList <+: line ∧ "*/".toList <:+ line)) := by
    rintro (h | h | h)
    · exact hslash _ h
    · exact hhash h
    · exact hslash _ h.1
  have hblock : ¬ "/*".toList <+: line := hslash _
  rw [readOutside, if_neg hcomment, if_neg hblock]

theorem readOutside_constraint (hline : line = (constraintIDL ++ ['(']) ++ y) (hdots : dots line = true) :
    readOutside pf line s = readStart pf .constraint line s := by
  have hannotation : isAnnotated constraintIDL line = true := by
    rw [isAnnotated, hdots, Bool.and_true, List.isPrefixOf_iff_prefix, hline]
    exact List.prefix_append ..
  have hcode : line = '@' :: ("Constraints(".toList ++ y) := hline
  rw [readOutside_code (by decide) hcode, if_pos hannotation]

theorem readOutside_implementation (hline : line = (implementsIDL ++ ['(']) ++ y) (hdots : dots line = true) :
    readOutside pf line s = readStart pf .implementation line s := by
  have hannotation : isAnnotated implementsIDL line = true := by
    rw [isAnnotated, hdots, Bool.and_true, List.isPrefixOf_iff_prefix, hline]
    exact List.prefix_append ..
  have hcode : line = '@' :: 'I' :: ("mplements(".toList ++ y) := hline
  have hother : isAnnotated constraintIDL line = false := by
    rw [isAnnotated, Bool.and_eq_false_iff]
    refine .inl (Bool.eq_false_iff.mpr fun h => ?_)
    rw [List.isPrefixOf_iff_prefix, hcode] at h
    exact prefix_cons_ne (by decide) (List.cons_prefix_cons.mp h).2
  rw [readOutside_code (by decide) hcode, if_neg (by simp [hother]), if_pos hannotation]

theorem readOutside_function (hc : startsCode c = true) (hat : c ≠ '@') (hline : line = c :: y) (hcall : '(' ∈ line)
    (hdots : dots line = true) : readOutside pf line s = readStart pf .function line s := by
  have hannotation : ∀ w : Text, isAnnotated ('@' :: w) line = false := fun w => by
    rw [isAnnotated, Bool.and_eq_false_iff]
    refine .inl (Bool.eq_false_iff.mpr fun h => ?_)
    rw [List.isPrefixOf_iff_prefix, hline] at h
    exact prefix_cons_ne (Ne.symm hat) h
  have hconstraint : isAnnotated constraintIDL line = false := hannotation _
  have himplements : isAnnotated implementsIDL line = false := hannotation _
  rw [readOutside_code hc hline, if_neg (by simp [hconstraint]), if_neg (by simp [himplements]),
    if_pos (by simp [hasCall, hcall, hdots])]

/-- A line without a parenthesis declares nothing. -/
theorem readOutside_other (hcall : '(' ∉ line) (hblock : ¬ "/*".toList <+: line) : readOutside pf line s = some s := by
  have hannotation : ∀ tag : Text, isAnnotated tag line = false := fun tag => by
    rw [isAnnotated, Bool.and_eq_false_iff]
    refine .inl (Bool.eq_false_iff.mpr fun h => hcall ?_)
    exact (List.isPrefixOf_iff_prefix.mp h).subset (by simp)
  have hnone : hasCall line = false := by simp [hasCall, hcall]
  by_cases hcomment : "//".toList <+: line ∨ "#".toList <+: line ∨ ("/*".toList <+: line ∧ "*/".toList <:+ line)
  · rw [readOutside, if_pos hcomment]
  · rw [readOutside, if_neg hcomment, if_neg hblock, hannotation, hannotation, hnone, if_neg (by simp), if_neg (by simp),
      if_neg (by simp)]

end

/-! ## The lines of an item -/

def Item.region : Item → CodeRegion
  | constraints _ => .constraint
  | implements _ => .implementation
  | function _ => .function

section
variable {φ : Type} [JavaFloat φ] {pf : Platform φ} {s : State φ} {i : Item} {us vs : Spaced}

/-- Two tokens at the beginning, the second of which is on the first line. -/
theorem first_two {t : Text} {rs : List (Rule × Text)} (hfits : Fits Rule.Holds (us ++ vs) ((.none, t) :: (.none, ['(']) :: rs))
    (ht : t ≠ ['(']) (hopen : ['('] ∈ us.tokens) : ∃ ws : Spaced, us.text = (t ++ ['(']) ++ ws.text := by
  rw [fits_cons_iff] at hfits
  obtain ⟨_, xs, hfirst, rfl, hfits⟩ := hfits
  rw [fits_cons_iff] at hfits
  obtain ⟨_, ys, rfl, rfl, -⟩ := hfits
  cases us with
  | nil => cases hopen
  | cons p us =>
    obtain ⟨rfl, hsecond⟩ := List.cons_eq_cons.mp hfirst
    cases us with
    | nil => exact absurd (List.mem_singleton.mp hopen).symm ht
    | cons q us =>
      obtain ⟨rfl, -⟩ := List.cons_eq_cons.mp hsecond
      exact ⟨us, by simp⟩

theorem text_head_identifier {w : Text} (hw : IsIdentifier w) {rs : List (Rule × Text)}
    (hfits : Fits Rule.Holds (us ++ vs) ((.none, w) :: rs)) (hne : us ≠ []) :
    ∃ c y, us.text = c :: y ∧ isWordChar c = true := by
  rw [fits_cons_iff] at hfits
  obtain ⟨_, xs, hfirst, rfl, -⟩ := hfits
  obtain ⟨p, us, rfl⟩ := List.exists_cons_of_ne_nil hne
  obtain ⟨rfl, -⟩ := List.cons_eq_cons.mp hfirst
  obtain ⟨c, w', hw'⟩ := List.exists_cons_of_ne_nil hw.1
  have hchar : isWordChar c = true := by simpa using hw.2 c (by simp [hw'])
  exact ⟨c, w' ++ text us, by rw [text_cons, hw']; rfl, hchar⟩

/-- The first line of an item starts it, if the parenthesis is on it. -/
theorem readOutside_first (hi : i.WellFormed pf) (hfits : Fits Rule.Holds (us ++ vs) i.rules) (hopen : ['('] ∈ us.tokens)
    (hdots : dots us.text = true) : readOutside pf us.text s = readStart pf i.region us.text s := by
  cases i with
  | constraints c =>
    obtain ⟨ws, htext⟩ := first_two hfits (by decide) hopen
    exact readOutside_constraint htext hdots
  | implements n =>
    obtain ⟨ws, htext⟩ := first_two hfits (by decide) hopen
    exact readOutside_implementation htext hdots
  | function f =>
    have hf : f.WellFormed := hi
    have hne : us ≠ [] := by
      rintro rfl
      cases hopen
    have hhead : ∃ c y, us.text = c :: y ∧ isWordChar c = true := by
      rw [Item.rules, Function.rules] at hfits
      split at hfits
      · exact text_head_identifier (by decide : IsIdentifier "static".toList) hfits hne
      · exact text_head_identifier hf.returnType.1 hfits hne
    obtain ⟨c, y, htext, hc⟩ := hhead
    obtain ⟨-, -, -, hspecial⟩ := isWordChar_iff.mp hc
    simp only [List.mem_cons, List.not_mem_nil, or_false, not_or] at hspecial
    have hcall : '(' ∈ us.text := by
      obtain ⟨p, hp, hpt⟩ := List.mem_map.mp hopen
      exact List.mem_flatMap.mpr ⟨p, hp, by simp [hpt]⟩
    exact readOutside_function (by simp [startsCode, hspecial]) hspecial.2.1 htext hcall hdots

end

theorem isGap_le {g : Text} (hg : IsGap g) : ∀ c ∈ g, decide (c ≤ ' ') = true := by
  intro c hc
  have h := hg c hc
  simp only [List.mem_cons, List.not_mem_nil, or_false] at h
  rcases h with rfl | rfl | rfl | rfl <;> decide

theorem visible_le {t : Text} (h : Visible t) : ∀ c ∈ t, decide (c ≤ ' ') = false := fun c hc =>
  decide_eq_false (not_le.mpr (h.2 c hc).1)

theorem endsCall_eq {line x : Text} (hline : line = x ++ [')', ';']) (hdots : dots line = true) : endsCall line = true := by
  rw [endsCall, hdots, Bool.and_true, List.isSuffixOf_iff_suffix, hline]
  exact List.suffix_append ..

theorem endsCall_of_not_mem {line : Text} (h : ';' ∉ line) : endsCall line = false := by
  rw [endsCall, Bool.and_eq_false_iff]
  refine .inl (Bool.eq_false_iff.mpr fun hs => h ?_)
  exact (List.isSuffixOf_iff_suffix.mp hs).subset (by simp)

section
variable {φ : Type} [JavaFloat φ] {pf : Platform φ} {i : Item} {us vs : Spaced}

/-- The last line ends as the parser expects. -/
theorem text_last (hi : i.WellFormed pf) (hfits : Fits Rule.Holds (us ++ vs) i.rules)
    (hclose : [[')'], [';']] <:+ vs.tokens) : ∃ x, vs.text = x ++ [')', ';'] := by
  obtain ⟨rs, r, hrules, -⟩ := hi.rules_end
  rw [hrules] at hfits
  obtain ⟨as, bs, hsplit, -, hbs⟩ := fits_append_iff.mp hfits
  rw [fits_cons_iff] at hbs
  obtain ⟨g, _, rfl, -, hbs⟩ := hbs
  rw [endRule, fits_cons_iff] at hbs
  obtain ⟨_, _, rfl, rfl, hbs⟩ := hbs
  rw [fits_nil_iff] at hbs
  subst hbs
  -- The last two tokens of the item are the last two of the line.
  have hsuffix : [(g, [')']), ([], [';'])] <:+ vs := by
    obtain ⟨u, hu⟩ := hclose
    have hlength : 2 ≤ vs.length := by
      have := congrArg List.length hu
      simp [tokens] at this
      omega
    have hvs : vs <:+ us ++ vs := List.suffix_append ..
    have hend : [(g, [')']), ([], [';'])] <:+ us ++ vs := hsplit ▸ List.suffix_append ..
    exact List.suffix_of_suffix_length_le hend hvs hlength
  obtain ⟨ws, rfl⟩ := hsuffix
  exact ⟨text ws ++ g, by simp⟩

/-- The lines before the last one have no semicolon. -/
theorem not_mem_before (hi : i.WellFormed pf) (hfits : Fits Rule.Holds (us ++ vs) i.rules)
    (hclose : [[')'], [';']] <:+ vs.tokens) : ∀ p ∈ us, ';' ∉ p.2 := by
  obtain ⟨rs, r, hrules, hrs, -⟩ := hi.rules_end
  obtain ⟨u, hu⟩ := hclose
  have htokens := hfits.tokens
  have hsame : tokens us ++ u = rs.map Prod.snd := by
    rw [hrules, tokens_append, ← hu, List.map_append, ← List.append_assoc] at htokens
    exact (List.append_inj' htokens rfl).1
  intro p hp
  have hmem : p.2 ∈ rs.map Prod.snd := by
    rw [← hsame]
    exact List.mem_append_left _ (List.mem_map_of_mem hp)
  obtain ⟨q, hq, hqp⟩ := List.mem_map.mp hmem
  rw [← hqp]
  exact (hrs q hq).2

theorem not_mem_text {ts : Spaced} (hgaps : ∀ p ∈ ts, IsGap p.1) (h : ∀ p ∈ ts, ';' ∉ p.2) : ';' ∉ ts.text := fun hmem => by
  obtain ⟨p, hp, hc | hc⟩ := mem_text hmem
  · exact absurd (hgaps p hp ';' hc) (by decide)
  · exact h p hp hc

end

theorem glue_cons (c : Chunk) (cs : List Chunk) : glue (c :: cs) = glue [c] ++ glue cs := by
  simp [glue]

theorem glue_append (cs ds : List Chunk) : glue (cs ++ ds) = glue cs ++ glue ds := List.flatMap_append

theorem glue_code (l : CodeLine) : glue [.code l] = flush l.tokens := by
  simp [glue]

/-- The gaps of the lines put together are gaps of the lines. -/
theorem glue_gaps {cs : List Chunk} (hwf : ∀ c ∈ cs, c.WellFormed) : ∀ p ∈ glue cs, IsGap p.1 := by
  intro p hp
  obtain ⟨c, hc, hp⟩ := List.mem_flatMap.mp hp
  cases c with
  | code l =>
    rcases mem_flush hp with ⟨hnil, -⟩ | hp
    · rw [hnil]
      exact Function.isGap_nil
    · exact (hwf _ hc).1 p hp
  | lineComment => cases hp
  | blockComment => cases hp
  | other => cases hp

theorem visible_line {l : CodeLine} (h : ∀ p ∈ flush l.tokens, Visible p.2) : ∀ p ∈ l.tokens, Visible p.2 := by
  intro p hp
  have hmem : p.2 ∈ tokens (flush l.tokens) := by
    rw [tokens_flush]
    exact List.mem_map_of_mem hp
  obtain ⟨q, hq, hqp⟩ := List.mem_map.mp hmem
  rw [← hqp]
  exact h q hq

section
variable {φ : Type} [JavaFloat φ] {pf : Platform φ} {s : State φ} {type : CodeRegion}

/-- A comment inside a region is passed over. -/
theorem readLine_comment (hregion : s.region = some type) {indent text : Text} (hindent : IsGap indent) :
    readLine pf s (indent ++ "//".toList ++ text) = some s := by
  have hstart : "//".toList <+: trim (indent ++ "//".toList ++ text) := by
    rw [List.append_assoc]
    exact prefix_strip (isGap_le hindent) (by decide) (visible_le (by decide)) text
  rw [readLine, hregion]
  simp only [readInside, if_pos hstart]

/-- A line inside a region is put after the others. -/
theorem readLine_inside (hregion : s.region = some type) (htype : type ≠ .comment) {l : CodeLine}
    (hl : (Chunk.code l).WellFormed) (hinner : (Chunk.code l).Inner) (hvisible : ∀ p ∈ flush l.tokens, Visible p.2)
    (hend : endsCall (flush l.tokens).text = false) :
    readLine pf s l.text = some { s with structureString := s.structureString ++ (flush l.tokens).text } := by
  have hinner' : ¬ "//".toList <+: (flush l.tokens).text := hinner
  rw [readLine, hregion]
  simp only [trim_line hl.1 hl.2.1 (visible_line hvisible), readInside, if_neg hinner', if_neg htype, hend,
    Bool.false_eq_true, if_false, hregion]

theorem foldlM_inside {cs : List Chunk} (htype : type ≠ .comment) (hwf : ∀ c ∈ cs, c.WellFormed) (hinner : ∀ c ∈ cs, c.Inner)
    (hvisible : ∀ p ∈ glue cs, Visible p.2) (hwithin : ∀ p ∈ glue cs, ';' ∉ p.2) (hregion : s.region = some type) :
    (cs.flatMap Chunk.lines).foldlM (readLine pf) s =
      some { s with structureString := s.structureString ++ (glue cs).text } := by
  induction cs generalizing s with
  | nil => simp [glue]
  | cons c cs ih =>
    have hrest : ∀ {p}, p ∈ glue cs → p ∈ glue (c :: cs) := fun hp => by
      rw [glue_cons]
      exact List.mem_append_right _ hp
    have hfirst : ∀ {p}, p ∈ glue [c] → p ∈ glue (c :: cs) := fun hp => by
      rw [glue_cons]
      exact List.mem_append_left _ hp
    have ih' : ∀ {t : State φ}, t.region = some type → _ := fun ht =>
      ih (fun d hd => hwf d (by simp [hd])) (fun d hd => hinner d (by simp [hd])) (fun p hp => hvisible p (hrest hp))
        (fun p hp => hwithin p (hrest hp)) ht
    cases c with
    | code l =>
      have hl := hwf (.code l) (by simp)
      rw [glue_code] at hfirst
      have hend := endsCall_of_not_mem (not_mem_text (fun p hp => glue_gaps hwf p (hfirst hp)) fun p hp => hwithin p (hfirst hp))
      have hline : readLine pf s l.text = some { s with structureString := s.structureString ++ (flush l.tokens).text } :=
        readLine_inside hregion htype hl (hinner (.code l) (by simp)) (fun p hp => hvisible p (hfirst hp)) hend
      rw [List.flatMap_cons, Chunk.lines, List.singleton_append, List.foldlM_cons, hline]
      refine (ih' (t := { s with structureString := s.structureString ++ (flush l.tokens).text }) hregion).trans ?_
      rw [glue_cons, text_append, glue_code, List.append_assoc]
    | lineComment indent t =>
      have hindent : IsGap indent := hwf (.lineComment indent t) (by simp)
      rw [List.flatMap_cons, Chunk.lines, List.singleton_append, List.foldlM_cons, readLine_comment hregion hindent]
      exact ih' hregion
    | blockComment indent first rest trail => exact (hinner (.blockComment indent first rest trail) (by simp)).elim
    | other line => exact (hinner (.other line) (by simp)).elim

end

/-! ## Items -/

section
variable {φ : Type} [JavaFloat φ] {pf : Platform φ} {s : State φ} {i : Item}

theorem LaidAs.endsCall {ts : Spaced} (hi : i.WellFormed pf) (hfits : Fits Rule.Holds ts i.rules) (hdots : dots ts.text = true) :
    IDLParser.endsCall ts.text = true := by
  obtain ⟨rs, r, hrules, -⟩ := hi.rules_end
  have hclose : [[')'], [';']] <:+ tokens ts := by
    rw [hfits.tokens, hrules, List.map_append]
    exact List.suffix_append ..
  have hall : Fits Rule.Holds ([] ++ ts) i.rules := hfits
  obtain ⟨x, hx⟩ := text_last hi hall hclose
  exact endsCall_eq hx hdots

/-- The lines of an item are loaded as its text. -/
theorem foldlM_item {piece : List Chunk} (hi : i.WellFormed pf) (hwf : ∀ c ∈ piece, c.WellFormed) (h : i.Laid piece)
    (hregion : s.region = none) : ∃ str, i.LaidAs (glue piece) ∧
      (piece.flatMap Chunk.lines).foldlM (readLine pf) s =
        load pf i.region (glue piece).text { s with structureString := str } := by
  cases h with
  | one l hlaid =>
    have hl := hwf (.code l) (by simp)
    have hvisible := hi.visible hlaid.fits
    have hgaps := glue_gaps hwf
    rw [glue_code] at hgaps ⊢
    have hdots := dots_text hgaps hvisible
    have hopen : ['('] ∈ tokens (flush l.tokens) := by
      obtain ⟨rs, r, hrules, -, hopen⟩ := hi.rules_end
      rw [hlaid.fits.tokens, hrules, List.map_append]
      exact List.mem_append_left _ hopen
    have hall : Fits Rule.Holds (flush l.tokens ++ []) i.rules := by simpa using hlaid.fits
    have hstart := readOutside_first (s := s) hi hall hopen hdots
    refine ⟨s.structureString, hlaid, ?_⟩
    have hline : readLine pf s l.text = load pf i.region (flush l.tokens).text s := by
      rw [readLine, hregion]
      simp only [trim_line hl.1 hl.2.1 (visible_line hvisible), hstart, readStart, LaidAs.endsCall hi hlaid.fits hdots, if_true]
    simp [Chunk.lines, hline]
  | more l cs l' hopen hinner hclose hlast hlaid =>
    have hl := hwf (.code l) (by simp)
    have hl' := hwf (.code l') (by simp)
    have hcs : ∀ c ∈ cs, c.WellFormed := fun c hc => hwf c (by simp [hc])
    have hglue : glue (.code l :: (cs ++ [.code l'])) = flush l.tokens ++ (glue cs ++ flush l'.tokens) := by
      rw [glue_cons, glue_append, glue_code, glue_code]
    have hvisible := hi.visible hlaid.fits
    have hgaps := glue_gaps hwf
    have hfits := hlaid.fits
    rw [hglue] at hvisible hgaps hfits
    have hpart : ∀ {us : Spaced}, (∀ p ∈ us, p ∈ flush l.tokens ++ (glue cs ++ flush l'.tokens)) → dots us.text = true :=
      fun hus => dots_text (fun p hp => hgaps p (hus p hp)) fun p hp => hvisible p (hus p hp)
    -- Only the last line has the semicolon.
    have hsplit : Fits Rule.Holds ((flush l.tokens ++ glue cs) ++ flush l'.tokens) i.rules := by
      rwa [List.append_assoc]
    have hclose' : [[')'], [';']] <:+ tokens (flush l'.tokens) := by rwa [tokens_flush]
    have hbefore := not_mem_before hi hsplit hclose'
    obtain ⟨x, hx⟩ := text_last hi hsplit hclose'
    have hend' : IDLParser.endsCall (flush l'.tokens).text = true := endsCall_eq hx (hpart fun p hp => by simp [hp])
    have hend : IDLParser.endsCall (flush l.tokens).text = false := by
      refine endsCall_of_not_mem (not_mem_text (fun p hp => hgaps p (by simp [hp])) fun p hp => hbefore p (by simp [hp]))
    have hstart := readOutside_first (s := s) hi hfits (by rwa [tokens_flush]) (hpart fun p hp => by simp [hp])
    have htype : i.region ≠ .comment := by
      cases i <;> simp [Item.region]
    have hfirst : readLine pf s l.text =
        some { s with region := some i.region, structureString := (flush l.tokens).text } := by
      rw [readLine, hregion]
      simp only [trim_line hl.1 hl.2.1 (visible_line fun p hp => hvisible p (by simp [hp])), hstart, readStart, hend,
        Bool.false_eq_true, if_false]
    have hmiddle : (cs.flatMap Chunk.lines).foldlM (readLine pf)
          { s with region := some i.region, structureString := (flush l.tokens).text } =
        some { s with region := some i.region, structureString := (flush l.tokens).text ++ (glue cs).text } :=
      foldlM_inside htype hcs hinner (fun p hp => hvisible p (by simp [hp])) (fun p hp => hbefore p (by simp [hp])) rfl
    have hinner' : ¬ "//".toList <+: (flush l'.tokens).text := hlast
    have hfinal : readLine pf { s with
          region := some i.region
          structureString := (flush l.tokens).text ++ (glue cs).text } l'.text =
        load pf i.region (glue (.code l :: (cs ++ [.code l']))).text
          { s with structureString := (glue (.code l :: (cs ++ [.code l']))).text } := by
      simp only [readLine, trim_line hl'.1 hl'.2.1 (visible_line fun p hp => hvisible p (by simp [hp])), readInside,
        if_neg hinner', if_neg htype, hend', if_true, hglue, text_append, List.append_assoc, hregion]
    refine ⟨(glue (.code l :: (cs ++ [.code l']))).text, hlaid, ?_⟩
    have hlines : (Chunk.code l :: (cs ++ [.code l'])).flatMap Chunk.lines = l.text :: (cs.flatMap Chunk.lines ++ [l'.text]) := by
      simp [Chunk.lines]
    rw [hlines, List.foldlM_cons, hfirst, Option.bind_eq_bind, Option.bind_some, List.foldlM_append, hmiddle,
      Option.bind_eq_bind, Option.bind_some, List.foldlM_cons, hfinal]
    simp

end

/-- What an item that is loaded changes. -/
def Item.apply {φ : Type} [JavaFloat φ] (pf : Platform φ) : Item → State φ → State φ
  | constraints c, s => { s with currConstraints := (c.description pf).getD s.currConstraints }
  | implements n, s => { s with implementation := some n.implementation }
  | function f, s => { s with
      manager := f.register pf s.currConstraints s.implementation s.manager
      currConstraints := (defaultCtr : MethodResourceDescription φ).copy
      implementation := none }

section
variable {φ : Type} [JavaFloat φ] {pf : Platform φ} {s : State φ} {i : Item}

theorem load_item {ts : Spaced} (hi : i.WellFormed pf) (hlaid : i.LaidAs ts) (hgaps : ∀ p ∈ ts, IsGap p.1)
    (hs : s.manager.Sound) : load pf i.region ts.text s = some (i.apply pf s) := by
  have hdots := dots_text hgaps (hi.visible hlaid.fits)
  cases i with
  | constraints c =>
    obtain ⟨r, hr⟩ := Option.isSome_iff_exists.mp hi.2
    rw [Item.region, load, loadCConstraints_laid pf hi.1 hlaid.fits hlaid.sound hdots, hr]
    simp [Item.apply, hr]
  | implements n =>
    rw [Item.region, load, loadCImplementation_annotation hi hlaid.fits]
    rfl
  | function f =>
    rw [Item.region, load, parseCFunction_laid pf hi hlaid.fits hgaps hlaid.apart hlaid.sound _ _ hs]
    rfl

theorem apply_structureString (i : Item) (s : State φ) (str : Text) :
    i.apply pf { s with structureString := str } = { i.apply pf s with structureString := str } := by
  cases i <;> rfl

theorem apply_region (i : Item) (s : State φ) : (i.apply pf s).region = s.region := by
  cases i <;> rfl

theorem apply_sound (hs : s.manager.Sound) (i : Item) : (i.apply pf s).manager.Sound := by
  cases i with
  | constraints c => exact hs
  | implements n => exact hs
  | function f => exact declare_sound hs _ _ _ _

theorem foldl_apply_structureString (is : List Item) (s : State φ) (str : Text) :
    is.foldl (fun s i => i.apply pf s) { s with structureString := str } =
      { is.foldl (fun s i => i.apply pf s) s with structureString := str } := by
  induction is generalizing s with
  | nil => rfl
  | cons i is ih => rw [List.foldl_cons, List.foldl_cons, apply_structureString, ih]

/-! ## Lines that declare nothing -/

theorem trim_other {line : Text} (h : '(' ∉ line) : '(' ∉ trim line := fun hmem =>
  h ((infix_strip (fun c => decide (c ≤ ' ')) line).subset hmem)

theorem readLine_outside (hregion : s.region = none) (line : Text) : readLine pf s line = readOutside pf (trim line) s := by
  rw [readLine, hregion]

/-- The lines of a block comment after the first. -/
theorem foldlM_closing {trail : Text} (htrail : IsGap trail) (hregion : s.region = none) :
    ∀ {rest : List Text} {line : Text}, (∀ b ∈ line :: rest, ¬ "*/".toList <:+: b) →
      (∀ l ∈ (line :: rest).getLast?, ¬ "//".toList <+: trim (l ++ "*/".toList ++ trail)) →
        (closing trail line rest).foldlM (readLine pf) { s with region := some .comment } = some s
  | [], line, _, hlast => by
    have hend : "*/".toList <:+ trim (line ++ "*/".toList ++ trail) := by
      rw [List.append_assoc]
      exact suffix_strip (isGap_le htrail) (by decide) (visible_le (by decide)) line
    have hs : { s with region := none } = s := by rw [← hregion]
    have hline : readLine pf { s with region := some .comment } (line ++ "*/".toList ++ trail) = some s := by
      simp only [readLine, readInside, if_neg (hlast line rfl), if_true, if_pos hend, hs]
    rw [closing, List.foldlM_cons, hline]
    rfl
  | next :: rest, line, hbody, hlast => by
    have hmiddle : ¬ "*/".toList <:+ trim line := fun h =>
      hbody line (by simp) (h.isInfix.trans (infix_strip (fun c => decide (c ≤ ' ')) line))
    have hline : readLine pf { s with region := some .comment } line = some { s with region := some .comment } := by
      simp only [readLine, readInside, if_true, if_neg hmiddle, ite_self]
    rw [closing, List.foldlM_cons, hline]
    refine foldlM_closing htrail hregion (fun b hb => hbody b (List.mem_cons_of_mem line hb)) fun l hl => hlast l ?_
    rw [List.getLast?_cons_cons]
    exact hl

theorem foldlM_skipped {c : Chunk} (hwf : c.WellFormed) (h : c.Skipped) (hregion : s.region = none) :
    c.lines.foldlM (readLine pf) s = some s := by
  have hone : ∀ {line : Text}, readOutside pf (trim line) s = some s → [line].foldlM (readLine pf) s = some s := fun hline => by
    rw [List.foldlM_cons, readLine_outside hregion, hline]
    rfl
  cases c with
  | code l =>
    have hnone : l.tokens = [] := h
    have htrim : trim l.text = [] := by
      rw [trim_line (by simp [hnone]) hwf.2.1 (by simp [hnone]), hnone]
      rfl
    refine hone ?_
    rw [htrim]
    exact readOutside_other (by simp) (by decide)
  | lineComment indent t =>
    have hstart : "//".toList <+: trim (indent ++ "//".toList ++ t) := by
      rw [List.append_assoc]
      exact prefix_strip (isGap_le hwf) (by decide) (visible_le (by decide)) t
    refine hone ?_
    rw [readOutside, if_pos (.inl hstart)]
  | other line => exact hone (readOutside_other (trim_other hwf.1) hwf.2)
  | blockComment indent first rest trail =>
    obtain ⟨hindent, htrail, hbody⟩ := hwf
    have hstart : ∀ x, "/*".toList <+: trim (indent ++ "/*".toList ++ first ++ x) := fun x => by
      rw [List.append_assoc, List.append_assoc]
      exact prefix_strip (isGap_le hindent) (by decide) (visible_le (by decide)) (first ++ x)
    cases rest with
    | nil =>
      have hend : "*/".toList <:+ trim (indent ++ "/*".toList ++ first ++ ("*/".toList ++ trail)) :=
        suffix_strip (isGap_le htrail) (by decide) (visible_le (by decide)) _
      refine hone ?_
      rw [List.append_assoc _ _ trail, readOutside, if_pos (.inr (.inr ⟨hstart _, hend⟩))]
    | cons next rest =>
      obtain ⟨hopen, hlast⟩ := h.resolve_left (by simp)
      have hfirst := hstart []
      rw [List.append_nil] at hfirst
      have hline : readLine pf s (indent ++ "/*".toList ++ first) = some { s with region := some .comment } := by
        obtain ⟨x, hx⟩ := hfirst
        have hcomment : ¬ ("//".toList <+: trim (indent ++ "/*".toList ++ first) ∨
            "#".toList <+: trim (indent ++ "/*".toList ++ first) ∨
            ("/*".toList <+: trim (indent ++ "/*".toList ++ first) ∧ "*/".toList <:+ trim (indent ++ "/*".toList ++ first))) := by
          rintro (h | h | h)
          · rw [← hx] at h
            exact prefix_cons_ne (by decide) (List.cons_prefix_cons.mp h).2
          · rw [← hx] at h
            exact prefix_cons_ne (by decide) h
          · exact hopen h.2
        rw [readLine_outside hregion, readOutside, if_neg hcomment, if_pos ⟨x, hx⟩]
      rw [Chunk.lines, closing, List.foldlM_cons, hline]
      exact foldlM_closing htrail hregion (fun b hb => hbody b (List.mem_cons_of_mem first hb)) hlast

end

/-! ## The whole file -/

section
variable {φ : Type} [JavaFloat φ] {pf : Platform φ}

theorem foldl_apply_region (is : List Item) (s : State φ) :
    (is.foldl (fun s i => i.apply pf s) s).region = s.region := by
  induction is generalizing s with
  | nil => rfl
  | cons i is ih => rw [List.foldl_cons, ih, apply_region]

/-- A line with nothing but `static` on it. -/
theorem readLine_static {s : State φ} (hregion : s.region = none) {l : CodeLine} (hl : (Chunk.code l).WellFormed)
    (htokens : l.tokens.tokens = ["static".toList]) : readLine pf s l.text = some s := by
  have hvisible : ∀ p ∈ l.tokens, Visible p.2 := by
    intro p hp
    have hmem : p.2 ∈ l.tokens.tokens := List.mem_map_of_mem hp
    rw [htokens, List.mem_singleton] at hmem
    rw [hmem]
    decide
  have htrim : trim l.text = "static".toList := by
    rw [trim_line hl.1 hl.2.1 hvisible]
    cases hts : l.tokens with
    | nil => rw [hts] at htokens; cases htokens
    | cons p ts =>
      rw [hts, tokens_cons, List.cons_eq_cons] at htokens
      have hnil : ts = [] := List.map_eq_nil_iff.mp htokens.2
      rw [hnil, flush, text_cons, htokens.1]
      rfl
  rw [readLine_outside hregion, htrim]
  exact readOutside_other (by decide) (by decide)

/-- The items are loaded one after the other; what has been glued is left behind. -/
theorem foldlM_laid {file : List Chunk} {is : List Item} (h : Laid file is) :
    ∀ {s : State φ}, (∀ c ∈ file, c.WellFormed) → (∀ i ∈ is, i.WellFormed pf) → s.region = none → s.manager.Sound →
      ∃ str, (file.flatMap Chunk.lines).foldlM (readLine pf) s =
        some { is.foldl (fun s i => i.apply pf s) s with structureString := str } := by
  induction h with
  | nil => exact fun _ _ _ _ => ⟨_, rfl⟩
  | @skip cs is c hc _ ih =>
    intro s hwf his hregion hs
    obtain ⟨str, hrest⟩ := ih (fun d hd => hwf d (by simp [hd])) his hregion hs
    refine ⟨str, ?_⟩
    rw [List.flatMap_cons, List.foldlM_append, foldlM_skipped (hwf c (by simp)) hc hregion]
    exact hrest
  | @static cs is l f hf hl _ ih =>
    intro s hwf his hregion hs
    have hplain : ∀ i ∈ .function { f with isStatic := false } :: is, i.WellFormed pf := by
      intro i hi
      rcases List.mem_cons.mp hi with rfl | hi
      · have hwellFormed : f.WellFormed := his (.function f) (by simp)
        exact ⟨hwellFormed.returnType, hwellFormed.name, hwellFormed.params⟩
      · exact his i (by simp [hi])
    obtain ⟨str, hrest⟩ := ih (fun d hd => hwf d (by simp [hd])) hplain hregion hs
    refine ⟨str, ?_⟩
    rw [List.flatMap_cons, Chunk.lines, List.singleton_append, List.foldlM_cons,
      readLine_static hregion (hwf (.code l) (by simp)) hl]
    -- What is registered does not depend on `static`.
    exact hrest
  | @item cs is piece i hi _ ih =>
    intro s hwf his hregion hs
    have hiwf := his i (by simp)
    have hpiece : ∀ c ∈ piece, c.WellFormed := fun c hc => hwf c (by simp [hc])
    obtain ⟨str, hlaid, hload⟩ := foldlM_item (s := s) hiwf hpiece hi hregion
    have hitem := load_item (s := { s with structureString := str }) hiwf hlaid (glue_gaps hpiece) hs
    rw [hitem, apply_structureString] at hload
    obtain ⟨str', hrest⟩ := ih (s := { i.apply pf s with structureString := str }) (fun d hd => hwf d (by simp [hd]))
      (fun j hj => his j (by simp [hj])) ((apply_region i s).trans hregion) (apply_sound hs i)
    refine ⟨str', ?_⟩
    rw [List.flatMap_append, List.foldlM_append, hload]
    refine hrest.trans ?_
    rw [foldl_apply_structureString]
    rfl

/-- A declaration is registered with its own annotations, which are forgotten then. -/
theorem foldl_apply_items {d : Declaration} (s : State φ) (himplements : s.implementation = none)
    (hconstraints : s.currConstraints = (defaultCtr : MethodResourceDescription φ).copy) :
    d.items.foldl (fun s i => i.apply pf s) s = { s with manager := d.register pf s.manager } := by
  obtain ⟨region, structureString, currConstraints, implementation, m⟩ := s
  cases himplements
  cases hconstraints
  obtain ⟨constraints, implements, implementsFirst, f⟩ := d
  cases constraints <;> cases implements <;> cases implementsFirst <;> rfl

theorem Declaration.WellFormed.items {d : Declaration} (h : d.WellFormed pf) : ∀ i ∈ d.items, i.WellFormed pf := by
  have hconstraints : ∀ i ∈ (d.constraints.map Item.constraints).toList, i.WellFormed pf := by
    intro i hi
    obtain ⟨c, hc, rfl⟩ := Option.map_eq_some_iff.mp (Option.mem_toList.mp hi)
    exact h.constraints c hc
  have himplements : ∀ i ∈ (d.implements.map Item.implements).toList, i.WellFormed pf := by
    intro i hi
    obtain ⟨n, hn, rfl⟩ := Option.map_eq_some_iff.mp (Option.mem_toList.mp hi)
    exact h.implements n hn
  intro i hi
  rw [Declaration.items, Declaration.annotations, List.mem_append, List.mem_singleton] at hi
  rcases hi with hi | rfl
  · split at hi <;> rcases List.mem_append.mp hi with hi | hi
    · exact himplements i hi
    · exact hconstraints i hi
    · exact hconstraints i hi
    · exact himplements i hi
  · exact h.function

theorem foldl_apply_declarations (ds : List Declaration) (s : State φ) (himplements : s.implementation = none)
    (hconstraints : s.currConstraints = (defaultCtr : MethodResourceDescription φ).copy) :
    ((ds.flatMap Declaration.items).foldl (fun s i => i.apply pf s) s).manager =
      ds.foldl (fun m d => d.register pf m) s.manager := by
  induction ds generalizing s with
  | nil => rfl
  | cons d ds ih =>
    have hd : d.items.foldl (fun s i => i.apply pf s) s = { s with manager := d.register pf s.manager } :=
      foldl_apply_items s himplements hconstraints
    have hrest := ih { s with manager := d.register pf s.manager } himplements hconstraints
    rw [List.flatMap_cons, List.foldl_append, hd, hrest]
    rfl

variable {file : List Chunk} {ds : List Declaration} {m : CoreManager (MethodResourceDescription φ)}

end

/-! ## Two files -/

instance : ∀ (r : Rule) (g : Text), Decidable (r.Holds g)
  | .any, _ => inferInstanceAs (Decidable True)
  | .none, _ => inferInstanceAs (Decidable (_ = _))
  | .blank, _ => inferInstanceAs (Decidable (_ = _))
  | .leads, _ => inferInstanceAs (Decidable (_ = _))
  | .blanks, g => List.decidableBAll _ g
  | .flat, g => List.decidableBAll _ g

instance (ts : Spaced) (rs : List (Rule × Text)) : Decidable (Fits Rule.Holds ts rs) :=
  inferInstanceAs (Decidable (List.Forall₂ _ ts rs))

def codeLine (tokens : List (String × String)) : CodeLine := ⟨tokens.map fun p => (p.1.toList, p.2.toList), []⟩

/-- A task with one more implementation, on a GPU. -/
def scaled : Declaration where
  constraints := some ⟨[("ComputingUnits".toList, "2".toList)], some ([[("ProcessorType".toList, "GPU".toList)]], [])⟩
  implements := some ⟨none, "scale".toList⟩
  implementsFirst := false
  function := ⟨true, "void".toList, ⟨some "Matrix".toList, "scaleGPU".toList⟩,
    [⟨.input, "int".toList, "factor".toList⟩, ⟨.inout, "File".toList, "matrix".toList⟩]⟩

def scaledConstraints : CodeLine :=
  codeLine [("", "@Constraints"), ("", "("), ("", "ComputingUnits"), ("", "="), (" ", "2"), ("", ","), (" ", "processors"),
    ("", "="), ("", "\x7b"), ("", "@Processor"), ("", "("), ("", "ProcessorType"), ("", "="), ("", "GPU"), ("", ")"), ("", "\x7d"),
    ("", ")"), ("", ";")]

def scaledImplements : CodeLine :=
  codeLine [("\t", "@Implements"), ("", "("), ("", "scale"), ("", ")"), ("", ";")]

def scaledFirst : CodeLine :=
  codeLine [("\t", "static"), (" ", "void"), (" ", "Matrix::scaleGPU"), (" ", "("), ("", "in"), (" ", "int"), (" ", "factor"),
    ("", ",")]

def scaledLast : CodeLine := codeLine [("\t\t", "inout"), ("\t", "File"), (" ", "matrix"), (" ", ")"), ("", ";")]

def scaledFile : List Chunk :=
  [.other "interface Matrices \x7b".toList, .blockComment [] " Scales a".toList [" matrix.".toList] [], .code scaledConstraints,
    .code scaledImplements, .code scaledFirst, .lineComment [' '] " the result".toList, .code scaledLast, .other "\x7d;".toList]

theorem scaledFile_renders : Renders scaledFile [scaled] := by
  refine ⟨by decide, fun c hc => ?_⟩
  simp only [scaledFile, List.mem_cons, List.not_mem_nil, or_false] at hc
  rcases hc with rfl | rfl | rfl | rfl | rfl | rfl | rfl | rfl
  · exact ⟨by decide, by decide⟩
  · exact ⟨by decide, by decide, by decide⟩
  · exact ⟨by decide, by decide, by decide⟩
  · exact ⟨by decide, by decide, by decide⟩
  · exact ⟨by decide, by decide, by decide⟩
  · exact (by decide : IsGap [' '])
  · exact ⟨by decide, by decide, by decide⟩
  · exact ⟨by decide, by decide⟩

theorem scaled_wellFormed : scaled.WellFormed MethodResourceDescription.plainPlatform where
  constraints := by
    rintro _ ⟨⟩
    refine ⟨⟨fun p hp => ?_, fun ps hps => ?_⟩, by decide⟩
    · rw [List.mem_singleton.mp hp]
      decide
    · rw [List.mem_singleton.mp hps]
      decide
  implements := by
    rintro _ ⟨⟩
    exact ⟨fun _ h => (by cases h), by decide⟩
  function := by
    refine ⟨by decide, ⟨?_, by decide⟩, fun p hp => ?_⟩
    · rintro _ ⟨⟩
      decide
    · rcases List.mem_pair.mp hp with rfl | rfl <;> decide

theorem scaledFile_laid : Laid scaledFile ([scaled].flatMap Declaration.items) := by
  have hconstraints : Item.Laid (.constraints ⟨[("ComputingUnits".toList, "2".toList)],
      some ([[("ProcessorType".toList, "GPU".toList)]], [])⟩) [.code scaledConstraints] :=
    .one _ ⟨by decide, by decide, by decide, by decide⟩
  have himplements : Item.Laid (.implements ⟨none, "scale".toList⟩) [.code scaledImplements] :=
    .one _ ⟨by decide, by decide, trivial⟩
  have hfunction : Item.Laid (.function scaled.function)
      (.code scaledFirst :: ([.lineComment [' '] " the result".toList] ++ [.code scaledLast])) :=
    .more _ _ _ (by decide) (by simp [Chunk.Inner]) (by decide) (by decide : ¬ _ <+: _) ⟨by decide, by decide, by decide, by decide⟩
  have hcomment : Chunk.Skipped (.blockComment [] " Scales a".toList [" matrix.".toList] []) := .inr ⟨by decide, by decide⟩
  exact .skip _ trivial (.skip _ hcomment
    (.item _ _ hconstraints (.item _ _ himplements (.item _ _ hfunction (.skip _ trivial .nil)))))

def broken : Declaration := ⟨none, none, false, ⟨false, "void".toList, ⟨none, "f".toList⟩, [⟨.input, "int".toList, "a".toList⟩]⟩⟩

def brokenFile : List Chunk :=
  [.code (codeLine [("", "void"), (" ", "f"), ("", "("), ("", "in")]), .code (codeLine [("", "int"), (" ", "a"), ("", ")"), ("", ";")])]

end IDLParser

end Compss.Runtime
