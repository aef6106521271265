/-
The constraints of an annotation, loaded from a text that is laid out as expected:
the list of the processors cut out first, what is left stripped of its blanks and
split at the commas.
-/
import Compss.Runtime.InterfaceItems

namespace Compss.Runtime

open Lib Lib.Text Lib.Spaced Compss.Resources

namespace IDLParser

/-! ## Keys and values -/

def keyValue (p : Text × Text) : Text := p.1 ++ '=' :: p.2

theorem isValueChar_iff {c : Char} :
    isValueChar c = true ↔ ' ' < c ∧ isSep c = false ∧ isLineTerminator c = false ∧ c ≠ '@' := by
  simp [isValueChar, and_assoc]

theorem trim_visible {w : Text} (h : ∀ c ∈ w, ' ' < c) : trim w = w := by
  cases w with
  | nil => rfl
  | cons c w =>
    have hstrip : trim (text [([], c :: w)] ++ []) = text (flush [([], c :: w)]) :=
      strip_text (by simp) (by simp) (by simpa using h)
    simpa [flush] using hstrip

section
variable {p : Text × Text} {ps : List (Text × Text)}

theorem trim_value {w : Text} (h : IsValue w) : trim w = w :=
  trim_visible fun c hc => (isValueChar_iff.mp (by simpa using h.2 c hc)).1

theorem keyAndValue_keyValue (h : IsValue p.1 ∧ IsValue p.2) : keyAndValue '=' (keyValue p) = some p := by
  have hfields : fields '=' (keyValue p) = [p.1, p.2] := by
    have hne : [p.1, p.2] ≠ [] := by simp
    refine fields_join hne fun w hw => ?_
    simp only [List.mem_cons, List.not_mem_nil, or_false] at hw
    rcases hw with rfl | rfl
    · exact ⟨h.1.1, h.1.not_mem (by decide)⟩
    · exact ⟨h.2.1, h.2.not_mem (by decide)⟩
  rw [keyAndValue, hfields]
  simp only [trim_value h.1, trim_value h.2]

theorem keyValue_isWord (h : IsValue p.1 ∧ IsValue p.2) {c : Char} (hc : isValueChar c = false) (hne : c ≠ '=') :
    keyValue p ≠ [] ∧ c ∉ keyValue p := by
  refine ⟨by simp [keyValue], ?_⟩
  rw [keyValue, List.mem_append, List.mem_cons]
  rintro (hmem | rfl | hmem)
  · exact h.1.not_mem hc hmem
  · exact hne rfl
  · exact h.2.not_mem hc hmem

end

theorem join_keyValue (p : Text × Text) (ps : List (Text × Text)) :
    join ',' ((p :: ps).map keyValue) = keyValue p ++ ps.flatMap fun q => ',' :: keyValue q := by
  rw [List.map_cons, join_cons, List.flatMap_map]

/-! ## The constructor -/

section
variable {φ : Type} [JavaFloat φ] (pf : Platform φ) {c : Constraints}

omit [JavaFloat φ] in
theorem addItems_keyValue {ps : List (Text × Text)} (h : ∀ p ∈ ps, IsValue p.1 ∧ IsValue p.2)
    (s : Draft φ × MethodResourceDescription φ) :
    MethodResourceDescription.addItems pf '=' (ps.map keyValue) s = addPairs pf ps s := by
  induction ps generalizing s with
  | nil => rfl
  | cons p ps ih =>
    have hrest : ∀ s, (ps.map keyValue).foldlM (fun s item => (keyAndValue '=' item).bind fun kv =>
        MethodResourceDescription.addConstraints pf kv.1 kv.2 s) s = addPairs pf ps s := ih fun q hq => h q (by simp [hq])
    rw [List.map_cons, MethodResourceDescription.addItems, List.foldlM_cons, keyAndValue_keyValue (h p (by simp)), addPairs,
      List.foldlM_cons]
    exact congrArg (MethodResourceDescription.addConstraints pf p.1 p.2 s >>= ·) (funext hrest)

theorem addProcessorItems_keyValue {ps : List (Text × Text)} (h : ∀ p ∈ ps, IsValue p.1 ∧ IsValue p.2)
    (s : Draft φ × MethodResourceDescription φ) :
    MethodResourceDescription.addProcessorItems pf s (ps.map keyValue) = addListed pf s ps := by
  rw [MethodResourceDescription.addProcessorItems, addItems_keyValue pf h]
  rfl

theorem foldlM_addListed {listed : List (List (Text × Text))} (h : ∀ ps ∈ listed, ∀ p ∈ ps, IsValue p.1 ∧ IsValue p.2)
    (s : Draft φ × MethodResourceDescription φ) :
    (listed.map (List.map keyValue)).foldlM (MethodResourceDescription.addProcessorItems pf) s =
      listed.foldlM (addListed pf) s := by
  induction listed generalizing s with
  | nil => rfl
  | cons ps listed ih =>
    rw [List.map_cons, List.foldlM_cons, List.foldlM_cons, addProcessorItems_keyValue pf (h ps (by simp))]
    exact congrArg (addListed pf s ps >>= ·) (funext (ih fun qs hqs => h qs (by simp [hqs])))

theorem looseItems_join {ps : List (Text × Text)} (h : ∀ p ∈ ps, IsValue p.1 ∧ IsValue p.2) :
    MethodResourceDescription.looseItems (fields ',' (join ',' (ps.map keyValue))) = ps.map keyValue := by
  cases ps with
  | nil => rfl
  | cons p ps =>
    have hword : ∀ w ∈ (p :: ps).map keyValue, w ≠ [] ∧ ',' ∉ w := fun w hw => by
      obtain ⟨q, hq, rfl⟩ := List.mem_map.mp hw
      exact keyValue_isWord (h q hq) (by decide) (by decide)
    rw [fields_join (by simp) hword, MethodResourceDescription.looseItems, if_neg]
    intro hnil
    exact (hword (keyValue p) (by simp)).1 (List.cons.inj hnil).1

/-- From the texts that the constructor is given, to the keys and the values. -/
theorem ofArray_eq (hc : c.WellFormed) {proc : Text} (hnil : proc = [] ↔ c.listed = [])
    (hproc : c.listed ≠ [] → MethodResourceDescription.processorItems (some proc) = c.listed.map (List.map keyValue)) :
    MethodResourceDescription.ofArray pf (fields ',' (join ',' (c.loose.map keyValue))) (some proc) = c.description pf := by
  have hne : (some proc).getD [] ≠ [] ↔ c.listed ≠ [] := not_congr hnil
  unfold MethodResourceDescription.ofArray Constraints.description
  rw [looseItems_join hc.loose]
  by_cases hlisted : c.listed ≠ []
  · simp only [if_pos (hne.mpr hlisted), if_pos hlisted, hproc hlisted,
      foldlM_addListed pf fun ps hps => (hc.listed ps hps).2, addItems_keyValue pf hc.loose]
  · simp only [if_neg (mt hne.mp hlisted), if_neg hlisted, addItems_keyValue pf hc.loose]

end

/-! ## The list of the processors -/

/-- One blank after each comma. -/
def innerText : List (Text × Text) → Text
  | [] => []
  | p :: ps => keyValue p ++ ps.flatMap fun q => ',' :: ' ' :: keyValue q

theorem text_inner {ps : List (Text × Text)} {ts : Spaced}
    (h : Fits Rule.Holds ts (inCommas .none .none .blank (pairRules .none) ps)) : ts.text = innerText ps := by
  have hpair : ∀ (lead : Rule) {g : Text} {p : Text × Text} {us : Spaced}, (∀ g', lead.Holds g' → g' = g) →
      Fits Rule.Holds us (pairRules .none lead p) → us.text = g ++ keyValue p := by
    intro lead g p us hlead hus
    simp only [pairRules, fits_cons_iff, fits_nil_iff, Rule.Holds] at hus
    obtain ⟨_, _, rfl, hg, _, _, rfl, rfl, _, _, rfl, rfl, rfl⟩ := hus
    simp [hlead _ hg, keyValue]
  have hrest : ∀ {qs : List (Text × Text)} {us : Spaced},
      Fits Rule.Holds us (qs.flatMap fun q => (Rule.none, [',']) :: pairRules .none .blank q) →
        us.text = qs.flatMap fun q => ',' :: ' ' :: keyValue q := by
    intro qs
    induction qs with
    | nil =>
      intro us hus
      rw [fits_nil_iff.mp hus]
      rfl
    | cons q qs ih =>
      intro us hus
      rw [List.flatMap_cons, List.cons_append, fits_cons_iff] at hus
      obtain ⟨_, _, rfl, rfl, hus⟩ := hus
      obtain ⟨vs, ws, rfl, hvs, hws⟩ := fits_append_iff.mp hus
      have hblank : vs.text = [' '] ++ keyValue q := hpair .blank (fun g hg => hg) hvs
      rw [text_cons, text_append, ih hws, hblank, List.flatMap_cons]
      rfl
  cases ps with
  | nil =>
    rw [fits_nil_iff.mp h]
    rfl
  | cons p ps =>
    obtain ⟨us, vs, rfl, hus, hvs⟩ := fits_append_iff.mp h
    have hfirst : us.text = [] ++ keyValue p := hpair .none (fun g hg => hg) hus
    rw [text_append, hfirst, hrest hvs]
    rfl

/-- What stands between a `@` and the next: a processor, and what separates it. -/
def IsPiece (w : Text) (ps : List (Text × Text)) : Prop :=
  ∃ t, w = "Processor(".toList ++ (innerText ps ++ t) ∧ ∀ c ∈ t, c ∈ [' ', ',', ')']

theorem removeWord_eq (w : Text) : ∀ (n : Nat) (s : Text), removeWord w n s = replaceFrom w [] n s
  | _, [] => by simp [removeWord, replaceFrom]
  | n + 1, _ :: s => by
    rw [removeWord, replaceFrom]
    exact removeWord_eq w n s
  | 0, c :: s => by
    rw [removeWord, replaceFrom, removeWord_eq w (w.length - 1) s, removeWord_eq w 0 s]
    simp

theorem mem_innerText {c : Char} {ps : List (Text × Text)} (h : c ∈ innerText ps) :
    c = ',' ∨ c = ' ' ∨ ∃ p ∈ ps, c ∈ keyValue p := by
  cases ps with
  | nil => cases h
  | cons p ps =>
    rw [innerText, List.mem_append, List.mem_flatMap] at h
    rcases h with h | ⟨q, hq, h⟩
    · exact .inr (.inr ⟨p, by simp, h⟩)
    · simp only [List.mem_cons] at h
      rcases h with h | h | h
      · exact .inl h
      · exact .inr (.inl h)
      · exact .inr (.inr ⟨q, by simp [hq], h⟩)

section
variable {ps : List (Text × Text)} {w : Text}

theorem IsPiece.not_mem (hw : IsPiece w ps) (hps : ∀ p ∈ ps, IsValue p.1 ∧ IsValue p.2) {c : Char}
    (hc : isValueChar c = false) (hother : c ∉ [' ', ',', ')', '=']) (hword : c ∉ "Processor(".toList) : c ∉ w := by
  obtain ⟨t, rfl, ht⟩ := hw
  simp only [List.mem_cons, List.not_mem_nil, or_false, not_or] at hother
  intro hmem
  rcases List.mem_append.mp hmem with hmem | hmem
  · exact hword hmem
  · rcases List.mem_append.mp hmem with hmem | hmem
    · rcases mem_innerText hmem with h | h | ⟨p, hp, h⟩
      · exact hother.2.1 h
      · exact hother.1 h
      · exact (keyValue_isWord (hps p hp) hc hother.2.2.2).2 h
    · have h := ht c hmem
      simp [hother] at h

/-- The constraints of a processor, from between two `@`. -/
theorem IsPiece.items (hw : IsPiece w ps) (hne : ps ≠ []) (hps : ∀ p ∈ ps, IsValue p.1 ∧ IsValue p.2) :
    fields ' ' ((removeWord "Processor(".toList 0 w).filter fun c => c ≠ ',' ∧ c ≠ '(' ∧ c ≠ ')') = ps.map keyValue := by
  obtain ⟨t, rfl, ht⟩ := hw
  have hopen : '(' ∉ innerText ps ++ t := by
    intro hmem
    rcases List.mem_append.mp hmem with hmem | hmem
    · rcases mem_innerText hmem with h | h | ⟨p, hp, h⟩
      · exact absurd h (by decide)
      · exact absurd h (by decide)
      · exact (keyValue_isWord (hps p hp) (by decide) (by decide)).2 h
    · exact absurd (ht '(' hmem) (by decide)
  have hremove : removeWord "Processor(".toList 0 ("Processor(".toList ++ (innerText ps ++ t)) = innerText ps ++ t := by
    have hother : ¬ "Processor(".toList <:+: innerText ps ++ t := fun h => hopen (h.subset (by decide))
    rw [removeWord_eq, replaceFrom_self (by decide), List.nil_append]
    exact replaceText_of_not_within hother
  have hkept : ∀ p ∈ ps, (keyValue p).filter (fun c => c ≠ ',' ∧ c ≠ '(' ∧ c ≠ ')') = keyValue p := fun p hp => by
    refine List.filter_eq_self.mpr fun c hc => ?_
    have hne : ∀ d, isValueChar d = false → d ≠ '=' → c ≠ d := by
      rintro d hd hdne rfl
      exact (keyValue_isWord (hps p hp) hd hdne).2 hc
    simp [hne ',' (by decide) (by decide), hne '(' (by decide) (by decide), hne ')' (by decide) (by decide)]
  have hinner : (innerText ps).filter (fun c => c ≠ ',' ∧ c ≠ '(' ∧ c ≠ ')') = join ' ' (ps.map keyValue) := by
    cases ps with
    | nil => exact absurd rfl hne
    | cons p ps =>
      rw [innerText, List.filter_append, hkept p (by simp), List.map_cons, join_cons, List.filter_flatMap, List.flatMap_map]
      refine congrArg (keyValue p ++ ·) (List.flatMap_congr fun q hq => ?_)
      rw [List.filter_cons_of_neg (by decide), List.filter_cons_of_pos (by decide), hkept q (by simp [hq])]
  have hblanks : ∃ n, t.filter (fun c => c ≠ ',' ∧ c ≠ '(' ∧ c ≠ ')') = List.replicate n ' ' := by
    refine ⟨_, List.eq_replicate_of_mem fun c hc => ?_⟩
    obtain ⟨hmem, hc⟩ := List.mem_filter.mp hc
    have hor := ht c hmem
    simp only [List.mem_cons, List.not_mem_nil, or_false] at hor
    simp only [decide_eq_true_eq] at hc
    rcases hor with h | h | h
    · exact h
    · exact absurd h hc.1
    · exact absurd h hc.2.2
  obtain ⟨n, hn⟩ := hblanks
  rw [hremove, List.filter_append, hinner, hn]
  refine fields_join_append n (by simpa using hne) fun w hw => ?_
  obtain ⟨p, hp, rfl⟩ := List.mem_map.mp hw
  exact keyValue_isWord (hps p hp) (by decide) (by decide)

end

theorem text_processor {ps : List (Text × Text)} {lead : Rule} {us : Spaced} (h : Fits Rule.Holds us (processorRules lead ps)) :
    ∃ g t, lead.Holds g ∧ us.text = g ++ '@' :: ("Processor(".toList ++ (innerText ps ++ t)) ∧ ∀ c ∈ t, c ∈ [' ', ',', ')'] := by
  rw [processorRules, fits_cons_iff] at h
  obtain ⟨g, _, rfl, hg, h⟩ := h
  rw [fits_cons_iff] at h
  obtain ⟨_, _, rfl, rfl, h⟩ := h
  obtain ⟨vs, ws, rfl, hvs, hws⟩ := fits_append_iff.mp h
  simp only [fits_cons_iff, fits_nil_iff, Rule.Holds] at hws
  obtain ⟨gb, _, rfl, hgb, rfl⟩ := hws
  refine ⟨g, gb ++ [')'], hg, ?_, fun c hc => ?_⟩
  · rw [text_cons, text_cons, text_append, text_inner hvs]
    simp
  · rcases List.mem_append.mp hc with hc | hc
    · simp [hgb c hc]
    · simp_all

/-- The text of the list after its first processors: a separator, then the pieces. -/
theorem exists_pieces {qs : List (List (Text × Text))} {us : Spaced} {g : Text} (hg : ∀ c ∈ g, c = ' ')
    (h : Fits Rule.Holds us (qs.flatMap fun q => (Rule.blanks, [',']) :: processorRules .blanks q)) :
    ∃ t ws, us.text ++ g = t ++ ws.flatMap ('@' :: ·) ∧ (∀ c ∈ t, c ∈ [' ', ',', ')']) ∧ List.Forall₂ IsPiece ws qs := by
  induction qs generalizing us with
  | nil =>
    rw [fits_nil_iff.mp h]
    exact ⟨g, [], by simp, fun c hc => by simp [hg c hc], .nil⟩
  | cons q qs ih =>
    rw [List.flatMap_cons, List.cons_append, fits_cons_iff] at h
    obtain ⟨g₁, _, rfl, hg₁, h⟩ := h
    obtain ⟨vs, ws, rfl, hvs, hws⟩ := fits_append_iff.mp h
    obtain ⟨g₂, t, hg₂, htext, ht⟩ := text_processor hvs
    obtain ⟨t', pieces, hrest, ht', hpieces⟩ := ih hws
    refine ⟨g₁ ++ ',' :: g₂, ("Processor(".toList ++ (innerText q ++ (t ++ t'))) :: pieces, ?_, fun c hc => ?_,
      .cons ⟨t ++ t', rfl, fun c hc => ?_⟩ hpieces⟩
    · rw [text_cons, text_append, htext]
      simp [← hrest]
    · simp only [List.mem_append, List.mem_cons] at hc
      rcases hc with hc | hc | hc
      · simp [hg₁ c hc]
      · simp [hc]
      · simp [hg₂ c hc]
    · rcases List.mem_append.mp hc with hc | hc
      · exact ht c hc
      · exact ht' c hc

/-- The text of the list is its pieces. -/
theorem exists_pieces_listed {q : List (Text × Text)} {qs : List (List (Text × Text))} {us : Spaced} {g : Text}
    (hg : ∀ c ∈ g, c = ' ') (h : Fits Rule.Holds us (inCommas .blanks .none .blanks processorRules (q :: qs))) :
    ∃ ws, us.text ++ g = ws.flatMap ('@' :: ·) ∧ List.Forall₂ IsPiece ws (q :: qs) := by
  obtain ⟨vs, ws, rfl, hvs, hws⟩ := fits_append_iff.mp h
  obtain ⟨g₂, t, hg₂, htext, ht⟩ := text_processor hvs
  obtain ⟨t', pieces, hrest, ht', hpieces⟩ := exists_pieces hg hws
  refine ⟨("Processor(".toList ++ (innerText q ++ (t ++ t'))) :: pieces, ?_, .cons ⟨t ++ t', rfl, fun c hc => ?_⟩ hpieces⟩
  · have hnone : g₂ = [] := hg₂
    rw [text_append, htext, hnone]
    simp [hrest]
  · rcases List.mem_append.mp hc with hc | hc
    · exact ht c hc
    · exact ht' c hc

theorem words_flatMap_cons {d : Char} {ws : List Text} (h : ∀ w ∈ ws, IsWord (· = d) w) :
    words (· = d) (ws.flatMap (d :: ·)) = ws := by
  induction ws with
  | nil => exact words_nil
  | cons w ws ih =>
    have hhead : ∀ c ∈ (ws.flatMap (d :: ·)).head?, decide (c = d) = true := by
      intro c hc
      cases ws with
      | nil => cases hc
      | cons v ws =>
        cases hc
        exact decide_eq_true rfl
    rw [List.flatMap_cons, List.cons_append, words_cons_sep (decide_eq_true rfl), words_append_word (h w (by simp)) hhead,
      ih fun v hv => h v (by simp [hv])]

theorem read_pieces {ws : List Text} {listed : List (List (Text × Text))} (hpieces : List.Forall₂ IsPiece ws listed)
    (hlisted : ∀ ps ∈ listed, ps ≠ [] ∧ ∀ p ∈ ps, IsValue p.1 ∧ IsValue p.2) :
    (∀ w ∈ ws, IsWord (· = '@') w) ∧
      ws.map (fun w => fields ' ' ((removeWord "Processor(".toList 0 w).filter fun c => c ≠ ',' ∧ c ≠ '(' ∧ c ≠ ')')) =
        listed.map (List.map keyValue) := by
  induction hpieces with
  | nil => exact ⟨by simp, rfl⟩
  | @cons w ps ws listed hpiece _ ih =>
    obtain ⟨hwords, hitems⟩ := ih fun qs hqs => hlisted qs (List.mem_cons_of_mem ps hqs)
    obtain ⟨hne, hps⟩ := hlisted ps (by simp)
    have hat : '@' ∉ w := hpiece.not_mem hps (by decide) (by decide) (by decide)
    have hnonempty : w ≠ [] := by
      obtain ⟨t, rfl, -⟩ := hpiece
      simp
    refine ⟨fun v hv => ?_, ?_⟩
    · rcases List.mem_cons.mp hv with rfl | hv
      · exact ⟨hnonempty, fun c hc => decide_eq_false fun heq => hat (heq ▸ hc)⟩
      · exact hwords v hv
    · rw [List.map_cons, List.map_cons, hpiece.items hne hps, hitems]

theorem pieces_not_mem {ws : List Text} {listed : List (List (Text × Text))} (hpieces : List.Forall₂ IsPiece ws listed)
    (hlisted : ∀ ps ∈ listed, ∀ p ∈ ps, IsValue p.1 ∧ IsValue p.2) {c : Char} (hc : isValueChar c = false)
    (hother : c ∉ [' ', ',', ')', '=']) (hword : c ∉ "Processor(".toList) (hat : c ≠ '@') : c ∉ ws.flatMap ('@' :: ·) := by
  induction hpieces with
  | nil => simp
  | @cons w ps ws listed hpiece _ ih =>
    rw [List.flatMap_cons, List.cons_append, List.mem_cons, List.mem_append]
    rintro (h | h | h)
    · exact hat h
    · exact hpiece.not_mem (hlisted ps (by simp)) hc hother hword h
    · exact ih (fun qs hqs => hlisted qs (by simp [hqs])) h

/-- The constructor reads the constraints of each processor. -/
theorem processorItems_listed {listed : List (List (Text × Text))} {us : Spaced} {g : Text} (hne : listed ≠ [])
    (hlisted : ∀ ps ∈ listed, ps ≠ [] ∧ ∀ p ∈ ps, IsValue p.1 ∧ IsValue p.2) (hg : ∀ c ∈ g, c = ' ')
    (h : Fits Rule.Holds us (inCommas .blanks .none .blanks processorRules listed)) :
    MethodResourceDescription.processorItems (some (us.text ++ g)) = listed.map (List.map keyValue) := by
  obtain ⟨q, qs, rfl⟩ := List.exists_cons_of_ne_nil hne
  obtain ⟨ws, htext, hpieces⟩ := exists_pieces_listed hg h
  obtain ⟨hwords, hitems⟩ := read_pieces hpieces hlisted
  rw [MethodResourceDescription.processorItems, Option.getD_some, htext, words_flatMap_cons hwords]
  exact hitems

/-! ## What stands around the list -/

def processorsKey : Text := "processors=".toList

/-- The parentheses, the blanks and the end taken out. -/
def stripped (s : Text) : Text := s.filter fun c => c ∉ ['(', ')', ' ', ';', '\n', '\t']

theorem stripped_append (s t : Text) : stripped (s ++ t) = stripped s ++ stripped t := List.filter_append ..

theorem stripped_gap {g : Text} (h : ∀ c ∈ g, c = ' ' ∨ c = '\t') : stripped g = [] := by
  refine List.filter_eq_nil_iff.mpr fun c hc => ?_
  rcases h c hc with rfl | rfl <;> decide

theorem stripped_value {w : Text} (h : IsValue w) : stripped w = w := by
  refine List.filter_eq_self.mpr fun c hc => ?_
  have hvalue : isValueChar c = true := by simpa using h.2 c hc
  refine decide_eq_true fun hmem => ?_
  simp only [List.mem_cons, List.not_mem_nil, or_false] at hmem
  rcases hmem with rfl | rfl | rfl | rfl | rfl | rfl <;> exact absurd hvalue (by decide)

/-- A key is not one that ends in `processors`, or nothing like `processors=` is there. -/
theorem absent_word {kw w rest : Text} {d : Char} (hkw : ∀ c ∈ kw, isSep c = false) (hd : isSep d = true)
    (hw : ∀ c ∈ w, isSep c = false) (hrest : ∀ c ∈ rest.head?, isSep c = true)
    (h : kw <:+ w → rest.head? ≠ some d) : Absent (kw ++ [d]) rest w := by
  induction w with
  | nil => trivial
  | cons c w ih =>
    refine ⟨fun ⟨x, hx⟩ => ?_, ih (fun e he => hw e (by simp [he])) fun hs => h (hs.trans (List.suffix_cons c w))⟩
    rw [List.append_assoc, List.singleton_append, ← List.cons_append] at hx
    have hhead : ∀ e ∈ (d :: x).head?, isSep e = true := by
      intro e he
      cases he
      exact hd
    obtain ⟨hkw, hrest⟩ := word_unique hkw hw hhead hrest hx
    exact h (hkw ▸ List.suffix_refl _) (by rw [← hrest]; rfl)

theorem absent_seps {s rest : Text} (h : ∀ c ∈ s, isSep c = true) : Absent processorsKey rest s := by
  refine absent_of_not_mem (c := 'p') fun hmem => ?_
  exact absurd (h 'p' hmem) (by decide)

theorem isSep_of_blank {g : Text} (h : ∀ c ∈ g, c = ' ' ∨ c = '\t') (c : Char) (hc : c ∈ g) : isSep c = true := by
  rcases h c hc with rfl | rfl <;> decide

/-- What comes after a constraint: a separator, and no `=`. -/
def Ends (z : Text) : Prop := ∃ c s, z = c :: s ∧ isSep c = true ∧ c ≠ '='

theorem ends_append {g : Text} (hg : ∀ c ∈ g, c = ' ' ∨ c = '\t') {z : Text} (hz : Ends z) : Ends (g ++ z) := by
  cases g with
  | nil => exact hz
  | cons c g =>
    refine ⟨c, g ++ z, rfl, isSep_of_blank hg c (by simp), ?_⟩
    rcases hg c (by simp) with rfl | rfl <;> decide

/-- A constraint with blanks and tabs in it. -/
theorem text_pair {p : Text × Text} {lead : Rule} {us : Spaced} (h : Fits Rule.Holds us (pairRules .flat lead p)) :
    ∃ g g₁ g₂, lead.Holds g ∧ us.text = g ++ (p.1 ++ (g₁ ++ '=' :: (g₂ ++ p.2))) ∧
      (∀ c ∈ g₁, c = ' ' ∨ c = '\t') ∧ ∀ c ∈ g₂, c = ' ' ∨ c = '\t' := by
  simp only [pairRules, fits_cons_iff, fits_nil_iff] at h
  obtain ⟨g, _, rfl, hg, g₁, _, rfl, hg₁, g₂, _, rfl, hg₂, rfl⟩ := h
  exact ⟨g, g₁, g₂, hg, by simp, hg₁, hg₂⟩

section
variable {p : Text × Text} {us : Spaced}

theorem stripped_pair (hp : IsValue p.1 ∧ IsValue p.2) (h : Fits Rule.Holds us (pairRules .flat .flat p)) :
    stripped us.text = keyValue p := by
  obtain ⟨g, g₁, g₂, hg, htext, hg₁, hg₂⟩ := text_pair h
  have hequals : stripped ['='] = ['='] := by simp [stripped]
  rw [htext, ← List.singleton_append (x := '='), stripped_append, stripped_append, stripped_append, stripped_append,
    stripped_append, stripped_gap hg, stripped_gap hg₁, stripped_gap hg₂, stripped_value hp.1, stripped_value hp.2, hequals]
  rfl

theorem brace_not_mem_pair (hp : IsValue p.1 ∧ IsValue p.2) (h : Fits Rule.Holds us (pairRules .flat .flat p)) {c : Char}
    (hc : isValueChar c = false) (hne : c ∉ ['=', ' ', '\t']) : c ∉ us.text := by
  obtain ⟨g, g₁, g₂, hg, htext, hg₁, hg₂⟩ := text_pair h
  simp only [List.mem_cons, List.not_mem_nil, or_false, not_or] at hne
  have hgap : ∀ {g : Text}, (∀ d ∈ g, d = ' ' ∨ d = '\t') → c ∉ g := fun hg hmem => by
    rcases hg c hmem with h | h
    · exact hne.2.1 h
    · exact hne.2.2 h
  rw [htext]
  simp [hgap hg, hgap hg₁, hgap hg₂, hp.1.not_mem hc, hp.2.not_mem hc, hne.1]

theorem absent_pair (hp : IsValue p.1 ∧ IsValue p.2) (hkey : ¬ processorIDL <:+ p.1)
    (h : Fits Rule.Holds us (pairRules .flat .flat p)) {rest : Text} (hrest : Ends rest) :
    Absent processorsKey rest us.text := by
  obtain ⟨g, g₁, g₂, hg, htext, hg₁, hg₂⟩ := text_pair h
  have hvalue : ∀ {w : Text}, IsValue w → ∀ c ∈ w, isSep c = false := fun hw c hc =>
    (isValueChar_iff.mp (by simpa using hw.2 c hc)).2.1
  have hend : ∀ c ∈ rest.head?, isSep c = true ∧ c ≠ '=' := by
    obtain ⟨d, s, rfl, hd, hne⟩ := hrest
    intro c hc
    cases hc
    exact ⟨hd, hne⟩
  have hkw : ∀ c ∈ processorIDL, isSep c = false := hvalue (by decide)
  have hkeyword : processorsKey = processorIDL ++ ['='] := by decide
  -- The key has an `=` after it, the value has none.
  have hequals : ∀ c ∈ (g₁ ++ '=' :: (g₂ ++ p.2) ++ rest).head?, isSep c = true := by
    intro c hc
    cases hg : g₁ with
    | nil =>
      rw [hg] at hc
      cases hc
      decide
    | cons d g =>
      rw [hg] at hc
      cases hc
      exact isSep_of_blank hg₁ c (by simp [hg])
  have hlast : Absent processorsKey rest p.2 := by
    rw [hkeyword]
    exact absent_word hkw (by decide) (hvalue hp.2) (fun c hc => (hend c hc).1) fun _ hc => (hend '=' hc).2 rfl
  have hfirst : Absent processorsKey (g₁ ++ '=' :: (g₂ ++ p.2) ++ rest) p.1 := by
    rw [hkeyword]
    exact absent_word hkw (by decide) (hvalue hp.1) hequals fun hs => absurd hs hkey
  have hmiddle : Absent processorsKey rest (g₁ ++ '=' :: (g₂ ++ p.2)) := by
    refine absent_append (absent_seps (isSep_of_blank hg₁)) ?_
    rw [← List.singleton_append]
    refine absent_append (absent_seps (by simp [isSep])) (absent_append (absent_seps (isSep_of_blank hg₂)) hlast)
  rw [htext]
  exact absent_append (absent_seps (isSep_of_blank hg)) (absent_append hfirst hmiddle)

end

/-- The constraints after the list, or after the first, and the end. -/
def tailRules (ps : List (Text × Text)) : List (Rule × Text) :=
  (ps.flatMap fun p => (Rule.flat, [',']) :: pairRules .flat .flat p) ++ [(.flat, [')']), (.none, [';'])]

theorem text_tail {ps : List (Text × Text)} (hps : ∀ p ∈ ps, IsValue p.1 ∧ IsValue p.2) {us : Spaced}
    (h : Fits Rule.Holds us (tailRules ps)) :
    stripped us.text = (ps.flatMap fun p => ',' :: keyValue p) ∧ '\x7b' ∉ us.text ∧ Ends us.text := by
  induction ps generalizing us with
  | nil =>
    simp only [tailRules, List.flatMap_nil, List.nil_append, fits_cons_iff, fits_nil_iff, Rule.Holds] at h
    obtain ⟨g, _, rfl, hg, _, _, rfl, rfl, rfl⟩ := h
    have htext : text [(g, [')']), ([], [';'])] = g ++ [')', ';'] := by simp
    have hbrace : '\x7b' ∉ g := fun hmem => absurd (hg _ hmem) (by decide)
    rw [htext, stripped_append, stripped_gap hg]
    exact ⟨by simp [stripped], by simp [hbrace], ends_append hg ⟨')', [';'], rfl, by decide, by decide⟩⟩
  | cons p ps ih =>
    rw [tailRules, List.flatMap_cons, List.append_assoc, List.cons_append, fits_cons_iff] at h
    obtain ⟨g, _, rfl, hg, h⟩ := h
    obtain ⟨vs, ws, rfl, hvs, hws⟩ := fits_append_iff.mp h
    obtain ⟨hstripped, hbrace, -⟩ := ih (fun q hq => hps q (by simp [hq])) hws
    have hp := hps p (by simp)
    have hgap : '\x7b' ∉ g := fun hmem => absurd (hg _ hmem) (by decide)
    have htext : text ((g, [',']) :: (vs ++ ws)) = g ++ (',' :: (vs.text ++ ws.text)) := by simp
    have hcomma : stripped [','] = [','] := by simp [stripped]
    rw [htext]
    refine ⟨?_, ?_, ends_append hg ⟨',', _, rfl, by decide, by decide⟩⟩
    · rw [stripped_append, stripped_gap hg, ← List.singleton_append (x := ','), stripped_append, stripped_append, hcomma,
        stripped_pair hp hvs, hstripped, List.flatMap_cons]
      rfl
    · simp [hgap, hbrace, brace_not_mem_pair hp hvs (by decide : isValueChar '\x7b' = false) (by decide)]

theorem absent_tail {ps : List (Text × Text)} (hps : ∀ p ∈ ps, IsValue p.1 ∧ IsValue p.2)
    (hkeys : ∀ p ∈ ps, ¬ processorIDL <:+ p.1) {us : Spaced} (h : Fits Rule.Holds us (tailRules ps)) :
    Absent processorsKey [] us.text := by
  induction ps generalizing us with
  | nil =>
    simp only [tailRules, List.flatMap_nil, List.nil_append, fits_cons_iff, fits_nil_iff, Rule.Holds] at h
    obtain ⟨g, _, rfl, hg, _, _, rfl, rfl, rfl⟩ := h
    refine absent_seps fun c hc => ?_
    simp only [text_cons, text_nil, List.nil_append, List.append_nil, List.mem_append, List.mem_cons, List.not_mem_nil,
      or_false] at hc
    rcases hc with hc | rfl | rfl
    · exact isSep_of_blank hg c hc
    · decide
    · decide
  | cons p ps ih =>
    rw [tailRules, List.flatMap_cons, List.append_assoc, List.cons_append, fits_cons_iff] at h
    obtain ⟨g, _, rfl, hg, h⟩ := h
    obtain ⟨vs, ws, rfl, hvs, hws⟩ := fits_append_iff.mp h
    have hrest := (text_tail (fun q hq => hps q (by simp [hq])) hws).2.2
    have htail := ih (fun q hq => hps q (by simp [hq])) (fun q hq => hkeys q (by simp [hq])) hws
    have htext : text ((g, [',']) :: (vs ++ ws)) = g ++ ([','] ++ (vs.text ++ ws.text)) := by simp
    have hpair := absent_pair (hps p (by simp)) (hkeys p (by simp)) hvs hrest
    rw [htext]
    refine absent_append (absent_seps (isSep_of_blank hg)) (absent_append (absent_seps (by simp [isSep])) ?_)
    exact absent_append (by rwa [List.append_nil]) htail

/-- The list in the text: its key, and the braces around its pieces. -/
theorem text_listed {listed : List (List (Text × Text))} (hlisted : ∀ ps ∈ listed, ps ≠ [] ∧ ∀ p ∈ ps, IsValue p.1 ∧ IsValue p.2)
    {us : Spaced} (h : Fits Rule.Holds us (listedRules .flat listed)) :
    ∃ g g₁ body, (∀ c ∈ g, c = ' ' ∨ c = '\t') ∧ (∀ c ∈ g₁, c = ' ' ∨ c = '\t') ∧
      us.text = g ++ (processorsKey ++ (g₁ ++ '\x7b' :: (body ++ ['\x7d']))) ∧ ('\x7b' ∉ body ∧ '\x7d' ∉ body) ∧
      (body = [] ↔ listed = []) ∧
      (listed ≠ [] → MethodResourceDescription.processorItems (some body) = listed.map (List.map keyValue)) := by
  rw [listedRules, fits_cons_iff] at h
  obtain ⟨g, _, rfl, hg, h⟩ := h
  rw [fits_cons_iff] at h
  obtain ⟨_, _, rfl, rfl, h⟩ := h
  rw [fits_cons_iff] at h
  obtain ⟨g₁, _, rfl, hg₁, h⟩ := h
  obtain ⟨vs, ws, rfl, hvs, hws⟩ := fits_append_iff.mp h
  simp only [fits_cons_iff, fits_nil_iff] at hws
  obtain ⟨g₂, _, rfl, hg₂, rfl⟩ := hws
  have hkey : processorsKey = processorIDL ++ ['='] := by decide
  have htext : text ((g, processorIDL) :: ([], ['=']) :: (g₁, ['\x7b']) :: (vs ++ [(g₂, ['\x7d'])])) =
      g ++ (processorsKey ++ (g₁ ++ '\x7b' :: (vs.text ++ g₂ ++ ['\x7d']))) := by
    rw [hkey]
    simp only [text_cons, text_append, text_nil, List.append_assoc, List.append_nil, List.nil_append, List.cons_append]
  cases listed with
  | nil =>
    rw [if_pos rfl] at hg₂
    have hnone : vs.text ++ g₂ = [] := by
      rw [fits_nil_iff.mp hvs, show g₂ = [] from hg₂]
      rfl
    exact ⟨g, g₁, vs.text ++ g₂, hg, hg₁, htext, by rw [hnone]; simp, by simp [hnone], fun h => absurd rfl h⟩
  | cons q qs =>
    rw [if_neg (by simp)] at hg₂
    obtain ⟨ws, hws, hpieces⟩ := exists_pieces_listed hg₂ hvs
    have hvalues : ∀ ps ∈ q :: qs, ∀ p ∈ ps, IsValue p.1 ∧ IsValue p.2 := fun ps hps => (hlisted ps hps).2
    refine ⟨g, g₁, vs.text ++ g₂, hg, hg₁, htext, ⟨?_, ?_⟩, ?_, fun hne => processorItems_listed hne hlisted hg₂ hvs⟩
    · rw [hws]
      exact pieces_not_mem hpieces hvalues (by decide) (by decide) (by decide) (by decide)
    · rw [hws]
      exact pieces_not_mem hpieces hvalues (by decide) (by decide) (by decide) (by decide)
    · cases hpieces with
      | cons hpiece _ => simp [hws]

/-- The list is cut out, and its key; the first comma of the others goes with it. -/
theorem cut_list {a g₁ body z : Text} (ha : '\x7b' ∉ a ∧ '\x7d' ∉ a) (hg₁ : ∀ c ∈ g₁, c = ' ' ∨ c = '\t')
    (hbody : '\x7b' ∉ body ∧ '\x7d' ∉ body) (hz : '\x7b' ∉ z) (habsent : ∀ rest, Absent processorsKey rest a)
    (htail : Absent processorsKey [] z) {line : Text}
    (hline : line = a ++ (processorsKey ++ (g₁ ++ '\x7b' :: (body ++ '\x7d' :: z)))) :
    substring line (indexOf '\x7b' line) (indexOf '\x7d' line + 1) = some ('\x7b' :: (body ++ ['\x7d'])) ∧
      remove processorsKey (remove ('\x7b' :: (body ++ ['\x7d'])) line) = a ++ (g₁ ++ z) := by
  have hgap : '\x7b' ∉ g₁ ∧ '\x7d' ∉ g₁ :=
    ⟨fun h => absurd (hg₁ _ h) (by decide), fun h => absurd (hg₁ _ h) (by decide)⟩
  have hbefore : '\x7b' ∉ a ++ (processorsKey ++ g₁) ∧ '\x7d' ∉ a ++ (processorsKey ++ g₁) := by
    simp only [List.mem_append, not_or]
    exact ⟨⟨ha.1, by decide, hgap.1⟩, ha.2, by decide, hgap.2⟩
  have hsplit : line = (a ++ (processorsKey ++ g₁)) ++ ('\x7b' :: (body ++ ['\x7d']) ++ z) := by
    rw [hline]
    simp
  have hopen : indexOf '\x7b' line = (a ++ (processorsKey ++ g₁)).length := by
    rw [hsplit]
    exact indexOf_append_cons _ hbefore.1
  have hclose : indexOf '\x7d' line + 1 =
      ((a ++ (processorsKey ++ g₁)).length + ('\x7b' :: (body ++ ['\x7d'])).length : Nat) := by
    have hmem : '\x7d' ∉ (a ++ (processorsKey ++ g₁)) ++ '\x7b' :: body := by
      rw [List.mem_append, List.mem_cons, not_or, not_or]
      exact ⟨hbefore.2, by decide, hbody.2⟩
    have hindex := indexOf_append_cons z hmem
    have hline' : line = (a ++ (processorsKey ++ g₁)) ++ '\x7b' :: body ++ '\x7d' :: z := by
      rw [hsplit]
      simp
    rw [hline', hindex]
    simp only [List.length_append, List.length_cons, List.length_nil]
    omega
  constructor
  · rw [hopen, hclose, hsplit]
    exact substring_append _ _ _
  · have hproc : remove ('\x7b' :: (body ++ ['\x7d'])) line = a ++ (processorsKey ++ (g₁ ++ z)) := by
      have hother : Absent ('\x7b' :: (body ++ ['\x7d'])) [] z := absent_of_not_mem hz
      have hz' := replaceFrom_absent (v := []) hother
      rw [List.append_nil] at hz'
      rw [remove, if_neg (by simp), replaceText, hsplit, replaceFrom_absent (absent_of_not_mem hbefore.1),
        replaceFrom_self (by simp), hz']
      simp [replaceFrom]
    have hother : Absent processorsKey [] (g₁ ++ z) := absent_append (absent_seps (isSep_of_blank hg₁)) htail
    have hrest := replaceFrom_absent (v := []) hother
    rw [List.append_nil] at hrest
    rw [hproc, remove, if_neg (by decide), replaceText, replaceFrom_absent (habsent _), replaceFrom_self (by decide), hrest]
    simp [replaceFrom]

/-! ## The annotation -/

section
variable {φ : Type} [JavaFloat φ] (pf : Platform φ) {c : Constraints} {ts : Spaced}

theorem drop_annotation (s : Text) : ((constraintIDL ++ ['(']) ++ s).drop (constraintIDL.length + 1) = s := by
  have hlength : constraintIDL.length + 1 = (constraintIDL ++ ['(']).length := rfl
  rw [hlength, List.drop_left]

/-- Without a list there is nothing to cut out. -/
theorem loadCConstraints_loose {first : List (Text × Text)} (hc : Constraints.WellFormed ⟨first, none⟩)
    (hts : Fits Rule.Holds ts (Constraints.rules ⟨first, none⟩)) (hsound : ¬ processorIDL <:+: ts.text) :
    loadCConstraints pf ts.text = Constraints.description pf ⟨first, none⟩ := by
  have hps : ∀ p ∈ first, IsValue p.1 ∧ IsValue p.2 := fun p hp => hc.loose p (by simpa [Constraints.loose] using hp)
  rw [Constraints.rules, fits_cons_iff] at hts
  obtain ⟨_, _, rfl, rfl, hts⟩ := hts
  rw [fits_cons_iff] at hts
  obtain ⟨_, us, rfl, rfl, hts⟩ := hts
  have htext : text (([], constraintIDL) :: ([], ['(']) :: us) = (constraintIDL ++ ['(']) ++ text us := by simp
  have hcontains : contains processorIDL (text us) = false := by
    rw [contains, decide_eq_false_iff_not]
    refine fun h => hsound (h.trans ?_)
    rw [htext]
    exact (List.suffix_append ..).isInfix
  have hstripped : stripped (text us) = join ',' (first.map keyValue) := by
    cases first with
    | nil =>
      have hend : Fits Rule.Holds us (tailRules []) := hts
      rw [(text_tail (by simp) hend).1]
      rfl
    | cons p ps =>
      rw [Constraints.entries, List.map_cons, Option.elim_none, List.append_nil, inCommas, List.flatMap_map,
        List.append_assoc] at hts
      obtain ⟨vs, ws, rfl, hvs, hws⟩ := fits_append_iff.mp hts
      rw [text_append, stripped_append, stripped_pair (hps p (by simp)) hvs,
        (text_tail (fun q hq => hps q (by simp [hq])) hws).1, List.map_cons, join_cons, List.flatMap_map]
  have hloose : (Constraints.loose ⟨first, none⟩) = first := List.append_nil _
  have harray : MethodResourceDescription.ofArray pf
      (fields ',' (join ',' ((Constraints.loose ⟨first, none⟩).map keyValue))) (some []) = _ :=
    ofArray_eq pf hc (by simp [Constraints.listed]) fun h => absurd rfl h
  rw [hloose, ← hstripped] at harray
  rw [htext]
  simp only [loadCConstraints, drop_annotation, hcontains]
  exact harray

/-- With the list cut out, the others are left. -/
theorem loadCConstraints_cut (hc : c.WellFormed) {a g₁ body z line : Text} (ha : '\x7b' ∉ a ∧ '\x7d' ∉ a)
    (hg₁ : ∀ c ∈ g₁, c = ' ' ∨ c = '\t') (hbody : '\x7b' ∉ body ∧ '\x7d' ∉ body) (hz : '\x7b' ∉ z)
    (habsent : ∀ rest, Absent processorsKey rest a) (htail : Absent processorsKey [] z)
    (hline : line = a ++ (processorsKey ++ (g₁ ++ '\x7b' :: (body ++ '\x7d' :: z)))) (hdots : dots line = true)
    (hnil : body = [] ↔ c.listed = [])
    (hitems : c.listed ≠ [] → MethodResourceDescription.processorItems (some body) = c.listed.map (List.map keyValue))
    (hloose : (stripped (a ++ (g₁ ++ z))).erase ',' = join ',' (c.loose.map keyValue)) :
    loadCConstraints pf ((constraintIDL ++ ['(']) ++ line) = c.description pf := by
  obtain ⟨hsub, hremove⟩ := cut_list ha hg₁ hbody hz habsent htail hline
  have hkey : processorsKey = processorIDL ++ ['='] := by decide
  have hcontains : contains processorIDL line = true := by
    refine contains_of_append a ('=' :: (g₁ ++ '\x7b' :: (body ++ '\x7d' :: z))) ?_
    rw [hline, hkey]
    simp only [List.append_assoc, List.singleton_append]
  have hfilter : ('\x7b' :: (body ++ ['\x7d'])).filter (fun c => c ∉ ['\x7b', '\x7d']) = body := by
    rw [List.filter_cons_of_neg (by decide), List.filter_append, List.filter_eq_self.mpr fun c hc => ?_]
    · simp
    · have hne : c ≠ '\x7b' ∧ c ≠ '\x7d' := ⟨fun h => hbody.1 (h ▸ hc), fun h => hbody.2 (h ▸ hc)⟩
      simp [hne.1, hne.2]
  have harray := ofArray_eq pf hc hnil hitems
  rw [← hloose, stripped, List.erase_filter] at harray
  have hremove' : remove "processors=".toList (remove ('\x7b' :: (body ++ ['\x7d'])) line) = a ++ (g₁ ++ z) := hremove
  simp only [loadCConstraints, drop_annotation, hcontains, hdots, Bool.and_self, if_true, hsub, Option.bind_eq_bind,
    Option.bind_some]
  rw [hremove', hfilter]
  exact harray

/-- With at most one constraint before it, the list is cut out with one comma. -/
theorem loadCConstraints_listed {first after : List (Text × Text)} {listed : List (List (Text × Text))}
    (hc : Constraints.WellFormed ⟨first, some (listed, after)⟩)
    (hts : Fits Rule.Holds ts (Constraints.rules ⟨first, some (listed, after)⟩)) (hfirst : first.length ≤ 1)
    (hkeys : ∀ p ∈ first ++ after, ¬ processorIDL <:+ p.1) (hdots : dots ts.text = true) :
    loadCConstraints pf ts.text = Constraints.description pf ⟨first, some (listed, after)⟩ := by
  have hps : ∀ p ∈ first ++ after, IsValue p.1 ∧ IsValue p.2 := hc.loose
  rw [Constraints.rules, fits_cons_iff] at hts
  obtain ⟨_, _, rfl, rfl, hts⟩ := hts
  rw [fits_cons_iff] at hts
  obtain ⟨_, us, rfl, rfl, hts⟩ := hts
  have htext : text (([], constraintIDL) :: ([], ['(']) :: us) = (constraintIDL ++ ['(']) ++ text us := by simp
  rw [htext] at hdots ⊢
  have hdots' : dots (text us) = true := by
    rw [dots, List.all_append, Bool.and_eq_true] at hdots
    exact hdots.2
  have hlisted := hc.listed
  match first, hfirst with
  | [], _ =>
    have hsplit : Fits Rule.Holds us (listedRules .flat listed ++ tailRules after) := by
      rw [Constraints.entries, List.map_nil, List.nil_append, Option.elim_some, inCommas, List.flatMap_map,
        List.append_assoc] at hts
      exact hts
    obtain ⟨vs, ws, rfl, hvs, hws⟩ := fits_append_iff.mp hsplit
    obtain ⟨g, g₁, body, hg, hg₁, hvs, hbody, hnil, hitems⟩ := text_listed hlisted hvs
    obtain ⟨hstripped, hbrace, -⟩ := text_tail hps hws
    refine loadCConstraints_cut pf hc ⟨fun h => absurd (hg _ h) (by decide), fun h => absurd (hg _ h) (by decide)⟩ hg₁ hbody
      hbrace (fun _ => absent_seps (isSep_of_blank hg)) (absent_tail hps hkeys hws) ?_ hdots' hnil hitems ?_
    · rw [text_append, hvs]
      simp
    · have hloose : Constraints.loose ⟨[], some (listed, after)⟩ = after := rfl
      rw [stripped_append, stripped_append, stripped_gap hg, stripped_gap hg₁, hstripped, hloose]
      simp only [List.nil_append]
      cases after with
      | nil => rfl
      | cons q qs =>
        rw [List.flatMap_cons, List.cons_append, List.erase_cons_head]
        exact (join_keyValue q qs).symm
  | [p], _ =>
    have hsplit : Fits Rule.Holds us
        (pairRules .flat .flat p ++ ((Rule.flat, [',']) :: (listedRules .flat listed ++ tailRules after))) := by
      rw [Constraints.entries, List.map_singleton, List.singleton_append, Option.elim_some, inCommas, List.flatMap_cons,
        List.flatMap_map, List.append_assoc, List.append_assoc] at hts
      exact hts
    obtain ⟨vs, ws, rfl, hvs, hws⟩ := fits_append_iff.mp hsplit
    rw [fits_cons_iff] at hws
    obtain ⟨g₀, _, rfl, hg₀, hws⟩ := hws
    obtain ⟨ws, xs, rfl, hws, hxs⟩ := fits_append_iff.mp hws
    obtain ⟨g, g₁, body, hg, hg₁, hws, hbody, hnil, hitems⟩ := text_listed hlisted hws
    have hp : IsValue p.1 ∧ IsValue p.2 := hps p (by simp)
    obtain ⟨hstripped, hbrace, -⟩ := text_tail (fun q hq => hps q (by simp [hq])) hxs
    have htail := absent_tail (fun q hq => hps q (by simp [hq])) (fun q hq => hkeys q (by simp [hq])) hxs
    have hbefore : ∀ {c : Char}, isValueChar c = false → c ∉ ['=', ' ', '\t', ','] →
        c ∉ text vs ++ (g₀ ++ ([','] ++ g)) := by
      intro c hc hne
      simp only [List.mem_cons, List.not_mem_nil, or_false, not_or] at hne
      have hgap : ∀ {g : Text}, (∀ d ∈ g, d = ' ' ∨ d = '\t') → c ∉ g := fun hg hmem =>
        (hg c hmem).elim hne.2.1 hne.2.2.1
      have hpair := brace_not_mem_pair hp hvs hc (by simp [hne.1, hne.2.1, hne.2.2.1])
      simp [hpair, hgap hg₀, hgap hg, hne.2.2.2]
    refine loadCConstraints_cut pf hc ⟨hbefore (by decide) (by decide), hbefore (by decide) (by decide)⟩ hg₁ hbody hbrace
      (fun rest => ?_) htail ?_ hdots' hnil hitems ?_
    · refine absent_append (absent_pair hp (hkeys p (by simp)) hvs ?_)
        (absent_append (absent_seps (isSep_of_blank hg₀)) (absent_append (absent_seps (by simp [isSep])) (absent_seps (isSep_of_blank hg))))
      rw [List.append_assoc]
      exact ends_append hg₀ ⟨',', _, rfl, by decide, by decide⟩
    · rw [text_append, text_cons, text_append, hws]
      simp
    · have hcomma : stripped [','] = [','] := by simp [stripped]
      have hmem : ',' ∉ keyValue p := (keyValue_isWord hp (by decide) (by decide)).2
      rw [stripped_append, stripped_append, stripped_append, stripped_append, stripped_append, stripped_gap hg₀, stripped_gap hg,
        stripped_gap hg₁, stripped_pair hp hvs, hstripped, hcomma]
      simp only [List.nil_append, List.append_nil, List.append_assoc, List.singleton_append]
      rw [List.erase_append_right _ hmem, List.erase_cons_head]
      exact (join_keyValue p after).symm

/-- An annotation is loaded as the constraints it was written for. -/
theorem loadCConstraints_laid (hc : c.WellFormed) (hts : Fits Rule.Holds ts c.rules)
    (hsound : (Item.constraints c).Sound ts.text) (hdots : dots ts.text = true) :
    loadCConstraints pf ts.text = c.description pf := by
  match c, hc, hts, hsound with
  | ⟨first, none⟩, hc, hts, hsound => exact loadCConstraints_loose pf hc hts hsound
  | ⟨first, some (listed, after)⟩, hc, hts, hsound => exact loadCConstraints_listed pf hc hts hsound.1 hsound.2 hdots

end

end IDLParser

end Compss.Runtime
