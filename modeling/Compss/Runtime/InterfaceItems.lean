/-
Annotations and functions loaded from a text that is laid out as expected: each
gives what it was written for.
-/
import Compss.Runtime.InterfaceFile

namespace Compss.Runtime

open Lib Lib.Text Lib.Spaced Compss.Resources

namespace IDLParser

/-! ## Characters -/

theorem IsIdentifier.not_mem {w : Text} (h : IsIdentifier w) {d : Char} (hd : isWordChar d = false) : d ∉ w := fun hmem => by
  simpa [hd] using h.2 d hmem

theorem IsValue.not_mem {w : Text} (h : IsValue w) {d : Char} (hd : isValueChar d = false) : d ∉ w := fun hmem => by
  simpa [hd] using h.2 d hmem

theorem isWordChar_iff {c : Char} :
    isWordChar c = true ↔ ' ' < c ∧ isSep c = false ∧ isLineTerminator c = false ∧ c ∉ ['|', '@', '/', '#'] := by
  simp [isWordChar, and_assoc]

theorem isSep_of_isSpace {c : Char} (h : isSpace c = true) : isSep c = true := by
  simp [isSep, h]

theorem isSpace_of_isWordChar {c : Char} (h : isWordChar c = true) : isSpace c = false := by
  cases hc : isSpace c with
  | false => rfl
  | true =>
    have hsep := isSep_of_isSpace hc
    rw [(isWordChar_iff.mp h).2.1] at hsep
    cases hsep

theorem blanked_of_isWordChar {c : Char} (h : isWordChar c = true) : blanked c = c := by
  have hne : ∀ d, isWordChar d = false → c ≠ d := by
    rintro d hd rfl
    rw [h] at hd
    cases hd
  refine if_neg fun hmem => ?_
  simp only [List.mem_cons, List.not_mem_nil, or_false] at hmem
  rcases hmem with rfl | rfl | rfl | rfl | rfl | rfl | rfl <;> exact hne _ (by decide) rfl

namespace MethodName

variable {n : MethodName}

/-- The parts of a name, and the separator. -/
theorem WellFormed.mem_text (h : n.WellFormed) {c : Char} (hc : c ∈ n.text) : isWordChar c = true := by
  have hname : ∀ d ∈ n.name, isWordChar d = true := fun d hd => by simpa using h.name.1.2 d hd
  rw [text] at hc
  cases hclass : n.className with
  | none =>
    rw [hclass] at hc
    exact hname c hc
  | some cls =>
    rw [hclass, Option.elim_some, List.mem_append, List.mem_append] at hc
    rcases hc with (hc | hc) | hc
    · simpa using (h.className cls hclass).1.2 c hc
    · have hcolon : c = ':' := by simpa [classMethodSeparator] using hc
      rw [hcolon]
      decide
    · exact hname c hc

theorem WellFormed.isIdentifier (h : n.WellFormed) : IsIdentifier n.text := by
  refine ⟨fun hnil => ?_, fun c hc => by simp [h.mem_text hc]⟩
  rw [text] at hnil
  cases hclass : n.className with
  | none =>
    rw [hclass] at hnil
    exact h.name.1.1 hnil
  | some cls =>
    rw [hclass] at hnil
    exact h.name.1.1 (List.append_eq_nil_iff.mp hnil).2

end MethodName

/-! ## Implementations -/

theorem indexOfText_append {pat a : Text} {c : Char} (b : Text) (ha : c ∉ a) :
    indexOfText (c :: pat) (a ++ (c :: pat ++ b)) = some a.length := by
  induction a with
  | nil =>
    have hpre : c :: pat <+: c :: (pat ++ b) := List.prefix_append (c :: pat) b
    rw [List.nil_append, List.cons_append, indexOfText, if_pos hpre]
    rfl
  | cons d a ih =>
    rw [List.mem_cons, not_or] at ha
    have hpre : ¬ c :: pat <+: d :: (a ++ (c :: pat ++ b)) := fun h => ha.1 (List.cons_prefix_cons.mp h).1
    rw [List.cons_append, indexOfText, if_neg hpre, ih ha.2]
    rfl

theorem indexOfText_of_not_mem {pat a : Text} {c : Char} (ha : c ∉ a) : indexOfText (c :: pat) a = none := by
  induction a with
  | nil => rw [indexOfText, if_neg (by simp)]
  | cons d a ih =>
    rw [List.mem_cons, not_or] at ha
    have hpre : ¬ c :: pat <+: d :: a := fun h => ha.1 (List.cons_prefix_cons.mp h).1
    rw [indexOfText, if_neg hpre, ih ha.2]
    rfl

theorem loadCImplementation_text {n : MethodName} (h : n.WellFormed) : loadCImplementation n.text = some n.implementation := by
  have hat : ¬ implementsIDL <+: n.text := fun hp =>
    h.isIdentifier.not_mem (by decide : isWordChar '@' = false) (hp.subset (by decide))
  rw [loadCImplementation, if_neg hat, Option.bind_eq_bind, Option.bind_some, MethodName.implementation, MethodName.text]
  cases hclass : n.className with
  | none =>
    have hnone : indexOfText classMethodSeparator n.name = none := indexOfText_of_not_mem h.name.2
    simp [hnone]
  | some cls =>
    obtain ⟨hcls, hcolon⟩ := h.className cls hclass
    have hfound : indexOfText classMethodSeparator (cls ++ (classMethodSeparator ++ n.name)) = some cls.length :=
      indexOfText_append n.name hcolon
    obtain ⟨k, hk⟩ : ∃ k, cls.length = k + 1 := Nat.exists_eq_succ_of_ne_zero (by simpa using hcls.1)
    rw [hk] at hfound
    have htake : (cls ++ (classMethodSeparator ++ n.name)).take (k + 1) = cls := by rw [← hk, List.take_left]
    have hdrop : (cls ++ (classMethodSeparator ++ n.name)).drop (k + 1 + classMethodSeparator.length) = n.name := by
      rw [← hk, ← List.drop_drop, List.drop_left, List.drop_left]
    simp only [Option.elim_some, List.append_assoc, hfound, htake, hdrop, Option.getD_some]
    rfl

theorem loadCImplementation_annotation {n : MethodName} (h : n.WellFormed) {ts : Spaced} (hts : Fits Rule.Holds ts n.rules) :
    loadCImplementation ts.text = some n.implementation := by
  have htext : ts.text = (implementsIDL ++ ['(']) ++ (n.text ++ [')', ';']) := by
    simp only [MethodName.rules, fits_cons_iff, fits_nil_iff, Rule.Holds] at hts
    obtain ⟨_, _, rfl, rfl, _, _, rfl, rfl, _, _, rfl, rfl, _, _, rfl, rfl, _, _, rfl, rfl, rfl⟩ := hts
    simp
  have hopen : indexOf '(' ts.text = 11 := by
    rw [htext, List.append_assoc]
    exact indexOf_append_cons _ (by decide)
  have hclose : indexOf ')' ts.text = (12 + n.text.length : Nat) := by
    have hmem : ')' ∉ implementsIDL ++ ['('] ++ n.text := by
      rw [List.mem_append, not_or]
      exact ⟨by decide, h.isIdentifier.not_mem (by decide)⟩
    have hindex := indexOf_append_cons [';'] hmem
    rw [List.append_assoc, List.length_append] at hindex
    rw [htext]
    exact hindex
  have hsub : substring ts.text (indexOf '(' ts.text + 1) (indexOf ')' ts.text) = some n.text := by
    rw [hopen, hclose, htext]
    exact substring_append (implementsIDL ++ ['(']) n.text [')', ';']
  have hstart : implementsIDL <+: ts.text := by
    rw [htext, List.append_assoc]
    exact List.prefix_append ..
  have hload := loadCImplementation_text h
  have hat : ¬ implementsIDL <+: n.text := fun hp =>
    h.isIdentifier.not_mem (by decide : isWordChar '@' = false) (hp.subset (by decide))
  rw [loadCImplementation, if_neg hat] at hload
  rw [loadCImplementation, if_pos hstart, hsub]
  exact hload

/-! ## Functions -/

/-- The tokens of a function that stand between its words. -/
def IsPunctuation (t : Text) : Prop := t ∈ [['('], [')'], [','], [';']]

theorem mem_inCommas {α : Type} {comma next : Rule} {item : Rule → α → List (Rule × Text)} {r : Rule × Text} :
    ∀ {lead : Rule} {xs : List α}, r ∈ inCommas comma lead next item xs → r = (comma, [',']) ∨ ∃ x ∈ xs, ∃ l, r ∈ item l x
  | lead, x :: xs, h => by
    rw [inCommas, List.mem_append, List.mem_flatMap] at h
    rcases h with h | ⟨y, hy, h⟩
    · exact .inr ⟨x, by simp, lead, h⟩
    · rcases List.mem_cons.mp h with h | h
      · exact .inl h
      · exact .inr ⟨y, by simp [hy], next, h⟩

namespace Function

variable {f : Function}

def words (f : Function) : List Text :=
  f.returnType :: f.name.text :: f.params.flatMap fun p => [p.direction.text, p.type, p.name]

theorem isIdentifier_direction (d : Direction) : IsIdentifier d.text := by
  cases d <;> decide

theorem WellFormed.isToken (h : f.WellFormed) {lead : Rule} {r : Rule × Text} (hr : r ∈ f.rulesFrom lead) :
    IsIdentifier r.2 ∨ IsPunctuation r.2 := by
  simp only [rulesFrom, List.mem_cons, List.mem_append, List.not_mem_nil, or_false] at hr
  rcases hr with rfl | rfl | rfl | hr | rfl | rfl
  · exact .inl h.returnType.1
  · exact .inl h.name.isIdentifier
  · exact .inr (by simp [IsPunctuation])
  · rcases mem_inCommas hr with rfl | ⟨p, hp, l, hr⟩
    · exact .inr (by simp [IsPunctuation])
    · simp only [Param.rules, List.mem_cons, List.not_mem_nil, or_false] at hr
      rcases hr with rfl | rfl | rfl
      · exact .inl (isIdentifier_direction p.direction)
      · exact .inl (h.params p hp).1
      · exact .inl (h.params p hp).2
  · exact .inr (by simp [IsPunctuation])
  · exact .inr (by simp [IsPunctuation])

theorem blanked_identifier {w : Text} (h : IsIdentifier w) : w.map blanked = w ∧ IsWord isSpace w := by
  have hchar : ∀ c ∈ w, isWordChar c = true := fun c hc => by simpa using h.2 c hc
  have hmap : w.map blanked = w.map id := List.map_congr_left fun c hc => blanked_of_isWordChar (hchar c hc)
  exact ⟨hmap.trans (List.map_id w), h.1, fun c hc => isSpace_of_isWordChar (hchar c hc)⟩

theorem blanked_punctuation {t : Text} (h : IsPunctuation t) : t.map blanked = [' '] := by
  simp only [IsPunctuation, List.mem_cons, List.not_mem_nil, or_false] at h
  rcases h with rfl | rfl | rfl | rfl <;> decide

/-- The words that are left when the punctuation has been replaced by blanks. -/
def wordsOf (ts : List Text) : List Text := (ts.map (List.map blanked)).filter fun t => !t.all isSpace

theorem wordsOf_append (ts us : List Text) : wordsOf (ts ++ us) = wordsOf ts ++ wordsOf us := by
  simp [wordsOf]

theorem wordsOf_identifier {t : Text} (h : IsIdentifier t) (ts : List Text) : wordsOf (t :: ts) = t :: wordsOf ts := by
  obtain ⟨hmap, hword⟩ := blanked_identifier h
  rw [wordsOf, List.map_cons, hmap, List.filter_cons_of_pos (by rw [not_all_of_isWord hword]; rfl)]
  rfl

theorem wordsOf_punctuation {t : Text} (h : IsPunctuation t) (ts : List Text) : wordsOf (t :: ts) = wordsOf ts := by
  rw [wordsOf, List.map_cons, blanked_punctuation h, List.filter_cons_of_neg (by decide)]
  rfl

theorem wordsOf_params {ps : List Param} (h : ∀ p ∈ ps, IsIdentifier p.type ∧ IsIdentifier p.name) :
    wordsOf ((inCommas .any .any .any Param.rules ps).map Prod.snd) =
      ps.flatMap fun p => [p.direction.text, p.type, p.name] := by
  have hitem : ∀ p ∈ ps, ∀ us, wordsOf (p.direction.text :: p.type :: p.name :: us) =
      [p.direction.text, p.type, p.name] ++ wordsOf us := fun p hp us => by
    rw [wordsOf_identifier (isIdentifier_direction _), wordsOf_identifier (h p hp).1, wordsOf_identifier (h p hp).2]
    rfl
  have hrest : ∀ qs : List Param, (∀ q ∈ qs, q ∈ ps) →
      wordsOf ((qs.flatMap fun q => (Rule.any, [',']) :: Param.rules .any q).map Prod.snd) =
        qs.flatMap fun q => [q.direction.text, q.type, q.name] := by
    intro qs hqs
    induction qs with
    | nil => rfl
    | cons q qs ih =>
      rw [List.flatMap_cons, List.map_append, List.map_cons, List.cons_append,
        wordsOf_punctuation (by simp [IsPunctuation]), List.flatMap_cons,
        ← ih fun q' hq' => hqs q' (List.mem_cons_of_mem q hq')]
      exact hitem q (hqs q (by simp)) _
  cases ps with
  | nil => rfl
  | cons p ps =>
    rw [inCommas, List.map_append, List.flatMap_cons, ← hrest ps fun q hq => List.mem_cons_of_mem p hq]
    exact hitem p (by simp) _

theorem WellFormed.wordsOf_rules (h : f.WellFormed) (lead : Rule) :
    wordsOf ((f.rulesFrom lead).map Prod.snd) = f.words := by
  have hopen : IsPunctuation ['('] := by simp [IsPunctuation]
  have hclose : IsPunctuation [')'] := by simp [IsPunctuation]
  have hend : IsPunctuation [';'] := by simp [IsPunctuation]
  simp only [rulesFrom, List.map_cons, List.map_append, List.map_nil]
  rw [wordsOf_identifier h.returnType.1, wordsOf_identifier h.name.isIdentifier, wordsOf_punctuation hopen, wordsOf_append,
    wordsOf_params h.params, wordsOf_punctuation hclose, wordsOf_punctuation hend]
  exact congrArg (f.returnType :: f.name.text :: ·) (List.append_nil _)

theorem WellFormed.isToken_of_fits (h : f.WellFormed) {lead : Rule} {ts : Spaced}
    (hts : Fits Rule.Holds ts (f.rulesFrom lead)) (p : Text × Text) (hp : p ∈ ts) :
    IsIdentifier p.2 ∨ IsPunctuation p.2 := by
  have hmem : p.2 ∈ tokens ts := List.mem_map_of_mem hp
  rw [hts.tokens] at hmem
  obtain ⟨r, hr, hrp⟩ := List.mem_map.mp hmem
  rw [← hrp]
  exact h.isToken hr

/-- The words of the text are those of the function. -/
theorem WellFormed.words_text (h : f.WellFormed) {lead : Rule} {ts : Spaced} (hts : Fits Rule.Holds ts (f.rulesFrom lead))
    (hgaps : ∀ p ∈ ts, IsGap p.1) (hapart : ts.IsChain (Apart isSep)) :
    Text.words isSpace (ts.text.map blanked) = f.words := by
  have htoken := h.isToken_of_fits hts
  have hspaced : WellSpaced isSpace (mapChars blanked ts) := by
    refine wellSpaced_mapChars (fun p hp c hc => ?_) (fun p hp => ?_) (fun p hp hsep => ?_) hapart
    · have hgap := hgaps p hp c hc
      simp only [List.mem_cons, List.not_mem_nil, or_false] at hgap
      rcases hgap with rfl | rfl | rfl | rfl <;> decide
    · rcases htoken p hp with hw | hp
      · obtain ⟨hmap, hword⟩ := blanked_identifier hw
        rw [hmap]
        exact .inl hword
      · rw [blanked_punctuation hp]
        exact .inr ⟨by simp, by simp [isSpace]⟩
    · rcases htoken p hp with hw | hp
      · obtain ⟨c, hc⟩ := List.exists_mem_of_ne_nil _ hw.1
        have hword : isWordChar c = true := by simpa using hw.2 c hc
        have hall := List.all_eq_true.mp hsep c hc
        rw [(isWordChar_iff.mp hword).2.1] at hall
        cases hall
      · rw [blanked_punctuation hp]
        decide
  rw [← text_mapChars, Spaced.words_text hspaced, tokens_mapChars, hts.tokens, ← h.wordsOf_rules lead]
  rfl

theorem WellFormed.wellSpaced (h : f.WellFormed) {lead : Rule} {ts : Spaced} (hts : Fits Rule.Holds ts (f.rulesFrom lead))
    (hgaps : ∀ p ∈ ts, IsGap p.1) (hapart : ts.IsChain (Apart isSep)) : WellSpaced isSep ts where
  gaps p hp c hc := by
    have hgap := hgaps p hp c hc
    simp only [List.mem_cons, List.not_mem_nil, or_false] at hgap
    rcases hgap with rfl | rfl | rfl | rfl <;> decide
  isToken p hp := by
    rcases h.isToken_of_fits hts p hp with hw | hp
    · exact .inl ⟨hw.1, fun c hc => (isWordChar_iff.mp (by simpa using hw.2 c hc)).2.1⟩
    · simp only [IsPunctuation, List.mem_cons, List.not_mem_nil, or_false] at hp
      rcases hp with hp | hp | hp | hp <;> exact .inr (by rw [hp]; exact ⟨by simp, by simp [isSep]⟩)
  apart := hapart

/-- A text that begins with a keyword and a blank has the keyword as its first word. -/
theorem eq_of_keyword_starts {w kw : Text} {us : Spaced} (h : WellSpaced isSep (([], w) :: us)) (hw : IsIdentifier w)
    (hkw : IsIdentifier kw) (hpre : kw ++ [' '] <+: text (([], w) :: us)) : kw = w := by
  have hsep : ∀ {v : Text}, IsIdentifier v → ∀ c ∈ v, isSep c = false := fun hv c hc =>
    (isWordChar_iff.mp (by simpa using hv.2 c hc)).2.1
  obtain ⟨x, hx⟩ := hpre
  rw [List.append_assoc, text_cons, List.nil_append] at hx
  refine (word_unique (hsep hkw) (hsep hw) (fun c hc => ?_) (h.head_text ⟨hw.1, hsep hw⟩) hx).1
  cases hc
  decide

theorem parameterTypes_words {φ : Type} [JavaFloat φ] (pf : Platform φ) (ps : List Param) :
    parameterTypes pf (ps.flatMap fun p => [p.direction.text, p.type, p.name]) =
      some (ps.map fun p => parameterType pf p.direction.text p.type) := by
  induction ps with
  | nil => rfl
  | cons p ps ih =>
    rw [List.flatMap_cons, List.cons_append, List.cons_append, List.cons_append, List.nil_append, parameterTypes, ih]
    rfl

theorem deleteLastComma_append (s : Text) : deleteLastComma (s ++ [',']) = some s := by
  rw [deleteLastComma, if_pos (by simp), List.reverse_append, List.reverse_singleton, List.singleton_append,
    List.erase_cons_head, List.reverse_reverse]

theorem terminated_eq_join {c : Char} : ∀ {ws : List Text}, ws ≠ [] → terminated c ws = join c ws ++ [c]
  | [w], _ => by simp [terminated, join]
  | w :: v :: ws, _ => by
    rw [terminated_cons, terminated_eq_join (List.cons_ne_nil v ws), join_cons_cons, List.append_assoc, List.cons_append]

theorem signature_eq {i : CImplementation} {types : List Text} (h : types ≠ []) :
    IDLParser.signature i types = some (String.ofList (i.methodName ++ '(' :: (join ',' types ++ ')' :: i.className))) := by
  have hlast : i.methodName ++ '(' :: terminated ',' types = (i.methodName ++ '(' :: join ',' types) ++ [','] := by
    rw [terminated_eq_join h, List.append_assoc, List.cons_append]
  rw [IDLParser.signature, hlast, deleteLastComma_append, Option.map_some, List.append_assoc, List.cons_append]

end Function

/-! ## Registration -/

section
variable {ρ : Type} {m : CoreManager ρ}

theorem modify_congr {α : Type} {l : List α} {c : Nat} {f g : α → α} (h : ∀ a, l[c]? = some a → f a = g a) :
    l.modify c f = l.modify c g := by
  refine List.ext_getElem? fun d => ?_
  rw [List.getElem?_modify, List.getElem?_modify]
  by_cases hd : c = d
  · subst hd
    cases hc : l[c]? with
    | none => rfl
    | some a => simp [h a hc]
  · simp [hd]

theorem declare_sound (hm : m.Sound) (taskSignature signature : String) (args : List String) (requirements : ρ) :
    (m.declare taskSignature signature args requirements).Sound := by
  unfold CoreManager.declare
  cases hfound : m.signatureToCoreId taskSignature with
  | some c =>
    refine ⟨by simpa using hm.implementations, fun s d hd => ?_⟩
    simp only [Function.update_apply] at hd
    split at hd
    next =>
      cases hd
      exact hm.registered taskSignature c hfound
    next => exact hm.registered s d hd
  | none =>
    refine ⟨by simp [hm.implementations], fun s d hd => ?_⟩
    simp only [Function.update_apply] at hd
    split at hd
    next =>
      cases hd
      exact Nat.lt_succ_self _
    next =>
      split at hd
      next =>
        cases hd
        exact Nat.lt_succ_self _
      next => exact Nat.lt_succ_of_lt (hm.registered s d hd)

/-- The implementation goes to a core element that is there. -/
theorem registerNewImplementations_eq {c : Nat} {taskSignature signature : String} (args : List String) (requirements : ρ)
    (hm : m.Sound) (hc : m.signatureToCoreId taskSignature = some c) (hsignature : signature ≠ "") :
    (m.getNumberCoreImplementations c).2.registerNewImplementations c
        [⟨c, (m.getNumberCoreImplementations c).1, .method, args, requirements⟩] [signature] =
      m.declare taskSignature signature args requirements := by
  have hlt : c < m.implementations.length := by
    rw [hm.implementations]
    exact hm.registered taskSignature c hc
  have hregistered : m.isRegistered c = true := by
    simp [CoreManager.isRegistered, hm.registered taskSignature c hc]
  have himplementations : m.implementations.modify c
      (· ++ [⟨c, ((m.implementations[c]?.getD []).length : Int), .method, args, requirements⟩]) =
      m.implementations.modify c fun is => is ++ [⟨c, is.length, .method, args, requirements⟩] :=
    modify_congr fun is his => by rw [his, Option.getD_some]
  simp [CoreManager.getNumberCoreImplementations, CoreManager.registerNewImplementations, hregistered, CoreManager.declare, hc,
    Ne.symm hsignature, himplementations]

end

section
variable {ρ : Type} {m : CoreManager ρ} {taskSignature : String}

theorem registerNewCoreElement_eq (htask : taskSignature ≠ "") (hnone : m.signatureToCoreId taskSignature = none) :
    m.registerNewCoreElement taskSignature = (some m.coreCount, { m with
      coreCount := m.coreCount + 1
      implementations := m.implementations ++ [[]]
      signatures := m.signatures ++ [[taskSignature]]
      signatureToCoreId := Function.update m.signatureToCoreId taskSignature (some m.coreCount) }) := by
  simp [CoreManager.registerNewCoreElement, htask, hnone]

theorem registerNewCoreElement_sound (hm : m.Sound) (htask : taskSignature ≠ "")
    (hnone : m.signatureToCoreId taskSignature = none) : (m.registerNewCoreElement taskSignature).2.Sound := by
  rw [registerNewCoreElement_eq htask hnone]
  refine ⟨by simp [hm.implementations], fun s d hd => ?_⟩
  simp only [Function.update_apply] at hd
  split at hd
  next =>
    cases hd
    exact Nat.lt_succ_self _
  next => exact Nat.lt_succ_of_lt (hm.registered s d hd)

theorem declare_registered (htask : taskSignature ≠ "") (hnone : m.signatureToCoreId taskSignature = none)
    {signature : String} {args : List String} {requirements : ρ} :
    (m.registerNewCoreElement taskSignature).2.declare taskSignature signature args requirements =
      m.declare taskSignature signature args requirements := by
  rw [registerNewCoreElement_eq htask hnone]
  simp [CoreManager.declare, hnone]

end

section
variable {φ : Type} [JavaFloat φ] {m : CoreManager (MethodResourceDescription φ)}

theorem register_eq {taskSignature signature : String} (htask : taskSignature ≠ "") (hsignature : signature ≠ "")
    (hm : m.Sound) (task : CImplementation) (r : MethodResourceDescription φ) :
    register taskSignature signature task r m =
      some (m.declare taskSignature signature [String.ofList task.className, String.ofList task.methodName] r) := by
  cases hfound : m.signatureToCoreId taskSignature with
  | some c =>
    have hcore : m.registerNewCoreElement taskSignature = (none, m) := by
      simp [CoreManager.registerNewCoreElement, htask, hfound]
    have hget : m.getCoreId taskSignature = (some c, m) := by
      simp [CoreManager.getCoreId, htask, hfound]
    simp only [register, hcore, hget]
    exact congrArg some (registerNewImplementations_eq _ r hm hfound hsignature)
  | none =>
    -- The core element is registered first, and found from then on.
    have hcore := registerNewCoreElement_eq htask hfound
    have hsound := registerNewCoreElement_sound hm htask hfound
    have hnew : (m.registerNewCoreElement taskSignature).2.signatureToCoreId taskSignature = some m.coreCount := by
      rw [hcore]
      exact Function.update_self ..
    have hdeclare := (registerNewImplementations_eq [String.ofList task.className, String.ofList task.methodName] r hsound hnew
      hsignature).trans (declare_registered htask hfound)
    rw [hcore] at hdeclare
    simp only [register, hcore]
    exact congrArg some hdeclare

end

/-! ## The text of a function -/

namespace Function

variable {f : Function}

theorem isGap_nil : IsGap [] := fun c hc => by cases hc

/-- What is read on once `static` has been taken out. -/
theorem unstatic (hf : f.WellFormed) {ts : Spaced} (hts : Fits Rule.Holds ts f.rules) (hgaps : ∀ p ∈ ts, IsGap p.1)
    (hapart : ts.IsChain (Apart isSep)) (hsound : f.isStatic → ¬ "static ".toList <:+: ts.text.drop "static ".toList.length) :
    ∃ us : Spaced, (if "static ".toList <+: ts.text then remove "static ".toList ts.text else ts.text) = us.text ∧
      Fits Rule.Holds us (f.rulesFrom .none) ∧ (∀ p ∈ us, IsGap p.1) ∧ us.IsChain (Apart isSep) := by
  rw [rules] at hts
  cases hstatic : f.isStatic with
  | false =>
    rw [hstatic, if_neg (by simp)] at hts
    have hpre : ¬ "static ".toList <+: ts.text := by
      obtain ⟨g, us, rfl, hg, -⟩ := fits_cons_iff.mp hts
      intro hpre
      rw [hg] at hpre hapart hgaps hts
      exact hf.returnType.2 (eq_of_keyword_starts (hf.wellSpaced hts hgaps hapart) hf.returnType.1
        (by decide : IsIdentifier "static".toList) hpre).symm
    exact ⟨ts, if_neg hpre, hts, hgaps, hapart⟩
  | true =>
    rw [hstatic, if_pos rfl] at hts
    obtain ⟨_, vs, rfl, rfl, hvs⟩ := fits_cons_iff.mp hts
    obtain ⟨_, us, rfl, rfl, hrest⟩ := fits_cons_iff.mp hvs
    have htext : text (([], "static".toList) :: ([' '], f.returnType) :: us) =
        "static ".toList ++ text (([], f.returnType) :: us) := by
      simp
    have hother : ¬ "static ".toList <:+: text (([], f.returnType) :: us) := by
      have h := hsound hstatic
      rwa [htext, List.drop_left] at h
    refine ⟨([], f.returnType) :: us, ?_, fits_cons_iff.mpr ⟨[], us, rfl, rfl, hrest⟩, fun p hp => ?_, ?_⟩
    · rw [htext, if_pos (List.prefix_append ..), remove, if_neg (by decide), replaceText, replaceFrom_self (by decide),
        List.nil_append]
      exact replaceText_of_not_within hother
    · rcases List.mem_cons.mp hp with rfl | hp
      · exact isGap_nil
      · exact hgaps p (by simp [hp])
    · have himp : ∀ {z}, Apart isSep ([' '], f.returnType) z → Apart isSep ([], f.returnType) z := fun h => h
      exact hapart.tail.imp_head himp

theorem starts_void_iff (hf : f.WellFormed) {ts : Spaced} (hts : Fits Rule.Holds ts (f.rulesFrom .none))
    (hgaps : ∀ p ∈ ts, IsGap p.1) (hapart : ts.IsChain (Apart isSep)) :
    "void ".toList <+: ts.text ↔ f.returnType = "void".toList := by
  have hspaced := hf.wellSpaced hts hgaps hapart
  rw [rulesFrom] at hts
  obtain ⟨_, us, rfl, rfl, hrest⟩ := fits_cons_iff.mp hts
  constructor
  · intro hpre
    exact (eq_of_keyword_starts hspaced hf.returnType.1 (by decide : IsIdentifier "void".toList) hpre).symm
  · intro hvoid
    obtain ⟨g, vs, rfl, hg, -⟩ := fits_cons_iff.mp hrest
    rw [if_pos hvoid] at hg
    obtain ⟨g', hg'⟩ := List.head?_eq_some_iff.mp hg
    refine ⟨g' ++ (f.name.text ++ text vs), ?_⟩
    simp [hvoid, hg']

theorem splitSpaces_words (hf : f.WellFormed) {ts : Spaced} (hts : Fits Rule.Holds ts (f.rulesFrom .none))
    (hgaps : ∀ p ∈ ts, IsGap p.1) (hapart : ts.IsChain (Apart isSep)) : splitSpaces (ts.text.map blanked) = f.words := by
  have hwords := hf.words_text hts hgaps hapart
  rw [rulesFrom] at hts
  obtain ⟨_, us, rfl, rfl, hrest⟩ := fits_cons_iff.mp hts
  obtain ⟨c, w, hw⟩ := List.exists_cons_of_ne_nil hf.returnType.1.1
  have hhead : isSpace (blanked c) = false := by
    have hc : isWordChar c = true := by simpa using hf.returnType.1.2 c (by simp [hw])
    rw [blanked_of_isWordChar hc]
    exact isSpace_of_isWordChar hc
  have hfirst : ((text (([], f.returnType) :: us)).map blanked).head?.any isSpace = false := by
    simp [hw, hhead]
  rw [splitSpaces, hfirst, Bool.false_and, hwords]
  split
  next => rfl
  next hany =>
    -- Without a blank the text would be one word, and it has two.
    have hone : IsWord isSpace ((text (([], f.returnType) :: us)).map blanked) := by
      refine ⟨by simp [hw], fun d hd => ?_⟩
      cases hd' : isSpace d with
      | false => rfl
      | true => exact absurd (List.any_eq_true.mpr ⟨d, hd, hd'⟩) hany
    rw [words_of_isWord hone] at hwords
    simp [words] at hwords

end Function

section
variable {φ : Type} [JavaFloat φ] (pf : Platform φ) {f : Function}

theorem ofList_append_ne_empty (s : Text) (c : Char) (t : Text) : String.ofList (s ++ c :: t) ≠ "" := by
  intro h
  have hlist := congrArg String.toList h
  rw [String.toList_ofList] at hlist
  simp at hlist

/-- A function is registered for what it declares, with the annotations that are given. -/
theorem parseCFunction_laid (hf : f.WellFormed) {ts : Spaced} (hts : Fits Rule.Holds ts f.rules) (hgaps : ∀ p ∈ ts, IsGap p.1)
    (hapart : ts.IsChain (Apart isSep)) (hsound : (Item.function f).Sound ts.text) (r : MethodResourceDescription φ)
    (implements : Option CImplementation) {m : CoreManager (MethodResourceDescription φ)} (hm : m.Sound) :
    parseCFunction pf ts.text r implements m = some (f.register pf r implements m) := by
  obtain ⟨us, hline, hfits, hgaps', hapart'⟩ := Function.unstatic hf hts hgaps hapart hsound.2
  have hsplits := Function.splitSpaces_words hf hfits hgaps' hapart'
  have hvoid := Function.starts_void_iff hf hfits hgaps' hapart'
  have htypes : (if decide (¬ "void ".toList <+: us.text) = true then
      "FILE_T".toList :: f.params.map fun p => parameterType pf p.direction.text p.type
      else f.params.map fun p => parameterType pf p.direction.text p.type) = f.types pf := by
    by_cases h : f.returnType = "void".toList
    · rw [decide_eq_false (not_not.mpr (hvoid.mpr h)), Function.types, if_pos h]
      rfl
    · rw [decide_eq_true (mt hvoid.mp h), Function.types, if_neg h]
      rfl
  have hne : f.types pf ≠ [] := by
    rw [Function.types]
    by_cases h : f.returnType = "void".toList
    · rw [if_pos h, List.nil_append]
      exact fun hnil => hsound.1 h (List.map_eq_nil_iff.mp hnil)
    · rw [if_neg h]
      simp
  simp only [parseCFunction, hline, hsplits, Function.words, List.getElem?_cons_succ, List.getElem?_cons_zero,
    Option.bind_eq_bind, Option.bind_some, loadCImplementation_text hf.name, List.drop_succ_cons, List.drop_zero,
    Function.parameterTypes_words, htypes, Function.signature_eq hne]
  exact register_eq (ofList_append_ne_empty _ _ _) (ofList_append_ne_empty _ _ _) hm f.name.implementation r

end

end IDLParser

end Compss.Runtime
