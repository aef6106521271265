/-
`EnvironmentLoader`: the variables of an expression replaced by their values.

The loop looks for the next `$` in a text it changes as it goes, and replaces
the text of a reference wherever it stands. `BEGIN_ENV_VAR` is a closing brace,
which no `$` is: a name ends at the next `/` or at the end, with braces or
without. The value that has been put in is searched again.
-/
import Compss.Lib.JavaText
import Compss.Lib.While

namespace Compss.Runtime

open Lib Lib.Text

namespace EnvironmentLoader

def prefixEnvVar : Char := '$'
def beginEnvVar : Text := ['}']
def endEnvVar : Char := '}'

/-- `indexOf` from a place on; -1 when the character is not there. -/
def indexOfFrom (c : Char) (s : Text) (fromIndex : Nat) : Int :=
  if c ∈ s.drop fromIndex then fromIndex + (s.drop fromIndex).idxOf c else -1

def findNextValidToken (expressionValue : Text) (beginIndex : Nat) : Int :=
  indexOfFrom prefixEnvVar expressionValue beginIndex

def findEndIndex (expressionValue : Text) (beginIndex : Nat) : Int :=
  if beginIndex + 1 < expressionValue.length then
    if (expressionValue.drop beginIndex).take 1 = beginEnvVar then indexOfFrom endEnvVar expressionValue beginIndex + 1
    else
      let endIndex := indexOfFrom '/' expressionValue beginIndex
      if endIndex = -1 then expressionValue.length else endIndex
  else expressionValue.length

def loadEnvVariable (getenv : Text → Option Text) (variableFullName : Text) : Option Text :=
  getenv (variableFullName.filter fun c => c ≠ '$' ∧ c ≠ '{' ∧ c ≠ '}')

/-- One turn: an escape is taken out, or a reference replaced. -/
def turn (getenv : Text → Option Text) (s : Text × Int) : Text × Int :=
  let (expressionValue, beginIndex) := (s.1, s.2.toNat)
  let isScaped := 1 ≤ beginIndex ∧ expressionValue[beginIndex - 1]? = some '\\'
  let expressionValue' :=
    if isScaped then expressionValue.eraseIdx (beginIndex - 1)
    else
      let endIndex := findEndIndex expressionValue beginIndex
      let variableFullName := (expressionValue.take endIndex.toNat).drop beginIndex
      replaceText variableFullName ((loadEnvVariable getenv variableFullName).getD []) expressionValue
  (expressionValue', findNextValidToken expressionValue' beginIndex)

/-- Missing while the turns are not enough. -/
def loadFromEnvironment (getenv : Text → Option Text) (turns : Nat) (expression : Text) : Option Text :=
  (whileLoop (fun s => 0 ≤ s.2) (turn getenv) turns (expression, findNextValidToken expression 0)).map Prod.fst

theorem loadFromEnvironment_unique {getenv : Text → Option Text} {n m : Nat} {expression a b : Text}
    (ha : loadFromEnvironment getenv n expression = some a) (hb : loadFromEnvironment getenv m expression = some b) :
    a = b := by
  obtain ⟨s, hs, rfl⟩ := Option.map_eq_some_iff.mp ha
  obtain ⟨t, ht, rfl⟩ := Option.map_eq_some_iff.mp hb
  have hst := (whileLoop_mono (Nat.le_max_left n m) hs).symm.trans (whileLoop_mono (Nat.le_max_right n m) ht)
  rw [Option.some.inj hst]

/-! ## Expressions -/

structure Reference where
  name : Text
  braced : Bool
deriving DecidableEq

/-- What an expression is built from: characters, `\$`, `$NAME` and `${NAME}`. -/
inductive Item where
  | lit (c : Char)
  | escaped
  | ref (r : Reference)
deriving DecidableEq

def Reference.text (r : Reference) : Text := if r.braced then '$' :: '{' :: (r.name ++ ['}']) else '$' :: r.name

def Item.text : Item → Text
  | lit c => [c]
  | escaped => ['\\', '$']
  | ref r => r.text

def Item.isRef : Item → Bool
  | ref _ => true
  | _ => false

def render (is : List Item) : Text := is.flatMap Item.text

variable (getenv : Text → Option Text)

/-- Nothing for a variable that is not defined. -/
def value (r : Reference) : Text := (getenv r.name).getD []

def Item.expected : Item → Text
  | lit c => [c]
  | escaped => ['$']
  | ref r => value getenv r

def expected (is : List Item) : Text := is.flatMap (Item.expected getenv)

def IsName (n : Text) : Prop := n ≠ [] ∧ ∀ c ∈ n, c.isAlphanum ∨ c = '_'

instance (n : Text) : Decidable (IsName n) :=
  @instDecidableAnd (n ≠ []) (∀ c ∈ n, c.isAlphanum ∨ c = '_') inferInstance (List.decidableBAll _ n)

/-- A separator comes next, or the end. -/
def Ends (is : List Item) : Prop := is = [] ∨ is.head? = some (.lit '/')

instance (is : List Item) : Decidable (Ends is) := inferInstanceAs (Decidable (_ ∨ _))

/-- What an item may be, and what may stand after it. -/
def Item.Stands : Item → List Item → Prop
  | lit c, is => c ≠ '$' ∧ (c = '\\' → is.head?.all fun i => !i.isRef)
  | escaped, _ => True
  | ref r, is => IsName r.name ∧ (r.braced = false → Ends is)

instance : ∀ i is, Decidable (Item.Stands i is)
  | .lit c, is => inferInstanceAs (Decidable (c ≠ '$' ∧ (c = '\\' → is.head?.all fun i => !i.isRef)))
  | .escaped, _ => .isTrue trivial
  | .ref r, is => inferInstanceAs (Decidable (IsName r.name ∧ (r.braced = false → Ends is)))

def WellFormed : List Item → Prop
  | [] => True
  | i :: is => i.Stands is ∧ WellFormed is

instance decidableWellFormed : ∀ is, Decidable (WellFormed is)
  | [] => .isTrue trivial
  | i :: is => @instDecidableAnd (i.Stands is) (WellFormed is) inferInstance (decidableWellFormed is)

/-! ## Substituting by text -/

/-- The references of the list are characters by now, those of their values. -/
def settle (seen : List Reference) (is : List Item) : List Item :=
  is.flatMap fun
    | .ref r => if r ∈ seen then (value getenv r).map .lit else [.ref r]
    | i => [i]

/-- The text of the reference begins nowhere but at the reference itself. -/
def Clear (r : Reference) : List Item → Prop
  | [] => True
  | i :: is => (i = .ref r ∨ Absent r.text (render is) i.text) ∧ Clear r is

/-- At the first of each reference, its text is nowhere in what has been expanded and
nowhere in what follows, where those met before are values already. -/
def Separate : List Reference → Text → List Item → Prop
  | _, _, [] => True
  | seen, done, .ref r :: is =>
    (r ∈ seen ∨ Absent r.text (r.text ++ render (settle getenv seen is)) done ∧ Clear r (settle getenv seen is)) ∧
      Separate (r :: seen) (done ++ value getenv r) is
  | seen, done, i :: is => Separate seen (done ++ i.expected getenv) is

instance decidableClear (r : Reference) : ∀ is, Decidable (Clear r is)
  | [] => .isTrue trivial
  | i :: is =>
    @instDecidableAnd (i = .ref r ∨ Absent r.text (render is) i.text) (Clear r is) inferInstance (decidableClear r is)

instance decidableSeparate : ∀ seen done is, Decidable (Separate getenv seen done is)
  | _, _, [] => .isTrue trivial
  | seen, done, .ref r :: is => @instDecidableAnd _ _ inferInstance (decidableSeparate (r :: seen) (done ++ value getenv r) is)
  | seen, done, .lit c :: is => decidableSeparate seen (done ++ [c]) is
  | seen, done, .escaped :: is => decidableSeparate seen (done ++ ['$']) is

/-- A separator follows each reference, or the end; no value has a `$`; and the text of no
reference is found elsewhere when it is replaced. -/
structure Undisturbed (is : List Item) : Prop where
  ends : ∀ r js, .ref r :: js <:+ is → Ends js
  values : ∀ r, .ref r ∈ is → '$' ∉ value getenv r
  separate : Separate getenv [] [] is

variable {getenv} {r : Reference} {is : List Item} {seen : List Reference} {done : Text}

@[simp] theorem render_cons (i : Item) (is : List Item) : render (i :: is) = i.text ++ render is := rfl

@[simp] theorem expected_cons (i : Item) (is : List Item) :
    expected getenv (i :: is) = i.expected getenv ++ expected getenv is := rfl

theorem render_append (is js : List Item) : render (is ++ js) = render is ++ render js := List.flatMap_append

theorem render_lits (v : Text) : render (v.map .lit) = v := by
  induction v with
  | nil => rfl
  | cons c v ih => rw [List.map_cons, render_cons, ih]; rfl

theorem settle_lit (c : Char) : settle getenv seen (.lit c :: is) = .lit c :: settle getenv seen is := rfl

theorem settle_escaped : settle getenv seen (.escaped :: is) = .escaped :: settle getenv seen is := rfl

theorem settle_seen (h : r ∈ seen) :
    settle getenv seen (.ref r :: is) = (value getenv r).map .lit ++ settle getenv seen is := by
  simp [settle, h]

theorem settle_unseen (h : r ∉ seen) : settle getenv seen (.ref r :: is) = .ref r :: settle getenv seen is := by
  simp [settle, h]

theorem settle_nil : ∀ is, settle getenv [] is = is
  | [] => rfl
  | .lit c :: is => by rw [settle_lit, settle_nil is]
  | .escaped :: is => by rw [settle_escaped, settle_nil is]
  | .ref r :: is => by rw [settle_unseen (by simp), settle_nil is]

theorem settle_cons_of_mem (h : r ∈ seen) : settle getenv (r :: seen) is = settle getenv seen is := by
  have hmem : ∀ r', r' ∈ r :: seen ↔ r' ∈ seen := fun r' => by
    rw [List.mem_cons, or_iff_right_of_imp]
    rintro rfl
    exact h
  simp [settle, hmem]

theorem Reference.text_ne_nil : r.text ≠ [] := by
  rw [text]
  split <;> simp

theorem settle_append (is js : List Item) :
    settle getenv seen (is ++ js) = settle getenv seen is ++ settle getenv seen js := List.flatMap_append

theorem settle_lits (v : Text) : settle getenv seen (v.map .lit) = v.map .lit := by
  induction v with
  | nil => rfl
  | cons c v ih => rw [List.map_cons, settle_lit, ih]

theorem settle_cons (r : Reference) (seen : List Reference) :
    ∀ is, settle getenv (r :: seen) is = settle getenv [r] (settle getenv seen is)
  | [] => rfl
  | .lit c :: is => by rw [settle_lit, settle_lit, settle_lit, settle_cons r seen is]
  | .escaped :: is => by rw [settle_escaped, settle_escaped, settle_escaped, settle_cons r seen is]
  | .ref r' :: is => by
    by_cases hseen : r' ∈ seen
    · rw [settle_seen (List.mem_cons_of_mem r hseen), settle_seen hseen, settle_append, settle_lits, settle_cons r seen is]
    · rw [settle_unseen hseen]
      by_cases hr : r' = r
      · rw [hr, settle_seen (List.mem_cons_self ..), settle_seen (List.mem_cons_self ..), settle_cons r seen is]
      · rw [settle_unseen (by simp [hr, hseen]), settle_unseen (by simpa using hr), settle_cons r seen is]

/-- Replacing the text of a reference settles the reference. -/
theorem replaceFrom_render : ∀ {is}, Clear r is →
    replaceFrom r.text (value getenv r) 0 (render is) = render (settle getenv [r] is)
  | [], _ => rfl
  | i :: is, h => by
    have ih := replaceFrom_render h.2
    rw [render_cons]
    by_cases hi : i = .ref r
    · rw [hi, settle_seen (List.mem_cons_self ..), render_append, render_lits, ← ih]
      exact replaceFrom_self r.text_ne_nil _
    · have hkept : settle getenv [r] (i :: is) = i :: settle getenv [r] is := by
        cases i with
        | lit c => rfl
        | escaped => rfl
        | ref r' => exact settle_unseen (by simpa using hi)
      rw [hkept, render_cons, ← ih, replaceFrom_absent (h.1.resolve_left hi)]

/-! ## One turn -/

theorem indexOfFrom_append (c : Char) (d s : Text) :
    indexOfFrom c (d ++ s) d.length = if c ∈ s then (d.length : Int) + s.idxOf c else -1 := by
  rw [indexOfFrom, List.drop_left]

theorem indexOfFrom_found (c : Char) (d s : Text) : indexOfFrom c (d ++ c :: s) d.length = d.length := by
  rw [indexOfFrom_append, if_pos (List.mem_cons_self ..), List.idxOf_cons_self, Int.natCast_zero, Int.add_zero]

theorem indexOfFrom_skip {c : Char} {w : Text} (h : c ∉ w) (d s : Text) :
    indexOfFrom c (d ++ (w ++ s)) d.length = indexOfFrom c (d ++ w ++ s) (d ++ w).length := by
  rw [indexOfFrom_append, indexOfFrom_append, List.idxOf_append_of_notMem h]
  simp only [List.mem_append, h, false_or, List.length_append]
  split <;> omega

theorem indexOfFrom_none {c : Char} {s : Text} (h : c ∉ s) (d : Text) : indexOfFrom c (d ++ s) d.length = -1 := by
  rw [indexOfFrom_append, if_neg h]

theorem turn_escaped (s : Text) :
    turn getenv (done ++ '\\' :: '$' :: s, (done.length + 1 : Nat)) =
      (done ++ '$' :: s, findNextValidToken (done ++ '$' :: s) (done.length + 1)) := by
  have hescaped : (done ++ '\\' :: '$' :: s)[done.length]? = some '\\' := by simp
  have herase : (done ++ '\\' :: '$' :: s).eraseIdx done.length = done ++ '$' :: s := by
    rw [List.eraseIdx_append_of_length_le (Nat.le_refl _), Nat.sub_self, List.eraseIdx_cons_zero]
  simp only [turn, Int.toNat_natCast, Nat.add_sub_cancel, hescaped, herase, Nat.le_add_left, and_self, if_true]

theorem IsName.not_mem {n : Text} (h : IsName n) {c : Char} (hc : c.isAlphanum = false ∧ c ≠ '_') : c ∉ n := by
  intro hmem
  rcases h.2 c hmem with h | h
  · rw [hc.1] at h
    cases h
  · exact hc.2 h

theorem IsName.filter {n : Text} (h : IsName n) : n.filter (fun c => c ≠ '$' ∧ c ≠ '{' ∧ c ≠ '}') = n := by
  refine List.filter_eq_self.mpr fun c hc => ?_
  have hne : ∀ d : Char, d.isAlphanum = false ∧ d ≠ '_' → c ≠ d := fun d hd heq => h.not_mem hd (heq ▸ hc)
  simp [hne '$' (by decide), hne '{' (by decide), hne '}' (by decide)]

theorem Reference.exists_text (h : IsName r.name) : ∃ u, u ≠ [] ∧ r.text = '$' :: u ∧ '/' ∉ u := by
  have hslash : '/' ∉ r.name := h.not_mem (by decide)
  rw [text]
  split
  · exact ⟨_, by simp, rfl, by simp [hslash]⟩
  · exact ⟨_, h.1, rfl, hslash⟩

theorem loadEnvVariable_text (h : IsName r.name) : loadEnvVariable getenv r.text = getenv r.name := by
  rw [loadEnvVariable, Reference.text]
  split
  · rw [List.filter_cons_of_neg (by decide), List.filter_cons_of_neg (by decide), List.filter_append, h.filter,
      List.filter_cons_of_neg (by decide), List.filter_nil, List.append_nil]
  · rw [List.filter_cons_of_neg (by decide), h.filter]

/-- The end of the name, where a separator follows or nothing. -/
theorem findEndIndex_text (h : IsName r.name) {rest : Text} (hrest : rest = [] ∨ ∃ s, rest = '/' :: s) :
    findEndIndex (done ++ (r.text ++ rest)) done.length = (done.length + r.text.length : Nat) := by
  obtain ⟨u, hu, htext, hslash⟩ := Reference.exists_text h
  have hslash' : '/' ∉ r.text := by
    rw [htext, List.mem_cons]
    exact fun h => h.elim (by decide) hslash
  have hlen : done.length + 1 < (done ++ (r.text ++ rest)).length := by
    have := List.length_pos_iff.mpr hu
    simp only [htext, List.length_append, List.length_cons]
    omega
  have hbegin : ((done ++ (r.text ++ rest)).drop done.length).take 1 ≠ beginEnvVar := by
    rw [List.drop_left, htext]
    simp [beginEnvVar]
  rw [findEndIndex, if_pos hlen, if_neg hbegin]
  rcases hrest with rfl | ⟨s, rfl⟩
  · rw [List.append_nil, indexOfFrom_none hslash', if_pos rfl, List.length_append]
  · rw [indexOfFrom_skip hslash', indexOfFrom_found, List.length_append, if_neg (by omega)]

theorem turn_reference (h : IsName r.name) {rest : Text} (hrest : rest = [] ∨ ∃ s, rest = '/' :: s)
    (hlast : done.getLast? ≠ some '\\') :
    turn getenv (done ++ (r.text ++ rest), (done.length : Nat)) =
      (replaceText r.text (value getenv r) (done ++ (r.text ++ rest)),
        findNextValidToken (replaceText r.text (value getenv r) (done ++ (r.text ++ rest))) done.length) := by
  have hbefore : ¬ (1 ≤ done.length ∧ (done ++ (r.text ++ rest))[done.length - 1]? = some '\\') := by
    rintro ⟨hpos, hc⟩
    rw [List.getElem?_append_left (by omega), ← List.getLast?_eq_getElem?] at hc
    exact hlast hc
  have hname : ((done ++ (r.text ++ rest)).take (done.length + r.text.length)).drop done.length = r.text := by
    rw [List.take_length_add_append, List.drop_left, List.take_left]
  simp only [turn, Int.toNat_natCast, if_neg hbefore, findEndIndex_text h hrest, hname, loadEnvVariable_text h]
  rfl

/-! ## The run -/

/-- From the next `$` on, with `done` expanded and the references met in it settled in the rest. -/
def EndsIn (getenv : Text → Option Text) (done rest result : Text) : Prop :=
  ∃ turns, whileLoop (fun s => 0 ≤ s.2) (turn getenv) turns (done ++ rest, findNextValidToken (done ++ rest) done.length) =
    some (result, -1)

theorem endsIn_nil : EndsIn getenv done [] done := by
  refine ⟨0, ?_⟩
  have hnone : findNextValidToken (done ++ []) done.length = -1 := indexOfFrom_none (by simp) done
  rw [hnone, List.append_nil]
  rfl

/-- A text without `$` is passed over. -/
theorem EndsIn.skip {w rest result : Text} (hw : '$' ∉ w) (h : EndsIn getenv (done ++ w) rest result) :
    EndsIn getenv done (w ++ rest) result := by
  obtain ⟨turns, h⟩ := h
  refine ⟨turns, ?_⟩
  rw [findNextValidToken, indexOfFrom_skip (c := prefixEnvVar) hw, ← List.append_assoc]
  exact h

theorem EndsIn.escaped {rest result : Text} (h : EndsIn getenv (done ++ ['$']) rest result) :
    EndsIn getenv done ('\\' :: '$' :: rest) result := by
  obtain ⟨turns, h⟩ := h
  refine ⟨turns + 1, ?_⟩
  have hfound : findNextValidToken (done ++ '\\' :: '$' :: rest) done.length = (done.length + 1 : Nat) := by
    have hskip := indexOfFrom_skip (c := '$') (w := ['\\']) (by decide) done ('$' :: rest)
    rw [indexOfFrom_found, List.length_append] at hskip
    exact hskip
  rw [hfound, whileLoop_succ _ (by simp; omega), turn_escaped]
  simpa using h

theorem EndsIn.reference (hname : IsName r.name) {rest rest' result : Text}
    (hrest : rest = [] ∨ ∃ s, rest = '/' :: s) (hlast : done.getLast? ≠ some '\\')
    (habsent : Absent r.text (r.text ++ rest) done)
    (hreplaced : replaceFrom r.text (value getenv r) 0 rest = rest') (hvalue : '$' ∉ value getenv r)
    (h : EndsIn getenv (done ++ value getenv r) rest' result) : EndsIn getenv done (r.text ++ rest) result := by
  obtain ⟨turns, h⟩ := h.skip hvalue
  refine ⟨turns + 1, ?_⟩
  have hfound : findNextValidToken (done ++ (r.text ++ rest)) done.length = (done.length : Nat) := by
    obtain ⟨u, -, htext, -⟩ := Reference.exists_text hname
    rw [htext]
    exact indexOfFrom_found '$' done (u ++ rest)
  have htext : replaceText r.text (value getenv r) (done ++ (r.text ++ rest)) = done ++ (value getenv r ++ rest') := by
    rw [replaceText, replaceFrom_absent habsent, replaceFrom_self r.text_ne_nil, hreplaced]
  rw [hfound, whileLoop_succ _ (by simp), turn_reference hname hrest hlast, htext]
  exact h

/-- A separator stays where it is when the rest is settled. -/
theorem Ends.render (h : Ends is) :
    EnvironmentLoader.render (settle getenv seen is) = [] ∨
      ∃ s, EnvironmentLoader.render (settle getenv seen is) = '/' :: s := by
  rcases h with rfl | h
  · exact .inl rfl
  · obtain ⟨js, rfl⟩ := List.head?_eq_some_iff.mp h
    exact .inr ⟨_, rfl⟩

theorem Ends.head?_ne (h : Ends is) (r : Reference) : is.head? ≠ some (.ref r) := by
  rcases h with rfl | h
  · simp
  · simp [h]

/-- Along the items: what comes before the next one is expanded. -/
theorem endsIn_expected : ∀ {is : List Item} {seen : List Reference} {done : Text}, WellFormed is →
    (∀ r js, .ref r :: js <:+ is → Ends js) → (∀ r, .ref r ∈ is → '$' ∉ value getenv r) → Separate getenv seen done is →
    (∀ r, is.head? = some (.ref r) → done.getLast? ≠ some '\\') →
    EndsIn getenv done (render (settle getenv seen is)) (done ++ expected getenv is)
  | [], seen, done, _, _, _, _, _ => by
    rw [expected, List.flatMap_nil, List.append_nil]
    exact endsIn_nil
  | .lit c :: is, seen, done, hwf, hends, hvalues, hsep, _ => by
    have hlast : ∀ r, is.head? = some (.ref r) → (done ++ [c]).getLast? ≠ some '\\' := fun r hr hc => by
      rw [List.getLast?_append_of_ne_nil _ (by simp), List.getLast?_singleton, Option.some.injEq] at hc
      simpa [hr, Item.isRef] using hwf.1.2 hc
    have ih := endsIn_expected hwf.2 (fun r js h => hends r js (h.trans (List.suffix_cons ..)))
      (fun r h => hvalues r (List.mem_cons_of_mem _ h)) hsep hlast
    rw [List.append_assoc] at ih
    have hc : '$' ∉ [c] := by simpa using hwf.1.1.symm
    exact ih.skip hc
  | .escaped :: is, seen, done, hwf, hends, hvalues, hsep, _ => by
    have ih := endsIn_expected hwf.2 (fun r js h => hends r js (h.trans (List.suffix_cons ..)))
      (fun r h => hvalues r (List.mem_cons_of_mem _ h)) hsep (fun _ _ => by simp [Item.expected])
    rw [List.append_assoc] at ih
    exact ih.escaped
  | .ref r :: is, seen, done, hwf, hends, hvalues, hsep, hlast => by
    have hend : Ends is := hends r is (List.suffix_refl _)
    have hvalue := hvalues r (List.mem_cons_self ..)
    have ih := endsIn_expected hwf.2 (fun r js h => hends r js (h.trans (List.suffix_cons ..)))
      (fun r h => hvalues r (List.mem_cons_of_mem _ h)) hsep.2 (fun r' h => absurd h (hend.head?_ne r'))
    rw [List.append_assoc] at ih
    by_cases hseen : r ∈ seen
    · -- An earlier turn has put the value here.
      rw [settle_cons_of_mem hseen] at ih
      rw [settle_seen hseen, render_append, render_lits]
      exact ih.skip hvalue
    · obtain ⟨habsent, hclear⟩ := hsep.1.resolve_left hseen
      rw [settle_cons] at ih
      rw [settle_unseen hseen]
      exact ih.reference hwf.1.1 hend.render (hlast r rfl) habsent (replaceFrom_render hclear) hvalue

/-- A variable whose value is the reference to it: every turn puts the same text back. -/
theorem loadFromEnvironment_self (hname : IsName r.name) (h : getenv r.name = some r.text) (turns : Nat) :
    loadFromEnvironment getenv turns r.text = none := by
  have hfound : findNextValidToken r.text 0 = (0 : Nat) := by
    obtain ⟨u, -, htext, -⟩ := Reference.exists_text hname
    rw [htext]
    exact indexOfFrom_found '$' [] u
  have hreplaced : replaceText r.text (value getenv r) r.text = r.text := by
    have hself := replaceFrom_self (v := value getenv r) r.text_ne_nil []
    rw [List.append_nil, replaceFrom, List.append_nil] at hself
    rw [replaceText, hself, value, h, Option.getD_some]
  have hturn : turn getenv (r.text, (0 : Nat)) = (r.text, ((0 : Nat) : Int)) := by
    have hlast : ([] : Text).getLast? ≠ some '\\' := by simp
    have hbare := @turn_reference getenv r [] hname [] (.inl rfl) hlast
    rw [List.append_nil, List.nil_append, List.length_nil, hreplaced, hfound] at hbare
    exact hbare
  have hrun : whileLoop (fun s => 0 ≤ s.2) (turn getenv) turns (r.text, ((0 : Nat) : Int)) = none :=
    whileLoop_diverges (I := fun s => s = (r.text, ((0 : Nat) : Int))) (fun s hs => by rw [hs]; rfl)
      (fun s hs => by rw [hs, hturn]) rfl turns
  rw [loadFromEnvironment, hfound, hrun]
  rfl

/-- `HOME` is `/home/u`, `V` is `v$`, and nothing else is defined. -/
def someEnvironment (name : Text) : Option Text :=
  if name = ['H', 'O', 'M', 'E'] then some ['/', 'h', 'o', 'm', 'e', '/', 'u']
  else if name = ['V'] then some ['v', '$'] else none

/-- With `xb` for `ab`, what the first turn writes is right by chance. -/
example : loadFromEnvironment
    (fun name => if name = ['a'] then some ['x'] else if name = ['a', 'b'] then some ['x', 'b'] else none) 1
      (render [.ref ⟨['a'], false⟩, .lit '/', .ref ⟨['a', 'b'], false⟩]) =
    some (expected (fun name => if name = ['a'] then some ['x'] else if name = ['a', 'b'] then some ['x', 'b'] else none)
      [.ref ⟨['a'], false⟩, .lit '/', .ref ⟨['a', 'b'], false⟩]) := by decide

end EnvironmentLoader

end Compss.Runtime
