/-
Sets kept in a red-black tree, as `java.util.TreeSet` keeps them: an element
is looked for from the root with a comparison of three outcomes, goes in at
the leaf the search ends in, and the tree is balanced on the way back up.

A position in a tree is the subtree there and the frames above it, innermost
first. Balancing never changes the elements in order; so when the comparison
orders the elements of the tree, and the one looked for, `add` and `remove`
are those of a set. When it does not, an element may be where the search for
it does not come by.
-/
import Mathlib.Data.List.Basic
import Mathlib.Data.List.Nodup
import Mathlib.Tactic.Common

namespace Lib

inductive Color
  | red
  | black
  deriving DecidableEq, Repr

inductive Side
  | left
  | right
  deriving DecidableEq, Repr

def Side.other : Side → Side
  | .left => .right
  | .right => .left

inductive TreeSet (α : Type*)
  | nil
  | node (c : Color) (l : TreeSet α) (a : α) (r : TreeSet α)
  deriving DecidableEq, Repr

namespace TreeSet
variable {α : Type*}

/-- The elements in order. -/
def elems : TreeSet α → List α
  | nil => []
  | node _ l a r => l.elems ++ a :: r.elems

/-- A leaf is black. -/
def colorOf : TreeSet α → Color
  | nil => .black
  | node c _ _ _ => c

def paint (c : Color) : TreeSet α → TreeSet α
  | nil => nil
  | node _ l a r => node c l a r

def child : Side → TreeSet α → TreeSet α
  | _, nil => nil
  | .left, node _ l _ _ => l
  | .right, node _ _ _ r => r

/-- `rotateLeft` lifts the right child, `rotateRight` the left one; without
that child nothing moves. -/
def rotate : Side → TreeSet α → TreeSet α
  | .left, node c l a (node d m b r) => node d (node c l a m) b r
  | .right, node c (node d l a m) b r => node d l a (node c m b r)
  | _, t => t

/-- A node above a position: the side the position is on, and the rest. -/
structure Frame (α : Type*) where
  side : Side
  color : Color
  key : α
  sibling : TreeSet α

def Frame.attach (f : Frame α) (t : TreeSet α) : TreeSet α :=
  match f.side with
  | .left => node f.color t f.key f.sibling
  | .right => node f.color f.sibling f.key t

/-- The whole tree, from a position. -/
def close (t : TreeSet α) : List (Frame α) → TreeSet α
  | [] => t
  | f :: p => close (f.attach t) p

/-! ## Balancing -/

/-- `x` is red, its parent may be. -/
def fixAfterInsertion (x : TreeSet α) : List (Frame α) → TreeSet α
  | [] => paint .black x
  | [f] => paint .black (f.attach x)
  | f :: g :: p =>
    if f.color = .black then paint .black (close x (f :: g :: p))
    else if colorOf g.sibling = .red then
      fixAfterInsertion
        ({ g with color := .red, sibling := paint .black g.sibling }.attach (paint .black (f.attach x))) p
    else
      let parent := if f.side = g.side then f.attach x else rotate g.side (f.attach x)
      paint .black (close (rotate g.side.other ({ g with color := .red }.attach (paint .black parent))) p)

def blackChildren (t : TreeSet α) : Prop :=
  colorOf (child .left t) = .black ∧ colorOf (child .right t) = .black

instance (t : TreeSet α) : Decidable (blackChildren t) :=
  inferInstanceAs (Decidable (_ ∧ _))

/-- A red sibling takes the parent's place; its near child is the sibling
afterwards. -/
def Frame.lower (f : Frame α) : List (Frame α) :=
  match f.sibling with
  | nil => [f]
  | node _ l k r =>
    match f.side with
    | .left => [{ f with color := .red, sibling := l }, ⟨.left, .black, k, r⟩]
    | .right => [{ f with color := .red, sibling := r }, ⟨.right, .black, k, l⟩]

/-- A black sibling with a red child: one or two rotations, and `x` lacks no
black node any more. -/
def settle (x : TreeSet α) (f : Frame α) (p : List (Frame α)) : TreeSet α :=
  let sibling :=
    if colorOf (child f.side.other f.sibling) = .black then
      match f.side, f.sibling with
      | .left, node _ l k r => rotate .right (node .red (paint .black l) k r)
      | .right, node _ l k r => rotate .left (node .red l k (paint .black r))
      | _, nil => nil
    else f.sibling
  let outer :=
    match f.side, sibling with
    | .left, node _ l k r => node f.color l k (paint .black r)
    | .right, node _ l k r => node f.color (paint .black l) k r
    | _, nil => nil
  paint .black (close (rotate f.side ({ f with color := .black, sibling := outer }.attach x)) p)

/-- `x` lacks a black node. -/
def fixAfterDeletion (x : TreeSet α) : List (Frame α) → TreeSet α
  | [] => paint .black x
  | f :: p =>
    if colorOf x = .red then close (paint .black x) (f :: p)
    else if colorOf f.sibling = .red then
      match f.lower with
      | g :: q =>
        if blackChildren g.sibling then
          close (paint .black ({ g with sibling := paint .red g.sibling }.attach x)) (q ++ p)
        else settle x g (q ++ p)
      | [] => close x (f :: p)
    else if blackChildren f.sibling then
      fixAfterDeletion ({ f with sibling := paint .red f.sibling }.attach x) p
    else settle x f p

/-! ## The operations -/

/-- Where the search for `x` ends: at an element it is equal to, or at a leaf. -/
def descend (compare : α → α → Int) (x : α) : TreeSet α → List (Frame α) → TreeSet α × List (Frame α)
  | nil, p => (nil, p)
  | node c l a r, p =>
    if compare x a < 0 then descend compare x l (⟨.left, c, a, r⟩ :: p)
    else if 0 < compare x a then descend compare x r (⟨.right, c, a, l⟩ :: p)
    else (node c l a r, p)

/-- An element equal to one in the set is not added. -/
def add (compare : α → α → Int) (x : α) (t : TreeSet α) : TreeSet α :=
  match descend compare x t [] with
  | (nil, p) => fixAfterInsertion (node .red nil x nil) p
  | (node _ _ _ _, _) => t

def contains (compare : α → α → Int) (x : α) (t : TreeSet α) : Bool :=
  match descend compare x t [] with
  | (nil, _) => false
  | (node _ _ _ _, _) => true

/-- The first node of `node c l a r`, with the frames to it. -/
def first : TreeSet α → Color → α → TreeSet α → List (Frame α) → Color × α × TreeSet α × List (Frame α)
  | nil, c, a, r, p => (c, a, r, p)
  | node d l b m, c, a, r, p => first l d b m (⟨.left, c, a, r⟩ :: p)

/-- A node of colour `c` with no child but `t` gives its place to it. -/
def unlink (c : Color) (t : TreeSet α) (p : List (Frame α)) : TreeSet α :=
  if c = .black then fixAfterDeletion t p else close t p

/-- A node with two children gets the next element, whose node goes instead. -/
def deleteEntry (c : Color) (l r : TreeSet α) (p : List (Frame α)) : TreeSet α :=
  match l, r with
  | nil, r => unlink c r p
  | l, nil => unlink c l p
  | l, node d m b r =>
    match first m d b r [] with
    | (d, k, t, q) => unlink d t (q ++ ⟨.right, c, k, l⟩ :: p)

def remove (compare : α → α → Int) (x : α) (t : TreeSet α) : TreeSet α :=
  match descend compare x t [] with
  | (nil, _) => t
  | (node c l _ r, p) => deleteEntry c l r p

/-- The position of the element with `i` others before it. -/
def descendTo : TreeSet α → Nat → List (Frame α) → TreeSet α × List (Frame α)
  | nil, _, p => (nil, p)
  | node c l a r, i, p =>
    if i < l.elems.length then descendTo l i (⟨.left, c, a, r⟩ :: p)
    else if i = l.elems.length then (node c l a r, p)
    else descendTo r (i - l.elems.length - 1) (⟨.right, c, a, l⟩ :: p)

/-- What the `remove` of an iterator does that has just returned the element with
`i` others before it. -/
def removeAt (i : Nat) (t : TreeSet α) : TreeSet α :=
  match descendTo t i [] with
  | (nil, _) => t
  | (node c l _ r, p) => deleteEntry c l r p

/-! ## The elements in order -/

@[simp] theorem elems_nil : (nil : TreeSet α).elems = [] := rfl

@[simp] theorem elems_node (c : Color) (l : TreeSet α) (a : α) (r : TreeSet α) :
    (node c l a r).elems = l.elems ++ a :: r.elems := rfl

@[simp] theorem elems_paint (c : Color) (t : TreeSet α) : (paint c t).elems = t.elems := by
  cases t <;> rfl

@[simp] theorem elems_rotate (s : Side) (t : TreeSet α) : (rotate s t).elems = t.elems := by
  cases s with
  | left => cases t with
    | nil => rfl
    | node c l a r => cases r <;> simp [rotate]
  | right => cases t with
    | nil => rfl
    | node c l a r => cases l <;> simp [rotate]

/-- The elements before a position, and those after it. -/
def Frame.before (f : Frame α) : List α :=
  match f.side with
  | .left => []
  | .right => f.sibling.elems ++ [f.key]

def Frame.after (f : Frame α) : List α :=
  match f.side with
  | .left => f.key :: f.sibling.elems
  | .right => []

def before : List (Frame α) → List α
  | [] => []
  | f :: p => before p ++ f.before

def after : List (Frame α) → List α
  | [] => []
  | f :: p => f.after ++ after p

theorem elems_attach (f : Frame α) (t : TreeSet α) : (f.attach t).elems = f.before ++ t.elems ++ f.after := by
  obtain ⟨s, c, k, u⟩ := f
  cases s <;> simp [Frame.attach, Frame.before, Frame.after]

theorem elems_close (p : List (Frame α)) : ∀ t : TreeSet α, (close t p).elems = before p ++ t.elems ++ after p := by
  induction p with
  | nil => intro t; simp [close, before, after]
  | cons f p ih => intro t; simp [close, before, after, ih, elems_attach]

theorem before_append (p q : List (Frame α)) : before (p ++ q) = before q ++ before p := by
  induction p with
  | nil => simp [before]
  | cons f p ih => simp [before, ih]

theorem after_append (p q : List (Frame α)) : after (p ++ q) = after p ++ after q := by
  induction p with
  | nil => simp [after]
  | cons f p ih => simp [after, ih]

/-- The elements of a node next to a position depend on the elements of its
subtrees only. -/
theorem elems_attach_congr {f g : Frame α} {t u : TreeSet α} (hs : f.side = g.side) (hk : f.key = g.key)
    (he : f.sibling.elems = g.sibling.elems) (ht : t.elems = u.elems) : (f.attach t).elems = (g.attach u).elems := by
  obtain ⟨s, c, k, v⟩ := f
  obtain ⟨s', c', k', v'⟩ := g
  obtain rfl : s = s' := hs
  obtain rfl : k = k' := hk
  replace he : v.elems = v'.elems := he
  cases s <;> simp [Frame.attach, he, ht]

theorem elems_fixAfterInsertion : ∀ (p : List (Frame α)) (x : TreeSet α),
    (fixAfterInsertion x p).elems = before p ++ x.elems ++ after p
  | [], x => by simp [fixAfterInsertion, before, after]
  | [f], x => by simp [fixAfterInsertion, before, after, elems_attach]
  | f :: g :: p, x => by
    have hclose : (close x (f :: g :: p)).elems = before p ++ (g.attach (f.attach x)).elems ++ after p := by
      rw [close, close, elems_close]
    rw [← elems_close (f :: g :: p) x, hclose, fixAfterInsertion]
    split
    · rw [elems_paint, hclose]
    split
    · rw [elems_fixAfterInsertion p]
      congr 2
      exact elems_attach_congr rfl rfl (elems_paint _ _) (elems_paint _ _)
    · rw [elems_paint, elems_close, elems_rotate]
      congr 2
      refine elems_attach_congr rfl rfl rfl ?_
      rw [elems_paint]
      split <;> simp

theorem elems_settle (x : TreeSet α) (f : Frame α) (p : List (Frame α)) :
    (settle x f p).elems = before p ++ (f.attach x).elems ++ after p := by
  obtain ⟨s, c, k, t⟩ := f
  rw [settle, elems_paint, elems_close, elems_rotate]
  congr 2
  refine elems_attach_congr rfl rfl ?_ rfl
  have houter : ∀ (s : Side) (u : TreeSet α), (match s, u with
      | .left, node _ l k r => node c l k (paint .black r)
      | .right, node _ l k r => node c (paint .black l) k r
      | _, nil => nil).elems = u.elems := by
    intro s u
    cases s <;> cases u <;> simp
  rw [houter]
  split
  · cases s <;> cases t <;> simp
  · rfl

theorem before_lower (f : Frame α) : before f.lower = f.before := by
  obtain ⟨s, c, k, t⟩ := f
  cases t <;> cases s <;> simp [Frame.lower, before, Frame.before]

theorem after_lower (f : Frame α) : after f.lower = f.after := by
  obtain ⟨s, c, k, t⟩ := f
  cases t <;> cases s <;> simp [Frame.lower, after, Frame.after]

theorem elems_fixAfterDeletion : ∀ (p : List (Frame α)) (x : TreeSet α),
    (fixAfterDeletion x p).elems = before p ++ x.elems ++ after p
  | [], x => by simp [fixAfterDeletion, before, after]
  | f :: p, x => by
    have hx : before (f :: p) ++ x.elems ++ after (f :: p) = before p ++ (f.attach x).elems ++ after p := by
      simp [before, after, elems_attach]
    rw [fixAfterDeletion]
    split
    · rw [elems_close, elems_paint]
    split
    · have hb := before_lower f
      have ha := after_lower f
      split
      · rename_i g q hlow
        rw [hlow] at hb ha
        have hg : before (q ++ p) ++ (g.attach x).elems ++ after (q ++ p) =
            before (f :: p) ++ x.elems ++ after (f :: p) := by
          rw [elems_attach, before_append, after_append]
          simp only [before, after] at hb ha ⊢
          rw [← hb, ← ha]
          simp
        rw [← hg]
        split
        · rw [elems_close, elems_paint]
          congr 2
          exact elems_attach_congr rfl rfl (elems_paint _ _) rfl
        · exact elems_settle x g (q ++ p)
      · exact elems_close (f :: p) x
    rw [hx]
    split
    · rw [elems_fixAfterDeletion p]
      congr 2
      exact elems_attach_congr rfl rfl (elems_paint _ _) rfl
    · exact elems_settle x f p

theorem elems_unlink (c : Color) (t : TreeSet α) (p : List (Frame α)) :
    (unlink c t p).elems = before p ++ t.elems ++ after p := by
  rw [unlink]
  split
  · exact elems_fixAfterDeletion p t
  · exact elems_close p t

/-- `first` finds the first element. -/
theorem elems_first : ∀ (l : TreeSet α) (c : Color) (a : α) (r : TreeSet α) (p : List (Frame α)),
    before p ++ (node c l a r).elems ++ after p =
      before (first l c a r p).2.2.2 ++ (first l c a r p).2.1 :: (first l c a r p).2.2.1.elems ++
        after (first l c a r p).2.2.2
  | nil, c, a, r, p => by simp [first]
  | node d l b m, c, a, r, p => by
    rw [first, ← elems_first l d b m]
    simp [before, after, Frame.before, Frame.after]

theorem before_first : ∀ (l : TreeSet α) (c : Color) (a : α) (r : TreeSet α) (p : List (Frame α)),
    before (first l c a r p).2.2.2 = before p
  | nil, _, _, _, _ => rfl
  | node d l b m, c, a, r, p => by
    rw [first, before_first l]
    simp [before, Frame.before]

theorem elems_deleteEntry (c : Color) (l r : TreeSet α) (p : List (Frame α)) :
    (deleteEntry c l r p).elems = before p ++ (l.elems ++ r.elems) ++ after p := by
  unfold deleteEntry
  split
  · simp [elems_unlink]
  · simp [elems_unlink]
  · rename_i d m b r _
    have hf := elems_first m d b r []
    have hb := before_first m d b r []
    rw [hb] at hf
    simp only [before, after, List.nil_append, List.append_nil] at hf
    simp only [elems_unlink, before_append, after_append, hb, hf]
    simp [before, after, Frame.before, Frame.after]

theorem elems_descendTo : ∀ (t : TreeSet α) (i : Nat) (p : List (Frame α)), i < t.elems.length →
    ∃ c l a r, (descendTo t i p).1 = node c l a r ∧
      before p ++ t.elems.take i = before (descendTo t i p).2 ++ l.elems ∧
      t.elems.drop (i + 1) ++ after p = r.elems ++ after (descendTo t i p).2
  | nil, i, p, h => by simp at h
  | node c l a r, i, p, h => by
    rw [descendTo]
    split
    · rename_i hi
      obtain ⟨d, m, b, n, hnode, hbefore, hafter⟩ := elems_descendTo l i (⟨.left, c, a, r⟩ :: p) hi
      refine ⟨d, m, b, n, hnode, ?_, ?_⟩
      · rw [← hbefore, elems_node, List.take_append_of_le_length (by omega)]
        simp [before, Frame.before]
      · rw [← hafter, elems_node, List.drop_append_of_le_length (by omega)]
        simp [after, Frame.after]
    split
    · rename_i hi
      refine ⟨c, l, a, r, rfl, ?_, ?_⟩
      · simp [hi]
      · simp [hi, List.drop_append]
    · rename_i hlt hne
      have hi : i = l.elems.length + 1 + (i - l.elems.length - 1) := by omega
      have hr : i - l.elems.length - 1 < r.elems.length := by
        rw [elems_node, List.length_append, List.length_cons] at h
        omega
      obtain ⟨d, m, b, n, hnode, hbefore, hafter⟩ := elems_descendTo r (i - l.elems.length - 1) (⟨.right, c, a, l⟩ :: p) hr
      refine ⟨d, m, b, n, hnode, ?_, ?_⟩
      · rw [← hbefore]
        generalize i - l.elems.length - 1 = j at hi
        subst hi
        have : (l.elems ++ a :: r.elems).take (l.elems.length + 1 + j) = l.elems ++ a :: r.elems.take j := by
          rw [show l.elems.length + 1 + j = l.elems.length + (j + 1) by omega, List.take_length_add_append]
          rfl
        simp [before, Frame.before, this]
      · rw [← hafter]
        generalize i - l.elems.length - 1 = j at hi
        subst hi
        have : (l.elems ++ a :: r.elems).drop (l.elems.length + 1 + j + 1) = r.elems.drop (j + 1) := by
          rw [show l.elems.length + 1 + j + 1 = l.elems.length + (j + 1 + 1) by omega, List.drop_length_add_append]
          rfl
        simp [after, Frame.after, this]

theorem elems_removeAt {t : TreeSet α} {i : Nat} (h : i < t.elems.length) :
    (removeAt i t).elems = t.elems.take i ++ t.elems.drop (i + 1) := by
  obtain ⟨c, l, a, r, hnode, hbefore, hafter⟩ := elems_descendTo t i [] h
  simp only [before, after, List.nil_append, List.append_nil] at hbefore hafter
  rw [removeAt]
  split
  · rename_i heq
    rw [heq] at hnode
    cases hnode
  · rename_i heq
    rw [heq] at hnode hbefore hafter
    cases hnode
    rw [elems_deleteEntry, hbefore, hafter]
    simp

/-! ## The search -/

/-- The search is a walk in the tree. -/
theorem close_descend (compare : α → α → Int) (x : α) : ∀ (t : TreeSet α) (p : List (Frame α)),
    close (descend compare x t p).1 (descend compare x t p).2 = close t p
  | nil, p => rfl
  | node c l a r, p => by
    rw [descend]
    split
    · rw [close_descend compare x l]
      rfl
    split
    · rw [close_descend compare x r]
      rfl
    · rfl

/-- It ends at a leaf, or at an element that compares equal. -/
theorem descend_node {compare : α → α → Int} {x : α} : ∀ {t : TreeSet α} {p q : List (Frame α)} {c l a r},
    descend compare x t p = (node c l a r, q) → compare x a = 0
  | nil, p, q, c, l, a, r, h => by simp [descend] at h
  | node d m b n, p, q, c, l, a, r, h => by
    rw [descend] at h
    split at h
    · exact descend_node h
    split at h
    · exact descend_node h
    · simp only [Prod.mk.injEq, node.injEq] at h
      obtain ⟨⟨-, -, rfl, -⟩, -⟩ := h
      omega

theorem elems_of_descend {compare : α → α → Int} {x : α} {t u : TreeSet α} {q : List (Frame α)}
    (h : descend compare x t [] = (u, q)) : t.elems = before q ++ u.elems ++ after q := by
  have := close_descend compare x t []
  rw [h] at this
  rw [← elems_close, this, close]

/-- What `add` does to the elements, whatever the comparison. -/
theorem elems_add (compare : α → α → Int) (x : α) (t : TreeSet α) :
    (add compare x t).elems = t.elems ∧ (∃ a ∈ t.elems, compare x a = 0) ∨
      ∃ q, descend compare x t [] = (nil, q) ∧ t.elems = before q ++ after q ∧
        (add compare x t).elems = before q ++ x :: after q := by
  unfold add
  split
  · rename_i q hq
    exact .inr ⟨q, hq, by simpa using elems_of_descend hq, by simp [elems_fixAfterInsertion]⟩
  · rename_i c l a r q hq
    exact .inl ⟨rfl, a, by simp [elems_of_descend hq], descend_node hq⟩

theorem add_of_contains {compare : α → α → Int} {x : α} {t : TreeSet α} (h : contains compare x t = true) :
    add compare x t = t := by
  unfold contains at h
  unfold add
  split
  · rename_i heq
    simp [heq] at h
  · rfl

/-- What the search does not find is added, wherever it may be. -/
theorem elems_add_eq_iff {compare : α → α → Int} {x : α} {t : TreeSet α} :
    (add compare x t).elems = t.elems ↔ contains compare x t = true := by
  refine ⟨fun h => ?_, fun h => by rw [add_of_contains h]⟩
  unfold contains
  split
  · rename_i q hq
    have ht := elems_of_descend hq
    rw [add, hq] at h
    simp only [elems_fixAfterInsertion, elems_node, elems_nil, List.nil_append] at h
    have := congrArg List.length (h.trans ht)
    simp at this
  · rfl

/-- What `remove` does to the elements, whatever the comparison. -/
theorem elems_remove (compare : α → α → Int) (x : α) (t : TreeSet α) :
    (remove compare x t).elems = t.elems ∧ (∃ q, descend compare x t [] = (nil, q)) ∨
      ∃ u a v, t.elems = u ++ a :: v ∧ compare x a = 0 ∧ (remove compare x t).elems = u ++ v := by
  unfold remove
  split
  · rename_i q hq
    exact .inl ⟨rfl, q, hq⟩
  · rename_i c l a r q hq
    refine .inr ⟨before q ++ l.elems, a, r.elems ++ after q, by simp [elems_of_descend hq], descend_node hq, ?_⟩
    simp [elems_deleteEntry]

/-- An element that compares greater than all of them goes behind them. -/
theorem elems_add_of_greater {compare : α → α → Int} {x : α} {t : TreeSet α} (h : ∀ a ∈ t.elems, 0 < compare x a) :
    (add compare x t).elems = t.elems ++ [x] := by
  have hright : ∀ (u : TreeSet α) (p : List (Frame α)), (∀ a ∈ u.elems, 0 < compare x a) → after p = [] →
      after (descend compare x u p).2 = [] := by
    intro u
    induction u with
    | nil => intro p _ hp; exact hp
    | node c l a r _ ihr =>
      intro p hu hp
      have ha : 0 < compare x a := hu a (by simp)
      rw [descend, if_neg (by omega), if_pos ha]
      exact ihr _ (fun b hb => hu b (by simp [hb])) (by simp [after, Frame.after, hp])
  rcases elems_add compare x t with ⟨-, a, ha, h0⟩ | ⟨q, hq, ht, hadd⟩
  · have := h a ha
    omega
  · have hafter := hright t [] h rfl
    rw [hq] at hafter
    replace hafter : after q = [] := hafter
    rw [hadd, ht, hafter]
    simp

/-! ## Sets -/

variable {κ : Type*}

/-- `compare` is a total order on `S`, whose elements are what their keys are. -/
structure Orders (compare : α → α → Int) (key : α → κ) (S : α → Prop) : Prop where
  antisymm : ∀ a b, S a → S b → (compare a b < 0 ↔ 0 < compare b a)
  trans : ∀ a b c, S a → S b → S c → compare a b ≤ 0 → compare b c ≤ 0 → compare a c ≤ 0
  eq_zero : ∀ a b, S a → S b → (compare a b = 0 ↔ key a = key b)

theorem Orders.mono {compare : α → α → Int} {key : α → κ} {S S' : α → Prop} (h : Orders compare key S)
    (hS : ∀ a, S' a → S a) : Orders compare key S' where
  antisymm a b ha hb := h.antisymm a b (hS a ha) (hS b hb)
  trans a b c ha hb hc := h.trans a b c (hS a ha) (hS b hb) (hS c hc)
  eq_zero a b ha hb := h.eq_zero a b (hS a ha) (hS b hb)

/-- An order on keys is one on whatever has them. -/
theorem Orders.comap {β : Type*} {compare : α → α → Int} {key : α → κ} {S : α → Prop} (h : Orders compare key S)
    (f : β → α) : Orders (fun a b => compare (f a) (f b)) (fun a => key (f a)) fun a => S (f a) where
  antisymm a b := h.antisymm (f a) (f b)
  trans a b c := h.trans (f a) (f b) (f c)
  eq_zero a b := h.eq_zero (f a) (f b)

/-- An order carried over to the images of what it orders. -/
theorem Orders.image {β κ' : Type*} {compare : α → α → Int} {key : α → κ} {S : α → Prop} {compare' : β → β → Int}
    {key' : β → κ'} (h : Orders compare' key' fun _ => True) {f : β → α} (hS : ∀ a, S a → ∃ b, f b = a)
    (hcompare : ∀ a b, compare (f a) (f b) = compare' a b) (hkey : ∀ a b, key (f a) = key (f b) ↔ key' a = key' b) :
    Orders compare key S where
  antisymm a b ha hb := by
    obtain ⟨x, rfl⟩ := hS a ha
    obtain ⟨y, rfl⟩ := hS b hb
    rw [hcompare, hcompare]
    exact h.antisymm x y trivial trivial
  trans a b c ha hb hc := by
    obtain ⟨x, rfl⟩ := hS a ha
    obtain ⟨y, rfl⟩ := hS b hb
    obtain ⟨z, rfl⟩ := hS c hc
    rw [hcompare, hcompare, hcompare]
    exact h.trans x y z trivial trivial trivial
  eq_zero a b ha hb := by
    obtain ⟨x, rfl⟩ := hS a ha
    obtain ⟨y, rfl⟩ := hS b hb
    rw [hcompare, hkey]
    exact h.eq_zero x y trivial trivial

theorem Orders.trans_lt {compare : α → α → Int} {key : α → κ} {S : α → Prop} (h : Orders compare key S) {a b c : α}
    (ha : S a) (hb : S b) (hc : S c) (hab : compare a b < 0) (hbc : compare b c < 0) : compare a c < 0 := by
  by_contra hac
  have hca : compare c a ≤ 0 := by
    by_contra hpos
    exact hac ((h.antisymm a c ha hc).2 (by omega))
  have hcb := h.trans c a b hc ha hb hca (by omega)
  have := (h.antisymm b c hb hc).1 hbc
  omega

/-- The first comparison that tells two elements apart decides. -/
theorem Orders.lex {κ' : Type*} {compare compare' : α → α → Int} {key : α → κ} {key' : α → κ'} {S : α → Prop}
    (h : Orders compare key S) (h' : Orders compare' key' S) :
    Orders (fun a b => if compare a b = 0 then compare' a b else compare a b) (fun a => (key a, key' a)) S where
  antisymm a b ha hb := by
    have hab : compare a b = 0 ↔ compare b a = 0 := by rw [h.eq_zero a b ha hb, h.eq_zero b a hb ha, eq_comm]
    simp only [hab]
    split
    · exact h'.antisymm a b ha hb
    · exact h.antisymm a b ha hb
  trans a b c ha hb hc := by
    intro hab hbc
    by_cases hab0 : compare a b = 0 <;> by_cases hbc0 : compare b c = 0 <;>
      simp only [hab0, hbc0, if_true, if_false] at hab hbc
    · have hkeys := ((h.eq_zero a b ha hb).1 hab0).trans ((h.eq_zero b c hb hc).1 hbc0)
      rw [if_pos ((h.eq_zero a c ha hc).2 hkeys)]
      exact h'.trans a b c ha hb hc hab hbc
    · have hac : compare a c ≠ 0 := by
        rw [Ne, h.eq_zero a c ha hc, (h.eq_zero a b ha hb).1 hab0, ← h.eq_zero b c hb hc]
        exact hbc0
      rw [if_neg hac]
      exact h.trans a b c ha hb hc (by omega) hbc
    · have hac : compare a c ≠ 0 := by
        rw [Ne, h.eq_zero a c ha hc, ← (h.eq_zero b c hb hc).1 hbc0, ← h.eq_zero a b ha hb]
        exact hab0
      rw [if_neg hac]
      exact h.trans a b c ha hb hc hab (by omega)
    · have hac := h.trans_lt ha hb hc (by omega) (by omega)
      rw [if_neg (by omega)]
      omega
  eq_zero a b ha hb := by
    rw [Prod.mk.injEq, ← h.eq_zero a b ha hb, ← h'.eq_zero a b ha hb]
    split
    · rename_i h0
      simp [h0]
    · rename_i h0
      simp [h0]

def Sorted (compare : α → α → Int) (t : TreeSet α) : Prop := t.elems.Pairwise fun a b => compare a b < 0

theorem sorted_nil {compare : α → α → Int} : Sorted compare (nil : TreeSet α) := List.Pairwise.nil

section
variable {compare : α → α → Int} {key : α → κ} {S : α → Prop} {x : α} {t : TreeSet α}

/-- All before the place the search ends at is smaller, all after it greater. -/
theorem descend_between (ho : Orders compare key S) (hx : S x) :
    ∀ (t : TreeSet α) (p : List (Frame α)), (∀ a ∈ t.elems, S a) → Sorted compare t →
      (∀ a ∈ before p, compare a x < 0) → (∀ a ∈ after p, compare x a < 0) →
      (∀ a ∈ before (descend compare x t p).2, compare a x < 0) ∧ ∀ a ∈ after (descend compare x t p).2, compare x a < 0
  | nil, p, _, _, hb, ha => ⟨hb, ha⟩
  | node c l a r, p, hS, hs, hb, ha => by
    rw [Sorted, elems_node, List.pairwise_append, List.pairwise_cons] at hs
    obtain ⟨hl, ⟨har, hr⟩, hlr⟩ := hs
    have hSa : S a := hS a (by simp)
    rw [descend]
    split
    · rename_i hxa
      refine descend_between ho hx l _ (fun b h => hS b (by simp [h])) hl ?_ ?_
      · simpa [before, Frame.before] using hb
      · intro b hbm
        simp only [after, Frame.after, List.cons_append, List.mem_cons, List.mem_append] at hbm
        rcases hbm with rfl | hbm | hbm
        · exact hxa
        · exact ho.trans_lt hx hSa (hS b (by simp [hbm])) hxa (har b hbm)
        · exact ha b hbm
    split
    · rename_i hxa
      have hax : compare a x < 0 := (ho.antisymm a x hSa hx).2 hxa
      refine descend_between ho hx r _ (fun b h => hS b (by simp [h])) hr ?_ ?_
      · intro b hbm
        simp only [before, Frame.before, List.mem_append, List.mem_singleton] at hbm
        rcases hbm with hbm | hbm | rfl
        · exact hb b hbm
        · exact ho.trans_lt (hS b (by simp [hbm])) hSa hx (hlr b hbm a (by simp)) hax
        · exact hax
      · simpa [after, Frame.after] using ha
    · exact ⟨hb, ha⟩

theorem Sorted.nodup_keys (ho : Orders compare key S) (hS : ∀ a ∈ t.elems, S a) (hs : Sorted compare t) :
    (t.elems.map key).Nodup := by
  rw [List.Nodup, List.pairwise_map]
  refine hs.imp_of_mem fun {a b} ha hb hab heq => ?_
  have := (ho.eq_zero a b (hS a ha) (hS b hb)).2 heq
  omega

/-- When the comparison orders them, no element the search passes by is equal. -/
theorem key_notMem_of_descend (ho : Orders compare key S) (hx : S x) (hS : ∀ a ∈ t.elems, S a) (hs : Sorted compare t)
    {q : List (Frame α)} (hq : descend compare x t [] = (nil, q)) : key x ∉ t.elems.map key := by
  have hbetween := descend_between ho hx t [] hS hs (by simp [before]) (by simp [after])
  rw [hq] at hbetween
  have ht := elems_of_descend hq
  simp only [elems_nil, List.append_nil] at ht
  simp only [List.mem_map, not_exists, not_and]
  intro a ha heq
  have h0 : compare a x = 0 := (ho.eq_zero a x (hS a ha) hx).2 heq
  have h0' : compare x a = 0 := (ho.eq_zero x a hx (hS a ha)).2 heq.symm
  rw [ht, List.mem_append] at ha
  rcases ha with ha | ha
  · have := hbetween.1 a ha
    omega
  · have := hbetween.2 a ha
    omega

/-- `add` adds the key. -/
theorem mem_keys_add (ho : Orders compare key S) (hx : S x) (hS : ∀ a ∈ t.elems, S a) (k : κ) :
    k ∈ (add compare x t).elems.map key ↔ k = key x ∨ k ∈ t.elems.map key := by
  rcases elems_add compare x t with ⟨he, a, ha, h0⟩ | ⟨q, -, ht, hadd⟩
  · have hkey : key x = key a := (ho.eq_zero x a hx (hS a ha)).1 h0
    rw [he]
    constructor
    · exact .inr
    · rintro (rfl | h)
      · rw [hkey]
        exact List.mem_map_of_mem ha
      · exact h
  · rw [hadd, ht]
    simp only [List.map_append, List.map_cons, List.mem_append, List.mem_cons]
    tauto

theorem sorted_add (ho : Orders compare key S) (hx : S x) (hS : ∀ a ∈ t.elems, S a) (hs : Sorted compare t) :
    Sorted compare (add compare x t) := by
  rcases elems_add compare x t with ⟨he, -⟩ | ⟨q, hq, ht, hadd⟩
  · rwa [Sorted, he]
  · have hbetween := descend_between ho hx t [] hS hs (by simp [before]) (by simp [after])
    rw [hq] at hbetween
    rw [Sorted, ht, List.pairwise_append] at hs
    rw [Sorted, hadd, List.pairwise_append, List.pairwise_cons]
    refine ⟨hs.1, ⟨hbetween.2, hs.2.1⟩, ?_⟩
    intro a ha b hb
    rcases List.mem_cons.1 hb with rfl | hb
    · exact hbetween.1 a ha
    · exact hs.2.2 a ha b hb

theorem mem_elems_add {a : α} (h : a ∈ (add compare x t).elems) : a = x ∨ a ∈ t.elems := by
  rcases elems_add compare x t with ⟨he, -⟩ | ⟨q, -, ht, hadd⟩
  · rw [he] at h
    exact .inr h
  · rw [hadd] at h
    rw [ht]
    simp only [List.mem_append, List.mem_cons] at h ⊢
    tauto

/-- `remove` takes the key away. -/
theorem mem_keys_remove (ho : Orders compare key S) (hx : S x) (hS : ∀ a ∈ t.elems, S a) (hs : Sorted compare t) (k : κ) :
    k ∈ (remove compare x t).elems.map key ↔ k ∈ t.elems.map key ∧ k ≠ key x := by
  rcases elems_remove compare x t with ⟨he, q, hq⟩ | ⟨u, a, v, ht, h0, hrem⟩
  · have hnot := key_notMem_of_descend ho hx hS hs hq
    rw [he]
    constructor
    · intro h
      exact ⟨h, fun hk => hnot (hk ▸ h)⟩
    · exact And.left
  · have hkey : key x = key a := (ho.eq_zero x a hx (hS a (by simp [ht]))).1 h0
    have hnodup := hs.nodup_keys ho hS
    rw [ht] at hnodup
    simp only [List.map_append, List.map_cons, List.nodup_append, List.nodup_cons] at hnodup
    obtain ⟨-, ⟨hav, -⟩, huv⟩ := hnodup
    rw [hrem, ht, hkey]
    simp only [List.map_append, List.map_cons, List.mem_append, List.mem_cons]
    constructor
    · rintro (h | h)
      · exact ⟨.inl h, huv k h (key a) (by simp)⟩
      · exact ⟨.inr (.inr h), fun hk => hav (hk ▸ h)⟩
    · rintro ⟨h | h | h, hne⟩
      · exact .inl h
      · exact absurd h hne
      · exact .inr h

theorem elems_remove_sublist (compare : α → α → Int) (x : α) (t : TreeSet α) :
    (remove compare x t).elems.Sublist t.elems := by
  rcases elems_remove compare x t with ⟨he, -⟩ | ⟨u, a, v, ht, -, hrem⟩
  · rw [he]
  · rw [ht, hrem]
    exact (List.sublist_cons_self a v).append_left u

theorem Sorted.remove (hs : Sorted compare t) (x : α) : Sorted compare (remove compare x t) :=
  hs.sublist (elems_remove_sublist compare x t)

end

end TreeSet

end Lib
