/-
A priority queue held in a binary heap: entry `k` stands below entry
`(k - 1) / 2`, `add` sifts the new element up from the end, and `poll` takes the
first entry out and sifts the last one down from there.

The comparator says which of two elements goes first, the one that compares as
less. Which of several least elements `peek` finds is left to the shape of the
heap: it is not the one that was added first.
-/
import Mathlib.Data.List.FinRange
import Mathlib.Data.Fin.Tuple.Basic
import Mathlib.Data.List.Perm.Basic

namespace Lib

variable {α : Type} {n : Nat}

namespace Heap

/-- The entry above `k`; the first entry has none and stands above itself. -/
def parent (k : Fin n) : Fin n := ⟨(k - 1) / 2, Nat.lt_of_le_of_lt (by omega) k.isLt⟩

theorem parent_val (k : Fin n) : (parent k).val = (k.val - 1) / 2 := rfl

theorem parent_lt {k : Fin n} (h : 0 < k.val) : (parent k).val < k.val := by
  rw [parent_val]
  omega

section
variable (cmp : α → α → Ordering)

def siftUp (queue : Fin n → α) (k : Fin n) (x : α) : Fin n → α :=
  if h : 0 < k.val then
    have := parent_lt h
    let e := queue (parent k)
    if (cmp x e).isGE then Function.update queue k x
    else siftUp (Function.update queue k e) (parent k) x
  else Function.update queue k x
termination_by k.val

/-- The lesser of the entries below `k`, the left one if they are level. -/
def child (queue : Fin n → α) (k : Fin n) (h : 2 * k.val + 1 < n) : Fin n :=
  if hr : 2 * k.val + 2 < n then
    if (cmp (queue ⟨2 * k + 1, h⟩) (queue ⟨2 * k + 2, hr⟩)).isGT then ⟨2 * k + 2, hr⟩ else ⟨2 * k + 1, h⟩
  else ⟨2 * k + 1, h⟩

theorem child_val (queue : Fin n → α) (k : Fin n) (h : 2 * k.val + 1 < n) :
    (child cmp queue k h).val = 2 * k.val + 1 ∨ (child cmp queue k h).val = 2 * k.val + 2 := by
  rw [child]
  split
  · split <;> simp
  · simp

def siftDown (queue : Fin n → α) (k : Fin n) (x : α) : Fin n → α :=
  if h : 2 * k.val + 1 < n then
    have := child_val cmp queue k h
    let c := child cmp queue k h
    if (cmp x (queue c)).isLE then Function.update queue k x
    else siftDown (Function.update queue k (queue c)) c x
  else Function.update queue k x
termination_by n - k.val
decreasing_by omega

/-! ## The order of a heap -/

/-- No entry comes before the one above it. -/
def Ordered (queue : Fin n → α) : Prop :=
  ∀ i, 0 < i.val → (cmp (queue (parent i)) (queue i)).isLE

/-- A heap but for entry `k`, which may belong further up. -/
structure OrderedBelow (queue : Fin n → α) (k : Fin n) : Prop where
  off : ∀ i, 0 < i.val → i ≠ k → (cmp (queue (parent i)) (queue i)).isLE
  around : 0 < k.val → ∀ i, 0 < i.val → parent i = k → (cmp (queue (parent k)) (queue i)).isLE

/-- A heap but for entry `k`, which may belong further down. -/
structure OrderedAbove (queue : Fin n → α) (k : Fin n) : Prop where
  off : ∀ i, 0 < i.val → parent i ≠ k → (cmp (queue (parent i)) (queue i)).isLE
  around : 0 < k.val → ∀ i, 0 < i.val → parent i = k → (cmp (queue (parent k)) (queue i)).isLE

end

variable {cmp : α → α → Ordering} [Std.TransCmp cmp] {queue : Fin n → α} {k : Fin n} {x : α}

/-- The first entry of a heap comes before no other. -/
theorem Ordered.le (h : Ordered cmp queue) (i j : Fin n) (hi : i.val = 0) : (cmp (queue i) (queue j)).isLE := by
  obtain ⟨j, hj⟩ := j
  induction j using Nat.strongRecOn with
  | ind j ih =>
    by_cases h0 : 0 < j
    · have hp : (parent ⟨j, hj⟩ : Fin n).val < j := parent_lt h0
      exact Std.TransCmp.isLE_trans (ih _ hp (parent ⟨j, hj⟩).isLt) (h ⟨j, hj⟩ h0)
    · have hij : i = ⟨j, hj⟩ := Fin.ext (by dsimp only; omega)
      rw [hij]
      exact Std.ReflCmp.isLE_rfl

/-! ## Sifting up -/

theorem OrderedBelow.move (h : OrderedBelow cmp (Function.update queue k x) k) (hk : 0 < k.val)
    (hlt : ¬ (cmp x (queue (parent k))).isGE) :
    OrderedBelow cmp (Function.update (Function.update queue k (queue (parent k))) (parent k) x) (parent k) := by
  have hpk := parent_lt hk
  have hne : parent k ≠ k := fun he => by rw [he] at hpk; omega
  have hle : (cmp x (queue (parent k))).isLE := by
    revert hlt
    cases cmp x (queue (parent k)) <;> simp
  have hoff : ∀ i, 0 < i.val → i ≠ k → parent i ≠ k → (cmp (queue (parent i)) (queue i)).isLE := fun i hi hik hpi => by
    simpa only [Function.update_of_ne hik, Function.update_of_ne hpi] using h.off i hi hik
  have hover : 0 < (parent k).val → (cmp (queue (parent (parent k))) (queue (parent k))).isLE := fun hp =>
    hoff (parent k) hp hne fun he => by have := parent_lt hp; rw [he] at this; omega
  refine ⟨fun i hi hip => ?_, fun hp i hi hpi => ?_⟩
  · rw [Function.update_of_ne hip]
    by_cases hik : i = k
    · -- the element now stands where its parent was
      subst hik
      rwa [Function.update_self, Function.update_self]
    · rw [Function.update_of_ne hik]
      by_cases hpip : parent i = parent k
      · rw [hpip, Function.update_self]
        have := hoff i hi hik (by rwa [hpip])
        rw [hpip] at this
        exact Std.TransCmp.isLE_trans hle this
      · rw [Function.update_of_ne hpip]
        by_cases hpik : parent i = k
        · rw [hpik, Function.update_self]
          simpa only [Function.update_of_ne hik, Function.update_of_ne hne] using h.around hk i hi hpik
        · rw [Function.update_of_ne hpik]
          exact hoff i hi hik hpik
  · have hpp := parent_lt hp
    have hppk : parent (parent k) ≠ k := fun he => by rw [he] at hpp; omega
    have hppp : parent (parent k) ≠ parent k := fun he => by rw [he] at hpp; omega
    have hip : i ≠ parent k := fun he => by have := parent_lt hi; rw [hpi, he] at this; omega
    rw [Function.update_of_ne hppp, Function.update_of_ne hppk, Function.update_of_ne hip]
    by_cases hik : i = k
    · subst hik
      rw [Function.update_self]
      exact hover hp
    · rw [Function.update_of_ne hik]
      have := hoff i hi hik (by rwa [hpi])
      rw [hpi] at this
      exact Std.TransCmp.isLE_trans (hover hp) this

omit [Std.TransCmp cmp] in
theorem OrderedBelow.ordered (h : OrderedBelow cmp queue k)
    (hk : 0 < k.val → (cmp (queue (parent k)) (queue k)).isLE) : Ordered cmp queue := fun i hi => by
  by_cases hik : i = k
  · subst hik
    exact hk hi
  · exact h.off i hi hik

theorem siftUp_ordered (h : OrderedBelow cmp (Function.update queue k x) k) : Ordered cmp (siftUp cmp queue k x) := by
  fun_induction siftUp cmp queue k x with
  | case1 queue k hk hlt e hge =>
    refine h.ordered fun _ => ?_
    rw [Function.update_self, Function.update_of_ne fun he => by rw [he] at hlt; omega]
    exact Std.OrientedCmp.isGE_iff_isLE.mp hge
  | case2 queue k hk hlt e hge ih => exact ih (h.move hk hge)
  | case3 queue k hk => exact h.ordered fun h0 => absurd h0 hk

/-! ## Sifting down -/

theorem eq_or_eq_of_parent {i k : Fin n} (hi : 0 < i.val) (hp : parent i = k) :
    i.val = 2 * k.val + 1 ∨ i.val = 2 * k.val + 2 := by
  subst hp
  rw [parent_val]
  omega

omit [Std.TransCmp cmp] in
theorem parent_child (h : 2 * k.val + 1 < n) : parent (child cmp queue k h) = k := by
  refine Fin.ext ?_
  rw [parent_val]
  have := child_val cmp queue k h
  omega

/-- The child is the lesser of the entries below. -/
theorem child_le (h : 2 * k.val + 1 < n) {i : Fin n} (hi : 0 < i.val) (hp : parent i = k) :
    (cmp (queue (child cmp queue k h)) (queue i)).isLE := by
  rw [child]
  rcases eq_or_eq_of_parent hi hp with hv | hv
  · obtain rfl : i = ⟨2 * k + 1, h⟩ := Fin.ext hv
    split
    · next hr =>
      split
      · next hgt => exact Std.OrientedCmp.isGE_iff_isLE.mp (by revert hgt; cases cmp _ _ <;> simp)
      · exact Std.ReflCmp.isLE_rfl
    · exact Std.ReflCmp.isLE_rfl
  · have hr : 2 * k.val + 2 < n := hv ▸ i.isLt
    obtain rfl : i = ⟨2 * k + 2, hr⟩ := Fin.ext hv
    rw [dif_pos hr]
    split
    · exact Std.ReflCmp.isLE_rfl
    · next hgt =>
      revert hgt
      cases cmp _ _ <;> simp

theorem OrderedAbove.move (h : OrderedAbove cmp (Function.update queue k x) k) (hk : 2 * k.val + 1 < n)
    (hgt : ¬ (cmp x (queue (child cmp queue k hk))).isLE) :
    OrderedAbove cmp
      (Function.update (Function.update queue k (queue (child cmp queue k hk))) (child cmp queue k hk) x)
      (child cmp queue k hk) := by
  have hmin : ∀ i : Fin n, 0 < i.val → parent i = k → (cmp (queue (child cmp queue k hk)) (queue i)).isLE :=
    fun i hi hp => child_le hk hi hp
  have hpc : parent (child cmp queue k hk) = k := parent_child hk
  have hval := child_val cmp queue k hk
  generalize child cmp queue k hk = c at *
  have hc : 0 < c.val := by omega
  have hck : c ≠ k := fun he => by rw [he] at hval; omega
  have hle : (cmp (queue c) x).isLE := Std.OrientedCmp.isGE_iff_isLE.mp (by revert hgt; cases cmp x (queue c) <;> simp)
  refine ⟨fun i hi hpi => ?_, fun _ i hi hpi => ?_⟩
  · rw [Function.update_of_ne hpi]
    by_cases hic : i = c
    · subst hic
      rwa [hpc, Function.update_self, Function.update_self]
    · rw [Function.update_of_ne hic]
      by_cases hik : i = k
      · -- the entry above takes the child instead
        subst hik
        have hp := parent_lt hi
        have hne : parent i ≠ i := fun he => by rw [he] at hp; omega
        rw [Function.update_self, Function.update_of_ne hne]
        simpa only [Function.update_of_ne hne, Function.update_of_ne hck] using h.around hi c hc hpc
      · rw [Function.update_of_ne hik]
        by_cases hpk : parent i = k
        · rw [hpk, Function.update_self]
          exact hmin i hi hpk
        · rw [Function.update_of_ne hpk]
          simpa only [Function.update_of_ne hik, Function.update_of_ne hpk] using h.off i hi hpk
  · have hv := eq_or_eq_of_parent hi hpi
    have hic : i ≠ c := fun he => by rw [he] at hv; omega
    have hik : i ≠ k := fun he => by rw [he] at hv; omega
    rw [hpc, Function.update_of_ne hck.symm, Function.update_self, Function.update_of_ne hic,
      Function.update_of_ne hik]
    have := h.off i hi (by rw [hpi]; exact hck)
    rwa [hpi, Function.update_of_ne hck, Function.update_of_ne hik] at this

omit [Std.TransCmp cmp] in
theorem OrderedAbove.ordered (h : OrderedAbove cmp queue k)
    (hk : ∀ i, 0 < i.val → parent i = k → (cmp (queue k) (queue i)).isLE) : Ordered cmp queue := fun i hi => by
  by_cases hp : parent i = k
  · rw [hp]
    exact hk i hi hp
  · exact h.off i hi hp

theorem siftDown_ordered (h : OrderedAbove cmp (Function.update queue k x) k) :
    Ordered cmp (siftDown cmp queue k x) := by
  fun_induction siftDown cmp queue k x with
  | case1 queue k hk hval c hle =>
    refine h.ordered fun i hi hp => ?_
    have hik : i ≠ k := fun he => by have := eq_or_eq_of_parent hi hp; rw [he] at this; omega
    rw [Function.update_self, Function.update_of_ne hik]
    exact Std.TransCmp.isLE_trans hle (child_le hk hi hp)
  | case2 queue k hk hval c hle ih => exact ih (h.move hk hle)
  | case3 queue k hk =>
    refine h.ordered fun i hi hp => ?_
    have := eq_or_eq_of_parent hi hp
    omega

/-! ## What a heap holds -/

/-- Moving an entry to the place of another and putting the element there
instead exchanges the two. -/
theorem ofFn_move_perm (c : Fin n) :
    (List.ofFn (Function.update (Function.update queue k (queue c)) c x)).Perm (List.ofFn (Function.update queue k x)) := by
  have h : Function.update (Function.update queue k (queue c)) c x = Function.update queue k x ∘ Equiv.swap k c := by
    funext i
    rw [Function.comp_apply, Equiv.swap_apply_def]
    by_cases hik : i = k
    · subst hik
      rw [if_pos rfl]
      by_cases hic : i = c
      · subst hic
        rw [Function.update_self, Function.update_self]
      · rw [Function.update_of_ne hic, Function.update_self, Function.update_of_ne (Ne.symm hic)]
    · rw [if_neg hik]
      by_cases hic : i = c
      · subst hic
        rw [Function.update_self, if_pos rfl, Function.update_self]
      · rw [if_neg hic, Function.update_of_ne hic, Function.update_of_ne hik, Function.update_of_ne hik]
  rw [h]
  exact (Equiv.swap k c).ofFn_comp_perm _

omit [Std.TransCmp cmp] in
theorem siftUp_perm : (List.ofFn (siftUp cmp queue k x)).Perm (List.ofFn (Function.update queue k x)) := by
  fun_induction siftUp cmp queue k x with
  | case1 => exact List.Perm.refl _
  | case2 queue k hk hlt e hge ih => exact ih.trans (ofFn_move_perm (parent k))
  | case3 => exact List.Perm.refl _

omit [Std.TransCmp cmp] in
theorem siftDown_perm : (List.ofFn (siftDown cmp queue k x)).Perm (List.ofFn (Function.update queue k x)) := by
  fun_induction siftDown cmp queue k x with
  | case1 => exact List.Perm.refl _
  | case2 queue k hk hval c hle ih => exact ih.trans (ofFn_move_perm c)
  | case3 => exact List.Perm.refl _

omit [Std.TransCmp cmp] in
/-- With an entry added at the end, a heap but for that one. -/
theorem Ordered.orderedBelow_snoc (h : Ordered cmp queue) (y : α) :
    OrderedBelow cmp (Function.update (Fin.snoc (α := fun _ => α) queue y) (Fin.last n) x) (Fin.last n) := by
  have hcast : ∀ i : Fin (n + 1), ∀ hi : i.val < n,
      Function.update (Fin.snoc (α := fun _ => α) queue y) (Fin.last n) x i = queue ⟨i, hi⟩ := fun i hi => by
    rw [Function.update_of_ne fun he => by rw [he] at hi; exact absurd hi (Nat.lt_irrefl n)]
    simp [Fin.snoc, hi, Fin.castLT]
  refine ⟨fun i hi hne => ?_, fun _ i hi hp => ?_⟩
  · have hin : i.val < n := Nat.lt_of_le_of_ne (Nat.le_of_lt_succ i.isLt) fun he => hne (Fin.ext he)
    rw [hcast i hin, hcast (parent i) (Nat.lt_trans (parent_lt hi) hin)]
    exact h ⟨i, hin⟩ hi
  · have := parent_lt hi
    rw [hp] at this
    exact absurd i.isLt (Nat.not_lt.mpr this)

omit [Std.TransCmp cmp] in
/-- With the last entry taken off, a heap but for the first. -/
theorem Ordered.orderedAbove_init {queue : Fin (n + 1) → α} (h : Ordered cmp queue) (hn : 0 < n) :
    OrderedAbove cmp (Function.update (Fin.init (α := fun _ => α) queue) ⟨0, hn⟩ x) ⟨0, hn⟩ := by
  refine ⟨fun i hi hp => ?_, fun h0 => absurd h0 (Nat.lt_irrefl 0)⟩
  have hi0 : i ≠ ⟨0, hn⟩ := fun he => by rw [he] at hi; exact Nat.lt_irrefl 0 hi
  rw [Function.update_of_ne hp, Function.update_of_ne hi0]
  exact h i.castSucc hi

/-! ## Elements that stay where they are -/

omit [Std.TransCmp cmp] in
theorem siftUp_of_isGE (h : 0 < k.val → (cmp x (queue (parent k))).isGE) :
    siftUp cmp queue k x = Function.update queue k x := by
  rw [siftUp]
  split
  next hk => exact if_pos (h hk)
  next => rfl

omit [Std.TransCmp cmp] in
theorem siftDown_of_isLE (h : ∀ hc : 2 * k.val + 1 < n, (cmp x (queue (child cmp queue k hc))).isLE) :
    siftDown cmp queue k x = Function.update queue k x := by
  rw [siftDown]
  split
  next hc => exact if_pos (h hc)
  next => rfl

/-! ## An element in the place of another -/

/-- Puts an element in the place of entry `k`, and sifts it down from there, or up. -/
def replaceAt (cmp : α → α → Ordering) [DecidableEq α] (queue : Fin n → α) (k : Fin n) (x : α) : Fin n → α :=
  let queue' := siftDown cmp queue k x
  if queue' k = x then siftUp cmp queue' k x else queue'

/-- The entries around any one are in order. -/
theorem Ordered.orderedBelow (h : Ordered cmp queue) (k : Fin n) : OrderedBelow cmp queue k where
  off i hi _ := h i hi
  around hk i hi hp := by
    have hparent := h i hi
    rw [hp] at hparent
    exact Std.TransCmp.isLE_trans (h k hk) hparent

theorem Ordered.orderedAbove_update (h : Ordered cmp queue) (hx : 0 < k.val → (cmp (queue (parent k)) x).isLE) :
    OrderedAbove cmp (Function.update queue k x) k where
  off i hi hp := by
    rw [Function.update_of_ne hp]
    by_cases hik : i = k
    · subst hik
      rw [Function.update_self]
      exact hx hi
    · rw [Function.update_of_ne hik]
      exact h i hi
  around hk i hi hp := by
    have hpk : parent k ≠ k := fun he => by have := parent_lt hk; rw [he] at this; omega
    have hik : i ≠ k := fun he => by have := parent_lt hi; rw [hp, he] at this; omega
    rw [Function.update_of_ne hpk, Function.update_of_ne hik]
    exact (h.orderedBelow k).around hk i hi hp

theorem Ordered.orderedBelow_update (h : Ordered cmp queue) (hx : 0 < k.val → (cmp x (queue (parent k))).isLE)
    (hfirst : k.val = 0 → ∀ i, 0 < i.val → parent i = k → (cmp x (queue i)).isLE) :
    OrderedBelow cmp (Function.update queue k x) k where
  off i hi hik := by
    rw [Function.update_of_ne hik]
    by_cases hp : parent i = k
    · rw [hp, Function.update_self]
      by_cases hk : 0 < k.val
      · exact Std.TransCmp.isLE_trans (hx hk) ((h.orderedBelow k).around hk i hi hp)
      · exact hfirst (by omega) i hi hp
    · rw [Function.update_of_ne hp]
      exact h i hi
  around hk i hi hp := by
    have hpk : parent k ≠ k := fun he => by have := parent_lt hk; rw [he] at this; omega
    have hik : i ≠ k := fun he => by have := parent_lt hi; rw [hp, he] at this; omega
    rw [Function.update_of_ne hpk, Function.update_of_ne hik]
    exact (h.orderedBelow k).around hk i hi hp

theorem Ordered.init {queue : Fin (n + 1) → α} {cmp : α → α → Ordering} (h : Ordered cmp queue) :
    Ordered cmp (Fin.init (α := fun _ => α) queue) := fun i hi => h i.castSucc hi

theorem replaceAt_ordered [DecidableEq α] (h : Ordered cmp queue) (k : Fin n) (x : α) :
    Ordered cmp (replaceAt cmp queue k x) := by
  unfold replaceAt
  by_cases hx : 0 < k.val → (cmp (queue (parent k)) x).isLE
  · -- the element may belong further down; there is nothing to do upwards
    have hdown := siftDown_ordered (h.orderedAbove_update hx)
    dsimp only
    split
    next heq =>
      refine siftUp_ordered ?_
      rw [Function.update_eq_self_iff.mpr heq.symm]
      exact hdown.orderedBelow k
    next => exact hdown
  · -- it comes before the entry above, and so before those below
    push Not at hx
    obtain ⟨hk, hgt⟩ := hx
    have hle : (cmp x (queue (parent k))).isLE := by
      rw [← Std.OrientedCmp.isGE_iff_isLE]
      revert hgt
      cases cmp (queue (parent k)) x <;> simp
    have hbelow : ∀ i, 0 < i.val → parent i = k → (cmp x (queue i)).isLE := fun i hi hp =>
      Std.TransCmp.isLE_trans hle ((h.orderedBelow k).around hk i hi hp)
    have hstop : siftDown cmp queue k x = Function.update queue k x := by
      refine siftDown_of_isLE fun hc => hbelow _ ?_ (parent_child hc)
      have := child_val cmp queue k hc
      omega
    dsimp only
    rw [hstop, Function.update_self, if_pos rfl]
    refine siftUp_ordered ?_
    rw [Function.update_idem]
    exact h.orderedBelow_update (fun _ => hle) fun _ => hbelow

omit [Std.TransCmp cmp] in
theorem replaceAt_perm [DecidableEq α] : (List.ofFn (replaceAt cmp queue k x)).Perm (List.ofFn (Function.update queue k x)) := by
  unfold replaceAt
  dsimp only
  split
  next heq =>
    refine siftUp_perm.trans ?_
    rw [Function.update_eq_self_iff.mpr heq.symm]
    exact siftDown_perm
  next => exact siftDown_perm

/-! ## The first entry -/

omit [Std.TransCmp cmp] in
theorem siftDown_first (hk : 0 < k.val) (hn : 0 < n) : siftDown cmp queue k x ⟨0, hn⟩ = queue ⟨0, hn⟩ := by
  have hne : ∀ {k : Fin n}, 0 < k.val → (⟨0, hn⟩ : Fin n) ≠ k := fun h he => by rw [← he] at h; exact Nat.lt_irrefl 0 h
  fun_induction siftDown cmp queue k x with
  | case1 queue k hc hval c hle => rw [Function.update_of_ne (hne hk)]
  | case2 queue k hc hval c hle ih =>
    rw [ih (by omega), Function.update_of_ne (hne hk)]
  | case3 queue k hc => rw [Function.update_of_ne (hne hk)]

/-- No element that does not come before the first entry takes its place. -/
theorem siftUp_first (hk : 0 < k.val) (hn : 0 < n) (hx : (cmp (queue ⟨0, hn⟩) x).isLE) :
    siftUp cmp queue k x ⟨0, hn⟩ = queue ⟨0, hn⟩ := by
  have hne : ∀ {k : Fin n}, 0 < k.val → (⟨0, hn⟩ : Fin n) ≠ k := fun h he => by rw [← he] at h; exact Nat.lt_irrefl 0 h
  fun_induction siftUp cmp queue k x with
  | case1 queue k h0 hlt e hge => rw [Function.update_of_ne (hne hk)]
  | case2 queue k h0 hlt e hge ih =>
    have hp : 0 < (parent k).val := by
      by_contra hp
      have hparent : parent k = ⟨0, hn⟩ := Fin.ext (by dsimp only; omega)
      refine hge (Std.OrientedCmp.isGE_iff_isLE.mpr ?_)
      rwa [← hparent] at hx
    rw [ih hp (by rwa [Function.update_of_ne (hne hk)]), Function.update_of_ne (hne hk)]
  | case3 queue k h0 => exact absurd hk h0

theorem replaceAt_first [DecidableEq α] (h : Ordered cmp queue) (hk : 0 < k.val) (hn : 0 < n)
    (hx : (cmp (queue ⟨0, hn⟩) x).isLE) : replaceAt cmp queue k x ⟨0, hn⟩ = queue ⟨0, hn⟩ := by
  have hdown : siftDown cmp queue k x ⟨0, hn⟩ = queue ⟨0, hn⟩ := siftDown_first hk hn
  unfold replaceAt
  split
  next => rw [siftUp_first hk hn (by rwa [hdown]), hdown]
  next => exact hdown

end Heap

/-- The entries of a heap, the first one least. -/
structure PriorityQueue (cmp : α → α → Ordering) where
  size : Nat
  queue : Fin size → α
  ordered : Heap.Ordered cmp queue

namespace PriorityQueue

variable {cmp : α → α → Ordering}

def empty : PriorityQueue cmp := ⟨0, Fin.elim0, fun i => i.elim0⟩

/-- What the queue holds, in the order of the heap. -/
def toList (q : PriorityQueue cmp) : List α := List.ofFn q.queue

def peek (q : PriorityQueue cmp) : Option α :=
  if h : 0 < q.size then some (q.queue ⟨0, h⟩) else none

variable [Std.TransCmp cmp]

def add (q : PriorityQueue cmp) (x : α) : PriorityQueue cmp where
  size := q.size + 1
  queue := Heap.siftUp cmp (Fin.snoc (α := fun _ => α) q.queue x) (Fin.last q.size) x
  ordered := Heap.siftUp_ordered (q.ordered.orderedBelow_snoc x)

/-- The queue without the entry `peek` finds. -/
def poll : PriorityQueue cmp → PriorityQueue cmp
  | ⟨0, _, _⟩ => empty
  | ⟨n + 1, queue, ordered⟩ =>
    if h : 0 < n then
      ⟨n, Heap.siftDown cmp (Fin.init (α := fun _ => α) queue) ⟨0, h⟩ (queue (Fin.last n)),
        Heap.siftDown_ordered (ordered.orderedAbove_init h)⟩
    else empty

variable {q : PriorityQueue cmp} {a b x : α}

omit [Std.TransCmp cmp] in
theorem peek_eq_none : q.peek = none ↔ q.toList = [] := by
  rw [peek, toList, List.ofFn_eq_nil_iff]
  split
  · next h => exact iff_of_false (by simp) (by omega)
  · next h => exact iff_of_true rfl (by omega)

omit [Std.TransCmp cmp] in
theorem mem_of_peek (h : q.peek = some a) : a ∈ q.toList := by
  rw [peek] at h
  split at h
  · next h0 =>
    cases h
    exact List.mem_ofFn.mpr ⟨⟨0, h0⟩, rfl⟩
  · cases h

/-- Nothing in the queue comes before what `peek` finds. -/
theorem peek_le (h : q.peek = some a) (hb : b ∈ q.toList) : (cmp a b).isLE := by
  obtain ⟨j, rfl⟩ := List.mem_ofFn.mp hb
  rw [peek] at h
  split at h
  · next h0 =>
    cases h
    exact q.ordered.le ⟨0, h0⟩ j rfl
  · cases h

theorem toList_add : (q.add x).toList.Perm (x :: q.toList) := by
  have hsift : (q.add x).toList.Perm
      (List.ofFn (Function.update (Fin.snoc (α := fun _ => α) q.queue x) (Fin.last q.size) x)) := Heap.siftUp_perm
  have hsnoc : Function.update (Fin.snoc (α := fun _ => α) q.queue x) (Fin.last q.size) x =
      Fin.snoc (α := fun _ => α) q.queue x := Fin.update_snoc_last ..
  rw [hsnoc, List.ofFn_succ'] at hsift
  simp only [Fin.snoc_castSucc, Fin.snoc_last, List.concat_eq_append] at hsift
  exact hsift.trans (List.perm_append_singleton x _)

/-- There is nothing to poll from an empty queue. -/
theorem poll_of_peek_none (h : q.peek = none) : q.poll = q := by
  obtain ⟨n, queue, ordered⟩ := q
  cases n with
  | zero =>
    obtain rfl : queue = Fin.elim0 := funext fun i => i.elim0
    rfl
  | succ n => simp [peek] at h

theorem size_poll (h : q.peek = some a) : q.poll.size < q.size := by
  obtain ⟨n, queue, ordered⟩ := q
  cases n with
  | zero => cases h
  | succ n =>
    rw [poll]
    split
    · exact Nat.lt_succ_self n
    · exact Nat.succ_pos n

/-- `poll` takes out what `peek` finds, and nothing else. -/
theorem toList_poll (h : q.peek = some a) : q.toList.Perm (a :: q.poll.toList) := by
  obtain ⟨n, queue, ordered⟩ := q
  cases n with
  | zero => cases h
  | succ n =>
    obtain rfl : queue 0 = a := by simpa [peek] using h
    have hlist : toList ⟨n + 1, queue, ordered⟩ = queue 0 :: List.ofFn fun i => queue i.succ := List.ofFn_succ
    rw [hlist]
    refine List.Perm.cons _ ?_
    rw [poll]
    cases n with
    | zero => simp [empty, toList]
    | succ n =>
      rw [dif_pos (Nat.succ_pos n)]
      refine List.Perm.symm (Heap.siftDown_perm.trans ?_)
      have hfirst : Function.update (Fin.init (α := fun _ => α) queue) ⟨0, Nat.succ_pos n⟩ (queue (Fin.last (n + 1))) =
          Fin.cons (α := fun _ => α) (queue (Fin.last (n + 1))) (Fin.tail (Fin.init (α := fun _ => α) queue)) := by
        funext i
        cases i using Fin.cases with
        | zero => rfl
        | succ i => simp [Function.update_of_ne, Fin.tail]
      have hrest : (fun i : Fin n => queue i.castSucc.succ) = Fin.tail (Fin.init (α := fun _ => α) queue) := rfl
      rw [hfirst, List.ofFn_cons, List.ofFn_succ', Fin.succ_last, hrest, List.concat_eq_append]
      exact (List.perm_append_singleton _ _).symm

/-! ## Polling until the queue is empty -/

/-- The entries in the order in which they are polled, at most this many. -/
def pollAll : Nat → PriorityQueue cmp → List α
  | 0, _ => []
  | n + 1, q =>
    match q.peek with
    | none => []
    | some a => a :: pollAll n q.poll

theorem pollAll_perm {n : Nat} (hn : q.size ≤ n) : (pollAll n q).Perm q.toList := by
  induction n generalizing q with
  | zero =>
    obtain ⟨size, queue, ordered⟩ := q
    obtain rfl : size = 0 := by simpa using hn
    simp [pollAll, toList]
  | succ n ih =>
    rw [pollAll]
    cases h : q.peek with
    | none => simp [peek_eq_none.mp h]
    | some a =>
      have hsize := size_poll h
      exact ((ih (by omega)).cons a).trans (toList_poll h).symm

/-- What is polled earlier does not come after what is polled later. -/
theorem pollAll_sorted {n : Nat} (hn : q.size ≤ n) : (pollAll n q).Pairwise fun a b => (cmp a b).isLE := by
  induction n generalizing q with
  | zero => exact .nil
  | succ n ih =>
    rw [pollAll]
    cases h : q.peek with
    | none => exact .nil
    | some a =>
      have hsize := size_poll h
      refine List.pairwise_cons.mpr ⟨fun b hb => ?_, ih (by omega)⟩
      have hmem : b ∈ q.poll.toList := (pollAll_perm (by omega)).mem_iff.mp hb
      exact peek_le h ((toList_poll h).mem_iff.mpr (List.mem_cons_of_mem _ hmem))

/-! ## Entries that are all level -/

/-- The first, then from the last one backwards. -/
def firstThenBackwards : List α → List α
  | [] => []
  | a :: l => a :: l.reverse

/-- An entry level with all the others is sifted nowhere. -/
theorem toList_add_level (hlevel : ∀ b ∈ q.toList, cmp x b = .eq) : (q.add x).toList = q.toList ++ [x] := by
  have hadd : (q.add x).toList =
      List.ofFn (Heap.siftUp cmp (Fin.snoc (α := fun _ => α) q.queue x) (Fin.last q.size) x) := rfl
  have hself : Function.update (Fin.snoc (α := fun _ => α) q.queue x) (Fin.last q.size) x =
      Fin.snoc (α := fun _ => α) q.queue x := Fin.update_snoc_last ..
  rw [hadd, Heap.siftUp_of_isGE, hself, List.ofFn_succ']
  · simp only [Fin.snoc_castSucc, Fin.snoc_last, List.concat_eq_append]
    rfl
  · intro hk
    have hlt : (q.size - 1) / 2 < q.size := by
      rw [Fin.val_last] at hk
      omega
    have hparent : Heap.parent (Fin.last q.size) = (⟨_, hlt⟩ : Fin q.size).castSucc := Fin.ext rfl
    rw [hparent, Fin.snoc_castSucc, hlevel _ (List.mem_ofFn.mpr ⟨_, rfl⟩)]
    rfl

/-- The last entry takes the place of the one that is polled. -/
theorem toList_poll_level (hlevel : ∀ a ∈ q.toList, ∀ b ∈ q.toList, cmp a b = .eq) {l : List α}
    (h : q.toList = a :: (l ++ [b])) : q.poll.toList = b :: l := by
  obtain ⟨n, queue, ordered⟩ := q
  have hlength := congrArg List.length h
  simp only [toList, List.length_ofFn, List.length_cons, List.length_append, List.length_nil] at hlength
  obtain ⟨n, rfl⟩ : ∃ m, n = m + 1 + 1 := ⟨l.length, by omega⟩
  have hpos : 0 < n + 1 := Nat.succ_pos n
  have hpoll : (poll ⟨n + 1 + 1, queue, ordered⟩).toList = List.ofFn
      (Heap.siftDown cmp (Fin.init (α := fun _ => α) queue) ⟨0, hpos⟩ (queue (Fin.last (n + 1)))) := by
    rw [poll, dif_pos hpos]
    rfl
  have hfirst : Function.update (Fin.init (α := fun _ => α) queue) ⟨0, hpos⟩ (queue (Fin.last (n + 1))) =
      Fin.cons (α := fun _ => α) (queue (Fin.last (n + 1))) (Fin.tail (Fin.init (α := fun _ => α) queue)) := by
    funext i
    cases i using Fin.cases with
    | zero => rfl
    | succ i => simp [Function.update_of_ne, Fin.tail]
  have hlist : toList ⟨n + 1 + 1, queue, ordered⟩ =
      queue 0 :: (List.ofFn (Fin.tail (Fin.init (α := fun _ => α) queue)) ++ [queue (Fin.last (n + 1))]) := by
    rw [toList, List.ofFn_succ, List.ofFn_succ', Fin.succ_last, List.concat_eq_append]
    rfl
  rw [hlist, List.cons.injEq] at h
  obtain ⟨hinit, hlast⟩ := List.append_inj' h.2 rfl
  rw [hpoll, Heap.siftDown_of_isLE, hfirst, List.ofFn_cons, hinit, (List.cons.inj hlast).1]
  intro hc
  have hmem : ∀ i, queue i ∈ toList ⟨n + 1 + 1, queue, ordered⟩ := fun i => List.mem_ofFn.mpr ⟨i, rfl⟩
  have heq : cmp (queue (Fin.last (n + 1)))
      (Fin.init (α := fun _ => α) queue (Heap.child cmp (Fin.init (α := fun _ => α) queue) ⟨0, hpos⟩ hc)) = .eq :=
    hlevel _ (hmem _) _ (hmem _)
  rw [heq]
  rfl

/-- Entries that are all level are polled from the last one backwards, but for
the first. -/
theorem pollAll_level {n : Nat} (hn : q.size ≤ n) (hlevel : ∀ a ∈ q.toList, ∀ b ∈ q.toList, cmp a b = .eq) :
    pollAll n q = firstThenBackwards q.toList := by
  induction n generalizing q with
  | zero =>
    obtain ⟨size, queue, ordered⟩ := q
    obtain rfl : size = 0 := by simpa using hn
    rfl
  | succ n ih =>
    rw [pollAll]
    cases h : q.peek with
    | none => rw [peek_eq_none.mp h]; rfl
    | some a =>
      have hsize := size_poll h
      have hperm := toList_poll h
      have hfirst : ∃ l, q.toList = a :: l := by
        rw [peek] at h
        split at h
        next h0 =>
          obtain ⟨size, queue, ordered⟩ := q
          obtain ⟨size, rfl⟩ : ∃ m, size = m + 1 := ⟨size - 1, by dsimp only at h0; omega⟩
          cases h
          exact ⟨_, List.ofFn_succ⟩
        next => cases h
      obtain ⟨l, hl⟩ := hfirst
      rcases List.eq_nil_or_concat l with rfl | ⟨l, b, rfl⟩
      · have hnil : q.poll.toList = [] := by
          rw [hl] at hperm
          exact List.nil_perm.mp ((List.perm_cons a).mp hperm)
        have hrest := pollAll_perm (q := q.poll) (n := n) (by omega)
        rw [hnil, List.perm_nil] at hrest
        rw [hl, hrest]
        rfl
      · rw [List.concat_eq_append] at hl
        have hpoll := toList_poll_level hlevel hl
        have hsub : ∀ c ∈ q.poll.toList, c ∈ q.toList := fun c hc => hperm.mem_iff.mpr (List.mem_cons_of_mem _ hc)
        have hrest := ih (q := q.poll) (by omega) fun c hc d hd => hlevel c (hsub c hc) d (hsub d hd)
        rw [hrest, hpoll, hl]
        simp [firstThenBackwards]

/-! ## A queue that is filled from a list -/

theorem toList_foldl_add (l : List α) : (l.foldl add q).toList.Perm (q.toList ++ l) := by
  induction l generalizing q with
  | nil => simp
  | cons x l ih => exact (ih (q := q.add x)).trans ((toList_add.append_right l).trans List.perm_middle.symm)

theorem toList_foldl_add_level {l : List α} (hlevel : ∀ a ∈ q.toList ++ l, ∀ b ∈ q.toList ++ l, cmp a b = .eq) :
    (l.foldl add q).toList = q.toList ++ l := by
  induction l generalizing q with
  | nil => simp
  | cons x l ih =>
    have hadd : (q.add x).toList = q.toList ++ [x] :=
      toList_add_level fun b hb => hlevel x (by simp) b (List.mem_append_left _ hb)
    rw [List.foldl_cons, ih (by rw [hadd, List.append_assoc]; exact hlevel), hadd, List.append_assoc]
    rfl

/-! ## Taking out an entry -/

variable [DecidableEq α]

/-- The queue without entry `i`: the last one takes its place. -/
def removeAt : (q : PriorityQueue cmp) → Fin q.size → PriorityQueue cmp
  | ⟨n + 1, queue, ordered⟩, i =>
    if h : i.val < n then
      ⟨n, Heap.replaceAt cmp (Fin.init (α := fun _ => α) queue) ⟨i, h⟩ (queue (Fin.last n)),
        Heap.replaceAt_ordered (Heap.Ordered.init ordered) _ _⟩
    else ⟨n, Fin.init (α := fun _ => α) queue, Heap.Ordered.init ordered⟩

omit [DecidableEq α] [Std.TransCmp cmp] in
theorem toList_succ (queue : Fin (n + 1) → α) (ordered : Heap.Ordered cmp queue) :
    toList ⟨n + 1, queue, ordered⟩ = List.ofFn (Fin.init (α := fun _ => α) queue) ++ [queue (Fin.last n)] := by
  rw [toList, List.ofFn_succ', List.concat_eq_append]
  rfl

theorem toList_removeAt (q : PriorityQueue cmp) (i : Fin q.size) : q.toList.Perm (q.queue i :: (q.removeAt i).toList) := by
  obtain ⟨n, queue, ordered⟩ := q
  cases n with
  | zero => exact i.elim0
  | succ n =>
    rw [toList_succ]
    by_cases h : i.val < n
    · rw [removeAt, dif_pos h]
      -- the last entry instead of the entry, and the entry instead of the last one
      set init := Fin.init (α := fun _ => α) queue with hinit
      have hreplace : (toList ⟨n, Heap.replaceAt cmp init ⟨i, h⟩ (queue (Fin.last n)),
          Heap.replaceAt_ordered (Heap.Ordered.init ordered) _ _⟩).Perm
            ((List.ofFn init).set i.val (queue (Fin.last n))) := by
        refine Heap.replaceAt_perm.trans (List.Perm.of_eq ?_)
        apply List.ext_getElem
        · simp
        · intro j hj hj'
          have hjn : j < n := by simpa using hj
          by_cases hij : j = i.val
          · subst hij
            simp
          · have hne : (⟨j, hjn⟩ : Fin n) ≠ ⟨i.val, h⟩ := fun he => hij (congrArg Fin.val he)
            simp [Function.update_of_ne hne, List.getElem_set_ne (Ne.symm hij)]
      have hi : i.val < (List.ofFn init).length := by simpa using h
      have hentry : queue i = (List.ofFn init)[i.val] := by simp [hinit, Fin.init]
      have hset := List.set_perm_cons_eraseIdx hi (queue (Fin.last n))
      have hget := List.getElem_cons_eraseIdx_perm hi
      change (List.ofFn init ++ [queue (Fin.last n)]).Perm (queue i :: _)
      rw [hentry]
      refine List.Perm.trans ?_ ((hreplace.trans hset).cons _).symm
      refine (List.perm_append_singleton _ _).trans ?_
      refine (hget.symm.cons _).trans ?_
      exact List.Perm.swap _ _ _
    · rw [removeAt, dif_neg h]
      have hi : i = Fin.last n := Fin.ext (by simpa using Nat.le_antisymm (Nat.le_of_lt_succ i.isLt) (Nat.not_lt.mp h))
      rw [hi]
      exact List.perm_append_singleton _ _

/-- Takes out the first entry that is `x`. -/
def remove (q : PriorityQueue cmp) (x : α) : PriorityQueue cmp :=
  match (List.finRange q.size).find? (fun i => q.queue i = x) with
  | none => q
  | some i => q.removeAt i

theorem toList_remove (q : PriorityQueue cmp) (x : α) : (q.remove x).toList.Perm (q.toList.erase x) := by
  unfold remove
  split
  next hnone =>
    have hx : x ∉ q.toList := by
      intro hx
      obtain ⟨i, rfl⟩ := List.mem_ofFn.mp hx
      have := List.find?_eq_none.mp hnone i (List.mem_finRange i)
      simp at this
    rw [List.erase_of_not_mem hx]
  next i hi =>
    have hx : q.queue i = x := by simpa using List.find?_some hi
    have hperm := (q.toList_removeAt i).erase x
    rw [hx, List.erase_cons_head] at hperm
    exact hperm.symm

theorem peek_removeAt (q : PriorityQueue cmp) (i : Fin q.size) (hi : 0 < i.val) : (q.removeAt i).peek = q.peek := by
  obtain ⟨n, queue, ordered⟩ := q
  cases n with
  | zero => exact i.elim0
  | succ n =>
    have hn : 0 < n := by have := i.isLt; simp only at this; omega
    have hpeek : peek ⟨n + 1, queue, ordered⟩ = some (queue 0) := by simp [peek]
    rw [hpeek]
    by_cases h : i.val < n
    · have hfirst := Heap.replaceAt_first (k := ⟨i.val, h⟩) (x := queue (Fin.last n)) (Heap.Ordered.init ordered) hi hn
        (ordered.le 0 (Fin.last n) rfl)
      rw [removeAt, dif_pos h, peek, dif_pos hn]
      exact congrArg some hfirst
    · rw [removeAt, dif_neg h, peek, dif_pos hn]
      rfl

/-- What `peek` finds stays when another element is taken out. -/
theorem peek_remove {q : PriorityQueue cmp} {x : α} (hx : q.peek ≠ some x) : (q.remove x).peek = q.peek := by
  unfold remove
  split
  next => rfl
  next i hi =>
    refine q.peek_removeAt i ?_
    have hix : q.queue i = x := by simpa using List.find?_some hi
    by_contra h0
    have hi0 : i = ⟨0, i.pos⟩ := Fin.ext (by simpa using h0)
    exact hx (by rw [peek, dif_pos i.pos, ← hi0, hix])

omit [DecidableEq α] in
/-- What `peek` finds stays when an element is added that does not come before it. -/
theorem peek_add {q : PriorityQueue cmp} {a x : α} (ha : q.peek = some a) (hx : (cmp a x).isLE) : (q.add x).peek = some a := by
  rw [peek] at ha
  split at ha
  next h0 =>
    cases ha
    have hzero : Fin.snoc (α := fun _ => α) q.queue x ⟨0, Nat.succ_pos q.size⟩ = q.queue ⟨0, h0⟩ := by
      simp [Fin.snoc, h0, Fin.castLT]
    have hfirst : Heap.siftUp cmp (Fin.snoc (α := fun _ => α) q.queue x) (Fin.last q.size) x ⟨0, Nat.succ_pos q.size⟩ =
        Fin.snoc (α := fun _ => α) q.queue x ⟨0, Nat.succ_pos q.size⟩ :=
      Heap.siftUp_first (by simpa using h0) (Nat.succ_pos q.size) (by rwa [hzero])
    have hpos : 0 < (q.add x).size := Nat.succ_pos q.size
    rw [peek, dif_pos hpos]
    exact congrArg some (hfirst.trans hzero)
  next => cases ha

end PriorityQueue

end Lib
