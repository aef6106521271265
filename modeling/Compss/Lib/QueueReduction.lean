/-
Reduction of a list through a queue: the two elements in front are combined, and
the result goes to the end, until one is left.

Whatever the operation, the order in which it is applied is one tree
(`queueReduce_tree`). While the length is above a power of two, pairs are made of
the elements in front; from then on whole rounds are. So the leaves are the list
rotated by the elements that were paired first, and their depths differ by at
most one.
-/
import Mathlib.Algebra.Free
import Mathlib.Algebra.Ring.Nat
import Mathlib.Data.List.Rotate
import Mathlib.Tactic.Common

namespace Lib

variable {α β γ : Type*}

def queueReduce (f : α → α → α) : List α → Option α
  | [] => none
  | [a] => some a
  | a :: b :: q => queueReduce f (q ++ [f a b])
termination_by q => q.length

/-- One round: neighbours are combined. -/
def pairs (f : α → α → α) : List α → List α
  | a :: b :: q => f a b :: pairs f q
  | q => q

section
variable {f : α → α → α} {g : β → β → β}

theorem length_pairs : ∀ {l : List α} (m : Nat), l.length = 2 * m → (pairs f l).length = m
  | [], m, h => by
    rw [List.length_nil] at h
    obtain rfl : m = 0 := by omega
    rfl
  | [_], m, h => by
    rw [List.length_singleton] at h
    omega
  | _ :: _ :: l, m, h => by
    obtain ⟨m, rfl⟩ : ∃ m', m = m' + 1 := ⟨m - 1, by simp only [List.length_cons] at h; omega⟩
    rw [pairs, List.length_cons, length_pairs m (by simpa [Nat.mul_add] using h)]

theorem pairs_flatMap {φ : α → List γ} (hφ : ∀ a b, φ (f a b) = φ a ++ φ b) : ∀ l : List α, (pairs f l).flatMap φ = l.flatMap φ
  | [] => rfl
  | [_] => rfl
  | a :: b :: l => by
    rw [pairs, List.flatMap_cons, pairs_flatMap hφ l, hφ, List.flatMap_cons, List.flatMap_cons, List.append_assoc]

theorem forall_pairs {I : Nat → α → Prop} (hI : ∀ d a b, I d a → I d b → I (d + 1) (f a b)) {d : Nat} :
    ∀ {l : List α} (m : Nat), l.length = 2 * m → (∀ a ∈ l, I d a) → ∀ a ∈ pairs f l, I (d + 1) a
  | [], _, _, _ => fun a ha => (List.not_mem_nil ha).elim
  | [_], m, h, _ => by
    rw [List.length_singleton] at h
    omega
  | a :: b :: l, m, h, hl => by
    obtain ⟨m, rfl⟩ : ∃ m', m = m' + 1 := ⟨m - 1, by simp only [List.length_cons] at h; omega⟩
    intro c hc
    obtain rfl | hc := List.mem_cons.mp hc
    · exact hI d a b (hl a List.mem_cons_self) (hl b (List.mem_cons_of_mem _ List.mem_cons_self))
    · refine forall_pairs hI m (by simpa [Nat.mul_add] using h) (fun e he => hl e ?_) c hc
      exact List.mem_cons_of_mem _ (List.mem_cons_of_mem _ he)

/-- As long as pairs are taken from a front of even length, the rest is not touched. -/
theorem queueReduce_append : ∀ (l q : List α) (m : Nat), l.length = 2 * m →
    queueReduce f (l ++ q) = queueReduce f (q ++ pairs f l)
  | [], q, _, _ => congrArg (queueReduce f) (List.append_nil q).symm
  | [_], _, m, h => by
    rw [List.length_singleton] at h
    omega
  | a :: b :: l, q, m, h => by
    obtain ⟨m, rfl⟩ : ∃ m', m = m' + 1 := ⟨m - 1, by simp only [List.length_cons] at h; omega⟩
    rw [List.cons_append, List.cons_append, queueReduce, List.append_assoc,
      queueReduce_append l (q ++ [f a b]) m (by simpa [Nat.mul_add] using h), pairs, List.append_assoc, List.singleton_append]

/-- Of a power of two, whole rounds are made. -/
theorem queueReduce_two_pow {I : Nat → α → Prop} (hI : ∀ d a b, I d a → I d b → I (d + 1) (f a b)) {φ : α → List γ}
    (hφ : ∀ a b, φ (f a b) = φ a ++ φ b) (k : Nat) {d : Nat} {l : List α} (hl : l.length = 2 ^ k) (h : ∀ a ∈ l, I d a) :
    ∃ t, queueReduce f l = some t ∧ I (d + k) t ∧ φ t = l.flatMap φ := by
  induction k generalizing d l with
  | zero =>
    obtain ⟨t, rfl⟩ := List.length_eq_one_iff.mp hl
    refine ⟨t, by rw [queueReduce], h t List.mem_cons_self, ?_⟩
    rw [List.flatMap_cons, List.flatMap_nil, List.append_nil]
  | succ k ih =>
    have heven : l.length = 2 * 2 ^ k := by rw [hl, Nat.pow_succ, Nat.mul_comm]
    obtain ⟨t, ht, hIt, hφt⟩ := ih (length_pairs (f := f) _ heven) (forall_pairs hI _ heven h)
    refine ⟨t, ?_, ?_, hφt.trans (pairs_flatMap hφ l)⟩
    · rw [← List.append_nil l, queueReduce_append l [] _ heven, List.nil_append, ht]
    · rwa [Nat.add_right_comm, Nat.add_assoc] at hIt

/-- An operation that is preserved may be carried out on the images. -/
theorem queueReduce_map {ψ : α → β} (hψ : ∀ a b, ψ (f a b) = g (ψ a) (ψ b)) (l : List α) :
    queueReduce g (l.map ψ) = (queueReduce f l).map ψ := by
  fun_induction queueReduce f l with
  | case1 => rw [List.map_nil, queueReduce, Option.map_none]
  | case2 a => rw [List.map_singleton, queueReduce, Option.map_some]
  | case3 a b q ih =>
    rw [← ih, List.map_cons, List.map_cons, queueReduce, List.map_append, List.map_singleton, hψ]

end

/-! ## The tree -/

def treeEval (f : α → α → α) : FreeMagma α → α
  | .of a => a
  | .mul s t => f (treeEval f s) (treeEval f t)

def leaves : FreeMagma α → List α
  | .of a => [a]
  | .mul s t => leaves s ++ leaves t

/-- The depths of the leaves, in order. -/
def depths : FreeMagma α → List Nat
  | .of _ => [0]
  | .mul s t => (depths s ++ depths t).map (· + 1)

/-- The order in which a queue is reduced. -/
theorem queueReduce_tree (a : α) (l : List α) : ∃ t : FreeMagma α,
    leaves t = (a :: l).rotate (2 * ((a :: l).length - 2 ^ (a :: l).length.log2)) ∧
      (∀ d ∈ depths t, d = (a :: l).length.log2 ∨ d = (a :: l).length.log2 + 1) ∧
      ∀ f, queueReduce f (a :: l) = some (treeEval f t) := by
  obtain ⟨xs, hxs⟩ : ∃ xs, xs = a :: l := ⟨_, rfl⟩
  rw [← hxs]
  obtain ⟨k, hk⟩ : ∃ k, k = xs.length.log2 := ⟨_, rfl⟩
  rw [← hk]
  have hne : xs.length ≠ 0 := by rw [hxs]; exact Nat.succ_ne_zero _
  have hle : 2 ^ k ≤ xs.length := hk ▸ Nat.log2_self_le hne
  have hlt : xs.length < 2 * 2 ^ k := by
    rw [← Nat.pow_succ', hk]
    exact Nat.lt_log2_self
  -- The elements above a power of two are paired first.
  obtain ⟨r, hr⟩ : ∃ r, r = xs.length - 2 ^ k := ⟨_, rfl⟩
  rw [← hr]
  have htake : ((xs.take (2 * r)).map FreeMagma.of).length = 2 * r := by
    rw [List.length_map, List.length_take]
    omega
  let q := (xs.drop (2 * r)).map FreeMagma.of ++ pairs FreeMagma.mul ((xs.take (2 * r)).map FreeMagma.of)
  have hq : q.length = 2 ^ k := by
    rw [List.length_append, length_pairs r htake, List.length_map, List.length_drop]
    omega
  let I (d : Nat) (t : FreeMagma α) : Prop := ∀ x ∈ depths t, x = d ∨ x = d + 1
  have hleaf : ∀ t ∈ q, I 0 t := by
    intro t ht
    obtain ht | ht := List.mem_append.mp ht
    · obtain ⟨x, -, rfl⟩ := List.mem_map.mp ht
      exact fun d hd => .inl (List.mem_singleton.mp hd)
    · refine fun d hd => .inr ?_
      refine forall_pairs (I := fun n t => ∀ x ∈ depths t, x = n) (fun n s t hs ht x hx => ?_) r htake (fun t ht x hx => ?_) t ht d hd
      · obtain ⟨y, hy, rfl⟩ := List.mem_map.mp hx
        obtain hy | hy := List.mem_append.mp hy
        · rw [hs y hy]
        · rw [ht y hy]
      · obtain ⟨y, -, rfl⟩ := List.mem_map.mp ht
        exact List.mem_singleton.mp hx
  have hstep : ∀ d s t, I d s → I d t → I (d + 1) (.mul s t) := by
    intro d s t hs ht x hx
    obtain ⟨y, hy, rfl⟩ := List.mem_map.mp hx
    obtain hy | hy := List.mem_append.mp hy
    · exact (hs y hy).imp (congrArg (· + 1)) (congrArg (· + 1))
    · exact (ht y hy).imp (congrArg (· + 1)) (congrArg (· + 1))
  obtain ⟨t, ht, hdepth, hleaves⟩ := queueReduce_two_pow hstep (φ := leaves) (fun _ _ => rfl) k hq hleaf
  have hof : ∀ ys : List α, (ys.map FreeMagma.of).flatMap leaves = ys := by
    intro ys
    simp [List.flatMap_map, leaves]
  refine ⟨t, ?_, fun d hd => ?_, fun f => ?_⟩
  · rw [hleaves, List.flatMap_append, pairs_flatMap (fun _ _ => rfl), hof, hof,
      List.rotate_eq_drop_append_take (by omega)]
  · have := hdepth d hd
    rwa [Nat.zero_add] at this
  · have hwhole : queueReduce FreeMagma.mul (xs.map FreeMagma.of) = some t := by
      rw [← ht, ← queueReduce_append _ _ r htake, ← List.map_append, List.take_append_drop]
    have hmap := queueReduce_map (f := FreeMagma.mul) (g := f) (ψ := treeEval f) (fun _ _ => rfl) (xs.map FreeMagma.of)
    rw [hwhole, List.map_map] at hmap
    rw [← Option.map_some, ← hmap]
    exact congrArg _ (List.map_id xs).symm

end Lib
