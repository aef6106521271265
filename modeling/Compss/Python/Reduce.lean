/-
`pycompss.functions.reduce`: `mergeReduce`, `mergeNReduce` and `simpleReduce`.

The first two keep a queue of indices into the data; the index of what has been
combined goes to the end of it. The function given is a task, so that what counts
is the tree of its calls: it is balanced, but its leaves are the data from left to
right only where their number is a power of two.

`mergeNReduce` takes as many items as the function has parameters, and writes
into the list it is given.
-/
import Compss.Lib.QueueReduction

namespace Compss.Python

open Lib

inductive ReduceError
  | indexError
  | typeError
  deriving DecidableEq, Repr

variable {α β : Type}

/-- `while len(q)`. -/
def mergeReduceLoop (function : α → α → α) : List Nat → List α → Except ReduceError (Option α)
  | [], _ => .ok none
  | [x], dataNew =>
    match dataNew[x]? with
    | some a => .ok (some a)
    | none => .error .indexError
  | x :: y :: q, dataNew =>
    match dataNew[x]?, dataNew[y]? with
    | some a, some b => mergeReduceLoop function (q ++ [x]) (dataNew.set x (function a b))
    | none, _ | some _, none => .error .indexError
termination_by q => q.length

/-- `None` is returned of no data. -/
def mergeReduce (function : α → α → α) (data : List α) : Except ReduceError (Option α) :=
  mergeReduceLoop function (List.range data.length) data

/-- `functools.reduce`. -/
def simpleReduce (function : α → α → α) : List α → Except ReduceError α
  | [] => .error .typeError
  | a :: l => .ok (l.foldl function a)

/-- `while len(q) >= numArgs`, and what is left after it: the results, and the list
that was given. -/
def mergeNReduceLoop (numArgs : Nat) (function : List α → α) :
    Nat → List Nat → List α → Option (Except ReduceError (List α × List α))
  | 0, _, _ => none
  | fuel + 1, q, data =>
    if numArgs ≤ q.length then
      match q.take numArgs, (q.take numArgs).mapM (data[·]?) with
      | x :: _, some args => mergeNReduceLoop numArgs function fuel (q.drop numArgs ++ [x]) (data.set x (function args))
      | _, _ => some (.error .indexError)
    else
      match q.mapM (data[·]?) with
      | some results => some (.ok (results, data))
      | none => some (.error .indexError)

def mergeNReduce (numArgs : Nat) (function : List α → α) (fuel : Nat) (data : List α) :
    Option (Except ReduceError (List α × List α)) :=
  mergeNReduceLoop numArgs function fuel (List.range data.length) data

/-! ## The queue of indices -/

/-- The queue holds the places of `vals`. -/
structure Holds (q : List Nat) (data vals : List α) : Prop where
  nodup : q.Nodup
  vals : q.map (data[·]?) = vals.map some

section
variable {q : List Nat} {data vals : List α} {x : Nat} {a : α}

theorem holds_range (data : List α) : Holds (List.range data.length) data data where
  nodup := List.nodup_range
  vals := by
    refine List.ext_getElem? fun i => ?_
    by_cases hi : i < data.length
    · simp [hi]
    · simp [hi]

theorem Holds.length (h : Holds q data vals) : q.length = vals.length := by
  have := congrArg List.length h.vals
  rwa [List.length_map, List.length_map] at this

theorem Holds.ne_none (h : Holds q data vals) (hx : x ∈ q) : data[x]? ≠ none := by
  have hin : data[x]? ∈ q.map (data[·]?) := List.mem_map_of_mem hx
  rw [h.vals] at hin
  obtain ⟨b, -, hb⟩ := List.mem_map.mp hin
  rw [← hb]
  exact Option.some_ne_none b

/-- What is combined of the front goes to the end. -/
theorem Holds.step {n : Nat} (h : Holds q data vals) (hx : q.take n = x :: (q.take n).tail) (c : α) :
    Holds (q.drop n ++ [x]) (data.set x c) (vals.drop n ++ [c]) := by
  have hmem : x ∈ q.take n := hx ▸ List.mem_cons_self
  have hnodup : (q.take n ++ q.drop n).Nodup := (List.take_append_drop n q).symm ▸ h.nodup
  obtain ⟨-, hdrop, hdisj⟩ := List.nodup_append.mp hnodup
  have hne : ∀ y ∈ q.drop n, y ≠ x := fun y hy hyx => hdisj x hmem y hy hyx.symm
  have hlt : x < data.length := by
    by_contra hge
    exact h.ne_none (List.mem_of_mem_take hmem) (List.getElem?_eq_none (Nat.not_lt.mp hge))
  constructor
  · refine List.nodup_append.mpr ⟨hdrop, List.nodup_singleton x, fun y hy z hz => ?_⟩
    rw [List.mem_singleton.mp hz]
    exact hne y hy
  · have hrest : (vals.drop n).map some = (q.drop n).map (data[·]?) := by
      rw [List.map_drop, ← h.vals, List.map_drop]
    rw [List.map_append, List.map_append, hrest]
    congr 1
    · refine List.map_congr_left fun y hy => ?_
      rw [List.getElem?_set_ne (hne y hy).symm]
    · simp [hlt]

theorem mergeReduceLoop_eq (function : α → α → α) (h : Holds q data vals) :
    mergeReduceLoop function q data = .ok (queueReduce function vals) := by
  fun_induction mergeReduceLoop function q data generalizing vals with
  | case1 data =>
    obtain rfl : vals = [] := List.length_eq_zero_iff.mp h.length.symm
    rw [queueReduce]
  | case2 x data a ha =>
    obtain ⟨b, rfl⟩ := List.length_eq_one_iff.mp h.length.symm
    have hv := h.vals
    simp only [List.map_cons, List.map_nil, ha] at hv
    cases hv
    rw [queueReduce]
  | case3 x data hnone => exact (h.ne_none List.mem_cons_self hnone).elim
  | case4 x y q data a b hy hx ih =>
    obtain ⟨a', rest, rfl⟩ := List.exists_cons_of_length_eq_add_one h.length.symm
    obtain ⟨b', vals, rfl⟩ := List.exists_cons_of_length_eq_add_one (Nat.succ.inj h.length.symm)
    have hv := h.vals
    simp only [List.map_cons, List.cons.injEq] at hv
    obtain ⟨hva, hvb, -⟩ := hv
    rw [hx] at hva
    rw [hy] at hvb
    cases hva
    cases hvb
    rw [queueReduce]
    exact ih (h.step (n := 2) rfl _)
  | case5 x y q data hx => exact (h.ne_none List.mem_cons_self hx).elim
  | case6 x y q data a hy hx => exact (h.ne_none (List.mem_cons_of_mem _ List.mem_cons_self) hy).elim

end

theorem mergeReduce_eq (function : α → α → α) (data : List α) : mergeReduce function data = .ok (queueReduce function data) :=
  mergeReduceLoop_eq function (holds_range data)

/-- Of an associative function, only the order of the leaves counts. -/
theorem treeEval_assoc {function : α → α → α} (h : Std.Associative function) :
    ∀ (t : FreeMagma α), simpleReduce function (leaves t) = .ok (treeEval function t)
  | .of a => rfl
  | .mul s t => by
    have hs := treeEval_assoc h s
    have ht := treeEval_assoc h t
    rw [leaves, treeEval]
    cases hls : leaves s with
    | nil => rw [hls] at hs; cases hs
    | cons x xs =>
      cases hlt : leaves t with
      | nil => rw [hlt] at ht; cases ht
      | cons y ys =>
        rw [hls, simpleReduce] at hs
        rw [hlt, simpleReduce] at ht
        injection hs with hs
        injection ht with ht
        rw [List.cons_append, simpleReduce, List.foldl_append, List.foldl_cons, List.foldl_assoc, hs, ht]

theorem treeEval_append : ∀ t : FreeMagma (List α), treeEval (fun x y => x ++ y) t = (leaves t).flatten
  | .of a => (List.append_nil a).symm
  | .mul s t => by rw [treeEval, leaves, List.flatten_append, treeEval_append s, treeEval_append t]

theorem simpleReduce_append {xs : List (List α)} (h : xs ≠ []) : simpleReduce (fun x y => x ++ y) xs = .ok xs.flatten := by
  cases xs with
  | nil => exact (h rfl).elim
  | cons x xs =>
    have hfold := @List.foldl_append_eq_append _ _ xs id x
    rw [List.map_id] at hfold
    rw [simpleReduce, List.flatten_cons, ← hfold]
    rfl

theorem flatten_singletons (l : List α) : (l.map fun a => [a]).flatten = l := by
  rw [← List.flatMap_def, List.flatMap_singleton']

theorem eq_zero_of_rotate_range {n r : Nat} (hr : r < n) (h : (List.range n).rotate r = List.range n) : r = 0 := by
  have hhead : ((List.range n).rotate r)[0]? = (List.range n)[0]? := by rw [h]
  have hpos : 0 < n := Nat.zero_lt_of_lt hr
  rw [List.getElem?_rotate (by rwa [List.length_range]), List.length_range, Nat.zero_add, Nat.mod_eq_of_lt hr,
    List.getElem?_range hr, List.getElem?_range hpos] at hhead
  exact Option.some.inj hhead

/-- **From left to right**, as the documentation has it, for every associative function
exactly when the number of the data is a power of two. -/
theorem mergeReduce_eq_simpleReduce_iff (n : Nat) :
    (∀ (α : Type) (function : α → α → α), Std.Associative function → ∀ data : List α, data.length = n + 1 →
      mergeReduce function data = (simpleReduce function data).map some) ↔ ∃ k, n + 1 = 2 ^ k := by
  constructor
  · intro h
    -- Lists that are appended show the order.
    let data : List (List Nat) := (List.range (n + 1)).map fun i => [i]
    have hlen : data.length = n + 1 := by simp [data]
    obtain ⟨a, l, hal⟩ := List.exists_cons_of_length_eq_add_one hlen
    obtain ⟨t, hleaves, -, ht⟩ := queueReduce_tree a l
    rw [← hal] at hleaves ht
    have heq := h (List Nat) (fun x y => x ++ y) ⟨List.append_assoc⟩ data hlen
    rw [mergeReduce_eq, ht, treeEval_append, hleaves, ← List.map_rotate, flatten_singletons, hlen,
      simpleReduce_append (by rw [hal]; exact List.cons_ne_nil a l), flatten_singletons] at heq
    injection heq with heq
    have hle : 2 ^ (n + 1).log2 ≤ n + 1 := Nat.log2_self_le (Nat.succ_ne_zero n)
    have hlt : n + 1 < 2 * 2 ^ (n + 1).log2 := by
      rw [← Nat.pow_succ']
      exact Nat.lt_log2_self
    have hzero := eq_zero_of_rotate_range (by omega) (Option.some.inj heq)
    exact ⟨(n + 1).log2, by omega⟩
  · rintro ⟨k, hk⟩ α function hassoc data hlen
    obtain ⟨a, l, rfl⟩ := List.exists_cons_of_length_eq_add_one hlen
    obtain ⟨t, hleaves, -, ht⟩ := queueReduce_tree a l
    rw [hlen, hk, Nat.log2_two_pow, Nat.sub_self, Nat.mul_zero, List.rotate_zero] at hleaves
    rw [mergeReduce_eq, ht, ← hleaves, treeEval_assoc hassoc]
    rfl

/-! ## Several parameters -/

section
variable {q : List Nat} {data vals : List α}

theorem mapM_of_map {f : β → Option α} : ∀ {l : List β} {as : List α}, l.map f = as.map some → l.mapM f = some as
  | [], [], _ => rfl
  | b :: l, a :: as, h => by
    rw [List.map_cons, List.map_cons, List.cons.injEq] at h
    rw [List.mapM_cons, h.1, mapM_of_map h.2]
    rfl

theorem Holds.mapM_take (h : Holds q data vals) (n : Nat) : (q.take n).mapM (data[·]?) = some (vals.take n) :=
  mapM_of_map (by rw [List.map_take, List.map_take, h.vals])

/-- The results of `n + 2` parameters: how many there are, and what `φ` makes of
them when the function puts the images of its arguments one after the other. -/
structure Reduced (n : Nat) (function : List α → α) (vals results : List α) (start : Nat) : Prop where
  few : results.length < n + 2
  length : results.length % (n + 1) = vals.length % (n + 1)
  ne_nil : vals ≠ [] → results ≠ []
  start_le : start ≤ vals.length
  rotated : ∀ {β : Type} (φ : α → List β), (∀ args, args.length = n + 2 → φ (function args) = args.flatMap φ) →
    results.flatMap φ = (vals.drop start ++ vals.take start).flatMap φ

/-- One round, and the rest of them. -/
theorem Reduced.step {n : Nat} {function : List α → α} {front rest results : List α} {start : Nat} (hfront : front.length = n + 2)
    (h : Reduced n function (rest ++ [function front]) results start) :
    ∃ start', Reduced n function (front ++ rest) results start' := by
  have hlen : results.length % (n + 1) = (front ++ rest).length % (n + 1) := by
    rw [h.length, List.length_append, List.length_singleton, List.length_append, hfront,
      show n + 2 + rest.length = rest.length + 1 + (n + 1) by omega, Nat.add_mod_right]
  have hne : front ++ rest ≠ [] → results ≠ [] := fun _ =>
    h.ne_nil (List.append_ne_nil_of_right_ne_nil _ (List.cons_ne_nil _ _))
  by_cases hs : start ≤ rest.length
  · refine ⟨front.length + start, h.few, hlen, hne, by rw [List.length_append]; omega, fun φ hφ => ?_⟩
    rw [h.rotated φ hφ, List.drop_append_of_le_length hs, List.take_append_of_le_length hs, List.drop_length_add_append,
      List.take_length_add_append]
    simp only [List.flatMap_append, List.flatMap_cons, List.flatMap_nil, List.append_nil, hφ front hfront, List.append_assoc]
  · -- All of the queue has been passed.
    have hall : start = (rest ++ [function front]).length := by
      have := h.start_le
      rw [List.length_append, List.length_singleton] at this ⊢
      omega
    refine ⟨front.length, h.few, hlen, hne, by rw [List.length_append]; omega, fun φ hφ => ?_⟩
    rw [h.rotated φ hφ, hall, List.drop_length, List.take_length, List.drop_left, List.take_left, List.nil_append]
    simp only [List.flatMap_append, List.flatMap_cons, List.flatMap_nil, List.append_nil, hφ front hfront]

theorem mergeNReduceLoop_reduced (n : Nat) (function : List α → α) : ∀ (fuel : Nat) (q : List Nat) (data vals : List α),
    Holds q data vals → q.length < fuel → ∃ results data' start,
      mergeNReduceLoop (n + 2) function fuel q data = some (.ok (results, data')) ∧ data'.length = data.length ∧
        Reduced n function vals results start
  | 0, _, _, _, _, hlt => absurd hlt (Nat.not_lt_zero _)
  | fuel + 1, q, data, vals, h, hlt => by
    rw [mergeNReduceLoop]
    split
    · next hle =>
      obtain ⟨x, hx⟩ : ∃ x, q.take (n + 2) = x :: (q.take (n + 2)).tail := by
        cases htake : q.take (n + 2) with
        | nil =>
          have := congrArg List.length htake
          rw [List.length_take, List.length_nil] at this
          omega
        | cons x xs => exact ⟨x, rfl⟩
      have hstep := h.step hx (function (vals.take (n + 2)))
      have hshort : (q.drop (n + 2) ++ [x]).length < fuel := by
        rw [List.length_append, List.length_drop, List.length_singleton]
        omega
      obtain ⟨results, data', start, hrun, hdata, hred⟩ := mergeNReduceLoop_reduced n function fuel _ _ _ hstep hshort
      have hfront : (vals.take (n + 2)).length = n + 2 := by
        rw [List.length_take, ← h.length, Nat.min_eq_left hle]
      obtain ⟨start', hred⟩ := hred.step hfront
      rw [List.take_append_drop] at hred
      refine ⟨results, data', start', ?_, by rw [hdata, List.length_set], hred⟩
      rw [h.mapM_take, hx]
      exact hrun
    · next hlt =>
      have hall := h.mapM_take q.length
      rw [List.take_length, h.length, List.take_length] at hall
      refine ⟨vals, data, 0, by rw [hall], rfl, ?_, rfl, id, Nat.zero_le _, fun φ _ => ?_⟩
      · rw [← h.length]
        omega
      · rw [List.drop_zero, List.take_zero, List.append_nil]

/-- With one parameter the queue never gets shorter. -/
theorem mergeNReduceLoop_single (function : List α → α) : ∀ (fuel : Nat) (q : List Nat) (data vals : List α),
    Holds q data vals → q ≠ [] → mergeNReduceLoop 1 function fuel q data = none
  | 0, _, _, _, _, _ => rfl
  | fuel + 1, [], _, _, _, hne => (hne rfl).elim
  | fuel + 1, x :: q, data, vals, h, _ => by
    have hargs := h.mapM_take 1
    rw [mergeNReduceLoop, if_pos (by simp), hargs]
    exact mergeNReduceLoop_single function fuel _ _ _ (h.step (n := 1) rfl _) (List.append_ne_nil_of_right_ne_nil _ (List.cons_ne_nil _ _))

end

end Compss.Python
