/-
  The first items of a list in an order, and folds that are split among workers.

  `firsts r n xs` are the first `n` items of `xs` in the order `r`.  They depend neither on
  the order of `xs` nor on how it is put together of parts (`firsts_perm`, `firsts_append`), if
  no two different items are equal in the order.  The items that are not among the first `n` are
  what a `Selection` puts behind the position `n`.  A `Split` is a fold over parts of a list
  whose results are merged; what holds of it follows from one fact for a step and one for a
  merge (`Split.fold_spec`).
-/
import Mathlib.Tactic

namespace Firsts

variable {α : Type} (r : α → α → Prop) [DecidableRel r]

/-- The first `n` items in the order `r`. -/
def firsts (n : ℕ) (xs : List α) : List α := (xs.insertionSort r).take n

variable {r}

@[simp] theorem firsts_nil (n : ℕ) : firsts r n [] = [] := List.take_nil

@[simp] theorem firsts_zero (xs : List α) : firsts r 0 xs = [] := List.take_zero

theorem mem_of_mem_firsts {n : ℕ} {xs : List α} {a : α} (h : a ∈ firsts r n xs) : a ∈ xs :=
  (List.mem_insertionSort r).1 (List.mem_of_mem_take h)

theorem length_firsts (n : ℕ) (xs : List α) : (firsts r n xs).length = min n xs.length := by
  rw [firsts, List.length_take, List.length_insertionSort]

/-! ### Laws that hold of any relation -/

/-- What is inserted behind the first `n` items is not among the first `n`. -/
theorem take_orderedInsert (n : ℕ) (a : α) (xs : List α) :
    ((xs.take n).orderedInsert r a).take n = (xs.orderedInsert r a).take n := by
  induction xs generalizing n with
  | nil => simp
  | cons x xs ih =>
    cases n with
    | zero => simp
    | succ n =>
      rw [List.take_succ_cons, List.orderedInsert_cons, List.orderedInsert_cons]
      split_ifs
      · rw [List.take_succ_cons, List.take_succ_cons]
        congr 1
        cases n <;> simp [List.take_take]
      · rw [List.take_succ_cons, List.take_succ_cons, ih]

theorem firsts_cons (n : ℕ) (a : α) (xs : List α) :
    firsts r n (a :: xs) = ((firsts r n xs).orderedInsert r a).take n := by
  rw [firsts, firsts, take_orderedInsert, List.insertionSort_cons]

/-- Only the first `n` items of two lists are among the first `n` of their merge. -/
theorem take_merge (le : α → α → Bool) (n : ℕ) (xs ys : List α) :
    (List.merge (xs.take n) (ys.take n) le).take n = (List.merge xs ys le).take n := by
  induction n generalizing xs ys with
  | zero => simp
  | succ n ih =>
    cases xs with
    | nil => simp [List.take_take]
    | cons x xs =>
      cases ys with
      | nil => simp [List.take_take]
      | cons y ys =>
        rw [List.take_succ_cons, List.take_succ_cons, List.cons_merge_cons, List.cons_merge_cons]
        split_ifs
        · rw [List.take_succ_cons, List.take_succ_cons, ← ih xs (y :: ys),
            ← ih (xs.take n) (y :: ys.take n), List.take_take, Nat.min_self]
          congr 3
          cases n <;> simp [List.take_take]
        · rw [List.take_succ_cons, List.take_succ_cons, ← ih (x :: xs) ys,
            ← ih (x :: xs.take n) (ys.take n), List.take_take, Nat.min_self]
          congr 3
          cases n <;> simp [List.take_take]

/-- A way to permute a list so that no item before a position comes later in the order than one
    from there on. -/
structure Selection (r : α → α → Prop) where
  select : ℕ → List α → List α
  perm : ∀ n xs, n < xs.length → (select n xs).Perm xs
  split : ∀ n xs, n < xs.length → ∀ a ∈ (select n xs).take n, ∀ b ∈ (select n xs).drop n, r a b

/-! ### Laws of orders

No two different items that satisfy `P` are equal in the order. -/

section

variable {P : α → Prop} [Std.Total r] [IsTrans α r]
  (anti : ∀ a b, P a → P b → r a b → r b a → a = b)

include anti

/-- A list is sorted in one way only. -/
theorem eq_insertionSort {xs ys : List α} (hP : ∀ a ∈ xs, P a) (hperm : ys.Perm xs)
    (hsorted : ys.Pairwise r) : ys = xs.insertionSort r := by
  refine List.Perm.eq_of_pairwise (fun a b ha hb => anti a b ?_ ?_) hsorted
    (List.pairwise_insertionSort r xs) (hperm.trans (List.perm_insertionSort r xs).symm)
  · exact hP a (hperm.mem_iff.1 ha)
  · exact hP b ((List.mem_insertionSort r).1 hb)

/-- **The order of a list does not matter** for its first items. -/
theorem firsts_perm (n : ℕ) {xs ys : List α} (hP : ∀ a ∈ xs, P a) (h : ys.Perm xs) :
    firsts r n ys = firsts r n xs := by
  rw [firsts, firsts, eq_insertionSort anti hP ((List.perm_insertionSort r ys).trans h)
    (List.pairwise_insertionSort r ys)]

theorem insertionSort_append {xs ys : List α} (hP : ∀ a ∈ xs ++ ys, P a) :
    (xs ++ ys).insertionSort r =
      List.merge (xs.insertionSort r) (ys.insertionSort r) (r · ·) := by
  refine (eq_insertionSort anti hP ?_ ?_).symm
  · exact (List.merge_perm_append _).trans
      ((List.perm_insertionSort r xs).append (List.perm_insertionSort r ys))
  · exact (List.pairwise_insertionSort r xs).merge (List.pairwise_insertionSort r ys)

/-- **The first items of two lists** are among the first items of each. -/
theorem firsts_append (n : ℕ) {xs ys : List α} (hP : ∀ a ∈ xs ++ ys, P a) :
    firsts r n (xs ++ firsts r n ys) = firsts r n (xs ++ ys) := by
  have hsort : (firsts r n ys).insertionSort r = firsts r n ys :=
    ((List.pairwise_insertionSort r ys).take).insertionSort_eq
  have hPn : ∀ a ∈ xs ++ firsts r n ys, P a := by
    intro a ha
    rcases List.mem_append.1 ha with ha | ha
    · exact hP a (List.mem_append_left _ ha)
    · exact hP a (List.mem_append_right _ (mem_of_mem_firsts ha))
  rw [firsts, insertionSort_append anti hPn, hsort, ← take_merge]
  rw [firsts, firsts, insertionSort_append anti hP, ← take_merge _ _ (xs.insertionSort r),
    List.take_take, Nat.min_self]

/-- **What a selection puts behind a position** are, once sorted, the items of the sorted list
    from there on. -/
theorem Selection.insertionSort_drop (sel : Selection r) {n : ℕ} {xs : List α}
    (hP : ∀ a ∈ xs, P a) (hn : n < xs.length) :
    ((sel.select n xs).drop n).insertionSort r = (xs.insertionSort r).drop n := by
  have hperm := sel.perm n xs hn
  have hlen : (((sel.select n xs).take n).insertionSort r).length = n := by
    rw [List.length_insertionSort, List.length_take, hperm.length_eq]
    omega
  -- the sorted halves make up the sorted list
  have hsorted : ((sel.select n xs).take n).insertionSort r ++
      ((sel.select n xs).drop n).insertionSort r = xs.insertionSort r := by
    refine eq_insertionSort anti hP ?_ ?_
    · refine ((List.perm_insertionSort r _).append (List.perm_insertionSort r _)).trans ?_
      rwa [List.take_append_drop]
    · refine List.pairwise_append.2 ⟨List.pairwise_insertionSort r _,
        List.pairwise_insertionSort r _, fun a ha b hb => sel.split n xs hn a ?_ b ?_⟩
      · exact (List.mem_insertionSort r).1 ha
      · exact (List.mem_insertionSort r).1 hb
  rw [← hsorted, List.drop_left' hlen]

end

/-- To sort a list is to select at every position. -/
def Selection.sort (r : α → α → Prop) [DecidableRel r] [Std.Total r] [IsTrans α r] :
    Selection r where
  select _ xs := xs.insertionSort r
  perm _ xs _ := List.perm_insertionSort r xs
  split n xs _ := by
    have hsorted := List.pairwise_insertionSort r xs
    rw [← List.take_append_drop n (xs.insertionSort r)] at hsorted
    exact (List.pairwise_append.1 hsorted).2.2

end Firsts

/-! ## Split folds -/

/-- A list in parts, as workers share a fold over it and merge their results. -/
inductive Split (α : Type)
  | chunk (xs : List α)
  | join (left right : Split α)

namespace Split

variable {α β : Type}

def toList : Split α → List α
  | chunk xs => xs
  | join left right => left.toList ++ right.toList

/-- Each worker folds its part from `init` on; the results are merged. -/
def fold (init : β) (step : β → α → β) (merge : β → β → β) : Split α → β
  | chunk xs => xs.foldl step init
  | join left right => merge (left.fold init step merge) (right.fold init step merge)

/-- **A split fold**: what relates a list to the results of folds over it, if steps and merges
    keep it, relates the whole list to the merged result. -/
theorem fold_spec {R : List α → β → Prop} {init : β} {step : β → α → β} {merge : β → β → β}
    (hinit : R [] init) (hstep : ∀ xs b a, R xs b → R (xs ++ [a]) (step b a))
    (hmerge : ∀ xs ys b c, R xs b → R ys c → R (xs ++ ys) (merge b c)) (t : Split α) :
    R t.toList (t.fold init step merge) := by
  induction t with
  | chunk xs =>
    have hfold : ∀ (done todo : List α) (b : β), R done b → R (done ++ todo) (todo.foldl step b) := by
      intro done todo
      induction todo generalizing done with
      | nil => intro b h; simpa using h
      | cons a todo ih =>
        intro b h
        simpa using ih (done ++ [a]) (step b a) (hstep done b a h)
    exact hfold [] xs init hinit
  | join left right ihl ihr => exact hmerge _ _ _ _ ihl ihr

end Split
