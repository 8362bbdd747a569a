/-
  The bounded heaps of the scans for the first documents in an order.

  A pass over a collection is folded in chunks and the heaps of the chunks are merged, in any
  tree.  What is left is the first items of all that was pushed (`bounded_heap_firsts`), for
  the heaps of coalesced scans (`pushBounded`) and for those of `scan_top_n` (`pushInto`): both
  push in the same way as long as a heap is not above its bound (`pushInto_eq`).
-/
import MoltenDB.Proof.Coalescing

namespace MoltenDB

open Firsts

section

variable {α : Type} {cmp : α → α → Ordering} {cap : ℕ}

/-- The closure `push_into` of `scan_top_n`: push, and pop the largest item of a heap above its
    bound. -/
def pushInto (cmp : α → α → Ordering) (cap : ℕ) (heap : List α) (candidate : α) : List α :=
  if cap ≤ heap.length ∧ heap.getLast?.any (fun worst => cmp candidate worst ≠ .lt) then heap
  else
    let heap := heap.orderedInsert (fun a b => (cmp a b).isLE) candidate
    if cap < heap.length then heap.dropLast else heap

/-- `Gathers push xs heap`: the items `xs` were pushed in chunks, each into an empty heap, and
    the heaps were merged, each time emptying one of them in some order into another one. -/
inductive Gathers (push : List α → α → List α) : List α → List α → Prop
  | chunk (xs : List α) : Gathers push xs (xs.foldl push [])
  | merge {xs ys a b drained : List α} : Gathers push xs a → Gathers push ys b →
      drained.Perm b → Gathers push (xs ++ ys) (drained.foldl push a)

/-! ## Both ways of pushing -/

theorem orderedInsert_concat {x worst : α} (hlt : cmp x worst = .lt) (xs : List α) :
    (xs ++ [worst]).orderedInsert (fun a b => (cmp a b).isLE) x =
      xs.orderedInsert (fun a b => (cmp a b).isLE) x ++ [worst] := by
  induction xs with
  | nil => simp [hlt]
  | cons y ys ih =>
    rw [List.cons_append, List.orderedInsert_cons, List.orderedInsert_cons, ih]
    split_ifs
    · rfl
    · rfl

theorem pushInto_eq {heap : List α} (hlen : heap.length ≤ cap) (x : α) :
    pushInto cmp cap heap x = pushBounded cmp cap heap x := by
  rcases heap.eq_nil_or_concat with rfl | ⟨rest, worst, rfl⟩
  · cases cap with
    | zero => simp [pushInto, pushBounded]
    | succ n => simp [pushInto, pushBounded]
  · rw [List.concat_eq_append] at hlen ⊢
    have hcap : cap ≠ 0 := by
      rintro rfl
      simp at hlen
    have hinserted := List.orderedInsert_length (fun a b => (cmp a b).isLE)
      (rest ++ [worst]) x
    rw [pushInto, pushBounded]
    dsimp only
    rw [if_neg hcap, hinserted, List.getLast?_concat, List.dropLast_concat]
    rcases hlen.lt_or_eq with hroom | hfull
    · rw [if_neg (fun h => absurd h.1 (not_le.2 hroom)), if_pos hroom, if_neg (not_lt.2 hroom)]
    · rw [if_neg (show ¬ (rest ++ [worst]).length < cap by omega)]
      by_cases hlt : cmp x worst = .lt
      · rw [if_neg (by simp [hlt]), if_pos (by omega)]
        dsimp only
        rw [if_pos hlt, orderedInsert_concat hlt, List.dropLast_concat]
      · rw [if_pos ⟨hfull.ge, by simp [hlt]⟩]
        dsimp only
        rw [if_neg hlt]

theorem length_pushBounded {heap : List α} (hlen : heap.length ≤ cap) (x : α) :
    (pushBounded cmp cap heap x).length ≤ cap := by
  unfold pushBounded
  split_ifs with hcap hroom
  · exact hlen
  · rw [List.orderedInsert_length]
    exact hroom
  · split
    · split_ifs
      · rw [List.orderedInsert_length, List.length_dropLast]
        omega
      · exact hlen
    · exact hlen

theorem foldl_pushInto_eq {heap : List α} (hlen : heap.length ≤ cap) (xs : List α) :
    xs.foldl (pushInto cmp cap) heap = xs.foldl (pushBounded cmp cap) heap := by
  induction xs generalizing heap with
  | nil => rfl
  | cons x xs ih =>
    rw [List.foldl_cons, List.foldl_cons, pushInto_eq hlen, ih (length_pushBounded hlen x)]

theorem length_foldl_pushBounded {heap : List α} (hlen : heap.length ≤ cap) (xs : List α) :
    (xs.foldl (pushBounded cmp cap) heap).length ≤ cap := by
  induction xs generalizing heap with
  | nil => exact hlen
  | cons x xs ih => exact ih (length_pushBounded hlen x)

/-- Heaps gathered in one way are gathered in the other way. -/
theorem Gathers.pushBounded {xs heap : List α} (h : Gathers (pushInto cmp cap) xs heap) :
    Gathers (MoltenDB.pushBounded cmp cap) xs heap ∧ heap.length ≤ cap := by
  induction h with
  | chunk xs =>
    rw [foldl_pushInto_eq (Nat.zero_le cap)]
    exact ⟨.chunk xs, length_foldl_pushBounded (Nat.zero_le cap) xs⟩
  | @merge xs ys a b drained _ _ hdrained iha ihb =>
    rw [foldl_pushInto_eq iha.2]
    exact ⟨.merge iha.1 ihb.1 hdrained, length_foldl_pushBounded iha.2 drained⟩

/-! ## What a heap holds -/

variable [Std.TransCmp cmp]

/-- **Gathered heaps** hold the first items, if no two different items are equal in the order. -/
theorem Gathers.firsts {P : α → Prop} (anti : ∀ a b, P a → P b → cmp a b = .eq → a = b)
    {xs heap : List α} (h : Gathers (MoltenDB.pushBounded cmp cap) xs heap)
    (hP : ∀ a ∈ xs, P a) : heap = Firsts.firsts (atMost cmp) cap xs := by
  induction h with
  | chunk xs =>
    have hfold : xs.foldl (MoltenDB.pushBounded cmp cap) (Firsts.firsts (atMost cmp) cap []) =
        Firsts.firsts (atMost cmp) cap xs := foldl_pushBounded anti cap hP
    rwa [firsts_nil] at hfold
  | @merge xs ys a b drained _ _ hdrained iha ihb =>
    obtain rfl := iha fun x hx => hP x (List.mem_append_left _ hx)
    obtain rfl := ihb fun x hx => hP x (List.mem_append_right _ hx)
    exact foldl_drained anti cap hP hdrained

end

/-! ## Items with keys -/

section

variable {α V : Type} (key : α → String) (value : α → V) (cmp : V → V → Ordering)

/-- Items compared by their sort values, then by their keys. -/
def cmpItems (a b : α) : Ordering := (cmp (value a) (value b)).then (compare (key a) (key b))

example : cmpItems SortItem.key SortItem.sortValue SortValue.totalCmp = SortItem.cmp := rfl

example (cmp : Json → Json → Ordering) : cmpItems Prod.fst Prod.snd cmp = cmpDocs cmp := rfl

instance transCmp_value [Std.TransCmp cmp] :
    Std.TransCmp (fun a b : α => cmp (value a) (value b)) where
  eq_swap := Std.OrientedCmp.eq_swap
  isLE_trans := Std.TransCmp.isLE_trans

instance transCmp_cmpItems [Std.TransCmp cmp] : Std.TransCmp (cmpItems key value cmp) :=
  inferInstanceAs (Std.TransCmp (compareLex (fun a b => cmp (value a) (value b)) (compareOn key)))

theorem key_eq_of_cmpItems {a b : α} (h : cmpItems key value cmp a b = .eq) : key a = key b := by
  rw [cmpItems, Ordering.then_eq_eq] at h
  exact Std.LawfulEqOrd.compare_eq_iff_eq.1 h.2

/-- **A bounded heap computes the first `cap` items**, whatever chunks the items are pushed in
    and whatever the order of the items and of the merges. -/
theorem bounded_heap_firsts [Std.TransCmp cmp] (cap : ℕ) {items pushed heap : List α}
    (hkeys : (items.map key).Nodup) (hpushed : pushed.Perm items)
    (h : Gathers (pushBounded (cmpItems key value cmp) cap) pushed heap ∨
      Gathers (pushInto (cmpItems key value cmp) cap) pushed heap) :
    heap = (items.insertionSort (atMost (cmpItems key value cmp))).take cap := by
  have hgathers : Gathers (pushBounded (cmpItems key value cmp) cap) pushed heap := by
    rcases h with h | h
    · exact h
    · exact h.pushBounded.1
  have anti : ∀ a b, a ∈ items → b ∈ items → cmpItems key value cmp a b = .eq → a = b :=
    fun a b ha hb heq =>
      List.inj_on_of_nodup_map hkeys ha hb (key_eq_of_cmpItems key value cmp heq)
  rw [hgathers.firsts anti fun a ha => hpushed.mem_iff.1 ha]
  exact firsts_perm (atMost_antisymm anti) cap (fun a ha => ha) hpushed

end

theorem gathers_two_chunks :
    Gathers (pushInto (cmpItems Prod.fst Prod.snd compare) 2) [("b", 1), ("a", 1), ("c", 0)]
      [("c", 0), ("a", 1)] := by
  have hheap : [("c", 0)].foldl (pushInto (cmpItems Prod.fst Prod.snd compare) 2)
      ([("b", 1), ("a", 1)].foldl (pushInto (cmpItems Prod.fst Prod.snd compare) 2) []) =
        [("c", 0), ("a", 1)] := by decide
  rw [← hheap]
  exact .merge (.chunk [("b", 1), ("a", 1)]) (.chunk [("c", 0)]) (.refl _)

/-- Of two equal sort values the one with the larger key makes way. -/
theorem bounded_heap_firsts_two_chunks :
    [("c", 0), ("a", 1)] = ([("b", 1), ("a", 1), ("c", 0)].insertionSort
      (atMost (cmpItems Prod.fst Prod.snd compare))).take 2 :=
  bounded_heap_firsts Prod.fst Prod.snd compare 2 (by decide) (.refl _) (.inr gathers_two_chunks)

end MoltenDB
