/-
  Pages with a cursor.

  A page is taken from the next `size` items: those that are rejected are dropped, and the
  next page goes on after the last one that was kept.  The pages end with the first empty one.
  So they have all accepted items exactly if there are no `size` rejected items in a row before
  an accepted one, and every item that is looked at can be judged (`pages_eq_iff`).
-/
import Mathlib.Tactic

namespace Cursor

variable {α : Type}

/-- The number of items up to the last one with `p`. -/
def upTo (p : α → Bool) : List α → ℕ
  | [] => 0
  | a :: l => if (a :: l).any p then upTo p l + 1 else 0

section

variable {p : α → Bool}

theorem upTo_of_none {l : List α} (h : ∀ a ∈ l, p a = false) : upTo p l = 0 := by
  cases l with
  | nil => rfl
  | cons a l =>
    have hnone : (a :: l).any p = false := List.any_eq_false.2 fun b hb => by simp [h b hb]
    rw [upTo, hnone]
    rfl

theorem upTo_append (A : List α) {a : α} (h : p a = true) (R : List α) :
    upTo p (A ++ a :: R) = A.length + 1 + upTo p R := by
  induction A with
  | nil =>
    have hany : (a :: R).any p = true := List.any_eq_true.2 ⟨a, List.mem_cons_self, h⟩
    rw [List.nil_append, upTo, if_pos hany, List.length_nil]
    omega
  | cons b A ih =>
    have hany : (b :: (A ++ a :: R)).any p = true := List.any_eq_true.2 ⟨a, by simp, h⟩
    rw [List.cons_append, upTo, if_pos hany, ih, List.length_cons]
    omega

/-- A list splits at its last item with `p`. -/
theorem exists_last {l : List α} (h : ∃ a ∈ l, p a = true) :
    ∃ A a B, l = A ++ a :: B ∧ p a = true ∧ ∀ b ∈ B, p b = false := by
  induction l with
  | nil => simp at h
  | cons b l ih =>
    by_cases hl : ∃ a ∈ l, p a = true
    · obtain ⟨A, a, B, rfl, ha, hB⟩ := ih hl
      exact ⟨b :: A, a, B, rfl, ha, hB⟩
    · obtain ⟨a, ha, hpa⟩ := h
      rcases List.mem_cons.1 ha with rfl | ha
      · exact ⟨[], a, l, rfl, hpa, by simpa using hl⟩
      · exact absurd ⟨a, ha, hpa⟩ hl

end

variable (verdict : α → Option Bool) (size : ℕ)

/-- The item can be judged, and is accepted. -/
def selects (a : α) : Bool := (verdict a).getD false

/-- The items of a page that are kept; `none` if one of them cannot be judged. -/
def keep (page : List α) : Option (List α) :=
  if ∀ a ∈ page, (verdict a).isSome then some (page.filter (selects verdict)) else none

/-- What follows the last item that is kept. -/
def rest (xs : List α) : List α := xs.drop (upTo (selects verdict) (xs.take size))

/-- The items of all pages, one after the other; `none` if a page fails, or if there are more
    than `n` pages. -/
def pages : ℕ → List α → Option (List α)
  | 0, _ => none
  | n + 1, xs =>
    match keep verdict (xs.take size) with
    | none => none
    | some [] => some []
    | some (a :: ys) => (pages n (rest verdict size xs)).map (a :: ys ++ ·)

/-- After `size` items in a row that are rejected, none is accepted. -/
def NoGap (xs : List α) : Prop :=
  ∀ i, (∀ a ∈ (xs.drop i).take size, selects verdict a = false) →
    ∀ a ∈ xs.drop (i + size), selects verdict a = false

/-- The items up to the last accepted one and the `size` items after it can be judged. -/
def Judged (xs : List α) : Prop :=
  ∀ a ∈ xs.take (upTo (selects verdict) xs + size), (verdict a).isSome = true

variable {verdict size}

theorem keep_eq_some {page ys : List α} :
    keep verdict page = some ys ↔
      (∀ a ∈ page, (verdict a).isSome = true) ∧ page.filter (selects verdict) = ys := by
  unfold keep
  split_ifs with h
  · rw [Option.some.injEq, and_iff_right h]
  · simp [h]

/-- Where nothing is accepted there is no gap. -/
theorem noGap_of_none {xs : List α} (h : ∀ a ∈ xs, selects verdict a = false) :
    NoGap verdict size xs := fun _ _ a ha => h a (List.mem_of_mem_drop ha)

section

variable {A R : List α} {a : α} (ha : selects verdict a = true)
include ha

/-- A gap before the last item that is kept would have been in the page. -/
theorem noGap_append_iff (hA : A.length < size) :
    NoGap verdict size (A ++ a :: R) ↔ NoGap verdict size R := by
  have hdrop : ∀ i, (A ++ a :: R).drop (A.length + 1 + i) = R.drop i := by
    intro i
    rw [← List.drop_drop]
    simp
  constructor
  · intro h i hi b hb
    refine h (A.length + 1 + i) ?_ b ?_
    · rwa [hdrop]
    · rwa [Nat.add_assoc, hdrop]
  · intro h i hi b hb
    by_cases hlt : i ≤ A.length
    · -- the window from `i` on has `a` in it
      have hmem : a ∈ ((A ++ a :: R).drop i).take size := by
        rw [List.drop_append_of_le_length hlt, List.take_append]
        refine List.mem_append_right _ ?_
        obtain ⟨d, hd⟩ : ∃ d, size - (A.drop i).length = d + 1 :=
          ⟨size - (A.drop i).length - 1, by rw [List.length_drop]; omega⟩
        rw [hd, List.take_succ_cons]
        exact List.mem_cons_self
      have hno := hi a hmem
      rw [ha] at hno
      cases hno
    · obtain ⟨j, rfl⟩ : ∃ j, i = A.length + 1 + j := ⟨i - (A.length + 1), by omega⟩
      rw [hdrop] at hi
      rw [Nat.add_assoc, hdrop] at hb
      exact h j hi b hb

theorem judged_append_iff (hjudged : ∀ b ∈ A ++ [a], (verdict b).isSome = true) :
    Judged verdict size (A ++ a :: R) ↔ Judged verdict size R := by
  have htake : (A ++ a :: R).take (upTo (selects verdict) (A ++ a :: R) + size) =
      A ++ [a] ++ R.take (upTo (selects verdict) R + size) := by
    have hsum : upTo (selects verdict) (A ++ a :: R) + size =
        (A ++ [a]).length + (upTo (selects verdict) R + size) := by
      rw [upTo_append A ha, List.length_append, List.length_singleton]
      omega
    rw [hsum, List.append_cons A a R, List.take_length_add_append]
  unfold Judged
  rw [htake]
  constructor
  · exact fun h b hb => h b (List.mem_append_right _ hb)
  · rintro h b hb
    rcases List.mem_append.1 hb with hb | hb
    · exact hjudged b hb
    · exact h b hb

end

/-- A page with an item that is kept: the next one goes on after the last of these. -/
theorem exists_page {xs : List α} (h : ∃ a ∈ xs.take size, selects verdict a = true) :
    ∃ A a R, xs = A ++ a :: R ∧ selects verdict a = true ∧ A.length < size ∧
      (∀ b ∈ A ++ [a], b ∈ xs.take size) ∧ rest verdict size xs = R ∧
      (xs.take size).filter (selects verdict) = (A ++ [a]).filter (selects verdict) := by
  obtain ⟨A, a, B, hpage, ha, hB⟩ := exists_last h
  have hxs : xs = A ++ a :: (B ++ xs.drop size) := by
    conv_lhs => rw [← List.take_append_drop size xs, hpage]
    simp
  have hlen := congrArg List.length hpage
  rw [List.length_take, List.length_append, List.length_cons] at hlen
  refine ⟨A, a, B ++ xs.drop size, hxs, ha, by omega, fun b hb => ?_, ?_, ?_⟩
  · rw [hpage, List.append_cons A a B]
    exact List.mem_append_left _ hb
  · rw [rest, hpage, upTo_append A ha, upTo_of_none hB]
    conv_lhs => rw [hxs]
    simp
  · have hnil : B.filter (selects verdict) = [] := List.filter_eq_nil_iff.2 fun b hb => by
      simp [hB b hb]
    rw [hpage, List.append_cons A a B, List.filter_append, hnil, List.append_nil]

/-- **The pages have all accepted items**, exactly if there is no gap before one of them and
    every item that is looked at can be judged. -/
theorem pages_eq_iff (n : ℕ) {xs : List α} (hn : xs.length < n) :
    pages verdict size n xs = some (xs.filter (selects verdict)) ↔
      NoGap verdict size xs ∧ Judged verdict size xs := by
  induction n generalizing xs with
  | zero => omega
  | succ n ih =>
    rw [pages]
    by_cases hjudged : ∀ a ∈ xs.take size, (verdict a).isSome = true
    · rw [keep_eq_some.2 ⟨hjudged, rfl⟩]
      by_cases hsome : ∃ a ∈ xs.take size, selects verdict a = true
      · obtain ⟨A, a, R, hxs, ha, hA, hpage, hrest, hfilter⟩ := exists_page hsome
        have hkept : ∃ b ys, (A ++ [a]).filter (selects verdict) = b :: ys :=
          List.exists_cons_of_ne_nil (List.ne_nil_of_mem (List.mem_filter.2 ⟨by simp, ha⟩))
        obtain ⟨b, ys, hkept⟩ := hkept
        rw [hrest, hfilter, hkept]
        have hR : R.length < n := by
          rw [hxs, List.length_append, List.length_cons] at hn
          omega
        have hall : xs.filter (selects verdict) = b :: ys ++ R.filter (selects verdict) := by
          rw [hxs, List.append_cons A a R, List.filter_append, hkept]
        rw [hall, hxs, noGap_append_iff ha hA,
          judged_append_iff ha fun b hb => hjudged b (hpage b hb), ← ih hR]
        cases pages verdict size n R with
        | none => simp
        | some zs => simp
      · push Not at hsome
        have hnone : ∀ a ∈ xs.take size, selects verdict a = false := fun a ha => by
          simpa using hsome a ha
        rw [List.filter_eq_nil_iff.2 fun a ha => by simp [hnone a ha]]
        have hiff : some [] = some (xs.filter (selects verdict)) ↔
            ∀ a ∈ xs, selects verdict a = false := by
          rw [Option.some.injEq, eq_comm, List.filter_eq_nil_iff]
          simp
        dsimp only
        rw [hiff]
        constructor
        · intro h
          refine ⟨noGap_of_none h, ?_⟩
          rw [Judged, upTo_of_none h, Nat.zero_add]
          exact hjudged
        · rintro ⟨hgap, -⟩ a ha
          rw [← List.take_append_drop size xs, List.mem_append] at ha
          rcases ha with ha | ha
          · exact hnone a ha
          · exact hgap 0 hnone a (by rwa [Nat.zero_add])
    · have hfail : keep verdict (xs.take size) = none := if_neg hjudged
      rw [hfail]
      constructor
      · intro h
        cases h
      · rintro ⟨-, h⟩
        refine absurd (fun a ha => h a ?_) hjudged
        have hle : min size (upTo (selects verdict) xs + size) = size := by omega
        rw [← hle, ← List.take_take] at ha
        exact List.mem_of_mem_take ha

/-- Pages have accepted items only, in their order. -/
theorem sublist_of_pages {n : ℕ} {xs ys : List α} (h : pages verdict size n xs = some ys) :
    ys.Sublist (xs.filter (selects verdict)) := by
  induction n generalizing xs ys with
  | zero => cases h
  | succ n ih =>
    rw [pages] at h
    cases hkeep : keep verdict (xs.take size) with
    | none =>
      rw [hkeep] at h
      cases h
    | some kept =>
      rw [hkeep] at h
      obtain ⟨-, hfilter⟩ := keep_eq_some.1 hkeep
      cases kept with
      | nil =>
        cases h
        exact List.nil_sublist _
      | cons b bs =>
        obtain ⟨zs, hzs, rfl⟩ := Option.map_eq_some_iff.1 h
        have hsome : ∃ a ∈ xs.take size, selects verdict a = true := by
          have hb : b ∈ (xs.take size).filter (selects verdict) := by
            rw [hfilter]
            exact List.mem_cons_self
          exact ⟨b, List.mem_filter.1 hb⟩
        obtain ⟨A, a, R, hxs, -, -, -, hrest, hpage⟩ := exists_page hsome
        rw [hrest] at hzs
        rw [← hfilter, hpage, hxs, List.append_cons A a R, List.filter_append (A ++ [a]) R]
        exact (ih hzs).append_left _

end Cursor
