/-
  Pages of a list whose order may change between them.

  Each page is cut from the list as it is listed then, and the pages end with the first empty
  one.  They have the items of the list, each as often as it is there, in whatever orders it is
  listed, exactly if it fits on one page or all items look alike (`pages_perm_iff`).
-/
import Mathlib.Tactic

namespace Pages

variable {α β : Type} (size : ℕ)

/-- The items of the pages from the `i`-th on, one page after the other; at most `n` pages. -/
def pages (lists : ℕ → List α) : ℕ → ℕ → List α
  | 0, _ => []
  | n + 1, i =>
    match ((lists i).drop (i * size)).take size with
    | [] => []
    | a :: page => a :: page ++ pages lists n (i + 1)

variable {size} {lists : ℕ → List α} {l : List α}

theorem pages_congr {lists' : ℕ → List α} {n i : ℕ} (h : ∀ j, i ≤ j → lists j = lists' j) :
    pages size lists n i = pages size lists' n i := by
  induction n generalizing i with
  | zero => rfl
  | succ n ih =>
    rw [pages, pages, h i (le_refl i), ih fun j hj => h j (by omega)]

/-- Pages of a list that does not change. -/
theorem pages_const (hsize : 0 < size) {n i : ℕ} (hn : l.length < i * size + n) :
    pages size (fun _ => l) n i = l.drop (i * size) := by
  induction n generalizing i with
  | zero =>
    rw [pages, List.drop_eq_nil_iff.2 (by omega)]
  | succ n ih =>
    have hnext : (i + 1) * size = i * size + size := by ring
    rw [pages]
    cases hpage : (l.drop (i * size)).take size with
    | nil =>
      have hlen := congrArg List.length hpage
      rw [List.length_take, List.length_drop, List.length_nil] at hlen
      rw [List.drop_eq_nil_iff.2 (by omega)]
    | cons a page =>
      dsimp only
      rw [← hpage, ih (by omega), hnext, ← List.drop_drop, List.take_append_drop]

theorem mem_of_mem_pages {n i : ℕ} {a : α} (h : a ∈ pages size lists n i) :
    ∃ j, a ∈ lists j := by
  induction n generalizing i with
  | zero => cases h
  | succ n ih =>
    rw [pages] at h
    cases hpage : ((lists i).drop (i * size)).take size with
    | nil =>
      rw [hpage] at h
      cases h
    | cons b page =>
      rw [hpage] at h
      rcases List.mem_append.1 h with h | h
      · exact ⟨i, List.mem_of_mem_drop (List.mem_of_mem_take (hpage ▸ h))⟩
      · exact ih h

/-- The pages have as many items as the lists. -/
theorem length_pages {m : ℕ} (hlists : ∀ i, (lists i).length = m) (hsize : 0 < size) {n i : ℕ}
    (hn : m < i * size + n) : (pages size lists n i).length = m - i * size := by
  induction n generalizing i with
  | zero =>
    rw [pages, List.length_nil]
    omega
  | succ n ih =>
    have hnext : (i + 1) * size = i * size + size := by ring
    have hlen : (((lists i).drop (i * size)).take size).length = min size (m - i * size) := by
      rw [List.length_take, List.length_drop, hlists]
    rw [pages]
    cases hpage : ((lists i).drop (i * size)).take size with
    | nil =>
      rw [hpage, List.length_nil] at hlen
      rw [List.length_nil]
      omega
    | cons a page =>
      rw [hpage] at hlen
      dsimp only
      rw [List.length_append, hlen, ih (by omega)]
      omega

/-- A list that fits on one page. -/
theorem pages_one (hlists : ∀ i, (lists i).length ≤ size) (n : ℕ) :
    pages size lists (n + 2) 0 = lists 0 := by
  have hfirst : ((lists 0).drop (0 * size)).take size = lists 0 := by
    rw [Nat.zero_mul, List.drop_zero, List.take_of_length_le (hlists 0)]
  have hrest : pages size lists (n + 1) 1 = [] := by
    rw [pages, Nat.one_mul, List.drop_eq_nil_iff.2 (hlists 1), List.take_nil]
  rw [pages, hfirst, hrest]
  cases lists 0 with
  | nil => rfl
  | cons a l => exact List.append_nil _

/-- Two items change places between the first page and the second. -/
theorem pages_swapped {x y : α} {A B : List α} (hsize : A.length + 1 = size) {n : ℕ}
    (hn : (x :: A ++ y :: B).length < n) :
    pages size (fun i => if i = 0 then x :: A ++ y :: B else y :: A ++ x :: B) n 0 =
      x :: A ++ x :: B := by
  obtain ⟨n, rfl⟩ : ∃ m, n = m + 1 := ⟨n - 1, by omega⟩
  have hxA : (x :: A).length = size := hsize
  have hyA : (y :: A).length = size := hsize
  have hfirst : ((x :: A ++ y :: B).drop (0 * size)).take size = x :: A := by
    rw [Nat.zero_mul, List.drop_zero, ← hxA, List.take_left]
  have hrest : pages size (fun i => if i = 0 then x :: A ++ y :: B else y :: A ++ x :: B) n 1 =
      x :: B := by
    have hlater : ∀ j, 1 ≤ j → (if j = 0 then x :: A ++ y :: B else y :: A ++ x :: B) =
        y :: A ++ x :: B := fun j hj => if_neg (by omega)
    rw [pages_congr hlater, pages_const (by omega), Nat.one_mul, ← hyA, List.drop_left]
    simp only [List.length_append, List.length_cons] at hn ⊢
    omega
  rw [pages, if_pos rfl, hfirst]
  dsimp only
  rw [Nat.zero_add, hrest]

/-- A list with two different items has them at the front of its first two pages, in some
    order. -/
theorem exists_perm_pages {x y : α} (hx : x ∈ l) (hy : y ∈ l) (hne : y ≠ x) (hsize : 0 < size)
    (hlong : size < l.length) :
    ∃ A B, l.Perm (x :: A ++ y :: B) ∧ A.length + 1 = size := by
  obtain ⟨s, t, rfl⟩ := List.append_of_mem hx
  have hrest : y ∈ s ++ t := by
    rcases List.mem_append.1 hy with hy | hy
    · exact List.mem_append_left _ hy
    · exact List.mem_append_right _ ((List.mem_cons.1 hy).resolve_left hne)
  obtain ⟨s', t', hst⟩ := List.append_of_mem hrest
  refine ⟨(s' ++ t').take (size - 1), (s' ++ t').drop (size - 1), ?_, ?_⟩
  · refine List.perm_middle.trans ?_
    rw [hst, List.cons_append, List.perm_cons]
    refine List.perm_middle.trans (List.Perm.trans ?_ List.perm_middle.symm)
    rw [List.take_append_drop]
  · have hlen := congrArg List.length hst
    simp only [List.length_append, List.length_cons] at hlen hlong
    rw [List.length_take, List.length_append]
    omega

/-- **Pages of a list in changing orders** have its items, up to how they look, exactly if there
    is one page, or all items look alike. -/
theorem pages_perm_iff (f : α → β) (hsize : 0 < size) {n : ℕ} (hn : l.length < n) (hn2 : 2 ≤ n) :
    (∀ lists : ℕ → List α, (∀ i, (lists i).Perm l) →
        ((pages size lists n 0).map f).Perm (l.map f)) ↔
      l.length ≤ size ∨ ∀ x ∈ l, ∀ y ∈ l, f x = f y := by
  constructor
  · intro h
    refine or_iff_not_imp_left.2 fun hlong x hx y hy => ?_
    by_cases hne : y = x
    · rw [hne]
    · obtain ⟨A, B, hperm, hA⟩ := exists_perm_pages hx hy hne hsize (not_le.1 hlong)
      have hfront : ∀ a b : α, (a :: A ++ b :: B).Perm (a :: b :: (A ++ B)) := fun a b =>
        List.Perm.cons a List.perm_middle
      have hswap : (x :: A ++ y :: B).Perm (y :: A ++ x :: B) :=
        (hfront x y).trans ((List.Perm.swap y x _).trans (hfront y x).symm)
      have hpages := h (fun i => if i = 0 then x :: A ++ y :: B else y :: A ++ x :: B) fun i => by
        split_ifs
        · exact hperm.symm
        · exact hswap.symm.trans hperm.symm
      rw [pages_swapped hA (hperm.length_eq ▸ hn)] at hpages
      have hsame := hpages.trans (hperm.map f)
      rw [List.map_append, List.map_append, List.perm_append_left_iff] at hsame
      have hone : ([f x] ++ B.map f).Perm ([f y] ++ B.map f) := hsame
      exact List.singleton_perm_singleton.1 ((List.perm_append_right_iff _).1 hone)
  · rintro (hshort | halike) lists hlists
    · obtain ⟨m, rfl⟩ : ∃ m, n = m + 2 := ⟨n - 2, by omega⟩
      rw [pages_one fun i => (hlists i).length_eq.trans_le hshort]
      exact (hlists 0).map f
    · have hlen : (pages size lists n 0).length = l.length := by
        rw [length_pages (fun i => (hlists i).length_eq) hsize (by omega)]
        omega
      cases l with
      | nil => rw [List.length_eq_zero_iff.1 hlen]
      | cons x l =>
        have hall : ∀ b ∈ (x :: l).map f, b = f x := by
          intro b hb
          obtain ⟨y, hy, rfl⟩ := List.mem_map.1 hb
          exact halike y hy x List.mem_cons_self
        have hall' : ∀ b ∈ (pages size lists n 0).map f, b = f x := by
          intro b hb
          obtain ⟨y, hy, rfl⟩ := List.mem_map.1 hb
          obtain ⟨j, hj⟩ := mem_of_mem_pages hy
          exact halike y ((hlists j).mem_iff.1 hj) x List.mem_cons_self
        rw [List.eq_replicate_of_mem hall, List.eq_replicate_of_mem hall', List.length_map,
          List.length_map, hlen]

end Pages
