/-
  Every branch of the filtered scan gives the same page.

  `Db.filteredPage` is the reference: the matches sorted by sequence number, without the first
  `offset` ones.  Without a count the scan sorts compact items from a position on only, by
  sequence numbers rounded to doubles first; rounding keeps the order, so this is the order of
  the sequence numbers (`CompactItem.ofSeq_cmp`).  With a count the scan reserves memory for
  `offset + count` documents before it looks at any, and panics if a vector cannot have as many:
  the page is right exactly if it can (`filtered_page_iff`).
-/
import MoltenDB.Engine.Targets
import MoltenDB.Proof.Builds

namespace MoltenDB

open Wire Prog Prog.Eff Firsts

/-! ## Compact items -/

namespace CompactItem

instance transCmp : Std.TransCmp cmp :=
  inferInstanceAs (Std.TransCmp (compareLex
    (compareLex (compareOn fun i : CompactItem => i.sortValue.value)
      (fun a b => compareOn (fun i : CompactItem => i.sortValue.negativeZero) b a))
    (compareOn CompactItem.seq)))

theorem eq_of_cmp {a b : CompactItem} (h : cmp a b = .eq) : a = b := by
  obtain ⟨⟨va, za⟩, sa⟩ := a
  obtain ⟨⟨vb, zb⟩, sb⟩ := b
  simp only [cmp, SortValue.totalCmp, Ordering.then_eq_eq, Std.LawfulEqOrd.compare_eq_iff_eq] at h
  obtain ⟨⟨rfl, rfl⟩, rfl⟩ := h
  rfl

theorem ofSeq_cmp (a b : UInt64) : (ofSeq a).cmp (ofSeq b) =
    (compare (Binary64.roundNat a.toNat : ℚ) (Binary64.roundNat b.toNat)).then (compare a b) := by
  rw [cmp, SortValue.totalCmp, ofSeq, ofSeq, compare_eq_iff_eq.2 rfl, Ordering.then_eq]

theorem round_le {a b : UInt64} (h : a ≤ b) :
    (Binary64.roundNat a.toNat : ℚ) ≤ Binary64.roundNat b.toNat :=
  Nat.cast_le.2 (Binary64.roundNat_mono (UInt64.le_iff_toNat_le.1 h))

/-- **Rounded numbers are ordered** as the sequence numbers themselves. -/
theorem ofSeq_cmp_isLE (a b : UInt64) : ((ofSeq a).cmp (ofSeq b)).isLE = true ↔ a ≤ b := by
  rw [ofSeq_cmp]
  constructor
  · intro h
    by_contra hab
    have hba : b < a := UInt64.not_le.1 hab
    rcases (round_le (UInt64.le_of_lt hba)).lt_or_eq with hlt | heq
    · rw [compare_gt_iff_gt.2 hlt] at h
      cases h
    · rw [compare_eq_iff_eq.2 heq.symm, Ordering.eq_then] at h
      exact hab (Std.isLE_compare.1 h)
  · intro h
    rcases (round_le h).lt_or_eq with hlt | heq
    · rw [compare_lt_iff_lt.2 hlt]
      rfl
    · rw [compare_eq_iff_eq.2 heq, Ordering.eq_then]
      exact Std.isLE_compare.2 h

end CompactItem

theorem pageItems_eq (sel : SelectNth) (start : ℕ) (items : List CompactItem) :
    pageItems sel start items = (items.insertionSort (atMost CompactItem.cmp)).drop start := by
  unfold pageItems
  split_ifs with h
  · exact sel.insertionSort_drop (P := fun _ => True)
      (atMost_antisymm fun _ _ _ _ => CompactItem.eq_of_cmp) (fun _ _ => trivial) h
  · rw [List.drop_eq_nil_of_le]
    rw [List.length_insertionSort]
    omega

/-- The items on the page are those of the sorted pairs. -/
theorem pageItems_map_ofSeq (sel : SelectNth) (start : ℕ) (pairs : List (UInt64 × String)) :
    pageItems sel start (pairs.map fun p => CompactItem.ofSeq p.1) =
      (((Operations.sortBySeq true pairs).map Prod.fst).drop start).map CompactItem.ofSeq := by
  rw [pageItems_eq, sortBySeq_eq, ← List.map_insertionSort (InSeqOrder true) (atMost CompactItem.cmp)
    (fun p => CompactItem.ofSeq p.1) pairs fun a _ b _ => (CompactItem.ofSeq_cmp_isLE a.1 b.1).symm,
    ← List.map_drop, ← List.map_drop, List.map_map]
  rfl

section

variable [Crates]

/-- Selecting and sorting finds the page that sorting alone finds. -/
theorem hydratePage_eq (sel : SelectNth) (col : DashMap Bytes) (predicate : Predicate)
    (offset : ℕ) : hydratePage sel col predicate offset = Db.hydrate col predicate offset := by
  unfold hydratePage Db.hydrate
  congr 1
  funext entries
  dsimp only
  rw [pageItems_map_ofSeq]
  generalize ((Operations.sortBySeq true (matchingPairs predicate entries)).map Prod.fst).drop
    offset = seqs
  have hseqs : (seqs.map CompactItem.ofSeq).map CompactItem.seq = seqs := by
    rw [List.map_map]
    exact List.map_id seqs
  cases seqs with
  | nil => rfl
  | cons seq seqs =>
    rw [if_neg (by simp), if_neg (by simp)]
    congr 1
    funext entries
    rw [hseqs, List.filterMap_map]
    rfl

/-! ## The page -/

/-- If there is a count, a vector can have as many documents as the scan reserves memory for. -/
def Db.Reserves (db : Db) (maxCapacity : ℕ) (p : Db.GetFilteredParams) : Prop :=
  ∀ n, p.count = some n → db.col p.collection ≠ none → p.offset + n ≤ maxCapacity

variable {db : Db} {p : Db.GetFilteredParams} {arch : TargetArch}

/-- With a count, the scan of either target finds the page. -/
theorem Orderly.yields_findPage (h : Orderly db p.collection) {col : DashMap Bytes}
    (hcol : db.col p.collection = some col) {lim : ℕ} (hcount : p.count = some lim)
    (hfits : p.offset + lim < 2 ^ arch.usizeBits) :
    Yields db (arch.findPage col p lim) (db.filteredPage p) := by
  cases arch with
  | native =>
    have hp : { p with count := some lim } = p := by
      rw [← hcount]
    rw [TargetArch.findPage, hp]
    refine h.yields_filterCollection hcol fun n hn => ?_
    obtain rfl : lim = n := Option.some.inj (hcount.symm.trans hn)
    exact hfits
  | wasm32 => exact h.yields_wasm_findInOrder hcol hcount hfits

theorem Orderly.yields_page (h : Orderly db p.collection) {maxCapacity : ℕ} (sel : SelectNth)
    (hfits : ∀ n, p.count = some n → p.offset + n < 2 ^ arch.usizeBits)
    (hreserves : db.Reserves maxCapacity p) :
    Yields db (arch.getFiltered maxCapacity sel p) (some (db.filteredPage p)) := by
  refine yields_get_bind fun world n => ?_
  rw [Db.col_elsewhere]
  cases hcol : db.col p.collection with
  | none =>
    rw [Db.filteredPage, hcol]
    exact yields_pure _
  | some col =>
    dsimp only
    cases hcount : p.count with
    | none =>
      rw [Db.filteredPage, hcol, hcount]
      dsimp only
      rw [hydratePage_eq]
      exact ((h.numbered col hcol).yields_hydrate p.predicate p.offset).map some
    | some lim =>
      have hneed := hreserves lim hcount (by rw [hcol]; exact Option.some_ne_none col)
      dsimp only
      rw [Nat.mod_eq_of_lt (hfits lim hcount), if_neg (by omega)]
      exact (h.yields_findPage hcol hcount (hfits lim hcount)).map some

/-- A scan that reserves too much memory panics. -/
theorem yields_panic {maxCapacity n : ℕ} (sel : SelectNth) (hcol : db.col p.collection ≠ none)
    (hcount : p.count = some n) (hfits : p.offset + n < 2 ^ arch.usizeBits)
    (hneed : maxCapacity < p.offset + n) :
    Yields db (arch.getFiltered maxCapacity sel p) none := by
  obtain ⟨col, hcol⟩ := Option.ne_none_iff_exists'.1 hcol
  refine yields_get_bind fun world tick => ?_
  rw [Db.col_elsewhere, hcol]
  dsimp only
  rw [hcount]
  dsimp only
  rw [Nat.mod_eq_of_lt hfits, if_pos hneed]
  exact yields_pure _

omit [Crates] in
theorem Yields.unique {α : Type} {m : Op α} {v u : α} (hv : Yields db m v) (hu : Yields db m u) :
    v = u :=
  Except.ok.inj ((hv.ok db.world db.tick).symm.trans (hu.ok db.world db.tick))

/-- **The page is the reference's** exactly if memory for it can be reserved: with a WHERE
    clause or without one, by the index or a scan, natively and on wasm32, in every order of the
    walks and of the selection. -/
theorem filtered_page_iff (h : Orderly db p.collection) (arch : TargetArch) (maxCapacity : ℕ)
    (sel : SelectNth) (hfits : ∀ n, p.count = some n → p.offset + n < 2 ^ arch.usizeBits) :
    Yields db (arch.getFiltered maxCapacity sel p) (some (db.filteredPage p)) ↔
      db.Reserves maxCapacity p := by
  constructor
  · intro hpage n hcount hcol
    by_contra hneed
    have hpanic := yields_panic sel hcol hcount (hfits n hcount) (Nat.lt_of_not_le hneed)
    cases hpage.unique hpanic
  · exact h.yields_page sel hfits

end

/-- The `count` documents behind the first `offset` ones, in order and without a WHERE clause. -/
def pageOf (offset count : ℕ) : Db.GetFilteredParams where
  collection := "c"
  predicate _ _ := true
  offset
  count := some count
  defaultOrderAsc := true
  hasWhere := false

/-- The second document is a page on both targets. -/
theorem filtered_page_second :
    letI := Crates.plain
    Yields ofTwoDocuments (TargetArch.native.getFiltered 100 (.sort _) (pageOf 1 1))
        (some (ofTwoDocuments.filteredPage (pageOf 1 1))) ∧
      Yields ofTwoDocuments (TargetArch.wasm32.getFiltered 100 (.sort _) (pageOf 1 1))
        (some (ofTwoDocuments.filteredPage (pageOf 1 1))) ∧
      (ofTwoDocuments.filteredPage (pageOf 1 1)).map Prod.fst = ["b"] := by
  let _ := Crates.plain
  have hreserves : ofTwoDocuments.Reserves 100 (pageOf 1 1) := by
    intro n hn _
    cases hn
    decide
  have hpage : ∀ arch : TargetArch,
      Yields ofTwoDocuments (arch.getFiltered 100 (.sort _) (pageOf 1 1))
        (some (ofTwoDocuments.filteredPage (pageOf 1 1))) := by
    intro arch
    refine (filtered_page_iff ofTwoDocuments_orderly arch 100 _ fun n hn => ?_).2 hreserves
    cases hn
    cases arch <;> decide
  exact ⟨hpage .native, hpage .wasm32, by decide +kernel⟩

/-- The most documents that a vector can have, of 56 bytes each. -/
def maxDocuments : ℕ := (2 ^ 63 - 1) / 56

/-- A page of all documents there can be, though there are but two, is never found. -/
theorem unreserved_page :
    letI := Crates.plain
    Orderly ofTwoDocuments "c" ∧
      (∀ n, (pageOf 0 (2 ^ 64 - 1)).count = some n → (pageOf 0 (2 ^ 64 - 1)).offset + n < 2 ^ 64) ∧
      ¬ Yields ofTwoDocuments
        (TargetArch.native.getFiltered maxDocuments (.sort _) (pageOf 0 (2 ^ 64 - 1)))
        (some (ofTwoDocuments.filteredPage (pageOf 0 (2 ^ 64 - 1)))) := by
  let _ := Crates.plain
  have hfits : (pageOf 0 (2 ^ 64 - 1)).offset + (2 ^ 64 - 1) < 2 ^ 64 := by decide
  refine ⟨ofTwoDocuments_orderly, fun n hn => ?_, fun hpage => ?_⟩
  · cases hn
    exact hfits
  · have hcol : ofTwoDocuments.col "c" ≠ none := by
      rw [col_ofTwoDocuments]
      exact Option.some_ne_none _
    have hpanic : Yields ofTwoDocuments (TargetArch.native.getFiltered maxDocuments (.sort _)
        (pageOf 0 (2 ^ 64 - 1))) none := yields_panic (.sort _) hcol rfl hfits (by decide)
    cases hpage.unique hpanic

end MoltenDB
