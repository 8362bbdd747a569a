/-
  A query sorted by one field: the scan for a number in the encoded documents, and the one that
  compares decoded documents.

  The first scan leaves out each document without a number at the field, and tells the two zeros
  apart.  Otherwise the two give the same pages (`fast_sort_iff`).
-/
import MoltenDB.Common.Aliases
import MoltenDB.Proof.Builds
import MoltenDB.Query.Lookup

namespace MoltenDB

open Wire Prog Prog.Eff Firsts

/-! ## Encoded and decoded fields -/

namespace Json

/-- A field that is found by its name is decoded under this name. -/
theorem get_canon_storedField {v w : Json} (hv : v.Ordered) {segment : String}
    (h : v.storedField segment = some w) : v.canon.get segment = some w.canon ∧ w.Ordered := by
  obtain ⟨fs, hobj, hlook⟩ := Option.bind_eq_some_iff.1 h
  obtain rfl : v = .obj fs := by cases v <;> simp_all [asObject]
  rw [ordered_obj] at hv
  have hmem := Fields.mem_of_lookup hlook
  rw [List.mem_filter] at hmem
  obtain ⟨hfield, htoken⟩ := hmem
  rw [Option.isNone_iff_eq_none] at htoken
  have hname : segment ∉ aliases := by
    have hall : ∀ name ∈ aliases, tokenOf name ≠ none := by decide
    exact fun halias => hall segment halias htoken
  have hget := get_canon hv.1 hname
  rw [internalName_of_none htoken, Option.or_self,
    Fields.lookup_of_mem hv.1.nodup_keys hfield] at hget
  exact ⟨hget, hv.2 _ hfield⟩

/-- What is found at a path of the bytes is there in the decoded document. -/
theorem getNestedValue_canon {v w : Json} (hv : v.Ordered) {parts : List String}
    (h : v.storedValue parts = some w) : v.canon.getNestedValue parts = some w.canon := by
  induction parts generalizing v with
  | nil => cases h
  | cons segment parts ih =>
    cases parts with
    | nil =>
      obtain ⟨hget, -⟩ := get_canon_storedField hv h
      rw [getNestedValue, hget]
      rfl
    | cons part parts =>
      rw [storedValue] at h
      · obtain ⟨x, hx, hrest⟩ := Option.bind_eq_some_iff.1 h
        obtain ⟨hget, hx'⟩ := get_canon_storedField hv hx
        rw [getNestedValue, hget]
        exact ih hx' hrest
      · exact List.cons_ne_nil _ _

theorem Stored.storedValue {v w : Json} (hv : v.Stored) {parts : List String}
    (h : v.storedValue parts = some w) : w.Stored := by
  induction parts generalizing v with
  | nil => cases h
  | cons segment parts ih =>
    cases parts with
    | nil => exact hv.storedField h
    | cons part parts =>
      rw [Json.storedValue] at h
      · obtain ⟨x, hx, hrest⟩ := Option.bind_eq_some_iff.1 h
        exact ih (hv.storedField hx) hrest
      · exact List.cons_ne_nil _ _

theorem asF64_canon (v : Json) : v.canon.asF64 = v.asF64 := by
  cases v <;> rfl

end Json

/-- A number to sort by, up to the order. -/
def signed (descending : Bool) (q : ℚ) : ℚ := if descending then -q else q

theorem compare_signed (descending : Bool) (p q : ℚ) :
    compare (signed descending p) (signed descending q) =
      if descending then (compare p q).swap else compare p q := by
  cases descending with
  | false => rfl
  | true =>
    simp only [signed, if_true]
    rcases lt_trichotomy p q with h | h | h
    · rw [compare_lt_iff_lt.2 h, compare_gt_iff_gt.2 (neg_lt_neg h)]
      rfl
    · rw [h, compare_eq_iff_eq.2 rfl, compare_eq_iff_eq.2 rfl]
      rfl
    · rw [compare_gt_iff_gt.2 h, compare_lt_iff_lt.2 (neg_lt_neg h)]
      rfl

section

variable [Crates]

/-- The number that is read from the bytes is that of the decoded document. -/
theorem sortValueAt_valueToMsgpack {v : Json} (hv : v.Stored) (ho : v.Ordered)
    {parts : List String} {descending : Bool} {m : SortValue}
    (h : sortValueAt parts descending (valueToMsgpack v) = some m) :
    ∃ w q, v.canon.getNestedValue parts = some w ∧ w.asF64 = some q ∧
      m.value = signed descending q := by
  have hfinds := findMsgpackValue_writeValue hv parts []
  rw [List.append_nil] at hfinds
  obtain ⟨slice, hslice, h⟩ := Option.bind_eq_some_iff.1 h
  obtain ⟨q, hq, hm⟩ := Option.bind_eq_some_iff.1 h
  rw [valueToMsgpack] at hslice
  cases hstored : v.storedValue parts with
  | none =>
    rw [hstored] at hfinds
    rw [show findMsgpackValue (writeValue v) parts = none from hfinds] at hslice
    cases hslice
  | some y =>
    rw [hstored] at hfinds
    obtain ⟨rest, hfound⟩ := hfinds
    rw [hfound] at hslice
    cases hslice
    have hy : y.Stored := hv.storedValue hstored
    rw [readMsgpackNumber_writeValue hy.fits] at hq
    refine ⟨y.canon, q, Json.getNestedValue_canon ho hstored, by rw [Json.asF64_canon, hq], ?_⟩
    have hm' := Option.some.inj hm
    rw [← hm']
    cases descending <;> rfl

end

/-! ## Sorted lists -/

section

variable {α β : Type}

theorem filterMap_eq_map_filter (f : α → Option β) (d : α → β) (xs : List α) :
    xs.filterMap f = (xs.filter fun x => (f x).isSome).map fun x => (f x).getD (d x) := by
  induction xs with
  | nil => rfl
  | cons x xs ih =>
    cases hx : f x with
    | none => simp [hx, ih]
    | some y => simp [hx, ih]

theorem firsts_map (cmp : β → β → Ordering) (g : α → β) (n : ℕ) (xs : List α) :
    firsts (atMost cmp) n (xs.map g) =
      (firsts (atMost fun a b => cmp (g a) (g b)) n xs).map g := by
  rw [firsts, firsts, List.map_take,
    List.map_insertionSort (atMost fun a b => cmp (g a) (g b)) (atMost cmp) g xs
      fun _ _ _ _ => Iff.rfl]

theorem insertionSort_congr {r s : α → α → Prop} [DecidableRel r] [DecidableRel s] {xs : List α}
    (h : ∀ a ∈ xs, ∀ b ∈ xs, r a b ↔ s a b) : xs.insertionSort r = xs.insertionSort s := by
  have hmap := List.map_insertionSort r s id xs h
  rwa [List.map_id, List.map_id] at hmap

/-- Two lists with the same pages are the same. -/
theorem eq_of_pages {xs ys : List α} {n : ℕ} (hxs : xs.length < n) (hys : ys.length < n)
    (h : ∀ i, i + 1 < n → (xs.take (i + 1)).drop i = (ys.take (i + 1)).drop i) : xs = ys := by
  refine List.ext_getElem? fun i => ?_
  by_cases hi : i + 1 < n
  · have hpage := congrArg List.head? (h i hi)
    simpa [List.head?_drop] using hpage
  · rw [List.getElem?_eq_none (by omega), List.getElem?_eq_none (by omega)]

end

/-! ## The two orders of the documents -/

section

variable [Crates]

/-- Every document is passed. -/
abbrev everything : Predicate := fun _ _ => true

/-- The item of an entry. -/
def itemOf (field : String) (descending : Bool) (e : String × Bytes) : SortItem :=
  ⟨e.1, (sortValueAt (splitDots field) descending e.2).getD ⟨0, false⟩⟩

/-- The decoded document of an entry. -/
def docOf (e : String × Bytes) : String × Json := (e.1, (msgpackToValue e.2).getD .null)

/-- The entries with a number at the field. -/
def numbered (field : String) (descending : Bool) (col : DashMap Bytes) : List (String × Bytes) :=
  col.toList.filter fun e => (sortValueAt (splitDots field) descending e.2).isSome

/-- Entries as the scan for a number compares them. -/
def numberOrder (field : String) (descending : Bool) (e e' : String × Bytes) : Ordering :=
  SortItem.cmp (itemOf field descending e) (itemOf field descending e')

/-- Entries as the scan of decoded documents compares them. -/
def docOrder (cmp : Json → Json → Ordering) (e e' : String × Bytes) : Ordering :=
  cmpDocs cmp (docOf e) (docOf e')

/-- The documents are what the database stores, and are counted by a size. -/
structure Documents (col : DashMap Bytes) : Prop where
  encoded : ∀ (k : String) (b : Bytes), col[k]? = some b →
    ∃ v : Json, b = valueToMsgpack v ∧ v.Stored ∧ v.Ordered
  size : col.toList.length < 2 ^ 64

/-- Every document has a number at the field; and of a negative zero and a zero, the one that
    counts as smaller has the smaller key. -/
structure NumbersAt (field : String) (descending : Bool) (col : DashMap Bytes) : Prop where
  numbers : ∀ (k : String) (b : Bytes), col[k]? = some b →
    (sortValueAt (splitDots field) descending b).isSome = true
  zeros : ∀ (k k' : String) (b b' : Bytes) (m m' : SortValue), col[k]? = some b →
    col[k']? = some b' → sortValueAt (splitDots field) descending b = some m →
    sortValueAt (splitDots field) descending b' = some m' → m.value = m'.value →
    m.negativeZero = true → m'.negativeZero = false → compare k k' = .lt

instance transCmp_numberOrder (field : String) (descending : Bool) :
    Std.TransCmp (numberOrder field descending) :=
  transCmp_comap (itemOf field descending)

omit [Crates] in
theorem transCmp_docOrder {cmp : Json → Json → Ordering} (h : Std.TransCmp cmp) :
    Std.TransCmp (docOrder cmp) := by
  have := transCmp_cmpDocs h
  exact transCmp_comap docOf

variable {col : DashMap Bytes} {field : String} {descending : Bool}

omit [Crates] in
theorem Documents.decodes [Crates] (h : Documents col) {e : String × Bytes} (he : e ∈ col.toList) :
    msgpackToValue e.2 = some (docOf e).2 := by
  obtain ⟨v, hb, hv, -⟩ := h.encoded e.1 e.2 (Map.mem_toList.1 he)
  have hdecode := msgpackToValue_valueToMsgpack hv.fits
  rw [← hb] at hdecode
  rw [docOf, hdecode]
  rfl

/-- **The scan for a number** finds the first documents that have one. -/
theorem Documents.expected_eq (h : Documents col) (cap : ℕ) :
    ScanRequest.expected col ⟨everything, .sortedTopN field descending cap⟩ =
      (firsts (atMost (numberOrder field descending)) cap (numbered field descending col)).map
        docOf := by
  have hitems : col.toList.filterMap (sortItem everything (splitDots field) descending) =
      (numbered field descending col).map (itemOf field descending) := by
    rw [filterMap_eq_map_filter _ (itemOf field descending)]
    have hsome : ∀ e : String × Bytes, (sortItem everything (splitDots field) descending e).isSome =
        (sortValueAt (splitDots field) descending e.2).isSome := by
      intro e
      simp [sortItem]
    simp only [hsome]
    refine List.map_congr_left fun e he => ?_
    cases hm : sortValueAt (splitDots field) descending e.2 with
    | none => simp [sortItem, itemOf, hm]
    | some m => simp [sortItem, itemOf, hm]
  rw [expected_sortedTopN cap (.refl _), hitems, firsts_map, List.filterMap_map,
    ← List.filterMap_eq_map]
  refine List.filterMap_congr fun e he => ?_
  have hmem : e ∈ col.toList := List.mem_of_mem_filter (mem_of_mem_firsts he)
  have hbytes : col[e.1]? = some e.2 := Map.mem_toList.1 hmem
  rw [Function.comp_apply, decodeKey, show (itemOf field descending e).key = e.1 from rfl, hbytes,
    Option.bind_some, h.decodes hmem]
  rfl

/-- **The scan of decoded documents** finds the first ones. -/
theorem Documents.firsts_docs (h : Documents col) (cmp : Json → Json → Ordering) (cap : ℕ) :
    firsts (atMost (cmpDocs cmp)) cap (col.toList.filterMap (docItem everything)) =
      (firsts (atMost (docOrder cmp)) cap col.toList).map docOf := by
  have hdocs : col.toList.filterMap (docItem everything) = col.toList.map docOf := by
    rw [← List.filterMap_eq_map]
    refine List.filterMap_congr fun e he => ?_
    rw [docItem, if_pos rfl, h.decodes he]
    rfl
  rw [hdocs, firsts_map]
  rfl

/-! ## When the orders agree -/

variable [FloatText]

omit [FloatText] in
theorem numberOrder_eq {e e' : String × Bytes} {m m' : SortValue}
    (hm : sortValueAt (splitDots field) descending e.2 = some m)
    (hm' : sortValueAt (splitDots field) descending e'.2 = some m') :
    numberOrder field descending e e' = ((compare m.value m'.value).then
      (compare m'.negativeZero m.negativeZero)).then (compare e.1 e'.1) := by
  rw [numberOrder, itemOf, itemOf, hm, hm']
  rfl

/-- Documents with numbers are compared by these. -/
theorem Documents.docOrder_eq (h : Documents col) {spec : Json}
    (hspec : sortField spec = some (field, descending)) (hfield : field ≠ "")
    {e e' : String × Bytes} (he : e ∈ col.toList) (he' : e' ∈ col.toList) {m m' : SortValue}
    (hm : sortValueAt (splitDots field) descending e.2 = some m)
    (hm' : sortValueAt (splitDots field) descending e'.2 = some m') :
    docOrder (makeComparator [spec]) e e' =
      (compare m.value m'.value).then (compare e.1 e'.1) := by
  have hvalue : ∀ {e : String × Bytes} {m : SortValue}, e ∈ col.toList →
      sortValueAt (splitDots field) descending e.2 = some m →
      ∃ w q, (docOf e).2.getNestedValue (splitDots field) = some w ∧ w.asF64 = some q ∧
        m.value = signed descending q := by
    intro e m he hm
    obtain ⟨v, hb, hv, ho⟩ := h.encoded e.1 e.2 (Map.mem_toList.1 he)
    rw [hb] at hm
    have hdecode := msgpackToValue_valueToMsgpack hv.fits
    rw [← hb] at hdecode
    rw [docOf, hdecode]
    exact sortValueAt_valueToMsgpack hv ho hm
  obtain ⟨w, q, hw, hq, hmq⟩ := hvalue he hm
  obtain ⟨w', q', hw', hq', hmq'⟩ := hvalue he' hm'
  have hcmp : makeComparator [spec] (docOf e).2 (docOf e').2 = compare m.value m'.value := by
    rw [makeComparator_cons [] hspec hfield, hmq, hmq', compare_signed, compareLex, specOrder, hw,
      hw', compareValues, hq, hq', makeComparator, Ordering.then_eq]
  rw [docOrder, cmpDocs, hcmp]
  rfl

/-- Both orders of documents with numbers agree, but for zeros. -/
theorem NumbersAt.atMost_iff (hn : NumbersAt field descending col) (h : Documents col)
    {spec : Json} (hspec : sortField spec = some (field, descending)) (hfield : field ≠ "")
    {e e' : String × Bytes} (he : e ∈ col.toList) (he' : e' ∈ col.toList) :
    atMost (numberOrder field descending) e e' ↔ atMost (docOrder (makeComparator [spec])) e e' := by
  have hb := Map.mem_toList.1 he
  have hb' := Map.mem_toList.1 he'
  obtain ⟨m, hm⟩ := Option.isSome_iff_exists.1 (hn.numbers e.1 e.2 hb)
  obtain ⟨m', hm'⟩ := Option.isSome_iff_exists.1 (hn.numbers e'.1 e'.2 hb')
  rw [atMost, atMost, numberOrder_eq hm hm', h.docOrder_eq hspec hfield he he' hm hm']
  rcases lt_trichotomy m.value m'.value with hlt | heq | hgt
  · rw [compare_lt_iff_lt.2 hlt]
    rfl
  · rw [compare_eq_iff_eq.2 heq]
    cases hz : m.negativeZero with
    | false =>
      cases hz' : m'.negativeZero with
      | false => rfl
      | true =>
        have hkey := hn.zeros _ _ _ _ _ _ hb' hb hm' hm heq.symm hz' hz
        have hzeros : compare true false = .gt := rfl
        rw [Std.OrientedCmp.gt_of_lt hkey, hzeros]
        simp
    | true =>
      cases hz' : m'.negativeZero with
      | false =>
        have hzeros : compare false true = .lt := rfl
        rw [hn.zeros _ _ _ _ _ _ hb hb' hm hm' heq hz hz', hzeros]
        simp
      | true => rfl
  · rw [compare_gt_iff_gt.2 hgt]
    rfl

/-- **The sorted lists are the same** exactly if every document has a number, and zeros are in the
    order of their keys. -/
theorem Documents.sorted_eq_iff (h : Documents col) (hfloat : FloatText.Numeric) {spec : Json}
    (hspec : sortField spec = some (field, descending)) (hfield : field ≠ "") :
    (numbered field descending col).insertionSort (atMost (numberOrder field descending)) =
        col.toList.insertionSort (atMost (docOrder (makeComparator [spec]))) ↔
      NumbersAt field descending col := by
  have := transCmp_docOrder (transCmp_makeComparator hfloat [spec])
  constructor
  · intro heq
    have hall : ∀ e ∈ col.toList, e ∈ numbered field descending col := by
      intro e he
      rwa [← List.mem_insertionSort (atMost (numberOrder field descending)), heq,
        List.mem_insertionSort]
    refine ⟨fun k b hb => ?_, fun k k' b b' m m' hb hb' hm hm' hvalue hz hz' => ?_⟩
    · exact (List.mem_filter.1 (hall (k, b) (Map.mem_toList.2 hb))).2
    · have hk : (k, b) ∈ col.toList := Map.mem_toList.2 hb
      have hk' : (k', b') ∈ col.toList := Map.mem_toList.2 hb'
      have hzeros : compare false true = .lt := rfl
      have hlt : numberOrder field descending (k, b) (k', b') = .lt := by
        rw [numberOrder_eq hm hm', compare_eq_iff_eq.2 hvalue, hz, hz', hzeros]
        rfl
      have hne : k ≠ k' := by
        rintro rfl
        rw [hb] at hb'
        cases hb'
        rw [hm] at hm'
        cases hm'
        rw [hz] at hz'
        cases hz'
      -- both orders hold along the one list
      have hpair := (List.pairwise_insertionSort (atMost (numberOrder field descending))
        (numbered field descending col)).and
          (heq ▸ List.pairwise_insertionSort (atMost (docOrder (makeComparator [spec]))) col.toList)
      let Along (e e' : String × Bytes) : Prop := atMost (numberOrder field descending) e e' ∧
        atMost (docOrder (makeComparator [spec])) e e'
      have heither : Along (k, b) (k', b') ∨ Along (k', b') (k, b) := by
        have hsymm : Std.Symm fun e e' => Along e e' ∨ Along e' e := ⟨fun _ _ => Or.symm⟩
        refine List.Pairwise.forall (R := fun e e' => Along e e' ∨ Along e' e)
          (hpair.imp Or.inl) ?_ ?_ fun heq => hne (congrArg Prod.fst heq)
        · exact (List.mem_insertionSort _).2 (hall _ hk)
        · exact (List.mem_insertionSort _).2 (hall _ hk')
      rcases heither with ⟨-, hdoc⟩ | ⟨hnum, -⟩
      · rw [atMost, h.docOrder_eq hspec hfield hk hk' hm hm', compare_eq_iff_eq.2 hvalue] at hdoc
        rcases Fields.lt_trichotomy k k' with hkey | hkey | hkey
        · exact hkey
        · exact absurd hkey hne
        · rw [Std.OrientedCmp.gt_of_lt hkey] at hdoc
          cases hdoc
      · rw [atMost, Std.OrientedCmp.gt_of_lt hlt] at hnum
        cases hnum
  · intro hn
    have hnumbered : numbered field descending col = col.toList :=
      List.filter_eq_self.2 fun e he => hn.numbers e.1 e.2 (Map.mem_toList.1 he)
    rw [hnumbered]
    exact insertionSort_congr fun e he e' he' => hn.atMost_iff h hspec hfield he he'

end

/-! ## Pages -/

section

variable [Crates]

/-- The answer to a sorted request in a batch, whatever the other requests of the batch get. -/
theorem yields_coalesced_sorted (db : Db) (w : Workers) (before after : List ScanRequest)
    (c : String) (predicate : Predicate) (field : String) (descending : Bool) (cap : ℕ) :
    Yields db (coalesced w before after c ⟨predicate, .sortedTopN field descending cap⟩)
      (db.smallest c predicate field descending cap) := by
  intro world n
  simp only [coalesced, runBatchForCollection, wp_bind, wp_get]
  rw [Db.col_elsewhere, Db.smallest]
  cases hcol : db.col c with
  | none => exact ⟨by simp [expandAll], n, rfl⟩
  | some col =>
    simp only [wp_bind]
    refine wp_walk fun ks n' hks => ⟨congrArg expandAll ?_, n', rfl⟩
    rw [fold_tasks, zipWith_answer, List.map_append, List.map_cons, List.getD_eq_getElem?_getD,
      List.getElem?_append_right (by simp), ScanRequest.expected]
    simp only [List.length_map, Nat.sub_self, List.getElem?_cons_zero, Option.getD_some,
      ScanRequest.answer, ScanRequest.task, Task.result]
    rw [firsts_items_perm cap ((Map.inOrder_perm hks).filterMap _)]

omit [Crates] in
/-- All documents in an order, those that it does not tell apart by their keys. -/
def Db.sortedDocs (db : Db) (c : String) (cmp : Json → Json → Ordering) : List (String × Json) :=
  match db.col c with
  | none => []
  | some col =>
    expandAll ((col.toList.filterMap (docItem everything)).insertionSort (atMost (cmpDocs cmp)))

/-- One page of the documents that an operation returns. -/
def page (params : GetParams) (m : Op (List (String × Json))) (db : Db) :
    Except DbError (List (String × Json)) :=
  (m db).1.map (List.drop params.offset)

/-- The positions from `offset` to `offset + count - 1`. -/
def GetParams.positions (params : GetParams) (docs : List (String × Json)) : List (String × Json) :=
  (docs.take (params.offset + params.countLimit)).drop params.offset

/-- The query asks for a page of a collection, without a WHERE clause and without overflow. -/
structure GetParams.Plain (params : GetParams) (c : String) : Prop where
  colName : params.colName = c
  noFilter : params.whereClause = none
  noOverflow : params.offset + params.countLimit < 2 ^ 64

omit [Crates] in
theorem page_of_yields {params : GetParams} {db : Db} {m : Op (List (String × Json))}
    {docs : List (String × Json)} (h : Yields db m docs) :
    page params m db = .ok (docs.drop params.offset) := by
  rw [page, show (m db).1 = .ok docs from h.ok db.world db.tick]
  rfl

omit [Crates] in
theorem Db.firstBy_everything (db : Db) (c : String) (cmp : Json → Json → Ordering) (cap : ℕ) :
    db.firstBy c everything cmp cap = (db.sortedDocs c cmp).take cap := by
  rw [Db.firstBy, Db.sortedDocs]
  cases db.col c with
  | none => rw [List.take_nil]
  | some col => exact List.map_take

variable [Lowercase] [FloatText]

/-- Without a field to sort by, the documents are compared. -/
theorem page_general {params : GetParams} {db : Db} {c : String} (h : params.Plain c)
    (hfloat : FloatText.Numeric) (w : Workers) (before after : List ScanRequest) {spec : Json}
    (hspec : ∀ field descending, sortField spec = some (field, descending) → field = "") :
    page params ((Build.native w before after).fastSorted params [spec]) db =
      .ok (params.positions (db.sortedDocs c (makeComparator [spec]))) := by
  have hfield : ((sortField spec).getD ("", false)).1 = "" := by
    cases hs : sortField spec with
    | none => rfl
    | some p => exact hspec p.1 p.2 hs
  have hcap : usizeAdd params.offset params.countLimit = params.offset + params.countLimit :=
    Nat.mod_eq_of_lt h.noOverflow
  have hyields := yields_scanTopN db w c everything (transCmp_makeComparator hfloat [spec])
    (params.offset + params.countLimit)
  rw [Db.firstBy_everything] at hyields
  refine page_of_yields ?_
  unfold Build.fastSorted
  dsimp only
  rw [if_pos hfield, h.colName, h.noFilter]
  simp only [Build.native]
  rw [hcap]
  exact hyields

/-- With a field to sort by, the documents with the smallest numbers are found. -/
theorem page_numbers {params : GetParams} {db : Db} {c : String} (h : params.Plain c)
    (w : Workers) (before after : List ScanRequest) {spec : Json} {field : String}
    {descending : Bool} (hspec : sortField spec = some (field, descending)) (hfield : field ≠ "") :
    page params ((Build.native w before after).fastSorted params [spec]) db =
      .ok ((db.smallest c everything field descending
        (params.offset + params.countLimit)).drop params.offset) := by
  have hcap : usizeAdd params.offset params.countLimit = params.offset + params.countLimit :=
    Nat.mod_eq_of_lt h.noOverflow
  have hyields := yields_coalesced_sorted db w before after c everything field descending
    (params.offset + params.countLimit)
  refine page_of_yields ?_
  unfold Build.fastSorted
  dsimp only
  rw [hspec, Option.getD_some, if_neg hfield, h.colName, h.noFilter]
  simp only [Build.native]
  rw [hcap]
  exact hyields

omit [Crates] [Lowercase] [FloatText] in
/-- The keys of entries tell which they are. -/
theorem eq_of_keys {col : DashMap Bytes} {xs ys : List (String × Bytes)}
    (hxs : ∀ e ∈ xs, e ∈ col.toList) (hys : ∀ e ∈ ys, e ∈ col.toList)
    (h : xs.map Prod.fst = ys.map Prod.fst) : xs = ys := by
  have hentries : ∀ {zs : List (String × Bytes)}, (∀ e ∈ zs, e ∈ col.toList) →
      (zs.map Prod.fst).filterMap (fun k => col[k]?.map fun b => (k, b)) = zs := by
    intro zs hzs
    rw [List.filterMap_map]
    refine (List.filterMap_congr fun e he => ?_).trans List.filterMap_some
    have hb : col[e.1]? = some e.2 := Map.mem_toList.1 (hzs e he)
    rw [Function.comp_apply, hb]
    rfl
  rw [← hentries hxs, ← hentries hys, h]

omit [Crates] [Lowercase] [FloatText] in
theorem map_fst_expandAll (es : List (String × Bytes)) :
    (expandAll (es.map docOf)).map Prod.fst = es.map Prod.fst := by
  rw [expandAll, List.map_map, List.map_map]
  rfl

omit [Lowercase] in
/-- The pages of one collection agree exactly if its sorted lists do. -/
theorem Documents.pages_iff {col : DashMap Bytes} (h : Documents col) (hfloat : FloatText.Numeric)
    {db : Db} {c : String} (hcol : db.col c = some col) {spec : Json} {field : String}
    {descending : Bool} (hspec : sortField spec = some (field, descending)) (hfield : field ≠ "") :
    (∀ params : GetParams, params.Plain c → (db.smallest c everything field descending
        (params.offset + params.countLimit)).drop params.offset =
      params.positions (db.sortedDocs c (makeComparator [spec]))) ↔
      NumbersAt field descending col := by
  rw [← h.sorted_eq_iff hfloat hspec hfield]
  set xs := (numbered field descending col).insertionSort (atMost (numberOrder field descending))
    with hxs
  set ys := col.toList.insertionSort (atMost (docOrder (makeComparator [spec]))) with hys
  have hsmallest : ∀ n, db.smallest c everything field descending n =
      expandAll ((xs.take n).map docOf) := by
    intro n
    rw [Db.smallest, hcol]
    exact congrArg expandAll (h.expected_eq n)
  have hsorted : db.sortedDocs c (makeComparator [spec]) = expandAll (ys.map docOf) := by
    have hall := h.firsts_docs (makeComparator [spec]) col.toList.length
    rw [firsts, firsts, List.take_of_length_le, List.take_of_length_le, ← hys] at hall
    · rw [Db.sortedDocs, hcol]
      exact congrArg expandAll hall
    · rw [List.length_insertionSort]
    · rw [List.length_insertionSort]
      exact List.length_filterMap_le _ _
  have htake : ∀ n, (expandAll (ys.map docOf)).take n = expandAll ((ys.take n).map docOf) := by
    intro n
    rw [expandAll, expandAll, ← List.map_take, ← List.map_take]
  simp only [GetParams.positions, hsmallest, hsorted, htake]
  constructor
  · intro hpages
    have hxcol : ∀ e ∈ xs, e ∈ col.toList := fun e he =>
      List.mem_of_mem_filter ((List.mem_insertionSort _).1 he)
    have hycol : ∀ e ∈ ys, e ∈ col.toList := fun e he => (List.mem_insertionSort _).1 he
    refine eq_of_keys hxcol hycol (eq_of_pages (n := 2 ^ 64) ?_ ?_ fun i hi => ?_)
    · rw [List.length_map, hxs, List.length_insertionSort]
      exact lt_of_le_of_lt (List.length_filter_le _ _) h.size
    · rw [List.length_map, hys, List.length_insertionSort]
      exact h.size
    · have hpage := congrArg (List.map Prod.fst) (hpages
        { colName := c, whereClause := none, joinsReq := none, sortSpecs := none, countLimit := 1,
          offset := i, fieldsReq := none, excludedReq := none, allowedPrefixes := none,
          expiresVal := none, keys := none, defaultOrderAsc := false } ⟨rfl, rfl, hi⟩)
      rwa [List.map_drop, List.map_drop, map_fst_expandAll, map_fst_expandAll, List.map_take,
        List.map_take] at hpage
  · intro heq params _
    rw [heq]

end

/-! ## Numbers, and a string among them -/

/-- A collection of two documents with a value at the field `n`. -/
def twoValues (v w : Json) : DashMap Bytes :=
  ((∅ : DashMap Bytes).insert "a" (valueToMsgpack (.obj [("n", v)]))).insert "b"
    (valueToMsgpack (.obj [("n", w)]))

def ofTwoValues (v w : Json) : Db :=
  { Db.blank (World.plain 0 []) 0 with state := (∅ : State).insert "c" (twoValues v w) }

theorem documents_twoValues {v w : Json} (hv : (Json.obj [("n", v)]).Stored)
    (hvo : (Json.obj [("n", v)]).Ordered) (hw : (Json.obj [("n", w)]).Stored)
    (hwo : (Json.obj [("n", w)]).Ordered) (hsize : (twoValues v w).toList.length < 2 ^ 64) :
    ∀ col, (ofTwoValues v w).col "c" = some col → Documents col := by
  intro col hcol
  rw [Db.col, ofTwoValues, Map.get?_insert, if_pos rfl] at hcol
  obtain rfl := Option.some.inj hcol
  refine ⟨fun k b hb => ?_, hsize⟩
  rw [twoValues, Map.get?_insert, Map.get?_insert, Map.get?_empty] at hb
  split_ifs at hb
  · exact ⟨_, (Option.some.inj hb).symm, hw, hwo⟩
  · exact ⟨_, (Option.some.inj hb).symm, hv, hvo⟩

theorem documents_numbers :
    ∀ col, (ofTwoValues (.ofU64 7) (.ofU64 5)).col "c" = some col → Documents col := by
  refine documents_twoValues ⟨?_, ?_⟩ ?_ ⟨?_, ?_⟩ ?_ ?_ <;> decide +kernel

theorem documents_text :
    ∀ col, (ofTwoValues (.ofU64 7) (.str "x")).col "c" = some col → Documents col := by
  refine documents_twoValues ⟨?_, ?_⟩ ?_ ⟨?_, ?_⟩ ?_ ?_ <;> decide +kernel

/-- A page of ten documents, by the field `n`. -/
def firstTen : GetParams where
  colName := "c"
  whereClause := none
  joinsReq := none
  sortSpecs := some [.str "n"]
  countLimit := 10
  offset := 0
  fieldsReq := none
  excludedReq := none
  allowedPrefixes := none
  expiresVal := none
  keys := none
  defaultOrderAsc := false

end MoltenDB
