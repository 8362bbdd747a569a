/-
  Queries whose WHERE clause cannot be evaluated.

  Without joins the documents are selected by the evaluation of encoded documents, for which
  an operator or operand that it does not know is a condition that does not hold; only the
  selected ones are decoded and evaluated again, with errors.  So a clause that no document can be
  evaluated on is answered with its error exactly if a document is selected all the same
  (`malformed_where_iff`).
-/
import MoltenDB.Common.SystemViews
import MoltenDB.Handlers.Flatten
import MoltenDB.Handlers.Queries
import MoltenDB.Proof.Coalescing

namespace MoltenDB

open Wire Prog Prog.Eff SystemFields

/-! ## Objects -/

section

variable [Crates]

theorem isObject_applyJoin {db : Db} {doc doc' inner : Json} {name : String}
    (h : applyJoin db doc name inner = some doc') : doc'.isObject = doc.isObject := by
  simp only [applyJoin, Option.bind_eq_bind, Option.bind_eq_some_iff, pure, Option.some.injEq] at h
  obtain ⟨_, _, _, _, rfl⟩ := h
  rw [Json.isObject_set]

theorem isObject_applyJoins (db : Db) {doc : Json} (joins : List Json) (h : doc.isObject = true) :
    (applyJoins db doc joins).1.isObject = true := by
  unfold applyJoins
  refine List.foldlRecOn (motive := fun acc : Json × List String => acc.1.isObject = true) _ _ h ?_
  rintro ⟨doc', aliases⟩ hdoc ⟨name, inner⟩ -
  dsimp only
  cases hjoin : applyJoin db doc' name inner with
  | none => exact hdoc
  | some joined => exact (isObject_applyJoin hjoin).trans hdoc

/-- All documents of the collection decode to objects. -/
def ObjectsIn (db : Db) (c : String) : Prop :=
  ∀ k b, db.bytes c k = some b → ∃ fs, msgpackToValue b = some (.obj fs)

/-- A scan found objects, and found some exactly if `P` holds. -/
def Scanned (P : Prop) (docs : List (String × Json)) : Prop :=
  (∀ d ∈ docs, d.2.isObject = true) ∧ (docs ≠ [] ↔ P)

variable {db : Db} {c : String} {col : DashMap Bytes}

omit [Crates] in
theorem Scanned.expandAll {P : Prop} {docs : List (String × Json)} (h : Scanned P docs) :
    Scanned P (expandAll docs) := by
  refine ⟨fun d hd => ?_, ?_⟩
  · obtain ⟨d', hd', rfl⟩ := List.mem_map.1 hd
    have hobj := h.1 d' hd'
    cases hv : d'.2 <;> simp only [hv, Json.isObject, Bool.false_eq_true] at hobj
    rw [expandSystemFields]
    rfl
  · rw [← h.2, MoltenDB.expandAll, Ne, List.map_eq_nil_iff]

omit [Crates] in
theorem Scanned.take {P : Prop} {docs : List (String × Json)} (h : Scanned P docs) {n : ℕ}
    (hn : 1 ≤ n) : Scanned P (docs.take n) := by
  refine ⟨fun d hd => h.1 d (List.mem_of_mem_take hd), ?_⟩
  have hpos : n ≠ 0 := Nat.one_le_iff_ne_zero.1 hn
  rw [← h.2, Ne, List.take_eq_nil_iff, or_iff_right hpos]

omit [Crates] in
theorem Scanned.perm {P : Prop} {docs docs' : List (String × Json)} (h : Scanned P docs)
    (hperm : docs'.Perm docs) : Scanned P docs' := by
  refine ⟨fun d hd => h.1 d (hperm.mem_iff.1 hd), ?_⟩
  rw [← h.2]
  constructor
  · rintro hne rfl
    exact hne hperm.eq_nil
  · rintro hne rfl
    exact hne hperm.symm.eq_nil

/-! ## Scans -/

omit [Crates] in
/-- Each item of a list is decoded to an object. -/
theorem scanned_filterMap {α : Type} {xs : List α} {f : α → Option (String × Json)}
    (h : ∀ x ∈ xs, ∃ k fs, f x = some (k, .obj fs)) : Scanned (xs ≠ []) (xs.filterMap f) := by
  refine ⟨fun d hd => ?_, not_congr ?_⟩
  · obtain ⟨x, hx, hd⟩ := List.mem_filterMap.1 hd
    obtain ⟨k, fs, hfs⟩ := h x hx
    rw [← Option.some.inj (hfs.symm.trans hd)]
    rfl
  · rw [List.filterMap_eq_nil_iff]
    constructor
    · intro hnone
      refine List.eq_nil_iff_forall_not_mem.2 fun x hx => ?_
      obtain ⟨k, fs, hfs⟩ := h x hx
      rw [hnone x hx] at hfs
      cases hfs
    · rintro rfl x hx
      cases hx

omit [Crates] in
theorem decodeKey_object (hobj : ObjectsIn db c) (hcol : db.col c = some col) {k : String} {b : Bytes}
    (hb : col[k]? = some b) : ∃ fs, decodeKey col k = some (k, .obj fs) := by
  obtain ⟨fs, hfs⟩ := hobj k b (by rw [Db.bytes, show db.state[c]? = some col from hcol]; exact hb)
  exact ⟨fs, by rw [decodeKey, hb, Option.bind_some, hfs]; rfl⟩

omit [Crates] in
/-- A pass over an index finds the documents that it names. -/
theorem scanned_scanIndex (hobj : ObjectsIn db c) (hcol : db.col c = some col) (need n : ℕ)
    (pairs : List (UInt64 × String)) :
    Scanned (∃ x ∈ pairs, (col[x.2]?).isSome = true)
      (Db.scanIndex col (fun _ _ => true) need n pairs) := by
  induction pairs generalizing n with
  | nil => exact ⟨fun d hd => (List.not_mem_nil hd).elim, by simp [Db.scanIndex]⟩
  | cons x pairs ih =>
    rw [Db.scanIndex]
    cases hb : col[x.2]? with
    | none =>
      obtain ⟨hobjects, hfound⟩ := ih n
      refine ⟨hobjects, hfound.trans ?_⟩
      rw [List.exists_mem_cons_iff, hb, Option.isSome_none, eq_false Bool.false_ne_true, false_or]
    | some b =>
      obtain ⟨fs, hfs⟩ := decodeKey_object hobj hcol hb
      rw [decodeKey, hb, Option.bind_some] at hfs
      obtain ⟨v, hv, heq⟩ := Option.map_eq_some_iff.1 hfs
      simp only [Option.filter_some, if_true, Option.bind_some, hv]
      refine ⟨fun d hd => ?_, iff_of_true (List.cons_ne_nil _ _) ⟨x, List.mem_cons_self, by simp [hb]⟩⟩
      rcases List.mem_cons.1 hd with rfl | hd
      · rw [(Prod.mk.inj heq).2]
        rfl
      · split_ifs at hd
        · cases hd
        · exact (ih (n + 1)).1 d hd

/-- The index of the collection names a document, or there is no index. -/
def Db.Listed (db : Db) (c : String) : Prop :=
  ∀ idx, db.seqIndex[c]? = some idx →
    ∃ (s : UInt64) (k : String), idx[s]? = some k ∧ (db.bytes c k).isSome = true

/-- A scan without conditions. -/
theorem wp_findInOrder_scanned (hobj : ObjectsIn db c) (hcol : db.col c = some col)
    (hne : ∃ k, (db.bytes c k).isSome = true) {p : Db.GetFilteredParams} (hp : p.collection = c)
    (hall : p.predicate = fun _ _ => true) (lim : ℕ) :
    wp (Db.findInOrder col p lim)
      (fun docs _ => Scanned (db.Listed c) docs) (fun _ _ => False) db := by
  have hbytes : ∀ k, db.bytes c k = col[k]? := fun k => by
    rw [Db.bytes, show db.state[c]? = some col from hcol]
    rfl
  rw [Db.findInOrder, wp_bind, wp_get, hp, hall]
  cases hidx : db.seqIndex[c]? with
  | some idx =>
    obtain ⟨hobjects, hfound⟩ := scanned_scanIndex hobj hcol (usizeAdd p.offset lim) 0
      (if p.defaultOrderAsc then idx.toList else idx.toList.reverse)
    refine ⟨hobjects, hfound.trans ?_⟩
    have hmem : ∀ x, x ∈ (if p.defaultOrderAsc then idx.toList else idx.toList.reverse) ↔
        idx[x.1]? = some x.2 := by
      intro x
      split_ifs
      · exact Map.mem_toList
      · exact List.mem_reverse.trans Map.mem_toList
    constructor
    · rintro ⟨⟨s, k⟩, hx, hsome⟩ idx' hidx'
      obtain rfl := Option.some.inj (hidx.symm.trans hidx')
      exact ⟨s, k, (hmem _).1 hx, by rwa [hbytes]⟩
    · intro hlisted
      obtain ⟨s, k, hs, hsome⟩ := hlisted idx hidx
      exact ⟨(s, k), (hmem _).2 hs, by rwa [← hbytes]⟩
  | none =>
    dsimp only
    rw [wp_bind]
    refine wp_walk fun ks n hks => ?_
    simp only [wp_pure, List.filter_true]
    refine Scanned.perm ?_ ((sortBySeq_perm p.defaultOrderAsc _).map Prod.snd)
    rw [List.map_filterMap]
    have hlisted : col.inOrder ks ≠ [] ↔ db.Listed c := by
      refine iff_of_true ?_ fun idx h => ?_
      · obtain ⟨k, hk⟩ := hne
        obtain ⟨b, hb⟩ := Option.isSome_iff_exists.1 hk
        rw [hbytes] at hb
        exact List.ne_nil_of_mem (Map.mem_inOrder.2 ⟨hks.mem_iff.2 (Map.mem_keys.2 ⟨b, hb⟩), hb⟩)
      · rw [hidx] at h
        cases h
    rw [← hlisted]
    refine scanned_filterMap fun e he => ?_
    obtain ⟨fs, hfs⟩ := hobj e.1 e.2 ((hbytes e.1).trans (Map.mem_inOrder.1 he).2)
    exact ⟨e.1, fs, by rw [hfs]; rfl⟩

variable [Lowercase]

/-- The clause is evaluated on a document: with joins, on the first ones of the scan; without,
    on those whose bytes satisfy it. -/
def Db.Evaluated (db : Db) (c : String) (q : Json) (hasJoins : Bool) : Prop :=
  if hasJoins then db.Listed c else ∃ k b, db.bytes c k = some b ∧ rawMatches q b = true

theorem wp_getFilteredCoalesced_scanned (hobj : ObjectsIn db c) (q : Json) (asc : Bool) {need : ℕ}
    (hneed : 1 ≤ need) :
    wp (Db.getFilteredCoalesced c (fun _ bytes => wherePredicate q bytes) (some need) asc)
      (fun docs _ => Scanned (∃ k b, db.bytes c k = some b ∧ rawMatches q b = true) docs)
      (fun _ _ => False) db := by
  rw [Db.getFilteredCoalesced, wp_bind, wp_get]
  cases hcol : db.col c with
  | none =>
    refine ⟨fun d hd => (List.not_mem_nil hd).elim, iff_of_false (fun h => h rfl) ?_⟩
    rintro ⟨k, b, hb, -⟩
    rw [Db.bytes, show db.state[c]? = none from hcol] at hb
    cases hb
  | some col =>
    have hbytes : ∀ k, db.bytes c k = col[k]? := fun k => by
      rw [Db.bytes, show db.state[c]? = some col from hcol]
      rfl
    dsimp only
    rw [wp_bind]
    refine wp_walk fun ks n hks => Scanned.expandAll ?_
    -- the selected entries of the walk
    have hmem : ∀ x, x ∈ (col.inOrder ks).filter (fun e => wherePredicate q e.2) ↔
        db.bytes c x.1 = some x.2 ∧ rawMatches q x.2 = true := by
      rintro ⟨k, b⟩
      rw [List.mem_filter, Map.mem_inOrder, hbytes, wherePredicate_eq]
      refine and_congr_left fun _ => and_iff_right_of_imp fun hb => ?_
      exact hks.mem_iff.2 (Map.mem_keys.2 ⟨b, hb⟩)
    have hsome : ((Operations.sortBySeq asc (matchingPairs (fun _ bytes => wherePredicate q bytes)
        (col.inOrder ks))).take need) ≠ [] ↔
          ∃ k b, db.bytes c k = some b ∧ rawMatches q b = true := by
      rw [Ne, List.take_eq_nil_iff, or_iff_right (Nat.one_le_iff_ne_zero.1 hneed),
        ← List.length_eq_zero_iff, (sortBySeq_perm asc _).length_eq, List.length_eq_zero_iff,
        matchingPairs, List.map_eq_nil_iff]
      constructor
      · intro hsel
        obtain ⟨x, hx⟩ := List.exists_mem_of_ne_nil _ hsel
        exact ⟨x.1, x.2, (hmem x).1 hx⟩
      · rintro ⟨k, b, h⟩
        exact List.ne_nil_of_mem ((hmem (k, b)).2 h)
    rw [← hsome]
    refine scanned_filterMap fun p hp => ?_
    have hpair := (sortBySeq_perm asc _).mem_iff.1 (List.mem_of_mem_take hp)
    obtain ⟨x, hx, rfl⟩ := List.mem_map.1 hpair
    obtain ⟨fs, hfs⟩ := decodeKey_object hobj hcol (hbytes x.1 ▸ ((hmem x).1 hx).1)
    exact ⟨x.1, fs, hfs⟩

/-- **The scan of a query** finds a document if the clause is to be evaluated on one. -/
theorem wp_scanDocuments_scanned {params : GetParams} (hobj : ObjectsIn db params.colName)
    (hne : ∃ k, (db.bytes params.colName k).isSome = true) {q : Json}
    (hwhere : params.whereClause = some q) (hpre : params.allowedPrefixes = none)
    (hsort : params.sortSpecs = none) (hoffset : params.offset = 0) (hcount : 1 ≤ params.countLimit)
    (hmax : params.countLimit ≤ MAX_COUNT) :
    wp (scanDocuments params) (fun docs _ =>
      Scanned (db.Evaluated params.colName q params.hasJoins) docs) (fun _ _ => False) db := by
  have hprefix : params.hasPrefix = false := by rw [GetParams.hasPrefix, hpre]; rfl
  have hneed : usizeAdd params.offset params.countLimit = params.countLimit := by
    rw [usizeAdd, hoffset, Nat.zero_add, Nat.mod_eq_of_lt]
    exact lt_of_le_of_lt hmax (by decide)
  rw [scanDocuments, hprefix, hwhere, hsort, Db.Evaluated]
  cases hjoins : params.hasJoins with
  | true =>
    simp only [if_true]
    rw [scanFiltered, hsort, Db.getFiltered, wp_bind, wp_get]
    obtain ⟨k, hk⟩ := hne
    cases hcol : db.col params.colName with
    | none =>
      rw [Db.bytes, show db.state[params.colName]? = none from hcol] at hk
      cases hk
    | some col =>
      simp only [hneed, wp_map, Db.filterCollection, Option.isSome_none, Bool.false_eq_true, if_false, wp_bind]
      refine wp_mono (wp_findInOrder_scanned hobj hcol ⟨k, hk⟩ rfl rfl params.countLimit)
        (fun docs _ h => ?_) fun _ _ h => h
      exact (h.take hcount).expandAll
  | false =>
    simp only [Bool.false_eq_true, if_false, Option.isSome_none, hneed]
    exact wp_getFilteredCoalesced_scanned hobj q params.defaultOrderAsc hcount

/-! ## Answers -/

/-- The clause cannot be evaluated on any object. -/
def Malformed (q : Json) : Prop := ∀ fs, ∃ e, evaluateWhere (.obj fs) q = .error e

/-- An object ends the query with the error. -/
theorem filterAndJoinDoc_malformed {params : GetParams} {q : Json} (herr : Malformed q)
    (hwhere : params.whereClause = some q) (hpre : params.allowedPrefixes = none)
    {d : String × Json} (hobj : d.2.isObject = true) (db : Db) :
    ∃ e, filterAndJoinDoc db params d.1 d.2 = .error (GetError.whereEvalError e).intoResponse := by
  have hprefix : params.hasPrefix = false := by rw [GetParams.hasPrefix, hpre]; rfl
  have hevaluated : ∀ joined : Json × List String, joined.1.isObject = true →
      ∃ e, evaluateWhere joined.1 q = .error e := by
    rintro ⟨doc, aliases⟩ hdoc
    cases doc <;> simp only [Json.isObject, Bool.false_eq_true] at hdoc
    exact herr _
  rw [filterAndJoinDoc, hprefix, Bool.false_and, if_neg Bool.false_ne_true, hwhere]
  cases hjoins : params.joinsReq with
  | none =>
    obtain ⟨e, he⟩ := hevaluated (d.2, []) hobj
    exact ⟨e.display, by simp only [he]⟩
  | some joins =>
    obtain ⟨e, he⟩ := hevaluated (applyJoins db d.2 joins) (isObject_applyJoins db joins hobj)
    exact ⟨e.display, by simp only [he]⟩

variable [FloatText]

theorem wp_runGeneralPath_malformed (db : Db) {params : GetParams} (hobj : ObjectsIn db params.colName)
    (hne : ∃ k, (db.bytes params.colName k).isSome = true) {q : Json} (herr : Malformed q)
    (hwhere : params.whereClause = some q) (hkeys : params.keys = none)
    (hpre : params.allowedPrefixes = none) (hsort : params.sortSpecs = none)
    (hoffset : params.offset = 0) (hcount : 1 ≤ params.countLimit)
    (hmax : params.countLimit ≤ MAX_COUNT) :
    wp (runGeneralPath params) (fun r _ => (∃ e, r = (GetError.whereEvalError e).intoResponse) ↔
      db.Evaluated params.colName q params.hasJoins) (fun _ _ => False) db := by
  rw [runGeneralPath, wp_bind, fetchDocuments, hkeys]
  refine wp_mono (wp_scanDocuments_scanned hobj hne hwhere hpre hsort hoffset hcount hmax)
    (fun raw db₁ h => ?_) fun _ _ h => h
  rw [wp_bind, wp_get]
  cases raw with
  | nil =>
    refine iff_of_false ?_ fun hevaluated => h.2.2 hevaluated rfl
    rintro ⟨e, he⟩
    have hstatus : (404 : ℕ) = 400 := congrArg Prod.fst he
    cases hstatus
  | cons d raw =>
    have hall : ∀ d' ∈ d :: raw, ∃ e, filterAndJoinDoc db₁ params d'.1 d'.2 =
        .error (GetError.whereEvalError e).intoResponse := fun d' hd' =>
      filterAndJoinDoc_malformed herr hwhere hpre (h.1 d' hd') db₁
    obtain ⟨e, he⟩ := hall d List.mem_cons_self
    obtain ⟨d', hd', r, hr, hrun⟩ := filterAndJoinDocs_of_error List.mem_cons_self he
    obtain ⟨e', he'⟩ := hall d' hd'
    rw [hrun]
    exact iff_of_true ⟨e', Except.error.inj (hr.symm.trans he')⟩ (h.2.1 (List.cons_ne_nil _ _))

/-- A query of the first documents of a collection with a WHERE clause. -/
structure FirstPage (payload : Json) (c : String) (q : Json) : Prop where
  collection : (namedCollection payload).getD "default" = c
  filter : payload.field .filter = some q
  keys : payload.field .keys = none
  sort : payload.field .sort = none
  prefixes : payload.field .allowedPrefixes = none
  offset : ∀ n, (payload.field .offset).bind Json.asU64 = some n → n = 0
  count : ∀ n, (payload.field .count).bind Json.asU64 = some n → 1 ≤ n.toNat ∧ n.toNat ≤ MAX_COUNT

/-- The query has joins. -/
def hasJoinsOf (payload : Json) : Bool :=
  (((payload.field .joins).bind Json.asArray).map fun joins => !joins.isEmpty).getD false

omit [Crates] [Lowercase] [FloatText] in
theorem FirstPage.parseGetParams_eq (db : Db) {payload q : Json} (h : FirstPage payload c q)
    {now : UInt64}
    (hexp : ¬ (db.ttlExpiry[c]?.any fun exp => collectionIsExpired exp now) = true) :
    ∃ params, parseGetParams db now payload = .ok params ∧ params.colName = c ∧
      params.whereClause = some q ∧ params.keys = none ∧ params.allowedPrefixes = none ∧
      params.sortSpecs = none ∧ params.offset = 0 ∧ 1 ≤ params.countLimit ∧
      params.countLimit ≤ MAX_COUNT ∧ params.hasJoins = hasJoinsOf payload := by
  have hcount : ¬ (((payload.field .count).bind Json.asU64).any fun n => MAX_COUNT < n.toNat) = true := by
    cases hn : (payload.field .count).bind Json.asU64 with
    | none => exact Bool.false_ne_true
    | some n =>
      have hle := (h.count n hn).2
      simp only [Option.any_some, decide_eq_true_eq]
      omega
  have hlimit : 1 ≤ (((payload.field .count).bind Json.asU64).map UInt64.toNat).getD DEFAULT_COUNT ∧
      (((payload.field .count).bind Json.asU64).map UInt64.toNat).getD DEFAULT_COUNT ≤ MAX_COUNT := by
    cases hn : (payload.field .count).bind Json.asU64 with
    | none => exact ⟨by decide, by decide⟩
    | some n => exact h.count n hn
  have hoffset : (((payload.field .offset).bind Json.asU64).map UInt64.toNat).getD 0 = 0 := by
    cases hn : (payload.field .offset).bind Json.asU64 with
    | none => rfl
    | some n =>
      rw [h.offset n hn]
      rfl
  rw [← h.collection] at hexp
  simp only [parseGetParams, if_neg hcount, if_neg hexp]
  refine ⟨_, rfl, h.collection, h.filter, h.keys, ?_, ?_, hoffset, hlimit.1, hlimit.2, rfl⟩
  · rw [h.prefixes, Option.bind_none]
  · rw [h.sort, Option.bind_none]

/-- **A WHERE clause that cannot be evaluated is answered with its error** exactly if the clause is
    evaluated on a document at all: with joins, if the index names one; without, if the bytes of
    one satisfy it. -/
theorem malformed_where_iff {payload q : Json} {maxBodySize maxKeysPerRequest : ℕ}
    (hvalid : validateGetRequest payload maxBodySize maxKeysPerRequest = .ok ())
    (hpage : FirstPage payload c q) (herr : Malformed q) (hobj : ObjectsIn db c)
    (hexp : ¬ db.Expired c) (hne : ∃ k, (db.bytes c k).isSome = true) :
    (∃ e db', processGet payload maxBodySize maxKeysPerRequest db =
      (.ok (GetError.whereEvalError e).intoResponse, db')) ↔
        db.Evaluated c q (hasJoinsOf payload) := by
  obtain ⟨params, hparse, rfl, hwhere, hkeys, hpre, hsort, hoffset, hcount, hmax, hjoins⟩ :=
    hpage.parseGetParams_eq { db with tick := db.tick + 1 } hexp
  rw [processGet_general hvalid hparse hsort, ← hjoins]
  have hrun := wp_runGeneralPath_malformed { db with tick := db.tick + 1 } hobj hne herr hwhere
    hkeys hpre hsort hoffset hcount hmax
  rcases hfinal : runGeneralPath params { db with tick := db.tick + 1 } with ⟨e | r, db'⟩
  · exact (wp_of_error hrun hfinal).elim
  · refine Iff.trans ?_ (wp_of_ok hrun hfinal)
    constructor
    · rintro ⟨e, db'', h⟩
      exact ⟨e, Except.ok.inj (Prod.mk.inj h).1⟩
    · rintro ⟨e, rfl⟩
      exact ⟨e, db', rfl⟩

end

section

/-- A condition with an operator that does not exist. -/
def unknownOperator : Json := .obj [("n", .obj [("$foo", .ofU64 1)])]

/-- That condition, or one that the newer of two documents satisfies. -/
def unknownOrFive : Json := .obj [("$or", .arr [unknownOperator, .obj [("n", .ofU64 5)]])]

def pageWhere (q : Json) : Json := .obj [("collection", .str "c"), ("where", q)]

theorem firstPage_pageWhere (q : Json) : FirstPage (pageWhere q) "c" q :=
  ⟨rfl, rfl, rfl, rfl, rfl, fun _ h => (by cases h), fun _ h => (by cases h)⟩

theorem malformed_unknownOperator :
    letI := Lowercase.ascii
    Malformed unknownOperator := by
  let _ := Lowercase.ascii
  exact fun fs => ⟨_, rfl⟩

theorem malformed_unknownOrFive :
    letI := Lowercase.ascii
    Malformed unknownOrFive := by
  let _ := Lowercase.ascii
  exact fun fs => ⟨_, rfl⟩

theorem objectsIn_ofTwoDocuments : ObjectsIn ofTwoDocuments "c" := by
  intro k b hb
  have hobject : ∀ v, (msgpackToValue (valueToMsgpack v)).any Json.isObject = true →
      valueToMsgpack v = b → ∃ fs, msgpackToValue b = some (.obj fs) := by
    rintro v hv rfl
    obtain ⟨w, hw, hobj⟩ := (Option.any_eq_true _ _).1 hv
    cases w <;> simp only [Json.isObject, Bool.false_eq_true] at hobj
    exact ⟨_, hw⟩
  rw [bytes_ofTwoDocuments, get_twoDocuments] at hb
  split_ifs at hb
  · exact hobject _ (by decide +kernel) (Option.some.inj hb)
  · exact hobject _ (by decide +kernel) (Option.some.inj hb)

/-- The condition that can be evaluated selects the newer document, and the error of the other one
    is reported. -/
theorem malformed_where_iff_or :
    letI := Crates.plain
    letI := Lowercase.ascii
    letI := FloatText.plain
    ∃ e db', processGet (pageWhere unknownOrFive) 1000 10 ofTwoDocuments =
      (.ok (GetError.whereEvalError e).intoResponse, db') :=
  letI := Crates.plain
  letI := Lowercase.ascii
  letI := FloatText.plain
  (malformed_where_iff (by decide +kernel) (firstPage_pageWhere unknownOrFive)
    malformed_unknownOrFive objectsIn_ofTwoDocuments (by decide +kernel) ⟨"b", by decide +kernel⟩).2
      ⟨"b", valueToMsgpack (.obj [(IKEY_SEQ, .ofU64 2), ("n", .ofU64 5)]), by decide +kernel,
        by decide +kernel⟩

/-- **A malformed clause is answered as if no document matched.** -/
theorem unknown_operator_not_found :
    letI := Crates.plain
    letI := Lowercase.ascii
    letI := FloatText.plain
    Malformed unknownOperator ∧ FirstPage (pageWhere unknownOperator) "c" unknownOperator ∧
      ObjectsIn ofTwoDocuments "c" ∧ (ofTwoDocuments.bytes "c" "a").isSome = true ∧
      (processGet (pageWhere unknownOperator) 1000 10 ofTwoDocuments).1.toOption =
        some GetError.noDocumentsFound.intoResponse := by
  refine ⟨malformed_unknownOperator, firstPage_pageWhere unknownOperator, objectsIn_ofTwoDocuments,
    ?_, ?_⟩
  · decide +kernel
  · decide +kernel

end

end MoltenDB
