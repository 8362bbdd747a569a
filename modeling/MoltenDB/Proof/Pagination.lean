/-
  Pages of queries with joins.

  With joins the WHERE clause is not part of the scan: a query without sort specs scans its
  first `offset + count` documents and filters them afterwards.  So it returns the page of
  the documents that match exactly if this page does not reach past these (`PageReached`).
-/
import MoltenDB.Proof.Builds

namespace MoltenDB

open Wire Prog Prog.Eff SystemFields

/-! ## The page of a filtered list -/

section

variable {α : Type} (p : α → Bool) (xs : List α) (o c : ℕ)

theorem filter_take_append_drop (n : ℕ) :
    (xs.take n).filter p ++ (xs.drop n).filter p = xs.filter p := by
  rw [← List.filter_append, List.take_append_drop]

/-- The page of all matches goes on after that of the matches among the first items. -/
theorem page_filter :
    ((xs.filter p).drop o).take c =
      (((xs.take (o + c)).filter p).take (o + c)).drop o ++
        (((xs.drop (o + c)).filter p).take (o + c - ((xs.take (o + c)).filter p).length)).drop
          (o - ((xs.take (o + c)).filter p).length) := by
  have hlen : ((xs.take (o + c)).filter p).length ≤ o + c :=
    (List.length_filter_le _ _).trans (List.length_take_le _ _)
  rw [← filter_take_append_drop p xs (o + c), List.take_drop, List.take_append,
    List.take_of_length_le hlen, List.drop_append]

/-- Nothing is missing from the page of the matches among the first items. -/
theorem rest_eq_nil :
    (((xs.drop (o + c)).filter p).take (o + c - ((xs.take (o + c)).filter p).length)).drop
        (o - ((xs.take (o + c)).filter p).length) = [] ↔
      (∀ x ∈ xs.take (o + c), p x = true) ∨ (∀ x ∈ xs.drop (o + c), p x = false) ∨
        (xs.filter p).length ≤ o ∨ c = 0 := by
  have hsplit := congrArg List.length (filter_take_append_drop p xs (o + c))
  rw [List.length_append] at hsplit
  have hfirst := List.length_filter_le p (xs.take (o + c))
  have htake : (xs.take (o + c)).length = min (o + c) xs.length := List.length_take
  have hdrop : (xs.drop (o + c)).length = xs.length - (o + c) := List.length_drop
  have hrest := List.length_filter_le p (xs.drop (o + c))
  have hall : (∀ x ∈ xs.take (o + c), p x = true) ↔
      ((xs.take (o + c)).filter p).length = (xs.take (o + c)).length :=
    List.length_filter_eq_length_iff.symm
  have hnone : (∀ x ∈ xs.drop (o + c), p x = false) ↔
      ((xs.drop (o + c)).filter p).length = 0 := by
    rw [List.length_eq_zero_iff, List.filter_eq_nil_iff]
    simp
  rw [List.drop_eq_nil_iff, List.length_take, hall, hnone]
  omega

end

/-! ## Joined documents -/

/-- Documents responses tell their lists apart. -/
theorem documentsResponse_injective {xs ys : List Json}
    (h : documentsResponse xs = documentsResponse ys) : xs = ys := by
  unfold documentsResponse at h
  split_ifs at h with hx hy hy
  · rw [hx, hy]
  · have hstatus : 404 = 200 := congrArg Prod.fst h
    cases hstatus
  · have hstatus : 200 = 404 := congrArg Prod.fst h
    cases hstatus
  · exact Json.arr.inj (congrArg Prod.snd h)

/-- An error of a WHERE clause is no answer to a query. -/
theorem whereEvalError_ne_documents (details : String) (docs : List Json) :
    (GetError.whereEvalError details).intoResponse ≠ documentsResponse docs := by
  intro h
  unfold documentsResponse at h
  split_ifs at h
  · have hstatus : 400 = 404 := congrArg Prod.fst h
    cases hstatus
  · have hstatus : 400 = 200 := congrArg Prod.fst h
    cases hstatus

section

variable [Crates] [Lowercase] (db : Db) (params : GetParams)

/-- A document with its joins. -/
def joinedDoc (d : String × Json) : Found := (d.1, applyJoins db d.2 (params.joinsReq.getD []))

/-- The documents of the queried collection (with an allowed key), in the order of the query. -/
def Db.queriedDocs : List (String × Json) :=
  db.inSeq params.colName
    (fun key _ => !params.hasPrefix || startsWithAny (params.prefixes.getD []) key)
    params.defaultOrderAsc none

def Db.joinedDocs : List Found := (db.queriedDocs params).map (joinedDoc db params)

/-- What the WHERE clause says about a joined document. -/
def GetParams.verdict (d : Found) : Except DbError Bool :=
  (params.whereClause.map (evaluateWhere d.2.1)).getD (.ok true)

def GetParams.selects (d : Found) : Bool :=
  match params.verdict d with
  | .ok b => b
  | .error _ => false

/-- The documents at the positions of the page. -/
def GetParams.pageOf (docs : List Found) : List Found :=
  ((docs.filter params.selects).drop params.offset).take params.countLimit

/-- The clause can be evaluated on the first `offset + count` documents, and the page does not
    reach past the matches among them. -/
structure PageReached (docs : List Found) : Prop where
  evaluated : ∀ d ∈ docs.take (params.offset + params.countLimit), ∃ b, params.verdict d = .ok b
  reached : (∀ d ∈ docs.take (params.offset + params.countLimit), params.selects d = true) ∨
    (∀ d ∈ docs.drop (params.offset + params.countLimit), params.selects d = false) ∨
    (docs.filter params.selects).length ≤ params.offset ∨ params.countLimit = 0

variable {db params}

/-- A scanned document is looked at with its joins. -/
theorem filterAndJoinDoc_eq (hjoins : params.hasJoins = true) {d : String × Json}
    (hd : (!params.hasPrefix || startsWithAny (params.prefixes.getD []) d.1) = true) :
    filterAndJoinDoc db params d.1 d.2 =
      match params.verdict (joinedDoc db params d) with
      | .ok true => .ok (some (joinedDoc db params d))
      | .ok false => .ok none
      | .error e => .error (GetError.whereEvalError e.display).intoResponse := by
  have hskip : (params.hasPrefix && !startsWithAny (params.prefixes.getD []) d.1) = false := by
    rw [← Bool.not_eq_true', Bool.not_and, Bool.not_not]
    exact hd
  obtain ⟨joins, hj⟩ : ∃ joins, params.joinsReq = some joins := by
    cases h : params.joinsReq with
    | none => simp [GetParams.hasJoins, h] at hjoins
    | some joins => exact ⟨joins, rfl⟩
  have hjoined : joinedDoc db params d = (d.1, applyJoins db d.2 joins) := by
    simp [joinedDoc, hj]
  rw [hjoined]
  unfold filterAndJoinDoc GetParams.verdict
  rw [hskip, hj]
  cases params.whereClause with
  | none => rfl
  | some clause =>
    rcases hw : evaluateWhere (applyJoins db d.2 joins).1 clause with e | (_ | _) <;> simp [hw]

/-- If the clause can be evaluated, the documents that it selects are kept. -/
theorem filterAndJoinDocs_evaluated (hjoins : params.hasJoins = true) {raw : List (String × Json)}
    (hraw : ∀ d ∈ raw, (!params.hasPrefix || startsWithAny (params.prefixes.getD []) d.1) = true)
    (hok : ∀ d ∈ raw, ∃ b, params.verdict (joinedDoc db params d) = .ok b) :
    filterAndJoinDocs db params raw =
      .ok ((raw.map (joinedDoc db params)).filter params.selects) := by
  have hkept : ∀ d ∈ raw, filterAndJoinDoc db params d.1 d.2 =
      .ok (if params.selects (joinedDoc db params d) then some (joinedDoc db params d) else none) := by
    intro d hd
    obtain ⟨b, hb⟩ := hok d hd
    rw [filterAndJoinDoc_eq hjoins (hraw d hd), GetParams.selects, hb]
    cases b <;> rfl
  rw [filterAndJoinDocs_of_ok hkept, ← List.filterMap_eq_filter, List.filterMap_map]
  refine congrArg _ (List.filterMap_congr fun d _ => ?_)
  cases hsel : params.selects (joinedDoc db params d) <;> simp [Option.guard, hsel]

/-- If the clause cannot be evaluated on a document, the query fails. -/
theorem filterAndJoinDocs_unevaluated (hjoins : params.hasJoins = true) {raw : List (String × Json)}
    (hraw : ∀ d ∈ raw, (!params.hasPrefix || startsWithAny (params.prefixes.getD []) d.1) = true)
    {d : String × Json} (hd : d ∈ raw) (hno : ∀ b, params.verdict (joinedDoc db params d) ≠ .ok b) :
    ∃ e : DbError, filterAndJoinDocs db params raw =
      .error (GetError.whereEvalError e.display).intoResponse := by
  have herror : ∃ r, filterAndJoinDoc db params d.1 d.2 = .error r := by
    rw [filterAndJoinDoc_eq hjoins (hraw d hd)]
    cases hv : params.verdict (joinedDoc db params d) with
    | error e => exact ⟨_, rfl⟩
    | ok b => exact absurd hv (hno b)
  obtain ⟨r, hr⟩ := herror
  obtain ⟨d', hd', r', hr', hall⟩ := filterAndJoinDocs_of_error hd hr
  rw [filterAndJoinDoc_eq hjoins (hraw d' hd')] at hr'
  rw [hall]
  rcases hv : params.verdict (joinedDoc db params d') with e | (_ | _)
  · rw [hv] at hr'
    obtain rfl := Except.error.inj hr'
    exact ⟨e, rfl⟩
  · rw [hv] at hr'
    cases hr'
  · rw [hv] at hr'
    cases hr'

/-! ## The scan -/

omit [Lowercase] in
/-- What a scan finds has passed its test. -/
theorem Db.passes_of_mem_inSeq {c : String} {predicate : Predicate} {asc : Bool}
    {need : Option ℕ} {d : String × Json} (h : d ∈ db.inSeq c predicate asc need) :
    ∃ b, predicate d.1 b = true := by
  unfold Db.inSeq at h
  cases hcol : db.col c with
  | none => simp [hcol] at h
  | some col =>
    rw [hcol] at h
    dsimp only at h
    obtain ⟨d', hd', rfl⟩ := List.mem_map.1 h
    obtain ⟨q, hq, hdec⟩ := List.mem_filterMap.1 hd'
    have hmem : q ∈ seqPairs col predicate asc := by
      cases need with
      | none => exact hq
      | some n => exact List.mem_of_mem_take hq
    rw [seqPairs, sortBySeq_eq, List.mem_insertionSort, matchingPairs, List.mem_map] at hmem
    obtain ⟨e, he, rfl⟩ := hmem
    obtain ⟨v, -, rfl⟩ := Option.map_eq_some_iff.1 hdec
    exact ⟨e.2, (List.mem_filter.1 he).2⟩

omit [Lowercase] in
/-- The first documents of a scan are those of the longer scan. -/
theorem Orderly.inSeq_take {c : String} (h : Orderly db c) (predicate : Predicate) (asc : Bool)
    (n : ℕ) : db.inSeq c predicate asc (some n) = (db.inSeq c predicate asc none).take n := by
  unfold Db.inSeq
  cases hcol : db.col c with
  | none => exact List.take_nil.symm
  | some col =>
    dsimp only [Option.elim]
    rw [expandAll, expandAll, ← List.map_take,
      take_decodeAll (h.decodes col hcol) fun p hp => pairOf_seqPairs hp]

omit [Lowercase] in
/-- With joins the scan takes the first documents, matching or not. -/
theorem Orderly.yields_scanDocuments [Lowercase] (h : Orderly db params.colName)
    (hjoins : params.hasJoins = true) (hsort : params.sortSpecs = none)
    (hfits : params.offset + params.countLimit < 2 ^ 64) :
    Yields db (scanDocuments params)
      ((db.queriedDocs params).take (params.offset + params.countLimit)) := by
  rw [Db.queriedDocs, ← h.inSeq_take]
  have hsum : usizeAdd params.offset params.countLimit = params.offset + params.countLimit :=
    Nat.mod_eq_of_lt hfits
  have hscan : ∀ (predicate : Predicate) (hasWhere : Bool),
      Yields db (scanFiltered params predicate hasWhere) (db.inSeq params.colName predicate
        params.defaultOrderAsc (some (params.offset + params.countLimit))) := by
    intro predicate hasWhere
    unfold scanFiltered
    rw [hsort, hsum]
    exact h.yields_getFiltered (p := ⟨params.colName, predicate, 0,
      some (params.offset + params.countLimit), params.defaultOrderAsc, hasWhere⟩) rfl
      fun n hn => Option.some.inj hn ▸ hfits
  unfold scanDocuments
  rw [hjoins, if_pos rfl]
  cases hprefix : params.hasPrefix with
  | false => exact hscan _ _
  | true => exact hscan _ _

variable [FloatText]

/-- What a query without keys and sort specs answers, with joins. -/
theorem Orderly.processGet_joined {payload : Json} {maxBodySize maxKeysPerRequest : ℕ}
    (h : Orderly db params.colName)
    (hvalid : validateGetRequest payload maxBodySize maxKeysPerRequest = .ok ())
    (hparams : parseGetParams db (db.world.clock db.tick) payload = .ok params)
    (hkeys : params.keys = none) (hsort : params.sortSpecs = none)
    (hjoins : params.hasJoins = true) (hfits : params.offset + params.countLimit < 2 ^ 64) :
    (processGet payload maxBodySize maxKeysPerRequest db).1 =
      .ok (Build.single.generalAnswer params (filterAndJoinDocs db params
        ((db.queriedDocs params).take (params.offset + params.countLimit)))) := by
  have hraw : Yields db (Build.single.fetchDocuments params)
      ((db.queriedDocs params).take (params.offset + params.countLimit)) := by
    rw [Build.fetchDocuments, hkeys]
    exact h.yields_scanDocuments hjoins hsort hfits
  have hgeneral : Yields db (Build.single.runGeneralPath params)
      (Build.single.generalAnswer params (filterAndJoinDocs db params
        ((db.queriedDocs params).take (params.offset + params.countLimit)))) :=
    yields_runGeneralPath hraw
  have hrun : processGet payload maxBodySize maxKeysPerRequest db =
      Build.single.runGeneralPath params { db with tick := db.tick + 1 } :=
    processGet_general hvalid hparams hsort
  rw [hrun]
  exact hgeneral.ok db.world (db.tick + 1)

omit [Crates] [Lowercase] in
/-- Without keys and sort specs the page of the results is returned. -/
theorem generalAnswer_ok [Crates] (hkeys : params.keys = none) (hsort : params.sortSpecs = none)
    (hfits : params.offset + params.countLimit < 2 ^ 64) (results : List Found) :
    Build.single.generalAnswer params (.ok results) =
      documentsResponse (((results.take (params.offset + params.countLimit)).drop
        params.offset).map params.shape) := by
  have hsum : usizeAdd params.offset params.countLimit = params.offset + params.countLimit :=
    Nat.mod_eq_of_lt hfits
  cases results with
  | nil => simp [Build.generalAnswer, documentsResponse]
  | cons d results =>
    unfold Build.generalAnswer Build.shapeAndReturn
    simp only [hkeys, hsort, ← hsum]
    rfl

end

/-! ## A page of two documents -/

section

/-- Documents with `n` = 7, looked for among joined documents. -/
def joinedQuery (count : UInt64) : Json :=
  .obj [("collection", .str "c"), ("count", .ofU64 count),
    ("joins", .arr [.obj [("j", .obj [("from", .str "c"), ("on", .str "n")])]]),
    ("where", .obj [("n", .ofU64 7)])]

def joinedParams (count : ℕ) : GetParams where
  colName := "c"
  whereClause := some (.obj [("n", .ofU64 7)])
  joinsReq := some [.obj [("j", .obj [("from", .str "c"), ("on", .str "n")])]]
  sortSpecs := none
  countLimit := count
  offset := 0
  fieldsReq := none
  excludedReq := none
  allowedPrefixes := none
  expiresVal := none
  keys := none
  defaultOrderAsc := false

theorem joined_page_of_one :
    letI := Crates.plain
    letI := Lowercase.ascii
    ((joinedParams 1).pageOf (ofTwoDocuments.joinedDocs (joinedParams 1))).map Prod.fst = ["a"] := by
  decide +kernel

end

end MoltenDB
