/-
  A bulk delete and the query it is meant to follow.

  Both test the stored bytes against the clause; the query tests the decoded document
  once more.
-/
import MoltenDB.Engine.Removals
import MoltenDB.Engine.Settings
import MoltenDB.Engine.Steps
import MoltenDB.Engine.Storage.Registers
import MoltenDB.Handlers.Flatten
import MoltenDB.Handlers.Writes

namespace MoltenDB

open Wire Prog Prog.Eff SystemFields

/-! ## What a bulk delete removes -/

section

variable [Crates]

theorem mem_matchingPairs {predicate : Predicate} {entries : List (String × Bytes)} {k : String} :
    k ∈ (matchingPairs predicate entries).map Prod.snd ↔
      ∃ bytes, (k, bytes) ∈ entries ∧ predicate k bytes = true := by
  simp only [matchingPairs, List.map_map, List.mem_map, List.mem_filter, Function.comp_apply]
  constructor
  · rintro ⟨⟨k', bytes⟩, ⟨hmem, hp⟩, rfl⟩
    exact ⟨bytes, hmem, hp⟩
  · rintro ⟨bytes, hmem, hp⟩
    exact ⟨(k, bytes), ⟨hmem, hp⟩, rfl⟩

/-- The keys of the matches in a walk over a collection, in the order of their numbers. -/
theorem mem_sorted_matches {col : DashMap Bytes} {ks : List String} (h : ks.Perm col.keys)
    {predicate : Predicate} (asc : Bool) {k : String} :
    k ∈ (Operations.sortBySeq asc (matchingPairs predicate (col.inOrder ks))).map Prod.snd ↔
      ∃ bytes, col[k]? = some bytes ∧ predicate k bytes = true := by
  rw [((sortBySeq_perm asc _).map Prod.snd).mem_iff, mem_matchingPairs]
  constructor
  · rintro ⟨bytes, hmem, hp⟩
    exact ⟨bytes, (Map.mem_inOrder.1 hmem).2, hp⟩
  · rintro ⟨bytes, hk, hp⟩
    exact ⟨bytes, Map.mem_inOrder.2 ⟨h.mem_iff.2 (Map.mem_keys.2 ⟨bytes, hk⟩), hk⟩, hp⟩

theorem length_sorted_matches {col : DashMap Bytes} {ks : List String} (h : ks.Perm col.keys)
    (predicate : Predicate) (asc : Bool) :
    (Operations.sortBySeq asc (matchingPairs predicate (col.inOrder ks))).length ≤ col.size := by
  rw [(sortBySeq_perm asc _).length_eq, matchingPairs, List.length_map, ← Map.length_inOrder h]
  exact List.length_filter_le _ _

/-- **A filtered delete removes what passes the test**, if the limit is high enough. -/
theorem wp_deleteFiltered_bytes {db : Db} {c : String} {limit : ℕ} (hcount : db.count c ≤ limit)
    (predicate : Predicate) (asc : Bool) :
    wp (Operations.deleteFiltered c predicate (some limit) asc)
      (fun _ db' => ∀ k, db'.bytes c k = (db.bytes c k).filter fun bytes => !predicate k bytes)
      (fun _ _ => True) db := by
  simp only [Operations.deleteFiltered, wp_bind, wp_get]
  cases hcol : db.col c with
  | none =>
    rintro k
    have hstate : db.state[c]? = none := hcol
    simp [Db.bytes, hstate]
  | some col =>
    rw [wp_bind]
    refine wp_walk fun ks n hks => ?_
    have hbytes : ∀ k, db.bytes c k = col[k]? := by
      intro k
      have hstate : db.state[c]? = some col := hcol
      simp [Db.bytes, hstate]
    have hle : col.size ≤ limit := by simpa [Db.count, hcol] using hcount
    have hlen := (length_sorted_matches hks predicate asc).trans hle
    have hkeys : ∀ k, k ∈ (Operations.sortBySeq asc
        (matchingPairs predicate (col.inOrder ks))).map Prod.snd ↔
        ∃ bytes, col[k]? = some bytes ∧ predicate k bytes = true := fun k =>
      mem_sorted_matches hks asc
    change wp (Operations.deleteKeys c (Operations.truncate (some limit)
      ((Operations.sortBySeq asc (matchingPairs predicate (col.inOrder ks))).map Prod.snd))) _ _ _
    rw [Operations.truncate, List.take_of_length_le (by rwa [List.length_map])]
    generalize (Operations.sortBySeq asc (matchingPairs predicate (col.inOrder ks))).map Prod.snd =
      keys at hkeys
    have hfilter : ∀ k, (if k ∈ keys then none else db.bytes c k) =
        (db.bytes c k).filter fun bytes => !predicate k bytes := by
      intro k
      rw [hbytes]
      split_ifs with hk
      · obtain ⟨bytes, hsome, hp⟩ := (hkeys k).1 hk
        rw [hsome, Option.filter_some, hp]
        rfl
      · cases hsome : col[k]? with
        | none => rfl
        | some bytes =>
          have hp : predicate k bytes = false :=
            Bool.eq_false_iff.2 fun hp => hk ((hkeys k).2 ⟨bytes, hsome, hp⟩)
          rw [Option.filter_some, hp]
          rfl
    unfold Operations.deleteKeys
    split_ifs with hzero
    · rintro k
      rw [← hfilter k, if_neg (by simp [List.length_eq_zero_iff.1 hzero])]
      rfl
    · rw [wp_bind]
      refine wp_mono (wp_delete_bytes c _ _) (fun _ db' h k => ?_) fun _ _ _ => trivial
      rw [← hfilter k]
      exact h k

end

/-! ## The request -/

/-- A query, or a bulk delete, of up to 1000 documents. -/
def bulkPayload (c : String) (q : Json) : Json :=
  .obj [("collection", .str c), ("count", .ofU64 1000), ("where", q)]

/-- The keys in a list of documents that is returned. -/
def listedKeys (r : Response) : List String :=
  (r.2.asArray.getD []).filterMap fun doc => (doc.get KEY).bind Json.asStr

/-- The document is there before, and not after. -/
def Removed (db db' : Db) (c k : String) : Prop := (db.bytes c k).isSome ∧ db'.bytes c k = none

/-- The answer of a handler. -/
def answer (m : Op Response) (db : Db) : Option Response := (m db).1.toOption

section

variable [Crates] [Lowercase] [FloatText] {db : Db} {c : String} {q : Json}

/-- **A bulk delete** that succeeds removes what satisfies the clause on encoded documents. -/
theorem wp_processDelete_bulk (hcount : db.count c ≤ 1000) (maxBodySize maxKeysPerRequest : ℕ) :
    wp (processDelete (bulkPayload c q) maxBodySize maxKeysPerRequest)
      (fun r db' => r.1 = 200 → ∀ k, Removed db db' c k ↔ ∃ bytes, db.bytes c k = some bytes ∧
        rawMatches q bytes = true) (fun _ _ => False) db := by
  have hvalid : ∀ (check : Except ValidationError Unit) (handle : Op Response)
      (Q : Response → Db → Prop),
      (∀ r, r.1 = 400 → Q r db) → wp handle Q (fun _ _ => False) db →
      wp (validated check handle) Q (fun _ _ => False) db := by
    intro check handle Q herr hhandle
    cases check with
    | error e => exact herr _ rfl
    | ok u => exact hhandle
  have herr : ∀ r : Response, r.1 = 400 → r.1 = 200 → ∀ k, Removed db db c k ↔
      ∃ bytes, db.bytes c k = some bytes ∧ rawMatches q bytes = true := by
    intro r h400 h200
    rw [h400] at h200
    cases h200
  refine hvalid _ _ _ herr (hvalid _ _ _ herr ?_)
  change wp (do
    let r ← Eff.outcome (Db.deleteFiltered c (fun _ bytes => rawMatches q bytes) (some 1000) true)
    return deleteResponse r .failedToDelete) _ _ _
  rw [wp_bind, wp_outcome, Db.deleteFiltered, wp_bind]
  refine wp_checkFault (fun _ => ?_) fun err h200 => by cases h200
  refine wp_mono (wp_deleteFiltered_bytes hcount _ _) (fun n db' h _ k => ?_)
    fun err _ _ h200 => by cases h200
  rw [Removed, h k]
  cases db.bytes c k with
  | none => simp
  | some bytes =>
    cases hraw : rawMatches q bytes <;> simp [hraw]

/-! ## The query -/

/-- A stored document that a query with the clause returns under its key. -/
def Shown (q : Json) (bytes : Bytes) : Prop :=
  rawMatches q bytes = true ∧ ∃ fs, msgpackToValue bytes = some (.obj fs) ∧
    evaluateWhere (expandSystemFields (.obj fs)) q = .ok true

omit [Lowercase] [FloatText] in
/-- **The documents of a scan** for a clause are those whose bytes satisfy it. -/
theorem wp_getFilteredCoalesced {predicate : Predicate} {need : ℕ} (hcount : db.count c ≤ need)
    (asc : Bool) :
    wp (Db.getFilteredCoalesced c predicate (some need) asc)
      (fun docs db' => (∃ n, db' = { db with tick := n }) ∧ docs.length ≤ need ∧
        ∀ k v, (k, v) ∈ docs ↔ ∃ bytes w, db.bytes c k = some bytes ∧ predicate k bytes = true ∧
          msgpackToValue bytes = some w ∧ v = expandSystemFields w) (fun _ _ => False) db := by
  simp only [Db.getFilteredCoalesced, wp_bind, wp_get]
  cases hcol : db.col c with
  | none =>
    refine ⟨⟨db.tick, rfl⟩, Nat.zero_le _, fun k v => ?_⟩
    have hstate : db.state[c]? = none := hcol
    simp [Db.bytes, hstate]
  | some col =>
    rw [wp_bind]
    refine wp_walk fun ks n hks => ?_
    have hbytes : ∀ k, db.bytes c k = col[k]? := by
      intro k
      have hstate : db.state[c]? = some col := hcol
      simp [Db.bytes, hstate]
    have hle : col.size ≤ need := by simpa [Db.count, hcol] using hcount
    have hlen := (length_sorted_matches hks predicate asc).trans hle
    refine ⟨⟨n, rfl⟩, ?_, fun k v => ?_⟩
    · rw [expandAll, List.length_map]
      exact (List.length_filterMap_le _ _).trans (List.length_take_le _ _)
    · rw [List.take_of_length_le hlen]
      simp only [expandAll, List.mem_map, List.mem_filterMap, decodeKey, Option.map_eq_some_iff,
        Option.bind_eq_some_iff, hbytes]
      constructor
      · rintro ⟨_, ⟨p, hp, w, ⟨bytes, hk, hw⟩, rfl⟩, heq⟩
        cases heq
        obtain ⟨bytes', hk', hpred⟩ := (mem_sorted_matches hks asc).1 (List.mem_map_of_mem hp)
        cases hk.symm.trans hk'
        exact ⟨bytes, w, hk, hpred, hw, rfl⟩
      · rintro ⟨bytes, w, hk, hpred, hw, rfl⟩
        obtain ⟨p, hp, rfl⟩ := List.mem_map.1 ((mem_sorted_matches hks asc).2 ⟨bytes, hk, hpred⟩)
        exact ⟨(p.2, w), ⟨p, hp, w, ⟨bytes, hk, hw⟩, rfl⟩, rfl⟩

/-- The parameters of a bulk query. -/
def bulkParams (db : Db) (c : String) (q : Json) : GetParams where
  colName := c
  whereClause := some q
  joinsReq := none
  sortSpecs := none
  countLimit := 1000
  offset := 0
  fieldsReq := none
  excludedReq := none
  allowedPrefixes := none
  expiresVal := db.ttlExpiry[c]?.map fun ms => .str (msToIso ms)
  keys := none
  defaultOrderAsc := false

omit [FloatText] in
theorem filterAndJoinDoc_ok (db₀ : Db) {d : String × Json} {passed : Bool}
    (h : evaluateWhere d.2 q = .ok passed) :
    filterAndJoinDoc db (bulkParams db₀ c q) d.1 d.2 =
      .ok (if passed then some (d.1, d.2, []) else none) := by
  have hclause : (bulkParams db₀ c q).whereClause = some q := rfl
  have hjoins : (bulkParams db₀ c q).joinsReq = none := rfl
  have hprefix : (bulkParams db₀ c q).hasPrefix = false := rfl
  cases passed <;> simp [filterAndJoinDoc, hclause, hjoins, hprefix, h]

omit [FloatText] in
theorem filterAndJoinDoc_error (db₀ : Db) {d : String × Json} {e : DbError}
    (h : evaluateWhere d.2 q = .error e) :
    filterAndJoinDoc db (bulkParams db₀ c q) d.1 d.2 =
      .error (GetError.whereEvalError e.display).intoResponse := by
  have hclause : (bulkParams db₀ c q).whereClause = some q := rfl
  have hjoins : (bulkParams db₀ c q).joinsReq = none := rfl
  have hprefix : (bulkParams db₀ c q).hasPrefix = false := rfl
  simp [filterAndJoinDoc, hclause, hjoins, hprefix, h]

omit [FloatText] in
/-- The documents that are kept satisfy the clause once more. -/
theorem filterAndJoinDocs_bulk (db₀ : Db) {raw : List (String × Json)} {results : List Found}
    (h : filterAndJoinDocs db (bulkParams db₀ c q) raw = .ok results) :
    results = (raw.filter fun d => decide (evaluateWhere d.2 q = .ok true)).map fun d =>
      (d.1, d.2, []) := by
  have hkept : ∀ d ∈ raw, filterAndJoinDoc db (bulkParams db₀ c q) d.1 d.2 =
      .ok (if evaluateWhere d.2 q = .ok true then some (d.1, d.2, []) else none) := by
    intro d hd
    cases hwhere : evaluateWhere d.2 q with
    | error e =>
      obtain ⟨d', -, r, -, hr⟩ := filterAndJoinDocs_of_error hd (filterAndJoinDoc_error db₀ hwhere)
      rw [hr] at h
      cases h
    | ok passed =>
      rw [filterAndJoinDoc_ok db₀ hwhere]
      cases passed <;> rfl
  rw [filterAndJoinDocs_of_ok hkept] at h
  rw [← Except.ok.inj h, ← List.filterMap_eq_map, List.filterMap_filter]
  simp only [decide_eq_true_eq, Function.comp_apply]

omit [Crates] [Lowercase] [FloatText] in
/-- A document is returned under its key if it is an object. -/
theorem get_key_shapeDoc (doc : Json) (key : String) (aliases : List String)
    (expiresVal : Option Json) :
    (shapeDoc doc key none none aliases expiresVal).get KEY =
      if doc.isObject then some (.str key) else none := by
  cases doc with
  | obj fs =>
    simp only [shapeDoc, stripMetadata, Json.isObject, if_true]
    cases (Json.obj fs).get VERSION with
    | none => exact (Fields.lookup_insert _ _ _ _).trans (if_pos rfl)
    | some v => exact (Fields.lookup_insert _ _ _ _).trans (if_pos rfl)
  | null => rfl
  | bool b => rfl
  | num n => rfl
  | str s => rfl
  | arr xs => rfl

omit [Crates] [Lowercase] [FloatText] in
theorem mem_listedKeys_shaped (db₀ : Db) {docs : List (String × Json)} {k : String} :
    k ∈ listedKeys (documentsResponse
        ((docs.map fun d => (d.1, d.2, [])).map (bulkParams db₀ c q).shape)) ↔
      ∃ v, (k, v) ∈ docs ∧ v.isObject = true := by
  have hlisted : listedKeys (documentsResponse
      ((docs.map fun d => (d.1, d.2, [])).map (bulkParams db₀ c q).shape)) =
      docs.filterMap fun d => if d.2.isObject then some d.1 else none := by
    rw [List.map_map, documentsResponse]
    split_ifs with hnil
    · obtain rfl := List.map_eq_nil_iff.1 hnil
      rfl
    · change List.filterMap _ (docs.map _) = _
      rw [List.filterMap_map]
      congr 1
      funext d
      change ((shapeDoc d.2 d.1 none none [] (bulkParams db₀ c q).expiresVal).get KEY).bind
        Json.asStr = _
      rw [get_key_shapeDoc]
      split_ifs <;> rfl
  rw [hlisted, List.mem_filterMap]
  constructor
  · rintro ⟨d, hd, h⟩
    split_ifs at h with hobj
    obtain rfl := Option.some.inj h
    exact ⟨d.2, hd, hobj⟩
  · rintro ⟨v, hv, hobj⟩
    exact ⟨(k, v), hv, if_pos hobj⟩

omit [Crates] [Lowercase] [FloatText] in
theorem expandSystemFields_isObject (v : Json) : (expandSystemFields v).isObject = v.isObject := by
  cases v <;> rfl

omit [FloatText] in
/-- The documents of a scan that satisfy the clause when they are decoded, and are objects. -/
theorem exists_shown_iff {raw : List (String × Json)}
    (hraw : ∀ k v, (k, v) ∈ raw ↔ ∃ bytes w, db.bytes c k = some bytes ∧
      wherePredicate q bytes = true ∧ msgpackToValue bytes = some w ∧
        v = expandSystemFields w) (k : String) :
    (∃ v, (k, v) ∈ raw.filter (fun d => decide (evaluateWhere d.2 q = .ok true)) ∧
      v.isObject = true) ↔ ∃ bytes, db.bytes c k = some bytes ∧ Shown q bytes := by
  simp only [List.mem_filter, hraw, decide_eq_true_eq, wherePredicate_eq]
  constructor
  · rintro ⟨v, ⟨⟨bytes, w, hk, hq, hw, rfl⟩, hwhere⟩, hobj⟩
    rw [expandSystemFields_isObject] at hobj
    obtain ⟨fs, rfl⟩ : ∃ fs, w = .obj fs := by cases w <;> simp_all [Json.isObject]
    exact ⟨bytes, hk, hq, fs, hw, hwhere⟩
  · rintro ⟨bytes, hk, hq, fs, hw, hwhere⟩
    exact ⟨_, ⟨⟨bytes, .obj fs, hk, hq, hw, rfl⟩, hwhere⟩, rfl⟩

/-- **A bulk query** that is accepted lists what satisfies the clause on encoded and on
    decoded documents, unless the collection has expired. -/
theorem wp_processGet_bulk (hcount : db.count c ≤ 1000) (maxBodySize maxKeysPerRequest : ℕ) :
    wp (processGet (bulkPayload c q) maxBodySize maxKeysPerRequest)
      (fun r _ => r.1 ≠ 400 → ∀ k, k ∈ listedKeys r ↔
        ¬ db.Expired c ∧ ∃ bytes, db.bytes c k = some bytes ∧ Shown q bytes)
      (fun _ _ => False) db := by
  cases hvalid : validateGetRequest (bulkPayload c q) maxBodySize maxKeysPerRequest with
  | error r =>
    rw [wp, processGet_invalid hvalid]
    exact fun h => absurd (validateGetRequest_error hvalid) h
  | ok u =>
    have hparse : parseGetParams { db with tick := db.tick + 1 } (db.world.clock db.tick)
        (bulkPayload c q) =
        if db.ttlExpiry[c]?.any fun exp => collectionIsExpired exp (db.world.clock db.tick) then
          .error GetError.collectionExpired.intoResponse
        else .ok (bulkParams db c q) := rfl
    by_cases hexp : db.Expired c
    · rw [wp, processGet_error hvalid (hparse.trans (if_pos hexp))]
      intro _ k
      simp only [hexp, not_true_eq_false, false_and, iff_false]
      exact List.not_mem_nil
    · rw [wp, processGet_general hvalid (hparse.trans (if_neg hexp)) rfl]
      change wp (runGeneralPath (bulkParams db c q)) _ _ _
      rw [runGeneralPath, wp_bind]
      have hneed : usizeAdd 0 1000 = 1000 := rfl
      have hcount' : Db.count { db with tick := db.tick + 1 } c ≤ usizeAdd 0 1000 := by
        rw [hneed]
        exact hcount
      refine wp_mono (wp_getFilteredCoalesced hcount' false) (fun raw db₁ hpost => ?_)
        fun _ _ h => h
      obtain ⟨-, hlen, hraw⟩ := hpost
      rw [hneed] at hlen
      rw [wp_bind, wp_get]
      cases hfilter : filterAndJoinDocs db₁ (bulkParams db c q) raw with
      | error r => exact fun h => absurd (filterAndJoinDocs_error hfilter) h
      | ok results =>
        have hresults := filterAndJoinDocs_bulk db hfilter
        have hle : results.length ≤ 1000 := by
          rw [hresults, List.length_map]
          exact (List.length_filter_le _ _).trans hlen
        have hmem : ∀ k, k ∈ listedKeys (documentsResponse (results.map (bulkParams db c q).shape)) ↔
            ¬ db.Expired c ∧ ∃ bytes, db.bytes c k = some bytes ∧ Shown q bytes := by
          intro k
          rw [hresults, mem_listedKeys_shaped, exists_shown_iff hraw k]
          exact (and_iff_right hexp).symm
        cases results with
        | nil => exact fun _ => hmem
        | cons d results =>
          have hpage : shapeAndReturn (bulkParams db c q) (d :: results) =
              documentsResponse ((d :: results).map (bulkParams db c q).shape) := by
            change documentsResponse ((((d :: results).take (usizeAdd 0 1000)).drop 0).map _) = _
            rw [hneed, List.take_of_length_le hle, List.drop_zero]
          intro _
          rw [hpage]
          exact hmem

/-- **A bulk delete and its query**: the keys that are removed are those that are listed,
    exactly if the collection has not expired and each document whose bytes satisfy the
    clause is an object that satisfies it when it is decoded. -/
theorem bulk_delete_iff (hcount : db.count c ≤ 1000) {maxBodySize maxKeysPerRequest : ℕ}
    {deleted listed : Response}
    (hdelete : answer (processDelete (bulkPayload c q) maxBodySize maxKeysPerRequest) db =
      some deleted) (h200 : deleted.1 = 200)
    (hget : answer (processGet (bulkPayload c q) maxBodySize maxKeysPerRequest) db = some listed)
    (h400 : listed.1 ≠ 400) :
    (∀ k, Removed db (processDelete (bulkPayload c q) maxBodySize maxKeysPerRequest db).2 c k ↔
        k ∈ listedKeys listed) ↔
      ∀ k bytes, db.bytes c k = some bytes → rawMatches q bytes = true →
        ¬ db.Expired c ∧ Shown q bytes := by
  have hok : ∀ {m : Op Response} {r : Response}, answer m db = some r → m db = (.ok r, (m db).2) := by
    intro m r h
    cases hm : (m db).1 with
    | ok a =>
      simp only [answer, hm] at h
      obtain rfl := Option.some.inj h
      exact Prod.ext hm rfl
    | error e =>
      simp only [answer, hm] at h
      cases h
  have hremoved := wp_of_ok (wp_processDelete_bulk hcount _ _) (hok hdelete) h200
  have hlisted := wp_of_ok (wp_processGet_bulk hcount _ _) (hok hget) h400
  simp only [hremoved, hlisted]
  constructor
  · intro h k bytes hk hq
    obtain ⟨hexp, bytes', hk', hshown⟩ := (h k).1 ⟨bytes, hk, hq⟩
    cases hk.symm.trans hk'
    exact ⟨hexp, hshown⟩
  · intro h k
    constructor
    · rintro ⟨bytes, hk, hq⟩
      obtain ⟨hexp, hshown⟩ := h k bytes hk hq
      exact ⟨hexp, bytes, hk, hshown⟩
    · rintro ⟨-, bytes, hk, hshown⟩
      exact ⟨bytes, hk, hshown.1⟩

end

/-- A database with one document `d` in the collection `c`. -/
def oneDocument (doc : Json) : Db :=
  { Db.blank (World.plain 0 []) 0 with
    state := (∅ : State).insert "c" ((∅ : DashMap Bytes).insert "d" (valueToMsgpack doc)) }

/-- The number 5 is above 1 in its bytes and decoded. -/
theorem bulk_delete_iff_number :
    letI := Crates.plain
    letI := Lowercase.ascii
    letI := FloatText.plain
    let db := oneDocument (.obj [("n", .ofU64 5)])
    let q := Json.obj [("n", .obj [("$gt", .ofU64 1)])]
    ∀ k, Removed db (processDelete (bulkPayload "c" q) 1000 10 db).2 "c" k ↔
      k ∈ listedKeys (200, .arr [.obj [("_key", .str "d"), ("n", .ofU64 5)]]) := by
  let _ := Crates.plain
  let _ := Lowercase.ascii
  let _ := FloatText.plain
  refine (bulk_delete_iff (c := "c") ?_ (by decide +kernel : _ = some (deletedResponse 1)) rfl
    (by decide +kernel) (by decide)).2 ?_
  · decide +kernel
  · intro k bytes hk _
    have hbytes : k = "d" ∧ valueToMsgpack (.obj [("n", .ofU64 5)]) = bytes := by
      simpa [Db.bytes, oneDocument, Map.get?_insert] using hk
    obtain ⟨rfl, rfl⟩ := hbytes
    refine ⟨by decide +kernel, by decide +kernel, [("n", .ofU64 5)], ?_, ?_⟩
    · decide +kernel
    · decide +kernel

/-- Text that contains `al` is found in the bytes of an array, but is no element of it: the
    document is deleted, and the query does not list it. -/
theorem bulk_delete_hidden :
    letI := Crates.plain
    letI := Lowercase.ascii
    letI := FloatText.plain
    let db := oneDocument (.obj [("tags", .arr [.str "alpha"])])
    let q := Json.obj [("tags", .obj [("$contains", .str "al")])]
    answer (processDelete (bulkPayload "c" q) 1000 10) db = some (deletedResponse 1) ∧
      (processDelete (bulkPayload "c" q) 1000 10 db).2.bytes "c" "d" = none ∧
      answer (processGet (bulkPayload "c" q) 1000 10) db =
        some GetError.noDocumentsFound.intoResponse := by
  decide +kernel

end MoltenDB
