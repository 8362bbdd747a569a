/-
  Queries that name a collection, and keys or prefixes of keys at most.

  Such a query lists all documents with one of the keys and one of the prefixes, if the
  collection has no more than the default count (`Orderly.processGet_plain`); which documents
  these are can be told from what is listed (`Orderly.listed_inj`).
-/
import MoltenDB.Engine.Settings
import MoltenDB.Proof.BulkDelete
import MoltenDB.Proof.Builds
import MoltenDB.Proof.KeyPages

namespace MoltenDB

open Wire Prog Prog.Eff SystemFields

/-- The query, with the prefixes as the server puts them into it. -/
def plainQuery (c : String) (keys prefixes : Option (List String)) : Json :=
  .obj ((prefixes.map fun ps => ("_allowed_prefixes", .arr (ps.map .str))).toList ++
    ("collection", .str c) :: (keys.map fun ks => ("keys", .arr (ks.map .str))).toList)

/-- What the query is parsed to. -/
def plainParams (db : Db) (c : String) (keys prefixes : Option (List String)) : GetParams where
  colName := c
  whereClause := none
  joinsReq := none
  sortSpecs := none
  countLimit := DEFAULT_COUNT
  offset := 0
  fieldsReq := none
  excludedReq := none
  allowedPrefixes := prefixes.map fun ps => ps.map .str
  expiresVal := db.ttlExpiry[c]?.map fun ms => .str (msToIso ms)
  keys := keys.map fun ks => .arr (ks.map .str)
  defaultOrderAsc := false

/-- The query asks for the key. -/
def asksFor (keys prefixes : Option (List String)) (k : String) : Bool :=
  keys.all (·.contains k) && prefixes.all fun ps => startsWithAny ps k

section

variable {db : Db} {c : String} {keys prefixes : Option (List String)}

theorem parseGetParams_plain (hexp : ¬ db.Expired c) :
    parseGetParams { db with tick := db.tick + 1 } (db.world.clock db.tick)
      (plainQuery c keys prefixes) = .ok (plainParams db c keys prefixes) := by
  cases keys <;> cases prefixes <;> exact if_neg hexp

theorem prefixes_plainParams : (plainParams db c keys prefixes).prefixes = prefixes := by
  cases prefixes with
  | none => rfl
  | some ps => exact congrArg some (filterMap_asStr ps)

theorem hasPrefix_plainParams (hne : prefixes ≠ some []) :
    (plainParams db c keys prefixes).hasPrefix = prefixes.isSome := by
  rcases prefixes with _ | _ | ⟨p, ps⟩
  · rfl
  · exact absurd rfl hne
  · rfl

/-! ## The documents -/

theorem Db.mem_keys_of_shown {k : String} {v : Json} (h : db.shown c k = some v) :
    k ∈ db.keys c := by
  rw [Db.shown, Option.map_eq_some_iff] at h
  obtain ⟨_, h, -⟩ := h
  obtain ⟨b, hb, -⟩ := Option.bind_eq_some_iff.1 h
  exact Db.mem_keys.2 ⟨b, hb⟩

/-- A lookup finds those of its keys. -/
theorem Db.toList_get_perm_filter {ks : List String} {P : String → Bool}
    (hks : ∀ k ∈ db.keys c, k ∈ ks ↔ P k = true) :
    (db.get c ks).toList.Perm (db.requested c ((db.keys c).filter P)) := by
  refine (List.perm_ext_iff_of_nodup ?_ (Db.nodup_requested (Db.nodup_keys.filter _))).2
    fun ⟨k, v⟩ => ?_
  · refine List.Nodup.of_map Prod.fst ?_
    rw [Std.ExtTreeMap.map_fst_toList_eq_keys]
    exact Map.nodup_keys _
  · rw [Map.mem_toList, Db.get?_get, Db.mem_requested, List.mem_filter]
    constructor
    · intro h
      split_ifs at h with hk
      have hkey := Db.mem_keys_of_shown h
      exact ⟨⟨hkey, (hks k hkey).1 hk⟩, h⟩
    · rintro ⟨⟨hkey, hp⟩, hv⟩
      rw [if_pos ((hks k hkey).2 hp), hv]

end

section

variable [Crates] {db : Db} {c : String} {keys prefixes : Option (List String)}

/-- A scan of a collection with no more than `n` documents finds those whose keys pass. -/
theorem Db.inSeq_perm (P : String → Bool) (asc : Bool) {n : ℕ} (hcount : db.count c ≤ n) :
    (db.inSeq c (fun k _ => P k) asc (some n)).Perm (db.requested c ((db.keys c).filter P)) := by
  unfold Db.inSeq
  cases hcol : db.col c with
  | none => simp [Db.requested, Db.keys, hcol]
  | some col =>
    have hlen : (seqPairs col (fun k _ => P k) asc).length ≤ n := by
      rw [seqPairs, sortBySeq_eq, List.length_insertionSort, matchingPairs, List.length_map]
      rw [Db.count, hcol] at hcount
      exact (List.length_filter_le _ _).trans (Std.ExtTreeMap.length_toList.trans_le hcount)
    have hperm : (seqPairs col (fun k _ => P k) asc).Perm
        (matchingPairs (fun k _ => P k) col.toList) := by
      rw [seqPairs, sortBySeq_eq]
      exact List.perm_insertionSort _ _
    have hdocs : expandAll (decodeAll col (matchingPairs (fun k _ => P k) col.toList)) =
        db.requested c ((db.keys c).filter P) := by
      rw [Db.requested, Db.keys, hcol, Option.map_some, Option.getD_some,
        ← Std.ExtTreeMap.map_fst_toList_eq_keys, List.filter_map, List.filterMap_map, matchingPairs,
        decodeAll, List.filterMap_map, expandAll, List.map_filterMap]
      refine List.filterMap_congr fun e _ => ?_
      rw [Function.comp_apply, Function.comp_apply, Db.shown, Db.bytes,
        show db.state[c]? = some col from hcol, Option.bind_some, decodeKey]
      cases col[e.1]?.bind msgpackToValue <;> rfl
    rw [← hdocs]
    refine (List.Perm.filterMap _ ?_).map _
    dsimp only [Option.elim]
    rwa [List.take_of_length_le hlen]

/-! ## The answer -/

variable [Lowercase]

/-- The documents that the query asks for are fetched. -/
theorem Orderly.wp_fetchDocuments_plain (h : Orderly db c) (hcount : db.count c ≤ DEFAULT_COUNT)
    (hne : prefixes ≠ some []) (n : ℕ) :
    wp (fetchDocuments (plainParams db c keys prefixes))
      (fun raw _ => raw.Perm (db.requested c ((db.keys c).filter (asksFor keys prefixes))))
      (fun _ _ => False) { db with tick := n } := by
  cases keys with
  | none =>
    have hscan : ∀ P : String → Bool, ∀ hasWhere, (∀ k, P k = asksFor none prefixes k) →
        wp (scanFiltered (plainParams db c none prefixes) (fun k _ => P k) hasWhere)
          (fun raw _ => raw.Perm (db.requested c ((db.keys c).filter (asksFor none prefixes))))
          (fun _ _ => False) { db with tick := n } := by
      intro P hasWhere hP
      have hyields := h.yields_getFiltered (p := ⟨c, fun k _ => P k, 0, some DEFAULT_COUNT, false,
        hasWhere⟩) rfl fun n hn => by cases hn; decide
      refine wp_mono (hyields db.world n) (fun raw _ hraw => ?_) fun _ _ h => h
      rw [hraw.1, ← funext hP]
      exact Db.inSeq_perm P false hcount
    cases prefixes with
    | none => exact hscan (fun _ => true) false fun _ => rfl
    | some ps =>
      have hpre : (plainParams db c none (some ps)).hasPrefix = true := hasPrefix_plainParams hne
      have hps : (plainParams db c none (some ps)).prefixes.getD [] = ps := by
        rw [prefixes_plainParams]
        rfl
      change wp (scanDocuments _) _ _ _
      unfold scanDocuments
      rw [hpre, hps]
      exact hscan (startsWithAny ps) false fun k => rfl
  | some ks =>
    change wp (fetchKeys (plainParams db c (some ks) prefixes)
      ((ks.map Json.str).filterMap Json.asStr)) _ _ _
    rw [filterMap_asStr, fetchKeys, prefixes_plainParams, wp_bind, wp_get]
    refine wp_walk fun order n' horder => (Map.inOrder_perm horder).trans ?_
    cases prefixes with
    | none =>
      refine Db.toList_get_perm_filter fun k _ => ?_
      simp [asksFor]
    | some ps =>
      refine Db.toList_get_perm_filter fun k _ => ?_
      simp [asksFor]

variable [FloatText]

/-- **A plain query** lists the documents that it asks for, in some order. -/
theorem Orderly.processGet_plain {maxBodySize maxKeysPerRequest : ℕ} (h : Orderly db c)
    (hcount : db.count c ≤ DEFAULT_COUNT) (hexp : ¬ db.Expired c) (hne : prefixes ≠ some [])
    (hvalid : validateGetRequest (plainQuery c keys prefixes) maxBodySize maxKeysPerRequest =
      .ok ()) :
    ∃ (raw : List (String × Json)) (db' : Db), raw.Perm (db.requested c ((db.keys c).filter (asksFor keys prefixes))) ∧
      processGet (plainQuery c keys prefixes) maxBodySize maxKeysPerRequest db =
        (.ok (documentsResponse (raw.map (db.listed c))), db') := by
  rw [processGet_general hvalid (parseGetParams_plain hexp) rfl]
  have hrun : wp (runGeneralPath (plainParams db c keys prefixes)) (fun r _ =>
      ∃ raw : List (String × Json), raw.Perm (db.requested c ((db.keys c).filter (asksFor keys prefixes))) ∧
        r = documentsResponse (raw.map (db.listed c))) (fun _ _ => False)
      { db with tick := db.tick + 1 } := by
    rw [runGeneralPath, wp_bind]
    refine wp_mono (h.wp_fetchDocuments_plain hcount hne (db.tick + 1)) (fun raw db' hraw => ?_)
      fun _ _ h => h
    -- nothing that was fetched is sorted out
    have hkept : ∀ d ∈ raw, filterAndJoinDoc db' (plainParams db c keys prefixes) d.1 d.2 =
        .ok (some (d.1, d.2, [])) := by
      intro d hd
      have hasks : asksFor keys prefixes d.1 = true :=
        (List.mem_filter.1 (Db.mem_requested.1 (hraw.mem_iff.1 hd)).1).2
      have hskip : ((plainParams db c keys prefixes).hasPrefix &&
          !startsWithAny ((plainParams db c keys prefixes).prefixes.getD []) d.1) = false := by
        rw [hasPrefix_plainParams hne, prefixes_plainParams]
        cases prefixes with
        | none => rfl
        | some ps =>
          rw [asksFor, Bool.and_eq_true] at hasks
          rw [Option.getD_some, show startsWithAny ps d.1 = true from hasks.2]
          rfl
      unfold filterAndJoinDoc
      rw [hskip]
      rfl
    have hlen : raw.length ≤ DEFAULT_COUNT := by
      rw [hraw.length_eq]
      refine (List.length_filterMap_le _ _).trans ((List.length_filter_le _ _).trans ?_)
      rwa [Db.length_keys]
    rw [wp_bind, wp_get, filterAndJoinDocs_of_ok (f := fun d => some (d.1, d.2, [])) hkept,
      List.filterMap_eq_map']
    have hpage : (((raw.map fun d => ((d.1, d.2, []) : Found)).take (usizeAdd 0 DEFAULT_COUNT)).drop
        0).map (plainParams db c keys prefixes).shape = raw.map (db.listed c) := by
      rw [show usizeAdd 0 DEFAULT_COUNT = DEFAULT_COUNT from rfl, List.drop_zero,
        List.take_of_length_le (by rwa [List.length_map]), List.map_map]
      rfl
    cases raw with
    | nil => exact ⟨[], hraw, rfl⟩
    | cons d raw =>
      refine ⟨d :: raw, hraw, ?_⟩
      rw [← hpage]
      cases keys <;> rfl
  obtain ⟨r, db', hm, raw, hraw, rfl⟩ := exists_of_wp hrun
  exact ⟨raw, db', hraw, hm⟩

end

/-! ## What is listed -/

section

variable {db : Db} {c : String}

/-- Bytes that decode to anything but an object do not start like a map. -/
theorem readMapHeader_eq_none {b : Bytes} {v : Json} (h : msgpackToValue b = some v)
    (hobj : v.isObject = false) : readMapHeader b = none := by
  cases b with
  | nil => rfl
  | cons byte buf =>
    unfold readMapHeader
    dsimp only
    cases hhead : head byte with
    | map l =>
      rw [msgpackToValue, List.length_cons, readValue, hhead] at h
      simp only [Option.bind_eq_bind, Option.map_eq_some_iff, Option.bind_eq_some_iff] at h
      obtain ⟨_, ⟨⟨len, rest⟩, -, ⟨fs, rest'⟩, -, heq⟩, rfl⟩ := h
      cases heq
      cases hobj
    | _ => rfl

theorem isObject_expandSystemFields (v : Json) :
    (expandSystemFields v).isObject = v.isObject := by
  cases v <;> rfl

theorem isObject_listed (d : String × Json) : (db.listed c d).isObject = d.2.isObject := by
  rw [Db.listed, shapeDoc, Json.isObject_set]
  have hstrip : (stripMetadata d.2).isObject = d.2.isObject := by
    cases d.2 <;> rfl
  cases d.2.get VERSION with
  | none => exact hstrip
  | some v => exact (Json.isObject_set _ _ _).trans hstrip

/-- An object is listed with its key. -/
theorem get_key_listed {d : String × Json} (hobj : d.2.isObject = true) :
    (db.listed c d).get KEY = some (.str d.1) := by
  have hout : (db.listed c d).isObject = true := (isObject_listed d).trans hobj
  rw [Db.listed, shapeDoc, Json.isObject_set] at hout
  rw [Db.listed, shapeDoc, Json.get_set hout, if_pos rfl]

/-- **What is listed tells documents apart**: an object has its key in it, and only one document
    can be anything else, since it has the last sequence number. -/
theorem Orderly.listed_inj [Crates] (h : Orderly db c) {k k' : String} {v v' : Json}
    (hv : db.shown c k = some v) (hv' : db.shown c k' = some v')
    (heq : db.listed c (k, v) = db.listed c (k', v')) : k = k' := by
  have hobject : v.isObject = v'.isObject := by
    rw [← isObject_listed (k, v), heq, isObject_listed]
  cases hobj : v.isObject with
  | true =>
    have hkey : (db.listed c (k, v)).get KEY = some (.str k) := get_key_listed hobj
    rw [heq, get_key_listed (hobject ▸ hobj)] at hkey
    exact (Json.str.inj (Option.some.inj hkey)).symm
  | false =>
    have hlast : ∀ k v, db.shown c k = some v → v.isObject = false →
        ∃ b, db.bytes c k = some b ∧ readMsgpackSeqToken b = UInt64.ofNat (2 ^ 64 - 1) := by
      intro k v hv hobj
      rw [Db.shown, Option.map_eq_some_iff] at hv
      obtain ⟨w, hw, rfl⟩ := hv
      obtain ⟨b, hb, hdec⟩ := Option.bind_eq_some_iff.1 hw
      rw [isObject_expandSystemFields] at hobj
      refine ⟨b, hb, ?_⟩
      rw [readMsgpackSeqToken, readTokenU64, readMapHeader_eq_none hdec hobj]
      rfl
    obtain ⟨b, hb, hseq⟩ := hlast k v hv hobj
    obtain ⟨b', hb', hseq'⟩ := hlast k' v' hv' (hobject ▸ hobj)
    rw [Db.bytes, Option.bind_eq_some_iff] at hb hb'
    obtain ⟨col, hcol, hb⟩ := hb
    obtain ⟨col', hcol', hb'⟩ := hb'
    obtain rfl : col = col' := Option.some.inj (hcol.symm.trans hcol')
    exact h.numbered col hcol k k' b b' hb hb' (hseq.trans hseq'.symm)

/-- Every key is that of a document. -/
theorem Orderly.exists_shown [Crates] (h : Orderly db c) {k : String} (hk : k ∈ db.keys c) :
    ∃ v, db.shown c k = some v := by
  obtain ⟨b, hb⟩ := Db.mem_keys.1 hk
  have hbytes := hb
  rw [Db.bytes, Option.bind_eq_some_iff] at hb
  obtain ⟨col, hcol, hb⟩ := hb
  obtain ⟨v, hv⟩ := Option.isSome_iff_exists.1 (h.decodes col hcol k b hb)
  exact ⟨expandSystemFields v, by rw [Db.shown, hbytes, Option.bind_some, hv, Option.map_some]⟩

/-- **The same documents are listed** for two choices of keys exactly if the same are chosen. -/
theorem Orderly.listed_perm_iff [Crates] (h : Orderly db c) (P P' : String → Bool) :
    ((db.requested c ((db.keys c).filter P)).map (db.listed c)).Perm
        ((db.requested c ((db.keys c).filter P')).map (db.listed c)) ↔
      ∀ k ∈ db.keys c, P k = P' k := by
  constructor
  · have hsub : ∀ P P' : String → Bool,
        ((db.requested c ((db.keys c).filter P)).map (db.listed c)).Perm
          ((db.requested c ((db.keys c).filter P')).map (db.listed c)) →
        ∀ k ∈ db.keys c, P k = true → P' k = true := by
      intro P P' hperm k hk hP
      obtain ⟨v, hv⟩ := h.exists_shown hk
      have hmem : db.listed c (k, v) ∈ (db.requested c ((db.keys c).filter P)).map (db.listed c) :=
        List.mem_map_of_mem (Db.mem_requested.2 ⟨List.mem_filter.2 ⟨hk, hP⟩, hv⟩)
      obtain ⟨⟨k', v'⟩, hd', heq⟩ := List.mem_map.1 (hperm.mem_iff.1 hmem)
      obtain ⟨hk', hv'⟩ := Db.mem_requested.1 hd'
      obtain rfl := h.listed_inj hv' hv heq
      exact (List.mem_filter.1 hk').2
    intro hperm k hk
    exact Bool.eq_iff_iff.2 ⟨hsub P P' hperm k hk, hsub P' P hperm.symm k hk⟩
  · intro hall
    rw [List.filter_congr hall]

end

end MoltenDB
