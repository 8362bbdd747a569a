/-
  Pages with `_seq` as the cursor.

  A client asks for the newest matches, then for those below the smallest `_seq` of the page,
  until a page is empty.  Each page is cut off after the evaluation of encoded documents and
  filtered by that of decoded ones afterwards.  So the client gets every match exactly if the
  first evaluation misses none of them, no whole page is dropped by the second one before
  another match, and every document that is looked at can be evaluated (`cursor_pages_iff`).
-/
import MoltenDB.Lib.Cursor
import MoltenDB.Proof.CursorScan
import MoltenDB.Proof.Pagination

namespace MoltenDB

open Wire Prog Prog.Eff SystemFields WhereOperator

/-! ## One page -/

/-- The query for the page after the cursor. -/
def pageQuery (c : String) (q : Json) (fields : List Json) (size : UInt64)
    (cursor : Option UInt64) : Json :=
  .obj [("collection", .str c), ("count", .ofU64 size), ("fields", .arr fields),
    ("where", cursorClause q cursor)]

/-- The documents in a response; a page without documents is a `404`. -/
def pageDocs : Response → Option (List Json)
  | (404, _) => some []
  | (200, .arr docs) => some docs
  | _ => none

theorem pageDocs_documentsResponse (docs : List Json) :
    pageDocs (documentsResponse docs) = some docs := by
  unfold documentsResponse
  split_ifs with h
  · rw [h]
    rfl
  · rfl

theorem pageDocs_whereEvalError (details : String) :
    pageDocs (GetError.whereEvalError details).intoResponse = none := rfl

section

variable [Crates] [Lowercase] (db : Db) (c : String) (q : Json) (fields : List Json)

/-- What the query is parsed to. -/
def pageParams (size : UInt64) : GetParams where
  colName := c
  whereClause := some q
  joinsReq := none
  sortSpecs := none
  countLimit := size.toNat
  offset := 0
  fieldsReq := some fields
  excludedReq := none
  allowedPrefixes := none
  expiresVal := db.ttlExpiry[c]?.map fun ms => .str (msToIso ms)
  keys := none
  defaultOrderAsc := false

/-- A document as it is returned. -/
def pageShape (d : String × Json) : Json :=
  shapeDoc d.2 d.1 (some fields) none [] (db.ttlExpiry[c]?.map fun ms => .str (msToIso ms))

variable (col : DashMap Bytes)

/-- The document of a pair. -/
def docAt (p : UInt64 × String) : String × Json :=
  (p.2, expandSystemFields ((col[p.2]?.bind msgpackToValue).getD .null))

/-- What the evaluation of the decoded document says, if it says anything. -/
def judge (p : UInt64 × String) : Option Bool := (evaluateWhere (docAt col p).2 q).toOption

/-- The decoded document satisfies the clause. -/
def decodedMatches (bytes : Bytes) : Bool :=
  (msgpackToValue bytes).any fun v => decide (evaluateWhere (expandSystemFields v) q = .ok true)

variable {db c q fields col}

omit [Crates] [Lowercase] in
/-- The documents that a scan finds. -/
theorem expandAll_decodeAll {ps : List (UInt64 × String)}
    (h : ∀ p ∈ ps, ∃ b v, col[p.2]? = some b ∧ msgpackToValue b = some v) :
    expandAll (decodeAll col ps) = ps.map (docAt col) := by
  rw [expandAll, decodeAll, List.map_filterMap, ← List.filterMap_eq_map]
  refine List.filterMap_congr fun p hp => ?_
  obtain ⟨b, v, hb, hv⟩ := h p hp
  simp [decodeKey, docAt, hb, hv]

theorem filterAndJoinDoc_page (db' : Db) {clause : Json} {size : UInt64} (d : String × Json) :
    filterAndJoinDoc db' (pageParams db c clause fields size) d.1 d.2 =
      match evaluateWhere d.2 clause with
      | .ok true => .ok (some (d.1, d.2, []))
      | .ok false => .ok none
      | .error e => .error (GetError.whereEvalError e.display).intoResponse := by
  unfold filterAndJoinDoc
  rfl

/-- **The documents of a page** are those of the first items that are kept. -/
theorem pageDocs_generalAnswer [FloatText] (db' : Db) {clause : Json} {size : UInt64}
    {ps : List (UInt64 × String)} (hlen : ps.length ≤ size.toNat)
    (hclause : ∀ p ∈ ps, evaluateWhere (docAt col p).2 clause = evaluateWhere (docAt col p).2 q) :
    pageDocs (Build.single.generalAnswer (pageParams db c clause fields size)
      (filterAndJoinDocs db' (pageParams db c clause fields size) (ps.map (docAt col)))) =
        (Cursor.keep (judge q col) ps).map (·.map fun p => pageShape db c fields (docAt col p)) := by
  by_cases hjudged : ∀ p ∈ ps, (judge q col p).isSome = true
  · have hok : ∀ d ∈ ps.map (docAt col), filterAndJoinDoc db' (pageParams db c clause fields size)
        d.1 d.2 =
          .ok (if (evaluateWhere d.2 q).toOption.getD false then some (d.1, d.2, []) else none) := by
      intro d hd
      obtain ⟨p, hp, rfl⟩ := List.mem_map.1 hd
      have hsome := hjudged p hp
      rw [filterAndJoinDoc_page, hclause p hp]
      rcases hw : evaluateWhere (docAt col p).2 q with e | (_ | _)
      · rw [judge, hw] at hsome
        cases hsome
      · rfl
      · rfl
    have hfound : (ps.map (docAt col)).filterMap (fun d =>
        if (evaluateWhere d.2 q).toOption.getD false then some ((d.1, d.2, []) : Found) else none) =
          (ps.filter (Cursor.selects (judge q col))).map fun p =>
            ((docAt col p).1, (docAt col p).2, []) := by
      rw [List.filterMap_map, ← List.filterMap_eq_map, List.filterMap_filter]
      rfl
    have hshort : (ps.filter (Cursor.selects (judge q col))).length ≤ 0 + size.toNat := by
      rw [Nat.zero_add]
      exact (List.length_filter_le _ _).trans hlen
    rw [filterAndJoinDocs_of_ok hok, hfound, generalAnswer_ok rfl rfl, pageDocs_documentsResponse,
      Cursor.keep_eq_some.2 ⟨hjudged, rfl⟩]
    · change some (((List.take (0 + size.toNat) _).drop 0).map _) = _
      rw [List.take_of_length_le (by rwa [List.length_map]), List.drop_zero, List.map_map]
      rfl
    · change 0 + size.toNat < 2 ^ 64
      rw [Nat.zero_add]
      exact size.toNat_lt
  · have hfail : Cursor.keep (judge q col) ps = none := if_neg hjudged
    push Not at hjudged
    obtain ⟨p, hp, hnone⟩ := hjudged
    have herror : ∃ r, filterAndJoinDoc db' (pageParams db c clause fields size) (docAt col p).1
        (docAt col p).2 = .error r := by
      rw [filterAndJoinDoc_page, hclause p hp]
      rcases hw : evaluateWhere (docAt col p).2 q with e | b
      · exact ⟨_, rfl⟩
      · rw [judge, hw] at hnone
        exact absurd rfl hnone
    obtain ⟨r, hr⟩ := herror
    obtain ⟨d, -, r', hr', hall⟩ := filterAndJoinDocs_of_error (List.mem_map_of_mem hp) hr
    rw [filterAndJoinDoc_page] at hr'
    rw [hall, hfail]
    rcases hw : evaluateWhere d.2 clause with e | (_ | _)
    · rw [hw] at hr'
      obtain rfl := Except.error.inj hr'
      exact pageDocs_whereEvalError _
    · rw [hw] at hr'
      cases hr'
    · rw [hw] at hr'
      cases hr'

end

section

variable [Crates] [Lowercase] {db : Db} {c : String} {entries : List (String × Json)}
  {fields : List Json} {size : UInt64}

/-- The documents whose bytes satisfy the clause, the newest first. -/
def Db.candidates (db : Db) (c : String) (q : Json) : List (UInt64 × String) :=
  seqPairs (db.stored c) (fun _ bytes => rawMatches q bytes) false

/-- The document is below the cursor, if there is one. -/
def below (cursor : Option UInt64) (p : UInt64 × String) : Bool :=
  cursor.all fun n => decide (p.1 < n)

omit [Lowercase] in
/-- The document of a number and a key. -/
theorem Pageable.document (h : Pageable db c) {p : UInt64 × String} (hp : PairOf (db.stored c) p) :
    ∃ v, (db.stored c)[p.2]? = some (valueToMsgpack v) ∧ Sequenced SEQ_END v ∧
      msgpackToValue (valueToMsgpack v) = some v.canon ∧
      docAt (db.stored c) p = (p.2, expandSystemFields v.canon) ∧ v.Holds TOK_SEQ (.ofU64 p.1) ∧
      p.1 < SEQ_END := by
  obtain ⟨b, hb, hp1⟩ := hp
  obtain ⟨v, rfl, hv⟩ := h.sequenced p.2 b (by rwa [← Db.get?_stored])
  have hdec := msgpackToValue_valueToMsgpack hv.room.fits
  obtain ⟨s, hs, hholds, -, hread⟩ := hv.readTokenU64
  rw [hread] at hp1
  refine ⟨v, hb, hv, hdec, ?_, hp1 ▸ hholds, hp1 ▸ hs⟩
  rw [docAt, show (db.stored c)[p.2]? = some (valueToMsgpack v) from hb, Option.bind_some, hdec]
  rfl

/-- **The scan of a page** finds the candidates below the cursor. -/
theorem Pageable.seqPairs_cursorClause (h : Pageable db c) (hsorted : Fields.Sorted entries)
    (hseq : entries.lookup SEQ = none) {cursor : Option UInt64} (hcursor : ∀ n ∈ cursor, n < SEQ_END) :
    seqPairs (db.stored c) (fun _ bytes => wherePredicate (cursorClause (.obj entries) cursor) bytes)
      false = (db.candidates c (.obj entries)).filter (below cursor) := by
  cases cursor with
  | none =>
    have hall : (db.candidates c (.obj entries)).filter (below none) =
        db.candidates c (.obj entries) := List.filter_eq_self.2 fun _ _ => rfl
    rw [hall]
    exact seqPairs_congr (fun k b _ => wherePredicate_eq _) false
  | some n =>
    have hpass : (db.candidates c (.obj entries)).filter (below (some n)) =
        (db.candidates c (.obj entries)).filter (pairPasses (db.stored c)
          fun _ bytes => decide (readMsgpackSeqToken bytes < n)) := by
      refine List.filter_congr fun p hp => ?_
      obtain ⟨b, hb, hp1⟩ := pairOf_seqPairs hp
      rw [pairPasses, hb, Option.any_some, hp1]
      rfl
    rw [hpass, Db.candidates, h.numbered_stored.filter_seqPairs]
    refine seqPairs_congr (fun k b hb => ?_) false
    rw [Db.get?_stored] at hb
    obtain ⟨v, rfl, hv⟩ := h.sequenced k b hb
    rw [wherePredicate_eq, cursorClause, rawMatches_set hsorted hseq,
      evaluateEntryMsgpack_belowCursor hv (hcursor n rfl)]

/-- On a document below the cursor, the clause of the page says what that of the client says. -/
theorem Pageable.evaluateWhere_page (h : Pageable db c) (hsorted : Fields.Sorted entries)
    (hseq : entries.lookup SEQ = none) {cursor : Option UInt64} (hcursor : ∀ n ∈ cursor, n < SEQ_END)
    {p : UInt64 × String} (hp : PairOf (db.stored c) p) (hbelow : below cursor p = true) :
    evaluateWhere (docAt (db.stored c) p).2 (cursorClause (.obj entries) cursor) =
      evaluateWhere (docAt (db.stored c) p).2 (.obj entries) := by
  obtain ⟨v, -, -, -, hdoc, hholds, hp1⟩ := h.document hp
  refine evaluateWhere_cursorClause hsorted hseq fun n hn => ?_
  obtain rfl := Option.mem_def.1 hn
  rw [hdoc]
  exact evaluateEntry_belowCursor hholds hp1 (hcursor n rfl) (of_decide_eq_true hbelow)

variable [FloatText]

/-- **One page**: those of the next candidates that are kept. -/
theorem Pageable.wp_processGet (h : Pageable db c) (hsorted : Fields.Sorted entries)
    (hseq : entries.lookup SEQ = none) {cursor : Option UInt64} (hcursor : ∀ n ∈ cursor, n < SEQ_END)
    (hsize : size.toNat ≤ MAX_COUNT) {maxBodySize maxKeysPerRequest : ℕ}
    (hvalid : validateGetRequest (pageQuery c (.obj entries) fields size cursor) maxBodySize
      maxKeysPerRequest = .ok ()) (n : ℕ) :
    wp (processGet (pageQuery c (.obj entries) fields size cursor) maxBodySize maxKeysPerRequest)
      (fun r db' => pageDocs r = (Cursor.keep (judge (.obj entries) (db.stored c))
          (((db.candidates c (.obj entries)).filter (below cursor)).take size.toNat)).map
            (·.map fun p => pageShape db c fields (docAt (db.stored c) p)) ∧
        ∃ n', db' = { db with tick := n' }) (fun _ _ => False) { db with tick := n } := by
  have hparse : parseGetParams { db with tick := n + 1 } (db.world.clock n)
      (pageQuery c (.obj entries) fields size cursor) =
        .ok (pageParams db c (cursorClause (.obj entries) cursor) fields size) := by
    have hcount : ¬ (some size).any (fun n => decide (MAX_COUNT < n.toNat)) = true := by
      simpa using hsize
    exact (if_neg hcount).trans (if_neg (h.unexpired n))
  have hscan : Yields db (Build.single.fetchDocuments
      (pageParams db c (cursorClause (.obj entries) cursor) fields size))
        ((((db.candidates c (.obj entries)).filter (below cursor)).take size.toNat).map
          (docAt (db.stored c))) := by
    have hneed : usizeAdd 0 size.toNat = size.toNat := by
      rw [usizeAdd, Nat.zero_add, Nat.mod_eq_of_lt size.toNat_lt]
    have hfound := h.orderly.yields_getFilteredCoalesced
      (fun _ bytes => wherePredicate (cursorClause (.obj entries) cursor) bytes) size.toNat false
    rw [Db.inSeq_eq, Option.elim_some, h.seqPairs_cursorClause hsorted hseq hcursor,
      expandAll_decodeAll] at hfound
    · change Yields db (Db.getFilteredCoalesced c (fun _ bytes => wherePredicate
        (cursorClause (.obj entries) cursor) bytes) (some (usizeAdd 0 size.toNat)) false) _
      rw [hneed]
      exact hfound
    · intro p hp
      obtain ⟨v, hb, -, hdec, -⟩ := h.document
        (pairOf_seqPairs (List.mem_of_mem_filter (List.mem_of_mem_take hp)))
      exact ⟨_, _, hb, hdec⟩
  have hpage := yields_runGeneralPath hscan db.world (n + 1)
  rw [wp, processGet_general hvalid hparse rfl]
  refine wp_mono hpage (fun r db' hr => ?_) fun _ _ h => h
  obtain ⟨rfl, n', rfl⟩ := hr
  refine ⟨pageDocs_generalAnswer db (List.length_take_le _ _) fun p hp => ?_, n', rfl⟩
  obtain ⟨hmem, hbelow⟩ := List.mem_filter.1 (List.mem_of_mem_take hp)
  exact h.evaluateWhere_page hsorted hseq hcursor (pairOf_seqPairs hmem) hbelow

end

/-! ## The shape of a page -/

section

theorem isObject_setRequested (requested : List String) (field : String) (value : Option Json)
    (out : Json) : (setRequested requested field value out).isObject = out.isObject := by
  unfold setRequested
  cases value with
  | none => rfl
  | some v =>
    dsimp only
    split_ifs
    · exact Json.isObject_set out field v
    · rfl

theorem get_setRequested {requested : List String} {field : String} {value : Option Json}
    {out : Json} (hout : out.isObject = true) (key : String) :
    (setRequested requested field value out).get key =
      if key = field ∧ field ∈ requested then value.or (out.get key) else out.get key := by
  unfold setRequested
  cases value with
  | none => simp
  | some v =>
    dsimp only
    split_ifs with hfield hkey hkey
    · rw [Json.get_set hout, if_pos hkey.1, Option.some_or]
    · rw [Json.get_set hout, if_neg fun h => hkey ⟨h, hfield⟩]
    · exact absurd hkey.2 hfield
    · rfl

variable {db : Db} {c : String} {fields : List Json} {d : String × Json}

/-- A document comes with its key. -/
theorem get_key_pageShape : (pageShape db c fields d).get KEY = some (.str d.1) := by
  have hobj : (projectDoc d.2 fields [] (db.ttlExpiry[c]?.map fun ms => .str (msToIso ms))).isObject
      = true := by
    simp only [projectDoc, isObject_setRequested]
    rfl
  unfold pageShape shapeDoc
  dsimp only
  cases d.2.get VERSION with
  | none => rw [Json.get_set hobj, if_pos rfl]
  | some v => rw [Json.get_set (by rwa [Json.isObject_set]), if_pos rfl]

/-- A document comes with its number if the client asks for it. -/
theorem get_seq_pageShape (hfields : .str SEQ ∈ fields) {seq : Json} (hseq : d.2.get SEQ = some seq) :
    (pageShape db c fields d).get SEQ = some seq := by
  have hrequested : SEQ ∈ fields.filterMap Json.asStr :=
    List.mem_filterMap.2 ⟨.str SEQ, hfields, rfl⟩
  have hne : ∀ name ∈ [EXPIRES_AT, MODIFIED_AT, CREATED_AT, VERSION, KEY], SEQ ≠ name := by decide
  simp only [List.mem_cons, List.not_mem_nil, or_false, forall_eq_or_imp, forall_eq] at hne
  obtain ⟨hexpires, hmodified, hcreated, hversion, hkey⟩ := hne
  have hproject : (project d.2 fields).isObject = true := rfl
  generalize hout : projectDoc d.2 fields [] (db.ttlExpiry[c]?.map fun ms => .str (msToIso ms)) = out
  have hobj : out.isObject = true := by
    rw [← hout]
    simp only [projectDoc, isObject_setRequested]
    rfl
  have hget : out.get SEQ = some seq := by
    rw [← hout, projectDoc, get_setRequested, if_neg (by simp [hexpires]), get_setRequested,
      if_neg (by simp [hmodified]), get_setRequested, if_neg (by simp [hcreated]), get_setRequested,
      if_pos ⟨rfl, hrequested⟩, hseq, Option.some_or]
    · exact hproject
    · simpa only [isObject_setRequested, List.foldl_nil] using hproject
    · simpa only [isObject_setRequested, List.foldl_nil] using hproject
    · simpa only [isObject_setRequested, List.foldl_nil] using hproject
  unfold pageShape shapeDoc
  dsimp only
  rw [hout]
  cases d.2.get VERSION with
  | none => rw [Json.get_set hobj, if_neg hkey, hget]
  | some v =>
    rw [Json.get_set (by rwa [Json.isObject_set]), if_neg hkey, Json.get_set hobj, if_neg hversion,
      hget]

end

/-! ## The loop of the client -/

/-- The smallest `_seq` of a page. -/
def smallestSeq (docs : List Json) : Option UInt64 :=
  (docs.filterMap fun d => (d.get SEQ).bind Json.asU64).min?

section

variable [Crates] [Lowercase] [FloatText]

/-- What the client fetches in at most `n` pages; `none` if a page fails, or if there are more. -/
def fetchPages (request : Option UInt64 → Json) (maxBodySize maxKeysPerRequest : ℕ) :
    ℕ → Option UInt64 → Op (Option (List Json))
  | 0, _ => return none
  | n + 1, cursor => do
    let response ← processGet (request cursor) maxBodySize maxKeysPerRequest
    match pageDocs response with
    | none => return none
    | some [] => return some []
    | some (d :: docs) => do
      let others ← fetchPages request maxBodySize maxKeysPerRequest n (smallestSeq (d :: docs))
      return others.map (d :: docs ++ ·)

variable {db : Db} {c : String} {entries : List (String × Json)} {fields : List Json}
  {size : UInt64}

omit [Lowercase] [FloatText] in
/-- The smallest number of a page is that of its last document. -/
theorem Pageable.smallestSeq_page (h : Pageable db c) (hfields : .str SEQ ∈ fields)
    {A : List (UInt64 × String)} {a : UInt64 × String}
    (hpairs : ∀ p ∈ A ++ [a], PairOf (db.stored c) p)
    (hdesc : (A ++ [a]).Pairwise fun a b => b.1 < a.1) :
    smallestSeq ((A ++ [a]).map fun p => pageShape db c fields (docAt (db.stored c) p)) =
      some a.1 := by
  have hseqs : ((A ++ [a]).map fun p => pageShape db c fields (docAt (db.stored c) p)).filterMap
      (fun d => (d.get SEQ).bind Json.asU64) = (A ++ [a]).map Prod.fst := by
    rw [List.filterMap_map, ← List.filterMap_eq_map]
    refine List.filterMap_congr fun p hp => ?_
    obtain ⟨v, -, -, -, hdoc, hholds, -⟩ := h.document (hpairs p hp)
    have hseq : (docAt (db.stored c) p).2.get SEQ = some (.ofU64 p.1) := by
      rw [hdoc, hholds.canon.get_expand systemField_seq]
      rfl
    rw [Function.comp_apply, get_seq_pageShape hfields hseq, Option.bind_some, Json.asU64_ofU64]
    rfl
  rw [smallestSeq, hseqs, List.min?_eq_some_iff]
  refine ⟨by simp, fun b hb => ?_⟩
  obtain ⟨p, hp, rfl⟩ := List.mem_map.1 hb
  rcases List.mem_append.1 hp with hp | hp
  · exact UInt64.le_of_lt ((List.pairwise_append.1 hdesc).2.2 p hp a List.mem_cons_self)
  · rw [List.mem_singleton.1 hp]
    exact UInt64.le_refl _

/-- The cursor is the number of a document. -/
def IsCursor (db : Db) (c : String) (cursor : Option UInt64) : Prop :=
  ∀ n ∈ cursor, ∃ k, PairOf (db.stored c) (n, k)

omit [Lowercase] [FloatText] in
theorem Pageable.cursor_lt (h : Pageable db c) {cursor : Option UInt64} (hc : IsCursor db c cursor) :
    ∀ n ∈ cursor, n < SEQ_END := by
  intro n hn
  obtain ⟨k, hpair⟩ := hc n hn
  obtain ⟨v, -, -, -, -, -, hlt⟩ := h.document hpair
  exact hlt

omit [FloatText] in
/-- What is below a candidate is what follows it. -/
theorem Pageable.filter_candidates (h : Pageable db c) {q : Json} {cursor : Option UInt64}
    {A R : List (UInt64 × String)} {a : UInt64 × String}
    (hxs : (db.candidates c q).filter (below cursor) = A ++ a :: R) :
    (db.candidates c q).filter (below (some a.1)) = R := by
  have hdesc : (A ++ a :: R).Pairwise fun a b => b.1 < a.1 := by
    rw [← hxs]
    exact (h.numbered_stored.descending _).filter _
  have ha : below cursor a = true := by
    refine (List.mem_filter.1 (?_ : a ∈ (db.candidates c q).filter (below cursor))).2
    rw [hxs]
    simp
  rw [← filter_below hdesc, ← hxs, List.filter_filter]
  refine List.filter_congr fun p _ => ?_
  cases cursor with
  | none => exact (Bool.and_true _).symm
  | some n =>
    -- the item itself is below the cursor
    have han : a.1 < n := of_decide_eq_true ha
    rw [Bool.eq_iff_iff, Bool.and_eq_true, below, below, Option.all_some, Option.all_some,
      decide_eq_true_eq, decide_eq_true_eq]
    exact ⟨fun hp => ⟨hp, UInt64.lt_trans hp han⟩, fun hp => hp.1⟩

/-- **The loop of the client** is that over the candidates. -/
theorem Pageable.wp_fetchPages (h : Pageable db c) (hsorted : Fields.Sorted entries)
    (hseq : entries.lookup SEQ = none) (hfields : .str SEQ ∈ fields) (hsize : size.toNat ≤ MAX_COUNT)
    {maxBodySize maxKeysPerRequest : ℕ}
    (hvalid : ∀ cursor, IsCursor db c cursor → validateGetRequest
      (pageQuery c (.obj entries) fields size cursor) maxBodySize maxKeysPerRequest = .ok ()) (n : ℕ)
    {cursor : Option UInt64} (hcursor : IsCursor db c cursor) (t : ℕ) :
    wp (fetchPages (pageQuery c (.obj entries) fields size) maxBodySize maxKeysPerRequest n cursor)
      (fun r _ => r = (Cursor.pages (judge (.obj entries) (db.stored c)) size.toNat n
        ((db.candidates c (.obj entries)).filter (below cursor))).map
          (·.map fun p => pageShape db c fields (docAt (db.stored c) p)))
      (fun _ _ => False) { db with tick := t } := by
  induction n generalizing cursor t with
  | zero => exact rfl
  | succ n ih =>
    rw [fetchPages, wp_bind]
    have hlt : ∀ n ∈ cursor, n < SEQ_END := h.cursor_lt hcursor
    have hget := h.wp_processGet hsorted hseq hlt hsize (hvalid cursor hcursor) t
    refine wp_mono hget (fun r db' hr => ?_) fun _ _ h => h
    obtain ⟨hdocs, t', rfl⟩ := hr
    rw [Cursor.pages, hdocs]
    generalize hxs : (db.candidates c (.obj entries)).filter (below cursor) = xs
    cases hkeep : Cursor.keep (judge (.obj entries) (db.stored c)) (xs.take size.toNat) with
    | none => exact rfl
    | some kept =>
      cases kept with
      | nil => exact rfl
      | cons b ys =>
        obtain ⟨-, hfilter⟩ := Cursor.keep_eq_some.1 hkeep
        have hsome : ∃ p ∈ xs.take size.toNat,
            Cursor.selects (judge (.obj entries) (db.stored c)) p = true := by
          have hb : b ∈ (xs.take size.toNat).filter
              (Cursor.selects (judge (.obj entries) (db.stored c))) := by
            rw [hfilter]
            exact List.mem_cons_self
          exact ⟨b, List.mem_filter.1 hb⟩
        obtain ⟨A, a, R, hsplit, ha, -, -, hrest, hlast⟩ := Cursor.exists_page hsome
        have hkept : b :: ys = A.filter (Cursor.selects (judge (.obj entries) (db.stored c))) ++ [a] := by
          rw [← hfilter, hlast, List.filter_append, List.filter_cons_of_pos ha, List.filter_nil]
        have hpairs : ∀ p ∈ xs, PairOf (db.stored c) p := by
          rw [← hxs]
          exact fun p hp => pairOf_seqPairs (List.mem_of_mem_filter hp)
        have hsub : (b :: ys).Sublist xs := by
          rw [← hfilter]
          exact List.filter_sublist.trans (List.take_sublist _ _)
        have hdesc : xs.Pairwise fun a b => b.1 < a.1 := by
          rw [← hxs]
          exact (h.numbered_stored.descending _).filter _
        have hsmall : smallestSeq ((b :: ys).map fun p => pageShape db c fields
            (docAt (db.stored c) p)) = some a.1 := by
          rw [hkept] at hsub ⊢
          exact h.smallestSeq_page hfields (fun p hp => hpairs p (hsub.subset hp))
            (hdesc.sublist hsub)
        have hnext : IsCursor db c (some a.1) := by
          rintro n hn
          obtain rfl := Option.some.inj hn
          exact ⟨a.2, hpairs a (by simp [hsplit])⟩
        rw [List.map_cons] at hsmall
        rw [Option.map_some, List.map_cons]
        dsimp only
        rw [wp_bind, hsmall]
        refine wp_mono (ih hnext t') (fun others db' hothers => ?_) fun _ _ h => h
        rw [wp_pure, hothers, h.filter_candidates (hxs.trans hsplit), hrest]
        cases Cursor.pages (judge (.obj entries) (db.stored c)) size.toNat n R with
        | none => rfl
        | some zs => simp

/-! ## All pages -/

/-- The evaluation of encoded documents misses no match, no whole page is dropped before another
    match, and the documents that are looked at can be evaluated. -/
structure PagesComplete (db : Db) (c : String) (q : Json) (size : ℕ) : Prop where
  found : ∀ k b, db.bytes c k = some b → decodedMatches q b = true → rawMatches q b = true
  reached : Cursor.NoGap (judge q (db.stored c)) size (db.candidates c q)
  judged : Cursor.Judged (judge q (db.stored c)) size (db.candidates c q)

omit [FloatText] in
/-- The candidates that are kept. -/
theorem Pageable.filter_selects (h : Pageable db c) (q : Json) :
    (db.candidates c q).filter (Cursor.selects (judge q (db.stored c))) =
      seqPairs (db.stored c) (fun _ b => rawMatches q b && decodedMatches q b) false := by
  rw [← h.numbered_stored.filter_seqPairs (fun _ b => rawMatches q b) fun _ b => decodedMatches q b]
  refine List.filter_congr fun p hp => ?_
  obtain ⟨v, hb, -, hdec, hdoc, -⟩ := h.document (pairOf_seqPairs hp)
  rw [Cursor.selects, judge, hdoc, pairPasses, hb, Option.any_some, decodedMatches, hdec,
    Option.any_some]
  rcases evaluateWhere (expandSystemFields v.canon) q with e | (_ | _) <;> rfl

omit [Lowercase] [FloatText] in
/-- Documents as they are returned tell their numbers and keys. -/
theorem eq_of_pageShape {xs ys : List (UInt64 × String)} (hxs : ∀ p ∈ xs, PairOf (db.stored c) p)
    (hys : ∀ p ∈ ys, PairOf (db.stored c) p)
    (h : (xs.map fun p => pageShape db c fields (docAt (db.stored c) p)) =
      ys.map fun p => pageShape db c fields (docAt (db.stored c) p)) : xs = ys := by
  have hread : ∀ zs : List (UInt64 × String), (∀ p ∈ zs, PairOf (db.stored c) p) →
      (zs.map fun p => pageShape db c fields (docAt (db.stored c) p)).filterMap (fun d =>
        ((d.get KEY).bind Json.asStr).bind fun k => (db.stored c)[k]?.map fun b =>
          (readMsgpackSeqToken b, k)) = zs := by
    intro zs hzs
    rw [List.filterMap_map]
    conv_rhs => rw [← List.filterMap_some (l := zs)]
    refine List.filterMap_congr fun p hp => ?_
    obtain ⟨b, hb, hp1⟩ := hzs p hp
    rw [Function.comp_apply, get_key_pageShape]
    change (((db.stored c)[p.2]?).map fun b => (readMsgpackSeqToken b, p.2)) = some p
    rw [hb, Option.map_some, hp1]
  rw [← hread xs hxs, h, hread ys hys]

/-- **The pages have every match once, the newest first**, exactly if the evaluation of encoded
    documents misses none of them, no whole page is dropped before another match, and the
    documents that are looked at can be evaluated. -/
theorem cursor_pages_iff (h : Pageable db c) (hsorted : Fields.Sorted entries)
    (hseq : entries.lookup SEQ = none) (hfields : .str SEQ ∈ fields) (hsize : size.toNat ≤ MAX_COUNT)
    {maxBodySize maxKeysPerRequest : ℕ}
    (hvalid : ∀ cursor, IsCursor db c cursor → validateGetRequest
      (pageQuery c (.obj entries) fields size cursor) maxBodySize maxKeysPerRequest = .ok ()) {n : ℕ}
    (hn : (db.stored c).size < n) :
    (fetchPages (pageQuery c (.obj entries) fields size) maxBodySize maxKeysPerRequest n none db).1 =
        .ok (some ((db.inSeq c (fun _ b => decodedMatches (.obj entries) b) false none).map
          (pageShape db c fields))) ↔
      PagesComplete db c (.obj entries) size.toNat := by
  have hfetch : (fetchPages (pageQuery c (.obj entries) fields size) maxBodySize maxKeysPerRequest n
      none db).1 = .ok ((Cursor.pages (judge (.obj entries) (db.stored c)) size.toNat n
        (db.candidates c (.obj entries))).map
          (·.map fun p => pageShape db c fields (docAt (db.stored c) p))) := by
    have hfirst : IsCursor db c none := nofun
    have hrun := h.wp_fetchPages hsorted hseq hfields hsize hvalid n hfirst db.tick
    have hall : (db.candidates c (.obj entries)).filter (below none) =
        db.candidates c (.obj entries) := List.filter_eq_self.2 fun _ _ => rfl
    rw [hall] at hrun
    exact ok_of_wp hrun
  generalize Json.obj entries = q at hfetch ⊢
  have hmatches : (db.inSeq c (fun _ b => decodedMatches q b) false none).map
      (pageShape db c fields) = (seqPairs (db.stored c) (fun _ b => decodedMatches q b) false).map
        fun p => pageShape db c fields (docAt (db.stored c) p) := by
    rw [Db.inSeq_eq, Option.elim_none, expandAll_decodeAll, List.map_map]
    · rfl
    · intro p hp
      obtain ⟨v, hb, -, hdec, -⟩ := h.document (pairOf_seqPairs hp)
      exact ⟨_, _, hb, hdec⟩
  have hselects := h.filter_selects q
  have hpages : Cursor.pages (judge q (db.stored c)) size.toNat n (db.candidates c q) =
      some ((db.candidates c q).filter (Cursor.selects (judge q (db.stored c)))) ↔ _ :=
    Cursor.pages_eq_iff n (lt_of_le_of_lt (length_seqPairs_le _ _) hn)
  rw [hselects] at hpages
  have hsame : (∀ k b, db.bytes c k = some b → decodedMatches q b = true → rawMatches q b = true) →
      seqPairs (db.stored c) (fun _ b => rawMatches q b && decodedMatches q b) false =
        seqPairs (db.stored c) (fun _ b => decodedMatches q b) false := by
    intro hfound
    refine seqPairs_congr (fun k b hb => ?_) false
    rw [Db.get?_stored] at hb
    cases hdec : decodedMatches q b with
    | false => exact Bool.and_false _
    | true => rw [hfound k b hb hdec, Bool.and_self]
  rw [hfetch, hmatches, Except.ok.injEq]
  constructor
  · intro hall
    obtain ⟨ys, hys, hshape⟩ := Option.map_eq_some_iff.1 hall
    have hsub := Cursor.sublist_of_pages hys
    rw [hselects] at hsub
    obtain rfl := eq_of_pageShape (fun p hp => pairOf_seqPairs (hsub.subset hp))
      (fun p hp => pairOf_seqPairs hp) hshape
    have hfound : ∀ k b, db.bytes c k = some b → decodedMatches q b = true →
        rawMatches q b = true := by
      intro k b hb hdec
      have hmem : (readMsgpackSeqToken b, k) ∈
          seqPairs (db.stored c) (fun _ b => decodedMatches q b) false :=
        mem_seqPairs.2 ⟨b, (db.get?_stored c k).trans hb, hdec, rfl⟩
      obtain ⟨b', hb', hpass, -⟩ := mem_seqPairs.1 (hsub.subset hmem)
      obtain rfl : b = b' := Option.some.inj (hb.symm.trans ((db.get?_stored c k).symm.trans hb'))
      exact (Bool.and_eq_true _ _ ▸ hpass).1
    rw [← hsame hfound] at hys
    obtain ⟨hreached, hjudged⟩ := hpages.1 hys
    exact ⟨hfound, hreached, hjudged⟩
  · rintro ⟨hfound, hreached, hjudged⟩
    rw [hpages.2 ⟨hreached, hjudged⟩, hsame hfound]
    rfl

end

/-! ## Two documents -/

section

/-- What only the older one satisfies, while the evaluation of encoded documents accepts both. -/
def notFive : List (String × Json) := [("n", .obj [(asStr .notIn, .arr [.ofU64 5])])]

/-- What both satisfy. -/
def aboveOne : List (String × Json) := [("n", .obj [(asStr .gt, .ofU64 1)])]

theorem sequenced_numbered {s m : UInt64} (hs : s < SEQ_END)
    (hroom : (Json.obj [(IKEY_SEQ, .ofU64 s), ("n", .ofU64 m)]).Room 0) :
    Sequenced SEQ_END (.obj [(IKEY_SEQ, .ofU64 s), ("n", .ofU64 m)]) := by
  refine ⟨hroom, s, hs, _, rfl, ⟨_, List.mem_cons_self, rfl⟩, fun p hp htok => ?_⟩
  rcases List.mem_cons.1 hp with rfl | hp
  · rfl
  · have hname : tokenOf "n" ≠ some TOK_SEQ := by decide
    rw [List.mem_singleton.1 hp] at htok
    exact absurd htok hname

theorem pageable_ofTwoDocuments : @Pageable Crates.plain ofTwoDocuments "c" := by
  let _ := Crates.plain
  refine ⟨ofTwoDocuments_synced, fun k b hb => ?_, fun n => ?_⟩
  · rw [bytes_ofTwoDocuments, get_twoDocuments] at hb
    split_ifs at hb
    · refine ⟨_, (Option.some.inj hb).symm, sequenced_numbered (by decide) ⟨by decide +kernel,
        by decide +kernel, fun fs hfs => ?_⟩⟩
      rw [← Json.obj.inj hfs]
      decide
    · refine ⟨_, (Option.some.inj hb).symm, sequenced_numbered (by decide) ⟨by decide +kernel,
        by decide +kernel, fun fs hfs => ?_⟩⟩
      rw [← Json.obj.inj hfs]
      decide
  · have hnone : ofTwoDocuments.ttlExpiry["c"]? = none := Map.get?_empty "c"
    change ¬ (ofTwoDocuments.ttlExpiry["c"]?.any _) = true
    rw [hnone]
    exact Bool.false_ne_true

theorem isCursor_ofTwoDocuments {cursor : Option UInt64}
    (h : @IsCursor Crates.plain ofTwoDocuments "c" cursor) : cursor ∈ [none, some 1, some 2] := by
  let _ := Crates.plain
  cases cursor with
  | none => decide
  | some n =>
    obtain ⟨k, b, hb, hn⟩ := h n rfl
    have hcol : (ofTwoDocuments.stored "c")[k]? = twoDocuments[k]? := by
      rw [Db.stored, col_ofTwoDocuments, Option.getD_some]
    obtain ⟨h2, h1⟩ := twoDocuments_numbers
    rw [hcol, get_twoDocuments] at hb
    split_ifs at hb
    · obtain rfl := Option.some.inj hb
      obtain rfl : n = 2 := hn.symm.trans h2
      decide
    · obtain rfl := Option.some.inj hb
      obtain rfl : n = 1 := hn.symm.trans h1
      decide

theorem valid_aboveOne {cursor : Option UInt64} (h : cursor ∈ [none, some 1, some 2]) :
    letI := FloatText.plain
    validateGetRequest (pageQuery "c" (.obj aboveOne) [.str SEQ] 1 cursor) 1000 10 = .ok () := by
  simp only [List.mem_cons, List.not_mem_nil, or_false] at h
  rcases h with rfl | rfl | rfl
  · decide +kernel
  · decide +kernel
  · decide +kernel

/-- Pages of one document: each of the two is found. -/
theorem cursor_pages_iff_aboveOne :
    letI := Crates.plain
    letI := Lowercase.ascii
    PagesComplete ofTwoDocuments "c" (.obj aboveOne) 1 :=
  letI := Crates.plain
  letI := Lowercase.ascii
  letI := FloatText.plain
  (@cursor_pages_iff Crates.plain Lowercase.ascii FloatText.plain ofTwoDocuments "c" aboveOne
    [.str SEQ] 1 pageable_ofTwoDocuments (by decide +kernel) (by decide +kernel) (by decide)
    (by decide) 1000 10 (fun _ hc => valid_aboveOne (isCursor_ofTwoDocuments hc)) 3
    (by decide +kernel)).1 (by decide +kernel)

/-- A page of one document is dropped, and the older match is not found. -/
theorem cursor_pages_stop_early :
    letI := Crates.plain
    letI := Lowercase.ascii
    letI := FloatText.plain
    Pageable ofTwoDocuments "c" ∧
      (fetchPages (pageQuery "c" (.obj notFive) [.str SEQ] 1) 1000 10 3 none ofTwoDocuments).1 =
        .ok (some []) ∧
      (ofTwoDocuments.bytes "c" "a").any (decodedMatches (.obj notFive)) = true := by
  refine ⟨pageable_ofTwoDocuments, ?_, ?_⟩
  · decide +kernel
  · decide +kernel

end

end MoltenDB
