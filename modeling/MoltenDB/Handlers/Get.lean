/-
  The handler of queries.
-/
import MoltenDB.Handlers.Documents
import MoltenDB.Query.Where

namespace MoltenDB

open Wire Prog WhereOperator

inductive GetError
  | countExceeded (max : ℕ)
  | collectionExpired
  | whereEvalError (details : String)
  | noDocumentsFound
  | orderSortMutuallyExclusive
  | invalidOrderValue

namespace GetError

def display : GetError → String
  | countExceeded max => "'count' cannot exceed " ++ Decimal.print max
  | collectionExpired => "No documents found"
  | whereEvalError details => details
  | noDocumentsFound => "No documents found"
  | orderSortMutuallyExclusive => "'order' and 'sort' cannot be used together"
  | invalidOrderValue => "'order' must be \"asc\" or \"desc\""

def statusCode : GetError → ℕ
  | countExceeded _ | whereEvalError _ | orderSortMutuallyExclusive | invalidOrderValue => 400
  | collectionExpired | noDocumentsFound => 404

def intoResponse (e : GetError) : Response := errorResponse e.statusCode e.display

end GetError

/-- The response of a list of documents. -/
def documentsResponse (docs : List Json) : Response :=
  if docs = [] then GetError.noDocumentsFound.intoResponse else (200, .arr docs)

def GET_ALLOWED : List PayloadField :=
  [.collection, .keys, .filter, .fields, .excludedFields, .joins, .sort, .count, .offset,
    .allowedPrefixes, .order]

/-- `GetParams`, and the order of a query without sort specs. -/
structure GetParams where
  colName : String
  whereClause : Option Json
  joinsReq : Option (List Json)
  sortSpecs : Option (List Json)
  countLimit : ℕ
  offset : ℕ
  fieldsReq : Option (List Json)
  excludedReq : Option (List Json)
  allowedPrefixes : Option (List Json)
  expiresVal : Option Json
  keys : Option Json
  defaultOrderAsc : Bool

namespace GetParams

/-- The prefixes that keys may have. -/
def prefixes (p : GetParams) : Option (List String) :=
  p.allowedPrefixes.map fun ps => ps.filterMap Json.asStr

def hasJoins (p : GetParams) : Bool := (p.joinsReq.map fun j => !j.isEmpty).getD false

def hasPrefix (p : GetParams) : Bool := (p.allowedPrefixes.map fun ps => !ps.isEmpty).getD false

end GetParams

/-- The key starts with one of the prefixes. -/
def startsWithAny (prefixes : List String) (key : String) : Bool :=
  prefixes.any fun p => p.toList.isPrefixOf key.toList

/-! ## Validation and parameters -/

def validateOrder (payload : Json) : Except Response Unit :=
  let order := payload.field .order
  if (payload.field .sort).isSome ∧ order.isSome then
    .error GetError.orderSortMutuallyExclusive.intoResponse
  else
    match order with
    | none => .ok ()
    | some ord =>
      if ord.asStr = some "asc" ∨ ord.asStr = some "desc" then .ok ()
      else .error GetError.invalidOrderValue.intoResponse

/-- `validate_get_request`. -/
def validateGetRequest [FloatText] (payload : Json) (maxBodySize maxKeysPerRequest : ℕ) :
    Except Response Unit := do
  (validateRequest payload maxBodySize maxKeysPerRequest).mapError ValidationError.intoResponse
  (validateAllowedProperties payload GET_ALLOWED).mapError ValidationError.intoResponse
  if ((payload.field .fields).bind Json.asArray).isSome ∧
      ((payload.field .excludedFields).bind Json.asArray).isSome then
    .error (errorResponse 400 "'fields' and 'excludedFields' cannot be used together")
  else validateOrder payload

/-- What is invalid is a bad request. -/
theorem validateGetRequest_error [FloatText] {payload : Json} {maxBodySize maxKeysPerRequest : ℕ} {r : Response}
    (h : validateGetRequest payload maxBodySize maxKeysPerRequest = .error r) : r.1 = 400 := by
  have hbind : ∀ {check : Except ValidationError Unit} {next : Except Response Unit},
      (check.mapError ValidationError.intoResponse >>= fun _ => next) = .error r →
        r.1 = 400 ∨ next = .error r := by
    intro check next h
    cases check with
    | error e =>
      obtain rfl := Except.error.inj h
      exact Or.inl rfl
    | ok u => exact Or.inr h
  rcases hbind h with h | h
  · exact h
  rcases hbind h with h | h
  · exact h
  split_ifs at h
  · obtain rfl := Except.error.inj h
    rfl
  · unfold validateOrder at h
    dsimp only at h
    split_ifs at h
    · obtain rfl := Except.error.inj h
      rfl
    · split at h
      · cases h
      · split_ifs at h
        obtain rfl := Except.error.inj h
        rfl

def DEFAULT_COUNT : ℕ := 100

def MAX_COUNT : ℕ := 1000

/-- `parse_get_params` at the time `queryTime`. -/
def parseGetParams (db : Db) (queryTime : UInt64) (payload : Json) : Except Response GetParams :=
  let colName := (namedCollection payload).getD "default"
  let count := (payload.field .count).bind Json.asU64
  if count.any fun n => MAX_COUNT < n.toNat then
    .error (GetError.countExceeded MAX_COUNT).intoResponse
  else if db.ttlExpiry[colName]?.any fun exp => collectionIsExpired exp queryTime then
    .error GetError.collectionExpired.intoResponse
  else
    .ok {
      colName
      whereClause := payload.field .filter
      joinsReq := (payload.field .joins).bind Json.asArray
      sortSpecs := (payload.field .sort).bind Json.asArray
      countLimit := (count.map UInt64.toNat).getD DEFAULT_COUNT
      offset := (((payload.field .offset).bind Json.asU64).map UInt64.toNat).getD 0
      fieldsReq := (payload.field .fields).bind Json.asArray
      excludedReq := (payload.field .excludedFields).bind Json.asArray
      allowedPrefixes := (payload.field .allowedPrefixes).bind Json.asArray
      expiresVal := db.ttlExpiry[colName]?.map fun ms => .str (msToIso ms)
      keys := payload.field .keys
      defaultOrderAsc := (payload.field .order).bind Json.asStr == some "asc" }

/-- The TTL of the collection has lapsed at the next reading of the clock. -/
def Db.Expired (db : Db) (c : String) : Prop :=
  (db.ttlExpiry[c]?.any fun exp => collectionIsExpired exp (db.world.clock db.tick)) = true

instance (db : Db) (c : String) : Decidable (db.Expired c) := inferInstanceAs (Decidable (_ = true))

variable [Crates] [Lowercase]

/-! ## Scans -/

/-- The bytes of a document satisfy a WHERE clause. -/
def rawMatches (clause : Json) (bytes : Bytes) : Bool :=
  (evaluateWhereMsgpack bytes clause).getD false

def isFastPathOp (op : String) : Bool :=
  match fromStr op with
  | some .or | some .and | none => false
  | some _ => true

/-- The conditions of one field of a clause; `none` if they are not all fast. -/
def extractField (field : String) (condition : Json) : Option (List (String × String × Json)) :=
  if field.toList.head? = some '$' then none
  else
    match condition with
    | .str _ | .num _ | .bool _ => some [(field, asStr .eq, condition)]
    | .obj ops =>
      if ops.all fun p => isFastPathOp p.1 then some (ops.map fun p => (field, p.1, p.2)) else none
    | .null | .arr _ => none

/-- The conditions of all fields of a clause; none if they are not all fast. -/
def extractFields (entries : List (String × Json)) : List (String × String × Json) :=
  ((entries.mapM fun p => extractField p.1 p.2).map List.flatten).getD []

mutual
/-- `extract_fast_predicates`: the conditions of a clause as a flat list; an empty list if
    they are not all fast. -/
def extractFastPredicates : Json → List (String × String × Json)
  | .arr items => (extractItems items).getD []
  | .obj entries => extractFields entries
  | _ => []

/-- The conditions of clauses that must all hold; `none` if one of them has none. -/
def extractItems : List Json → Option (List (String × String × Json))
  | [] => some []
  | item :: items =>
    match extractFastPredicates item with
    | [] => none
    | preds => (extractItems items).map (preds ++ ·)
end

/-- The test of a WHERE clause on encoded documents. -/
def wherePredicate (clause : Json) (bytes : Bytes) : Bool :=
  match extractFastPredicates clause with
  | [] => rawMatches clause bytes
  | preds => preds.all fun p => (evaluatePredicateMsgpack bytes p.1 p.2.1 p.2.2).getD false

/-- The documents of the keys in a request that have an allowed prefix. -/
def fetchKeys (params : GetParams) (keys : List String) : Op (List (String × Json)) := do
  let db ← Eff.get
  let keys := match params.prefixes with
    | some ps => keys.filter (startsWithAny ps)
    | none => keys
  walk (db.get params.colName keys)

/-- A scan with `Db::get_filtered`. -/
def scanFiltered (params : GetParams) (predicate : Predicate) (hasWhere : Bool) :
    Op (List (String × Json)) :=
  Db.getFiltered {
    collection := params.colName
    predicate
    offset := 0
    count := if params.sortSpecs.isSome then none
      else some (usizeAdd params.offset params.countLimit)
    defaultOrderAsc := params.defaultOrderAsc
    hasWhere }

/-- `fetch_documents` without keys; joined documents are filtered later. -/
def scanDocuments (params : GetParams) : Op (List (String × Json)) :=
  let clause := if params.hasJoins then none else params.whereClause
  let pfxs := params.prefixes.getD []
  match clause, params.hasPrefix with
  | some clause, false =>
    Db.getFilteredCoalesced params.colName (fun _ bytes => wherePredicate clause bytes)
      (if params.sortSpecs.isSome then none else some (usizeAdd params.offset params.countLimit))
      params.defaultOrderAsc
  | none, true =>
    scanFiltered params (fun key _ => startsWithAny pfxs key) params.whereClause.isSome
  | some clause, true =>
    scanFiltered params (fun key bytes => startsWithAny pfxs key && wherePredicate clause bytes)
      params.whereClause.isSome
  | none, false => scanFiltered params (fun _ _ => true) false

def fetchDocuments (params : GetParams) : Op (List (String × Json)) :=
  match params.keys with
  | some (.str k) => fetchKeys params [k]
  | some (.arr arr) => fetchKeys params (arr.filterMap Json.asStr)
  | _ => scanDocuments params

/-! ## Filters and joins -/

/-- A document that is returned, with its key and the aliases of its joins. -/
abbrev Found := String × Json × List String

/-- A document with its joins if it is allowed and satisfies the WHERE clause. -/
def filterAndJoinDoc (db : Db) (params : GetParams) (key : String) (doc : Json) :
    Except Response (Option (String × Json × List String)) :=
  if params.hasPrefix && !startsWithAny (params.prefixes.getD []) key then .ok none
  else
    let joined := match params.joinsReq with
      | some joins => applyJoins db doc joins
      | none => (doc, [])
    match params.whereClause with
    | none => .ok (some (key, joined))
    | some clause =>
      match evaluateWhere joined.1 clause with
      | .ok true => .ok (some (key, joined))
      | .ok false => .ok none
      | .error e => .error (GetError.whereEvalError e.display).intoResponse

/-- `filter_and_join_docs`. -/
def filterAndJoinDocs (db : Db) (params : GetParams) :
    List (String × Json) → Except Response (List (String × Json × List String))
  | [] => .ok []
  | (key, doc) :: raw => do
    let kept ← filterAndJoinDoc db params key doc
    let results ← filterAndJoinDocs db params raw
    return match kept with
      | some d => d :: results
      | none => results

/-- The documents are looked at one by one. -/
theorem filterAndJoinDocs_congr {db db' : Db} {params : GetParams} {raw : List (String × Json)}
    (h : ∀ d ∈ raw, filterAndJoinDoc db params d.1 d.2 = filterAndJoinDoc db' params d.1 d.2) :
    filterAndJoinDocs db params raw = filterAndJoinDocs db' params raw := by
  induction raw with
  | nil => rfl
  | cons d raw ih =>
    rw [filterAndJoinDocs, filterAndJoinDocs, h d List.mem_cons_self,
      ih fun d' hd' => h d' (List.mem_cons_of_mem _ hd')]

/-- Documents that can be looked at: those that are kept. -/
theorem filterAndJoinDocs_of_ok {db : Db} {params : GetParams} {raw : List (String × Json)}
    {f : String × Json → Option (String × Json × List String)}
    (h : ∀ d ∈ raw, filterAndJoinDoc db params d.1 d.2 = .ok (f d)) :
    filterAndJoinDocs db params raw = .ok (raw.filterMap f) := by
  induction raw with
  | nil => rfl
  | cons d raw ih =>
    rw [filterAndJoinDocs, h d List.mem_cons_self, ih fun d' hd' => h d' (List.mem_cons_of_mem _ hd'),
      List.filterMap_cons]
    cases f d <;> rfl

/-- One that cannot be looked at ends the query with its error. -/
theorem filterAndJoinDocs_of_error {db : Db} {params : GetParams} {raw : List (String × Json)}
    {d : String × Json} (hd : d ∈ raw) {r : Response}
    (h : filterAndJoinDoc db params d.1 d.2 = .error r) :
    ∃ d' ∈ raw, ∃ r', filterAndJoinDoc db params d'.1 d'.2 = .error r' ∧
      filterAndJoinDocs db params raw = .error r' := by
  induction raw with
  | nil => cases hd
  | cons d' raw ih =>
    rw [filterAndJoinDocs]
    cases hd' : filterAndJoinDoc db params d'.1 d'.2 with
    | error r' => exact ⟨d', List.mem_cons_self, r', hd', rfl⟩
    | ok kept =>
      have hmem : d ∈ raw := by
        rcases List.mem_cons.1 hd with rfl | hmem
        · rw [h] at hd'
          cases hd'
        · exact hmem
      obtain ⟨d'', hd'', r', hr', hrest⟩ := ih hmem
      refine ⟨d'', List.mem_cons_of_mem _ hd'', r', hr', ?_⟩
      rw [hrest]
      rfl

section

variable {db : Db} {params : GetParams}

/-- A document is kept with its joins or not; the clause may fail on it. -/
theorem filterAndJoinDoc_cases (db : Db) (params : GetParams) (key : String) (doc : Json) :
    filterAndJoinDoc db params key doc = .ok none ∨
      filterAndJoinDoc db params key doc =
        .ok (some (key, applyJoins db doc (params.joinsReq.getD []))) ∨
      ∃ e : DbError, filterAndJoinDoc db params key doc =
        .error (GetError.whereEvalError e.display).intoResponse := by
  unfold filterAndJoinDoc
  split_ifs
  · exact Or.inl rfl
  cases params.joinsReq
  all_goals
    dsimp only
    split
    · exact Or.inr (Or.inl rfl)
    · split
      · exact Or.inr (Or.inl rfl)
      · exact Or.inl rfl
      · exact Or.inr (Or.inr ⟨_, rfl⟩)

/-- The clause of the query failed on a document. -/
theorem filterAndJoinDocs_error {raw : List (String × Json)} {r : Response}
    (h : filterAndJoinDocs db params raw = .error r) : r.1 = 400 := by
  induction raw with
  | nil => cases h
  | cons d raw ih =>
    rw [filterAndJoinDocs] at h
    cases hkept : filterAndJoinDoc db params d.1 d.2 with
    | error e =>
      rw [hkept] at h
      obtain rfl := Except.error.inj h
      rcases filterAndJoinDoc_cases db params d.1 d.2 with hdoc | hdoc | ⟨err, hdoc⟩
      · rw [hdoc] at hkept
        cases hkept
      · rw [hdoc] at hkept
        cases hkept
      · rw [hdoc] at hkept
        obtain rfl := Except.error.inj hkept
        rfl
    | ok kept =>
      cases hrest : filterAndJoinDocs db params raw with
      | error e =>
        rw [hkept, hrest] at h
        obtain rfl := Except.error.inj h
        exact ih hrest
      | ok rest =>
        rw [hkept, hrest] at h
        cases h

/-- What is kept of the fetched documents. -/
theorem mem_filterAndJoinDocs {raw : List (String × Json)} {results : List Found}
    (h : filterAndJoinDocs db params raw = .ok results) {r : Found} (hr : r ∈ results) :
    ∃ d ∈ raw, r = (d.1, applyJoins db d.2 (params.joinsReq.getD [])) := by
  induction raw generalizing results with
  | nil =>
    cases h
    cases hr
  | cons d raw ih =>
    rw [filterAndJoinDocs] at h
    cases hkept : filterAndJoinDoc db params d.1 d.2 with
    | error e =>
      rw [hkept] at h
      cases h
    | ok kept =>
      cases hrest : filterAndJoinDocs db params raw with
      | error e =>
        rw [hkept, hrest] at h
        cases h
      | ok rest =>
        rw [hkept, hrest] at h
        have hresults := Except.ok.inj h
        have hmem : kept = some r ∨ r ∈ rest := by
          subst hresults
          cases kept with
          | none => exact Or.inr hr
          | some d' => exact (List.mem_cons.1 hr).imp_left fun heq => congrArg some heq.symm
        rcases hmem with rfl | hmem
        · rcases filterAndJoinDoc_cases db params d.1 d.2 with hdoc | hdoc | ⟨err, hdoc⟩
          · rw [hdoc] at hkept
            cases hkept
          · rw [hdoc] at hkept
            exact ⟨d, List.mem_cons_self, (Option.some.inj (Except.ok.inj hkept)).symm⟩
          · rw [hdoc] at hkept
            cases hkept
        · obtain ⟨d', hd', heq⟩ := ih hrest hmem
          exact ⟨d', List.mem_cons_of_mem _ hd', heq⟩

end

/-! ## Responses -/

/-- A result in its shape. -/
def GetParams.shape (params : GetParams) (d : Found) : Json :=
  shapeDoc d.2.1 d.1 params.fieldsReq params.excludedReq d.2.2 params.expiresVal

variable [FloatText]

/-- `shape_and_return`: sorted, one page of it, and in shape; a single key gets its
    document alone. -/
def shapeAndReturn (params : GetParams) (results : List Found) : Response :=
  match params.keys, results with
  | some (.str _), d :: _ =>
    (200, match params.shape d with
      | .obj out => .obj (Fields.erase SystemFields.KEY out)
      | out => out)
  | _, results =>
    let results := match params.sortSpecs with
      | some specs => results.insertionSort fun a b : Found => (makeComparator specs a.2.1 b.2.1).isLE
      | none => results
    let page := (results.take (usizeAdd params.offset params.countLimit)).drop params.offset
    documentsResponse (page.map params.shape)

/-- The matches of a sorted scan that keeps the first ones only. -/
def fastSorted (params : GetParams) (specs : List Json) : Op (List (String × Json)) :=
  let cap := usizeAdd params.offset params.countLimit
  let predicate : Predicate := fun _ bytes =>
    (params.whereClause.map fun c => rawMatches c bytes).getD true
  let general := Db.scanTopN params.colName predicate (makeComparator specs) cap
  match specs with
  | [spec] =>
    let (field, descending) := (sortField spec).getD ("", false)
    if field = "" then general
    else Db.scanTopNRawCoalesced params.colName predicate field descending cap
  | _ => general

/-- `run_fast_sort_path`, with sort specs. -/
def runFastSortPath (params : GetParams) (specs : List Json) : Op Response := do
  let top ← fastSorted params specs
  return documentsResponse ((top.drop params.offset).map fun d => params.shape (d.1, d.2, []))

/-- The general path of a query. -/
def runGeneralPath (params : GetParams) : Op Response := do
  let raw ← fetchDocuments params
  let db ← Eff.get
  match filterAndJoinDocs db params raw with
  | .error e => return e
  | .ok [] => return GetError.noDocumentsFound.intoResponse
  | .ok results => return shapeAndReturn params results

/-- `process_get`. -/
def processGet (payload : Json) (maxBodySize maxKeysPerRequest : ℕ) : Op Response :=
  match validateGetRequest payload maxBodySize maxKeysPerRequest with
  | .error e => return e
  | .ok _ => do
    let queryTime ← nowMs
    let db ← Eff.get
    match parseGetParams db queryTime payload with
    | .error e => return e
    | .ok params =>
      match params.sortSpecs with
      | some specs =>
        if (payload.field .keys).isNone && !params.hasJoins && !params.hasPrefix then
          runFastSortPath params specs
        else runGeneralPath params
      | none => runGeneralPath params

/-! ## The ways of a query -/

variable {db : Db} {payload : Json} {maxBodySize maxKeysPerRequest : ℕ}

theorem processGet_invalid {r : Response}
    (h : validateGetRequest payload maxBodySize maxKeysPerRequest = .error r) :
    processGet payload maxBodySize maxKeysPerRequest db = (.ok r, db) := by
  rw [processGet, h]
  rfl

theorem processGet_error {u : Unit} {r : Response}
    (h : validateGetRequest payload maxBodySize maxKeysPerRequest = .ok u)
    (hparse : parseGetParams { db with tick := db.tick + 1 } (db.world.clock db.tick) payload =
      .error r) :
    processGet payload maxBodySize maxKeysPerRequest db =
      (.ok r, { db with tick := db.tick + 1 }) := by
  rw [processGet, h]
  simp only [Bind.bind, Eff.bind, nowMs, Eff.get, hparse]
  rfl

/-- A query without an order takes the general path. -/
theorem processGet_general {u : Unit} {params : GetParams}
    (h : validateGetRequest payload maxBodySize maxKeysPerRequest = .ok u)
    (hparse : parseGetParams { db with tick := db.tick + 1 } (db.world.clock db.tick) payload =
      .ok params) (hsort : params.sortSpecs = none) :
    processGet payload maxBodySize maxKeysPerRequest db =
      runGeneralPath params { db with tick := db.tick + 1 } := by
  rw [processGet, h]
  simp only [Bind.bind, Eff.bind, nowMs, Eff.get, hparse, hsort]

end MoltenDB
