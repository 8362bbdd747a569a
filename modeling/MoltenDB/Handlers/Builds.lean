/-
  The handler of queries in the native build and in the build for wasm32.

  The source has one text for both, and marks what only one of them compiles; a `Build` is
  what differs.
-/
import MoltenDB.Engine.Coalesce
import MoltenDB.Engine.Wasm
import MoltenDB.Handlers.Get

namespace MoltenDB

open Wire Prog

/-- What differs between the builds: sizes, and the scans of the engine. -/
structure Build where
  /-- `n as usize`. -/
  asUsize : UInt64 → ℕ
  usizeAdd : ℕ → ℕ → ℕ
  /-- The scan for a WHERE clause without joins and prefixes. -/
  scanWhere : String → Predicate → Option ℕ → Bool → Op (List (String × Json))
  getFiltered : Db.GetFilteredParams → Op (List (String × Json))
  scanTopNRaw : String → Predicate → String → Bool → ℕ → Op (List (String × Json))
  scanTopN : String → Predicate → (Json → Json → Ordering) → ℕ → Op (List (String × Json))

section

variable [Crates]

/-- The answer to a request that the coordinator puts into a batch with others. -/
def coalesced (w : Workers) (before after : List ScanRequest) (collection : String)
    (r : ScanRequest) : Op (List (String × Json)) := do
  let answers ← runBatchForCollection w collection (before ++ r :: after)
  return expandAll (answers.getD before.length [])

namespace Build

/-- The native build, whose coalesced scans come with the requests `before` and `after` them. -/
def native (w : Workers) (before after : List ScanRequest) : Build where
  asUsize := UInt64.toNat
  usizeAdd := MoltenDB.usizeAdd
  scanWhere collection predicate need defaultOrderAsc :=
    coalesced w before after collection ⟨predicate, .filtered need defaultOrderAsc⟩
  getFiltered := Db.getFiltered
  scanTopNRaw collection predicate sortField isDescending cap :=
    coalesced w before after collection ⟨predicate, .sortedTopN sortField isDescending cap⟩
  scanTopN collection predicate cmp cap :=
    expandAll <$> Operations.scanTopN w collection predicate cmp cap

/-- The build for wasm32. -/
def wasm : Build where
  asUsize n := n.toNat % 2 ^ 32
  usizeAdd := Wasm.usizeAdd
  scanWhere collection predicate count defaultOrderAsc := expandAll <$> Wasm.getFiltered {
    collection
    predicate
    offset := 0
    count
    defaultOrderAsc
    hasWhere := true }
  getFiltered p := expandAll <$> Wasm.getFiltered p
  scanTopNRaw collection predicate sortField isDescending cap :=
    expandAll <$> Wasm.scanTopNRaw collection predicate sortField isDescending cap
  scanTopN collection predicate cmp cap :=
    expandAll <$> Wasm.scanTopN collection predicate cmp cap

end Build

end

namespace Build

variable (b : Build)

/-- `parse_get_params` at the time `queryTime`. -/
def parseGetParams (db : Db) (queryTime : UInt64) (payload : Json) : Except Response GetParams :=
  let colName := (namedCollection payload).getD "default"
  let count := (payload.field .count).bind Json.asU64
  if count.any fun n => MAX_COUNT < b.asUsize n then
    .error (GetError.countExceeded MAX_COUNT).intoResponse
  else if db.ttlExpiry[colName]?.any fun exp => collectionIsExpired exp queryTime then
    .error GetError.collectionExpired.intoResponse
  else
    .ok {
      colName
      whereClause := payload.field .filter
      joinsReq := (payload.field .joins).bind Json.asArray
      sortSpecs := (payload.field .sort).bind Json.asArray
      countLimit := (count.map b.asUsize).getD DEFAULT_COUNT
      offset := (((payload.field .offset).bind Json.asU64).map b.asUsize).getD 0
      fieldsReq := (payload.field .fields).bind Json.asArray
      excludedReq := (payload.field .excludedFields).bind Json.asArray
      allowedPrefixes := (payload.field .allowedPrefixes).bind Json.asArray
      expiresVal := db.ttlExpiry[colName]?.map fun ms => .str (msToIso ms)
      keys := payload.field .keys
      defaultOrderAsc := (payload.field .order).bind Json.asStr == some "asc" }

variable [Crates] [Lowercase]

/-- A scan with `Db::get_filtered`. -/
def scanFiltered (params : GetParams) (predicate : Predicate) (hasWhere : Bool) :
    Op (List (String × Json)) :=
  b.getFiltered {
    collection := params.colName
    predicate
    offset := 0
    count := if params.sortSpecs.isSome then none
      else some (b.usizeAdd params.offset params.countLimit)
    defaultOrderAsc := params.defaultOrderAsc
    hasWhere }

/-- `fetch_documents` without keys. -/
def scanDocuments (params : GetParams) : Op (List (String × Json)) :=
  let clause := if params.hasJoins then none else params.whereClause
  let pfxs := params.prefixes.getD []
  match clause, params.hasPrefix with
  | some clause, false =>
    b.scanWhere params.colName (fun _ bytes => wherePredicate clause bytes)
      (if params.sortSpecs.isSome then none
        else some (b.usizeAdd params.offset params.countLimit)) params.defaultOrderAsc
  | none, true =>
    b.scanFiltered params (fun key _ => startsWithAny pfxs key) params.whereClause.isSome
  | some clause, true =>
    b.scanFiltered params (fun key bytes => startsWithAny pfxs key && wherePredicate clause bytes)
      params.whereClause.isSome
  | none, false => b.scanFiltered params (fun _ _ => true) false

def fetchDocuments (params : GetParams) : Op (List (String × Json)) :=
  match params.keys with
  | some (.str k) => fetchKeys params [k]
  | some (.arr arr) => fetchKeys params (arr.filterMap Json.asStr)
  | _ => b.scanDocuments params

variable [FloatText]

/-- `shape_and_return`. -/
def shapeAndReturn (params : GetParams) (results : List Found) : Response :=
  match params.keys, results with
  | some (.str _), d :: _ =>
    (200, match params.shape d with
      | .obj out => .obj (Fields.erase SystemFields.KEY out)
      | out => out)
  | _, results =>
    let results := match params.sortSpecs with
      | some specs => results.insertionSort fun x y : Found =>
        (makeComparator specs x.2.1 y.2.1).isLE
      | none => results
    let page := (results.take (b.usizeAdd params.offset params.countLimit)).drop params.offset
    documentsResponse (page.map params.shape)

/-- The matches of a sorted scan that keeps the first ones only. -/
def fastSorted (params : GetParams) (specs : List Json) : Op (List (String × Json)) :=
  let cap := b.usizeAdd params.offset params.countLimit
  let predicate : Predicate := fun _ bytes =>
    (params.whereClause.map fun c => rawMatches c bytes).getD true
  let general := b.scanTopN params.colName predicate (makeComparator specs) cap
  match specs with
  | [spec] =>
    let (field, descending) := (sortField spec).getD ("", false)
    if field = "" then general
    else b.scanTopNRaw params.colName predicate field descending cap
  | _ => general

/-- `run_fast_sort_path`, with sort specs. -/
def runFastSortPath (params : GetParams) (specs : List Json) : Op Response := do
  let top ← b.fastSorted params specs
  return documentsResponse ((top.drop params.offset).map fun d => params.shape (d.1, d.2, []))

/-- The general path of a query. -/
def runGeneralPath (params : GetParams) : Op Response := do
  let raw ← b.fetchDocuments params
  let db ← Eff.get
  match filterAndJoinDocs db params raw with
  | .error e => return e
  | .ok [] => return GetError.noDocumentsFound.intoResponse
  | .ok results => return b.shapeAndReturn params results

/-- `process_get`. -/
def processGet (payload : Json) (maxBodySize maxKeysPerRequest : ℕ) : Op Response :=
  match validateGetRequest payload maxBodySize maxKeysPerRequest with
  | .error e => return e
  | .ok _ => do
    let queryTime ← nowMs
    let db ← Eff.get
    match b.parseGetParams db queryTime payload with
    | .error e => return e
    | .ok params =>
      match params.sortSpecs with
      | some specs =>
        if (payload.field .keys).isNone && !params.hasJoins && !params.hasPrefix then
          b.runFastSortPath params specs
        else b.runGeneralPath params
      | none => b.runGeneralPath params

end Build

end MoltenDB
