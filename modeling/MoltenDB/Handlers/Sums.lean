/-
  The sums of sizes that a query makes.

  The handler of queries is written a second time, with a note of every sum of `usize`s that
  it makes to page.  Without the notes it is the handler of queries (`forget_processGet`).
-/
import MoltenDB.Handlers.Get
import MoltenDB.Lib.Notes

namespace MoltenDB

open Wire Prog Prog.Noted

/-- An operation of the engine with notes of the sums it makes. -/
abbrev SumOp (α : Type) := Noted (ℕ × ℕ) DbError Db α

namespace Sums

/-- `a + b`. -/
def sum (a b : ℕ) : SumOp ℕ := do
  note [(a, b)]
  return usizeAdd a b

variable [Crates]

/-- `Db::get_filtered` adds the offset to the limit if the collection exists. -/
def getFiltered (p : Db.GetFilteredParams) : SumOp (List (String × Json)) := do
  let db ← lift Eff.get
  note (if (db.col p.collection).isSome then (p.count.map fun lim => (p.offset, lim)).toList else [])
  lift (Db.getFiltered p)

/-- `new_accumulators` makes a heap with room for one more than `cap`, if the collection exists. -/
def scanTopNRawCoalesced (collection : String) (predicate : Predicate) (sortField : String)
    (isDescending : Bool) (cap : ℕ) : SumOp (List (String × Json)) := do
  let db ← lift Eff.get
  note (if (db.col collection).isSome then [(cap, 1)] else [])
  lift (Db.scanTopNRawCoalesced collection predicate sortField isDescending cap)

/-- `operations::scan_top_n` makes such heaps too, if `cap` is not zero. -/
def scanTopN (collection : String) (predicate : Predicate) (cmp : Json → Json → Ordering)
    (cap : ℕ) : SumOp (List (String × Json)) := do
  let db ← lift Eff.get
  note (if cap ≠ 0 ∧ (db.col collection).isSome then [(cap, 1)] else [])
  lift (Db.scanTopN collection predicate cmp cap)

variable [Lowercase]

/-- `fetch_documents` without keys: with sort specs, all matches are needed. -/
def scanDocuments (params : GetParams) : SumOp (List (String × Json)) := do
  let count ← if params.sortSpecs.isSome then pure none
    else do
      let need ← sum params.offset params.countLimit
      pure (some need)
  let clause := if params.hasJoins then none else params.whereClause
  let pfxs := params.prefixes.getD []
  let scanFiltered := fun predicate hasWhere => getFiltered {
    collection := params.colName
    predicate
    offset := 0
    count
    defaultOrderAsc := params.defaultOrderAsc
    hasWhere }
  match clause, params.hasPrefix with
  | some clause, false =>
    lift (Db.getFilteredCoalesced params.colName (fun _ bytes => wherePredicate clause bytes)
      count params.defaultOrderAsc)
  | none, true =>
    scanFiltered (fun key _ => startsWithAny pfxs key) params.whereClause.isSome
  | some clause, true =>
    scanFiltered (fun key bytes => startsWithAny pfxs key && wherePredicate clause bytes)
      params.whereClause.isSome
  | none, false => scanFiltered (fun _ _ => true) false

def fetchDocuments (params : GetParams) : SumOp (List (String × Json)) :=
  match params.keys with
  | some (.str k) => lift (fetchKeys params [k])
  | some (.arr arr) => lift (fetchKeys params (arr.filterMap Json.asStr))
  | _ => scanDocuments params

variable [FloatText]

/-- `shape_and_return` truncates the results, other than that of a single key. -/
def shapeAndReturn (params : GetParams) (results : List Found) : SumOp Response :=
  match params.keys, results with
  | some (.str _), _ :: _ => pure (MoltenDB.shapeAndReturn params results)
  | _, _ => do
    note [(params.offset, params.countLimit)]
    return MoltenDB.shapeAndReturn params results

def fastSorted (params : GetParams) (specs : List Json) : SumOp (List (String × Json)) := do
  let cap ← sum params.offset params.countLimit
  let predicate : Predicate := fun _ bytes =>
    (params.whereClause.map fun c => rawMatches c bytes).getD true
  let general := scanTopN params.colName predicate (makeComparator specs) cap
  match specs with
  | [spec] =>
    let (field, descending) := (sortField spec).getD ("", false)
    if field = "" then general
    else scanTopNRawCoalesced params.colName predicate field descending cap
  | _ => general

def runFastSortPath (params : GetParams) (specs : List Json) : SumOp Response := do
  let top ← fastSorted params specs
  return documentsResponse ((top.drop params.offset).map fun d => params.shape (d.1, d.2, []))

def runGeneralPath (params : GetParams) : SumOp Response := do
  let raw ← fetchDocuments params
  let db ← lift Eff.get
  match filterAndJoinDocs db params raw with
  | .error e => return e
  | .ok [] => return GetError.noDocumentsFound.intoResponse
  | .ok results => shapeAndReturn params results

def processGet (payload : Json) (maxBodySize maxKeysPerRequest : ℕ) : SumOp Response :=
  match validateGetRequest payload maxBodySize maxKeysPerRequest with
  | .error e => return e
  | .ok _ => do
    let queryTime ← lift nowMs
    let db ← lift Eff.get
    match parseGetParams db queryTime payload with
    | .error e => return e
    | .ok params =>
      match params.sortSpecs with
      | some specs =>
        if (payload.field .keys).isNone && !params.hasJoins && !params.hasPrefix then
          runFastSortPath params specs
        else runGeneralPath params
      | none => runGeneralPath params

/-! ## Without the notes -/

omit [Crates] [Lowercase] [FloatText] in
@[simp] theorem forget_sum (a b : ℕ) : (sum a b).forget = pure (usizeAdd a b) := rfl

omit [Lowercase] [FloatText] in
@[simp] theorem forget_getFiltered (p : Db.GetFilteredParams) :
    (getFiltered p).forget = Db.getFiltered p :=
  forget_get_note _ _

omit [Lowercase] [FloatText] in
@[simp] theorem forget_scanTopNRawCoalesced (collection : String) (predicate : Predicate)
    (sortField : String) (isDescending : Bool) (cap : ℕ) :
    (scanTopNRawCoalesced collection predicate sortField isDescending cap).forget =
      Db.scanTopNRawCoalesced collection predicate sortField isDescending cap :=
  forget_get_note _ _

omit [Crates] [Lowercase] [FloatText] in
@[simp] theorem forget_scanTopN (collection : String) (predicate : Predicate)
    (cmp : Json → Json → Ordering) (cap : ℕ) :
    (scanTopN collection predicate cmp cap).forget = Db.scanTopN collection predicate cmp cap :=
  forget_get_note _ _

omit [FloatText] in
@[simp] theorem forget_scanDocuments (params : GetParams) :
    (scanDocuments params).forget = MoltenDB.scanDocuments params := by
  unfold scanDocuments MoltenDB.scanDocuments MoltenDB.scanFiltered
  cases params.sortSpecs <;> cases params.hasJoins <;> cases params.whereClause <;>
    cases params.hasPrefix <;> simp

omit [FloatText] in
@[simp] theorem forget_fetchDocuments (params : GetParams) :
    (fetchDocuments params).forget = MoltenDB.fetchDocuments params := by
  unfold fetchDocuments MoltenDB.fetchDocuments
  rcases params.keys with _ | _ | _ | _ | _ | _ | _ <;> simp

omit [Crates] [Lowercase] in
@[simp] theorem forget_shapeAndReturn (params : GetParams) (results : List Found) :
    (shapeAndReturn params results).forget = pure (MoltenDB.shapeAndReturn params results) := by
  unfold shapeAndReturn
  split <;> simp

@[simp] theorem forget_fastSorted (params : GetParams) (specs : List Json) :
    (fastSorted params specs).forget = MoltenDB.fastSorted params specs := by
  unfold fastSorted MoltenDB.fastSorted
  simp only [forget_bind, forget_sum, pure_bind]
  split
  · simp only [forget_ite, forget_scanTopN, forget_scanTopNRawCoalesced]
  · simp only [forget_scanTopN]

@[simp] theorem forget_runFastSortPath (params : GetParams) (specs : List Json) :
    (runFastSortPath params specs).forget = MoltenDB.runFastSortPath params specs := by
  unfold runFastSortPath MoltenDB.runFastSortPath
  simp only [forget_bind, forget_fastSorted, forget_pure]

@[simp] theorem forget_runGeneralPath (params : GetParams) :
    (runGeneralPath params).forget = MoltenDB.runGeneralPath params := by
  unfold runGeneralPath MoltenDB.runGeneralPath
  simp only [forget_bind, forget_fetchDocuments, forget_lift]
  refine bind_congr fun raw => bind_congr fun db => ?_
  rcases filterAndJoinDocs db params raw with e | _ | ⟨d, results⟩ <;> simp

/-- **Without its notes, it is the handler of queries.** -/
theorem forget_processGet (payload : Json) (maxBodySize maxKeysPerRequest : ℕ) :
    (processGet payload maxBodySize maxKeysPerRequest).forget =
      MoltenDB.processGet payload maxBodySize maxKeysPerRequest := by
  unfold processGet MoltenDB.processGet
  cases validateGetRequest payload maxBodySize maxKeysPerRequest with
  | error e => rfl
  | ok u =>
    simp only [forget_bind, forget_lift]
    refine bind_congr fun queryTime => bind_congr fun db => ?_
    cases parseGetParams db queryTime payload with
    | error e => rfl
    | ok params =>
      dsimp only
      cases params.sortSpecs with
      | none => simp
      | some specs => simp only [forget_ite, forget_runFastSortPath, forget_runGeneralPath]

end Sums

end MoltenDB
