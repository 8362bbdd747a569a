/-
  The handlers of requests that write: documents set, updated and deleted, and the
  settings of a collection.
-/
import MoltenDB.Engine.Reads
import MoltenDB.Handlers.Common
import MoltenDB.Query.Msgpack

namespace MoltenDB

open Wire Prog

/-- The JSON value of a count. -/
def jsonCount (n : ℕ) : Json := .ofU64 (UInt64.ofNat n)

/-! ## Errors -/

inductive SetError
  | reservedFields
  | invalidTtl
  | invalidMaxSize
  | insertConflict
  | storageFault (details : String)
  | insertFailed (details : String)
  | missingDataMap
  | schemaValidationError (msg : String)

namespace SetError

def display : SetError → String
  | reservedFields =>
    "Fields starting with '_' are reserved for internal use and cannot be set by the client."
  | invalidTtl => "'ttl' must be a non-negative integer (seconds)"
  | invalidMaxSize => "'maxSize' must be a positive integer"
  | insertConflict => "Conflict: Document version is outdated"
  | storageFault details => "Service unavailable -- storage fault: " ++ details
  | insertFailed details => "Database write failed: " ++ details
  | missingDataMap => "Missing 'data' (object or array)"
  | schemaValidationError msg => msg

def statusCode : SetError → ℕ
  | reservedFields | invalidTtl | invalidMaxSize | missingDataMap | schemaValidationError _ => 400
  | insertConflict => 409
  | storageFault _ => 503
  | insertFailed _ => 500

def intoResponse (e : SetError) : Response := errorResponse e.statusCode e.display

/-- The error that a failed insert is answered with. -/
def ofDbError : DbError → SetError
  | .conflict => insertConflict
  | .storageFault msg => storageFault msg
  | .schemaValidationError msg => schemaValidationError msg
  | e => insertFailed e.display

end SetError

inductive UpdateError
  | updateFailed (details : String)
  | reservedFields
  | versionConflict
  | missingDataMap

namespace UpdateError

def display : UpdateError → String
  | updateFailed details => "Database update failed: " ++ details
  | versionConflict => "Conflict: Document version is outdated"
  | reservedFields => "Fields starting with '_' are reserved."
  | missingDataMap => "Missing 'data' map"

def statusCode : UpdateError → ℕ
  | reservedFields | missingDataMap => 400
  | versionConflict => 409
  | updateFailed _ => 500

def intoResponse (e : UpdateError) : Response := errorResponse e.statusCode e.display

end UpdateError

inductive DeleteError
  | failedToDropCollection (details : String)
  | failedToDelete (details : String)
  | failedToDeleteKey (details : String)
  | failedToDeleteBatch (details : String)
  | countExceeded (max : ℕ)
  | missingFields

namespace DeleteError

def display : DeleteError → String
  | failedToDropCollection details => "Failed to drop collection: " ++ details
  | failedToDelete details => "Failed to delete: " ++ details
  | failedToDeleteKey details => "Failed to delete key: " ++ details
  | failedToDeleteBatch details => "Failed to delete batch: " ++ details
  | countExceeded max => "'count' cannot exceed " ++ Decimal.print max
  | missingFields => "Missing 'keys' (string or array), 'where', or 'drop': true"

def statusCode : DeleteError → ℕ
  | countExceeded _ | missingFields => 400
  | failedToDropCollection _ | failedToDelete _ | failedToDeleteKey _ | failedToDeleteBatch _ => 500

def intoResponse (e : DeleteError) : Response := errorResponse e.statusCode e.display

end DeleteError

inductive SchemaError
  | missingCollection
  | missingSchemaFields
  | invalidSchema (details : String)
  | invalidTtl
  | invalidMaxSize
  | databaseError (details : String)

namespace SchemaError

def display : SchemaError → String
  | missingCollection => "Missing 'collection' name"
  | missingSchemaFields => "At least one of 'schema', 'ttl', or 'maxSize' must be provided"
  | invalidSchema details => "Invalid Schema: " ++ details
  | invalidTtl => "'ttl' must be a non-negative integer (seconds)"
  | invalidMaxSize => "'maxSize' must be a positive integer"
  | databaseError details => "Database error: " ++ details

def statusCode : SchemaError → ℕ
  | missingCollection | missingSchemaFields | invalidSchema _ | invalidTtl | invalidMaxSize => 400
  | databaseError _ => 500

def intoResponse (e : SchemaError) : Response := errorResponse e.statusCode e.display

end SchemaError

variable [Crates] [FloatText]

/-- Run `handle` if a check has passed. -/
def validated (check : Except ValidationError Unit) (handle : Op Response) : Op Response :=
  match check with
  | .error e => return e.intoResponse
  | .ok _ => handle

/-! ## Set -/

def SET_ALLOWED : List PayloadField := [.collection, .data, .ttl, .maxSize]

/-- The texts before and after the first dot. -/
def cutAtDot (s : String) : Option (String × String) :=
  match s.toList.dropWhile (· ≠ '.') with
  | [] => none
  | _ :: rest => some (String.ofList (s.toList.takeWhile (· ≠ '.')), String.ofList rest)

/-- Embed the document that a reference `collection.key` names, if there is one. -/
def embedReference (db : Db) (result : List (String × Json)) (name : String) (reference : Json) :
    List (String × Json) :=
  match reference.asStr.bind cutAtDot with
  | none => result
  | some (refCollection, refKey) =>
    match (db.get refCollection [refKey])[refKey]? with
    | some referenced => Fields.insert name referenced result
    | none => result

/-- `resolve_extends`: replace the field `extends` of a document by what it refers to. -/
def resolveExtends (db : Db) (doc : Json) : Json :=
  match doc with
  | .obj obj =>
    match (obj.lookup "extends").bind Json.asObject with
    | some extendsMap =>
      .obj (extendsMap.foldl (fun result p => embedReference db result p.1 p.2)
        (Fields.erase "extends" obj))
    | none => doc
  | doc => doc

/-- A field of the document starts with an underscore, other than those excepted. -/
def hasReserved (excepted : List String) (doc : Json) : Bool :=
  (doc.asObject.getD []).any fun p => p.1.toList.head? = some '_' && !excepted.contains p.1

/-- Give each item a fresh identifier; `none` if one has reserved fields. -/
def identify (db : Db) : List Json → Op (Option (List (String × Json)))
  | [] => return some []
  | item :: items => do
    let id ← newUuid
    let resolved := resolveExtends db item
    if hasReserved [] resolved then return none
    else do
      let rest ← identify db items
      return rest.map ((id, resolved) :: ·)

/-- Insert items and answer with `success`. -/
def insertItems (col : String) (items : List (String × Json)) (success : List (String × Json)) :
    Op Response := do
  match ← Eff.outcome (Db.insert col items) with
  | .ok _ => return (200, json success)
  | .error e => return (SetError.ofDbError e).intoResponse

/-- Insert the documents of a request, under its keys or under fresh ones. -/
def setData (col : String) (data : Option Json) : Op Response := do
  let db ← Eff.get
  match data with
  | some (.obj dataMap) =>
    let items := dataMap.map fun p => (p.1, resolveExtends db p.2)
    if items.any fun p => hasReserved [] p.2 then return SetError.reservedFields.intoResponse
    else insertItems col items [("status", .str "ok"), ("count", jsonCount dataMap.length)]
  | some (.arr dataArr) => do
    match ← identify db dataArr with
    | none => return SetError.reservedFields.intoResponse
    | some items =>
      insertItems col items [("status", .str "ok"), ("count", jsonCount dataArr.length),
        ("ids", .arr (items.map fun p => .str p.1))]
  | _ => return SetError.missingDataMap.intoResponse

/-- Register a TTL of a request, if it has one, and go on if that is valid. -/
def withTtl (col : String) (ttl : Option Json) (invalid : Response) (next : Op Response) :
    Op Response :=
  match ttl with
  | none => next
  | some ttlVal =>
    match ttlVal.asU64 with
    | some secs => do
      Db.setTtlDefault col secs
      next
    | none => return invalid

/-- Register a maximal size of a request, if it has one, and go on if that is valid. -/
def withMaxSize (col : String) (maxSize : Option Json) (invalid : Response) (next : Op Response) :
    Op Response :=
  match maxSize with
  | none => next
  | some maxVal =>
    match maxVal.asU64.filter (0 < ·) with
    | some max => do
      Db.setMaxSize col max.toNat
      next
    | none => return invalid

/-- `process_set`. -/
def processSet (payload : Json) (maxBodySize maxKeysPerRequest : ℕ) : Op Response :=
  validated (validateAllowedProperties payload SET_ALLOWED) <|
    validated (validateRequest payload maxBodySize maxKeysPerRequest) <|
      let col := (namedCollection payload).getD "default"
      withTtl col (payload.field .ttl) SetError.invalidTtl.intoResponse <|
        withMaxSize col (payload.field .maxSize) SetError.invalidMaxSize.intoResponse <|
          setData col (payload.field .data)

/-! ## Update -/

def UPDATE_ALLOWED : List PayloadField := [.collection, .data]

/-- Update documents in order, up to the first failure; `n` are updated already. -/
def updateItems (col : String) : ℕ → List (String × Json) → Op Response
  | n, [] => return (200, json [("status", .str "ok"), ("updated", jsonCount n)])
  | n, (key, value) :: items =>
    if hasReserved ["_v"] value then return UpdateError.reservedFields.intoResponse
    else do
      match ← Eff.outcome (Db.update col key value) with
      | .ok true => updateItems col (n + 1) items
      | .ok false => updateItems col n items
      | .error .conflict => return UpdateError.versionConflict.intoResponse
      | .error (.schemaValidationError e) => return errorResponse 400 e
      | .error e => return (UpdateError.updateFailed e.display).intoResponse

/-- `process_update`. -/
def processUpdate (payload : Json) (maxBodySize maxKeysPerRequest : ℕ) : Op Response :=
  validated (validateAllowedProperties payload UPDATE_ALLOWED) <|
    validated (validateRequest payload maxBodySize maxKeysPerRequest) <|
      match (payload.field .data).bind Json.asObject with
      | some dataMap => updateItems ((namedCollection payload).getD "default") 0 dataMap
      | none => return UpdateError.missingDataMap.intoResponse

/-! ## Schema -/

def SCHEMA_ALLOWED : List PayloadField := [.collection, .schema, .ttl, .maxSize]

/-- Register a schema of a request, if it has one, and go on if that succeeds. -/
def withSchema (col : String) (schema : Option Json) (next : Op Response) : Op Response :=
  match schema with
  | none => next
  | some schema => do
    match ← Eff.outcome (Db.setSchema col schema) with
    | .ok _ => next
    | .error (.schemaValidationError msg) => return (SchemaError.invalidSchema msg).intoResponse
    | .error e => return (SchemaError.databaseError e.display).intoResponse

/-- `process_schema`. -/
def processSchema (payload : Json) (maxBodySize maxKeysPerRequest : ℕ) : Op Response :=
  validated (validateAllowedProperties payload SCHEMA_ALLOWED) <|
    validated (validateRequest payload maxBodySize maxKeysPerRequest) <|
      match namedCollection payload with
      | none => return SchemaError.missingCollection.intoResponse
      | some col =>
        if (payload.field .schema).isNone ∧ (payload.field .ttl).isNone ∧
            (payload.field .maxSize).isNone then
          return SchemaError.missingSchemaFields.intoResponse
        else
          withSchema col (payload.field .schema) <|
            withTtl col (payload.field .ttl) SchemaError.invalidTtl.intoResponse <|
              withMaxSize col (payload.field .maxSize) SchemaError.invalidMaxSize.intoResponse <|
                return (200, json [("status", .str "ok"), ("collection", .str col)])

/-! ## Delete -/

def DELETE_ALLOWED : List PayloadField := [.collection, .count, .drop, .keys, .order, .filter]

def DEFAULT_DELETE_COUNT : ℕ := 100

def MAX_DELETE_COUNT : ℕ := 1000

/-- The response of a deletion of `count` documents. -/
def deletedResponse (count : ℕ) : Response :=
  (200, json [("status", .str "ok"), ("deleted", jsonCount count)])

/-- The response of a deletion that may fail. -/
def deleteResponse (r : Except DbError ℕ) (failed : String → DeleteError) : Response :=
  match r with
  | .ok count => deletedResponse count
  | .error e => (failed e.display).intoResponse

/-- Delete the documents with the given keys; the keys are counted. -/
def deleteByKeys (col : String) (keys : List String) (failed : String → DeleteError) :
    Op Response := do
  let r ← Eff.outcome (Db.delete col keys)
  return deleteResponse (r.map fun _ => keys.length) failed

/-- `process_delete`. -/
def processDelete [Lowercase] (payload : Json) (maxBodySize maxKeysPerRequest : ℕ) : Op Response :=
  validated (validateRequest payload maxBodySize maxKeysPerRequest) <|
    validated (validateAllowedProperties payload DELETE_ALLOWED) <|
      let col := (namedCollection payload).getD "default"
      let count := (payload.field .count).bind Json.asU64
      let orderAsc := (((payload.field .order).bind Json.asStr).map fun s => s != "desc").getD true
      if (payload.field .drop).bind Json.asBool = some true then do
        match ← Eff.outcome (Db.deleteCollection col) with
        | .ok _ => return (200, json [("status", .str "ok"), ("dropped", .bool true)])
        | .error e => return (DeleteError.failedToDropCollection e.display).intoResponse
      else
        match payload.field .filter, payload.field .keys, count with
        | some clause, _, count =>
          if count.any fun n => MAX_DELETE_COUNT < n.toNat then
            return (DeleteError.countExceeded MAX_DELETE_COUNT).intoResponse
          else do
            let r ← Eff.outcome (Db.deleteFiltered col
              (fun _ docBytes => (evaluateWhereMsgpack docBytes clause).getD false)
              (some ((count.map UInt64.toNat).getD DEFAULT_DELETE_COUNT)) orderAsc)
            return deleteResponse r .failedToDelete
        | none, none, some n =>
          if MAX_DELETE_COUNT < n.toNat then
            return (DeleteError.countExceeded MAX_DELETE_COUNT).intoResponse
          else do
            let r ← Eff.outcome (Db.deleteN col n.toNat orderAsc)
            return deleteResponse r .failedToDelete
        | none, some (.str k), _ => deleteByKeys col [k] .failedToDeleteKey
        | none, some (.arr arr), _ =>
          deleteByKeys col (arr.filterMap Json.asStr) .failedToDeleteBatch
        | none, _, _ => return DeleteError.missingFields.intoResponse

end MoltenDB
