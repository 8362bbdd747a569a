/-
  The write operations of the engine on the in-memory state, the sequence index
  and the log.
-/
import MoltenDB.Engine.Types
import MoltenDB.Common.TokenReader

namespace MoltenDB.Operations

open Wire Prog SystemFields LogCommand

/-- `validate_document`: a document of a collection with a schema must conform to it. -/
def validateDocument (collection : String) (document : Json) : Op Unit := do
  let db ← Eff.get
  match db.schemas[collection]? with
  | some schema =>
    if schema.isValid document then pure ()
    else Eff.throw (.schemaValidationError "Document does not conform to schema")
  | none => pure ()

/-- Store the bytes of a document; `entry(collection).or_default()`. -/
def storeDoc (collection key : String) (bytes : Bytes) : Op Unit :=
  Eff.modify fun db =>
    { db with state := db.state.alter collection fun col => some ((col.getD ∅).insert key bytes) }

/-- Remove a document from a collection that exists. -/
def removeDoc (collection key : String) : Op Unit :=
  Eff.modify fun db =>
    { db with state := db.state.alter collection fun col => col.map fun col => col.erase key }

/-- The next sequence number of a collection. -/
def nextSeq (collection : String) : Op UInt64 := do
  let db ← Eff.get
  let seq := db.seqCounters[collection]?.getD 0
  Eff.modify fun db => { db with seqCounters := db.seqCounters.insert collection (seq + 1) }
  return seq

def indexInsert (collection : String) (seq : UInt64) (key : String) : Op Unit :=
  Eff.modify fun db =>
    { db with
      seqIndex := db.seqIndex.alter collection fun idx => some ((idx.getD ∅).insert seq key) }

def indexRemove (collection : String) (seq : UInt64) : Op Unit :=
  Eff.modify fun db =>
    { db with seqIndex := db.seqIndex.alter collection fun idx => idx.map fun idx => idx.erase seq }

/-- An unsigned integer field of a document. -/
def fieldU64 (doc : Json) (name : String) : Option UInt64 := (doc.get name).bind Json.asU64

/-! ## Insert -/

/-- The system fields of a document that replaces `existing`. -/
def stampOverwrite (existing value : Json) (nowMs seq : UInt64) : Json :=
  let existingV := (fieldU64 existing IKEY_VERSION).getD 0
  let origCreated := (fieldU64 existing IKEY_CREATED_AT).getD nowMs
  let origSeq := (fieldU64 existing IKEY_SEQ).getD seq
  (((value.set IKEY_VERSION (.ofU64 (existingV + 1))).set IKEY_CREATED_AT (.ofU64 origCreated)).set
    IKEY_MODIFIED_AT (.ofU64 nowMs)).set IKEY_SEQ (.ofU64 origSeq)

/-- The system fields of a new document. -/
def stampNew (value : Json) (nowMs seq : UInt64) : Json :=
  (((value.set IKEY_VERSION (.ofU64 1)).set IKEY_CREATED_AT (.ofU64 nowMs)).set
    IKEY_MODIFIED_AT (.ofU64 nowMs)).set IKEY_SEQ (.ofU64 seq)

/-- The change event of an inserted document. -/
def insertEvent (collection key : String) (value : Json) : Json :=
  let event := json [("event", .str "change"), ("collection", .str collection), ("key", .str key),
    ("new_v", .ofU64 ((fieldU64 value IKEY_VERSION).getD 0))]
  match fieldU64 value IKEY_EXPIRES_AT with
  | some exp => event.set "expires_at_ms" (.ofU64 exp)
  | none => event

/-- Stamp a document and check it; only objects are stamped, and a new document
    that is not an object is not checked. -/
def prepare (collection : String) (existing : Option Json) (value : Json) (nowMs seq : UInt64) :
    Op Json :=
  match existing with
  | some existing => do
    let value := stampOverwrite existing value nowMs seq
    validateDocument collection value
    return value
  | none =>
    if value.isObject then do
      let value := stampNew value nowMs seq
      validateDocument collection value
      return value
    else return value

variable [Crates]

def insertItem (collection : String) (item : String × Json) : Op Unit := do
  let now ← nowMs
  let seq ← nextSeq collection
  let db ← Eff.get
  let existing := (db.bytes collection item.1).bind msgpackToValue
  let value ← prepare collection existing item.2 now seq
  storeDoc collection item.1 (valueToMsgpack value)
  indexInsert collection ((fieldU64 value IKEY_SEQ).getD seq) item.1
  writeNew IKEY_INSERT collection item.1 value
  send (insertEvent collection item.1 value)

/-- `operations::insert`: insert or overwrite the documents of a batch. -/
def insert (collection : String) (items : List (String × Json)) : Op Unit := do
  Eff.modify fun db =>
    { db with state := db.state.alter collection fun col => some (col.getD ∅) }
  let txId ← newUuid
  writeNew IKEY_TX_BEGIN collection txId .null
  Eff.forEach (insertItem collection) items
  writeNew IKEY_TX_COMMIT collection txId .null

/-! ## Update -/

/-- Merge the fields of an update into a document; `_v` and `_createdAt` are skipped. -/
def mergeFields (doc : List (String × Json)) (updates : List (String × Json)) :
    List (String × Json) :=
  Fields.insertAll (updates.filter fun p => !(p.1 == VERSION || p.1 == CREATED_AT)) doc

/-- A `_v` field in an update is a guard: it must be the stored version. -/
def checkGuard (doc updates : Json) : Op Unit :=
  match fieldU64 updates VERSION with
  | some guardV =>
    if guardV ≠ (fieldU64 doc IKEY_VERSION).getD 0 then Eff.throw .conflict else pure ()
  | none => pure ()

/-- Merge an update into a document, bump its version and stamp the time; a document
    that is not an object stays. -/
def mergeInto (doc : Json) (updateObj : List (String × Json)) : Op Json :=
  match doc with
  | .obj docObj => do
    let now ← nowMs
    return ((Json.obj (mergeFields docObj updateObj)).set VERSION
      (.ofU64 ((fieldU64 doc IKEY_VERSION).getD 0 + 1))).set MODIFIED_AT (.ofU64 now)
  | doc => return doc

/-- The document after an update. -/
def mergeUpdate (doc updates : Json) : Op Json :=
  match updates with
  | .obj updateObj => do
    checkGuard doc updates
    mergeInto doc updateObj
  | _ => return doc

/-- Check, store and log an updated document, and end the transaction. -/
def storeUpdate (collection key txId : String) (newValue : Json) : Op Unit := do
  validateDocument collection newValue
  storeDoc collection key (valueToMsgpack newValue)
  writeNew IKEY_INSERT collection key newValue
  writeNew IKEY_TX_COMMIT collection txId .null
  send (json [("event", .str "change"), ("collection", .str collection), ("key", .str key),
    ("new_v", .ofU64 ((fieldU64 newValue VERSION).getD 0))])

/-- `operations::update`: patch one document, if it exists. -/
def update (collection key : String) (updates : Json) : Op Bool := do
  let txId ← newUuid
  writeNew IKEY_TX_BEGIN collection txId .null
  let db ← Eff.get
  match (db.bytes collection key).bind msgpackToValue with
  | some doc => do
    let newValue ← mergeUpdate doc updates
    storeUpdate collection key txId newValue
    return true
  | none => do
    writeNew IKEY_TX_COMMIT collection txId .null
    return false

/-! ## Delete -/

def deleteItem (collection key : String) : Op Unit := do
  let db ← Eff.get
  match db.bytes collection key with
  | some bytes => indexRemove collection (readMsgpackSeqToken bytes)
  | none => pure ()
  removeDoc collection key
  writeNew IKEY_DELETE collection key .null
  send (json [("event", .str "change"), ("collection", .str collection), ("key", .str key),
    ("new_v", .null)])

/-- `operations::delete`: delete documents by key. -/
def delete (collection : String) (keys : List String) : Op Unit := do
  let txId ← newUuid
  writeNew IKEY_TX_BEGIN collection txId .null
  let db ← Eff.get
  if (db.col collection).isSome then Eff.forEach (deleteItem collection) keys
  writeNew IKEY_TX_COMMIT collection txId .null

/-- Sort pairs by sequence number, lowest first or highest first. -/
def sortBySeq {α : Type} (asc : Bool) (pairs : List (UInt64 × α)) : List (UInt64 × α) :=
  if asc then pairs.insertionSort fun a b => a.1 ≤ b.1
  else pairs.insertionSort fun a b => b.1 ≤ a.1

/-- At most `limit` of the keys. -/
def truncate (limit : Option ℕ) (keys : List String) : List String :=
  match limit with
  | some limit => keys.take limit
  | none => keys

/-- Delete the documents with the given keys and count the keys. -/
def deleteKeys (collection : String) (keys : List String) : Op ℕ := do
  if keys.length = 0 then return 0
  else do
    delete collection keys
    return keys.length

/-- `operations::delete_filtered`: delete the matching documents, at most `countLimit`. -/
def deleteFiltered (collection : String) (predicate : String → Bytes → Bool)
    (countLimit : Option ℕ) (defaultOrderAsc : Bool) : Op ℕ := do
  let db ← Eff.get
  match db.col collection with
  | none => return 0
  | some col => do
    let entries ← walk col
    let pairs := (entries.filter fun e => predicate e.1 e.2).map fun e =>
      (readMsgpackSeqToken e.2, e.1)
    deleteKeys collection (truncate countLimit ((sortBySeq defaultOrderAsc pairs).map Prod.snd))

/-- The keys of the first or last `n` documents: from the sequence index, or by a scan
    if there is none. -/
def endKeys (collection : String) (col : DashMap Bytes) (n : ℕ) (orderAsc : Bool) :
    Op (List String) := do
  let db ← Eff.get
  match db.seqIndex[collection]? with
  | some idx =>
    return (((if orderAsc then idx.toList else idx.toList.reverse).take n).map Prod.snd)
  | none => do
    let entries ← walk col
    let pairs := entries.map fun e => (readMsgpackSeqToken e.2, e.1)
    return (((sortBySeq orderAsc pairs).take n).map Prod.snd)

/-- `operations::delete_n`: delete the `n` oldest or newest documents. -/
def deleteN (collection : String) (n : ℕ) (orderAsc : Bool) : Op ℕ := do
  if n = 0 then return 0
  else do
    let db ← Eff.get
    match db.col collection with
    | none => return 0
    | some col => do
      let keys ← endKeys collection col n orderAsc
      deleteKeys collection keys

/-- `operations::evict_oldest`: delete the `n` oldest documents; errors are ignored. -/
def evictOldest (collection : String) (n : ℕ) : Op Unit := do
  let db ← Eff.get
  match db.col collection with
  | none => return ()
  | some col => do
    let entries ← walk col
    let pairs := entries.filterMap fun e => (msgpackToValue e.2).map fun v =>
      ((fieldU64 v IKEY_SEQ).getD (UInt64.ofNat (2 ^ 64 - 1)), e.1)
    let keys := ((sortBySeq true pairs).take n).map Prod.snd
    if keys = [] then return ()
    else do
      let _ ← Eff.outcome (delete collection keys)

/-- `operations::delete_collection`: drop a collection. -/
def deleteCollection (collection : String) : Op Unit := do
  let txId ← newUuid
  writeNew IKEY_TX_BEGIN collection txId .null
  Eff.modify fun db =>
    { db with state := db.state.erase collection, seqIndex := db.seqIndex.erase collection }
  writeNew IKEY_DROP collection "*" .null
  writeNew IKEY_TX_COMMIT collection txId .null
  send (json [("event", .str "change"), ("collection", .str collection), ("key", .str "*"),
    ("new_v", .null)])

/-! ## Schemas -/

/-- `schema::set_schema`: log and register a schema. -/
def setSchema (collection : String) (schema : Json) : Op Unit := do
  match Crates.validatorFor schema with
  | .error err => Eff.throw (.schemaValidationError ("Invalid schema: " ++ err))
  | .ok validator => do
    let txId ← newUuid
    writeNew IKEY_TX_BEGIN collection txId .null
    writeNew SCHEMA collection "" schema
    writeNew IKEY_TX_COMMIT collection txId .null
    Eff.modify fun db => { db with schemas := db.schemas.insert collection ⟨schema, validator⟩ }
    send (json [("event", .str "SCHEMA_SET"), ("collection", .str collection), ("schema", schema)])

end MoltenDB.Operations
