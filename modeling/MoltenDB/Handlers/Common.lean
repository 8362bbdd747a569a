/-
  What the request handlers share: the fields of payloads, responses, and the
  validation of payloads.
-/
import MoltenDB.Common.JsonText
import MoltenDB.Engine.Types
import MoltenDB.Query.Values

namespace MoltenDB

open Wire

/-- A field of a payload; `from` and `where` are words of the language. -/
inductive PayloadField
  | allowedPrefixes
  | collection
  | count
  | data
  | drop
  | excludedFields
  | fields
  | source
  | joins
  | keys
  | maxSize
  | offset
  | on
  | order
  | schema
  | sort
  | ttl
  | filter
  deriving DecidableEq

def PayloadField.asStr : PayloadField → String
  | allowedPrefixes => "_allowed_prefixes"
  | collection => "collection"
  | count => "count"
  | data => "data"
  | drop => "drop"
  | excludedFields => "excludedFields"
  | fields => "fields"
  | source => "from"
  | joins => "joins"
  | keys => "keys"
  | maxSize => "maxSize"
  | offset => "offset"
  | on => "on"
  | order => "order"
  | schema => "schema"
  | sort => "sort"
  | ttl => "ttl"
  | filter => "where"

/-- A field of a JSON object, if it is one. -/
def Json.field (v : Json) (f : PayloadField) : Option Json := v.get f.asStr

/-- The collection that a payload names. -/
def namedCollection (payload : Json) : Option String := (payload.field .collection).bind Json.asStr

/-- An HTTP status and a body. -/
abbrev Response := ℕ × Json

/-- `OperationError::into_response`. -/
def errorResponse (code : ℕ) (text : String) : Response :=
  (code, json [("error", .str text), ("statusCode", .ofU64 (UInt64.ofNat code))])

/-- The text of an error of the engine. -/
def DbError.display : DbError → String
  | io err => "Disk I/O Error: " ++ err
  | serialization err => "Data Serialization Error: " ++ err
  | lockPoisoned => "Internal thread lock was poisoned"
  | writeError => "Failed to send data to storage backend"
  | invalidQuery msg => "Invalid Query: " ++ msg
  | typeMismatch msg => "Type Mismatch: " ++ msg
  | collectionNotFound => "Collection Not Found"
  | conflict => "Conflict: Document version is outdated"
  | storageFault msg => "Storage fault — system is in read-only mode: " ++ msg
  | schemaValidationError msg => "Schema Validation Error: " ++ msg

/-! ## Validation -/

inductive ValidationError
  | invalidCollectionName (name : String)
  | invalidKeyName (name : String)
  | invalidFieldName (name : String)
  | collectionNameTooLong
  | keyNameTooLong
  | payloadTooLarge
  | invalidJsonDepth
  | tooManyKeys
  | unknownProperty (name : String)

namespace ValidationError

def display : ValidationError → String
  | invalidCollectionName n =>
    "Invalid collection name: '" ++ n ++ "'. Must be alphanumeric with _, - only (1-64 chars)"
  | invalidKeyName n =>
    "Invalid key name: '" ++ n ++ "'. Must be alphanumeric with _, -, . only (1-256 chars)"
  | invalidFieldName n =>
    "Invalid field name: '" ++ n ++ "'. Must be alphanumeric with _, -, . only (1-128 chars)"
  | collectionNameTooLong => "Collection name too long (max 64 characters)"
  | keyNameTooLong => "Key name too long (max 256 characters)"
  | payloadTooLarge => "Payload too large (max 10MB)"
  | invalidJsonDepth => "JSON nesting too deep (max 32 levels)"
  | tooManyKeys => "Too many keys in single request (max 1000)"
  | unknownProperty n =>
    "Unknown property: '" ++ n ++ "'. Check the API docs for supported properties"

def intoResponse (e : ValidationError) : Response := errorResponse 400 e.display

end ValidationError

/-- The regular expression of names: 1 to `max` letters, digits and characters of `extra`. -/
def isName (extra : List Char) (max : ℕ) (s : String) : Bool :=
  decide (1 ≤ s.length ∧ s.length ≤ max) && s.toList.all fun c => c.isAlphanum || extra.contains c

def validateCollectionName (name : String) : Except ValidationError Unit :=
  let len := (utf8 name).length
  if len = 0 ∨ 64 < len then
    .error (if 64 < len then .collectionNameTooLong else .invalidCollectionName name)
  else if !isName ['_', '-'] 64 name then .error (.invalidCollectionName name)
  else if name ∈ ["admin", "system", "config", "internal", "__proto__"] then
    .error (.invalidCollectionName (name ++ " (reserved name)"))
  else .ok ()

def validateKeyName (key : String) : Except ValidationError Unit :=
  let len := (utf8 key).length
  if len = 0 then .error (.invalidKeyName key)
  else if 256 < len then .error .keyNameTooLong
  else if !isName ['_', '.', '-'] 256 key then .error (.invalidKeyName key)
  else .ok ()

def validateFieldName (field : String) : Except ValidationError Unit :=
  let len := (utf8 field).length
  if len = 0 then .error (.invalidFieldName field)
  else if 128 < len then .error (.invalidFieldName (field ++ " (too long)"))
  else if !isName ['_', '.', '-'] 128 field then .error (.invalidFieldName field)
  else if "" ∈ splitDots field then .error (.invalidFieldName field)
  else .ok ()

mutual
/-- A value is nested in more than `max` arrays and objects, `current` of them around `v`. -/
def tooDeep (max current : ℕ) : Json → Bool
  | .arr xs => decide (max < current) || tooDeepItems max current xs
  | .obj fs => decide (max < current) || tooDeepFields max current fs
  | _ => decide (max < current)

def tooDeepItems (max current : ℕ) : List Json → Bool
  | [] => false
  | x :: xs => tooDeep max (current + 1) x || tooDeepItems max current xs

def tooDeepFields (max current : ℕ) : List (String × Json) → Bool
  | [] => false
  | (_, x) :: fs => tooDeep max (current + 1) x || tooDeepFields max current fs
end

def validateJsonDepth (value : Json) (maxDepth : ℕ) : Except ValidationError Unit :=
  if tooDeep maxDepth 0 value then .error .invalidJsonDepth else .ok ()

/-- How `serde_json` prints a double. -/
class FloatText where
  text : UInt64 → List Char

/-- `Value::to_string`. -/
def Json.toText [FloatText] (v : Json) : String := String.ofList (JsonText.write FloatText.text v)

/-- An instance to evaluate the model with. -/
@[reducible] def FloatText.plain : FloatText := ⟨fun _ => ['0', '.', '5']⟩

variable [FloatText]

def validatePayloadSize (payload : Json) (maxSizeBytes : ℕ) : Except ValidationError Unit :=
  if maxSizeBytes < (utf8 payload.toText).length then .error .payloadTooLarge else .ok ()

def validateKeyCount (count maxKeys : ℕ) : Except ValidationError Unit :=
  if maxKeys < count then .error .tooManyKeys else .ok ()

/-- The first key of an object that is not allowed. -/
def validateAllowedProperties (payload : Json) (allowed : List PayloadField) :
    Except ValidationError Unit :=
  match (payload.asObject.getD []).find? fun p => !(allowed.map PayloadField.asStr).contains p.1 with
  | some p => .error (.unknownProperty p.1)
  | none => .ok ()

/-- Check the strings among some values. -/
def validateStrings (check : String → Except ValidationError Unit) (xs : List Json) :
    Except ValidationError Unit := (xs.filterMap Json.asStr).forM check

def validateKeys (keys : Json) (maxKeysPerRequest : ℕ) : Except ValidationError Unit :=
  match keys with
  | .str key => validateKeyName key
  | .arr arr => do
    validateKeyCount arr.length maxKeysPerRequest
    validateStrings validateKeyName arr
  | _ => .ok ()

def validateData (data : Json) (maxKeysPerRequest : ℕ) : Except ValidationError Unit :=
  match data with
  | .obj map => do
    validateKeyCount map.length maxKeysPerRequest
    map.forM fun p => validateKeyName p.1
  | _ => .ok ()

/-- Run a check on a value that is present. -/
def ifPresent {α : Type} (x : Option α) (check : α → Except ValidationError Unit) :
    Except ValidationError Unit := (x.map check).getD (.ok ())

def validateJoin (inner : Json) : Except ValidationError Unit := do
  ifPresent ((inner.field .source).bind Json.asStr) validateCollectionName
  ifPresent ((inner.field .on).bind Json.asStr) validateFieldName
  ifPresent ((inner.field .fields).bind Json.asArray) (validateStrings validateFieldName)

def validateJoinSpec (spec : Json) : Except ValidationError Unit :=
  (spec.asObject.getD []).forM fun p => do
    validateKeyName p.1
    validateJoin p.2

/-- The field names at the top of a WHERE clause; keys after a `$` are operators. -/
def validateWhere (clause : Json) : Except ValidationError Unit :=
  (clause.asObject.getD []).forM fun p =>
    if p.1.toList.head? = some '$' then .ok () else validateFieldName p.1

/-- `validate_request`. -/
def validateRequest (payload : Json) (maxBodySize maxKeysPerRequest : ℕ) :
    Except ValidationError Unit := do
  validatePayloadSize payload maxBodySize
  validateJsonDepth payload 32
  ifPresent (namedCollection payload) validateCollectionName
  ifPresent (payload.field .keys) fun keys => validateKeys keys maxKeysPerRequest
  ifPresent (payload.field .data) fun data => validateData data maxKeysPerRequest
  ifPresent ((payload.field .fields).bind Json.asArray) (validateStrings validateFieldName)
  ifPresent ((payload.field .joins).bind Json.asArray) fun joins => joins.forM validateJoinSpec
  ifPresent (payload.field .filter) validateWhere

/-- What an accepted request has passed. -/
structure RequestAccepted (payload : Json) (maxBodySize maxKeysPerRequest : ℕ) : Prop where
  size : validatePayloadSize payload maxBodySize = .ok ()
  depth : validateJsonDepth payload 32 = .ok ()
  collection : ifPresent (namedCollection payload) validateCollectionName = .ok ()
  keys : ifPresent (payload.field .keys) (fun keys => validateKeys keys maxKeysPerRequest) = .ok ()
  data : ifPresent (payload.field .data) (fun data => validateData data maxKeysPerRequest) = .ok ()
  joins : ifPresent ((payload.field .joins).bind Json.asArray)
    (fun joins => joins.forM validateJoinSpec) = .ok ()

theorem requestAccepted_of_ok {payload : Json} {maxBodySize maxKeysPerRequest : ℕ}
    (h : validateRequest payload maxBodySize maxKeysPerRequest = .ok ()) :
    RequestAccepted payload maxBodySize maxKeysPerRequest := by
  have hbind : ∀ {m next : Except ValidationError Unit}, (m >>= fun _ => next) = .ok () →
      m = .ok () ∧ next = .ok () := by
    intro m next h
    cases m with
    | error e => cases h
    | ok u => exact ⟨rfl, h⟩
  obtain ⟨hsize, h⟩ := hbind h
  obtain ⟨hdepth, h⟩ := hbind h
  obtain ⟨hcollection, h⟩ := hbind h
  obtain ⟨hkeys, h⟩ := hbind h
  obtain ⟨hdata, h⟩ := hbind h
  obtain ⟨-, h⟩ := hbind h
  obtain ⟨hjoins, -⟩ := hbind h
  exact ⟨hsize, hdepth, hcollection, hkeys, hdata, hjoins⟩

section

variable {payload : Json} {maxBodySize maxKeysPerRequest : ℕ}

omit [FloatText] in
theorem le_of_validateKeyCount {count maxKeys : ℕ} {next : Except ValidationError Unit}
    (h : (validateKeyCount count maxKeys >>= fun _ => next) = .ok ()) : count ≤ maxKeys := by
  unfold validateKeyCount at h
  split_ifs at h with hlt
  · cases h
  · exact not_lt.1 hlt

/-- The keys of an accepted request are counted. -/
theorem RequestAccepted.length_keys (h : RequestAccepted payload maxBodySize maxKeysPerRequest)
    {arr : List Json} (hkeys : payload.field .keys = some (.arr arr)) :
    arr.length ≤ maxKeysPerRequest := by
  have hvalid := h.keys
  rw [hkeys] at hvalid
  exact le_of_validateKeyCount hvalid

/-- So are the documents of a map. -/
theorem RequestAccepted.length_data (h : RequestAccepted payload maxBodySize maxKeysPerRequest)
    {map : List (String × Json)} (hdata : payload.field .data = some (.obj map)) :
    map.length ≤ maxKeysPerRequest := by
  have hvalid := h.data
  rw [hdata] at hvalid
  exact le_of_validateKeyCount hvalid

end

end MoltenDB
