/-
  The protected endpoints that read and write collections.

  A handler gets the claims of the token that the middleware has accepted.
-/
import MoltenDB.Auth.Scopes
import MoltenDB.Handlers.Get
import MoltenDB.Handlers.Writes

namespace MoltenDB

open Prog

def ACTION_READ : String := "read"

def ACTION_WRITE : String := "write"

def ACTION_DELETE : String := "delete"

/-- The refusal of a request. -/
def forbidden (text : String) : Response := (403, json [("error", .str ("Forbidden: " ++ text))])

/-- The refusal for want of a scope of the whole collection. -/
def requiresScope (action collection : String) : Response :=
  forbidden ("token requires '" ++ action ++ ":" ++ collection ++ ":*' scope")

/-- `payload[key] = value`; `none` if that panics. -/
def assign (payload : Json) (key : String) (value : Json) : Option Json :=
  match payload with
  | .obj fs => some (.obj (Fields.insert key value fs))
  | .null => some (.obj [(key, value)])
  | _ => none

variable [Crates] [Lowercase] [FloatText]

/-- Run a handler if the token has a scope for an action on the collection of the payload. -/
def withScope (claims : Claims) (action : String) (payload : Json) (handle : Op Response) :
    Op Response :=
  let collection := (namedCollection payload).getD ""
  if claims.hasCollectionAccess action collection then handle
  else return requiresScope action collection

def handleSet (claims : Claims) (payload : Json) (maxBodySize maxKeysPerRequest : ℕ) : Op Response :=
  withScope claims ACTION_WRITE payload (processSet payload maxBodySize maxKeysPerRequest)

def handleUpdate (claims : Claims) (payload : Json) (maxBodySize maxKeysPerRequest : ℕ) :
    Op Response :=
  withScope claims ACTION_WRITE payload (processUpdate payload maxBodySize maxKeysPerRequest)

def handleDelete (claims : Claims) (payload : Json) (maxBodySize maxKeysPerRequest : ℕ) :
    Op Response :=
  withScope claims ACTION_DELETE payload (processDelete payload maxBodySize maxKeysPerRequest)

/-- `handle_schema`, which does not take the claims. -/
def handleSchema (payload : Json) (maxBodySize maxKeysPerRequest : ℕ) : Op Response :=
  processSchema payload maxBodySize maxKeysPerRequest

/-- The keys in a request. -/
def requestedKeys (keys : Json) : List String :=
  match keys with
  | .str s => [s]
  | .arr arr => arr.filterMap Json.asStr
  | _ => []

/-- The payload of a query, cut down to the documents the token may read. -/
def scopedPayload (claims : Claims) (collection : String) (payload : Json) : Option Json :=
  if claims.hasPrefixWildcard ACTION_READ collection then
    let prefixes := claims.extractPrefixes ACTION_READ collection
    let stripped := match payload with
      | .obj fs => .obj (Fields.erase "_allowed_prefixes" fs)
      | payload => payload
    if prefixes = [] then some stripped
    else assign stripped "_allowed_prefixes" (.arr (prefixes.map .str))
  else assign payload "keys" (.arr ((claims.allowedKeys ACTION_READ collection).map .str))

/-- `handle_get`; `none` if it panics. -/
def handleGet (claims : Claims) (payload : Json) (maxBodySize maxKeysPerRequest : ℕ) :
    Op (Option Response) :=
  let collection := (namedCollection payload).getD ""
  let run payload := some <$> processGet payload maxBodySize maxKeysPerRequest
  if claims.hasCollectionAccess ACTION_READ collection then run payload
  else if claims.allowedKeys ACTION_READ collection = [] then
    return some (forbidden ("token has no read access to collection '" ++ collection ++ "'"))
  else
    match payload.field .keys with
    | some keys =>
      match (requestedKeys keys).find? fun k => !claims.hasAccess ACTION_READ collection k with
      | some k =>
        return some (forbidden ("token lacks 'read:" ++ collection ++ ":" ++ k ++ "' scope"))
      | none => run payload
    | none =>
      match scopedPayload claims collection payload with
      | some restricted => run restricted
      | none => return none

/-- `handle_snapshot`, where `compact` writes the snapshot. -/
def handleSnapshot (claims : Claims) (compact : Op Unit) : Op Response :=
  if !claims.isAdmin then return forbidden "snapshot requires admin scope"
  else do
    match ← Eff.outcome compact with
    | .ok _ =>
      return (200, json [("status", .str "ok"), ("message", .str "Snapshot taken successfully")])
    | .error e => return errorResponse 500 ("Failed to take snapshot: " ++ e.display)

inductive Endpoint
  | set
  | update
  | delete
  | schema
  | get
  | snapshot

/-- A request to an endpoint; `none` if its handler panics. -/
def handle (compact : Op Unit) (claims : Claims) (endpoint : Endpoint) (payload : Json)
    (maxBodySize maxKeysPerRequest : ℕ) : Op (Option Response) :=
  match endpoint with
  | .set => some <$> handleSet claims payload maxBodySize maxKeysPerRequest
  | .update => some <$> handleUpdate claims payload maxBodySize maxKeysPerRequest
  | .delete => some <$> handleDelete claims payload maxBodySize maxKeysPerRequest
  | .schema => some <$> handleSchema payload maxBodySize maxKeysPerRequest
  | .get => handleGet claims payload maxBodySize maxKeysPerRequest
  | .snapshot => some <$> handleSnapshot claims compact

end MoltenDB
