/-
  The revocation store, and the signed file that keeps it over restarts.

  The two clocks of the program are one here: an `Instant` is read as a number of
  nanoseconds since the Unix epoch.
-/
import MoltenDB.Auth.Crates
import MoltenDB.Engine.Types

namespace MoltenDB

open Wire

/-! ## Times -/

def NANOS_PER_SEC : ℕ := 10 ^ 9

/-- A time, in nanoseconds. -/
@[ext] structure Instant where
  nanos : ℕ
  inRange : nanos < 2 ^ 63 * NANOS_PER_SEC
  deriving DecidableEq

namespace Instant

def ofSecs (n : ℕ) (h : n < 2 ^ 63) : Instant := ⟨NANOS_PER_SEC * n, by unfold NANOS_PER_SEC; omega⟩

/-- The whole seconds since the Unix epoch. -/
def secs (t : Instant) : ℕ := t.nanos / NANOS_PER_SEC

def unixSecs (t : Instant) : UInt64 := UInt64.ofNat t.secs

/-- `duration_since` in whole seconds; nothing remains of a time that has passed. -/
def secsUntil (now t : Instant) : ℕ := (t.nanos - now.nanos) / NANOS_PER_SEC

/-- Add seconds; a time out of range is a panic. -/
def addSecs (t : Instant) (secs : UInt64) : Option Instant :=
  if h : t.nanos + NANOS_PER_SEC * secs.toNat < 2 ^ 63 * NANOS_PER_SEC then some ⟨_, h⟩ else none

def OVERFLOW : String := "overflow when adding duration to instant"

theorem secs_lt (t : Instant) : t.secs < 2 ^ 63 := by
  have h := t.inRange
  unfold secs NANOS_PER_SEC at *
  omega

theorem unixSecs_toNat (t : Instant) : t.unixSecs.toNat = t.secs := by
  have h := t.secs_lt
  exact UInt64.toNat_ofNat_of_lt' (show t.secs < 2 ^ 64 by omega)

theorem addSecs_eq_some {t t' : Instant} {secs : UInt64} :
    t.addSecs secs = some t' ↔ t'.nanos = t.nanos + NANOS_PER_SEC * secs.toNat := by
  unfold addSecs
  split_ifs with h
  · simp [Instant.ext_iff, eq_comm]
  · simp only [false_iff]
    intro heq
    exact h (heq ▸ t'.inRange)

end Instant

/-! ## The store -/

/-- The revoked tokens by their identifiers, each with the time at which it may be forgotten. -/
structure RevocationStore where
  revoked : DashMap Instant

namespace RevocationStore

def new : RevocationStore := ⟨∅⟩

def revoke (store : RevocationStore) (jti : String) (pruneAfter : Instant) : RevocationStore :=
  ⟨store.revoked.insert jti pruneAfter⟩

def isRevoked (store : RevocationStore) (jti : String) : Bool := store.revoked[jti]?.isSome

def prune (store : RevocationStore) (now : Instant) : RevocationStore :=
  ⟨store.revoked.filter fun _ pruneAt => now.nanos < pruneAt.nanos⟩

/-! ## Saving -/

/-- The second at which an entry is to be forgotten, as the file has it. -/
def pruneUnix (now pruneAt : Instant) : UInt64 := UInt64.ofNat (now.secs + now.secsUntil pruneAt)

/-- The hash map of the file's entries, walked in the order of `ks`. -/
def entries (store : RevocationStore) (now : Instant) (ks : List String) :
    List (String × UInt64) :=
  (store.revoked.inOrder ks).map fun e => (e.1, pruneUnix now e.2)

/-- A map as it is written, entry by entry. -/
def jsonMap (entries : List (String × UInt64)) : Json := .obj (entries.map fun e => (e.1, .ofU64 e.2))

variable [AuthCrates]

def hmacSign (data : Bytes) : String := Hex.encode (AuthCrates.hmac data)

def hmacVerify (data : Bytes) (expectedHex : String) : Bool :=
  match Hex.decode expectedHex with
  | none => false
  | some expected => AuthCrates.hmac data == expected

/-- The text that `save_to_file` writes when it walks its hash map in the order of `ks`:
    the entries are signed in that order, and the payload has them in the order of keys. -/
def saveToFile (store : RevocationStore) (now : Instant) (ks : List String) : String :=
  let map := store.entries now ks
  let entriesJson := AuthCrates.toString (jsonMap map)
  let sig := hmacSign (utf8 entriesJson)
  AuthCrates.toString
    (json [("entries", json (map.map fun e => (e.1, .ofU64 e.2))), ("sig", .str sig)])

/-! ## Loading -/

/-- What reading a file gives. -/
inductive ReadResult
  | contents (text : String)
  | notFound
  | failed (err : String)

/-- `serde_json::from_value` to a map of strings to 64-bit integers. -/
def asEntries (v : Json) : Option (List (String × UInt64)) := do
  (← v.asObject).mapM fun p => do
    let u ← p.2.asU64
    return (p.1, u)

/-- Put back the entries that are still to be kept. -/
def restore (now : Instant) : List (String × UInt64) → RevocationStore → Except String RevocationStore
  | [], store => .ok store
  | (jti, prune) :: es, store =>
    if prune ≤ now.unixSecs then restore now es store
    else
      match now.addSecs (prune - now.unixSecs) with
      | none => .error Instant.OVERFLOW
      | some pruneAt => restore now es (store.revoke jti pruneAt)

def loadFromFile (path : String) (file : ReadResult) (now : Instant) :
    Except String RevocationStore :=
  match file with
  | .notFound => .ok new
  | .failed e => .error s!"Failed to read revocation store '{path}': {e}"
  | .contents contents =>
    match AuthCrates.fromStr contents with
    | .error e => .error s!"Failed to parse revocation store '{path}': {e}"
    | .ok envelope =>
      match (envelope.get "sig").bind Json.asStr with
      | none =>
        .error (s!"Revocation store '{path}' is missing the 'sig' field — " ++
          "file may have been tampered with or was written by an older version. " ++
          "Delete the file to start fresh, or restore it from a trusted backup.")
      | some sig =>
        match envelope.get "entries" with
        | none => .error s!"Revocation store '{path}' is missing the 'entries' field."
        | some entriesValue =>
          if !hmacVerify (utf8 (AuthCrates.toString entriesValue)) sig then
            .error (s!"Revocation store '{path}' has an invalid HMAC signature — " ++
              "the file may have been tampered with. " ++
              "Delete the file to start fresh, or restore it from a trusted backup.")
          else
            match asEntries entriesValue with
            | none =>
              .error (s!"Failed to deserialize revocation entries from '{path}': " ++
                AuthCrates.notEntries entriesValue)
            | some map => restore now map new

end RevocationStore

end MoltenDB
