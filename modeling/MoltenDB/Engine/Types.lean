/-
  The database handle, what the world around it answers, and the primitive steps
  of its operations.

  The world (`World`) is asked in ticks: each reading of the clock, each fresh
  identifier, each write to storage and each walk over a hash map takes the next
  tick, and any answers may come.
-/
import MoltenDB.Lib.Eff
import MoltenDB.Lib.Maps
import MoltenDB.Common.LogEntry

namespace MoltenDB

open Wire Prog

inductive DbError
  | io (err : String)
  | serialization (err : String)
  | lockPoisoned
  | writeError
  | invalidQuery (msg : String)
  | typeMismatch (msg : String)
  | collectionNotFound
  | conflict
  | storageFault (msg : String)
  | schemaValidationError (msg : String)
  deriving DecidableEq

/-- A concurrent hash map: its bindings come in an arbitrary order. -/
abbrev DashMap (α : Type) := Map String α

/-- The order in which a hash map is walked. -/
structure Walk where
  order : List String → List String
  perm : ∀ ks, (order ks).Perm ks

def Walk.plain : Walk := ⟨id, fun _ => .refl _⟩

/-- What the world answers at each tick. -/
structure World where
  /-- The clock, in Unix milliseconds. -/
  clock : ℕ → UInt64
  uuid : ℕ → String
  /-- The failure of a write to storage, if it fails. -/
  fault : ℕ → Option DbError
  /-- The order in which a hash map with the given keys is walked. -/
  order : ℕ → List String → List String
  order_perm : ∀ n ks, (order n ks).Perm ks

/-- A world whose clock counts from `start` and in which only the writes at the ticks
    `faults` fail. -/
def World.plain (start : UInt64) (faults : List ℕ) : World where
  clock n := start + UInt64.ofNat n
  uuid n := "tx" ++ toString n
  fault n := if n ∈ faults then some .writeError else none
  order _ ks := ks
  order_perm _ _ := .refl _

/-- A registered schema with its compiled validator. -/
structure Schema where
  value : Json
  isValid : Json → Bool

/-- The documents of all collections, as MessagePack bytes. -/
abbrev State := DashMap (DashMap Bytes)

/-- The database handle: the shared state, and the entries given to the storage. -/
structure Db where
  state : State
  schemas : DashMap Schema
  ttlDefaults : DashMap UInt64
  ttlExpiry : DashMap UInt64
  seqCounters : DashMap UInt64
  seqIndex : DashMap (Map UInt64 String)
  maxSizes : DashMap ℕ
  ioFault : Bool
  /-- The entries written to storage, in order. -/
  log : List LogEntry
  /-- The number of writes to storage that failed. -/
  failedWrites : ℕ
  /-- The events sent to subscribers, in order. -/
  events : List Json
  world : World
  tick : ℕ

/-- An operation of the engine. -/
abbrev Op (α : Type) := Eff DbError Db α

/-- A handle with nothing in it. -/
def Db.blank (world : World) (tick : ℕ) : Db :=
  ⟨∅, ∅, ∅, ∅, ∅, ∅, ∅, false, [], 0, [], world, tick⟩

/-! ## Primitive steps -/

/-- The current time in Unix milliseconds. -/
def nowMs : Op UInt64 := fun db => (.ok (db.world.clock db.tick), { db with tick := db.tick + 1 })

def newUuid : Op String := fun db => (.ok (db.world.uuid db.tick), { db with tick := db.tick + 1 })

/-- `StorageBackend::write_entry`: append one entry, or fail. -/
def writeEntry (entry : LogEntry) : Op Unit := fun db =>
  match db.world.fault db.tick with
  | some err => (.error err, { db with failedWrites := db.failedWrites + 1, tick := db.tick + 1 })
  | none => (.ok (), { db with log := db.log ++ [entry], tick := db.tick + 1 })

/-- Write a `LogEntry::new`, stamped with the current time. -/
def writeNew (cmd collection key : String) (value : Json) : Op Unit := do
  let t ← nowMs
  writeEntry ⟨cmd, collection, key, value, t⟩

/-- Send an event to the subscribers; there need not be any. -/
def send (event : Json) : Op Unit :=
  Eff.modify fun db => { db with events := db.events ++ [event] }

/-- The bindings of a hash map in the order of a walk over it. -/
def walk {α : Type} (m : DashMap α) : Op (List (String × α)) := fun db =>
  (.ok (m.inOrder (db.world.order db.tick m.keys)), { db with tick := db.tick + 1 })

/-- A JSON object literal. -/
def json (fields : List (String × Json)) : Json := .obj (Fields.insertAll fields [])

theorem get_json (fs : List (String × Json)) (k : String) : (json fs).get k = fs.reverse.lookup k := by
  simp [json, Json.get, Json.asObject, Fields.lookup_insertAll]

/-- The documents of a collection, if it exists. -/
def Db.col (db : Db) (collection : String) : Option (DashMap Bytes) := db.state[collection]?

/-- The bytes of one document. -/
def Db.bytes (db : Db) (collection key : String) : Option Bytes :=
  db.state[collection]?.bind fun col => col[key]?

end MoltenDB
