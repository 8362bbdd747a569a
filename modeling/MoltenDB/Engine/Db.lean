/-
  The methods of the database handle, and opening a database.
-/
import MoltenDB.Engine.Operations
import MoltenDB.Engine.Storage.Replay

namespace MoltenDB

open Wire Prog

/-- In read-only mode writes are refused. -/
def checkFault : Op Unit := do
  let db ← Eff.get
  if db.ioFault then
    Eff.throw (.storageFault "Background disk I/O failed. System is in read-only mode.")

def collectionIsExpired (expiresAtMs currentTimeMs : UInt64) : Bool := expiresAtMs ≤ currentTimeMs

variable [Crates]

namespace Db

/-- Drop the documents of a collection whose TTL has lapsed; a failure is ignored. -/
def evictExpired (collection : String) : Op Unit := do
  let db ← Eff.get
  match db.ttlExpiry[collection]? with
  | none => return ()
  | some exp => do
    let now ← nowMs
    if collectionIsExpired exp now then
      let _ ← Eff.outcome (Operations.deleteCollection collection)
      Eff.modify fun db => { db with ttlExpiry := db.ttlExpiry.erase collection }

/-- Evict the oldest documents of a collection above its `maxSize`. -/
def evictOverflow (collection : String) : Op Unit := do
  let db ← Eff.get
  match db.maxSizes[collection]? with
  | none => return ()
  | some max =>
    let current := ((db.col collection).map fun m => m.size).getD 0
    if max < current then Operations.evictOldest collection (current - max)

/-- Restart the TTL clock of a collection; a failure to log the expiry is ignored. -/
def resetExpiry (collection : String) : Op Unit := do
  let db ← Eff.get
  match db.ttlDefaults[collection]? with
  | none => return ()
  | some secs => do
    let now ← nowMs
    let expiresAt := now + secs * 1000
    Eff.modify fun db => { db with ttlExpiry := db.ttlExpiry.insert collection expiresAt }
    let _ ← Eff.outcome
      (writeNew "TTL_EXPIRY" collection (Decimal.print expiresAt.toNat) .null)
    send (json [("event", .str "ttl_expiry"), ("collection", .str collection),
      ("expires_at_ms", .ofU64 expiresAt)])

/-- `Db::insert`. -/
def insert (collection : String) (items : List (String × Json)) : Op Unit := do
  checkFault
  evictExpired collection
  Operations.insert collection items
  evictOverflow collection
  resetExpiry collection

def update (collection key : String) (updates : Json) : Op Bool := do
  checkFault
  Operations.update collection key updates

def deleteFiltered (collection : String) (predicate : String → Bytes → Bool)
    (countLimit : Option ℕ) (defaultOrderAsc : Bool) : Op ℕ := do
  checkFault
  Operations.deleteFiltered collection predicate countLimit defaultOrderAsc

def deleteN (collection : String) (n : ℕ) (orderAsc : Bool) : Op ℕ := do
  checkFault
  Operations.deleteN collection n orderAsc

def delete (collection : String) (keys : List String) : Op Unit := do
  checkFault
  Operations.delete collection keys

/-- `Db::delete_collection`: drop a collection and what the engine keeps about it. -/
def deleteCollection (collection : String) : Op Unit := do
  Operations.deleteCollection collection
  Eff.modify fun db =>
    { db with
      ttlExpiry := db.ttlExpiry.erase collection
      ttlDefaults := db.ttlDefaults.erase collection
      seqCounters := db.seqCounters.erase collection }

def setSchema (collection : String) (schema : Json) : Op Unit :=
  Operations.setSchema collection schema

def setMaxSize (collection : String) (max : ℕ) : Op Unit :=
  Eff.modify fun db => { db with maxSizes := db.maxSizes.insert collection max }

/-- Set a default TTL in seconds; `0` removes the TTL. -/
def setTtlDefault (collection : String) (ttlSecs : UInt64) : Op Unit :=
  Eff.modify fun db =>
    if ttlSecs = 0 then
      { db with
        ttlDefaults := db.ttlDefaults.erase collection
        ttlExpiry := db.ttlExpiry.erase collection }
    else { db with ttlDefaults := db.ttlDefaults.insert collection ttlSecs }

/-- Wipe the documents and schemas. -/
def clearAll : Op Unit := Eff.modify fun db => { db with state := ∅, schemas := ∅ }

/-! ## Opening -/

/-- The sequence index of a collection, built by a walk over its documents. -/
def indexOf (entries : List (String × Bytes)) : Map UInt64 String :=
  entries.foldl (fun idx e => idx.insert (readMsgpackSeqToken e.2) e.1) ∅

/-- The highest sequence number found in a walk over the documents. -/
def maxSeq (entries : List (String × Bytes)) : UInt64 :=
  entries.foldl (fun m e => if m < readMsgpackSeqToken e.2 then readMsgpackSeqToken e.2 else m) 0

/-- Rebuild the sequence index and counter of one collection. -/
def indexCollection (entry : String × DashMap Bytes) : Op Unit := do
  let entries ← walk entry.2
  Eff.modify fun db =>
    { db with
      seqIndex := db.seqIndex.insert entry.1 (indexOf entries)
      seqCounters := db.seqCounters.insert entry.1 (maxSeq entries + 1) }

/-- `Db::open` on the entries that storage delivers: replay them, then index what was
    rebuilt.  The handle goes on writing to the log it was opened on. -/
def openOn (entries : List LogEntry) : Op Unit := do
  let now ← nowMs
  let base := rebuild now entries
  Eff.modify fun db =>
    { blank db.world db.tick with
      log := db.log, failedWrites := db.failedWrites, state := base.state
      schemas := base.schemas, ttlExpiry := base.ttlExpiry }
  let collections ← walk base.state
  Eff.forEach indexCollection collections

end Db

end MoltenDB
