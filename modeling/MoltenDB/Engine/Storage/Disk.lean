/-
  Compaction on disk: writing a snapshot of the in-memory maps and replacing the log.

  Every operation on a file takes effect as a whole or fails.  A run records the
  operations that succeeded, each with the files after it (`Fs.trace`): where the
  process stops, the files are those of the last one.
-/
import MoltenDB.Engine.Types
import MoltenDB.Engine.Storage.Snapshot

namespace MoltenDB

open Wire Prog LogCommand

/-- The files of a database.  A snapshot in the backup directory is not read again. -/
structure Disk where
  log : Option Bytes
  logTmp : Option Bytes
  snapshot : Option Bytes
  snapshotTmp : Option Bytes

/-- An operation on the files, or on what guards them. -/
inductive FileOp
  | openSnapshotTmp
  | writeSnapshotTmp
  | finishSnapshotTmp
  | createBackupDir
  | backupSnapshot
  | installSnapshot
  | writeLogTmp
  | lockWriter
  | sendCompact
  | flushLog
  | installLog
  | removeLogTmp
  | reopenLog
  deriving DecidableEq

structure Fs where
  disk : Disk
  world : World
  tick : ℕ
  /-- The operations that succeeded, in order, each with the files after it. -/
  trace : List (FileOp × Disk)

/-- A program on the files. -/
abbrev Io (α : Type) := Eff DbError Fs α

/-- An operation that changes the files by `f`, or fails. -/
def fileOp (op : FileOp) (f : Disk → Disk) : Io Unit := fun fs =>
  match fs.world.fault fs.tick with
  | some err => (.error err, { fs with tick := fs.tick + 1 })
  | none =>
    (.ok (), { fs with
      disk := f fs.disk, tick := fs.tick + 1, trace := fs.trace ++ [(op, f fs.disk)] })

/-- The bindings of a hash map in the order of a walk over it. -/
def walkMap {α : Type} (m : DashMap α) : Io (List (String × α)) := fun fs =>
  (.ok (m.inOrder (fs.world.order fs.tick m.keys)), { fs with tick := fs.tick + 1 })

/-! ## Writing a snapshot -/

/-- `open_snapshot_gz`. -/
def openSnapshotGz (count seq : ℕ) : Io Unit :=
  fileOp .openSnapshotTmp fun d => { d with snapshotTmp := some (snapshotHeader seq count) }

/-- `write_entry_to_gz`: the entries given to the encoder so far, and one more. -/
def writeEntryToGz (es : List LogEntry) (cmd collection key : String) (value : Json) :
    Io (List LogEntry) := do
  fileOp .writeSnapshotTmp id
  return es ++ [⟨cmd, collection, key, value, 0⟩]

/-- The documents of one collection; those that do not decode are left out. -/
def writeDocs (collection : String) : List (String × Bytes) → List LogEntry → Io (List LogEntry)
  | [], es => return es
  | (key, bytes) :: docs, es => do
    match msgpackToValue bytes with
    | some value => do
      let es ← writeEntryToGz es IKEY_INSERT collection key value
      writeDocs collection docs es
    | none => writeDocs collection docs es

def writeCollections : List (String × DashMap Bytes) → List LogEntry → Io (List LogEntry)
  | [], es => return es
  | (collection, col) :: cols, es => do
    let docs ← walkMap col
    let es ← writeDocs collection docs es
    writeCollections cols es

def writeSchemas : List (String × Schema) → List LogEntry → Io (List LogEntry)
  | [], es => return es
  | (collection, schema) :: schemas, es => do
    let es ← writeEntryToGz es SCHEMA collection "" schema.value
    writeSchemas schemas es

/-- The number of entries that the header of a snapshot announces. -/
def entryCount (state : State) (schemas : DashMap Schema) : ℕ :=
  (state.toList.map fun p => p.2.size).sum + schemas.size

variable [Crates]

/-- `finish_snapshot_gz`: finish the new snapshot, move the old one to the backup directory
    and the new one into its place.  That the old one cannot be moved is ignored. -/
def finishSnapshotGz (seq count : ℕ) (es : List LogEntry) : Io Unit := do
  fileOp .finishSnapshotTmp fun d => { d with snapshotTmp := some (snapshotFile seq count es) }
  let fs ← Eff.get
  if fs.disk.snapshot.isSome then do
    fileOp .createBackupDir id
    let _ ← Eff.outcome (fileOp .backupSnapshot fun d => { d with snapshot := none })
  fileOp .installSnapshot fun d => { d with snapshot := d.snapshotTmp, snapshotTmp := none }

/-- `write_snapshot_from_maps`. -/
def writeSnapshotFromMaps (state : State) (schemas : DashMap Schema) (seq : ℕ) : Io Unit := do
  let count := entryCount state schemas
  openSnapshotGz count seq
  let cols ← walkMap state
  let es ← writeCollections cols []
  let schemaRefs ← walkMap schemas
  let es ← writeSchemas schemaRefs es
  finishSnapshotGz seq count es

/-! ## Replacing the log -/

/-- `write_compacted_log_no_tx` with no entries. -/
def writeCompactedLog : Io Unit := fileOp .writeLogTmp fun d => { d with logTmp := some [] }

/-- Rename the temporary log over the log; if that fails, remove it. -/
def renameLog : Io (Except DbError Unit) := do
  let res ← Eff.outcome (fileOp .installLog fun d => { d with log := d.logTmp, logTmp := none })
  match res with
  | .ok () => return .ok ()
  | .error err => do
    let _ ← Eff.outcome (fileOp .removeLogTmp fun d => { d with logTmp := none })
    return .error err

/-- How log entries are written. -/
inductive Mode
  | sync
  /-- By a task behind a channel; the channel is closed at shutdown. -/
  | async (sender : Bool)

/-- `swap_log`.  The writer task of the async storage logs its errors only; it is not
    modelled that it fails to reopen the log, which leaves the caller waiting. -/
def swapLog (mode : Mode) : Io Unit := do
  writeCompactedLog
  match mode with
  | .sync => do
    fileOp .lockWriter id
    let res ← renameLog
    match res with
    | .error err => Eff.throw err
    | .ok () => fileOp .reopenLog id
  | .async true => do
    fileOp .sendCompact id
    let _ ← Eff.outcome (fileOp .flushLog id)
    let _ ← renameLog
    return ()
  | .async false =>
    fileOp .installLog fun d => { d with log := d.logTmp, logTmp := none }

/-- `compact_from_maps`: a failure to write the snapshot is only logged. -/
def compactFromMaps (mode : Mode) (state : State) (schemas : DashMap Schema) : Io Unit := do
  let _ ← Eff.outcome (writeSnapshotFromMaps state schemas 0)
  swapLog mode

/-- The entries that the next start reads. -/
def Disk.entries (d : Disk) : List LogEntry := streamLogInto d.snapshot d.log

/-- What the next start, at time `now`, rebuilds. -/
def Disk.rebuilt (d : Disk) (now : UInt64) : Recovered := rebuild now d.entries

end MoltenDB
