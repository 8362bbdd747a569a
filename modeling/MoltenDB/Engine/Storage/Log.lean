/-
  The log file: entries in MessagePack, framed by their lengths.
-/
import MoltenDB.Engine.Storage.Replay
import MoltenDB.Lib.Frames

namespace MoltenDB

open Wire LogCommand

/-- The bytes that an entry takes in the log file. -/
def LogEntry.framed (entry : LogEntry) : Bytes := frame (logEntryToMsgpack entry)

/-- `SyncDiskStorage::new`: open the log file in append mode, or create it. -/
def openAppend (file : Option Bytes) : Bytes := file.getD []

/-- `SyncDiskStorage::write_entry`: append one entry to the log file. -/
def appendEntry (file : Bytes) (entry : LogEntry) : Bytes := file ++ entry.framed

/-- The bytes that the entries add to the log file. -/
def logBytes (entries : List LogEntry) : Bytes := entries.flatMap LogEntry.framed

/-- `stream_log_entries`: the entries in the log file after the first `skipLines`; a
    record that does not decode is skipped. -/
def streamLogEntries [Crates] (file : Option Bytes) (skipLines : ℕ) : List LogEntry :=
  match file with
  | none => []
  | some buf => ((frames buf).drop skipLines).filterMap logEntryFromMsgpack

/-- The lengths in the entry, and that of the entry, fit their headers. -/
structure LogEntry.Short (e : LogEntry) : Prop where
  fits : e.Fits
  length : (logEntryToMsgpack e).length < 2 ^ 32

instance (e : LogEntry) : Decidable e.Short :=
  decidable_of_iff (e.Fits ∧ (logEntryToMsgpack e).length < 2 ^ 32)
    ⟨fun h => ⟨h.1, h.2⟩, fun h => ⟨h.fits, h.length⟩⟩

/-- An entry is short if its record is: the parts are not longer. -/
theorem LogEntry.short_iff {e : LogEntry} :
    e.Short ↔ (logEntryToMsgpack e).length < 2 ^ 32 := by
  refine ⟨fun h => h.length, fun h => ⟨?_, h⟩⟩
  have hcol := length_le_writeStr e.collection
  have hkey := length_le_writeStr e.key
  simp only [logEntryToMsgpack, List.length_append] at h
  refine ⟨?_, by omega, by omega, Json.fits_of_length (by omega)⟩
  cases ht : token e.cmd with
  | some t => exact length_of_token ht
  | none =>
    have hcmd := length_le_writeStr e.cmd
    simp only [writeCmd, ht] at h
    omega

theorem logBytes_eq (entries : List LogEntry) :
    logBytes entries = (entries.map logEntryToMsgpack).flatMap frame := by
  rw [List.flatMap_map]; rfl

theorem foldl_appendEntry (L : List LogEntry) (file : Bytes) :
    L.foldl appendEntry file = file ++ logBytes L := by
  induction L generalizing file with
  | nil => simp [logBytes]
  | cons e L ih => simp [ih, appendEntry, logBytes]

theorem logBytes_append (L L' : List LogEntry) : logBytes (L ++ L') = logBytes L ++ logBytes L' :=
  List.flatMap_append

theorem length_of_short {L : List LogEntry} (h : ∀ e ∈ L, e.Short) :
    ∀ p ∈ L.map logEntryToMsgpack, p.length < 2 ^ 32 := by
  intro p hp
  obtain ⟨e, he, rfl⟩ := List.mem_map.1 hp
  exact (h e he).length

theorem frames_logBytes {L : List LogEntry} (h : ∀ e ∈ L, e.Short) (rest : Bytes) :
    frames (logBytes L ++ rest) = L.map logEntryToMsgpack ++ frames rest := by
  rw [logBytes_eq, frames_flatMap (length_of_short h)]

theorem decode_encode [Crates] {L : List LogEntry} (h : ∀ e ∈ L, e.Short) :
    (L.map logEntryToMsgpack).filterMap logEntryFromMsgpack = L.map LogEntry.canon := by
  rw [List.filterMap_map, ← List.filterMap_eq_map]
  exact List.filterMap_congr fun e he => logEntryFromMsgpack_logEntryToMsgpack (h e he).fits

/-- **Written entries are read back**, and then what comes after them in the file. -/
theorem streamLogEntries_logBytes [Crates] {L : List LogEntry} (h : ∀ e ∈ L, e.Short)
    (rest : Bytes) :
    streamLogEntries (some (logBytes L ++ rest)) 0 =
      L.map LogEntry.canon ++ streamLogEntries (some rest) 0 := by
  simp only [streamLogEntries, frames_logBytes h, List.drop_zero, List.filterMap_append,
    decode_encode h]

/-- **A written log is read back.** -/
theorem streamLogEntries_whole [Crates] {L : List LogEntry} (h : ∀ e ∈ L, e.Short) :
    streamLogEntries (some (logBytes L)) 0 = L.map LogEntry.canon := by
  have hread := streamLogEntries_logBytes h []
  rwa [List.append_nil, show streamLogEntries (some []) 0 = [] from rfl, List.append_nil] at hread

/-- The values of the entries that are read can be encoded. -/
theorem streamLogEntries_fits [Crates] {file : Option Bytes} {skipLines : ℕ} {e : LogEntry}
    (h : e ∈ streamLogEntries file skipLines) : e.value.Fits := by
  cases file with
  | none => simp [streamLogEntries] at h
  | some buf =>
    obtain ⟨p, -, hp⟩ := List.mem_filterMap.1 h
    exact (logEntryFromMsgpack_fits hp).1

/-! ## Transactions -/

/-- A transaction as a write operation logs it: entries between its two markers. -/
structure Transaction where
  opening : LogEntry
  ops : List LogEntry
  commit : LogEntry
  opening_cmd : opening.cmd = IKEY_TX_BEGIN
  commit_cmd : commit.cmd = IKEY_TX_COMMIT
  commit_key : commit.key = opening.key
  ops_cmd : ∀ e ∈ ops, canon e.cmd ≠ IKEY_TX_BEGIN ∧ canon e.cmd ≠ IKEY_TX_COMMIT

namespace Transaction

/-- The identifier of a transaction. -/
def id (w : Transaction) : String := w.opening.key

def entries (w : Transaction) : List LogEntry := w.opening :: (w.ops ++ [w.commit])

theorem toRec_opening (w : Transaction) : w.opening.canon.toRec = .opening w.id := by
  simp [LogEntry.toRec, LogEntry.canon, w.opening_cmd, show canon IKEY_TX_BEGIN = IKEY_TX_BEGIN by
    decide, id]

theorem toRec_commit (w : Transaction) : w.commit.canon.toRec = .commit w.id := by
  simp [LogEntry.toRec, LogEntry.canon, w.commit_cmd, w.commit_key,
    show canon IKEY_TX_COMMIT = IKEY_TX_COMMIT by decide,
    show IKEY_TX_COMMIT ≠ IKEY_TX_BEGIN by decide, id]

theorem toRec_op (w : Transaction) {e : LogEntry} (h : e ∈ w.ops) : e.canon.toRec = .op e.canon := by
  obtain ⟨h1, h2⟩ := w.ops_cmd e h
  simp [LogEntry.toRec, LogEntry.canon, h1, h2]

/-- Read back, the entries of a transaction are one transaction of a journal. -/
theorem toRec_entries (w : Transaction) :
    (w.entries.map LogEntry.canon).map LogEntry.toRec =
      Journal.tx w.id (w.ops.map LogEntry.canon) := by
  have hops : (w.ops.map LogEntry.canon).map LogEntry.toRec =
      (w.ops.map LogEntry.canon).map .op := by
    refine List.map_congr_left fun e he => ?_
    obtain ⟨e', he', rfl⟩ := List.mem_map.1 he
    exact w.toRec_op he'
  rw [entries, List.map_cons, List.map_cons, List.map_append, List.map_append, hops,
    Journal.tx, w.toRec_opening]
  simp [w.toRec_commit]

end Transaction

/-- The transaction `id` that inserts the document `k` into the collection `c`. -/
def insertTx (id k : String) : Transaction where
  opening := ⟨IKEY_TX_BEGIN, "c", id, .null, 0⟩
  ops := [⟨IKEY_INSERT, "c", k, .obj [], 0⟩]
  commit := ⟨IKEY_TX_COMMIT, "c", id, .null, 0⟩
  opening_cmd := rfl
  commit_cmd := rfl
  commit_key := rfl
  ops_cmd := by
    intro e he
    rw [List.mem_singleton.1 he]
    show canon IKEY_INSERT ≠ IKEY_TX_BEGIN ∧ canon IKEY_INSERT ≠ IKEY_TX_COMMIT
    decide

/-- The effects of whole transactions after any log. -/
theorem effects_append_entries (L : List LogEntry) (ws : List Transaction) :
    effects (L ++ (ws.flatMap Transaction.entries).map LogEntry.canon) =
      effects L ++ (ws.flatMap Transaction.ops).map LogEntry.canon := by
  induction ws generalizing L with
  | nil => simp
  | cons w ws ih =>
    rw [List.flatMap_cons, List.flatMap_cons, List.map_append, List.map_append,
      ← List.append_assoc, ih, ← List.append_assoc]
    congr 1
    rw [effects, List.map_append, w.toRec_entries, Journal.effects_append_tx, effects]

/-- The entries of a whole transaction in a log take effect together. -/
theorem effects_around (A B : List LogEntry) (w : Transaction) :
    ∃ Y, effects (A ++ (w.entries.map LogEntry.canon ++ B)) =
      effects A ++ (w.ops.map LogEntry.canon ++ Y) := by
  rw [effects, effects, List.map_append, List.map_append, w.toRec_entries, Journal.effects,
    Journal.Reader.run_append, Journal.Reader.run_append, Journal.Reader.run_tx,
    Journal.Reader.run_applied]
  exact ⟨_, by rw [List.append_assoc]; rfl⟩

end MoltenDB
