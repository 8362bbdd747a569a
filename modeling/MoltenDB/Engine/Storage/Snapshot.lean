/-
  The snapshot file: a header, and the entries of the in-memory maps, compressed.

  A snapshot that was written whole is read back (`loadSnapshot_snapshotFile`).  One
  that announces fewer entries than it holds is read back only in part.
-/
import MoltenDB.Engine.Storage.Log

namespace MoltenDB

open Wire LogCommand

/-- The header: the format, the log lines to skip, and the number of entries. -/
def snapshotHeader (seq count : ℕ) : Bytes :=
  utf8 "MOLTSNG4" ++ (leBytes 8 seq ++ leBytes 8 count)

variable [Crates]

/-- The contents of a finished snapshot file. -/
def snapshotFile (seq count : ℕ) (entries : List LogEntry) : Bytes :=
  snapshotHeader seq count ++ Crates.gzip (logBytes entries)

/-- The entries delivered by reading `count` entries, and whether all were read: a torn
    entry, one of zeros only or one that does not decode ends the reading. -/
def loadEntries : ℕ → Bytes → List LogEntry × Bool
  | 0, _ => ([], true)
  | count + 1, buf =>
    match readFrame buf with
    | none => ([], false)
    | some (payload, rest) =>
      if 0 < payload.length ∧ payload.all (· == 0) then ([], false)
      else
        match logEntryFromMsgpack payload with
        | none => ([], false)
        | some entry =>
          let (entries, whole) := loadEntries count rest
          (entry :: entries, whole)

/-- `load_snapshot`: the entries delivered, and the log lines to skip if all went well. -/
def loadSnapshot (file : Option Bytes) : List LogEntry × Option ℕ :=
  match file with
  | none => ([], none)
  | some bytes =>
    match takeN 8 bytes with
    | none => ([], none)
    | some (magic, bytes) =>
      if magic ≠ utf8 "MOLTSNG4" then ([], none)
      else
        match takeN 8 bytes with
        | none => ([], none)
        | some (seq, bytes) =>
          match takeN 8 bytes with
          | none => ([], none)
          | some (count, body) =>
            let (entries, whole) := loadEntries (ofLe count) (Crates.gunzip body)
            (entries, if whole then some (ofLe seq) else none)

/-- `stream_log_into`: the entries of the snapshot, then those of the log. -/
def streamLogInto (snapshot log : Option Bytes) : List LogEntry :=
  match loadSnapshot snapshot with
  | (entries, some seq) => entries ++ streamLogEntries log seq
  | (entries, none) => entries ++ streamLogEntries log 0

/-! ## Reading a snapshot back -/

omit [Crates] in
/-- An encoded entry starts with the header of a map, and is not all zeros. -/
theorem not_all_zero (e : LogEntry) :
    ¬ (0 < (logEntryToMsgpack e).length ∧ (logEntryToMsgpack e).all (· == 0)) := by
  rintro ⟨-, h⟩
  have hmem : (0x85 : UInt8) ∈ logEntryToMsgpack e := by
    simp only [logEntryToMsgpack, List.append_assoc]
    exact List.mem_append_left _ (by decide)
  simpa using List.all_eq_true.1 h _ hmem

/-- As many entries as are announced are read, if there are that many. -/
theorem loadEntries_logBytes {es : List LogEntry} (h : ∀ e ∈ es, e.Short) (count : ℕ) :
    loadEntries count (logBytes es) =
      ((es.take count).map LogEntry.canon, decide (count ≤ es.length)) := by
  induction es generalizing count with
  | nil => cases count <;> simp [loadEntries, logBytes, show readFrame [] = none from rfl]
  | cons e es ih =>
    cases count with
    | zero => simp [loadEntries]
    | succ count =>
      have he := h e List.mem_cons_self
      have hread : readFrame (logBytes (e :: es)) = some (logEntryToMsgpack e, logBytes es) := by
        rw [logBytes, List.flatMap_cons, LogEntry.framed, readFrame_frame he.length]
        rfl
      rw [loadEntries, hread]
      dsimp only
      rw [if_neg (not_all_zero e), logEntryFromMsgpack_logEntryToMsgpack he.fits]
      dsimp only
      rw [ih fun e' he' => h e' (List.mem_cons_of_mem _ he')]
      simp

/-- **The announced entries of a snapshot are read back.** -/
theorem loadSnapshot_snapshotFile {es : List LogEntry} (h : ∀ e ∈ es, e.Short) {seq count : ℕ}
    (hseq : seq < 2 ^ 64) (hcount : count < 2 ^ 64) :
    loadSnapshot (some (snapshotFile seq count es)) =
      ((es.take count).map LogEntry.canon, if count ≤ es.length then some seq else none) := by
  have h8 : ∀ n, n < 2 ^ 64 → ofLe (leBytes 8 n) = n := by
    intro n hn
    rw [ofLe_leBytes, Nat.mod_eq_of_lt (by norm_num at hn ⊢; omega)]
  rw [loadSnapshot, snapshotFile, snapshotHeader, List.append_assoc, List.append_assoc,
    takeN_append (by decide)]
  dsimp only
  rw [if_neg (by simp), takeN_append (by simp)]
  dsimp only
  rw [takeN_append (by simp)]
  dsimp only
  rw [h8 _ hseq, h8 _ hcount, Crates.gunzip_gzip, loadEntries_logBytes h]
  simp

/-- A snapshot that skips no log lines is read back before the log, whole or not. -/
theorem streamLogInto_snapshotFile {es : List LogEntry} (h : ∀ e ∈ es, e.Short) {count : ℕ}
    (hcount : count < 2 ^ 64) (log : Option Bytes) :
    streamLogInto (some (snapshotFile 0 count es)) log =
      (es.take count).map LogEntry.canon ++ streamLogEntries log 0 := by
  rw [streamLogInto, loadSnapshot_snapshotFile h (by norm_num) hcount]
  by_cases hle : count ≤ es.length <;> simp [hle]

theorem streamLogInto_none (log : Option Bytes) :
    streamLogInto none log = streamLogEntries log 0 := by
  simp [streamLogInto, loadSnapshot]

theorem loadEntries_fits {count : ℕ} {buf : Bytes} {e : LogEntry}
    (h : e ∈ (loadEntries count buf).1) : e.value.Fits := by
  induction count generalizing buf with
  | zero => simp [loadEntries] at h
  | succ count ih =>
    rw [loadEntries] at h
    split at h
    · simp at h
    · split_ifs at h
      · simp at h
      · split at h
        · simp at h
        · rename_i hdec
          rcases List.mem_cons.1 h with rfl | h
          · exact (logEntryFromMsgpack_fits hdec).1
          · exact ih h

theorem loadSnapshot_fits {file : Option Bytes} {e : LogEntry} (h : e ∈ (loadSnapshot file).1) :
    e.value.Fits := by
  unfold loadSnapshot at h
  repeat' split at h
  all_goals try simp at h
  all_goals
    rename_i heq _
    exact loadEntries_fits (by rw [heq]; exact h)

/-- The values of the entries that are delivered can be encoded. -/
theorem streamLogInto_fits {snapshot log : Option Bytes} {e : LogEntry}
    (h : e ∈ streamLogInto snapshot log) : e.value.Fits := by
  have hsnap : ∀ {es o}, loadSnapshot snapshot = (es, o) → e ∈ es → e.value.Fits := by
    intro es o heq he
    have hfile : e ∈ (loadSnapshot snapshot).1 := by rw [heq]; exact he
    exact loadSnapshot_fits hfile
  unfold streamLogInto at h
  split at h <;> rename_i heq <;> rcases List.mem_append.1 h with h | h
  · exact hsnap heq h
  · exact streamLogEntries_fits h
  · exact hsnap heq h
  · exact streamLogEntries_fits h

end MoltenDB
