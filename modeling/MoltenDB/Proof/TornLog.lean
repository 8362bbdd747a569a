/-
  Log files cut by a crash.

  The log is reopened in append mode with whatever a crash left of its last record.
  What is appended is recovered if nothing was left of a record
  (`reopened_log_recovers`); else it may be read as the missing part of that record
  (`torn_log_swallows`).
-/
import MoltenDB.Engine.Storage.Log

namespace MoltenDB

open Wire LogCommand

/-- The log file after a crash that leaves the first `n` bytes of the entries `L`, when it is
    reopened and the transactions `ws` are appended. -/
def reopened (L : List LogEntry) (n : ℕ) (ws : List Transaction) : Bytes :=
  (ws.flatMap Transaction.entries).foldl appendEntry
    (openAppend (some ((L.foldl appendEntry []).take n)))

/-- The entries that are whole in the first `n` bytes of the log file. -/
def keptEntries (L : List LogEntry) (n : ℕ) : List LogEntry :=
  L.take (whole (L.map logEntryToMsgpack) n)

/-- The first `n` bytes of the log file end between two records. -/
def CutBetween (L : List LogEntry) (n : ℕ) : Prop := torn (L.map logEntryToMsgpack) n = []

instance (L : List LogEntry) (n : ℕ) : Decidable (CutBetween L n) :=
  inferInstanceAs (Decidable (_ = _))

variable {L : List LogEntry} {ws : List Transaction} {n : ℕ}

theorem reopened_eq (L : List LogEntry) (n : ℕ) (ws : List Transaction) :
    reopened L n ws = logBytes (keptEntries L n) ++
      (torn (L.map logEntryToMsgpack) n ++ logBytes (ws.flatMap Transaction.entries)) := by
  rw [reopened, foldl_appendEntry, foldl_appendEntry, List.nil_append, openAppend,
    Option.getD_some, logBytes_eq, take_eq, logBytes_eq (keptEntries L n), keptEntries,
    List.map_take, List.append_assoc]

theorem short_kept (hL : ∀ e ∈ L, e.Short) : ∀ e ∈ keptEntries L n, e.Short :=
  fun e he => hL e (List.mem_of_mem_take he)

variable [Crates]

/-- The transaction is replayed as a whole when the log file is read. -/
def Replays (file : Bytes) (w : Transaction) : Prop :=
  ∃ X Y, effects (streamLogEntries (some file) 0) = X ++ (w.ops.map LogEntry.canon ++ Y)

/-- What is read back after a cut between two records, or with nothing appended. -/
theorem streamLogEntries_reopened (hL : ∀ e ∈ L, e.Short)
    (hws : ∀ w ∈ ws, ∀ e ∈ w.entries, e.Short) (hcut : CutBetween L n ∨ ws = []) :
    streamLogEntries (some (reopened L n ws)) 0 =
      (keptEntries L n).map LogEntry.canon ++
        (ws.flatMap Transaction.entries).map LogEntry.canon := by
  rw [reopened_eq, streamLogEntries_logBytes (short_kept hL)]
  congr 1
  rcases hcut with hcut | rfl
  · have happ : ∀ e ∈ ws.flatMap Transaction.entries, e.Short := by
      intro e he
      obtain ⟨w, hw, he⟩ := List.mem_flatMap.1 he
      exact hws w hw e he
    rw [CutBetween] at hcut
    rw [hcut, List.nil_append, streamLogEntries_whole happ]
  · have hnone := frames_of_none (readFrame_torn (length_of_short hL) n)
    simp [logBytes, streamLogEntries, hnone]

/-- **After a cut between two records nothing is lost**: the transactions that are whole in
    what is left of the log, and all that are appended, are recovered.  So are the former
    after any cut, as long as nothing is appended. -/
theorem reopened_log_recovers (hL : ∀ e ∈ L, e.Short) (hws : ∀ w ∈ ws, ∀ e ∈ w.entries, e.Short)
    (hcut : CutBetween L n ∨ ws = []) :
    (∀ A w B, keptEntries L n = A ++ (w.entries ++ B) → Replays (reopened L n ws) w) ∧
      ∀ w ∈ ws, Replays (reopened L n ws) w := by
  have hread := streamLogEntries_reopened hL hws hcut
  constructor
  · intro A w B hkept
    rw [hkept, List.map_append, List.map_append, List.append_assoc, List.append_assoc] at hread
    obtain ⟨Y, hY⟩ := effects_around (A.map LogEntry.canon)
      (B.map LogEntry.canon ++ (ws.flatMap Transaction.entries).map LogEntry.canon) w
    exact ⟨_, Y, by rw [hread, hY]⟩
  · intro w hw
    obtain ⟨ws₁, ws₂, rfl⟩ := List.append_of_mem hw
    refine ⟨effects ((keptEntries L n).map LogEntry.canon) ++
      (ws₁.flatMap Transaction.ops).map LogEntry.canon,
      (ws₂.flatMap Transaction.ops).map LogEntry.canon, ?_⟩
    rw [hread, effects_append_entries]
    simp

/-- **A torn record swallows what is appended**, as long as that does not fill it. -/
theorem torn_log_swallows (hL : ∀ e ∈ L, e.Short) {e : LogEntry}
    (he : L[whole (L.map logEntryToMsgpack) n]? = some e)
    (h4 : 4 ≤ (torn (L.map logEntryToMsgpack) n).length)
    (hlen : (torn (L.map logEntryToMsgpack) n).length +
      (logBytes (ws.flatMap Transaction.entries)).length < e.framed.length) :
    streamLogEntries (some (reopened L n ws)) 0 = (keptEntries L n).map LogEntry.canon := by
  rw [reopened_eq, streamLogEntries_logBytes (short_kept hL)]
  have hp : (logEntryToMsgpack e).length < 2 ^ 32 := (hL e (List.mem_of_getElem? he)).length
  have ht : torn (L.map logEntryToMsgpack) n <+: e.framed :=
    torn_prefix (by rw [List.getElem?_map, he]; rfl)
  simp [streamLogEntries, frames_torn_append hp ht h4 hlen]

/-! ### One transaction, cut -/

omit [Crates] in
/-- The 124 bytes of the first transaction are whole, and a second is appended. -/
theorem reopened_log_recovers_whole :
    @Replays Crates.plain (reopened (insertTx "tx1" "a").entries 124 [insertTx "tx2" "b"])
      (insertTx "tx2" "b") :=
  (@reopened_log_recovers (insertTx "tx1" "a").entries [insertTx "tx2" "b"] 124 Crates.plain
    (by decide +kernel) (by decide +kernel) (Or.inl (by decide +kernel))).2 _ (by simp)

omit [Crates] in
/-- **A torn log costs later commits.** A crash leaves five bytes of the first record, and the
    transaction that is committed after the restart is not recovered. -/
theorem torn_log_loses_commit :
    ∃ (L : List LogEntry) (n : ℕ) (w : Transaction), (∀ e ∈ L, e.Short) ∧
      (∀ e ∈ w.entries, e.Short) ∧ ¬ @Replays Crates.plain (reopened L n [w]) w :=
  ⟨(insertTx "tx1" "a").entries, 5, insertTx "tx2" "b", by decide +kernel, by decide +kernel, by
    rintro ⟨X, Y, h⟩
    rw [show effects (@streamLogEntries Crates.plain (some (reopened (insertTx "tx1" "a").entries 5
      [insertTx "tx2" "b"])) 0) = [] by decide +kernel] at h
    simp [insertTx] at h⟩

end MoltenDB
