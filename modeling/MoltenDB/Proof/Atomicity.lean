/-
  Logs of whole transactions cut at any byte.

  A cut leaves the records before it and a part of one record.  The transactions whose
  records are all left are replayed as a whole, and the one that is cut takes no effect
  (`cut_log_atomic`).
-/
import MoltenDB.Engine.Storage.Registers
import MoltenDB.Proof.TornLog

namespace MoltenDB

open Wire LogCommand Journal

/-- How many of the transactions end, with their `TX_COMMIT`, within the first `n` bytes. -/
def committedIn : List Transaction → ℕ → ℕ
  | [], _ => 0
  | w :: ws, n =>
    if (logBytes w.entries).length ≤ n then committedIn ws (n - (logBytes w.entries).length) + 1
    else 0

/-- The log file of transactions run one after another. -/
def logOf (ws : List Transaction) : Bytes := (ws.flatMap Transaction.entries).foldl appendEntry []

/-- The maps after a transaction, all of whose entries are applied as they are read back. -/
def Transaction.run [Crates] (now : UInt64) (s : Recovered) (w : Transaction) : Recovered :=
  (w.ops.map LogEntry.canon).foldl (applyEntry now) s

/-- The entries that a cut leaves are those of the transactions before it, and some of the next. -/
theorem keptEntries_cons (w : Transaction) (ws : List Transaction) (n : ℕ) :
    keptEntries ((w :: ws).flatMap Transaction.entries) n =
      if (logBytes w.entries).length ≤ n then
        w.entries ++ keptEntries (ws.flatMap Transaction.entries) (n - (logBytes w.entries).length)
      else w.entries.take (whole (w.entries.map logEntryToMsgpack) n) := by
  rw [keptEntries, List.flatMap_cons, List.map_append, whole_append, ← logBytes_eq,
    List.length_map]
  split_ifs with h
  · rw [List.take_length_add_append, keptEntries]
  · have hlt := whole_lt (w.entries.map logEntryToMsgpack) (n := n)
      (by rw [← logBytes_eq]; omega)
    rw [List.length_map] at hlt
    rw [List.take_append_of_le_length (by omega)]

/-- **The effects of what a cut leaves** are the operations of the transactions before it. -/
theorem applied_kept (ws : List Transaction) (n : ℕ) (r : Reader String LogEntry) :
    (r.run (((keptEntries (ws.flatMap Transaction.entries) n).map LogEntry.canon).map
        LogEntry.toRec)).applied =
      r.applied ++ ((ws.take (committedIn ws n)).flatMap Transaction.ops).map LogEntry.canon := by
  induction ws generalizing n r with
  | nil => simp [keptEntries, committedIn]
  | cons w ws ih =>
    rw [keptEntries_cons, committedIn]
    split_ifs with h
    · rw [List.map_append, List.map_append, w.toRec_entries, Reader.run_append, Reader.run_tx, ih,
        List.take_succ_cons, List.flatMap_cons, List.map_append, List.append_assoc]
    · have hlt := whole_lt (w.entries.map logEntryToMsgpack) (n := n)
        (by rw [← logBytes_eq]; omega)
      have hlen : w.entries.length = (tx w.id (w.ops.map LogEntry.canon)).length := by
        rw [← w.toRec_entries, List.length_map, List.length_map]
      rw [List.length_map, hlen] at hlt
      rw [List.map_take, List.map_take, w.toRec_entries, Reader.applied_run_take_tx r _ _ hlt]
      simp

variable [Crates]

/-- **A cut log is replayed atomically**: what is rebuilt are the maps after the transactions
    that end before the cut. -/
theorem cut_log_atomic {ws : List Transaction}
    (hlen : ∀ w ∈ ws, ∀ e ∈ w.entries, (logEntryToMsgpack e).length < 2 ^ 32) (n : ℕ)
    (now : UInt64) :
    rebuild now (streamLogEntries (some ((logOf ws).take n)) 0) =
      (ws.take (committedIn ws n)).foldl (Transaction.run now) .empty := by
  have hshort : ∀ e ∈ ws.flatMap Transaction.entries, e.Short := by
    intro e he
    obtain ⟨w, hw, he⟩ := List.mem_flatMap.1 he
    exact LogEntry.short_iff.2 (hlen w hw e he)
  have hread : streamLogEntries (some ((logOf ws).take n)) 0 =
      (keptEntries (ws.flatMap Transaction.entries) n).map LogEntry.canon := by
    have := @streamLogEntries_reopened _ [] n _ hshort (by simp) (Or.inr rfl)
    simpa [reopened, openAppend, logOf] using this
  have heff : effects (streamLogEntries (some ((logOf ws).take n)) 0) =
      ((ws.take (committedIn ws n)).flatMap Transaction.ops).map LogEntry.canon := by
    rw [hread, effects, Journal.effects, applied_kept]
    rfl
  rw [rebuild_eq, heff, List.map_flatMap, List.foldl_flatMap]
  rfl

/-! ### Two transactions, and one of four gigabytes -/

section

omit [Crates]

theorem cut_log_atomic_two :
    @rebuild Crates.plain 0 (@streamLogEntries Crates.plain
        (some ((logOf [insertTx "tx1" "a", insertTx "tx2" "b"]).take 200)) 0) =
      (([insertTx "tx1" "a", insertTx "tx2" "b"].take
        (committedIn [insertTx "tx1" "a", insertTx "tx2" "b"] 200)).foldl
          (@Transaction.run Crates.plain 0) .empty) :=
  @cut_log_atomic Crates.plain [insertTx "tx1" "a", insertTx "tx2" "b"] (by decide +kernel) 200 0

/-- `-1` is a negative number. -/
theorem minus_one_neg : -2 ^ 63 ≤ (-1 : ℤ) ∧ (-1 : ℤ) < 0 := by decide

/-- A transaction that inserts an array of `m` times the number `-1`. -/
def arrayTx (m : ℕ) : Transaction where
  opening := ⟨IKEY_TX_BEGIN, "c", "tx1", .null, 0⟩
  ops := [⟨IKEY_INSERT, "c", "a", .arr (List.replicate m (.num (.negInt (-1) minus_one_neg))), 0⟩]
  commit := ⟨IKEY_TX_COMMIT, "c", "tx1", .null, 0⟩
  opening_cmd := rfl
  commit_cmd := rfl
  commit_key := rfl
  ops_cmd := by
    intro e he
    rw [List.mem_singleton.1 he]
    show canon IKEY_INSERT ≠ IKEY_TX_BEGIN ∧ canon IKEY_INSERT ≠ IKEY_TX_COMMIT
    decide

/-- The bytes of the inserting entry before its value, but for the first four. -/
def afterFour : Bytes :=
  0x64 :: (writeCmd IKEY_INSERT ++ writeStr "collection" ++ writeStr "c" ++ writeStr "key" ++
    writeStr "a" ++ writeStr "value")

theorem arrayTx_record {m : ℕ} (hm : 2 ^ 16 ≤ m) :
    ∀ e ∈ (arrayTx m).ops, logEntryToMsgpack e = [0x85, 0xa3, 0x63, 0x6d] ++ (afterFour ++
      (0xdd :: (beBytes 4 m ++ (List.replicate m 0xff ++ (writeStr "_t" ++ [0]))))) := by
  intro e he
  rw [List.mem_singleton.1 he]
  have hitem : writeValue (.num (.negInt (-1) (by decide))) = [0xff] := by decide
  have hitems : writeItems (List.replicate m (.num (.negInt (-1) (by decide)))) =
      List.replicate m 0xff := by
    rw [writeItems_eq, List.flatMap_replicate, hitem, List.flatten_replicate_singleton]
  have hhead : writeArrayHeader m = 0xdd :: beBytes 4 m := by
    rw [writeArrayHeader, if_neg (by omega), if_neg (by omega)]
  have hfront : writeMapHeader 5 ++ writeStr "cmd" = [0x85, 0xa3, 0x63, 0x6d, 0x64] := by decide
  simp only [logEntryToMsgpack, writeValue, hitems, List.length_replicate, hhead, hfront,
    afterFour, List.append_assoc]
  rfl

/-- The transaction stores the document. -/
theorem stored_arrayTx [Crates] (now : UInt64) (m : ℕ) :
    State.bytes (Transaction.run now .empty (arrayTx m)).state "c" "a" ≠ none := by
  obtain ⟨e, hops, hcmd, hcol, hkey⟩ : ∃ e, (arrayTx m).ops = [e] ∧ e.canon.cmd = IKEY_INSERT ∧
      e.canon.collection = "c" ∧ e.canon.key = "a" := ⟨_, rfl, rfl, rfl, rfl⟩
  rw [Transaction.run, hops, List.map_singleton, List.foldl_cons, List.foldl_nil, applyEntry,
    if_pos hcmd, bytes_put, if_pos ⟨hcol.symm, hkey.symm⟩]
  exact Option.some_ne_none _

/-- When the length of the record is `2 ^ 32` the length in front of it is zero, and the bytes
    that follow are misread as a record up to somewhere in the array. -/
theorem frames_arrayTx {m k p : ℕ} (hm : m + 40 = 2 ^ 32) (hk : k + 32 = 1835246469)
    (hp : k + (4 + p) = m) :
    frames (logBytes (arrayTx m).entries) = [logEntryToMsgpack (arrayTx m).opening, [],
      afterFour ++ (0xdd :: (beBytes 4 m ++ List.replicate k 0xff))] := by
  have hafter : afterFour.length = 27 := by decide
  have hopening : (logEntryToMsgpack (arrayTx m).opening).length < 2 ^ 32 :=
    show (logEntryToMsgpack ⟨IKEY_TX_BEGIN, "c", "tx1", .null, 0⟩).length < 2 ^ 32 by decide
  have hcommit : (arrayTx m).commit.framed.length < 100 :=
    show (LogEntry.framed ⟨IKEY_TX_COMMIT, "c", "tx1", .null, 0⟩).length < 100 by decide
  -- the bytes of the log
  obtain ⟨tail, hlog, htail⟩ : ∃ tail, logBytes (arrayTx m).entries =
      frame (logEntryToMsgpack (arrayTx m).opening) ++ (leBytes 4 (2 ^ 32) ++
        ([0x85, 0xa3, 0x63, 0x6d] ++ ((afterFour ++ (0xdd :: (beBytes 4 m ++
          List.replicate k 0xff))) ++ ([0xff, 0xff, 0xff, 0xff] ++ (List.replicate p 0xff ++
            tail))))) ∧ tail.length < 200 := by
    refine ⟨writeStr "_t" ++ [0] ++ (arrayTx m).commit.framed, ?_, ?_⟩
    · obtain ⟨e, hops⟩ : ∃ e, (arrayTx m).ops = [e] := ⟨_, rfl⟩
      have hrecord := arrayTx_record (m := m) (by omega) e (by simp [hops])
      have hlength : (logEntryToMsgpack e).length = 2 ^ 32 := by
        rw [hrecord]
        simp only [List.length_append, List.length_cons, List.length_nil, length_beBytes,
          List.length_replicate, hafter, show (writeStr "_t").length = 3 by decide]
        omega
      have hsplit : List.replicate m (0xff : UInt8) = List.replicate k 0xff ++
          ([0xff, 0xff, 0xff, 0xff] ++ List.replicate p 0xff) := by
        rw [← hp, List.replicate_add, List.replicate_add]
        rfl
      rw [Transaction.entries, hops, logBytes, List.flatMap_cons, List.flatMap_append,
        List.flatMap_singleton, List.flatMap_singleton, LogEntry.framed, LogEntry.framed, frame,
        frame, hlength, hrecord, hsplit]
      simp only [List.append_assoc, List.cons_append]
    · have hname : (writeStr "_t").length = 3 := by decide
      simp only [List.length_append, List.length_singleton, hname]
      omega
  have hbody : (afterFour ++ (0xdd :: (beBytes 4 m ++ List.replicate k 0xff))).length =
      ofLe [0x85, 0xa3, 0x63, 0x6d] := by
    rw [show ofLe [0x85, 0xa3, 0x63, 0x6d] = 1835246469 by decide]
    simp only [List.length_append, List.length_cons, length_beBytes, List.length_replicate, hafter]
    omega
  have hend : (List.replicate p 0xff ++ tail).length < ofLe [0xff, 0xff, 0xff, 0xff] := by
    rw [show ofLe [0xff, 0xff, 0xff, 0xff] = 4294967295 by decide]
    simp only [List.length_append, List.length_replicate]
    omega
  -- the length of the second record is cut to zero
  have hnil : ∀ rest, readFrame (leBytes 4 (2 ^ 32) ++ rest) = some ([], rest) := fun rest =>
    readFrame_append (p := []) (by simp) (by rw [ofLe_leBytes]; rfl) rest
  rw [hlog, frames_of_some (readFrame_frame hopening _), frames_of_some (hnil _),
    frames_of_some (readFrame_append rfl hbody _), frames_of_none (readFrame_of_lt rfl hend)]

/-- **A record of four gigabytes is lost**, and its transaction with it: its length is written
    in four bytes. -/
theorem huge_record_lost :
    ∃ (ws : List Transaction) (n : ℕ),
      @rebuild Crates.plain 0 (@streamLogEntries Crates.plain (some ((logOf ws).take n)) 0) ≠
        (ws.take (committedIn ws n)).foldl (@Transaction.run Crates.plain 0) .empty := by
  obtain ⟨m, hm⟩ : ∃ m, m + 40 = 2 ^ 32 := ⟨2 ^ 32 - 40, by norm_num⟩
  obtain ⟨k, hk⟩ : ∃ k, k + 32 = 1835246469 := ⟨1835246437, rfl⟩
  obtain ⟨p, hp⟩ : ∃ p, k + (4 + p) = m := ⟨m - k - 4, by omega⟩
  refine ⟨[arrayTx m], (logBytes (arrayTx m).entries).length, fun h => ?_⟩
  have hlog : logOf [arrayTx m] = logBytes (arrayTx m).entries := by
    rw [logOf, foldl_appendEntry]
    simp
  have hread : @streamLogEntries Crates.plain (some (logBytes (arrayTx m).entries)) 0 =
      [(arrayTx m).opening] := by
    have hdec : @logEntryFromMsgpack Crates.plain (logEntryToMsgpack (arrayTx m).opening) =
        some (arrayTx m).opening :=
      show @logEntryFromMsgpack Crates.plain
        (logEntryToMsgpack ⟨IKEY_TX_BEGIN, "c", "tx1", .null, 0⟩) =
          some ⟨IKEY_TX_BEGIN, "c", "tx1", .null, 0⟩ by decide +kernel
    have hnone : ∀ rest, @logEntryFromMsgpack Crates.plain (afterFour ++ rest) = none :=
      fun _ => rfl
    show ((frames _).drop 0).filterMap (@logEntryFromMsgpack Crates.plain) = _
    rw [frames_arrayTx hm hk hp, List.drop_zero, List.filterMap_cons_some hdec,
      List.filterMap_cons_none rfl, List.filterMap_cons_none (hnone _), List.filterMap_nil]
  rw [hlog, List.take_length, hread] at h
  have hcommitted : committedIn [arrayTx m] (logBytes (arrayTx m).entries).length = 1 := by
    rw [committedIn, if_pos le_rfl]
    rfl
  rw [hcommitted] at h
  have hlost : State.bytes (@rebuild Crates.plain 0 [(arrayTx m).opening]).state "c" "a" = none :=
    show State.bytes (@rebuild Crates.plain 0 [⟨IKEY_TX_BEGIN, "c", "tx1", .null, 0⟩]).state
      "c" "a" = none by decide +kernel
  have hstored := @stored_arrayTx Crates.plain 0 m
  rw [show @Transaction.run Crates.plain 0 .empty (arrayTx m) =
    ([arrayTx m].take 1).foldl (@Transaction.run Crates.plain 0) .empty from rfl, ← h] at hstored
  exact hstored hlost

end

end MoltenDB
