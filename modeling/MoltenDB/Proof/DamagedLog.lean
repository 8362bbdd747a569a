/-
  Logs of whole transactions in which some records cannot be read.

  Such a record is skipped, and the others are replayed.  What a transaction has left is applied
  or lost as a whole, so a transaction is replayed in part if it is damaged in part and what is
  left of it is applied (`damaged_atomic_iff`).
-/
import MoltenDB.Engine.Storage.Recover
import MoltenDB.Engine.Storage.Registers
import MoltenDB.Lib.Hex
import MoltenDB.Lib.Interleaving

namespace MoltenDB

open Wire LogCommand Journal Interleaving

section

variable [Crates] [Base64]

/-! ## Reading the records -/

/-- The storage of a log file without a snapshot, with a cipher if it is encrypted. -/
def logStream (cipher : Option Cipher) (file : Bytes) : LogStream :=
  match cipher with
  | none => SyncDiskStorage.streamLogInto none (some file)
  | some cipher => EncryptedStorage.streamLogInto cipher (SyncDiskStorage.streamLogInto none (some file))

/-- The entry that a record is read as, if it is read at all. -/
def readRecord (cipher : Option Cipher) (record : Bytes) : Option LogEntry :=
  match cipher with
  | none => logEntryFromMsgpack record
  | some cipher => (logEntryFromMsgpack record).bind fun entry =>
      if entry.cmd = IKEY_ENC then (EncryptedStorage.decryptEntry cipher entry).toOption
      else some entry

/-- Startup replays the records that are read. -/
theorem startUp_logStream (cipher : Option Cipher) (file : Bytes) (now : UInt64) :
    startUp (logStream cipher file) now =
      rebuild now ((frames file).filterMap (readRecord cipher)) := by
  have hplain : ∀ (f : Replay → LogEntry → Option Replay) (g : Replay → LogEntry → Replay),
      (∀ r e, f r e = some (g r e)) → ∀ r, SyncDiskStorage.streamLogInto none (some file) f r =
        ((frames file).filterMap logEntryFromMsgpack).foldl g r := by
    intro f g h r
    rw [SyncDiskStorage.streamLogInto_eq_foldl fun r e _ => h r e, streamLogInto_none]
    rfl
  cases cipher with
  | none =>
    rw [startUp, logStream, hplain _ (Replay.step now) fun _ _ => rfl]
    rfl
  | some cipher =>
    set decrypt : LogEntry → Option LogEntry := fun entry =>
      if entry.cmd = IKEY_ENC then (EncryptedStorage.decryptEntry cipher entry).toOption
      else some entry with hdecrypt
    have hread : (frames file).filterMap (readRecord (some cipher)) =
        ((frames file).filterMap logEntryFromMsgpack).filterMap decrypt := by
      rw [List.filterMap_filterMap]
      rfl
    rw [startUp, logStream, EncryptedStorage.streamLogInto,
      hplain _ fun r entry => ((decrypt entry).map (r.step now)).getD r]
    · rw [hread, rebuild, streamIntoState]
      refine congrArg Replay.base ?_
      generalize (frames file).filterMap logEntryFromMsgpack = L
      generalize Replay.mk _ _ _ _ = r
      induction L generalizing r with
      | nil => rfl
      | cons e L ih =>
        rw [List.foldl_cons, ih]
        cases he : decrypt e with
        | none => rw [List.filterMap_cons_none he, Option.map_none, Option.getD_none]
        | some e' =>
          rw [List.filterMap_cons_some he, Option.map_some, Option.getD_some, List.foldl_cons]
    · intro r entry
      rw [hdecrypt]
      dsimp only
      split_ifs
      · cases EncryptedStorage.decryptEntry cipher entry <;> rfl
      · rfl

/-- A record of the log file, which is read as the entry that was written, or not at all. -/
structure Record (cipher : Option Cipher) where
  entry : LogEntry
  bytes : Bytes
  short : bytes.length < 2 ^ 32
  reads : readRecord cipher bytes = some entry.canon ∨ readRecord cipher bytes = none

variable {cipher : Option Cipher}

def Record.read (r : Record cipher) : Option LogEntry := readRecord cipher r.bytes

theorem Record.read_eq {r : Record cipher} {e : LogEntry} (h : r.read = some e) :
    e = r.entry.canon := by
  rcases r.reads with hread | hread
  · exact Option.some.inj (h.symm.trans hread)
  · cases h.symm.trans hread

/-- The record of an entry. -/
def Record.written (entry : LogEntry) (h : entry.Short) : Record none :=
  ⟨entry, logEntryToMsgpack entry, h.length, Or.inl (logEntryFromMsgpack_logEntryToMsgpack h.fits)⟩

/-- The record of an entry that is encrypted. -/
def Record.encrypted {cipher : Cipher} {draw : Draw} {entry enc : LogEntry} (hfits : entry.Fits)
    (h : EncryptedStorage.encryptEntry cipher draw entry = .ok enc) (hshort : enc.Short) :
    Record (some cipher) where
  entry := entry
  bytes := logEntryToMsgpack enc
  short := hshort.length
  reads := by
    have hdecrypt := decryptEntry_encryptEntry hfits h
    have henc : enc.canon = enc ∧ enc.cmd = IKEY_ENC := by
      unfold EncryptedStorage.encryptEntry at h
      split at h
      · cases h
      · cases h
        exact ⟨rfl, rfl⟩
    refine Or.inl ?_
    rw [readRecord, logEntryFromMsgpack_logEntryToMsgpack hshort.fits, Option.bind_some, henc.1,
      if_pos henc.2, hdecrypt]
    rfl

/-- The records of a transaction. -/
structure StoredTx (cipher : Option Cipher) where
  tx : Transaction
  opening : Record cipher
  ops : List (Record cipher)
  commit : Record cipher
  opening_entry : opening.entry = tx.opening
  ops_entry : ops.map Record.entry = tx.ops
  commit_entry : commit.entry = tx.commit

namespace StoredTx

def records (d : StoredTx cipher) : List (Record cipher) := d.opening :: (d.ops ++ [d.commit])

/-- The log file of the transactions. -/
def file (ds : List (StoredTx cipher)) : Bytes :=
  ((ds.flatMap records).map Record.bytes).flatMap frame

/-- The operations of the transaction that can be read. -/
def left (d : StoredTx cipher) : List LogEntry := d.ops.filterMap Record.read

/-- No operation is damaged. -/
def Whole (d : StoredTx cipher) : Prop := ∀ r ∈ d.ops, r.read ≠ none

/-- All operations are damaged. -/
def Gone (d : StoredTx cipher) : Prop := ∀ r ∈ d.ops, r.read = none

/-- The opening of the transaction, if it can be read. -/
def begins (d : StoredTx cipher) : List (Rec String (ℕ × LogEntry)) :=
  (d.opening.read.map fun _ => .opening d.tx.id).toList

/-- The commit of the transaction, if it can be read. -/
def ends (d : StoredTx cipher) : List (Rec String (ℕ × LogEntry)) :=
  (d.commit.read.map fun _ => .commit d.tx.id).toList

/-- The journal of what can be read of the transactions from the `i`-th one on; each operation
    has the number of its transaction. -/
def journal (i : ℕ) : List (StoredTx cipher) → List (Rec String (ℕ × LogEntry))
  | [] => []
  | d :: ds => d.begins ++ ((d.left.map (Prod.mk i)).map .op ++ (d.ends ++ journal (i + 1) ds))

/-- The operations that replay applies, with the numbers of their transactions. -/
def applied (ds : List (StoredTx cipher)) : List (ℕ × LogEntry) := Journal.effects (journal 0 ds)

/-- Replay drops what is left of `d`, between the transactions `A` and `B`: it is read while a
    transaction is open that is not committed before the next one opens. -/
def Lost (A : List (StoredTx cipher)) (d : StoredTx cipher) (B : List (StoredTx cipher)) : Prop :=
  ∃ id, Opened id (journal 0 A ++ d.begins) ∧
    ¬ CommitsNext id (d.ends ++ journal (A.length + 1) B)

/-! ## What is left of a transaction -/

theorem left_eq_nil {d : StoredTx cipher} : d.left = [] ↔ d.Gone := List.filterMap_eq_nil_iff

/-- Each operation that is left is one of the transaction. -/
theorem mem_left {d : StoredTx cipher} {e : LogEntry} (h : e ∈ d.left) :
    ∃ op ∈ d.tx.ops, e = op.canon := by
  obtain ⟨r, hr, hread⟩ := List.mem_filterMap.1 h
  refine ⟨r.entry, ?_, Record.read_eq hread⟩
  rw [← d.ops_entry]
  exact List.mem_map_of_mem hr

/-- All operations are left if none is damaged. -/
theorem left_eq_ops {d : StoredTx cipher} : d.left = d.tx.ops.map LogEntry.canon ↔ d.Whole := by
  rw [left, Whole, ← d.ops_entry]
  generalize d.ops = rs
  constructor
  · intro heq r hr hnone
    have hlt : (rs.filterMap Record.read).length < rs.length :=
      List.length_filterMap_lt_length_iff_exists.2 ⟨r, hr, hnone⟩
    rw [heq] at hlt
    simp at hlt
  · intro hwhole
    rw [List.map_map, ← List.filterMap_eq_map]
    refine List.filterMap_congr fun r hr => ?_
    obtain ⟨e, he⟩ := Option.ne_none_iff_exists'.1 (hwhole r hr)
    rw [he, Record.read_eq he]
    rfl

/-! ## The journal of what is read -/

/-- Startup reads the journal of the transactions. -/
theorem map_toRec (i : ℕ) (ds : List (StoredTx cipher)) :
    ((ds.flatMap records).filterMap Record.read).map LogEntry.toRec =
      (journal i ds).map (Rec.map Prod.snd) := by
  induction ds generalizing i with
  | nil => rfl
  | cons d ds ih =>
    have hopening : d.opening.read.toList.map LogEntry.toRec = d.begins.map (Rec.map Prod.snd) := by
      unfold begins
      cases hread : d.opening.read with
      | none => rfl
      | some e =>
        rw [Record.read_eq hread, d.opening_entry]
        exact congrArg (· :: []) d.tx.toRec_opening
    have hcommit : d.commit.read.toList.map LogEntry.toRec = d.ends.map (Rec.map Prod.snd) := by
      unfold ends
      cases hread : d.commit.read with
      | none => rfl
      | some e =>
        rw [Record.read_eq hread, d.commit_entry]
        exact congrArg (· :: []) d.tx.toRec_commit
    have hops : d.left.map LogEntry.toRec =
        ((d.left.map (Prod.mk i)).map .op).map (Rec.map Prod.snd) := by
      rw [List.map_map, List.map_map]
      refine List.map_congr_left fun e he => ?_
      obtain ⟨op, hop, rfl⟩ := mem_left he
      exact d.tx.toRec_op hop
    have hrecords : d.records.filterMap Record.read =
        d.opening.read.toList ++ (d.left ++ d.commit.read.toList) := by
      rw [records, List.filterMap_cons, List.filterMap_append, left]
      cases hb : d.opening.read <;> cases he : d.commit.read <;> simp [he]
    rw [List.flatMap_cons, List.filterMap_append, List.map_append, ih (i + 1), hrecords,
      List.map_append, List.map_append, hopening, hops, hcommit, journal]
    simp only [List.map_append, List.append_assoc]

/-- **Startup applies the operations** that replay does not drop. -/
theorem startUp_file (ds : List (StoredTx cipher)) (now : UInt64) :
    startUp (logStream cipher (file ds)) now =
      ((applied ds).map Prod.snd).foldl (applyEntry now) .empty := by
  have hframes : frames (file ds) = (ds.flatMap records).map Record.bytes := by
    have hshort : ∀ p ∈ (ds.flatMap records).map Record.bytes, p.length < 2 ^ 32 := by
      intro p hp
      obtain ⟨r, -, rfl⟩ := List.mem_map.1 hp
      exact r.short
    have hread := frames_flatMap hshort []
    rwa [List.append_nil, frames_nil, List.append_nil] at hread
  have heffects : MoltenDB.effects ((ds.flatMap records).filterMap Record.read) =
      (applied ds).map Prod.snd := by
    rw [MoltenDB.effects, map_toRec 0, Journal.effects_map]
    rfl
  rw [startUp_logStream, hframes, List.filterMap_map, rebuild_eq]
  exact congrArg (List.foldl (applyEntry now) .empty) heffects

/-! ## Which transactions are applied -/

theorem journal_append (i : ℕ) (A B : List (StoredTx cipher)) :
    journal i (A ++ B) = journal i A ++ journal (i + A.length) B := by
  induction A generalizing i with
  | nil => rfl
  | cons d A ih =>
    rw [List.cons_append, journal, journal, ih, List.length_cons]
    simp only [List.append_assoc]
    rw [Nat.add_right_comm, Nat.add_assoc]

/-- The operations in a journal have the numbers of its transactions. -/
theorem number_of_mem {i j : ℕ} {e : LogEntry} {ds : List (StoredTx cipher)}
    (h : .op (j, e) ∈ journal i ds) : i ≤ j ∧ j < i + ds.length := by
  induction ds generalizing i with
  | nil => cases h
  | cons d ds ih =>
    rw [List.length_cons]
    simp only [journal, begins, ends, List.mem_append, Option.mem_toList, Option.map_eq_some_iff,
      List.mem_map] at h
    rcases h with ⟨_, -, h⟩ | ⟨p, ⟨e', -, rfl⟩, h⟩ | ⟨_, -, h⟩ | h
    · cases h
    · cases h
      omega
    · cases h
    · obtain ⟨h1, h2⟩ := ih h
      omega

/-- **What is left of a transaction is applied or lost as a whole.** -/
theorem of_applied (A : List (StoredTx cipher)) (d : StoredTx cipher) (B : List (StoredTx cipher)) :
    of A.length (applied (A ++ d :: B)) = [] ∧ Lost A d B ∨
      of A.length (applied (A ++ d :: B)) = d.left ∧ ¬ Lost A d B := by
  have hsplit : journal 0 (A ++ d :: B) = (journal 0 A ++ d.begins) ++
      ((d.left.map (Prod.mk A.length)).map .op ++ (d.ends ++ journal (A.length + 1) B)) := by
    rw [journal_append, Nat.zero_add, journal, List.append_assoc]
  rw [applied, hsplit]
  refine of_effects_block (fun e he => ?_) (fun e he => ?_) d.left
  · rcases List.mem_append.1 he with he | he
    · have hnum := number_of_mem he
      omega
    · simp [begins] at he
  · rcases List.mem_append.1 he with he | he
    · simp [ends] at he
    · have hnum := number_of_mem he
      omega

end StoredTx

open StoredTx

/-- **Damaged records.**  Startup applies the operations of each transaction all or not at all
    exactly if each transaction that is damaged in part is lost. -/
theorem damaged_atomic_iff {cipher : Option Cipher} (ds : List (StoredTx cipher)) (now : UInt64) :
    startUp (logStream cipher (file ds)) now =
        ((applied ds).map Prod.snd).foldl (applyEntry now) .empty ∧
      ((∀ A d B, ds = A ++ d :: B → of A.length (applied ds) = d.tx.ops.map LogEntry.canon ∨
          of A.length (applied ds) = []) ↔
        ∀ A d B, ds = A ++ d :: B → d.Whole ∨ d.Gone ∨ Lost A d B) := by
  refine ⟨startUp_file ds now, ?_⟩
  refine forall_congr' fun A => forall_congr' fun d => forall_congr' fun B => ?_
  refine imp_congr_right fun hds => ?_
  subst hds
  rcases of_applied A d B with ⟨heq, hlost⟩ | ⟨heq, hkept⟩
  · simp [heq, hlost]
  · rw [heq, left_eq_ops, left_eq_nil]
    simp [hkept]

end

/-- The transaction that inserts `a` and `b` into the collection `c`. -/
def pairTx : Transaction where
  opening := ⟨IKEY_TX_BEGIN, "c", "pair", .null, 0⟩
  ops := [⟨IKEY_INSERT, "c", "a", .obj [], 0⟩, ⟨IKEY_INSERT, "c", "b", .obj [], 0⟩]
  commit := ⟨IKEY_TX_COMMIT, "c", "pair", .null, 0⟩
  opening_cmd := rfl
  commit_cmd := rfl
  commit_key := rfl
  ops_cmd := by decide

/-- An instance to evaluate the model with. -/
@[reducible] def Base64.plain : Base64 := ⟨Hex.encode, Hex.decode, Hex.decode_encode⟩

/-- Its records, that of `b` without a byte. -/
def damagedPair : @StoredTx Crates.plain Base64.plain none :=
  letI := Crates.plain
  letI := Base64.plain
  { tx := pairTx
    opening := .written pairTx.opening (by decide +kernel)
    ops := [.written ⟨IKEY_INSERT, "c", "a", .obj [], 0⟩ (by decide +kernel),
      ⟨⟨IKEY_INSERT, "c", "b", .obj [], 0⟩, [], by decide, Or.inr rfl⟩]
    commit := .written pairTx.commit (by decide +kernel)
    opening_entry := rfl
    ops_entry := rfl
    commit_entry := rfl }

open StoredTx

/-- **Half of a transaction**: `a` is stored, and `b` is not. -/
theorem damaged_not_atomic :
    letI := Crates.plain
    letI := Base64.plain
    (¬ ∀ A d B, [damagedPair] = A ++ d :: B →
        of A.length (applied [damagedPair]) = d.tx.ops.map LogEntry.canon ∨
          of A.length (applied [damagedPair]) = []) ∧
      State.bytes (startUp (logStream none (file [damagedPair])) 0).state "c" "a" ≠ none ∧
      State.bytes (startUp (logStream none (file [damagedPair])) 0).state "c" "b" = none := by
  let _ := Crates.plain
  let _ := Base64.plain
  refine ⟨fun h => ?_, by decide +kernel, by decide +kernel⟩
  rcases h [] damagedPair [] rfl with h | h
  · exact absurd h (by decide +kernel)
  · exact absurd h (by decide +kernel)

end MoltenDB
