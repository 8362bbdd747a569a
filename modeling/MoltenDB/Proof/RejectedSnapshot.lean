/-
  Snapshots that are rejected after some of their entries were delivered.

  The whole log is replayed on top of these entries.  What they leave stays exactly where the log
  does not overwrite it (`rejected_snapshot_iff`).
-/
import MoltenDB.Engine.Storage.Recover
import MoltenDB.Lib.Interleaving
import MoltenDB.Proof.Idempotence

namespace MoltenDB

open Wire LogCommand Journal Overwrite

/-- A log as a journal. -/
def asRecs (L : List LogEntry) : List (Rec String LogEntry) := L.map LogEntry.toRec

/-- The state of the replay after the delivered entries. -/
def delivered (P : List LogEntry) : Reader String LogEntry := Reader.start.run (asRecs P)

/-- The delivered entries leave a transaction open that the log does not commit before it opens
    another one. -/
def Cuts (P L : List LogEntry) : Prop :=
  ∃ id ∈ (delivered P).active, ¬ CommitsNext id (asRecs L)

instance (P L : List LogEntry) : Decidable (Cuts P L) :=
  match h : (delivered P).active with
  | none => isFalse fun ⟨_, hid, _⟩ => by rw [h] at hid; cases hid
  | some id => decidable_of_iff (¬ CommitsNext id (asRecs L)) (by simp [Cuts, h])

/-- The entries that take effect although the snapshot is rejected. -/
def extra (P L : List LogEntry) : List LogEntry :=
  if Cuts P L then (delivered P).applied else (delivered P).applied ++ (delivered P).buffer

/-- The entries of the log that take no effect because of the snapshot: those before its first
    transaction, if they are taken for a part of one. -/
def dropped (P L : List LogEntry) : List LogEntry := if Cuts P L then Journal.head (asRecs L) else []

/-- The entries of the log that take effect all the same. -/
def common (P L : List LogEntry) : List LogEntry :=
  if Cuts P L then Journal.effects (fromOpening (asRecs L)) else effects L

theorem effects_log (P L : List LogEntry) : effects L = dropped P L ++ common P L := by
  unfold dropped common
  split_ifs
  · exact effects_eq_head _
  · rfl

theorem effects_delivered (P L : List LogEntry) : effects (P ++ L) = extra P L ++ common P L := by
  have hrun : effects (P ++ L) = ((delivered P).run (asRecs L)).applied := by
    rw [effects, Journal.effects, List.map_append, Reader.run_append]
    rfl
  unfold extra common
  rw [hrun]
  split_ifs with hcuts
  · obtain ⟨id, hactive, hnot⟩ := hcuts
    exact applied_run_cut hnot hactive
  · cases hactive : (delivered P).active with
    | none =>
      have hbuffer : (delivered P).buffer = [] := buffer_run _ hactive
      rw [Reader.run_applied, hactive, hbuffer, List.append_nil]
      rfl
    | some id =>
      have hcommits : CommitsNext id (asRecs L) := by
        by_contra hnot
        exact hcuts ⟨id, hactive, hnot⟩
      rw [applied_run_commitsNext hcommits hactive, List.append_assoc]
      rfl

section

variable [Crates]

/-- What a list of entries leaves in a part of the maps that were empty. -/
def leftBy (now : UInt64) (es : List LogEntry) (x : Cell) : Option Content :=
  (last (LogEntry.puts now) es x).getD none

/-- Where the rest of the log does not write, the delivered entries leave the same as the entries of
    the log that they displace. -/
def Covered (now : UInt64) (P L : List LogEntry) : Prop :=
  ∀ x, (∀ e ∈ common P L, e.puts now x = none) →
    leftBy now (extra P L) x = leftBy now (dropped P L) x

theorem cells_rebuild (now : UInt64) (L : List LogEntry) (x : Cell) :
    (rebuild now L).cells x = leftBy now (effects L) x := by
  have hempty : Recovered.empty.cells x = none := by
    cases x <;> simp [Recovered.empty, Recovered.cells, State.bytes]
  rw [rebuild, cells_streamIntoState, replay_eq, hempty]
  rfl

theorem leftBy_append (now : UInt64) (es es' : List LogEntry) (x : Cell) :
    leftBy now (es ++ es') x =
      (last (LogEntry.puts now) es' x).getD (leftBy now es x) := by
  rw [leftBy, last_append, leftBy]
  cases last (LogEntry.puts now) es' x <;> rfl

theorem rebuild_eq_iff (now : UInt64) (P L : List LogEntry) :
    rebuild now (P ++ L) = rebuild now L ↔ Covered now P L := by
  have hcells : rebuild now (P ++ L) = rebuild now L ↔
      ∀ x, leftBy now (extra P L ++ common P L) x = leftBy now (dropped P L ++ common P L) x := by
    rw [← effects_delivered, ← effects_log]
    constructor
    · intro h x
      rw [← cells_rebuild, ← cells_rebuild, h]
    · intro h
      refine cells_injective (funext fun x => ?_)
      rw [cells_rebuild, cells_rebuild, h]
  rw [hcells]
  refine forall_congr' fun x => ?_
  rw [leftBy_append, leftBy_append, ← last_eq_none]
  cases last (LogEntry.puts now) (common P L) x with
  | none => simp
  | some v => simp

omit [Crates] in
/-- A snapshot has no transactions: its entries take effect, and the whole log does. -/
theorem delivered_plain {P : List LogEntry} (h : ∀ e ∈ P, e.toRec = .op e) :
    delivered P = ⟨P, none, []⟩ := by
  have hrecs : asRecs P = P.map .op := List.map_congr_left h
  rw [delivered, hrecs, Reader.run_ops_idle rfl]
  rfl

/-- **The entries of a snapshot are covered** if the log writes to wherever they leave something. -/
theorem covered_iff_of_plain {now : UInt64} {P L : List LogEntry} (h : ∀ e ∈ P, e.toRec = .op e) :
    Covered now P L ↔ ∀ x, leftBy now P x ≠ none → ∃ e ∈ effects L, e.puts now x ≠ none := by
  have hcuts : ¬ Cuts P L := by
    rintro ⟨id, hactive, -⟩
    rw [delivered_plain h] at hactive
    cases hactive
  have hextra : extra P L = P := by
    rw [extra, if_neg hcuts, delivered_plain h, List.append_nil]
  have hcommon : common P L = effects L := if_neg hcuts
  have hdropped : dropped P L = [] := if_neg hcuts
  unfold Covered
  rw [hextra, hcommon, hdropped]
  refine forall_congr' fun x => ?_
  constructor
  · intro hcovered hleaves
    by_contra hno
    push Not at hno
    exact hleaves (hcovered hno)
  · intro hwritten hno
    by_contra hleaves
    obtain ⟨e, he, hputs⟩ := hwritten hleaves
    exact hputs (hno e he)

/-- **A rejected snapshot** leftBy nothing behind exactly if the log covers what it delivered. -/
theorem rejected_snapshot_iff {snapshot : Option Bytes} (hnone : (loadSnapshot snapshot).2 = none)
    (log : Option Bytes) (now : UInt64) :
    startUp (SyncDiskStorage.streamLogInto snapshot log) now =
        startUp (SyncDiskStorage.streamLogInto none log) now ↔
      Covered now (loadSnapshot snapshot).1 (streamLogEntries log 0) := by
  have hstream : streamLogInto snapshot log = (loadSnapshot snapshot).1 ++ streamLogEntries log 0 := by
    unfold streamLogInto
    split
    · next hload =>
      rw [hload] at hnone
      cases hnone
    · next hload => rw [hload]
  rw [startUp_disk, startUp_disk, hstream, streamLogInto_none, rebuild_eq_iff]

end

/-- A snapshot that announces two entries and holds one. -/
def shortSnapshot : Bytes :=
  letI := Crates.plain
  snapshotFile 0 2 [⟨IKEY_INSERT, "c", "a", .obj [], 0⟩]

theorem rejected_snapshot_iff_short :
    letI := Crates.plain
    (startUp (SyncDiskStorage.streamLogInto (some shortSnapshot) none) 0 =
        startUp (SyncDiskStorage.streamLogInto none none) 0 ↔
      Covered 0 (loadSnapshot (some shortSnapshot)).1 (streamLogEntries none 0)) := by
  let _ := Crates.plain
  have hnone : (loadSnapshot (some shortSnapshot)).2 = none := by decide +kernel
  exact rejected_snapshot_iff hnone none 0

/-- **The entry stays**, although the snapshot is rejected and the log is empty. -/
theorem rejected_snapshot_stays :
    letI := Crates.plain
    (loadSnapshot (some shortSnapshot)).2 = none ∧
      startUp (SyncDiskStorage.streamLogInto (some shortSnapshot) none) 0 ≠
        startUp (SyncDiskStorage.streamLogInto none none) 0 := by
  let _ := Crates.plain
  refine ⟨by decide +kernel, fun h => ?_⟩
  have hbytes := congrArg (fun s => State.bytes s.state "c" "a") h
  exact absurd hbytes (by decide +kernel)

end MoltenDB
