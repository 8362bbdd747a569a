/-
  Compaction that fails or is cut short.

  What the next start rebuilds is what the log last wrote over what the snapshot
  holds (`view_rebuilt`).  A compaction that cannot install its snapshot replaces the
  log all the same, and it may have moved the old snapshot away; exactly what was only
  in these is lost (`failed_compaction_keeps_iff`).  One that is stopped after the old
  snapshot was moved loses what is not in the log (`compaction_crash_iff`).
-/
import MoltenDB.Engine.Storage.DiskSteps
import MoltenDB.Engine.Storage.Registers

namespace MoltenDB

open Wire Prog Prog.Eff LogCommand

/-- The register holds a document or a schema. -/
def Reg.IsData : Reg → Prop
  | .expiry _ => False
  | _ => True

variable [Crates]

/-- A snapshot, if there is one, was written by a compaction. -/
def Disk.Sound (d : Disk) : Prop :=
  d.snapshot = none ∨ ∃ count es, count < 2 ^ 64 ∧
    (∀ e ∈ es, e.Short ∧ (e.cmd = IKEY_INSERT ∨ e.cmd = SCHEMA)) ∧
    d.snapshot = some (snapshotFile 0 count es)

/-- What the snapshot holds. -/
def Disk.held (d : Disk) (now : UInt64) : Reg → Held :=
  Overwrite.replay (LogEntry.writes now) (fun _ => none) (loadSnapshot d.snapshot).1

/-- What the log last writes, if it does. -/
def Disk.lastLogged (d : Disk) (now : UInt64) : Reg → Option Held :=
  Overwrite.last (LogEntry.writes now) (effects (streamLogEntries d.log 0))

/-- The same documents and schemas are rebuilt. -/
def SameData (now : UInt64) (d d' : Disk) : Prop :=
  ∀ r : Reg, r.IsData → (d'.rebuilt now).view r = (d.rebuilt now).view r

/-! ## What the next start rebuilds -/

omit [Crates] in
/-- Entries outside of transactions take effect at once. -/
theorem effects_append_plain {S : List LogEntry}
    (h : ∀ e ∈ S, e.cmd ≠ IKEY_TX_BEGIN ∧ e.cmd ≠ IKEY_TX_COMMIT) (L : List LogEntry) :
    effects (S ++ L) = S ++ effects L := by
  have hrec : S.map LogEntry.toRec = S.map .op := by
    refine List.map_congr_left fun e he => ?_
    simp [LogEntry.toRec, (h e he).1, (h e he).2]
  rw [effects, effects, List.map_append, hrec, Journal.effects, Journal.Reader.run_append,
    Journal.Reader.run_ops_idle rfl, Journal.Reader.run_applied]
  rfl

theorem Disk.Sound.entries {d : Disk} (h : d.Sound) :
    d.entries = (loadSnapshot d.snapshot).1 ++ streamLogEntries d.log 0 ∧
      ∀ e ∈ (loadSnapshot d.snapshot).1, e.cmd ≠ IKEY_TX_BEGIN ∧ e.cmd ≠ IKEY_TX_COMMIT := by
  rcases h with h | ⟨count, es, hcount, hes, h⟩
  · rw [Disk.entries, h, streamLogInto_none]
    simp [loadSnapshot]
  · have hshort : ∀ e ∈ es, e.Short := fun e he => (hes e he).1
    rw [Disk.entries, h, streamLogInto_snapshotFile hshort hcount,
      loadSnapshot_snapshotFile hshort (by norm_num) hcount]
    refine ⟨rfl, fun e he => ?_⟩
    obtain ⟨e', he', rfl⟩ := List.mem_map.1 he
    have hcan : e'.canon.cmd = canon e'.cmd := rfl
    rcases (hes e' (List.mem_of_mem_take he')).2 with hcmd | hcmd <;> rw [hcan, hcmd] <;> decide

/-- **The next start rebuilds what the log last wrote over what the snapshot holds.** -/
theorem view_rebuilt {d : Disk} (h : d.Sound) (now : UInt64) (r : Reg) :
    (d.rebuilt now).view r = (d.lastLogged now r).getD (d.held now r) := by
  obtain ⟨hentries, hplain⟩ := h.entries
  have hfits : ∀ e ∈ d.entries, e.value.Fits := fun e he => streamLogInto_fits he
  rw [Disk.rebuilt, view_rebuild now hfits, hentries, effects_append_plain hplain,
    Overwrite.replay_append, Overwrite.replay_eq]
  rfl

/-! ## A snapshot that is not installed -/

/-- Nothing that only the old snapshot or only the log held is lost when the snapshot is
    moved away, or the log emptied, or both. -/
def Disk.Spared (d : Disk) (now : UInt64) (moved emptied : Prop) [Decidable moved] : Prop :=
  ∀ r : Reg, r.IsData →
    (moved → d.lastLogged now r = none → d.held now r = none) ∧
    (emptied → ∀ v, d.lastLogged now r = some v → v = if moved then none else d.held now r)

theorem sameData_iff_spared {d d' : Disk} (hd : d.Sound) (now : UInt64) {moved emptied : Prop}
    [Decidable moved] [Decidable emptied]
    (hsnap : d'.snapshot = if moved then none else d.snapshot)
    (hlog : d'.log = if emptied then some [] else d.log) :
    SameData now d d' ↔ d.Spared now moved emptied := by
  have hd' : d'.Sound := by
    by_cases hm : moved
    · exact Or.inl (by rw [hsnap, if_pos hm])
    · rcases hd with hd | ⟨count, es, hcount, hes, hd⟩
      · exact Or.inl (by rw [hsnap, if_neg hm, hd])
      · exact Or.inr ⟨count, es, hcount, hes, by rw [hsnap, if_neg hm, hd]⟩
  have hheld : ∀ r, d'.held now r = if moved then none else d.held now r := by
    intro r
    rw [Disk.held, hsnap]
    split_ifs <;> rfl
  have hlast : ∀ r, d'.lastLogged now r = if emptied then none else d.lastLogged now r := by
    intro r
    rw [Disk.lastLogged, hlog]
    split_ifs <;> rfl
  refine forall₂_congr fun r _ => ?_
  rw [view_rebuilt hd', view_rebuilt hd, hheld, hlast]
  by_cases hm : moved <;> by_cases he : emptied <;> cases d.lastLogged now r <;>
    simp [hm, he, eq_comm]

/-- **A compaction that cannot install its snapshot keeps the data exactly if nothing was lost
    with the log it replaces and the snapshot it moved.** -/
theorem failed_compaction_keeps_iff {fs : Fs} (htrace : fs.trace = []) (hd : fs.disk.Sound)
    (mode : Mode) (state : State) (schemas : DashMap Schema) {err : DbError}
    (hfail : (writeSnapshotFromMaps state schemas 0 fs).1 = .error err) (now : UInt64) :
    let fs' := (compactFromMaps mode state schemas fs).2
    SameData now fs.disk fs'.disk ↔
      fs.disk.Spared now (fs'.did .backupSnapshot) (fs'.did .installLog) := by
  intro fs'
  have hquiet : fs.Quiet fs.world fs.disk := ⟨rfl, rfl, rfl, by simp [htrace]⟩
  obtain ⟨fs₁, hrun⟩ : ∃ fs₁, writeSnapshotFromMaps state schemas 0 fs = (.error err, fs₁) :=
    ⟨_, Prod.ext hfail rfl⟩
  have hnot := (wp_of_error (hquiet.wp_writeSnapshotFromMaps state schemas 0) hrun).1
  have hswap : Fs.Swapping fs₁ fs' := by
    refine wp_final (m := compactFromMaps mode state schemas) ?_
    simp only [compactFromMaps, wp_bind, wp_outcome]
    rw [wp, hrun]
    exact wp_swapLog hnot.noSwap mode
  refine sameData_iff_spared hd now ?_ ?_
  · rw [hswap.snapshot, hnot.snapshot]
    simp only [hswap.did_backup]
  · rw [hswap.log, hnot.log]

section

omit [Crates]

/-- The files of a database with one transaction in the log and no snapshot; the file operations
    at the ticks `faults` fail. -/
def oneTxFs (faults : List ℕ) : Fs :=
  ⟨⟨some (logBytes (insertTx "tx1" "a").entries), none, none, none⟩, World.plain 0 faults, 0, []⟩

/-- The documents in memory after the transaction. -/
def oneTxState : State :=
  (∅ : State).insert "c" ((∅ : DashMap Bytes).insert "a" (valueToMsgpack (.obj [])))

theorem oneTxFs_sound (faults : List ℕ) : @Disk.Sound Crates.plain (oneTxFs faults).disk :=
  Or.inl rfl

theorem failed_compaction_keeps_iff_one :
    @SameData Crates.plain 0 (oneTxFs [0]).disk
        (@compactFromMaps Crates.plain .sync oneTxState ∅ (oneTxFs [0])).2.disk ↔
      @Disk.Spared Crates.plain (oneTxFs [0]).disk 0
        ((@compactFromMaps Crates.plain .sync oneTxState ∅ (oneTxFs [0])).2.did .backupSnapshot)
        ((@compactFromMaps Crates.plain .sync oneTxState ∅ (oneTxFs [0])).2.did .installLog)
        inferInstance :=
  @failed_compaction_keeps_iff Crates.plain (oneTxFs [0]) rfl (oneTxFs_sound [0]) .sync oneTxState ∅
    .writeError (by decide +kernel) 0

/-- **A failed compaction destroys data.** The temporary snapshot cannot be opened, the log is
    emptied all the same, and the document in it is gone. -/
theorem failed_compaction_loses :
    ∃ (fs : Fs) (state : State) (err : DbError), fs.trace = [] ∧
      @Disk.Sound Crates.plain fs.disk ∧
      (@writeSnapshotFromMaps Crates.plain state ∅ 0 fs).1 = .error err ∧
      ∀ mode, ¬ @SameData Crates.plain 0 fs.disk
        (@compactFromMaps Crates.plain mode state ∅ fs).2.disk := by
  refine ⟨oneTxFs [0], oneTxState, .writeError, rfl, oneTxFs_sound [0], by decide +kernel,
    fun mode h => ?_⟩
  have hbefore : (@Disk.rebuilt Crates.plain (oneTxFs [0]).disk 0).state.bytes "c" "a" =
      some (valueToMsgpack (.obj [])) := by decide +kernel
  have hafter : (@Disk.rebuilt Crates.plain
      (@compactFromMaps Crates.plain mode oneTxState ∅ (oneTxFs [0])).2.disk 0).state.bytes "c" "a" =
        none := by
    rcases mode with _ | _ | _ <;> decide +kernel
  have hview := h (.doc "c" "a") trivial
  simp only [Recovered.view, hbefore, hafter] at hview
  cases hview

end

end MoltenDB
