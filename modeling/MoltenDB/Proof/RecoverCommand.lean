/-
  The `recover` command writes an empty snapshot.

  Recovered documents carry the name in memory of the command `INSERT`, which the
  command does not look for, and it passes no schemas on.  So what it writes is what was
  recovered only if nothing was (`recover_command_iff`).
-/
import MoltenDB.Proof.Crash
import MoltenDB.Server.Recover

namespace MoltenDB

open Wire Prog Prog.Eff LogCommand

/-- The maps hold the document of each `INSERT` and the schema of each `SCHEMA` among the
    entries, and nothing else. -/
structure HoldsRecovered (state : State) (schemas : DashMap Schema) (es : List LogEntry) :
    Prop where
  docs : ∀ c k, (state.bytes c k).map msgpackToValue =
    (es.find? fun e => e.cmd = IKEY_INSERT ∧ e.collection = c ∧ e.key = k).map
      fun e => some e.value
  schemas : ∀ c : String, schemas[c]?.map Schema.value =
    (es.find? fun e => e.cmd = SCHEMA ∧ e.collection = c).map LogEntry.value

/-- Nothing is recovered from entries of other commands. -/
theorem recoverState_eq_empty (toVec : Json → Option Bytes) {es : List LogEntry}
    (h : ∀ e ∈ es, e.cmd = IKEY_INSERT ∨ e.cmd = SCHEMA) : recoverState toVec es = ∅ := by
  rw [recoverState]
  induction es with
  | nil => rfl
  | cons e es ih =>
    have hstep : recoverStep toVec ∅ e = ∅ := by
      have hcmd : e.cmd ≠ "INSERT" ∧ e.cmd ≠ "DELETE" := by
        rcases h e List.mem_cons_self with hcmd | hcmd <;> rw [hcmd] <;> decide
      rw [recoverStep, if_neg hcmd.1, if_neg hcmd.2]
    rw [List.foldl_cons, hstep]
    exact ih fun e' he' => h e' (List.mem_cons_of_mem _ he')

variable [Crates]

/-- The command writes what was recovered: the maps it passes on hold it, and so do those that
    are loaded from its output if no file operation failed. -/
structure WritesRecovered (toVec : Json → Option Bytes) (es : List LogEntry) : Prop where
  maps : HoldsRecovered (recoverState toVec es) recoverSchemaMap es
  output : ∀ (d : Disk) (w : World), w.Calm →
    wp (recoverOutput toVec es) (fun out _ => ∀ now,
        HoldsRecovered (Disk.rebuilt ⟨none, none, some out, none⟩ now).state
          (Disk.rebuilt ⟨none, none, some out, none⟩ now).schemas es)
      (fun _ _ => False) ⟨d, w, 0, []⟩

omit [Crates] in
theorem holdsRecovered_nil : HoldsRecovered ∅ ∅ [] :=
  ⟨fun c k => by simp [State.bytes], fun c => by simp⟩

/-- A snapshot of empty maps is loaded as empty maps. -/
theorem rebuilt_snapshot_empty {es : List LogEntry} (h : Enumerates ∅ ∅ es) (now : UInt64) :
    Disk.rebuilt ⟨none, none, some (snapshotFile 0 (entryCount ∅ ∅) es), none⟩ now = .empty := by
  have hcount : entryCount ∅ ∅ = 0 := rfl
  have hlen := length_enumerates h
  rw [hcount, Nat.le_zero, List.length_eq_zero_iff] at hlen
  subst hlen
  rw [Disk.rebuilt, Disk.entries, hcount, streamLogInto_snapshotFile (by simp) (by norm_num)]
  rfl

theorem writesRecovered_nil (toVec : Json → Option Bytes) : WritesRecovered toVec [] := by
  refine ⟨holdsRecovered_nil, fun d w hw => ?_⟩
  simp only [recoverOutput, wp_bind, wp_get]
  refine wp_mono (wp_compactFromMaps_calm hw _ _) (fun _ fs' h' => ?_) (fun _ _ h => h)
  obtain ⟨es, hes, -, hsnap, -⟩ := h'
  rw [hsnap]
  intro now
  rw [show recoverState toVec [] = ∅ from rfl, show recoverSchemaMap = ∅ from rfl] at hes ⊢
  rw [rebuilt_snapshot_empty hes now]
  exact holdsRecovered_nil

/-- Recovered entries are documents and schemas. -/
theorem cmd_of_recoverTo {stream : LogStream} {toTime toSeq : Option UInt64} {fs : Fs}
    {es : List LogEntry} (h : (recoverTo stream toTime toSeq fs).1 = .ok es) :
    ∀ e ∈ es, e.cmd = IKEY_INSERT ∨ e.cmd = SCHEMA := by
  have hrun : recoverTo stream toTime toSeq fs = (.ok es, (recoverTo stream toTime toSeq fs).2) :=
    Prod.ext h rfl
  obtain ⟨now, henum⟩ := wp_of_ok (wp_recoverTo stream toTime toSeq fs) hrun
  intro e he
  have hcmd : e.cmd = e.unstamped.cmd := rfl
  rcases (mem_enumerates henum).1 (List.mem_map_of_mem he) with ⟨c, k, b, -, hdoc⟩ | ⟨c, s, -, hs⟩
  · obtain ⟨v, -, hv⟩ := Option.map_eq_some_iff.1 hdoc
    left
    rw [hcmd, ← hv]
  · right
    rw [hcmd, ← hs]
    rfl

/-- What was recovered is not in the maps that are passed on. -/
theorem not_writesRecovered (toVec : Json → Option Bytes) {es : List LogEntry}
    (h : ∀ e ∈ es, e.cmd = IKEY_INSERT ∨ e.cmd = SCHEMA) {e : LogEntry} (he : e ∈ es) :
    ¬ WritesRecovered toVec es := by
  intro hwrites
  rcases h e he with hcmd | hcmd
  · have hdocs := hwrites.maps.docs e.collection e.key
    rw [recoverState_eq_empty toVec h] at hdocs
    have hnone := Option.map_eq_none_iff.1 (hdocs.symm.trans (by simp [State.bytes]))
    exact List.find?_eq_none.1 hnone e he (by simp [hcmd])
  · have hschemas := hwrites.maps.schemas e.collection
    have hnone := Option.map_eq_none_iff.1 (hschemas.symm.trans (by simp [recoverSchemaMap]))
    exact List.find?_eq_none.1 hnone e he (by simp [hcmd])

/-- **The command writes what was recovered exactly if nothing was.** -/
theorem recover_command_iff (toVec : Json → Option Bytes) {stream : LogStream}
    {toTime toSeq : Option UInt64} {fs : Fs} {es : List LogEntry}
    (h : (recoverTo stream toTime toSeq fs).1 = .ok es) : WritesRecovered toVec es ↔ es = [] := by
  constructor
  · intro hwrites
    refine List.eq_nil_iff_forall_not_mem.2 fun e he => ?_
    exact not_writesRecovered toVec (cmd_of_recoverTo h) he hwrites
  · rintro rfl
    exact writesRecovered_nil toVec

section

omit [Crates]

/-- The entry that is recovered from a log with one transaction. -/
def recoveredDoc : LogEntry := ⟨IKEY_INSERT, "c", "a", .obj [], 3⟩

theorem recoverTo_oneTx :
    (@recoverTo Crates.plain (@SyncDiskStorage.streamLogInto Crates.plain none
        (some (logBytes (insertTx "tx1" "a").entries))) none none (oneTxFs [])).1 =
      .ok [recoveredDoc] := by
  decide +kernel

theorem recover_command_iff_oneTx :
    @WritesRecovered Crates.plain (fun _ => none) [recoveredDoc] ↔ [recoveredDoc] = [] :=
  @recover_command_iff Crates.plain (fun _ => none) _ none none (oneTxFs []) _ recoverTo_oneTx

/-- **The recovered document is not written.** -/
theorem recover_command_writes_nothing :
    ∃ (stream : LogStream) (fs : Fs) (es : List LogEntry),
      (@recoverTo Crates.plain stream none none fs).1 = .ok es ∧
        ∀ toVec, ¬ @WritesRecovered Crates.plain toVec es := by
  refine ⟨_, oneTxFs [], [recoveredDoc], recoverTo_oneTx, fun toVec => ?_⟩
  refine @not_writesRecovered Crates.plain toVec [recoveredDoc] ?_ recoveredDoc
    (List.mem_singleton.2 rfl)
  intro e he
  rw [List.mem_singleton.1 he]
  exact Or.inl rfl

end

end MoltenDB
