/-
  What the storage of the build for the browser reads and writes.

  Of a file that was cut anywhere the entries that are whole are read, and the worker does not
  panic (`streamLogInto_of_prefix`).  A compaction writes the entries of a snapshot, each of them
  stamped with the time (`wp_compactEntries`), in chunks that end with an entry.
-/
import MoltenDB.Engine.Steps
import MoltenDB.Engine.Storage.DiskSteps
import MoltenDB.Engine.Storage.Opfs
import MoltenDB.Proof.Crash

namespace MoltenDB

open Wire Prog Prog.Eff LogCommand
open Buffer (Res slice)

theorem Wasm.usizeAdd_eq {a b : ℕ} (h : a + b < 2 ^ 32) : Wasm.usizeAdd a b = a + b := Nat.mod_eq_of_lt h

namespace OpfsStorage

/-! ## Reading -/

/-- The windows are all of the file. -/
theorem readLoop_eq {file : Bytes} (hfile : file.length < 2 ^ 32) (fuel offset : ℕ)
    (hfuel : file.length - offset < fuel) (hoffset : offset ≤ file.length) :
    readLoop file file.length fuel offset (file.take offset) = .ok file := by
  induction fuel generalizing offset with
  | zero => omega
  | succ fuel ih =>
    rw [readLoop]
    split_ifs with h
    · dsimp only
      have hread : 0 < min (file.length - offset) chunkSize := by
        simp only [chunkSize]
        omega
      have hle : offset + min (file.length - offset) chunkSize ≤ file.length := by omega
      rw [Wasm.usizeAdd_eq (by omega), ← List.take_add]
      exact ih _ (by omega) hle
    · rw [List.take_of_length_le (by omega)]

section

variable [Crates]

/-- From a position at the start of a record on, the records are read that are whole. -/
theorem streamLoop_of_prefix {buf : Bytes} {D : List LogEntry} (hD : ∀ e ∈ D, e.Short) (fuel pos : ℕ)
    (hpos : pos ≤ buf.length) (hbuf : buf.drop pos <+: logBytes D)
    (hsize : pos + (logBytes D).length + 4 < 2 ^ 32) (hfuel : buf.length - pos < fuel) :
    ∃ k ≤ D.length, streamLoop buf fuel pos = .ok ((D.take k).map LogEntry.canon) ∧
      ∀ n ≤ D.length, pos + (logBytes (D.take n)).length ≤ buf.length → n ≤ k := by
  induction D generalizing fuel pos with
  | nil =>
    obtain ⟨fuel, rfl⟩ : ∃ m, fuel = m + 1 := ⟨fuel - 1, by omega⟩
    have hend : buf.length ≤ pos := List.drop_eq_nil_iff.1 (List.prefix_nil.1 hbuf)
    refine ⟨0, le_rfl, ?_, fun n hn _ => hn⟩
    rw [streamLoop, Wasm.usizeAdd_eq (by omega), if_neg (by omega)]
    rfl
  | cons e D ih =>
    obtain ⟨fuel, rfl⟩ : ∃ m, fuel = m + 1 := ⟨fuel - 1, by omega⟩
    have hlen := (hD e List.mem_cons_self).length
    have hframe : e.framed = leBytes 4 (logEntryToMsgpack e).length ++ logEntryToMsgpack e := rfl
    have hcons : logBytes (e :: D) = e.framed ++ logBytes D := List.flatMap_cons
    have hframed : e.framed.length = 4 + (logEntryToMsgpack e).length := length_frame _
    rw [hcons, List.length_append] at hsize
    rw [hcons] at hbuf
    -- the file ends inside of the record
    have htorn : ∀ n ≤ (e :: D).length, buf.length < pos + e.framed.length →
        pos + (logBytes ((e :: D).take n)).length ≤ buf.length → n ≤ 0 := by
      intro n _ hlt hle
      by_contra hn
      obtain ⟨n, rfl⟩ : ∃ m, n = m + 1 := ⟨n - 1, by omega⟩
      rw [List.take_succ_cons, show logBytes (e :: D.take n) = e.framed ++ logBytes (D.take n) from
        List.flatMap_cons, List.length_append] at hle
      omega
    rw [streamLoop, Wasm.usizeAdd_eq (by omega)]
    split_ifs with hhead
    · -- the header is whole
      have hhdr : slice buf pos (pos + 4) = .ok (leBytes 4 (logEntryToMsgpack e).length) := by
        rw [slice, if_pos ⟨by omega, hhead⟩, Nat.add_sub_cancel_left]
        congr 1
        have htake := List.IsPrefix.take hbuf 4
        rw [hframe, List.append_assoc, List.take_left' (by simp)] at htake
        exact htake.eq_of_length (by rw [List.length_take, List.length_drop]; simp; omega)
      rw [hhdr, Res.ok_bind]
      dsimp only
      rw [ofLe_leBytes, Nat.mod_eq_of_lt (by norm_num at hlen ⊢; omega), Wasm.usizeAdd_eq (by omega)]
      split_ifs with hwhole
      · exact ⟨0, Nat.zero_le _, rfl, fun n hn => htorn n hn (by omega)⟩
      · -- and so is the record
        have hdata : slice buf (pos + 4) (pos + 4 + (logEntryToMsgpack e).length) =
            .ok (logEntryToMsgpack e) := by
          rw [slice, if_pos ⟨by omega, by omega⟩, Nat.add_sub_cancel_left]
          congr 1
          have htake := List.IsPrefix.take (List.IsPrefix.drop hbuf 4) (logEntryToMsgpack e).length
          rw [List.drop_drop, hframe, List.append_assoc, List.drop_left' (by simp),
            List.take_left' rfl] at htake
          exact htake.eq_of_length (by rw [List.length_take, List.length_drop]; omega)
        have hrest : buf.drop (pos + e.framed.length) <+: logBytes D := by
          have hdrop := List.IsPrefix.drop hbuf e.framed.length
          rwa [List.drop_drop, List.drop_left' rfl] at hdrop
        obtain ⟨k, hk, hrun, hmax⟩ := ih (fun e' he' => hD e' (List.mem_cons_of_mem _ he'))
          fuel (pos + e.framed.length) (by omega) hrest (by omega) (by omega)
        rw [hframed, ← Nat.add_assoc] at hrun
        refine ⟨k + 1, by simpa using hk, ?_, fun n hn hle => ?_⟩
        · rw [hdata, Res.ok_bind, hrun, Res.ok_bind,
            logEntryFromMsgpack_logEntryToMsgpack (hD e List.mem_cons_self).fits]
          rfl
        · cases n with
          | zero => exact Nat.zero_le _
          | succ n =>
            rw [List.take_succ_cons, show logBytes (e :: D.take n) = e.framed ++ logBytes (D.take n)
              from List.flatMap_cons, List.length_append] at hle
            exact Nat.succ_le_succ (hmax n (by simpa using hn) (by omega))
    · exact ⟨0, Nat.zero_le _, rfl, fun n hn => htorn n hn (by omega)⟩

/-- **Of a file that was cut, the first entries are read**, all that are whole, without a panic. -/
theorem streamLogInto_of_prefix {D : List LogEntry} (hD : ∀ e ∈ D, e.Short) {file : Bytes}
    (h : file <+: logBytes D) (hsize : (logBytes D).length + 4 < 2 ^ 32) :
    ∃ k ≤ D.length, streamLogInto file = .ok ((D.take k).map LogEntry.canon) ∧
      ∀ n ≤ D.length, (logBytes (D.take n)).length ≤ file.length → n ≤ k := by
  have hle := h.length_le
  obtain ⟨k, hk, hrun, hmax⟩ := streamLoop_of_prefix hD (file.length + 1) 0 (Nat.zero_le _) h
    (by omega) (by omega)
  simp only [Nat.zero_add] at hmax
  refine ⟨k, hk, ?_, hmax⟩
  rw [streamLogInto, min_eq_left (by omega)]
  split_ifs with hnil
  · obtain rfl := List.eq_nil_of_length_eq_zero hnil
    exact hrun
  · have hread := @readLoop_eq file (by omega) (file.length + 1) 0 (by omega)
      (Nat.zero_le _)
    rw [List.take_zero] at hread
    rw [hread, Res.ok_bind]
    exact hrun

end

/-! ## Writing -/

theorem writeAt_end (file data : Bytes) : writeAt file file.length data = file ++ data := by
  rw [writeAt, List.take_length, List.drop_of_length_le (by omega), List.append_nil]

/-- A buffer is written to the end of the file. -/
theorem writeBuffer_end {file : Bytes} {w : Writer} (h : w.offset = file.length) :
    writeBuffer file w = (file ++ w.buffer, ⟨(file ++ w.buffer).length, []⟩) := by
  obtain ⟨offset, buffer⟩ := w
  obtain rfl : offset = file.length := h
  rw [writeBuffer]
  split_ifs with hnil
  · obtain rfl : buffer = [] := hnil
    rw [List.append_nil]
  · rw [writeAt_end, List.length_append]

/-- **An entry is buffered**, or written with all that was. -/
theorem pushEntry_cases {file : Bytes} {w : Writer} (h : w.offset = file.length) (e : LogEntry) :
    pushEntry file w e = (file, ⟨file.length, w.buffer ++ e.framed⟩) ∨
      chunkSize ≤ (w.buffer ++ e.framed).length ∧ pushEntry file w e =
        (file ++ (w.buffer ++ e.framed), ⟨(file ++ (w.buffer ++ e.framed)).length, []⟩) := by
  rw [pushEntry]
  split_ifs with hfull
  · exact Or.inr ⟨hfull, writeBuffer_end h⟩
  · exact Or.inl (by rw [h])

/-! ## Compaction -/

end OpfsStorage

/-- The entry as a snapshot on disk has it. -/
def LogEntry.inSnapshot (e : LogEntry) : LogEntry :=
  { e with cmd := if e.cmd = IKEY_SCHEMA then SCHEMA else e.cmd, _t := 0 }

namespace OpfsStorage

variable {db : Db}

theorem wp_docEntries (c : String) (docs : List (String × Bytes)) :
    wp (docEntries c docs) (fun es db' => es.map LogEntry.inSnapshot = docs.filterMap (docEntry c) ∧
      ∃ n, db' = { db with tick := n }) (fun _ _ => False) db := by
  induction docs generalizing db with
  | nil => exact ⟨rfl, db.tick, rfl⟩
  | cons doc docs ih =>
    obtain ⟨k, bytes⟩ := doc
    rw [docEntries]
    cases hv : msgpackToValue bytes with
    | none =>
      rw [List.filterMap_cons_none (by simp [docEntry, hv])]
      exact ih
    | some v =>
      simp only [wp_bind, wp_pure]
      refine wp_nowMs fun t n => wp_mono ih (fun es db' h => ?_) fun _ _ h => h
      obtain ⟨hes, m, rfl⟩ := h
      rw [List.filterMap_cons_some (b := ⟨IKEY_INSERT, c, k, v, 0⟩) (by simp [docEntry, hv]),
        List.map_cons, hes]
      exact ⟨rfl, m, rfl⟩

theorem wp_collectionEntries (cols : List (String × DashMap Bytes)) :
    wp (collectionEntries cols) (fun es db' => DocEntries cols (es.map LogEntry.inSnapshot) ∧
      ∃ n, db' = { db with tick := n }) (fun _ _ => False) db := by
  induction cols generalizing db with
  | nil => exact ⟨.nil, db.tick, rfl⟩
  | cons p cols ih =>
    obtain ⟨c, col⟩ := p
    simp only [collectionEntries, wp_bind, wp_pure]
    refine wp_walk fun ks n hks => wp_mono (wp_docEntries c _) (fun es db₁ h₁ => ?_) fun _ _ h => h
    obtain ⟨hes, m, rfl⟩ := h₁
    refine wp_mono ih (fun rest db₂ h₂ => ?_) fun _ _ h => h
    obtain ⟨hrest, l, rfl⟩ := h₂
    rw [List.map_append, hes]
    exact ⟨.cons hks hrest, l, rfl⟩

theorem wp_schemaEntries (schemas : List (String × Schema)) :
    wp (schemaEntries schemas) (fun es db' => es.map LogEntry.inSnapshot = schemas.map schemaEntry ∧
      ∃ n, db' = { db with tick := n }) (fun _ _ => False) db := by
  induction schemas generalizing db with
  | nil => exact ⟨rfl, db.tick, rfl⟩
  | cons p schemas ih =>
    obtain ⟨c, schema⟩ := p
    simp only [schemaEntries, wp_bind, wp_pure]
    refine wp_nowMs fun t n => wp_mono ih (fun es db' h => ?_) fun _ _ h => h
    obtain ⟨hes, m, rfl⟩ := h
    rw [List.map_cons, hes]
    exact ⟨rfl, m, rfl⟩

/-- **A compaction writes the entries of a snapshot of the maps.** -/
theorem wp_compactEntries (state : State) (schemas : DashMap Schema) :
    wp (compactEntries state schemas) (fun es db' =>
      Enumerates state schemas (es.map LogEntry.inSnapshot) ∧ ∃ n, db' = { db with tick := n })
      (fun _ _ => False) db := by
  simp only [compactEntries, wp_bind, wp_pure]
  refine wp_walk fun cs n hcs => wp_mono (wp_collectionEntries _) (fun docs db₁ h₁ => ?_)
    fun _ _ h => h
  obtain ⟨hdocs, m, rfl⟩ := h₁
  refine wp_walk fun ss l hss => wp_mono (wp_schemaEntries _) (fun rest db₂ h₂ => ?_) fun _ _ h => h
  obtain ⟨hrest, i, rfl⟩ := h₂
  refine ⟨⟨cs, _, ss, hcs, hdocs, hss, ?_⟩, i, rfl⟩
  rw [List.map_append, hrest]

end OpfsStorage

/-! ### What the entries of a compaction write -/

/-- The register that an entry of a compaction is about. -/
def LogEntry.reg (e : LogEntry) : Reg :=
  if LogCommand.canon e.cmd = IKEY_SCHEMA then .schema e.collection else .doc e.collection e.key

variable [Crates] {m : Recovered} {es : List LogEntry}

omit [Crates] in
theorem LogEntry.canon_cmd_inSnapshot (e : LogEntry) :
    LogCommand.canon e.inSnapshot.cmd = LogCommand.canon e.cmd := by
  simp only [LogEntry.inSnapshot]
  split_ifs with hcmd
  · rw [hcmd]
    decide
  · rfl

theorem LogEntry.writes_inSnapshot (e : LogEntry) (now : UInt64) (r : Reg) :
    e.inSnapshot.canon.writes now r = e.canon.writes now r := by
  simp only [LogEntry.canon, e.canon_cmd_inSnapshot]
  rfl

omit [Crates] in
/-- An entry of a compaction is no marker of a transaction. -/
theorem isOp_compacted (h : Enumerates m.state m.schemas (es.map LogEntry.inSnapshot)) {e : LogEntry}
    (he : e ∈ es) : canon e.cmd ≠ IKEY_TX_BEGIN ∧ canon e.cmd ≠ IKEY_TX_COMMIT := by
  rw [← e.canon_cmd_inSnapshot]
  rcases (mem_enumerates h).1 (List.mem_map_of_mem he) with ⟨c, k, b, -, hdoc⟩ | ⟨c, s, -, hsch⟩
  · obtain ⟨x, -, hentry⟩ := Option.map_eq_some_iff.1 hdoc
    rw [← hentry]
    show canon IKEY_INSERT ≠ IKEY_TX_BEGIN ∧ canon IKEY_INSERT ≠ IKEY_TX_COMMIT
    decide
  · rw [← hsch]
    show canon SCHEMA ≠ IKEY_TX_BEGIN ∧ canon SCHEMA ≠ IKEY_TX_COMMIT
    decide

/-- An entry of a compaction writes what the maps hold, and nothing else. -/
theorem writes_compacted (h : Enumerates m.state m.schemas (es.map LogEntry.inSnapshot))
    (hcomp : ∀ (c : String) (s : Schema), m.schemas[c]? = some s → Compiles s.value) {e : LogEntry}
    (he : e ∈ es) (now : UInt64) (r : Reg) :
    e.canon.writes now r = if r = e.reg then some (m.shot r) else none := by
  rw [← e.writes_inSnapshot]
  rcases (mem_enumerates h).1 (List.mem_map_of_mem he) with ⟨c, k, b, hb, hdoc⟩ | ⟨c, s, hs, hsch⟩
  · obtain ⟨x, hx, hentry⟩ := Option.map_eq_some_iff.1 hdoc
    have hreg : e.reg = .doc c k := by
      have hcmd := congrArg LogEntry.cmd hentry
      have hcol := congrArg LogEntry.collection hentry
      have hkey := congrArg LogEntry.key hentry
      simp only [LogEntry.inSnapshot] at hcmd hcol hkey
      rw [LogEntry.reg, ← hcol, ← hkey]
      split_ifs at hcmd with hschema
      · exact absurd hcmd (by decide)
      · rw [← hcmd, if_neg (by decide)]
    rw [writes_docEntry now hdoc hx, hreg]
    split_ifs with hr
    · rw [hr]
      simp [Recovered.shot, Recovered.view, hb, hx, Held.readBack]
    · rfl
  · have hreg : e.reg = .schema c := by
      have hcmd := congrArg LogEntry.cmd hsch
      have hcol := congrArg LogEntry.collection hsch
      simp only [LogEntry.inSnapshot, schemaEntry] at hcmd hcol
      rw [LogEntry.reg, ← hcol]
      split_ifs at hcmd with hschema
      · rw [hschema, if_pos (by decide)]
      · rw [← hcmd, if_pos (by decide)]
    obtain ⟨p, hp⟩ := (hcomp c s hs).2
    rw [← hsch, writes_schemaEntry, hreg]
    split_ifs with hr
    · rw [hr]
      simp [Recovered.shot, Recovered.view, hs, compiled, hp, Held.readBack]
    · rfl

/-- The entries of a compaction that come first write what the maps hold there, if it is data. -/
theorem replay_compacted (h : Enumerates m.state m.schemas (es.map LogEntry.inSnapshot))
    (hcomp : ∀ (c : String) (s : Schema), m.schemas[c]? = some s → Compiles s.value)
    {first : List LogEntry} (hfirst : first ⊆ es) (now : UInt64) (r : Reg) :
    Overwrite.replay (LogEntry.writes now) (fun _ => none) (first.map LogEntry.canon) r =
      if r ∈ first.map LogEntry.reg then m.shot r else none := by
  rw [Overwrite.replay_map_of_own fun e he => writes_compacted h hcomp (hfirst he) now r]

/-- The entries of a compaction are about all data in the maps. -/
theorem mem_reg_of_shot (h : Enumerates m.state m.schemas (es.map LogEntry.inSnapshot))
    (hcomp : ∀ (c : String) (s : Schema), m.schemas[c]? = some s → Compiles s.value) {r : Reg}
    (hr : r.IsData) (hne : m.shot r ≠ none) : r ∈ es.map LogEntry.reg := by
  have hread := replay_snapshot h 0 r
  rw [List.map_map, Overwrite.replay_map_of_own fun e he =>
    (e.writes_inSnapshot 0 r).trans (writes_compacted h hcomp he 0 r),
    Recovered.reread_eq_shot hcomp hr] at hread
  by_contra hnot
  rw [if_neg hnot] at hread
  exact hne hread.symm

end MoltenDB
