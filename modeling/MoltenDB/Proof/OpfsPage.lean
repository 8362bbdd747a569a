/-
  Kills of a page that keeps its database in the browser.

  After a kill a new page finds what some of the first transactions since the last compaction
  wrote, over what that compaction has written of its entries (`killed_page`).  If it has written
  them all, that is the state after some of the first transactions; one that was killed or refused
  a write in the middle has lost the other documents, as the file was truncated first.
-/
import MoltenDB.Proof.AsyncCrash
import MoltenDB.Proof.OpfsReads

namespace MoltenDB

open Wire OpfsStorage LogCommand
open Buffer (Res)

/-- A compaction under way, with the entries that it still has to encode. -/
structure Compacting where
  writer : Writer
  left : List LogEntry

/-- A page: its storage, and its transactions. -/
structure Page where
  storage : OpfsStorage
  /-- The transactions that have changed the maps. -/
  begun : List Transaction
  /-- The entries of the last one that are still to be written. -/
  rest : List LogEntry
  compacting : Option Compacting
  /-- How many transactions there were at the last compaction. -/
  cut : ℕ
  /-- The entries of the last compaction that are in the file. -/
  written : List LogEntry
  /-- Those that are not, or not yet. -/
  missing : List LogEntry

section

variable [Crates]

namespace Page

def maps (n : Page) : Recovered := mapsAfter n.begun

/-- The states of a page that runs transactions and compactions one after another, and whose log
    takes all entries.  The file fits the 32-bit sizes of the reader. -/
inductive Reachable : Page → Prop
  | start : Reachable ⟨⟨[], true⟩, [], [], none, 0, [], []⟩
  | begin {n : Page} (w : Transaction) (hshort : ∀ e ∈ w.entries, e.Short)
    (hops : ∀ e ∈ w.ops, Durable e) (hopen : n.storage.isOpen = true) (hrest : n.rest = [])
    (hidle : n.compacting = none) (h : Reachable n) :
    Reachable { n with begun := n.begun ++ [w], rest := w.entries }
  | log {n : Page} {e : LogEntry} {rest : List LogEntry} {storage : OpfsStorage}
    (hrest : n.rest = e :: rest) (hwrite : n.storage.writeEntry e = .ok storage)
    (hsize : storage.file.length + 4 < 2 ^ 32) (h : Reachable n) :
    Reachable { n with storage := storage, rest := rest }
  /-- A compaction truncates the file. -/
  | compact {n : Page} {es : List LogEntry} (hopen : n.storage.isOpen = true) (hrest : n.rest = [])
    (hidle : n.compacting = none)
    (hes : Enumerates n.maps.state n.maps.schemas (es.map LogEntry.inSnapshot))
    (hsize : (logBytes es).length + 4 < 2 ^ 32) (h : Reachable n) : Reachable { n with
      storage := { n.storage with file := [] }
      compacting := some ⟨⟨0, []⟩, es⟩
      cut := n.begun.length
      written := []
      missing := es }
  | push {n : Page} {w w' : Writer} {e : LogEntry} {left : List LogEntry} {file : Bytes}
    (hjob : n.compacting = some ⟨w, e :: left⟩) (hpush : pushEntry n.storage.file w e = (file, w'))
    (h : Reachable n) : Reachable { n with
      storage := { n.storage with file := file }
      compacting := some ⟨w', left⟩
      written := if w'.buffer = [] then
        n.written ++ n.missing.take (n.missing.length - left.length) else n.written
      missing := if w'.buffer = [] then left else n.missing }
  | finish {n : Page} {w : Writer} (hjob : n.compacting = some ⟨w, []⟩) (h : Reachable n) :
    Reachable { n with
      storage := { n.storage with file := (writeBuffer n.storage.file w).1 }
      compacting := none
      written := n.written ++ n.missing
      missing := [] }
  /-- A write of the compaction is refused. -/
  | fail {n : Page} {c : Compacting} (hjob : n.compacting = some c) (h : Reachable n) :
    Reachable { n with compacting := none }
  /-- `clear_opfs`, and the maps are emptied. -/
  | clear {n : Page} {storage : OpfsStorage} (hrest : n.rest = []) (hidle : n.compacting = none)
    (hclear : n.storage.truncateAndClose = .ok storage) (h : Reachable n) : Reachable { n with
      storage := storage
      begun := []
      cut := 0
      written := []
      missing := [] }

/-- The files that a kill of the page may leave: the file as it is, or after a part of the write
    that comes next. -/
inductive Leaves : Page → Bytes → Prop
  | whole {n : Page} : Leaves n n.storage.file
  | entry {n : Page} {e : LogEntry} {rest : List LogEntry} (hrest : n.rest = e :: rest)
    (hsize : (n.storage.file ++ e.framed).length + 4 < 2 ^ 32) (i : ℕ) :
    Leaves n (writeAt n.storage.file n.storage.file.length (e.framed.take i))
  | chunk {n : Page} {w : Writer} {e : LogEntry} {left : List LogEntry}
    (hjob : n.compacting = some ⟨w, e :: left⟩) (hfull : chunkSize ≤ (w.buffer ++ e.framed).length)
    (i : ℕ) : Leaves n (writeAt n.storage.file w.offset ((w.buffer ++ e.framed).take i))
  | last {n : Page} {w : Writer} (hjob : n.compacting = some ⟨w, []⟩) (i : ℕ) :
    Leaves n (writeAt n.storage.file w.offset (w.buffer.take i))

/-- The compaction has entries left in the buffer, and others to encode. -/
structure Buffers (n : Page) (c : Compacting) : Prop where
  rest : n.rest = []
  cut : n.cut = n.begun.length
  offset : c.writer.offset = n.storage.file.length
  missing : ∃ buffered, n.missing = buffered ++ c.left ∧ c.writer.buffer = logBytes buffered
  size : (logBytes (n.written ++ n.missing)).length + 4 < 2 ^ 32

structure Inv (n : Page) : Prop where
  txs : ∀ w ∈ n.begun, (∀ e ∈ w.entries, e.Short) ∧ ∀ e ∈ w.ops, Durable e
  /-- The file holds what is written of the compaction, and the entries since. -/
  file : ∃ sent, sent ++ n.rest = (n.begun.drop n.cut).flatMap Transaction.entries ∧
    n.storage.file = logBytes (n.written ++ sent)
  cut : n.cut ≤ n.begun.length
  listed : Enumerates (mapsAfter (n.begun.take n.cut)).state (mapsAfter (n.begun.take n.cut)).schemas
    ((n.written ++ n.missing).map LogEntry.inSnapshot)
  short : ∀ e ∈ n.written ++ n.missing, e.Short
  size : n.storage.file.length + 4 < 2 ^ 32
  buffers : ∀ c, n.compacting = some c → n.Buffers c

variable {n : Page}

theorem enumerates_empty : Enumerates (mapsAfter []).state (mapsAfter []).schemas [] :=
  ⟨[], [], [], .refl _, .nil, .refl _, rfl⟩

omit [Crates] in
theorem length_framed_le {es : List LogEntry} {e : LogEntry} (he : e ∈ es) :
    e.framed.length ≤ (logBytes es).length := by
  obtain ⟨A, B, rfl⟩ := List.append_of_mem he
  rw [logBytes_append, List.length_append, show logBytes (e :: B) = e.framed ++ logBytes B from
    List.flatMap_cons, List.length_append]
  omega

omit [Crates] in
theorem short_of_length {es : List LogEntry} (h : (logBytes es).length + 4 < 2 ^ 32) :
    ∀ e ∈ es, e.Short := by
  intro e he
  have hle := length_framed_le he
  rw [LogEntry.framed, length_frame] at hle
  exact LogEntry.short_iff.2 (by omega)

/-- Nothing was written since the compaction. -/
theorem Buffers.file {c : Compacting} (hb : n.Buffers c) (h : n.Inv) :
    n.storage.file = logBytes n.written := by
  obtain ⟨sent, hsent, hfile⟩ := h.file
  rw [hb.rest, hb.cut, List.drop_length, List.append_nil] at hsent
  obtain rfl : sent = [] := hsent
  rwa [List.append_nil] at hfile

theorem Inv.begin (h : n.Inv) (w : Transaction) (hshort : ∀ e ∈ w.entries, e.Short)
    (hops : ∀ e ∈ w.ops, Durable e) (hrest : n.rest = []) (hidle : n.compacting = none) :
    Inv { n with begun := n.begun ++ [w], rest := w.entries } := by
  refine ⟨fun w' hw' => ?_, ?_, ?_, ?_, h.short, h.size, fun c hc => ?_⟩
  · rcases List.mem_append.1 hw' with hw' | hw'
    · exact h.txs w' hw'
    · obtain rfl := List.mem_singleton.1 hw'
      exact ⟨hshort, hops⟩
  · obtain ⟨sent, hsent, hfile⟩ := h.file
    rw [hrest, List.append_nil] at hsent
    refine ⟨sent, ?_, hfile⟩
    dsimp only
    rw [List.drop_append_of_le_length h.cut, List.flatMap_append, ← hsent]
    simp
  · exact h.cut.trans (by simp)
  · dsimp only
    rw [List.take_append_of_le_length h.cut]
    exact h.listed
  · rw [hidle] at hc
    cases hc

theorem Inv.log (h : n.Inv) {e : LogEntry} {rest : List LogEntry} {storage : OpfsStorage}
    (hrest : n.rest = e :: rest) (hwrite : n.storage.writeEntry e = .ok storage)
    (hsize : storage.file.length + 4 < 2 ^ 32) :
    Inv { n with storage := storage, rest := rest } := by
  obtain ⟨sent, hsent, hfile⟩ := h.file
  refine ⟨h.txs, ⟨sent ++ [e], ?_, ?_⟩, h.cut, h.listed, h.short, hsize, fun c hc => ?_⟩
  · rw [← hsent, hrest, List.append_assoc]
    rfl
  · rw [OpfsStorage.writeEntry] at hwrite
    split_ifs at hwrite
    obtain rfl := Except.ok.inj hwrite
    dsimp only
    rw [writeAt_end, hfile, ← List.append_assoc, logBytes_append _ [e]]
    simp [logBytes]
  · have hnil := (h.buffers c hc).rest
    rw [hrest] at hnil
    cases hnil

theorem Inv.compact (h : n.Inv) {es : List LogEntry} (hrest : n.rest = [])
    (hes : Enumerates n.maps.state n.maps.schemas (es.map LogEntry.inSnapshot))
    (hsize : (logBytes es).length + 4 < 2 ^ 32) : Inv { n with
      storage := { n.storage with file := [] }
      compacting := some ⟨⟨0, []⟩, es⟩
      cut := n.begun.length
      written := []
      missing := es } := by
  refine ⟨h.txs, ⟨[], ?_, rfl⟩, le_rfl, ?_, short_of_length hsize, by simp, ?_⟩
  · dsimp only
    rw [hrest, List.drop_length]
    rfl
  · dsimp only
    rw [List.take_length]
    exact hes
  · rintro c ⟨⟩
    exact ⟨hrest, rfl, rfl, ⟨[], rfl, rfl⟩, hsize⟩

theorem Inv.push (h : n.Inv) {w w' : Writer} {e : LogEntry} {left : List LogEntry} {file : Bytes}
    (hjob : n.compacting = some ⟨w, e :: left⟩) (hpush : pushEntry n.storage.file w e = (file, w')) :
    Inv { n with
      storage := { n.storage with file := file }
      compacting := some ⟨w', left⟩
      written := if w'.buffer = [] then
        n.written ++ n.missing.take (n.missing.length - left.length) else n.written
      missing := if w'.buffer = [] then left else n.missing } := by
  have hb := h.buffers _ hjob
  obtain ⟨buffered, hmissing, hbuffer⟩ := hb.missing
  have hfile := hb.file h
  have hone : w.buffer ++ e.framed = logBytes (buffered ++ [e]) := by
    rw [hbuffer, logBytes_append]
    simp [logBytes]
  have hne : w.buffer ++ e.framed ≠ [] := by
    have hlen := length_frame (logEntryToMsgpack e)
    rw [LogEntry.framed, ← List.length_pos_iff, List.length_append]
    omega
  have hsplit : n.missing = (buffered ++ [e]) ++ left := by
    rw [hmissing, List.append_assoc]
    rfl
  have hnil : n.begun.drop n.cut = [] := by rw [hb.cut, List.drop_length]
  have hsize := hb.size
  rcases pushEntry_cases hb.offset e with heq | ⟨-, heq⟩
  · obtain ⟨rfl, rfl⟩ := Prod.mk.inj (hpush.symm.trans heq)
    simp only [if_neg hne]
    refine ⟨h.txs, h.file, h.cut, h.listed, h.short, h.size, ?_⟩
    rintro c ⟨⟩
    exact ⟨hb.rest, hb.cut, rfl, ⟨buffered ++ [e], hsplit, hone⟩, hsize⟩
  · obtain ⟨rfl, rfl⟩ := Prod.mk.inj (hpush.symm.trans heq)
    have htake : n.missing.take (n.missing.length - left.length) = buffered ++ [e] := by
      rw [hsplit, List.length_append, Nat.add_sub_cancel, List.take_left' rfl]
    have hwhole : (n.written ++ (buffered ++ [e])) ++ left = n.written ++ n.missing := by
      rw [hsplit, List.append_assoc]
    simp only [if_true, htake]
    rw [hfile, hone, ← logBytes_append]
    refine ⟨h.txs, ⟨[], ?_, ?_⟩, h.cut, ?_, ?_, ?_, ?_⟩
    · rw [hb.rest, hnil]
      rfl
    · rw [List.append_nil]
    · rw [hwhole]
      exact h.listed
    · rw [hwhole]
      exact h.short
    · rw [← hwhole, logBytes_append _ left, List.length_append] at hsize
      dsimp only
      omega
    · rintro c ⟨⟩
      refine ⟨hb.rest, hb.cut, rfl, ⟨[], rfl, rfl⟩, ?_⟩
      rw [hwhole]
      exact hsize

theorem Inv.finish (h : n.Inv) {w : Writer} (hjob : n.compacting = some ⟨w, []⟩) : Inv { n with
      storage := { n.storage with file := (writeBuffer n.storage.file w).1 }
      compacting := none
      written := n.written ++ n.missing
      missing := [] } := by
  have hb := h.buffers _ hjob
  obtain ⟨buffered, hmissing, hbuffer⟩ := hb.missing
  rw [List.append_nil] at hmissing
  have hfile : (writeBuffer n.storage.file w).1 = logBytes (n.written ++ n.missing) := by
    rw [writeBuffer_end hb.offset, hb.file h, logBytes_append, hmissing, ← hbuffer]
  rw [hfile]
  have hsize := hb.size
  refine ⟨h.txs, ⟨[], ?_, ?_⟩, h.cut, ?_, ?_, hsize, by rintro _ ⟨⟩⟩
  · rw [hb.rest, hb.cut, List.drop_length]
    rfl
  · rw [List.append_nil]
  · rw [List.append_nil]
    exact h.listed
  · rw [List.append_nil]
    exact h.short

/-- **Every reachable state keeps the invariant.** -/
theorem Reachable.inv (h : n.Reachable) : n.Inv := by
  induction h with
  | start =>
    exact ⟨by simp, ⟨[], rfl, rfl⟩, le_rfl, enumerates_empty, by simp, by simp,
      by rintro _ ⟨⟩⟩
  | begin w hshort hops _ hrest hidle _ ih => exact ih.begin w hshort hops hrest hidle
  | log hrest hwrite hsize _ ih => exact ih.log hrest hwrite hsize
  | compact _ hrest _ hes hsize _ ih => exact ih.compact hrest hes hsize
  | push hjob hpush _ ih => exact ih.push hjob hpush
  | finish hjob _ ih => exact ih.finish hjob
  | fail _ _ ih => exact ⟨ih.txs, ih.file, ih.cut, ih.listed, ih.short, ih.size,
      by rintro _ ⟨⟩⟩
  | clear hrest _ hclear _ ih =>
    rw [truncateAndClose] at hclear
    split_ifs at hclear
    obtain rfl := Except.ok.inj hclear
    refine ⟨by simp, ⟨[], ?_, rfl⟩, le_rfl, enumerates_empty, by simp, by simp, fun c hc => ?_⟩
    · dsimp only
      rw [hrest]
      rfl
    · rename_i hidle _ _
      rw [hidle] at hc
      cases hc

/-! ## A kill -/

/-- What the first `j` transactions since the last compaction last wrote, if they did. -/
def logged (n : Page) (j : ℕ) (now : UInt64) : Reg → Option Held :=
  lastWritten ((n.begun.drop n.cut).take j) now

/-- What the first `i` entries of the last compaction hold. -/
def compacted (n : Page) (i : ℕ) (r : Reg) : Held :=
  if r ∈ ((n.written ++ n.missing).take i).map LogEntry.reg then
    (mapsAfter (n.begun.take n.cut)).shot r
  else none

theorem Inv.compiles (h : n.Inv) (c : String) (s : Schema)
    (hs : (mapsAfter (n.begun.take n.cut)).schemas[c]? = some s) : Compiles s.value :=
  Server.compiles_mapsAfter (fun w hw => (h.txs w (List.mem_of_mem_take hw)).2) c s hs

/-- **What is rebuilt from the first entries**: those of the compaction, and of the transactions
    since. -/
theorem Inv.view_rebuild (h : n.Inv) (i k : ℕ) : ∃ j ≤ n.begun.length - n.cut,
    (∀ now r, (rebuild now ((((n.written ++ n.missing).take i) ++
        ((n.begun.drop n.cut).flatMap Transaction.entries).take k).map LogEntry.canon)).view r =
      (n.logged j now r).getD (n.compacted i r)) ∧
      (((n.begun.drop n.cut).flatMap Transaction.entries).length ≤ k →
        n.cut + j = n.begun.length) := by
  obtain ⟨j, hj, happlied, hall⟩ := applied_take_entries (n.begun.drop n.cut) k Journal.Reader.start
  rw [List.length_drop] at hj
  refine ⟨j, hj, fun now r => ?_, fun hk => ?_⟩
  · have hshort : ∀ e ∈ (n.written ++ n.missing).take i ++
        ((n.begun.drop n.cut).flatMap Transaction.entries).take k, e.Short := by
      intro e he
      rcases List.mem_append.1 he with he | he
      · exact h.short e (List.mem_of_mem_take he)
      · obtain ⟨w, hw, he⟩ := List.mem_flatMap.1 (List.mem_of_mem_take he)
        exact (h.txs w (List.mem_of_mem_drop hw)).1 e he
    have hfits : ∀ e ∈ ((n.written ++ n.missing).take i ++
        ((n.begun.drop n.cut).flatMap Transaction.entries).take k).map LogEntry.canon,
        e.value.Fits := by
      intro e he
      obtain ⟨e', he', rfl⟩ := List.mem_map.1 he
      exact (hshort e' he').fits.value.canon
    -- the entries of a compaction are no markers
    have hplain : ∀ e ∈ ((n.written ++ n.missing).take i).map LogEntry.canon,
        e.cmd ≠ IKEY_TX_BEGIN ∧ e.cmd ≠ IKEY_TX_COMMIT := by
      intro e he
      obtain ⟨e', he', rfl⟩ := List.mem_map.1 he
      exact isOp_compacted h.listed (List.mem_of_mem_take he')
    have heffects : effects ((((n.begun.drop n.cut).flatMap Transaction.entries).take k).map
        LogEntry.canon) =
          (((n.begun.drop n.cut).take j).flatMap Transaction.ops).map LogEntry.canon := by
      rw [effects, Journal.effects, happlied]
      rfl
    rw [MoltenDB.view_rebuild now hfits, List.map_append, effects_append_plain hplain, heffects,
      Overwrite.replay_append, Overwrite.replay_eq,
      replay_compacted h.listed h.compiles (List.take_subset _ _)]
    rfl
  · have hjall := hall hk
    have hcut := h.cut
    rw [List.length_drop] at hjall
    omega

/-- A kill leaves the first entries of the compaction, and of the transactions since. -/
theorem Inv.leaves (h : n.Inv) {file : Bytes} (hk : n.Leaves file) :
    ∃ i k, n.written.length ≤ i ∧ (n.compacting = none → i = n.written.length) ∧
      OpfsStorage.streamLogInto file = .ok (((n.written ++ n.missing).take i ++
        ((n.begun.drop n.cut).flatMap Transaction.entries).take k).map LogEntry.canon) ∧
      (n.rest = [] → ((n.begun.drop n.cut).flatMap Transaction.entries).length ≤ k) := by
  obtain ⟨sent, hsent, hfile⟩ := h.file
  have hsize := h.size
  have hshort : ∀ e ∈ (n.begun.drop n.cut).flatMap Transaction.entries, e.Short := by
    intro e he
    obtain ⟨w, hw, he⟩ := List.mem_flatMap.1 he
    exact (h.txs w (List.mem_of_mem_drop hw)).1 e he
  -- the file has the first entries since the compaction, and a part of the next
  have hsince : ∀ (more : List LogEntry) (part : Bytes), more <+: n.rest → part <+: logBytes more →
      file = n.storage.file ++ part → (logBytes (n.written ++ (sent ++ more))).length + 4 < 2 ^ 32 →
      ∃ i k, n.written.length ≤ i ∧ (n.compacting = none → i = n.written.length) ∧
        OpfsStorage.streamLogInto file = .ok (((n.written ++ n.missing).take i ++
          ((n.begun.drop n.cut).flatMap Transaction.entries).take k).map LogEntry.canon) ∧
        (n.rest = [] → ((n.begun.drop n.cut).flatMap Transaction.entries).length ≤ k) := by
    rintro more part ⟨later, hlater⟩ hpart rfl hlen
    rw [← hlater, ← List.append_assoc] at hsent
    have hall : ∀ e ∈ n.written ++ (sent ++ more), e.Short := by
      intro e he
      rcases List.mem_append.1 he with he | he
      · exact h.short e (List.mem_append_left _ he)
      · exact hshort e (hsent ▸ List.mem_append_left _ he)
    have hprefix : n.storage.file ++ part <+: logBytes (n.written ++ (sent ++ more)) := by
      rw [hfile, ← List.append_assoc n.written, logBytes_append _ more]
      exact (List.prefix_append_right_inj _).2 hpart
    obtain ⟨k, hk, hread, hmax⟩ := streamLogInto_of_prefix hall hprefix hlen
    have hwhole : (n.written ++ sent).length ≤ k := by
      refine hmax _ (by simp) ?_
      rw [← List.append_assoc, List.take_left' rfl, ← hfile, List.length_append]
      omega
    rw [List.length_append] at hwhole
    refine ⟨n.written.length, min (k - n.written.length) (sent ++ more).length, le_rfl,
      fun _ => rfl, ?_, fun hrest => ?_⟩
    · rw [hread, List.take_left' rfl, List.take_append, List.take_of_length_le (by omega), ← hsent,
        ← List.take_take, List.take_left' rfl]
    · obtain ⟨rfl, rfl⟩ : more = [] ∧ later = [] := by
        rwa [hrest, List.append_eq_nil_iff] at hlater
      rw [← hsent, List.append_nil, List.append_nil]
      omega
  -- or the first entries of the compaction
  have hduring : ∀ (c : Compacting) (part : Bytes), n.compacting = some c →
      part <+: logBytes n.missing → file = n.storage.file ++ part →
      ∃ i k, n.written.length ≤ i ∧ (n.compacting = none → i = n.written.length) ∧
        OpfsStorage.streamLogInto file = .ok (((n.written ++ n.missing).take i ++
          ((n.begun.drop n.cut).flatMap Transaction.entries).take k).map LogEntry.canon) ∧
        (n.rest = [] → ((n.begun.drop n.cut).flatMap Transaction.entries).length ≤ k) := by
    rintro c part hjob hpart rfl
    have hb := h.buffers c hjob
    have hprefix : n.storage.file ++ part <+: logBytes (n.written ++ n.missing) := by
      rw [hb.file h, logBytes_append]
      exact (List.prefix_append_right_inj _).2 hpart
    obtain ⟨k, hk, hread, hmax⟩ := streamLogInto_of_prefix h.short hprefix hb.size
    have hwhole : n.written.length ≤ k := by
      refine hmax _ (by simp) ?_
      rw [List.take_left' rfl, ← hb.file h, List.length_append]
      omega
    refine ⟨k, 0, hwhole, fun hnone => ?_, ?_, fun _ => ?_⟩
    · rw [hjob] at hnone
      cases hnone
    · rw [hread, List.take_zero, List.append_nil]
    · rw [hb.cut, List.drop_length]
      exact le_rfl
  cases hk with
  | whole =>
    refine hsince [] [] (List.nil_prefix) (List.prefix_rfl) (List.append_nil _).symm ?_
    rw [List.append_nil, ← hfile]
    exact hsize
  | @entry e rest hrest hlen i =>
    refine hsince [e] (e.framed.take i) ?_ ?_ (writeAt_end _ _) ?_
    · rw [hrest]
      exact ⟨rest, rfl⟩
    · rw [show logBytes [e] = e.framed from List.append_nil _]
      exact List.take_prefix _ _
    · rw [← List.append_assoc, logBytes_append, ← hfile,
        show logBytes [e] = e.framed from List.append_nil _]
      exact hlen
  | @chunk w e left hjob _ i =>
    have hb := h.buffers _ hjob
    obtain ⟨buffered, hmissing, hbuffer⟩ := hb.missing
    refine hduring _ ((w.buffer ++ e.framed).take i) hjob ?_ ?_
    · rw [hmissing, logBytes_append, show logBytes (e :: left) = e.framed ++ logBytes left from
        List.flatMap_cons, ← hbuffer, ← List.append_assoc]
      exact (List.take_prefix _ _).trans (List.prefix_append _ _)
    · rw [show w.offset = n.storage.file.length from hb.offset, writeAt_end]
  | @last w hjob i =>
    have hb := h.buffers _ hjob
    obtain ⟨buffered, hmissing, hbuffer⟩ := hb.missing
    refine hduring _ (w.buffer.take i) hjob ?_ ?_
    · rw [hmissing, List.append_nil, ← hbuffer]
      exact List.take_prefix _ _
    · rw [show w.offset = n.storage.file.length from hb.offset, writeAt_end]

/-- **A kill of a compaction may lose all documents**: its first step is to empty the file. -/
theorem killed_truncated (h : n.Reachable) (hopen : n.storage.isOpen = true) (hrest : n.rest = [])
    (hidle : n.compacting = none) {es : List LogEntry}
    (hes : Enumerates n.maps.state n.maps.schemas (es.map LogEntry.inSnapshot))
    (hsize : (logBytes es).length + 4 < 2 ^ 32) :
    ∃ (n' : Page) (file : Bytes), n'.Reachable ∧ n'.begun = n.begun ∧ n'.Leaves file ∧
      OpfsStorage.streamLogInto file = .ok [] :=
  ⟨_, [], .compact hopen hrest hidle hes hsize h, rfl, .whole, rfl⟩

end Page

end

/-! ## An example -/

/-- A document is inserted, and the end of its transaction is not in the log. -/
def insertedPage : Page where
  storage := ⟨logBytes ((insertTx "tx1" "a").entries.take 2), true⟩
  begun := [insertTx "tx1" "a"]
  rest := (insertTx "tx1" "a").entries.drop 2
  compacting := none
  cut := 0
  written := []
  missing := []

theorem insertedPage_reachable : @Page.Reachable Crates.plain insertedPage := by
  let _ := Crates.plain
  have hbegin := Page.Reachable.start.begin (insertTx "tx1" "a") (by decide +kernel)
    (durable_singleton (by decide +kernel) (by decide) (by decide)) rfl rfl rfl
  have hfirst := hbegin.log rfl rfl (by decide +kernel)
  exact hfirst.log rfl rfl (by decide +kernel)

/-- The page is killed in the write of the last entry. -/
def insertedFile : Bytes :=
  let file := logBytes ((insertTx "tx1" "a").entries.take 2)
  writeAt file file.length ((insertTx "tx1" "a").commit.framed.take 5)

theorem insertedPage_leaves : insertedPage.Leaves insertedFile :=
  .entry rfl (by decide +kernel) 5

end MoltenDB
