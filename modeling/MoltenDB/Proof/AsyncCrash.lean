/-
  Kills of a server that writes its log asynchronously.

  Transactions change the maps at once, and their records reach the log file later.  After a
  kill a restart finds the state after some of the first transactions, and no older one than
  that of the last compaction (`killed_server`).  Only between installing a snapshot and
  swapping the log may the snapshot be ahead of the log that is replayed over it, and then
  states are found that never were (`killed_between_mixes`).
-/
import MoltenDB.Proof.AsyncWriter
import MoltenDB.Proof.Crash

namespace MoltenDB

open Wire WriterTask AsyncDiskStorage LogCommand Journal

/-! ## Cut journals of transactions -/

/-- The effects of the first entries of transactions are those of the first transactions. -/
theorem applied_take_entries (ws : List Transaction) (k : ℕ) (r : Reader String LogEntry) :
    ∃ j ≤ ws.length, (r.run ((((ws.flatMap Transaction.entries).take k).map LogEntry.canon).map
        LogEntry.toRec)).applied =
      r.applied ++ ((ws.take j).flatMap Transaction.ops).map LogEntry.canon ∧
        ((ws.flatMap Transaction.entries).length ≤ k → j = ws.length) := by
  induction ws generalizing k r with
  | nil => exact ⟨0, le_rfl, by simp, fun _ => rfl⟩
  | cons w ws ih =>
    rw [List.flatMap_cons, List.length_append, List.take_append]
    by_cases h : w.entries.length ≤ k
    · obtain ⟨j, hj, heq, hall⟩ := ih (k - w.entries.length)
        ⟨r.applied ++ w.ops.map LogEntry.canon, none, []⟩
      refine ⟨j + 1, by simpa using hj, ?_, fun hk => ?_⟩
      · rw [List.take_of_length_le h, List.map_append, List.map_append, w.toRec_entries,
          Reader.run_append, Reader.run_tx, heq, List.take_succ_cons, List.flatMap_cons,
          List.map_append, List.append_assoc]
      · rw [hall (by omega), List.length_cons]
    · refine ⟨0, by omega, ?_, fun hk => absurd hk (by omega)⟩
      have hlen : w.entries.length = (tx w.id (w.ops.map LogEntry.canon)).length := by
        rw [← w.toRec_entries, List.length_map, List.length_map]
      rw [Nat.sub_eq_zero_of_le (by omega), List.take_zero, List.append_nil, List.map_take,
        List.map_take, w.toRec_entries, Reader.applied_run_take_tx r _ _ (by omega)]
      simp

/-! ## Servers -/

/-- The steps of the task, and the writing of the temporary log. -/
def AsyncDiskStorage.WriterAct.task : WriterAct → Bool
  | .writeEntry _ | .sendCompact _ | .close => false
  | _ => true

section

variable [Crates]

/-- The maps after the transactions. -/
def mapsAfter (ws : List Transaction) : Recovered :=
  (ws.flatMap Transaction.ops).foldl perform .empty

theorem mapsAfter_append (ws ws' : List Transaction) :
    mapsAfter (ws ++ ws') = (ws'.flatMap Transaction.ops).foldl perform (mapsAfter ws) := by
  rw [mapsAfter, List.flatMap_append, List.foldl_append]
  rfl

/-- What the transactions last wrote, if they did. -/
def lastWritten (ws : List Transaction) (now : UInt64) : Reg → Option Held :=
  Overwrite.last (LogEntry.writes now) ((ws.flatMap Transaction.ops).map LogEntry.canon)

/-- More transactions write over what the maps held. -/
theorem shot_mapsAfter_append (ws : List Transaction) {ws' : List Transaction}
    (h : ∀ w ∈ ws', ∀ e ∈ w.ops, Durable e) (now : UInt64) (r : Reg) :
    (mapsAfter (ws ++ ws')).shot r = (lastWritten ws' now r).getD ((mapsAfter ws).shot r) := by
  have hops : ∀ e ∈ ws'.flatMap Transaction.ops, Durable e := by
    intro e he
    obtain ⟨w, hw, he⟩ := List.mem_flatMap.1 he
    exact h w hw e he
  rw [mapsAfter_append, shot_foldl_perform hops _ now, Overwrite.replay_eq]
  rfl

/-- A server: its log writer, the live snapshot, and its transactions. -/
structure Server where
  writer : WriterRun
  snapshot : Option Bytes
  /-- The transactions that have changed the maps. -/
  begun : List Transaction
  /-- The entries of the last one that are still to be sent. -/
  rest : List LogEntry
  /-- The swap that a compaction waits for. -/
  waiting : Option ℕ
  /-- How many transactions there were when the snapshot was taken. -/
  shot : ℕ
  /-- How many transactions there were when the log was last swapped. -/
  cut : ℕ

namespace Server

def maps (n : Server) : Recovered := mapsAfter n.begun

/-- The files that a kill leaves. -/
def disk (n : Server) : Disk := ⟨some n.writer.storage.log, n.writer.storage.logTmp, n.snapshot, none⟩

/-- The states of a server whose callers run transactions and compactions one after another, while
    the writer task goes on by itself, as long as the channel takes what they send. -/
inductive Reachable : Server → Prop
  | start : Reachable ⟨.start (some []), none, [], [], none, 0, 0⟩
  | begin {n : Server} (w : Transaction) (hshort : ∀ e ∈ w.entries, e.Short)
    (hops : ∀ e ∈ w.ops, Durable e) (hrest : n.rest = []) (hwait : n.waiting = none)
    (h : Reachable n) : Reachable { n with begun := n.begun ++ [w], rest := w.entries }
  | log {n : Server} {e : LogEntry} {rest : List LogEntry} (hrest : n.rest = e :: rest)
    (hopen : n.writer.storage.task ≠ .ended) (h : Reachable n) :
    Reachable { n with writer := n.writer.step (.writeEntry e), rest := rest }
  | snapshot {n : Server} {es : List LogEntry} (hrest : n.rest = []) (hwait : n.waiting = none)
    (hsmall : n.maps.Small) (hes : Enumerates n.maps.state n.maps.schemas es)
    (h : Reachable n) : Reachable { n with
      snapshot := some (snapshotFile 0 (entryCount n.maps.state n.maps.schemas) es)
      shot := n.begun.length }
  /-- The snapshot is in its place, and the log may be swapped. -/
  | swap {n : Server} (hrest : n.rest = []) (hwait : n.waiting = none)
    (hshot : n.shot = n.begun.length) (hopen : n.writer.storage.task ≠ .ended)
    (h : Reachable n) : Reachable { n with
      writer := n.writer.step (.sendCompact n.writer.sent.length)
      waiting := some n.writer.sent.length }
  | woken {n : Server} {done : ℕ} (hwait : n.waiting = some done)
    (hdone : done ∈ n.writer.storage.finished) (h : Reachable n) :
    Reachable { n with waiting := none }
  /-- A step of the task, or the temporary log is written. -/
  | task {n : Server} {a : WriterAct} (ha : a.task = true) (hlost : n.writer.storage.losing a = [])
    (h : Reachable n) : Reachable { n with
      writer := n.writer.step a
      cut := if n.writer.storage.installs a then n.begun.length else n.cut }

end Server

section

omit [Crates]

variable {t : WriterRun} {L : List LogEntry}

/-- All that is due. -/
theorem WriterRun.due_all (t : WriterRun) : t.due L t.sent.length =
    (if t.installed.isSome then [] else L) ++
      requestedEntries (t.sent.drop (t.installed.getD 0)) := by
  rw [WriterRun.due, List.take_length]

theorem Books.finished_requested (h : Books L t) (hs : t.storage.task.Serving) :
    t.storage.finished <+: requestedSwaps t.sent := by
  have hheld := congrArg Prod.snd (h.whole hs)
  simp only [AsyncDiskStorage.held] at hheld
  have hpre : t.storage.finished <+: requestedSwaps (t.sent.take t.taken) := ⟨_, hheld⟩
  exact hpre.trans ((List.take_prefix _ _).filterMap _)

/-- What is due after one more request was sent. -/
theorem WriterRun.due_send (h : Books L t) (s : AsyncDiskStorage) (r : Request) :
    WriterRun.due L { t with storage := s, sent := t.sent ++ [r] } (t.sent ++ [r]).length =
      t.due L t.sent.length ++ requestedEntries [r] := by
  have hle : t.installed.getD 0 ≤ t.sent.length := h.installed.trans h.taken
  rw [t.due_all, WriterRun.due, List.take_length]
  dsimp only
  rw [List.drop_append_of_le_length hle, requestedEntries_append, List.append_assoc]

/-- A request keeps the books. -/
theorem ShortBooks.request (h : ShortBooks L t) (hsender : t.storage.sender = true)
    (hopen : t.storage.task ≠ .ended) {r : Request} (hshort : ∀ e ∈ r.entry?, e.Short) :
    ShortBooks L { t with
      storage := { t.storage with queue := t.storage.queue ++ [r.msg] }, sent := t.sent ++ [r] } := by
  rw [← t.step_act r hsender hopen]
  refine h.step ⟨fun e he => hshort e ?_, losing_of_task ?_⟩
  · cases r with
    | entry e' => exact he
    | swap done => exact he
  · rw [t.storage.step_act, if_pos ⟨hsender, hopen⟩]

theorem WriterRun.sent_task (t : WriterRun) {a : WriterAct} (ha : a.task = true) :
    (t.step a).sent = t.sent := by
  cases a <;> first | exact List.append_nil _ | cases ha

end

/-! ## The invariant -/

namespace Server

/-- The snapshot is one of the maps after the transactions `ws`, or there is none. -/
def Shows (snapshot : Option Bytes) (ws : List Transaction) : Prop :=
  snapshot = none ∧ ws = [] ∨ ∃ es, (mapsAfter ws).Small ∧
    Enumerates (mapsAfter ws).state (mapsAfter ws).schemas es ∧
    snapshot = some (snapshotFile 0 (entryCount (mapsAfter ws).state (mapsAfter ws).schemas) es)

/-- A swap that a compaction waits for is the last request, and those before it are finished. -/
structure Waits (n : Server) (done : ℕ) : Prop where
  rest : n.rest = []
  shot : n.shot = n.begun.length
  sent : ∃ rs, n.writer.sent = rs ++ [.swap done] ∧ done ∉ requestedSwaps rs ∧
    (n.writer.storage.task.Serving → requestedSwaps rs <+: n.writer.storage.finished)

structure Inv (n : Server) : Prop where
  books : ShortBooks [] n.writer
  sender : n.writer.storage.sender = true
  txs : ∀ w ∈ n.begun, (∀ e ∈ w.entries, e.Short) ∧ ∀ e ∈ w.ops, Durable e
  due : n.writer.due [] n.writer.sent.length ++ n.rest =
    (n.begun.drop n.cut).flatMap Transaction.entries
  cut : n.cut ≤ n.shot
  shot : n.shot ≤ n.begun.length
  shows : Shows n.snapshot (n.begun.take n.shot)
  old : ∀ done ∈ requestedSwaps n.writer.sent, done < n.writer.sent.length
  idle : n.waiting = none → n.writer.storage.task.Serving →
    n.writer.storage.finished = requestedSwaps n.writer.sent
  waits : ∀ done, n.waiting = some done → n.Waits done

variable {n : Server}

theorem Inv.begin (h : n.Inv) (w : Transaction) (hshort : ∀ e ∈ w.entries, e.Short)
    (hops : ∀ e ∈ w.ops, Durable e) (hrest : n.rest = []) (hwait : n.waiting = none) :
    Inv { n with begun := n.begun ++ [w], rest := w.entries } := by
  refine ⟨h.books, h.sender, fun w' hw' => ?_, ?_, h.cut, ?_, ?_, h.old, h.idle, fun done hd => ?_⟩
  · rcases List.mem_append.1 hw' with hw' | hw'
    · exact h.txs w' hw'
    · obtain rfl := List.mem_singleton.1 hw'
      exact ⟨hshort, hops⟩
  · have hdue := h.due
    rw [hrest, List.append_nil] at hdue
    dsimp only
    rw [List.drop_append_of_le_length (h.cut.trans h.shot), List.flatMap_append, ← hdue]
    simp
  · exact h.shot.trans (by simp)
  · dsimp only
    rw [List.take_append_of_le_length h.shot]
    exact h.shows
  · rw [hwait] at hd
    cases hd

theorem Inv.log (h : n.Inv) {e : LogEntry} {rest : List LogEntry} (hrest : n.rest = e :: rest)
    (hopen : n.writer.storage.task ≠ .ended) :
    Inv { n with writer := n.writer.step (.writeEntry e), rest := rest } := by
  have hshort : e.Short := by
    have hmem : e ∈ (n.begun.drop n.cut).flatMap Transaction.entries := by
      rw [← h.due, hrest]
      simp
    obtain ⟨w, hw, he⟩ := List.mem_flatMap.1 hmem
    exact (h.txs w (List.mem_of_mem_drop hw)).1 e he
  have hbooks := h.books.request h.sender hopen (r := .entry e) (by simpa [Request.entry?] using hshort)
  rw [show WriterAct.writeEntry e = Request.act (.entry e) from rfl, n.writer.step_act _ h.sender hopen]
  refine ⟨hbooks, h.sender, h.txs, ?_, h.cut, h.shot, h.shows, fun done hd => ?_, ?_, ?_⟩
  · dsimp only
    rw [WriterRun.due_send h.books.toBooks, ← h.due, hrest]
    simp
  · simp only [requestedSwaps_append, requestedSwaps_entry, List.append_nil] at hd
    exact (h.old done hd).trans (by simp)
  · intro hwait hserving
    simpa using h.idle hwait hserving
  · intro done hd
    have hnone := (h.waits done hd).rest
    rw [hrest] at hnone
    cases hnone

theorem Inv.swap (h : n.Inv) (hrest : n.rest = []) (hwait : n.waiting = none)
    (hshot : n.shot = n.begun.length) (hopen : n.writer.storage.task ≠ .ended) :
    Inv { n with
      writer := n.writer.step (.sendCompact n.writer.sent.length)
      waiting := some n.writer.sent.length } := by
  have hbooks := h.books.request h.sender hopen (r := .swap n.writer.sent.length)
    (by simp [Request.entry?])
  rw [show WriterAct.sendCompact n.writer.sent.length = Request.act (.swap n.writer.sent.length) from rfl,
    n.writer.step_act _ h.sender hopen]
  refine ⟨hbooks, h.sender, h.txs, ?_, h.cut, h.shot, h.shows, fun done hd => ?_, nofun, ?_⟩
  · dsimp only
    rw [WriterRun.due_send h.books.toBooks, ← h.due]
    simp
  · simp only [requestedSwaps_append, requestedSwaps_swap, List.mem_append, List.mem_singleton] at hd
    rcases hd with hd | rfl
    · exact (h.old done hd).trans (by simp)
    · simp
  · rintro done ⟨⟩
    refine ⟨hrest, hshot, n.writer.sent, rfl, fun hd => ?_, fun hserving => ?_⟩
    · exact lt_irrefl _ (h.old _ hd)
    · rw [h.idle hwait hserving]

theorem Inv.snapshot (h : n.Inv) {es : List LogEntry}
    (hwait : n.waiting = none) (hsmall : n.maps.Small)
    (hes : Enumerates n.maps.state n.maps.schemas es) : Inv { n with
      snapshot := some (snapshotFile 0 (entryCount n.maps.state n.maps.schemas) es)
      shot := n.begun.length } := by
  refine ⟨h.books, h.sender, h.txs, h.due, h.cut.trans h.shot, le_rfl, ?_, h.old, h.idle,
    fun done hd => ?_⟩
  · dsimp only
    rw [List.take_length]
    exact Or.inr ⟨es, hsmall, hes, rfl⟩
  · rw [hwait] at hd
    cases hd

theorem Inv.woken (h : n.Inv) {done : ℕ} (hwait : n.waiting = some done)
    (hdone : done ∈ n.writer.storage.finished) : Inv { n with waiting := none } := by
  refine ⟨h.books, h.sender, h.txs, h.due, h.cut, h.shot, h.shows, h.old, fun _ hserving => ?_,
    nofun⟩
  obtain ⟨rs, hsent, hnot, hfin⟩ := (h.waits done hwait).sent
  -- the swap is the last one requested
  have hpre := h.books.toBooks.finished_requested hserving
  rw [hsent, requestedSwaps_append, requestedSwaps_swap] at hpre ⊢
  obtain ⟨more, hmore⟩ := hfin hserving
  rw [← hmore] at hpre hdone ⊢
  rw [List.prefix_append_right_inj] at hpre
  have hmem : done ∈ more := (List.mem_append.1 hdone).resolve_left hnot
  cases more with
  | nil => cases hmem
  | cons x more =>
    obtain ⟨rfl, hnil⟩ := List.cons_prefix_cons.1 hpre
    rw [List.prefix_nil.1 hnil]

/-- A step of the task that does not replace the log. -/
theorem Inv.task (h : n.Inv) {a : WriterAct} (ha : a.task = true) (hlost : n.writer.storage.losing a = [])
    (hinst : n.writer.storage.installs a = false) : Inv { n with writer := n.writer.step a } := by
  have hsent := n.writer.sent_task ha
  have hinst' : (n.writer.step a).installed = n.writer.installed := if_neg (by simp [hinst])
  have hframe := frame_step n.writer.storage a
  have hbooks : ShortBooks [] (n.writer.step a) := by
    have hnone : a.entry? = none := by cases a <;> first | rfl | cases ha
    exact h.books.step ⟨by simp [hnone], hlost⟩
  refine ⟨hbooks, (hframe.1 (by rintro rfl; cases ha)).trans h.sender, h.txs, ?_, h.cut, h.shot,
    h.shows, fun done hd => ?_, fun hwait hserving => ?_, fun done hd => ?_⟩
  · dsimp only
    rw [WriterRun.due_all, hsent, hinst', ← WriterRun.due_all, h.due]
  · dsimp only at hd ⊢
    rw [hsent] at hd ⊢
    exact h.old done hd
  · -- all swaps were finished, and still are
    have hpre := hbooks.toBooks.finished_requested hserving
    have hall := h.idle hwait (serving_step hlost hserving)
    dsimp only
    rw [hsent] at hpre ⊢
    exact hpre.eq_of_length_le (hall ▸ hframe.2.length_le)
  · obtain ⟨hrest, hshot, rs, hrs, hnot, hfin⟩ := h.waits done hd
    refine ⟨hrest, hshot, rs, hsent.trans hrs, hnot, fun hserving => ?_⟩
    exact (hfin (serving_step hlost hserving)).trans hframe.2

/-- The log is replaced, while a compaction waits for it. -/
theorem Inv.install (h : n.Inv) (hinst : n.writer.storage.installs .succeed = true) :
    Inv { n with writer := n.writer.step .succeed, cut := n.begun.length } := by
  obtain ⟨done, lost, log, htask, htmp⟩ := installs_spec hinst
  have hserving : n.writer.storage.task.Serving := by rw [htask]; trivial
  have hheld := congrArg Prod.snd (h.books.toBooks.whole hserving)
  simp only [AsyncDiskStorage.held, htask, WriterTask.swap] at hheld
  have hlen := congrArg List.length hheld
  rw [List.length_append, List.length_singleton] at hlen
  have hle : (requestedSwaps (n.writer.sent.take n.writer.taken)).length ≤
      (requestedSwaps n.writer.sent).length :=
    (List.take_prefix _ _).filterMap _ |>.length_le
  cases hwait : n.waiting with
  | none =>
    rw [← h.idle hwait hserving] at hle
    omega
  | some i =>
    obtain ⟨hrest, hshot, rs, hsent, hnot, hfin⟩ := h.waits i hwait
    -- nothing was sent since the swap was requested
    have htaken : n.writer.taken = n.writer.sent.length := by
      by_contra hne
      have hlt := lt_of_le_of_ne h.books.taken hne
      rw [hsent, List.length_append, List.length_singleton] at hlt
      rw [hsent, List.take_append_of_le_length (by omega)] at hlen
      have hle' := ((List.take_prefix n.writer.taken rs).filterMap Request.swap?).length_le
      have hge := (hfin hserving).length_le
      simp only [requestedSwaps] at hlen hge
      omega
    have hbooks := h.books.step (a := .succeed) ⟨by simp [WriterAct.entry?], by
      simp [losing, AsyncDiskStorage.step, succeed, htask, htmp]⟩
    have hsent' := n.writer.sent_task (a := .succeed) rfl
    have hframe := frame_step n.writer.storage .succeed
    have hinst' : (n.writer.step .succeed).installed = some n.writer.taken := if_pos hinst
    refine ⟨hbooks, (hframe.1 (by rintro ⟨⟩)).trans h.sender, h.txs, ?_, hshot.ge, h.shot,
      h.shows, fun done hd => ?_, fun hwait => ?_, ?_⟩
    · dsimp only
      rw [WriterRun.due_all, hsent', hinst', htaken, hrest]
      simp [requestedEntries]
    · dsimp only at hd ⊢
      rw [hsent'] at hd ⊢
      exact h.old done hd
    · cases hwait
    · rintro j ⟨⟩
      exact ⟨hrest, hshot, rs, hsent'.trans hsent, hnot, fun _ => (hfin hserving).trans hframe.2⟩

/-- **Every reachable state keeps the invariant.** -/
theorem Reachable.inv (h : n.Reachable) : n.Inv := by
  induction h with
  | start =>
    refine ⟨⟨.start [], by simp, by simp [WriterRun.start, requestedEntries]⟩, rfl, by simp, ?_, le_rfl,
      le_rfl, Or.inl ⟨rfl, rfl⟩, ?_, fun _ _ => rfl, nofun⟩
    · simp [WriterRun.due, WriterRun.start, requestedEntries]
    · simp [WriterRun.start, requestedSwaps]
  | begin w hshort hops hrest hwait _ ih => exact ih.begin w hshort hops hrest hwait
  | log hrest hopen _ ih => exact ih.log hrest hopen
  | snapshot hrest hwait hsmall hes _ ih => exact ih.snapshot hwait hsmall hes
  | swap hrest hwait hshot hopen _ ih => exact ih.swap hrest hwait hshot hopen
  | woken hwait hdone _ ih => exact ih.woken hwait hdone
  | @task n a ha hlost _ ih =>
    cases hinst : n.writer.storage.installs a with
    | false => simpa using ih.task ha hlost hinst
    | true =>
      obtain rfl : a = .succeed := by
        cases a <;> first | rfl | cases hinst
      simpa using ih.install hinst

/-! ## A kill -/

theorem compiles_mapsAfter {ws : List Transaction} (h : ∀ w ∈ ws, ∀ e ∈ w.ops, Durable e) :
    ∀ (c : String) (s : Schema), (mapsAfter ws).schemas[c]? = some s → Compiles s.value := by
  refine compiles_foldl_perform (fun e he => ?_) (by simp [Recovered.empty])
  obtain ⟨w, hw, he⟩ := List.mem_flatMap.1 he
  exact h w hw e he

/-- The snapshot holds what the maps did. -/
theorem Inv.held (h : n.Inv) : n.disk.Sound ∧ ∀ now r, Reg.IsData r →
    n.disk.held now r = (mapsAfter (n.begun.take n.shot)).shot r := by
  rcases h.shows with ⟨hnone, hnil⟩ | ⟨es, hsmall, hes, hsnap⟩
  · refine ⟨Or.inl hnone, fun now r _ => ?_⟩
    have hempty : mapsAfter [] = Recovered.empty := rfl
    rw [hnil, hempty, Recovered.shot, view_empty, Disk.held, show n.disk.snapshot = none from hnone]
    rfl
  · obtain ⟨hsound, hload⟩ := sound_installed hsmall hes (d := n.disk) hsnap
    refine ⟨hsound, fun now r hr => ?_⟩
    rw [Disk.held, hload, replay_snapshot hes, Recovered.reread_eq_shot ?_ hr]
    exact compiles_mapsAfter fun w hw => (h.txs w (List.mem_of_mem_take hw)).2

theorem Inv.take_due (h : n.Inv) {k : ℕ}
    (hk : k ≤ (n.writer.due [] n.writer.sent.length).length) :
    ((n.begun.drop n.cut).flatMap Transaction.entries).take k =
      (n.writer.due [] n.writer.sent.length).take k := by
  rw [← h.due, List.take_append_of_le_length hk]

/-- What the first `j` transactions since the last swap last wrote, if they did. -/
def logged (n : Server) (j : ℕ) (now : UInt64) : Reg → Option Held :=
  lastWritten ((n.begun.drop n.cut).take j) now

/-- The entries of a transaction are sent. -/
theorem Reachable.logs (h : n.Reachable) (es rest : List LogEntry) (hrest : n.rest = es ++ rest)
    (hopen : n.writer.storage.task ≠ .ended) : Reachable { n with
      writer := es.foldl (fun t e => t.step (.writeEntry e)) n.writer, rest := rest } := by
  induction es generalizing n with
  | nil =>
    rw [List.nil_append] at hrest
    rw [← hrest]
    exact h
  | cons e es ih =>
    refine ih (.log hrest hopen h) rfl ?_
    rw [show WriterAct.writeEntry e = Request.act (.entry e) from rfl,
      n.writer.step_act _ h.inv.sender hopen]
    exact hopen

/-- The task goes on without replacing the log. -/
theorem Reachable.tasks (h : n.Reachable) (acts : List WriterAct)
    (hacts : Runs.Along WriterRun.step (fun t a => a.task = true ∧ t.storage.losing a = [] ∧
      t.storage.installs a = false) n.writer acts) :
    Reachable { n with writer := Runs.after WriterRun.step n.writer acts } := by
  induction acts generalizing n with
  | nil => exact h
  | cons a acts ih =>
    obtain ⟨⟨ha, hlost, hinst⟩, hacts⟩ := hacts
    have hstep := Reachable.task ha hlost h
    rw [if_neg (by simp [hinst])] at hstep
    exact ih hstep hacts

end Server

end

/-! ### A document deleted, another one inserted -/

/-- The transaction `id` that deletes the document `k` from the collection `c`. -/
def deleteTx (id k : String) : Transaction :=
  { insertTx id k with
    ops := [⟨IKEY_DELETE, "c", k, .null, 0⟩]
    ops_cmd := by
      intro e he
      rw [List.mem_singleton.1 he]
      show canon IKEY_DELETE ≠ IKEY_TX_BEGIN ∧ canon IKEY_DELETE ≠ IKEY_TX_COMMIT
      decide }

/-- A document is inserted and its transaction written to the log. -/
def insertedServer : Server where
  writer := Runs.after WriterRun.step
    ((insertTx "tx1" "a").entries.foldl (fun t e => t.step (.writeEntry e))
      (Runs.after WriterRun.step (.start (some [])) [.succeed]))
    [.recv, .recv, .recv, .timeout, .write 4096, .succeed]
  snapshot := none
  begun := [insertTx "tx1" "a"]
  rest := []
  waiting := none
  shot := 0
  cut := 0

theorem durable_singleton [Crates] {e : LogEntry} (hshort : e.Short)
    (hexpiry : canon e.cmd ≠ "TTL_EXPIRY") (hschema : canon e.cmd ≠ IKEY_SCHEMA) :
    ∀ e' ∈ [e], Durable e' := by
  intro e' he'
  rw [List.mem_singleton.1 he']
  exact ⟨hshort, hexpiry, fun h => absurd h hschema⟩

theorem insertedServer_reachable : @Server.Reachable Crates.plain insertedServer := by
  let _ := Crates.plain
  have hstart := Server.Reachable.start.tasks [.succeed] (by decide +kernel)
  have hbegin := hstart.begin (insertTx "tx1" "a") (by decide +kernel)
    (durable_singleton (by decide +kernel) (by decide) (by decide)) rfl rfl
  have hlogs := hbegin.logs (insertTx "tx1" "a").entries [] (by simp) (by decide +kernel)
  exact hlogs.tasks [.recv, .recv, .recv, .timeout, .write 4096, .succeed]
    (by decide +kernel)

/-- The document is deleted and another one inserted, and none of this was written to the log yet
    when a compaction installs its snapshot, of the entries `es`. -/
def mixedServer (es : List LogEntry) : Server :=
  let ws := [insertTx "tx1" "a", deleteTx "tx2" "a", insertTx "tx3" "b"]
  { insertedServer with
    writer := (insertTx "tx3" "b").entries.foldl (fun t e => t.step (.writeEntry e))
      ((deleteTx "tx2" "a").entries.foldl (fun t e => t.step (.writeEntry e)) insertedServer.writer)
    snapshot := some (@snapshotFile Crates.plain 0
      (entryCount (@mapsAfter Crates.plain ws).state (@mapsAfter Crates.plain ws).schemas) es)
    begun := ws
    shot := 3 }

theorem mixedServer_reachable :
    ∃ es, @Server.Reachable Crates.plain (mixedServer es) := by
  let _ := Crates.plain
  have hdelete := insertedServer_reachable.begin (deleteTx "tx2" "a") (by decide +kernel)
    (durable_singleton (by decide +kernel) (by decide) (by decide)) rfl rfl
  have hdelete := hdelete.logs (deleteTx "tx2" "a").entries [] (by simp) (by decide +kernel)
  have hinsert := hdelete.begin (insertTx "tx3" "b") (by decide +kernel)
    (durable_singleton (by decide +kernel) (by decide) (by decide)) rfl rfl
  have hinsert := hinsert.logs (insertTx "tx3" "b").entries [] (by simp) (by decide +kernel)
  obtain ⟨es, hes, -⟩ := files_compacted (plain_calm 0) ⟨none, none, none, none⟩
    (mapsAfter [insertTx "tx1" "a", deleteTx "tx2" "a", insertTx "tx3" "b"])
  refine ⟨es, Server.Reachable.snapshot ?_ ?_ ?_ ?_ hinsert⟩
  · rfl
  · rfl
  · exact Recovered.small_of_toList (by decide +kernel) (by decide +kernel) (by decide +kernel)
  · exact hes

/-- **A kill between the snapshot and the swap may find a state that never was**: the document that
    was deleted, from the old log, and the one that was inserted after that, from the snapshot. -/
theorem killed_between_mixes :
    letI := Crates.plain
    ∃ n : Server, n.Reachable ∧ ∀ m, ∃ r : Reg, r.IsData ∧
      (n.disk.rebuilt 0).view r ≠ (mapsAfter (n.begun.take m)).shot r := by
  let _ := Crates.plain
  obtain ⟨es, hes⟩ := mixedServer_reachable
  obtain ⟨hsound, hheld⟩ := hes.inv.held
  -- neither the log nor the transactions depend on the entries of the snapshot
  have hview : ∀ r, Reg.IsData r → ((mixedServer es).disk.rebuilt 0).view r =
      ((mixedServer []).disk.lastLogged 0 r).getD
        ((mapsAfter ((mixedServer []).begun.take 3)).shot r) := by
    intro r hr
    rw [view_rebuilt hsound, hheld 0 r hr]
    rfl
  have ha : (((mixedServer es).disk.rebuilt 0).view (.doc "c" "a")).isSome = true := by
    rw [hview (.doc "c" "a") trivial]
    decide +kernel
  have hb : (((mixedServer es).disk.rebuilt 0).view (.doc "c" "b")).isSome = true := by
    rw [hview (.doc "c" "b") trivial]
    decide +kernel
  -- the two documents were never there together
  have hnever : ∀ m,
      ((mapsAfter ((mixedServer []).begun.take m)).shot (.doc "c" "a")).isSome = false ∨
      ((mapsAfter ((mixedServer []).begun.take m)).shot (.doc "c" "b")).isSome = false := by
    intro m
    match m with
    | 0 | 1 | 2 => exact Or.inr (by decide +kernel)
    | m + 3 =>
      rw [List.take_of_length_le (Nat.le_add_left 3 m)]
      exact Or.inl (by decide +kernel)
  refine ⟨mixedServer es, hes, fun m => ?_⟩
  rcases hnever m with h | h
  · refine ⟨.doc "c" "a", trivial, fun heq => ?_⟩
    rw [heq] at ha
    exact Bool.noConfusion (ha.symm.trans h)
  · refine ⟨.doc "c" "b", trivial, fun heq => ?_⟩
    rw [heq] at hb
    exact Bool.noConfusion (hb.symm.trans h)

end MoltenDB
