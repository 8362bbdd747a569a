/-
  Recovery up to a time, and what compactions do to it.

  The entries of the log carry the time at which they were written, those of a snapshot
  carry none.  So what is recovered up to `t` was written by `t` if the maps were, each
  time they were compacted (`recovery_in_time`); a compaction of a later document puts
  it before every time (`compacted_future_recovered`).
-/
import MoltenDB.Proof.Crash
import MoltenDB.Engine.Storage.Recover

namespace MoltenDB

open Wire Prog Prog.Eff LogCommand

/-! ## Who wrote a document -/

namespace Transaction

/-- All entries of the transaction were logged after `t`. -/
def Late (w : Transaction) (t : UInt64) : Prop := ∀ e ∈ w.entries, t < e._t

/-- The transaction wrote the document, whose value is given as it is read back. -/
def Wrote (w : Transaction) (c k : String) (v : Json) : Prop :=
  ∃ e ∈ w.ops, canon e.cmd = IKEY_INSERT ∧ e.collection = c ∧ e.key = k ∧ e.value.canon = v

end Transaction

/-- The document was written by a transaction that was not late. -/
def InTime (t : UInt64) (ws : List Transaction) (c k : String) (v : Json) : Prop :=
  ∃ w ∈ ws, ¬ w.Late t ∧ w.Wrote c k v

/-- All documents satisfy `P`. -/
def Recovered.Docs (m : Recovered) (P : String → String → Json → Prop) : Prop :=
  ∀ c k v, m.view (.doc c k) = some (some v) → P c k v

/-- If the entry is that of a document, it satisfies `P`. -/
structure LogEntry.Sourced (e : LogEntry) (P : String → String → Json → Prop) : Prop where
  fits : e.value.Fits
  doc : e.cmd = IKEY_INSERT → P e.collection e.key e.value.canon

variable {P Q : String → String → Json → Prop} {t : UInt64} {ws : List Transaction}

theorem InTime.canon {c k : String} {v : Json} (h : InTime t ws c k v) : v.canon = v := by
  obtain ⟨w, -, -, e, -, -, -, -, rfl⟩ := h
  exact e.value.canon_canon

theorem InTime.append {c k : String} {v : Json} (h : InTime t ws c k v) (w : Transaction) :
    InTime t (ws ++ [w]) c k v := by
  obtain ⟨w', hw', h'⟩ := h
  exact ⟨w', List.mem_append_left _ hw', h'⟩

theorem LogEntry.Sourced.mono {e : LogEntry} (h : e.Sourced P)
    (hPQ : ∀ c k v, P c k v → Q c k v) : e.Sourced Q :=
  ⟨h.fits, fun hcmd => hPQ _ _ _ (h.doc hcmd)⟩

theorem Recovered.docs_empty : Recovered.empty.Docs P := by
  intro c k v h
  rw [view_empty] at h
  cases h

section Replay

variable [Crates] (now : UInt64)

/-- Only the entry of a document writes a document. -/
theorem Recovered.Docs.applyEntry {m : Recovered} (h : m.Docs P) {e : LogEntry}
    (he : e.Sourced P) : (applyEntry now m e).Docs P := by
  intro c k v hv
  rw [view_applyEntry now m he.fits, Overwrite.apply] at hv
  cases hw : e.writes now (.doc c k) with
  | none =>
    rw [hw, Option.getD_none] at hv
    exact h c k v hv
  | some held =>
    rw [hw, Option.getD_some] at hv
    obtain ⟨hcmd, rfl, rfl, hv'⟩ := LogEntry.doc_of_writes now (hw.trans (congrArg some hv))
    obtain rfl := Option.some.inj hv'
    exact he.doc hcmd

/-- The documents that were replayed, and those that wait for their commit, satisfy `P`. -/
structure Replay.Docs (r : Replay) (P : String → String → Json → Prop) : Prop where
  base : r.base.Docs P
  buffer : ∀ e ∈ r.txBuffer, e.Sourced P

theorem Recovered.Docs.foldl {m : Recovered} (h : m.Docs P) {es : List LogEntry}
    (hes : ∀ e ∈ es, e.Sourced P) : (es.foldl (MoltenDB.applyEntry now) m).Docs P := by
  induction es generalizing m with
  | nil => exact h
  | cons e es ih =>
    exact ih (h.applyEntry now (hes e List.mem_cons_self))
      fun e' he' => hes e' (List.mem_cons_of_mem _ he')

theorem Replay.Docs.step {r : Replay} (h : r.Docs P) {e : LogEntry} (he : e.Sourced P) :
    (r.step now e).Docs P := by
  unfold Replay.step
  dsimp only
  split_ifs
  · exact ⟨h.base, by simp⟩
  · exact ⟨h.base.foldl now h.buffer, by simp⟩
  · exact ⟨h.base, h.buffer⟩
  · refine ⟨h.base, fun e' he' => ?_⟩
    rcases List.mem_append.1 he' with he' | he'
    · exact h.buffer e' he'
    · rw [List.mem_singleton.1 he']
      exact he
  · exact ⟨h.base.applyEntry now he, h.buffer⟩

/-- Entries after `t` are not replayed, and they need not satisfy `P`. -/
theorem Replay.Docs.feed {r : Replay} (h : r.Docs P) {es : List LogEntry}
    (hes : ∀ e ∈ es, ¬ t < e._t → e.Sourced P) :
    (feed (recoverCall (some t) none now) r es).1.Docs P := by
  refine feed_induct _ (P := fun r : Replay => r.Docs P)
    (fun r e he r' hr hcall => ?_) h
  simp only [recoverCall, Option.any_some, Option.any_none, decide_eq_true_eq] at hcall
  split_ifs at hcall with hlate
  cases hcall
  exact hr.step now (hes e he hlate)

end Replay

/-! ## Histories -/

variable [Crates]

/-- What the operation that logs `e` does to the maps. -/
def remember (m : Recovered) (e : LogEntry) : Recovered :=
  if canon e.cmd = "TTL_EXPIRY" then
    match parseU64 e.key with
    | some expiresAt => { m with ttlExpiry := m.ttlExpiry.insert e.collection expiresAt }
    | none => m
  else perform m e

/-- Transactions and compactions, one after another, with a clock that does not go back: the
    files, the maps and the transactions.  Compactions are made of maps that are `ok`; they may
    fail on the way. -/
inductive TimedHistory (ok : Recovered → List Transaction → Prop) :
    Disk → Recovered → List Transaction → Prop
  | start : TimedHistory ok ⟨some [], none, none, none⟩ .empty []
  | commit {d : Disk} {m : Recovered} {ws : List Transaction} (w : Transaction)
    (hshort : ∀ e ∈ w.entries, e.Short)
    (hclock : ((ws ++ [w]).flatMap Transaction.entries).Pairwise fun e e' => e._t ≤ e'._t)
    (h : TimedHistory ok d m ws) :
    TimedHistory ok (d.append w) (w.ops.foldl remember m) (ws ++ [w])
  | compact {d : Disk} {m : Recovered} {ws : List Transaction} (w : World) (hsmall : m.Small)
    (hok : ok m ws) (h : TimedHistory ok d m ws) : TimedHistory ok (d.compacted m w) m ws

/-- The files after a compaction, whatever fails. -/
theorem files_after (d : Disk) (m : Recovered) (w : World) :
    ((d.compacted m w).snapshot = d.snapshot ∨ (d.compacted m w).snapshot = none ∨
      ∃ es, Enumerates m.state m.schemas es ∧ (d.compacted m w).snapshot =
        some (snapshotFile 0 (entryCount m.state m.schemas) es)) ∧
    ((d.compacted m w).log = d.log ∨ (d.compacted m w).log = some []) := by
  have hquiet : Fs.Quiet w d ⟨d, w, 0, []⟩ := ⟨rfl, rfl, rfl, by simp⟩
  -- the log is swapped whether the snapshot was written or not
  have hswap : ∀ fs : Fs, ¬ fs.did .installLog → fs.disk.log = d.log →
      wp (swapLog .sync)
        (fun _ fs' => fs'.disk.snapshot = fs.disk.snapshot ∧
          (fs'.disk.log = d.log ∨ fs'.disk.log = some []))
        (fun _ fs' => fs'.disk.snapshot = fs.disk.snapshot ∧
          (fs'.disk.log = d.log ∨ fs'.disk.log = some [])) fs := by
    intro fs hno hlog
    have hpost : ∀ fs' : Fs, Fs.Swapping fs fs' → fs'.disk.snapshot = fs.disk.snapshot ∧
        (fs'.disk.log = d.log ∨ fs'.disk.log = some []) := by
      intro fs' h
      refine ⟨h.snapshot, ?_⟩
      rw [h.log, hlog]
      split_ifs
      · exact Or.inr rfl
      · exact Or.inl rfl
    exact wp_mono (wp_swapLog hno .sync) (fun _ fs' h => hpost fs' h) (fun _ fs' h => hpost fs' h)
  refine wp_final (m := compactFromMaps .sync m.state m.schemas) (P := fun fs' : Fs =>
    (fs'.disk.snapshot = d.snapshot ∨ fs'.disk.snapshot = none ∨
      ∃ es, Enumerates m.state m.schemas es ∧ fs'.disk.snapshot =
        some (snapshotFile 0 (entryCount m.state m.schemas) es)) ∧
    (fs'.disk.log = d.log ∨ fs'.disk.log = some [])) ?_
  simp only [compactFromMaps, wp_bind, wp_outcome]
  refine wp_mono (hquiet.wp_writeSnapshotFromMaps m.state m.schemas 0) (fun _ fs₁ h₁ => ?_)
    (fun _ fs₁ h₁ => ?_)
  · obtain ⟨es, hes, h₁⟩ := h₁
    have hno : ¬ fs₁.did .installLog := by
      intro hdid
      obtain ⟨x, hx, hop⟩ := List.mem_map.1 hdid
      exact (h₁.trace x hx).1 hop
    have hsnap : ∀ fs' : Fs, fs'.disk.snapshot = fs₁.disk.snapshot → ∃ es,
        Enumerates m.state m.schemas es ∧ fs'.disk.snapshot =
          some (snapshotFile 0 (entryCount m.state m.schemas) es) :=
      fun fs' h => ⟨es, hes, h.trans h₁.snapshot⟩
    exact wp_mono (hswap fs₁ hno h₁.log) (fun _ fs' h => ⟨Or.inr (Or.inr (hsnap fs' h.1)), h.2⟩)
      (fun _ fs' h => ⟨Or.inr (Or.inr (hsnap fs' h.1)), h.2⟩)
  · have hsnap : ∀ fs' : Fs, fs'.disk.snapshot = fs₁.disk.snapshot →
        fs'.disk.snapshot = d.snapshot ∨ fs'.disk.snapshot = none := by
      intro fs' h
      rw [h, h₁.1.snapshot]
      split_ifs
      · exact Or.inr rfl
      · exact Or.inl rfl
    have hpost : ∀ fs' : Fs, fs'.disk.snapshot = fs₁.disk.snapshot ∧
        (fs'.disk.log = d.log ∨ fs'.disk.log = some []) →
        (fs'.disk.snapshot = d.snapshot ∨ fs'.disk.snapshot = none ∨
          ∃ es, Enumerates m.state m.schemas es ∧ fs'.disk.snapshot =
            some (snapshotFile 0 (entryCount m.state m.schemas) es)) ∧
        (fs'.disk.log = d.log ∨ fs'.disk.log = some []) :=
      fun fs' h => ⟨(hsnap fs' h.1).imp_right Or.inl, h.2⟩
    exact wp_mono (hswap fs₁ h₁.1.noSwap h₁.1.log) (fun _ fs' h => hpost fs' h)
      (fun _ fs' h => hpost fs' h)

/-- What the files hold was written by transactions of the history, and what the snapshot holds
    by such that were not late. -/
structure WrittenBy (t : UInt64) (d : Disk) (ws : List Transaction) : Prop where
  log : ∃ L, d.log = some (logBytes L) ∧ ∀ e ∈ L, e.Short ∧ ∃ w ∈ ws, e ∈ w.entries
  skip : ∀ seq, (loadSnapshot d.snapshot).2 = some seq → seq = 0
  snapshot : ∀ e ∈ (loadSnapshot d.snapshot).1, e.Sourced (InTime t ws)

theorem writtenBy_start : WrittenBy t ⟨some [], none, none, none⟩ [] :=
  ⟨⟨[], rfl, by simp⟩, by simp [loadSnapshot], by simp [loadSnapshot]⟩

theorem WrittenBy.commit {d : Disk} (h : WrittenBy t d ws) {w : Transaction}
    (hshort : ∀ e ∈ w.entries, e.Short) : WrittenBy t (d.append w) (ws ++ [w]) := by
  obtain ⟨L, hlog, hL⟩ := h.log
  have hnew : (d.append w).log = some (logBytes (L ++ w.entries)) := by
    rw [Disk.append, foldl_appendEntry, openAppend, hlog, Option.getD_some, logBytes_append]
  refine ⟨⟨_, hnew, fun e he => ?_⟩, h.skip, fun e he => ?_⟩
  · rcases List.mem_append.1 he with he | he
    · obtain ⟨hs, w', hw', hmem⟩ := hL e he
      exact ⟨hs, w', List.mem_append_left _ hw', hmem⟩
    · exact ⟨hshort e he, w, List.mem_append_right _ (List.mem_singleton.2 rfl), he⟩
  · exact (h.snapshot e he).mono fun _ _ _ h => h.append w

omit [Crates] in
/-- A snapshot of maps whose documents were written in time. -/
theorem sourced_enumerates {m : Recovered} (hdocs : m.Docs (InTime t ws)) {es : List LogEntry}
    (hes : Enumerates m.state m.schemas es) :
    ∀ e ∈ es, e.canon.cmd = IKEY_INSERT →
      InTime t ws e.canon.collection e.canon.key e.canon.value.canon := by
  intro e he hcmd
  rcases (mem_enumerates hes).1 he with ⟨c, k, b, hb, hdoc⟩ | ⟨c, s, hs, rfl⟩
  · obtain ⟨v, hv, rfl⟩ := Option.map_eq_some_iff.1 hdoc
    have hin : InTime t ws c k v := hdocs c k v (by simp [Recovered.view, hb, hv])
    show InTime t ws c k v.canon.canon
    rw [hin.canon, hin.canon]
    exact hin
  · exact absurd hcmd (show canon SCHEMA ≠ IKEY_INSERT by decide)

theorem WrittenBy.compact {d : Disk} (h : WrittenBy t d ws) {m : Recovered} (hm : m.Small)
    (hdocs : m.Docs (InTime t ws)) (w : World) : WrittenBy t (d.compacted m w) ws := by
  obtain ⟨hsnap, hlog⟩ := files_after d m w
  have hlog' : ∃ L, (d.compacted m w).log = some (logBytes L) ∧
      ∀ e ∈ L, e.Short ∧ ∃ w ∈ ws, e ∈ w.entries := by
    rcases hlog with hlog | hlog
    · rw [hlog]
      exact h.log
    · exact ⟨[], hlog, by simp⟩
  rcases hsnap with hsnap | hsnap | ⟨es, hes, hsnap⟩
  · exact ⟨hlog', by rw [hsnap]; exact h.skip, by rw [hsnap]; exact h.snapshot⟩
  · exact ⟨hlog', by simp [hsnap, loadSnapshot], by simp [hsnap, loadSnapshot]⟩
  · obtain ⟨hsound, hload⟩ := sound_installed hm hes hsnap
    have hshort : ∀ e ∈ es, e.Short := by
      intro e he
      rcases (mem_enumerates hes).1 he with ⟨c, k, b, hb, hdoc⟩ | ⟨c, s, hs, rfl⟩
      · exact hm.docs c k b e hb hdoc
      · exact hm.schemas c s hs
    refine ⟨hlog', fun seq hseq => ?_, fun e he => ⟨loadSnapshot_fits he, fun hcmd => ?_⟩⟩
    · rw [hsnap, loadSnapshot_snapshotFile hshort (by norm_num) hm.count] at hseq
      split_ifs at hseq
      exact (Option.some.inj hseq).symm
    · rw [hload] at he
      obtain ⟨e', he', rfl⟩ := List.mem_map.1 he
      exact sourced_enumerates hdocs hes e' he' hcmd

theorem TimedHistory.writtenBy {d : Disk} {m : Recovered}
    (h : TimedHistory (fun m ws => m.Docs (InTime t ws)) d m ws) : WrittenBy t d ws := by
  induction h with
  | start => exact writtenBy_start
  | commit w hshort _ _ ih => exact ih.commit hshort
  | compact w hsmall hok _ ih => exact ih.compact hsmall hok w

omit [Crates] in
/-- An entry of the log that was written by `t` was written by a transaction that was not late. -/
theorem sourced_entries {w : Transaction} (hw : w ∈ ws) {e : LogEntry} (he : e ∈ w.entries)
    (hshort : e.Short) (hin : ¬ t < e._t) : e.canon.Sourced (InTime t ws) := by
  refine ⟨hshort.fits.value.canon, fun hcmd => ⟨w, hw, fun hlate => hin (hlate e he), e, ?_, hcmd,
    rfl, rfl, e.value.canon_canon.symm⟩⟩
  -- the two markers are not documents
  have hmarker : ∀ {e' : LogEntry} {cmd : String}, e'.cmd = cmd → canon cmd ≠ IKEY_INSERT →
      e ≠ e' := by
    rintro e' cmd h hne rfl
    exact hne (h ▸ hcmd)
  rcases List.mem_cons.1 he with he | he
  · exact absurd he (hmarker w.opening_cmd (by decide))
  · rcases List.mem_append.1 he with he | he
    · exact he
    · exact absurd (List.mem_singleton.1 he) (hmarker w.commit_cmd (by decide))

/-- What is recovered up to `t` was written by transactions that were not late. -/
theorem WrittenBy.docs_recoverMaps {d : Disk} (h : WrittenBy t d ws) (now : UInt64) :
    (recoverMaps (SyncDiskStorage.streamLogInto d.snapshot d.log) (some t) none now).Docs
      (InTime t ws) := by
  obtain ⟨L, hlog, hL⟩ := h.log
  have hread : streamLogEntries d.log 0 = L.map LogEntry.canon := by
    rw [hlog, streamLogEntries_whole fun e he => (hL e he).1]
  have hentries : ∀ e ∈ streamLogEntries d.log 0, ¬ t < e._t → e.Sourced (InTime t ws) := by
    intro e he hin
    rw [hread] at he
    obtain ⟨e', he', rfl⟩ := List.mem_map.1 he
    obtain ⟨hshort, w, hw, hmem⟩ := hL e' he'
    exact sourced_entries hw hmem hshort hin
  have hstart : Replay.Docs ⟨.empty, [], none, 0⟩ (InTime t ws) :=
    ⟨Recovered.docs_empty, by simp⟩
  have hsnap := hstart.feed (t := t) now fun e he _ => h.snapshot e he
  have hskip := h.skip
  unfold recoverMaps SyncDiskStorage.streamLogInto
  rcases hload : loadSnapshot d.snapshot with ⟨es, seq⟩
  rw [hload] at hsnap hskip
  dsimp only at hsnap hskip ⊢
  rcases hfeed : feed (recoverCall (some t) none now) ⟨.empty, [], none, 0⟩ es with ⟨r, whole⟩
  rw [hfeed] at hsnap
  have hrest := (hsnap.feed (t := t) now hentries).base
  cases whole with
  | false => exact hrest
  | true =>
    cases seq with
    | none => exact hrest
    | some n =>
      rw [hskip n rfl]
      exact hrest

/-- **What is recovered up to a time was written by then**, if each time the maps were compacted
    their documents were. -/
theorem recovery_in_time {d : Disk} {m : Recovered}
    (h : TimedHistory (fun m ws => m.Docs (InTime t ws)) d m ws) (fs : Fs) :
    wp (recoverTo (SyncDiskStorage.streamLogInto d.snapshot d.log) (some t) none)
      (fun es _ => ∀ e ∈ es, e.cmd = IKEY_INSERT → InTime t ws e.collection e.key e.value)
      (fun _ _ => False) fs := by
  refine wp_mono (wp_recoverTo _ _ _ fs) (fun es _ hrec e he hcmd => ?_) (fun _ _ h => h)
  obtain ⟨now, henum⟩ := hrec
  have hdocs := h.writtenBy.docs_recoverMaps now
  rcases (mem_enumerates henum).1 (List.mem_map_of_mem he) with ⟨c, k, b, hb, hdoc⟩ | ⟨c, s, -, hs⟩
  · obtain ⟨v, hv, hent⟩ := Option.map_eq_some_iff.1 hdoc
    have hc : e.collection = c := (congrArg LogEntry.collection hent).symm
    have hk : e.key = k := (congrArg LogEntry.key hent).symm
    have hval : e.value = v := (congrArg LogEntry.value hent).symm
    rw [hc, hk, hval]
    exact hdocs c k v (by simp [Recovered.view, hb, hv])
  · exact absurd ((congrArg LogEntry.cmd hs).trans hcmd) (show SCHEMA ≠ IKEY_INSERT by decide)

/-! ## Compactions before anything late -/

theorem Recovered.Docs.remember {m : Recovered} (h : m.Docs P) {e : LogEntry}
    (he : LogEntry.Sourced { e with cmd := LogCommand.canon e.cmd } P) :
    (remember m e).Docs P := by
  unfold MoltenDB.remember
  split_ifs
  · cases parseU64 e.key with
    | none => exact h
    | some x => exact h
  · exact h.applyEntry 0 he

theorem Recovered.Docs.foldl_remember {m : Recovered} (h : m.Docs P) {ops : List LogEntry}
    (hops : ∀ e ∈ ops, LogEntry.Sourced { e with cmd := LogCommand.canon e.cmd } P) :
    (ops.foldl MoltenDB.remember m).Docs P := by
  induction ops generalizing m with
  | nil => exact h
  | cons e ops ih =>
    exact ih (h.remember (hops e List.mem_cons_self))
      fun e' he' => hops e' (List.mem_cons_of_mem _ he')

/-- The documents in memory were written by transactions of the history. -/
theorem TimedHistory.docs_written {ok : Recovered → List Transaction → Prop} {d : Disk}
    {m : Recovered} (h : TimedHistory ok d m ws) :
    m.Docs fun c k v => ∃ w ∈ ws, w.Wrote c k v := by
  induction h with
  | start => exact Recovered.docs_empty
  | @commit d m ws w hshort _ _ ih =>
    have hold : m.Docs fun c k v => ∃ w' ∈ ws ++ [w], w'.Wrote c k v := by
      intro c k v hv
      obtain ⟨w', hw', hwrote⟩ := ih c k v hv
      exact ⟨w', List.mem_append_left _ hw', hwrote⟩
    refine hold.foldl_remember fun e he => ⟨?_, fun hcmd => ?_⟩
    · exact (hshort e (List.mem_cons_of_mem _ (List.mem_append_left _ he))).fits.value
    · exact ⟨w, List.mem_append_right _ (List.mem_singleton.2 rfl), e, he, hcmd, rfl, rfl, rfl⟩
  | compact _ _ _ _ ih => exact ih

/-- If no late transaction came before a compaction, the compacted documents were in time. -/
theorem TimedHistory.docs_in_time {d : Disk} {m : Recovered}
    (h : TimedHistory (fun _ ws => ∀ w ∈ ws, ¬ w.Late t) d m ws) :
    TimedHistory (fun m ws => m.Docs (InTime t ws)) d m ws := by
  induction h with
  | start => exact .start
  | commit w hshort hclock _ ih => exact .commit w hshort hclock ih
  | compact w hsmall hok h ih =>
    refine .compact w hsmall (fun c k v hv => ?_) ih
    obtain ⟨w', hw', hwrote⟩ := h.docs_written c k v hv
    exact ⟨w', hw', hok w' hw', hwrote⟩

/-! ## What a compaction brings into the past -/

/-- **After a compaction every document of the maps is recovered**, up to any time. -/
theorem compacted_recovered {m : Recovered} (hm : m.Small) {w : World} (hw : w.Calm) (d : Disk)
    (t : UInt64) (fs : Fs) :
    wp (recoverTo (SyncDiskStorage.streamLogInto (d.compacted m w).snapshot (d.compacted m w).log)
        (some t) none)
      (fun es _ => ∀ c k v, m.view (.doc c k) = some (some v) →
        ∃ e ∈ es, e.cmd = IKEY_INSERT ∧ e.collection = c ∧ e.key = k ∧ e.value = v.canon)
      (fun _ _ => False) fs := by
  refine wp_mono (wp_recoverTo _ _ _ fs) (fun es _ hrec c k v hview => ?_) (fun _ _ h => h)
  obtain ⟨now, henum⟩ := hrec
  -- the entries of the snapshot carry no time
  have htimes : ∀ e ∈ (d.compacted m w).entries, ¬ t < e._t := by
    obtain ⟨ses, hses, hlog, hsnap⟩ := files_compacted hw d m
    obtain ⟨hsound, hload⟩ := sound_installed hm hses hsnap
    intro e he
    rw [hsound.entries.1, hload, hlog, show streamLogEntries (some []) 0 = [] from rfl,
      List.append_nil] at he
    obtain ⟨e', he', rfl⟩ := List.mem_map.1 he
    have hzero : e'.canon._t = 0 := by
      rcases (mem_enumerates hses).1 he' with ⟨c, k, b, -, hdoc⟩ | ⟨c, s, -, rfl⟩
      · obtain ⟨x, -, rfl⟩ := Option.map_eq_some_iff.1 hdoc
        rfl
      · rfl
    rw [hzero]
    exact UInt64.not_lt.2 UInt64.zero_le
  rw [recoverMaps_eq_rebuild htimes] at henum
  have hrec : ((d.compacted m w).rebuilt now).view (.doc c k) = some (some v.canon) := by
    rw [view_compacted hm hw, Recovered.reread, Recovered.shot, hview]
    rfl
  obtain ⟨b, hb, hv⟩ := Option.map_eq_some_iff.1 hrec
  have hdoc : docEntry c (k, b) = some ⟨IKEY_INSERT, c, k, v.canon, 0⟩ := by simp [docEntry, hv]
  obtain ⟨e, he, heq⟩ := List.mem_map.1 ((mem_enumerates henum).2 (Or.inl ⟨c, k, b, hb, hdoc⟩))
  exact ⟨e, he, congrArg LogEntry.cmd heq, congrArg LogEntry.collection heq,
    congrArg LogEntry.key heq, congrArg LogEntry.value heq⟩

section

omit [Crates]

/-- The transaction that inserts the document `a`, logged at time 10. -/
def insertAtTen : Transaction where
  opening := ⟨IKEY_TX_BEGIN, "c", "tx1", .null, 10⟩
  ops := [⟨IKEY_INSERT, "c", "a", .obj [], 10⟩]
  commit := ⟨IKEY_TX_COMMIT, "c", "tx1", .null, 10⟩
  opening_cmd := rfl
  commit_cmd := rfl
  commit_key := rfl
  ops_cmd := by
    intro e he
    rw [List.mem_singleton.1 he]
    show LogCommand.canon IKEY_INSERT ≠ IKEY_TX_BEGIN ∧ LogCommand.canon IKEY_INSERT ≠ IKEY_TX_COMMIT
    decide

/-- The maps after it, and the files after a compaction of these. -/
def mapsAtTen : Recovered := insertAtTen.ops.foldl (@remember Crates.plain) .empty

def diskAtTen : Disk :=
  @Disk.compacted Crates.plain (Disk.append ⟨some [], none, none, none⟩ insertAtTen) mapsAtTen
    (World.plain 0 [])

theorem mapsAtTen_small : mapsAtTen.Small :=
  Recovered.small_of_toList (by decide +kernel) (by decide +kernel) (by decide +kernel)

theorem history_atTen {ok : Recovered → List Transaction → Prop} (hok : ok mapsAtTen [insertAtTen]) :
    @TimedHistory Crates.plain ok diskAtTen mapsAtTen [insertAtTen] := by
  refine @TimedHistory.compact Crates.plain ok _ _ _ (World.plain 0 []) mapsAtTen_small hok ?_
  exact @TimedHistory.commit Crates.plain ok _ _ [] insertAtTen (by decide +kernel)
    (by decide +kernel) (@TimedHistory.start Crates.plain ok)

/-- By time 20 the transaction is not late, so the compaction does no harm. -/
theorem recovery_in_time_twenty :
    wp (@recoverTo Crates.plain
        (@SyncDiskStorage.streamLogInto Crates.plain diskAtTen.snapshot diskAtTen.log) (some 20) none)
      (fun es _ => ∀ e ∈ es, e.cmd = IKEY_INSERT →
        InTime 20 [insertAtTen] e.collection e.key e.value)
      (fun _ _ => False) (oneTxFs []) := by
  refine @recovery_in_time 20 [insertAtTen] Crates.plain diskAtTen mapsAtTen ?_ (oneTxFs [])
  refine @TimedHistory.docs_in_time 20 [insertAtTen] Crates.plain _ _ (history_atTen ?_)
  intro w hw hlate
  rw [List.mem_singleton.1 hw] at hlate
  exact absurd (hlate insertAtTen.opening List.mem_cons_self) (by decide)

/-- **Recovery returns the future.** A document that was inserted at time 10 and then compacted is
    recovered up to time 5. -/
theorem future_recovered :
    ∃ (d : Disk) (m : Recovered) (ws : List Transaction),
      @TimedHistory Crates.plain (fun _ _ => True) d m ws ∧
      (∀ w ∈ ws, w.Late 5) ∧ ∀ fs, wp (@recoverTo Crates.plain
          (@SyncDiskStorage.streamLogInto Crates.plain d.snapshot d.log) (some 5) none)
        (fun es _ => ∃ e ∈ es, e.cmd = IKEY_INSERT ∧
          ∃ w ∈ ws, w.Wrote e.collection e.key e.value)
        (fun _ _ => False) fs := by
  refine ⟨diskAtTen, mapsAtTen, [insertAtTen], history_atTen trivial, ?_, fun fs => ?_⟩
  · intro w hw
    rw [List.mem_singleton.1 hw]
    show ∀ e ∈ insertAtTen.entries, 5 < e._t
    decide +kernel
  · refine wp_mono (@compacted_recovered Crates.plain mapsAtTen mapsAtTen_small (World.plain 0 [])
      (plain_calm 0) _ 5 fs) (fun es _ h => ?_) (fun _ _ h => h)
    obtain ⟨e, he, hcmd, hc, hk, hv⟩ := h "c" "a" (.obj []) (by decide +kernel)
    exact ⟨e, he, hcmd, insertAtTen, List.mem_singleton.2 rfl, _, List.mem_singleton.2 rfl, rfl,
      hc.symm, hk.symm, hv.symm⟩

end

end MoltenDB
