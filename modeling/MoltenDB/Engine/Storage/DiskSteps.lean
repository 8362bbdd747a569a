/-
  What compaction does to the files, whatever fails.

  Until the old snapshot is moved the files are as before (`Fs.Quiet`).  A snapshot
  that was written is an enumeration of the maps (`Enumerates`).
-/
import MoltenDB.Engine.Storage.Disk
import MoltenDB.Lib.Overwrite

namespace MoltenDB

open Wire Prog Prog.Eff LogCommand

/-- No operation fails. -/
def World.Calm (w : World) : Prop := ∀ n, w.fault n = none

theorem plain_calm (start : UInt64) : (World.plain start []).Calm := fun n => by simp [World.plain]

/-- The operation succeeded in the run. -/
def Fs.did (fs : Fs) (op : FileOp) : Prop := op ∈ fs.trace.map Prod.fst

instance (fs : Fs) (op : FileOp) : Decidable (fs.did op) := inferInstanceAs (Decidable (_ ∈ _))

variable {α : Type} {Q : α → Fs → Prop} {E : DbError → Fs → Prop} {fs : Fs}

theorem wp_fileOp {op : FileOp} {f : Disk → Disk} {Q : Unit → Fs → Prop}
    (ok : ∀ n, Q () { fs with
      disk := f fs.disk, tick := n, trace := fs.trace ++ [(op, f fs.disk)] })
    (error : ∀ err n, ¬ fs.world.Calm → E err { fs with tick := n }) :
    wp (fileOp op f) Q E fs := by
  unfold wp fileOp
  cases hf : fs.world.fault fs.tick with
  | none => exact ok _
  | some err => exact error _ _ fun hc => by rw [hc fs.tick] at hf; cases hf

theorem wp_walkMap {m : DashMap α} {Q : List (String × α) → Fs → Prop}
    (h : ∀ ks n, ks.Perm m.keys → Q (m.inOrder ks) { fs with tick := n }) :
    wp (walkMap m) Q E fs := h _ _ (fs.world.order_perm _ _)

/-! ## Before anything is moved -/

/-- Since the run began with the files `d`, the log and the live snapshot were not touched. -/
structure Fs.Quiet (w : World) (d : Disk) (fs : Fs) : Prop where
  world : fs.world = w
  log : fs.disk.log = d.log
  snapshot : fs.disk.snapshot = d.snapshot
  trace : ∀ x ∈ fs.trace, x.1 ≠ .backupSnapshot ∧ x.1 ≠ .installLog ∧ x.2.log = d.log ∧
    x.2.snapshot = d.snapshot

variable {w : World} {d : Disk}

theorem Fs.Quiet.tick (h : fs.Quiet w d) (n : ℕ) : Fs.Quiet w d { fs with tick := n } :=
  ⟨h.world, h.log, h.snapshot, h.trace⟩

theorem Fs.Quiet.wp_op (h : fs.Quiet w d) {op : FileOp} {f : Disk → Disk}
    (hop : op ≠ .backupSnapshot ∧ op ≠ .installLog)
    (hf : ∀ d, (f d).log = d.log ∧ (f d).snapshot = d.snapshot) :
    wp (fileOp op f) (fun _ => Fs.Quiet w d) (fun _ fs' => fs'.Quiet w d ∧ ¬ w.Calm) fs := by
  refine wp_fileOp (fun n => ?_) (fun _ n hc => ⟨h.tick n, h.world ▸ hc⟩)
  have h1 := (hf fs.disk).1.trans h.log
  have h2 := (hf fs.disk).2.trans h.snapshot
  refine ⟨h.world, h1, h2, fun x hx => ?_⟩
  rcases List.mem_append.1 hx with hx | hx
  · exact h.trace x hx
  · rw [List.mem_singleton.1 hx]; exact ⟨hop.1, hop.2, h1, h2⟩

theorem Fs.Quiet.wp_writeEntryToGz (h : fs.Quiet w d) (es : List LogEntry) (cmd c k : String)
    (v : Json) :
    wp (writeEntryToGz es cmd c k v)
      (fun es' fs' => fs'.Quiet w d ∧ es' = es ++ [⟨cmd, c, k, v, 0⟩])
      (fun _ fs' => fs'.Quiet w d ∧ ¬ w.Calm) fs := by
  simp only [writeEntryToGz, wp_bind, wp_pure, and_true]
  exact h.wp_op ⟨by decide, by decide⟩ fun _ => ⟨rfl, rfl⟩

/-- The entry of a document, if it decodes. -/
def docEntry (c : String) (doc : String × Bytes) : Option LogEntry :=
  (msgpackToValue doc.2).map fun v => ⟨IKEY_INSERT, c, doc.1, v, 0⟩

def schemaEntry (schema : String × Schema) : LogEntry := ⟨SCHEMA, schema.1, "", schema.2.value, 0⟩

theorem Fs.Quiet.wp_writeDocs (h : fs.Quiet w d) (c : String) (docs : List (String × Bytes))
    (es : List LogEntry) :
    wp (writeDocs c docs es)
      (fun es' fs' => fs'.Quiet w d ∧ es' = es ++ docs.filterMap (docEntry c))
      (fun _ fs' => fs'.Quiet w d ∧ ¬ w.Calm) fs := by
  induction docs generalizing es fs with
  | nil => exact ⟨h, by simp⟩
  | cons doc docs ih =>
    obtain ⟨k, bytes⟩ := doc
    rw [writeDocs]
    cases hv : msgpackToValue bytes with
    | none =>
      rw [List.filterMap_cons_none (by simp [docEntry, hv])]
      exact ih h es
    | some v =>
      simp only [wp_bind]
      refine wp_mono (h.wp_writeEntryToGz es IKEY_INSERT c k v) (fun es₁ fs₁ h₁ => ?_)
        (fun _ _ h => h)
      refine wp_mono (ih h₁.1 es₁) (fun es₂ fs₂ h₂ => ⟨h₂.1, ?_⟩) (fun _ _ h => h)
      rw [h₂.2, h₁.2, List.filterMap_cons_some (b := ⟨IKEY_INSERT, c, k, v, 0⟩)
        (by simp [docEntry, hv]), List.append_assoc]
      rfl

/-- The entries are those of the documents of the collections `cols`, each collection in some
    order. -/
inductive DocEntries : List (String × DashMap Bytes) → List LogEntry → Prop
  | nil : DocEntries [] []
  | cons {c : String} {col : DashMap Bytes} {cols : List (String × DashMap Bytes)}
    {es : List LogEntry} {ks : List String} (hks : ks.Perm col.keys) (h : DocEntries cols es) :
    DocEntries ((c, col) :: cols) ((col.inOrder ks).filterMap (docEntry c) ++ es)

theorem Fs.Quiet.wp_writeCollections (h : fs.Quiet w d) (cols : List (String × DashMap Bytes))
    (es : List LogEntry) :
    wp (writeCollections cols es)
      (fun es' fs' => fs'.Quiet w d ∧ ∃ new, DocEntries cols new ∧ es' = es ++ new)
      (fun _ fs' => fs'.Quiet w d ∧ ¬ w.Calm) fs := by
  induction cols generalizing es fs with
  | nil => exact ⟨h, [], .nil, by simp⟩
  | cons p cols ih =>
    obtain ⟨c, col⟩ := p
    simp only [writeCollections, wp_bind]
    refine wp_walkMap fun ks n hks => ?_
    refine wp_mono ((h.tick n).wp_writeDocs c _ es) (fun es₁ fs₁ h₁ => ?_) (fun _ _ h => h)
    refine wp_mono (ih h₁.1 es₁) (fun es₂ fs₂ h₂ => ⟨h₂.1, ?_⟩) (fun _ _ h => h)
    obtain ⟨new, hnew, heq⟩ := h₂.2
    exact ⟨_, .cons hks hnew, by rw [heq, h₁.2, List.append_assoc]⟩

theorem Fs.Quiet.wp_writeSchemas (h : fs.Quiet w d) (schemas : List (String × Schema))
    (es : List LogEntry) :
    wp (writeSchemas schemas es)
      (fun es' fs' => fs'.Quiet w d ∧ es' = es ++ schemas.map schemaEntry)
      (fun _ fs' => fs'.Quiet w d ∧ ¬ w.Calm) fs := by
  induction schemas generalizing es fs with
  | nil => exact ⟨h, by simp⟩
  | cons p schemas ih =>
    obtain ⟨c, schema⟩ := p
    simp only [writeSchemas, wp_bind]
    refine wp_mono (h.wp_writeEntryToGz es SCHEMA c "" schema.value) (fun es₁ fs₁ h₁ => ?_)
      (fun _ _ h => h)
    refine wp_mono (ih h₁.1 es₁) (fun es₂ fs₂ h₂ => ⟨h₂.1, ?_⟩) (fun _ _ h => h)
    rw [h₂.2, h₁.2, List.append_assoc]
    rfl

/-- The entries of a snapshot of the maps, in some order. -/
def Enumerates (state : State) (schemas : DashMap Schema) (es : List LogEntry) : Prop :=
  ∃ cs docs ss, cs.Perm state.keys ∧ DocEntries (state.inOrder cs) docs ∧ ss.Perm schemas.keys ∧
    es = docs ++ (schemas.inOrder ss).map schemaEntry

/-! ## The snapshot -/

variable [Crates]

/-- Installing the new snapshot failed: the old one is in its place or was moved. -/
structure Fs.NotInstalled (d : Disk) (fs : Fs) : Prop where
  log : fs.disk.log = d.log
  snapshot : fs.disk.snapshot = if fs.did .backupSnapshot then none else d.snapshot
  noSwap : ¬ fs.did .installLog

/-- The new snapshot, of the entries `es`, is in its place. -/
structure Fs.Installed (w : World) (d : Disk) (new : Bytes) (fs : Fs) : Prop where
  world : fs.world = w
  log : fs.disk.log = d.log
  snapshot : fs.disk.snapshot = some new
  trace : ∀ x ∈ fs.trace, x.1 ≠ .installLog ∧ x.2.log = d.log ∧
    (x.1 = .backupSnapshot ∧ x.2.snapshot = none ∨
      x.1 ≠ .backupSnapshot ∧ (x.2.snapshot = d.snapshot ∨ x.2.snapshot = some new))

/-- The temporary file holds the new snapshot; the old one is in its place or was moved. -/
structure Fs.Finished (w : World) (d : Disk) (new : Bytes) (fs : Fs) : Prop where
  world : fs.world = w
  log : fs.disk.log = d.log
  tmp : fs.disk.snapshotTmp = some new
  snapshot : fs.disk.snapshot = if fs.did .backupSnapshot then none else d.snapshot
  trace : ∀ x ∈ fs.trace, x.1 ≠ .installLog ∧ x.2.log = d.log ∧
    (x.1 = .backupSnapshot ∧ x.2.snapshot = none ∨
      x.1 ≠ .backupSnapshot ∧ x.2.snapshot = d.snapshot)

section

omit [Crates]

theorem Fs.Quiet.not_did (h : fs.Quiet w d) : ¬ fs.did .backupSnapshot ∧ ¬ fs.did .installLog := by
  constructor
  · intro hdid
    obtain ⟨x, hx, hop⟩ := List.mem_map.1 hdid
    exact (h.trace x hx).1 hop
  · intro hdid
    obtain ⟨x, hx, hop⟩ := List.mem_map.1 hdid
    exact (h.trace x hx).2.1 hop

theorem Fs.Quiet.notInstalled (h : fs.Quiet w d) : fs.NotInstalled d :=
  ⟨h.log, by rw [if_neg h.not_did.1, h.snapshot], h.not_did.2⟩

variable {new : Bytes}

theorem Fs.Finished.notInstalled (h : fs.Finished w d new) : fs.NotInstalled d := by
  refine ⟨h.log, h.snapshot, fun hdid => ?_⟩
  obtain ⟨x, hx, hop⟩ := List.mem_map.1 hdid
  exact (h.trace x hx).1 hop

theorem Fs.Finished.tick (h : fs.Finished w d new) (n : ℕ) :
    Fs.Finished w d new { fs with tick := n } := ⟨h.world, h.log, h.tmp, h.snapshot, h.trace⟩

theorem did_append {op op' : FileOp} {d' : Disk} {n : ℕ} :
    Fs.did { fs with disk := d', tick := n, trace := fs.trace ++ [(op', d')] } op ↔
      fs.did op ∨ op = op' := by
  simp [Fs.did]

theorem Fs.Quiet.finished (h : fs.Quiet w d) (htmp : fs.disk.snapshotTmp = some new) :
    fs.Finished w d new := by
  refine ⟨h.world, h.log, htmp, by rw [if_neg h.not_did.1, h.snapshot], fun x hx => ?_⟩
  obtain ⟨h1, h2, h3, h4⟩ := h.trace x hx
  exact ⟨h2, h3, Or.inr ⟨h1, h4⟩⟩

/-- The old snapshot is moved away, or stays. -/
theorem Fs.Quiet.wp_backupSnapshot (h : fs.Quiet w d) (htmp : fs.disk.snapshotTmp = some new) :
    wp (outcome (fileOp .backupSnapshot fun d => { d with snapshot := none }))
      (fun _ => Fs.Finished w d new) (fun _ _ => False) fs := by
  rw [wp_outcome]
  refine wp_fileOp (fun n => ?_) (fun _ n _ => (h.finished htmp).tick n)
  refine ⟨h.world, h.log, htmp, by rw [if_pos (did_append.2 (Or.inr rfl))], fun x hx => ?_⟩
  rcases List.mem_append.1 hx with hx | hx
  · exact (h.finished htmp).trace x hx
  · rw [List.mem_singleton.1 hx]
    exact ⟨nofun, h.log, Or.inl ⟨rfl, rfl⟩⟩

theorem Fs.Finished.wp_installSnapshot (h : fs.Finished w d new) :
    wp (fileOp .installSnapshot fun d =>
        { d with snapshot := d.snapshotTmp, snapshotTmp := none })
      (fun _ => Fs.Installed w d new) (fun _ fs' => fs'.NotInstalled d ∧ ¬ w.Calm) fs := by
  refine wp_fileOp (fun n => ?_) (fun _ n hc => ⟨(h.tick n).notInstalled, h.world ▸ hc⟩)
  refine ⟨h.world, h.log, h.tmp, fun x hx => ?_⟩
  rcases List.mem_append.1 hx with hx | hx
  · obtain ⟨h1, h2, h3 | h3⟩ := h.trace x hx
    · exact ⟨h1, h2, Or.inl h3⟩
    · exact ⟨h1, h2, Or.inr ⟨h3.1, Or.inl h3.2⟩⟩
  · rw [List.mem_singleton.1 hx]
    exact ⟨nofun, h.log, Or.inr ⟨nofun, Or.inr h.tmp⟩⟩

end

/-- The new snapshot is installed, or the old one is in its place or was moved. -/
theorem Fs.Quiet.wp_finishSnapshotGz (h : fs.Quiet w d) (seq count : ℕ) (es : List LogEntry) :
    wp (finishSnapshotGz seq count es)
      (fun _ => Fs.Installed w d (snapshotFile seq count es))
      (fun _ fs' => fs'.NotInstalled d ∧ ¬ w.Calm) fs := by
  have herr : ∀ fs' : Fs, fs'.Quiet w d ∧ ¬ w.Calm → fs'.NotInstalled d ∧ ¬ w.Calm :=
    fun _ h => ⟨h.1.notInstalled, h.2⟩
  have htmp : ∀ {op f} {fs : Fs} {new : Bytes}, (∀ d : Disk, (f d).snapshotTmp = some new) →
      wp (fileOp op f) (fun _ fs' => fs'.disk.snapshotTmp = some new) (fun _ _ => True) fs :=
    fun hf => wp_fileOp (fun _ => hf _) (fun _ _ _ => trivial)
  simp only [finishSnapshotGz, wp_bind, wp_get]
  refine wp_mono (wp_and (h.wp_op ⟨by decide, by decide⟩ fun _ => ⟨rfl, rfl⟩)
    (htmp fun _ => rfl)) (fun _ fs₁ h₁ => ?_) (fun _ fs' h => herr fs' h.1)
  split_ifs
  · simp only [wp_bind]
    refine wp_mono (wp_and (h₁.1.wp_op ⟨by decide, by decide⟩ fun _ => ⟨rfl, rfl⟩)
      (wp_fileOp (Q := fun _ fs' => fs'.disk.snapshotTmp = some (snapshotFile seq count es))
        (E := fun _ _ => True) (fun _ => h₁.2) (fun _ _ _ => trivial)))
      (fun _ fs₂ h₂ => ?_) (fun _ fs' h => herr fs' h.1)
    exact wp_mono (h₂.1.wp_backupSnapshot h₂.2) (fun _ _ h₃ => h₃.wp_installSnapshot)
      (fun _ _ h => h.elim)
  · exact (h₁.1.finished h₁.2).wp_installSnapshot

/-- **Writing a snapshot** installs an enumeration of the maps, or leaves the log alone and the
    old snapshot in its place or moved. -/
theorem Fs.Quiet.wp_writeSnapshotFromMaps (h : fs.Quiet w d) (state : State)
    (schemas : DashMap Schema) (seq : ℕ) :
    wp (writeSnapshotFromMaps state schemas seq)
      (fun _ fs' => ∃ es, Enumerates state schemas es ∧
        fs'.Installed w d (snapshotFile seq (entryCount state schemas) es))
      (fun _ fs' => fs'.NotInstalled d ∧ ¬ w.Calm) fs := by
  have herr : ∀ fs' : Fs, fs'.Quiet w d ∧ ¬ w.Calm → fs'.NotInstalled d ∧ ¬ w.Calm :=
    fun _ h => ⟨h.1.notInstalled, h.2⟩
  simp only [writeSnapshotFromMaps, openSnapshotGz, wp_bind]
  refine wp_mono (h.wp_op ⟨by decide, by decide⟩ fun _ => ⟨rfl, rfl⟩) (fun _ fs₁ h₁ => ?_)
    (fun _ fs' h => herr fs' h)
  refine wp_walkMap fun cs n hcs => ?_
  refine wp_mono ((h₁.tick n).wp_writeCollections _ []) (fun es₂ fs₂ h₂ => ?_)
    (fun _ fs' h => herr fs' h)
  obtain ⟨h₂, docs, hdocs, rfl⟩ := h₂
  refine wp_walkMap fun ss m hss => ?_
  refine wp_mono ((h₂.tick m).wp_writeSchemas _ _) (fun es₃ fs₃ h₃ => ?_)
    (fun _ fs' h => herr fs' h)
  obtain ⟨h₃, rfl⟩ := h₃
  refine wp_mono (h₃.wp_finishSnapshotGz seq _ _) (fun _ fs₄ h₄ => ?_) (fun _ _ h => h)
  exact ⟨_, ⟨cs, _, ss, hcs, hdocs, hss, rfl⟩, h₄⟩

/-! ## The log -/

/-- Since `fs₀` the snapshot was left alone, and the log left alone or replaced by an empty
    one. -/
structure Fs.Swapping (fs₀ fs : Fs) : Prop where
  world : fs.world = fs₀.world
  snapshot : fs.disk.snapshot = fs₀.disk.snapshot
  log : fs.disk.log = if fs.did .installLog then some [] else fs₀.disk.log
  trace : ∃ new, fs.trace = fs₀.trace ++ new ∧ ∀ x ∈ new, x.1 ≠ .backupSnapshot ∧
    x.2.snapshot = fs₀.disk.snapshot ∧ (x.2.log = fs₀.disk.log ∨ x.2.log = some [])

/-- The log was not replaced yet, and the temporary one is empty. -/
structure Fs.Prepared (fs₀ fs : Fs) : Prop extends Fs.Swapping fs₀ fs where
  tmp : fs.disk.logTmp = some []
  noSwap : ¬ fs.did .installLog

section

omit [Crates]

variable {fs₀ : Fs}

theorem Fs.Swapping.refl (h : ¬ fs.did .installLog) : Fs.Swapping fs fs :=
  ⟨rfl, rfl, by rw [if_neg h], [], by simp, by simp⟩

theorem Fs.Swapping.did_backup (h : Fs.Swapping fs₀ fs) :
    fs.did .backupSnapshot ↔ fs₀.did .backupSnapshot := by
  obtain ⟨new, htrace, hnew⟩ := h.trace
  have hno : FileOp.backupSnapshot ∉ new.map Prod.fst := by
    intro hmem
    obtain ⟨x, hx, hop⟩ := List.mem_map.1 hmem
    exact (hnew x hx).1 hop
  simp only [Fs.did, htrace, List.map_append, List.mem_append, hno, or_false]

theorem Fs.Swapping.tick (h : Fs.Swapping fs₀ fs) (n : ℕ) :
    Fs.Swapping fs₀ { fs with tick := n } := ⟨h.world, h.snapshot, h.log, h.trace⟩

/-- An operation other than the replacement of the log. -/
theorem Fs.Swapping.wp_op (h : Fs.Swapping fs₀ fs) {op : FileOp} {f : Disk → Disk}
    (hop : op ≠ .backupSnapshot ∧ op ≠ .installLog)
    (hf : ∀ d, (f d).log = d.log ∧ (f d).snapshot = d.snapshot) :
    wp (fileOp op f) (fun _ => Fs.Swapping fs₀) (fun _ => Fs.Swapping fs₀) fs := by
  refine wp_fileOp (fun n => ?_) (fun _ n _ => h.tick n)
  obtain ⟨new, htrace, hnew⟩ := h.trace
  have h1 := (hf fs.disk).1
  have h2 := (hf fs.disk).2.trans h.snapshot
  refine ⟨h.world, h2, ?_, new ++ [(op, f fs.disk)], by simp [htrace], fun x hx => ?_⟩
  · simp only [did_append, Ne.symm hop.2, or_false, h1, h.log]
  · rcases List.mem_append.1 hx with hx | hx
    · exact hnew x hx
    · rw [List.mem_singleton.1 hx]
      refine ⟨hop.1, h2, ?_⟩
      simp only [h1, h.log]
      split_ifs
      · exact Or.inr rfl
      · exact Or.inl rfl

theorem Fs.Prepared.wp_op (h : Fs.Prepared fs₀ fs) {op : FileOp}
    (hop : op ≠ .backupSnapshot ∧ op ≠ .installLog) :
    wp (fileOp op id) (fun _ => Fs.Prepared fs₀) (fun _ => Fs.Prepared fs₀) fs := by
  have hdid : ∀ n, ¬ Fs.did { fs with tick := n, trace := fs.trace ++ [(op, fs.disk)] }
      .installLog := fun n hd => (did_append.1 hd).elim h.noSwap (Ne.symm hop.2)
  have hkeep : wp (fileOp op id) (fun _ fs' => fs'.disk.logTmp = some [] ∧ ¬ fs'.did .installLog)
      (fun _ fs' => fs'.disk.logTmp = some [] ∧ ¬ fs'.did .installLog) fs :=
    wp_fileOp (fun n => ⟨h.tmp, hdid n⟩) (fun _ n _ => ⟨h.tmp, h.noSwap⟩)
  exact wp_mono (wp_and (h.toSwapping.wp_op hop fun _ => ⟨rfl, rfl⟩) hkeep)
    (fun _ _ h => ⟨h.1, h.2.1, h.2.2⟩) (fun _ _ h => ⟨h.1, h.2.1, h.2.2⟩)

/-- Replacing the log, or not. -/
theorem Fs.Prepared.wp_installLog (h : Fs.Prepared fs₀ fs) :
    wp (fileOp .installLog fun d => { d with log := d.logTmp, logTmp := none })
      (fun _ => Fs.Swapping fs₀) (fun _ => Fs.Swapping fs₀) fs := by
  refine wp_fileOp (fun n => ?_) (fun _ n _ => h.toSwapping.tick n)
  obtain ⟨new, htrace, hnew⟩ := h.trace
  refine ⟨h.world, h.snapshot, ?_, new ++ [_], by rw [htrace, List.append_assoc], fun x hx => ?_⟩
  · rw [if_pos (did_append.2 (Or.inr rfl))]
    exact h.tmp
  · rcases List.mem_append.1 hx with hx | hx
    · exact hnew x hx
    · rw [List.mem_singleton.1 hx]
      exact ⟨nofun, h.snapshot, Or.inr h.tmp⟩

theorem Fs.Prepared.wp_renameLog (h : Fs.Prepared fs₀ fs) :
    wp renameLog (fun _ => Fs.Swapping fs₀) (fun _ => Fs.Swapping fs₀) fs := by
  simp only [renameLog, wp_bind, wp_outcome]
  refine wp_mono h.wp_installLog (fun _ fs₁ h₁ => h₁) (fun err fs₁ h₁ => ?_)
  simp only [wp_pure]
  exact h₁.wp_op ⟨by decide, by decide⟩ fun _ => ⟨rfl, rfl⟩

/-- **Swapping the log** leaves the snapshot alone, and the log alone or empty. -/
theorem wp_swapLog (h : ¬ fs.did .installLog) (mode : Mode) :
    wp (swapLog mode) (fun _ => Fs.Swapping fs) (fun _ => Fs.Swapping fs) fs := by
  have hstart : wp writeCompactedLog (fun _ => Fs.Prepared fs) (fun _ => Fs.Swapping fs) fs := by
    have hkeep : wp writeCompactedLog
        (fun _ fs' => fs'.disk.logTmp = some [] ∧ ¬ fs'.did .installLog) (fun _ _ => True) fs :=
      wp_fileOp (fun n => ⟨rfl, fun hd => (did_append.1 hd).elim h nofun⟩) (fun _ _ _ => trivial)
    unfold writeCompactedLog at hkeep ⊢
    exact wp_mono (wp_and ((Fs.Swapping.refl h).wp_op ⟨by decide, by decide⟩ fun _ => ⟨rfl, rfl⟩)
      hkeep) (fun _ _ h => ⟨h.1, h.2.1, h.2.2⟩) (fun _ _ h => h.1)
  simp only [swapLog, wp_bind]
  refine wp_mono hstart (fun _ fs₁ h₁ => ?_) (fun _ _ h => h)
  cases mode with
  | sync =>
    simp only [wp_bind]
    refine wp_mono (h₁.wp_op ⟨by decide, by decide⟩) (fun _ fs₂ h₂ => ?_)
      (fun _ _ h => h.toSwapping)
    refine wp_mono h₂.wp_renameLog (fun res fs₃ h₃ => ?_) (fun _ _ h => h)
    cases res with
    | error err => exact h₃
    | ok u => exact h₃.wp_op ⟨by decide, by decide⟩ fun _ => ⟨rfl, rfl⟩
  | async sender =>
    cases sender with
    | false => exact h₁.wp_installLog
    | true =>
      simp only [wp_bind, wp_outcome, wp_pure]
      refine wp_mono (h₁.wp_op ⟨by decide, by decide⟩) (fun _ fs₂ h₂ => ?_)
        (fun _ _ h => h.toSwapping)
      exact wp_mono (h₂.wp_op ⟨by decide, by decide⟩) (fun _ _ h₃ => h₃.wp_renameLog)
        (fun _ _ h₃ => h₃.wp_renameLog)

/-- An operation that cannot fail succeeds. -/
theorem wp_op_calm (hw : fs.world = w) (op : FileOp) (f : Disk → Disk) :
    wp (fileOp op f) (fun _ fs' => fs'.world = w ∧ fs'.did op ∧ ∀ op', fs.did op' → fs'.did op')
      (fun _ fs' => fs'.world = w ∧ ¬ w.Calm) fs :=
  wp_fileOp (fun _ => ⟨hw, did_append.2 (Or.inr rfl), fun _ h => did_append.2 (Or.inl h)⟩)
    (fun _ _ hc => ⟨hw, hw ▸ hc⟩)

/-- The synchronous storage replaces the log, unless an operation fails. -/
theorem wp_swapLog_sync (hw : fs.world = w) :
    wp (swapLog .sync) (fun _ fs' => fs'.did .installLog) (fun _ _ => ¬ w.Calm) fs := by
  simp only [swapLog, wp_bind, writeCompactedLog, renameLog, wp_outcome, wp_pure]
  refine wp_mono (wp_op_calm hw .writeLogTmp _) (fun _ fs₁ h₁ => ?_) (fun _ _ h => h.2)
  refine wp_mono (wp_op_calm h₁.1 .lockWriter _) (fun _ fs₂ h₂ => ?_) (fun _ _ h => h.2)
  refine wp_mono (wp_op_calm h₂.1 .installLog _) (fun _ fs₃ h₃ => ?_) (fun err fs₃ h₃ => ?_)
  · exact wp_mono (wp_op_calm h₃.1 .reopenLog _) (fun _ _ h₄ => h₄.2.2 _ h₃.2.1) (fun _ _ h => h.2)
  · exact wp_mono (wp_op_calm h₃.1 .removeLogTmp _) (fun _ _ _ => h₃.2) (fun _ _ h => h.2)

end

/-- The files after an operation of a compaction in which nothing fails, when it began with the
    files `d` and the new snapshot is `new`. -/
def OnTheWay (d : Disk) (new : Bytes) (x : FileOp × Disk) : Prop :=
  (x.1 = .backupSnapshot ∧ x.2.log = d.log ∧ x.2.snapshot = none) ∨
    (x.1 ≠ .backupSnapshot ∧ (x.2.log = d.log ∧ x.2.snapshot = d.snapshot ∨
      x.2.snapshot = some new ∧ (x.2.log = d.log ∨ x.2.log = some [])))

/-- **A compaction in which nothing fails**: the files on the way and at its end. -/
theorem wp_compactFromMaps_calm (hw : w.Calm) (state : State) (schemas : DashMap Schema) :
    wp (compactFromMaps .sync state schemas)
      (fun _ fs' => ∃ es, Enumerates state schemas es ∧ fs'.disk.log = some [] ∧
        fs'.disk.snapshot = some (snapshotFile 0 (entryCount state schemas) es) ∧
        ∀ x ∈ fs'.trace, OnTheWay d (snapshotFile 0 (entryCount state schemas) es) x)
      (fun _ _ => False) ⟨d, w, 0, []⟩ := by
  have hquiet : Fs.Quiet w d ⟨d, w, 0, []⟩ := ⟨rfl, rfl, rfl, by simp⟩
  simp only [compactFromMaps, wp_bind, wp_outcome]
  refine wp_mono (hquiet.wp_writeSnapshotFromMaps state schemas 0) (fun _ fs₁ h₁ => ?_)
    (fun _ _ h => absurd hw h.2)
  obtain ⟨es, hes, h₁⟩ := h₁
  have hno : ¬ fs₁.did .installLog := by
    intro hdid
    obtain ⟨x, hx, hop⟩ := List.mem_map.1 hdid
    exact (h₁.trace x hx).1 hop
  refine wp_mono (wp_and (wp_swapLog hno .sync) (wp_swapLog_sync h₁.world))
    (fun _ fs₂ h₂ => ?_) (fun _ _ h => absurd hw h.2)
  obtain ⟨hswap, hdid⟩ := h₂
  refine ⟨es, hes, by rw [hswap.log, if_pos hdid], by rw [hswap.snapshot, h₁.snapshot],
    fun x hx => ?_⟩
  obtain ⟨new, htrace, hnew⟩ := hswap.trace
  rw [htrace] at hx
  rcases List.mem_append.1 hx with hx | hx
  · obtain ⟨-, hlog, ⟨hop, hsnap⟩ | ⟨hop, hsnap | hsnap⟩⟩ := h₁.trace x hx
    · exact Or.inl ⟨hop, hlog, hsnap⟩
    · exact Or.inr ⟨hop, Or.inl ⟨hlog, hsnap⟩⟩
    · exact Or.inr ⟨hop, Or.inr ⟨hsnap, Or.inl hlog⟩⟩
  · obtain ⟨hop, hsnap, hlog⟩ := hnew x hx
    rw [h₁.snapshot] at hsnap
    rw [h₁.log] at hlog
    exact Or.inr ⟨hop, Or.inr ⟨hsnap, hlog⟩⟩

end MoltenDB
