/-
  The in-memory documents mirror the log.

  Between operations the effects of the log, read back, write exactly the
  documents in memory (`Idle`); inside a transaction they do so together with the
  entries logged so far (`InTx`).  Each operation of the engine keeps this, as
  long as no write fails and all lengths fit their headers (`Clean`).
-/
import MoltenDB.Engine.Steps
import MoltenDB.Engine.Storage.Registers

namespace MoltenDB

open Wire Prog Prog.Eff LogCommand

/-- The reader of a journal after the log, read back. -/
def logReader (log : List LogEntry) : Journal.Reader String LogEntry :=
  Journal.Reader.start.run (log.map fun e => e.canon.toRec)

/-- The entries of the log other than transaction markers, read back. -/
def logOps (log : List LogEntry) : List LogEntry :=
  Journal.ops (log.map fun e => e.canon.toRec)

/-- No write has failed, and all written lengths fit their headers. -/
def Db.Clean (db : Db) : Prop := db.failedWrites = 0 ∧ ∀ e ∈ db.log, e.Fits

instance (db : Db) : Decidable db.Clean := inferInstanceAs (Decidable (_ ∧ _))

variable [Crates]

/-- What an entry writes into a document by itself, the expiry of collections aside. -/
def LogEntry.docWrites (e : LogEntry) (r : Reg) : Option Held :=
  if e.cmd = "TTL_EXPIRY" then none else e.writes 0 r

/-- The documents in memory are those that the entries `es` write. -/
def Db.Shows (db : Db) (es : List LogEntry) : Prop :=
  ∀ c k, (db.state.bytes c k).map msgpackToValue =
    Overwrite.replay LogEntry.docWrites (fun _ => none) es (.doc c k)

/-- Nothing is buffered, and the documents mirror the log. -/
def Db.Idle (db : Db) : Prop :=
  db.Clean → (logReader db.log).buffer = [] ∧ (logReader db.log).applied = logOps db.log ∧
    db.Shows (logOps db.log)

/-- No transaction is open, and the documents mirror the log. -/
def Db.Closed (db : Db) : Prop :=
  db.Clean → (logReader db.log).active = none ∧ (logReader db.log).buffer = [] ∧
    (logReader db.log).applied = logOps db.log ∧ db.Shows (logOps db.log)

/-- The transaction `id` is open, and with its entries the documents mirror the log. -/
def Db.InTx (id : String) (db : Db) : Prop :=
  db.Clean → (logReader db.log).active = some id ∧
    (logReader db.log).applied ++ (logReader db.log).buffer = logOps db.log ∧
    db.Shows (logOps db.log)

section

omit [Crates]

theorem logReader_append (log : List LogEntry) (e : LogEntry) :
    logReader (log ++ [e]) = (logReader log).step e.canon.toRec := by
  simp [logReader, Journal.Reader.run_append]

theorem logOps_append (log : List LogEntry) (e : LogEntry) :
    logOps (log ++ [e]) = logOps log ++ Journal.ops [e.canon.toRec] := by
  simp [logOps, Journal.ops_append]

theorem mem_logOps {log : List LogEntry} {e : LogEntry} (h : e ∈ logOps log) :
    ∃ e' ∈ log, e = e'.canon := by
  obtain ⟨e', he', heq⟩ := List.mem_map.1 (Journal.mem_ops.1 h)
  refine ⟨e', he', ?_⟩
  unfold LogEntry.toRec at heq
  split_ifs at heq
  cases heq
  rfl

theorem toRec_canon_begin (c id : String) (v : Json) (t : UInt64) :
    (LogEntry.mk IKEY_TX_BEGIN c id v t).canon.toRec = .opening id := rfl

theorem toRec_canon_commit (c id : String) (v : Json) (t : UInt64) :
    (LogEntry.mk IKEY_TX_COMMIT c id v t).canon.toRec = .commit id := rfl

theorem toRec_canon_op {cmd : String} (h : canon cmd ≠ IKEY_TX_BEGIN ∧ canon cmd ≠ IKEY_TX_COMMIT)
    (c k : String) (v : Json) (t : UInt64) :
    (LogEntry.mk cmd c k v t).canon.toRec = .op (LogEntry.mk cmd c k v t).canon := by
  simp [LogEntry.toRec, LogEntry.canon, h.1, h.2]

theorem Db.Clean.of_append {db db' : Db} {e : LogEntry} (h : db'.Clean)
    (hlog : db'.log = db.log ++ [e]) (hf : db'.failedWrites = db.failedWrites) :
    db.Clean ∧ e.Fits :=
  ⟨⟨hf ▸ h.1, fun e' he' => h.2 e' (by rw [hlog]; exact List.mem_append_left _ he')⟩,
    h.2 e (by rw [hlog]; simp)⟩

theorem not_clean_of_failed {db : Db} {n tick : ℕ} :
    ¬ Db.Clean { db with failedWrites := n + 1, tick := tick } := fun h => by simp [Db.Clean] at h

end

theorem Db.Idle.tick {db : Db} (h : db.Idle) (n : ℕ) : Db.Idle { db with tick := n } := h

theorem Db.InTx.tick {db : Db} {id : String} (h : db.InTx id) (n : ℕ) :
    Db.InTx id { db with tick := n } := h

theorem Db.Closed.idle {db : Db} (h : db.Closed) : db.Idle := fun hc => (h hc).2

theorem Db.Shows.congr {db db' : Db} {es : List LogEntry} (h : db.Shows es)
    (hs : ∀ c k, db'.state.bytes c k = db.state.bytes c k) : db'.Shows es := fun c k => by
  rw [hs]; exact h c k

/-! ## One entry at a time -/

theorem Db.Idle.wp_begin {db : Db} (h : db.Idle) (c id : String) :
    wp (writeNew IKEY_TX_BEGIN c id .null) (fun _ db' => db'.InTx id ∧ db'.Idle)
      (fun _ db' => ¬ db'.Clean) db := by
  refine wp_writeNew (fun t n => ?_) (fun _ _ => not_clean_of_failed)
  have hstep := logReader_append db.log ⟨IKEY_TX_BEGIN, c, id, .null, t⟩
  have hops := logOps_append db.log ⟨IKEY_TX_BEGIN, c, id, .null, t⟩
  rw [toRec_canon_begin] at hstep hops
  simp only [Journal.ops, List.append_nil] at hops
  constructor
  · intro hc
    obtain ⟨h1, h2, h3⟩ := h (hc.of_append rfl rfl).1
    simp only [hstep, hops, Journal.Reader.step, List.append_nil]
    exact ⟨trivial, h2, h3⟩
  · intro hc
    obtain ⟨h1, h2, h3⟩ := h (hc.of_append rfl rfl).1
    simp only [hstep, hops, Journal.Reader.step]
    exact ⟨trivial, h2, h3⟩

theorem Db.InTx.wp_commit {db : Db} {id : String} (h : db.InTx id) (c : String) :
    wp (writeNew IKEY_TX_COMMIT c id .null) (fun _ => Db.Closed) (fun _ db' => ¬ db'.Clean) db := by
  refine wp_writeNew (fun t n => ?_) (fun _ _ => not_clean_of_failed)
  intro hc
  have hstep := logReader_append db.log ⟨IKEY_TX_COMMIT, c, id, .null, t⟩
  have hops := logOps_append db.log ⟨IKEY_TX_COMMIT, c, id, .null, t⟩
  obtain ⟨h1, h2, h3⟩ := h (hc.of_append rfl rfl).1
  rw [toRec_canon_commit] at hops
  rw [toRec_canon_commit, Journal.Reader.step, if_pos h1] at hstep
  simp only [Journal.ops, List.append_nil] at hops
  simp only [hstep, hops]
  exact ⟨trivial, trivial, h2, h3⟩

/-- An entry that makes the change `ch` at any time and under any decoding. -/
structure Logs (cmd c k : String) (v : Json) (ch : Change) : Prop where
  isOp : canon cmd ≠ IKEY_TX_BEGIN ∧ canon cmd ≠ IKEY_TX_COMMIT
  notExpiry : canon cmd ≠ "TTL_EXPIRY"
  fits : v.Fits → ch.Fits
  writes : ∀ t r, (LogEntry.mk cmd c k v t).canon.writes 0 r = ch.writes r

theorem logs_insert (c k : String) (v : Json) : Logs IKEY_INSERT c k v (.put c k v) :=
  ⟨by decide, by decide, id, fun t r => by
    have hch : (LogEntry.mk IKEY_INSERT c k v t).canon.change 0 = some (.put c k v.canon) := rfl
    cases r <;> simp [LogEntry.writes, hch, Change.writes]⟩

theorem logs_delete (c k : String) (v : Json) : Logs IKEY_DELETE c k v (.remove c k) :=
  ⟨by decide, by decide, fun _ => trivial, fun _ _ => rfl⟩

theorem logs_drop (c k : String) (v : Json) : Logs IKEY_DROP c k v (.drop c) :=
  ⟨by decide, by decide, fun _ => trivial, fun _ _ => rfl⟩

/-- **A change made in memory and then logged** keeps the mirror. -/
theorem Db.InTx.wp_entry {db db' : Db} {id : String} (h : db.InTx id) {cmd c k : String} {v : Json}
    {ch : Change} (hl : Logs cmd c k v ch) (hlog : db'.log = db.log)
    (hf : db'.failedWrites = db.failedWrites)
    (hs : db'.state = (Recovered.apply ⟨db.state, ∅, ∅⟩ ch).state) :
    wp (writeNew cmd c k v) (fun _ => Db.InTx id) (fun _ db' => ¬ db'.Clean) db' := by
  refine wp_writeNew (fun t n => ?_) (fun _ _ => not_clean_of_failed)
  intro hc
  have hstep := logReader_append db.log ⟨cmd, c, k, v, t⟩
  have hops := logOps_append db.log ⟨cmd, c, k, v, t⟩
  have hc' : db.Clean ∧ (LogEntry.mk cmd c k v t).Fits :=
    hc.of_append (by simp [hlog]) (by simpa using hf)
  obtain ⟨h1, h2, h3⟩ := h hc'.1
  rw [toRec_canon_op hl.isOp] at hops
  rw [toRec_canon_op hl.isOp, Journal.Reader.step, h1] at hstep
  simp only [hlog, hstep, hops, Option.isSome_some, if_true, Journal.ops]
  refine ⟨trivial, by rw [← List.append_assoc, h2], fun c' k' => ?_⟩
  have hview := congrFun (view_apply ⟨db.state, ∅, ∅⟩ (hl.fits hc'.2.value)) (.doc c' k')
  simp only [Recovered.view, Overwrite.apply, ← hs] at hview
  have hdoc := h3 c' k'
  rw [Overwrite.replay_append]
  simp only [Overwrite.replay, List.foldl_cons, List.foldl_nil, Overwrite.apply,
    LogEntry.docWrites] at hdoc ⊢
  rw [if_neg (by exact hl.notExpiry), hl.writes, ← hdoc]
  exact hview

/-! ## The operations -/

omit [Crates] in
theorem bytes_touch (s : State) (c c' k' : String) :
    State.bytes (s.alter c fun col => some (col.getD ∅)) c' k' = s.bytes c' k' := by
  unfold State.bytes
  rw [Map.get?_alter]
  by_cases hc : c' = c
  · subst hc; cases h : s[c']? <;> simp
  · simp [hc]

theorem Db.InTx.wp_insertItem {db : Db} {id : String} (h : db.InTx id) (c : String)
    (item : String × Json) :
    wp (Operations.insertItem c item) (fun _ => Db.InTx id) (fun _ _ => True) db := by
  simp only [Operations.insertItem, Operations.nextSeq, wp_bind, wp_get, wp_modify, wp_pure,
    Operations.storeDoc, Operations.indexInsert, wp_send]
  refine wp_nowMs fun now n => ?_
  refine wp_prepare ?_ ?_ ?_ trivial <;> intros <;>
    exact wp_mono (h.wp_entry (logs_insert ..) rfl rfl rfl) (fun _ _ h => h) (fun _ _ _ => trivial)

/-- **An insert keeps the mirror.** -/
theorem Db.Idle.wp_insert {db : Db} (h : db.Idle) (c : String) (items : List (String × Json)) :
    wp (Operations.insert c items) (fun _ => Db.Closed) (fun _ _ => True) db := by
  simp only [Operations.insert, wp_bind, wp_modify]
  refine wp_newUuid fun id n => ?_
  have h' : Db.Idle { db with
      state := db.state.alter c fun col => some (col.getD ∅), tick := n } := fun hc =>
    ⟨(h hc).1, (h hc).2.1, (h hc).2.2.congr fun c' k' => bytes_touch db.state c c' k'⟩
  refine wp_mono (h'.wp_begin c id) (fun _ db₁ h₁ => ?_) (fun _ _ _ => trivial)
  refine wp_mono (wp_forEach (fun _ => Db.InTx id) (fun item _ _ h => h.wp_insertItem c item) items
    db₁ h₁.1) (fun _ db₂ h₂ => ?_) (fun _ _ _ => trivial)
  exact wp_mono (h₂.wp_commit c) (fun _ _ h => h) (fun _ _ _ => trivial)

theorem Db.InTx.wp_storeUpdate {db : Db} {id : String} (h : db.InTx id) (hi : db.Idle)
    (c k : String) (newValue : Json) :
    wp (Operations.storeUpdate c k id newValue) (fun _ => Db.Closed) (fun _ => Db.Idle) db := by
  simp only [Operations.storeUpdate, wp_bind, Operations.storeDoc, wp_modify, wp_send]
  refine wp_validateDocument (fun _ => ?_) hi
  refine wp_mono (h.wp_entry (logs_insert c k newValue) rfl rfl rfl) (fun _ db₂ h₂ => ?_)
    (fun _ _ h hc => absurd hc h)
  exact wp_mono (h₂.wp_commit c) (fun _ _ h => h) (fun _ _ h hc => absurd hc h)

/-- **An update keeps the mirror**, also when it fails. -/
theorem Db.Idle.wp_update {db : Db} (h : db.Idle) (c k : String) (updates : Json) :
    wp (Operations.update c k updates) (fun _ => Db.Closed) (fun _ => Db.Idle) db := by
  simp only [Operations.update, wp_bind, wp_get]
  refine wp_newUuid fun id n => ?_
  refine wp_mono ((h.tick n).wp_begin c id) (fun _ db₁ h₁ => ?_)
    (fun _ _ h hc => absurd hc h)
  split
  · rename_i doc _
    simp only [wp_bind, wp_pure]
    refine wp_mergeUpdate (fun _ => ?_) (fun _ _ _ _ _ n => ?_) h₁.2
    · exact h₁.1.wp_storeUpdate h₁.2 c k doc
    · exact (h₁.1.tick n).wp_storeUpdate (h₁.2.tick n) c k _
  · simp only [wp_bind, wp_pure]
    exact wp_mono (h₁.1.wp_commit c) (fun _ _ h => h) (fun _ _ h hc => absurd hc h)

theorem Db.InTx.wp_deleteItem {db : Db} {id : String} (h : db.InTx id) (c k : String) :
    wp (Operations.deleteItem c k) (fun _ => Db.InTx id) (fun _ db' => ¬ db'.Clean) db := by
  simp only [Operations.deleteItem, wp_bind, wp_get]
  split <;> simp only [wp_bind, Operations.indexRemove, Operations.removeDoc, wp_modify, wp_send] <;>
    exact wp_mono (h.wp_entry (logs_delete ..) rfl rfl rfl) (fun _ _ h => h) (fun _ _ h => h)

/-- **A delete keeps the mirror.** -/
theorem Db.Idle.wp_delete {db : Db} (h : db.Idle) (c : String) (keys : List String) :
    wp (Operations.delete c keys) (fun _ => Db.Closed) (fun _ db' => ¬ db'.Clean) db := by
  simp only [Operations.delete, wp_bind, wp_get]
  refine wp_newUuid fun id n => ?_
  refine wp_mono ((h.tick n).wp_begin c id) (fun _ db₁ h₁ => ?_)
    (fun _ _ h => h)
  split_ifs
  · rw [wp_bind]
    refine wp_mono (wp_forEach (fun _ => Db.InTx id) (fun k _ _ h => h.wp_deleteItem c k) keys
      db₁ h₁.1) (fun _ db₂ h₂ => h₂.wp_commit c) (fun _ _ h => h)
  · exact h₁.1.wp_commit c

theorem Db.Idle.wp_deleteCollection {db : Db} (h : db.Idle) (c : String) :
    wp (Operations.deleteCollection c) (fun _ => Db.Closed) (fun _ db' => ¬ db'.Clean) db := by
  simp only [Operations.deleteCollection, wp_bind, wp_modify, wp_send]
  refine wp_newUuid fun id n => ?_
  refine wp_mono ((h.tick n).wp_begin c id) (fun _ db₁ h₁ => ?_)
    (fun _ _ h => h)
  refine wp_mono (h₁.1.wp_entry (logs_drop c "*" .null) rfl rfl rfl) (fun _ db₂ h₂ => ?_)
    (fun _ _ h => h)
  exact wp_mono (h₂.wp_commit c) (fun _ _ h => h) (fun _ _ h => h)

theorem Db.Closed.wp_evictOldest {db : Db} (h : db.Closed) (c : String) (n : ℕ) :
    wp (Operations.evictOldest c n) (fun _ => Db.Closed) (fun _ => Db.Closed) db := by
  simp only [Operations.evictOldest, wp_bind, wp_get]
  split
  · exact h
  · simp only [wp_bind]
    refine wp_walk fun ks m _ => ?_
    split_ifs
    · exact h
    · simp only [wp_bind, wp_outcome, wp_pure]
      exact wp_mono ((h.idle.tick m).wp_delete c _) (fun _ _ h => h)
        (fun _ _ h hc => absurd hc h)

theorem Db.Idle.wp_deleteKeys {db : Db} (h : db.Idle) (c : String) (keys : List String) :
    wp (Operations.deleteKeys c keys) (fun _ => Db.Idle) (fun _ db' => ¬ db'.Clean) db := by
  unfold Operations.deleteKeys
  split_ifs
  · exact h
  · simp only [wp_bind, wp_pure]
    exact wp_mono (h.wp_delete c keys) (fun _ _ h => h.idle) (fun _ _ h => h)

theorem Db.Idle.wp_deleteFiltered {db : Db} (h : db.Idle) (c : String)
    (p : String → Bytes → Bool) (limit : Option ℕ) (asc : Bool) :
    wp (Operations.deleteFiltered c p limit asc) (fun _ => Db.Idle) (fun _ db' => ¬ db'.Clean)
      db := by
  simp only [Operations.deleteFiltered, wp_bind, wp_get]
  split
  · exact h
  · simp only [wp_bind]
    exact wp_walk fun ks n _ => (h.tick n).wp_deleteKeys c _

theorem Db.Idle.wp_deleteN {db : Db} (h : db.Idle) (c : String) (n : ℕ) (asc : Bool) :
    wp (Operations.deleteN c n asc) (fun _ => Db.Idle) (fun _ db' => ¬ db'.Clean) db := by
  unfold Operations.deleteN
  split_ifs
  · exact h
  · simp only [wp_bind, wp_get]
    split
    · exact h
    · simp only [Operations.endKeys, wp_bind, wp_get]
      split
      · exact h.wp_deleteKeys c _
      · simp only [wp_bind]
        exact wp_walk fun ks n _ => (h.tick n).wp_deleteKeys c _

/-- A TTL record is logged outside of transactions, and leaves the documents alone. -/
theorem Db.Closed.wp_expiry {db : Db} (h : db.Closed) (c k : String) :
    wp (writeNew "TTL_EXPIRY" c k .null) (fun _ => Db.Closed) (fun _ => Db.Closed) db := by
  refine wp_writeNew (fun t n => ?_) (fun err n hc => absurd hc not_clean_of_failed)
  intro hc
  have hstep := logReader_append db.log ⟨"TTL_EXPIRY", c, k, .null, t⟩
  have hops := logOps_append db.log ⟨"TTL_EXPIRY", c, k, .null, t⟩
  obtain ⟨h1, h2, h3, h4⟩ := h (hc.of_append rfl rfl).1
  rw [toRec_canon_op (by decide)] at hops
  rw [toRec_canon_op (by decide), Journal.Reader.step, h1] at hstep
  simp only [hstep, hops, Option.isSome_none, Bool.false_eq_true, if_false, Journal.ops]
  refine ⟨trivial, h2, by rw [h3], fun c' k' => ?_⟩
  rw [Overwrite.replay_append]
  exact h4 c' k'

/-! ## The database handle -/

theorem Db.Idle.wp_evictExpired {db : Db} (h : db.Idle) (c : String) :
    wp (Db.evictExpired c) (fun _ => Db.Idle) (fun _ _ => True) db := by
  simp only [Db.evictExpired, wp_bind, wp_get]
  split
  · exact h
  · simp only [wp_bind]
    refine wp_nowMs fun now n => ?_
    split_ifs
    · simp only [wp_bind, wp_outcome, wp_modify]
      exact wp_mono ((h.tick n).wp_deleteCollection c)
        (fun _ _ h => h.idle) (fun _ _ h hc => absurd hc h)
    · exact h

theorem Db.Closed.wp_evictOverflow {db : Db} (h : db.Closed) (c : String) :
    wp (Db.evictOverflow c) (fun _ => Db.Closed) (fun _ _ => True) db := by
  simp only [Db.evictOverflow, wp_bind, wp_get]
  split
  · exact h
  · split_ifs
    · exact wp_mono (h.wp_evictOldest c _) (fun _ _ h => h) (fun _ _ _ => trivial)
    · exact h

theorem Db.Closed.wp_resetExpiry {db : Db} (h : db.Closed) (c : String) :
    wp (Db.resetExpiry c) (fun _ => Db.Closed) (fun _ _ => True) db := by
  simp only [Db.resetExpiry, wp_bind, wp_get]
  cases db.ttlDefaults[c]? with
  | none => exact h
  | some secs =>
    simp only [wp_bind, wp_modify, wp_outcome, wp_send]
    refine wp_nowMs fun now n => ?_
    have h' : Db.Closed { db with
      tick := n, ttlExpiry := db.ttlExpiry.insert c (now + secs * 1000) } := h
    exact wp_mono (h'.wp_expiry c _) (fun _ _ h => h) (fun _ _ h => h)

/-- **A batch given to the handle keeps the mirror.** -/
theorem Db.Idle.wp_dbInsert {db : Db} (h : db.Idle) (c : String) (items : List (String × Json)) :
    wp (Db.insert c items) (fun _ => Db.Closed) (fun _ _ => True) db := by
  simp only [Db.insert, wp_bind]
  refine wp_checkFault (fun _ => ?_) (fun _ => trivial)
  refine wp_mono (h.wp_evictExpired c) (fun _ db₁ h₁ => ?_) (fun _ _ _ => trivial)
  refine wp_mono (h₁.wp_insert c items) (fun _ db₂ h₂ => ?_) (fun _ _ _ => trivial)
  refine wp_mono (h₂.wp_evictOverflow c) (fun _ db₃ h₃ => ?_) (fun _ _ _ => trivial)
  exact h₃.wp_resetExpiry c

/-! ## Restarts -/

/-- **After a restart the registers hold what the log, read back, last wrote to them.** -/
theorem Db.Idle.view_rebuild {db : Db} (h : db.Idle) (hc : db.Clean) (now : UInt64) :
    (rebuild now (deliver db.log)).view =
      Overwrite.replay (LogEntry.writes now) (fun _ => none) (logOps db.log) := by
  have heff : effects (db.log.map LogEntry.canon) = (logReader db.log).applied := by
    rw [effects, Journal.effects, List.map_map]; rfl
  rw [deliver_eq hc.2, MoltenDB.view_rebuild now (fits_canon_value hc.2), heff, (h hc).2.1]

end MoltenDB
