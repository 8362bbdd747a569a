/-
  Transactions of concurrent writers in one log.

  Replay keeps one open transaction and one buffer.  A transaction is replayed as
  a whole if none of its entries is cut off (`replay_keeps_committed`); an entry
  that is cut off is as good as not written (`rebuild_cut`).
-/
import MoltenDB.Engine.Steps
import MoltenDB.Engine.Storage.Log
import MoltenDB.Engine.Storage.Registers
import MoltenDB.Lib.Interleaving

namespace MoltenDB

open Wire Prog Prog.Eff LogCommand Journal

/-- A log as a journal. -/
def recs {ι : Type} (T : List (ι × LogEntry)) : List (Rec String LogEntry) :=
  T.map fun x => x.2.toRec

section

variable {ι : Type} [DecidableEq ι]

/-- The writers `w` appended `T` to one log, up to some point: each kept the order of its
    own entries, the identifiers are distinct and no two write one document. -/
structure Concurrent (w : ι → Transaction) (T : List (ι × LogEntry)) : Prop where
  cmds : ∀ i, ∀ e ∈ (w i).ops, e.cmd = IKEY_INSERT ∨ e.cmd = IKEY_DELETE
  own : ∀ i, Interleaving.of i T <+: (w i).entries
  ids : ∀ i j, (w i).id = (w j).id → i = j
  keys : ∀ i j, ∀ e ∈ (w i).ops, ∀ e' ∈ (w j).ops,
    e.collection = e'.collection → e.key = e'.key → i = j

/-- The `TX_COMMIT` of the writer `i` is in the log. -/
def Committed (w : ι → Transaction) (T : List (ι × LogEntry)) (i : ι) : Prop :=
  (i, (w i).commit) ∈ T

instance (w : ι → Transaction) (T : List (ι × LogEntry)) (i : ι) : Decidable (Committed w T i) :=
  inferInstanceAs (Decidable (_ ∈ T))

/-- After each entry of a committed transaction, the transaction that is open commits
    before another one begins. -/
def NeverCut (w : ι → Transaction) (T : List (ι × LogEntry)) : Prop :=
  ∀ A i e B, T = A ++ (i, e) :: B → Committed w T i → e ∈ (w i).ops →
    ∀ id, Opened id (recs A) → CommitsNext id (recs B)

end

/-- The bytes that an entry leaves of a document, if it writes it. -/
def LogEntry.stores (e : LogEntry) (doc : String × String) : Option (Option Bytes) :=
  if doc = (e.collection, e.key) then
    if e.cmd = IKEY_INSERT then some (some (valueToMsgpack e.value))
    else if e.cmd = IKEY_DELETE then some none
    else none
  else none

/-- The bytes that a transaction leaves of a document, if it writes it. -/
def Transaction.stores (w : Transaction) (doc : String × String) : Option (Option Bytes) :=
  Overwrite.last LogEntry.stores w.ops doc

theorem stores_marker {e : LogEntry} (h : e.cmd = IKEY_TX_BEGIN ∨ e.cmd = IKEY_TX_COMMIT) :
    e.stores = fun _ => none := by
  funext doc
  rcases h with h | h <;> simp [LogEntry.stores, h, IKEY_TX_BEGIN, IKEY_TX_COMMIT, IKEY_INSERT,
    IKEY_DELETE]

/-- Transaction markers write no document. -/
theorem last_ops (L : List LogEntry) (doc : String × String) :
    Overwrite.last LogEntry.stores (ops (L.map LogEntry.toRec)) doc =
      Overwrite.last LogEntry.stores L doc := by
  induction L with
  | nil => rfl
  | cons e L ih =>
    rw [List.map_cons, Overwrite.last_cons, ← ih]
    by_cases h1 : e.cmd = IKEY_TX_BEGIN
    · simp [LogEntry.toRec, h1, ops, stores_marker (Or.inl h1)]
    by_cases h2 : e.cmd = IKEY_TX_COMMIT
    · simp [LogEntry.toRec, h2, ops, stores_marker (Or.inr h2),
        show IKEY_TX_COMMIT ≠ IKEY_TX_BEGIN by decide]
    · simp [LogEntry.toRec, h1, h2, ops, Overwrite.last_cons]

theorem Transaction.last_entries (w : Transaction) (doc : String × String) :
    Overwrite.last LogEntry.stores w.entries doc = w.stores doc := by
  rw [entries, Overwrite.last_cons, Overwrite.last_append, Overwrite.last_singleton,
    stores_marker (Or.inl w.opening_cmd), stores_marker (Or.inr w.commit_cmd)]
  simp [stores]

/-! ### Replaying an interleaving -/

variable {ι : Type} [DecidableEq ι] {w : ι → Transaction} {T : List (ι × LogEntry)}

/-- Each entry of the log is an entry of its writer. -/
theorem Concurrent.mem (h : Concurrent w T) {i : ι} {e : LogEntry} (he : (i, e) ∈ T) :
    e = (w i).opening ∨ e ∈ (w i).ops ∨ e = (w i).commit := by
  have hmem := (h.own i).mem (Interleaving.mem_of.2 he)
  simpa [Transaction.entries] using hmem

/-- An entry between the markers is an insert or a delete of its writer. -/
theorem Concurrent.mem_ops (h : Concurrent w T) {i : ι} {e : LogEntry} (he : (i, e) ∈ T)
    (h1 : e.cmd ≠ IKEY_TX_BEGIN) (h2 : e.cmd ≠ IKEY_TX_COMMIT) : e ∈ (w i).ops := by
  rcases h.mem he with rfl | h | rfl
  · exact absurd (w i).opening_cmd h1
  · exact h
  · exact absurd (w i).commit_cmd h2

/-- A committed transaction is in the log as a whole. -/
theorem Concurrent.of_committed (h : Concurrent w T) {i : ι} (hi : Committed w T i) :
    Interleaving.of i T = (w i).entries := by
  have hpre := h.own i
  rw [Transaction.entries, ← List.cons_append, List.prefix_concat_iff] at hpre
  rcases hpre with hpre | hpre
  · rw [hpre, Transaction.entries, List.cons_append]
  · have hmem := hpre.mem (Interleaving.mem_of.2 hi)
    rcases List.mem_cons.1 hmem with hmem | hmem
    · have hcmd := (w i).commit_cmd
      rw [hmem, (w i).opening_cmd] at hcmd
      exact absurd hcmd (by decide)
    · rcases h.cmds i _ hmem with hcmd | hcmd <;> rw [(w i).commit_cmd] at hcmd <;>
        exact absurd hcmd (by decide)

theorem mem_ops_of_stores {e : LogEntry} {doc : String × String} (h : e.stores doc ≠ none) :
    doc = (e.collection, e.key) ∧ e.cmd ≠ IKEY_TX_BEGIN ∧ e.cmd ≠ IKEY_TX_COMMIT := by
  refine ⟨?_, fun hc => h ?_, fun hc => h ?_⟩
  · by_contra hd
    exact h (by rw [LogEntry.stores, if_neg hd])
  · rw [stores_marker (Or.inl hc)]
  · rw [stores_marker (Or.inr hc)]

/-- An operation of the journal is an entry of its writer. -/
theorem Concurrent.op_mem (h : Concurrent w T) {e : LogEntry} (he : .op e ∈ recs T) :
    ∃ j, (j, e) ∈ T ∧ e ∈ (w j).ops := by
  obtain ⟨⟨j, e'⟩, hx, hrec⟩ := List.mem_map.1 he
  unfold LogEntry.toRec at hrec
  split_ifs at hrec with h1 h2
  cases hrec
  exact ⟨j, hx, h.mem_ops hx h1 h2⟩

omit [DecidableEq ι] in
/-- An operation of the journal, with what was logged before and after it. -/
theorem recs_eq_append_op {A B : List (Rec String LogEntry)} {e : LogEntry}
    (h : recs T = A ++ .op e :: B) :
    ∃ A' j B', T = A' ++ (j, e) :: B' ∧ recs A' = A ∧ recs B' = B := by
  obtain ⟨A', T', rfl, hA, hT⟩ := List.map_eq_append_iff.1 h
  obtain ⟨⟨j, e'⟩, B', rfl, he, hB⟩ := List.map_eq_cons_iff.1 hT
  unfold LogEntry.toRec at he
  split_ifs at he
  cases he
  exact ⟨A', j, B', rfl, hA, hB⟩

/-- What a committed transaction writes is written by it alone. -/
theorem Concurrent.writer_eq (h : Concurrent w T) {i j : ι} {e : LogEntry} {doc : String × String}
    (hx : (j, e) ∈ T) (hw : e.stores doc ≠ none) (hi : (w i).stores doc ≠ none) :
    j = i ∧ e ∈ (w j).ops := by
  obtain ⟨hdoc, h1, h2⟩ := mem_ops_of_stores hw
  obtain ⟨e', he', hw'⟩ : ∃ e' ∈ (w i).ops, e'.stores doc ≠ none := by
    by_contra hn
    exact hi (Overwrite.last_eq_none.2 (by simpa using hn))
  obtain ⟨hdoc', -, -⟩ := mem_ops_of_stores hw'
  rw [hdoc, Prod.mk.injEq] at hdoc'
  have hmem := h.mem_ops hx h1 h2
  exact ⟨h.keys j i e hmem e' he' hdoc'.1 hdoc'.2, hmem⟩

section

variable [Crates]

theorem bytes_applyEntry (now : UInt64) (s : Recovered) {e : LogEntry}
    (h : e.cmd = IKEY_INSERT ∨ e.cmd = IKEY_DELETE) (doc : String × String) :
    (applyEntry now s e).state.bytes doc.1 doc.2 =
      (e.stores doc).getD (s.state.bytes doc.1 doc.2) := by
  have hdoc : doc = (e.collection, e.key) ↔ doc.1 = e.collection ∧ doc.2 = e.key := Prod.ext_iff
  rcases h with h | h
  · rw [applyEntry, if_pos h, bytes_put, LogEntry.stores, if_pos h]
    by_cases hd : doc = (e.collection, e.key)
    · rw [if_pos hd, if_pos (hdoc.1 hd)]; rfl
    · rw [if_neg hd, if_neg (mt hdoc.2 hd)]; rfl
  · have hne : e.cmd ≠ IKEY_INSERT := by rw [h]; decide
    rw [applyEntry, if_neg hne, if_pos h, bytes_remove, LogEntry.stores, if_neg hne, if_pos h]
    by_cases hd : doc = (e.collection, e.key)
    · rw [if_pos hd, if_pos (hdoc.1 hd)]; rfl
    · rw [if_neg hd, if_neg (mt hdoc.2 hd)]; rfl

theorem bytes_foldl_applyEntry (now : UInt64) (s : Recovered) {L : List LogEntry}
    (h : ∀ e ∈ L, e.cmd = IKEY_INSERT ∨ e.cmd = IKEY_DELETE) (doc : String × String) :
    (L.foldl (applyEntry now) s).state.bytes doc.1 doc.2 =
      (Overwrite.last LogEntry.stores L doc).getD (s.state.bytes doc.1 doc.2) := by
  induction L generalizing s with
  | nil => rfl
  | cons e L ih =>
    rw [List.foldl_cons, ih _ fun e' he' => h e' (List.mem_cons_of_mem _ he'),
      bytes_applyEntry now s (h e List.mem_cons_self), Overwrite.last_cons]
    cases Overwrite.last LogEntry.stores L doc <;> rfl

/-- **Committed transactions survive a replay if none of their entries is cut off**: every
    document that a committed transaction writes is rebuilt as the transaction left it. -/
theorem replay_keeps_committed (now : UInt64) (h : Concurrent w T) (hcut : NeverCut w T) {i : ι}
    (hi : Committed w T i) {c k : String} {b : Option Bytes} (hb : (w i).stores (c, k) = some b) :
    (rebuild now (T.map Prod.snd)).state.bytes c k = b := by
  have hrecs : (T.map Prod.snd).map LogEntry.toRec = recs T := by simp [recs]
  have hwr : (w i).stores (c, k) ≠ none := by simp [hb]
  have hops : ∀ A e B, recs T = A ++ .op e :: B → e.stores (c, k) ≠ none →
      ∀ id, (Reader.start.run A).active = some id → CommitsNext id B := by
    intro A e B heq hw id hid
    obtain ⟨A', j, B', hT, rfl, rfl⟩ := recs_eq_append_op heq
    have hx : (j, e) ∈ T := by rw [hT]; simp
    obtain ⟨rfl, hmem⟩ := h.writer_eq hx hw hwr
    exact hcut A' j e B' hT hi hmem id ((active_run _).1 hid)
  have hlast := last_run (c, k) Reader.start (recs T) (by simp [Reader.start]) hops
  have hcmd : ∀ e ∈ (Reader.start.run (recs T)).applied,
      e.cmd = IKEY_INSERT ∨ e.cmd = IKEY_DELETE := by
    intro e he
    obtain ⟨j, -, hmem⟩ := h.op_mem (Journal.mem_effects he)
    exact h.cmds j e hmem
  have hown : ∀ x ∈ T, x.2.stores (c, k) ≠ none → x.1 = i :=
    fun x hx hw => (h.writer_eq hx hw hwr).1
  have hT : Overwrite.last LogEntry.stores (ops (recs T)) (c, k) = some b := by
    rw [← hrecs, last_ops, Interleaving.last_of hown, h.of_committed hi,
      Transaction.last_entries, hb]
  have hbytes := bytes_foldl_applyEntry now .empty hcmd (c, k)
  rw [hlast] at hbytes
  simp only [Reader.start, List.nil_append] at hbytes
  rw [rebuild_eq, effects, hrecs, Journal.effects]
  rw [hT] at hbytes
  exact hbytes

omit [DecidableEq ι] in
/-- **An entry that is cut off is as good as not written.** -/
theorem rebuild_cut (now : UInt64) {A B : List LogEntry} {e : LogEntry} {id : String}
    (he : e.cmd ≠ IKEY_TX_BEGIN ∧ e.cmd ≠ IKEY_TX_COMMIT)
    (hA : Opened id (A.map LogEntry.toRec)) (hB : ¬ CommitsNext id (B.map LogEntry.toRec)) :
    rebuild now (A ++ e :: B) = rebuild now (A ++ B) := by
  have hrec : e.toRec = .op e := by simp [LogEntry.toRec, he.1, he.2]
  rw [rebuild_eq, rebuild_eq, effects, effects, List.map_append, List.map_cons, hrec,
    effects_cut e hA hB, List.map_append]

end

/-! ### What the write operations log -/

/-- Since the log was `L`, the transaction `id` was opened and logged inserts and deletes. -/
def Db.Logging (L : List LogEntry) (id : String) (db : Db) : Prop :=
  ∃ o es, db.log = L ++ o :: es ∧ o.cmd = IKEY_TX_BEGIN ∧ o.key = id ∧
    ∀ e ∈ es, e.cmd = IKEY_INSERT ∨ e.cmd = IKEY_DELETE

/-- Since the log was `L`, one whole transaction was logged. -/
def Db.LoggedTx (L : List LogEntry) (db : Db) : Prop :=
  ∃ w : Transaction, db.log = L ++ w.entries

theorem wp_begin_logging (c id : String) (db : Db) :
    wp (writeNew IKEY_TX_BEGIN c id .null) (fun _ => Db.Logging db.log id) (fun _ _ => True) db :=
  wp_writeNew (fun t _ => ⟨⟨IKEY_TX_BEGIN, c, id, .null, t⟩, [], rfl, rfl, rfl, by simp⟩)
    (fun _ _ => trivial)

theorem Db.Logging.wp_op {L : List LogEntry} {id cmd c k : String} {v : Json} {db : Db}
    (h : db.Logging L id) (hcmd : cmd = IKEY_INSERT ∨ cmd = IKEY_DELETE) :
    wp (writeNew cmd c k v) (fun _ => Db.Logging L id) (fun _ _ => True) db := by
  obtain ⟨o, es, hlog, ho, hid, hes⟩ := h
  refine wp_writeNew (fun t _ => ?_) (fun _ _ => trivial)
  refine ⟨o, es ++ [⟨cmd, c, k, v, t⟩], by simp [hlog], ho, hid, fun e he => ?_⟩
  rcases List.mem_append.1 he with he | he
  · exact hes e he
  · rw [List.mem_singleton.1 he]; exact hcmd

theorem Db.Logging.wp_commit {L : List LogEntry} {id c : String} {db : Db}
    (h : db.Logging L id) :
    wp (writeNew IKEY_TX_COMMIT c id .null) (fun _ => Db.LoggedTx L) (fun _ _ => True) db := by
  obtain ⟨o, es, hlog, ho, hid, hes⟩ := h
  refine wp_writeNew (fun t _ => ?_) (fun _ _ => trivial)
  have hcmd : ∀ e ∈ es, canon e.cmd ≠ IKEY_TX_BEGIN ∧ canon e.cmd ≠ IKEY_TX_COMMIT := by
    intro e he
    rcases hes e he with h | h <;> rw [h] <;> decide
  exact ⟨⟨o, es, ⟨IKEY_TX_COMMIT, c, id, .null, t⟩, ho, rfl, hid.symm, hcmd⟩,
    by simp [hlog, Transaction.entries]⟩

/-- **An insert logs one transaction.** -/
theorem wp_insert_logs (c : String) (items : List (String × Json)) (db : Db) :
    wp (Operations.insert c items) (fun _ => Db.LoggedTx db.log) (fun _ _ => True) db := by
  simp only [Operations.insert, wp_bind, wp_modify]
  refine wp_newUuid fun id n => ?_
  refine wp_mono (wp_begin_logging c id _) (fun _ db₁ h₁ => ?_) (fun _ _ _ => trivial)
  refine wp_mono (E := fun _ _ => True) (wp_forEach (fun _ => Db.Logging db.log id) ?_ items db₁ h₁)
    (fun _ _ h₂ => h₂.wp_commit) (fun _ _ _ => trivial)
  intro item _ db₂ h₂
  simp only [Operations.insertItem, Operations.nextSeq, wp_bind, wp_get, wp_modify, wp_pure,
    Operations.storeDoc, Operations.indexInsert, wp_send]
  refine wp_nowMs fun now m => ?_
  refine wp_prepare ?_ ?_ ?_ trivial <;> intros <;>
    exact wp_mono (Db.Logging.wp_op (by exact h₂) (Or.inl rfl)) (fun _ _ h => h) (fun _ _ h => h)

/-- **A delete logs one transaction.** -/
theorem wp_delete_logs [Crates] (c : String) (keys : List String) (db : Db) :
    wp (Operations.delete c keys) (fun _ => Db.LoggedTx db.log) (fun _ _ => True) db := by
  simp only [Operations.delete, wp_bind, wp_get]
  refine wp_newUuid fun id n => ?_
  refine wp_mono (wp_begin_logging c id _) (fun _ db₁ h₁ => ?_) (fun _ _ _ => trivial)
  split_ifs
  · rw [wp_bind]
    refine wp_mono (E := fun _ _ => True) (wp_forEach (fun _ => Db.Logging db.log id) ?_ keys db₁ h₁)
      (fun _ _ h₂ => h₂.wp_commit) (fun _ _ _ => trivial)
    intro k _ db₂ h₂
    simp only [Operations.deleteItem, wp_bind, wp_get]
    split <;> simp only [wp_bind, Operations.indexRemove, Operations.removeDoc, wp_modify, wp_send] <;>
      exact wp_mono (Db.Logging.wp_op (by exact h₂) (Or.inr rfl)) (fun _ _ h => h) (fun _ _ h => h)
  · exact h₁.wp_commit

/-- **An update logs one transaction**, if it succeeds. -/
theorem wp_update_logs (c k : String) (updates : Json) (db : Db) :
    wp (Operations.update c k updates) (fun _ => Db.LoggedTx db.log) (fun _ _ => True) db := by
  have hstore : ∀ id v db₁, Db.Logging db.log id db₁ →
      wp (Operations.storeUpdate c k id v) (fun _ => Db.LoggedTx db.log) (fun _ _ => True) db₁ := by
    intro id v db₁ h₁
    simp only [Operations.storeUpdate, wp_bind, Operations.storeDoc, wp_modify, wp_send]
    refine wp_validateDocument (fun _ => ?_) trivial
    refine wp_mono (Db.Logging.wp_op (by exact h₁) (Or.inl rfl)) (fun _ _ h₂ => ?_)
      (fun _ _ _ => trivial)
    exact wp_mono h₂.wp_commit (fun _ _ h => h) (fun _ _ h => h)
  simp only [Operations.update, wp_bind, wp_get]
  refine wp_newUuid fun id n => ?_
  refine wp_mono (wp_begin_logging c id _) (fun _ db₁ h₁ => ?_) (fun _ _ _ => trivial)
  split
  · simp only [wp_bind, wp_pure]
    exact wp_mergeUpdate (fun _ => hstore id _ _ h₁) (fun _ _ _ _ _ m => hstore id _ _ h₁) trivial
  · simp only [wp_bind, wp_pure]
    exact wp_mono h₁.wp_commit (fun _ _ h => h) (fun _ _ h => h)

/-! ### Two transactions -/

def twoTxs (second : Bool) : Transaction :=
  if second then insertTx "tx2" "b" else insertTx "tx1" "a"

/-- The entry `n` of one of the two transactions. -/
def entryOf (second : Bool) (n : ℕ) : Bool × LogEntry :=
  (second, (twoTxs second).entries.getD n (twoTxs second).commit)

/-- The second transaction begins inside the first and commits before its insert. -/
def nestedLog : List (Bool × LogEntry) :=
  [entryOf false 0, entryOf true 0, entryOf true 1, entryOf true 2, entryOf false 1,
    entryOf false 2]

/-- The second transaction begins between the insert and the commit of the first. -/
def overlappingLog : List (Bool × LogEntry) :=
  [entryOf false 0, entryOf false 1, entryOf true 0, entryOf false 2, entryOf true 1,
    entryOf true 2]

theorem twoTxs_concurrent {T : List (Bool × LogEntry)}
    (hown : ∀ i, Interleaving.of i T <+: (twoTxs i).entries) : Concurrent twoTxs T :=
  ⟨by decide, hown, by decide, by decide⟩

theorem nestedLog_neverCut : NeverCut twoTxs nestedLog := by
  intro A i e B heq _ he id hid
  have hact := (active_run _).2 hid
  have hlen : A.length < 6 := by
    have := congrArg List.length heq
    simp only [nestedLog, List.length_cons, List.length_append, List.length_nil] at this
    omega
  have hx : nestedLog[A.length]? = some (i, e) := by rw [heq]; simp
  have hA : nestedLog.take A.length = A := by rw [heq]; simp
  have hB : nestedLog.drop (A.length + 1) = B := by rw [heq]; simp
  rw [← hA] at hact
  rw [← hB]
  generalize A.length = n at hlen hx hact
  interval_cases n
  · cases hx; exact absurd he (by decide)
  · cases hx; exact absurd he (by decide)
  · -- the insert of the second transaction, which commits next
    have hid : id = "tx2" := by
      rw [show (Reader.start.run (recs (nestedLog.take 2))).active = some "tx2" by decide] at hact
      exact (Option.some.inj hact).symm
    rw [hid]
    exact Or.inl rfl
  · cases hx; exact absurd he (by decide)
  · -- the insert of the first transaction, when none is open
    rw [show (Reader.start.run (recs (nestedLog.take 4))).active = none by decide] at hact
    cases hact
  · cases hx; exact absurd he (by decide)

theorem replay_keeps_committed_nested :
    (@rebuild Crates.plain 0 (nestedLog.map Prod.snd)).state.bytes "c" "a" =
      some (valueToMsgpack (.obj [])) :=
  @replay_keeps_committed Bool _ twoTxs nestedLog Crates.plain 0 (twoTxs_concurrent (by decide))
    nestedLog_neverCut false (by decide) "c" "a" _ (by decide)

/-- **An overlap loses a committed transaction.** The second transaction begins between the
    insert and the commit of the first, and the document of the first is not rebuilt. -/
theorem overlap_loses_committed :
    ∃ (w : Bool → Transaction) (T : List (Bool × LogEntry)), Concurrent w T ∧
      Committed w T false ∧ (w false).stores ("c", "a") = some (some (valueToMsgpack (.obj []))) ∧
      (@rebuild Crates.plain 0 (T.map Prod.snd)).state.bytes "c" "a" = none :=
  ⟨twoTxs, overlappingLog, twoTxs_concurrent (by decide), by decide, by decide,
    by decide +kernel⟩

end MoltenDB
