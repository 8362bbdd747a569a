/-
  Batches that fail.

  The memory may keep the items before the failure: nothing is rolled back.  The log
  keeps an unfinished transaction, which takes no effect (`insert_error`).
-/
import MoltenDB.Proof.Durability

namespace MoltenDB

open Wire Prog Prog.Eff LogCommand

/-- The documents of all collections, and the sequence index. -/
abbrev Contents := (String → String → Option Bytes) × DashMap (Map UInt64 String)

def Db.contents (db : Db) : Contents := (db.state.bytes, db.seqIndex)

/-- An item as it is stored over `existing`, at the time `now` and with the number `seq`. -/
def stamped (existing : Option Json) (value : Json) (now seq : UInt64) : Json :=
  match existing with
  | some old => Operations.stampOverwrite old value now seq
  | none => if value.isObject then Operations.stampNew value now seq else value

/-- An item of a batch, the time at which it is stored and its number. -/
structure Stored where
  item : String × Json
  now : UInt64
  seq : UInt64

/-- The document that an item is stored as. -/
def Stored.value (x : Stored) (c : String) (m : Contents) : Json :=
  stamped ((m.1 c x.item.1).bind msgpackToValue) x.item.2 x.now x.seq

/-- Store and index one item. -/
def Contents.store (c : String) (m : Contents) (x : Stored) : Contents :=
  (fun c' k => if c' = c ∧ k = x.item.1 then some (valueToMsgpack (x.value c m)) else m.1 c' k,
    m.2.alter c fun idx => some ((idx.getD ∅).insert
      ((Operations.fieldU64 (x.value c m) SystemFields.IKEY_SEQ).getD x.seq) x.item.1))

/-- The items `xs` were stored and logged since `db`. -/
structure Db.Kept (db : Db) (c : String) (xs : List Stored) (db' : Db) : Prop where
  contents : db'.contents = xs.foldl (Contents.store c) db.contents
  schemas : db'.schemas = db.schemas
  failed : db'.failedWrites = db.failedWrites
  log : ∃ es, db'.log = db.log ++ es ∧ ∀ e ∈ es, e.cmd = IKEY_INSERT

theorem Db.Kept.refl (db : Db) (c : String) : db.Kept c [] db := ⟨rfl, rfl, rfl, [], by simp⟩

theorem Db.Kept.trans {db db₁ db₂ : Db} {c : String} {xs ys : List Stored}
    (h : db.Kept c xs db₁) (h' : db₁.Kept c ys db₂) : db.Kept c (xs ++ ys) db₂ := by
  obtain ⟨es, hlog, hcmd⟩ := h.log
  obtain ⟨es', hlog', hcmd'⟩ := h'.log
  refine ⟨by rw [h'.contents, h.contents, List.foldl_append], h'.schemas.trans h.schemas,
    h'.failed.trans h.failed, es ++ es', by rw [hlog', hlog, List.append_assoc], ?_⟩
  intro e he
  rcases List.mem_append.1 he with he | he
  · exact hcmd e he
  · exact hcmd' e he

/-- A batch of `items` stopped: after `xs` were stored the next item was rejected, or a write
    failed. -/
structure Db.Stopped (db : Db) (c : String) (items : List (String × Json)) (db' : Db) : Prop where
  contents : ∃ xs : List Stored, xs.map Stored.item <+: items ∧
    db'.contents = xs.foldl (Contents.store c) db.contents ∧
      (db'.failedWrites = db.failedWrites → ∃ x : Stored,
        xs.map Stored.item ++ [x.item] <+: items ∧ db.accepts c (x.value c db'.contents) = false)
  log : ∃ es, db'.log = db.log ++ es ∧ ∀ e ∈ es, e.cmd = IKEY_INSERT

/-- What stops the items after `xs` stops all of them. -/
theorem Db.Kept.stopped {db db₁ db₂ : Db} {c : String} {xs : List Stored}
    {items : List (String × Json)} (h : db.Kept c xs db₁) (h' : db₁.Stopped c items db₂) :
    db.Stopped c (xs.map Stored.item ++ items) db₂ := by
  obtain ⟨es, hlog, hcmd⟩ := h.log
  obtain ⟨es', hlog', hcmd'⟩ := h'.log
  obtain ⟨ys, hys, hcontents, hrej⟩ := h'.contents
  constructor
  · refine ⟨xs ++ ys, ?_, by rw [hcontents, h.contents, List.foldl_append], fun hf => ?_⟩
    · rw [List.map_append]
      exact (List.prefix_append_right_inj _).2 hys
    · obtain ⟨x, hx, hrejected⟩ := hrej (hf.trans h.failed.symm)
      refine ⟨x, ?_, by rwa [Db.accepts, h.schemas] at hrejected⟩
      rw [List.map_append, List.append_assoc]
      exact (List.prefix_append_right_inj _).2 hx
  · refine ⟨es ++ es', by rw [hlog', hlog, List.append_assoc], fun e he => ?_⟩
    rcases List.mem_append.1 he with he | he
    · exact hcmd e he
    · exact hcmd' e he

theorem Db.Stopped.cons {db db' : Db} {c : String} {item : String × Json}
    {items : List (String × Json)} (h : db.Stopped c [item] db') :
    db.Stopped c (item :: items) db' := by
  obtain ⟨xs, hxs, hcontents, hrej⟩ := h.contents
  have hpre : [item] <+: item :: items := List.prefix_append [item] items
  exact ⟨⟨xs, hxs.trans hpre, hcontents, fun hf => (hrej hf).imp fun x hx =>
    ⟨hx.1.trans hpre, hx.2⟩⟩, h.log⟩

/-- A document is stamped and checked. -/
theorem wp_prepare_checked {db : Db} {c : String} {existing : Option Json} {value : Json} {now seq : UInt64}
    {Q : Json → Db → Prop} {E : DbError → Db → Prop}
    (ok : ((existing.isSome || value.isObject) &&
      !db.accepts c (stamped existing value now seq)) = false → Q (stamped existing value now seq) db)
    (error : ((existing.isSome || value.isObject) &&
      !db.accepts c (stamped existing value now seq)) = true → ∀ err, E err db) :
    wp (Operations.prepare c existing value now seq) Q E db := by
  have hvalidate : ∀ doc, ((!db.accepts c doc) = false → Q doc db) →
      ((!db.accepts c doc) = true → ∀ err, E err db) →
      wp (do Operations.validateDocument c doc; return doc) Q E db := by
    intro doc hok herr
    rw [wp_bind]
    refine wp_validateDocument_accepts (fun h => hok ?_) fun h => herr ?_ _
    · rw [h]
      rfl
    · rw [h]
      rfl
  cases existing with
  | some old => exact hvalidate _ (by simpa [stamped] using ok) (by simpa [stamped] using error)
  | none =>
    cases hobj : value.isObject with
    | true =>
      rw [Operations.prepare, if_pos hobj]
      simp only [stamped, hobj, if_true, Option.isSome_none, Bool.false_or, Bool.true_and] at ok error
      exact hvalidate _ ok error
    | false =>
      simp only [Operations.prepare, hobj, Bool.false_eq_true, if_false]
      simpa [stamped, hobj] using ok

/-- A document is stamped, or its schema rejects it. -/
theorem wp_prepare_stamped {db : Db} {c : String} {existing : Option Json} {value : Json}
    {now seq : UInt64} {Q : Json → Db → Prop} {E : DbError → Db → Prop}
    (ok : Q (stamped existing value now seq) db)
    (error : db.accepts c (stamped existing value now seq) = false → ∀ err, E err db) :
    wp (Operations.prepare c existing value now seq) Q E db := by
  refine wp_prepare_checked (fun _ => ok) fun hrejected => error ?_
  rw [Bool.and_eq_true, Bool.not_eq_true'] at hrejected
  exact hrejected.2

/-- **One item** is stored and logged, or stops the batch. -/
theorem wp_insertItem_kept (db : Db) (c : String) (item : String × Json) :
    wp (Operations.insertItem c item)
      (fun _ db' => ∃ x : Stored, x.item = item ∧ db.Kept c [x] db')
      (fun _ db' => db.Stopped c [item] db') db := by
  simp only [Operations.insertItem, Operations.nextSeq, wp_bind, wp_get, wp_modify, wp_pure,
    Operations.storeDoc, Operations.indexInsert, wp_send]
  refine wp_nowMs fun now n => ?_
  let x : Stored := ⟨item, now, db.seqCounters[c]?.getD 0⟩
  have hbytes : ∀ bytes, State.bytes (db.state.alter c fun col =>
      some ((col.getD ∅).insert item.1 bytes)) =
        fun c' k => if c' = c ∧ k = item.1 then some bytes else db.state.bytes c' k := by
    intro bytes
    funext c' k
    rw [bytes_put]
  refine wp_prepare_stamped ?_ ?_
  · refine wp_writeNew (fun t m => ?_) (fun err m => ?_)
    · exact ⟨x, rfl, Prod.ext (hbytes _) rfl, rfl, rfl, _, rfl, by simp⟩
    · refine ⟨⟨[x], List.prefix_rfl, Prod.ext (hbytes _) rfl, fun hf => ?_⟩, [], by simp, by simp⟩
      exact absurd hf (Nat.succ_ne_self _)
  · intro hrej err
    exact ⟨⟨[], List.nil_prefix, rfl, fun _ => ⟨x, List.prefix_rfl, hrej⟩⟩, [], by simp, by simp⟩

/-- **The items of a batch** are stored and logged, or the batch stops. -/
theorem wp_insertItems_kept (db : Db) (c : String) (items : List (String × Json)) :
    wp (forEach (Operations.insertItem c) items)
      (fun _ db' => ∃ xs : List Stored, xs.map Stored.item = items ∧ db.Kept c xs db')
      (fun _ db' => db.Stopped c items db') db := by
  induction items generalizing db with
  | nil => exact ⟨[], rfl, .refl db c⟩
  | cons item items ih =>
    rw [forEach, wp_bind]
    refine wp_mono (wp_insertItem_kept db c item) (fun _ db₁ h₁ => ?_) (fun _ _ h => h.cons)
    obtain ⟨x, rfl, h₁⟩ := h₁
    refine wp_mono (ih db₁) (fun _ db₂ h₂ => ?_) (fun _ _ h₂ => h₁.stopped h₂)
    obtain ⟨xs, rfl, h₂⟩ := h₂
    exact ⟨x :: xs, rfl, h₁.trans h₂⟩

/-- The effects of a log do not change with an unfinished transaction at its end. -/
theorem effects_unfinished (L : List LogEntry) {c id : String} {v : Json} {t : UInt64}
    {es : List LogEntry} (hes : ∀ e ∈ es, e.cmd = IKEY_INSERT) :
    effects ((L ++ LogEntry.mk IKEY_TX_BEGIN c id v t :: es).map LogEntry.canon) =
      effects (L.map LogEntry.canon) := by
  have hops : (es.map LogEntry.canon).map LogEntry.toRec = (es.map LogEntry.canon).map .op := by
    refine List.map_congr_left fun e he => ?_
    obtain ⟨e', he', rfl⟩ := List.mem_map.1 he
    simp [LogEntry.toRec, LogEntry.canon, hes e' he', show canon IKEY_INSERT ≠ IKEY_TX_BEGIN by
      decide, show canon IKEY_INSERT ≠ IKEY_TX_COMMIT by decide]
  rw [effects, effects, List.map_append, List.map_cons, List.map_append, List.map_cons,
    toRec_canon_begin, hops, Journal.effects, Journal.Reader.run_append,
    Journal.Reader.run_unfinished]
  rfl

/-- A batch failed: its transaction was not started, or was not finished. -/
structure Db.Failed (db : Db) (c : String) (items : List (String × Json)) (db' : Db) : Prop where
  contents : ∃ xs : List Stored, xs.map Stored.item <+: items ∧
    db'.contents = xs.foldl (Contents.store c) db.contents ∧ (db'.log = db.log → xs = []) ∧
      (db'.failedWrites = db.failedWrites → ∃ x : Stored,
        xs.map Stored.item ++ [x.item] <+: items ∧ db.accepts c (x.value c db'.contents) = false)
  log : db'.log = db.log ∨ ∃ id t es,
    db'.log = db.log ++ LogEntry.mk IKEY_TX_BEGIN c id .null t :: es ∧
      ∀ e ∈ es, e.cmd = IKEY_INSERT

theorem wp_insert_failed (db : Db) (c : String) (items : List (String × Json)) :
    wp (Operations.insert c items) (fun _ _ => True) (fun _ db' => db.Failed c items db') db := by
  simp only [Operations.insert, wp_bind, wp_modify]
  refine wp_newUuid fun id n => ?_
  have htouch : ∀ d : Db, d.state = (db.state.alter c fun col => some (col.getD ∅)) →
      d.seqIndex = db.seqIndex → d.contents = db.contents := by
    intro d hs hi
    refine Prod.ext ?_ hi
    funext c' k
    exact (congrFun (congrFun (congrArg State.bytes hs) c') k).trans (bytes_touch db.state c c' k)
  refine wp_writeNew (fun t n => ?_) (fun err n => ?_)
  · have hlonger : ∀ {db' : Db} {es : List LogEntry},
        db'.log = db.log ++ [LogEntry.mk IKEY_TX_BEGIN c id .null t] ++ es → db'.log ≠ db.log := by
      intro db' es hlog heq
      simpa using congrArg List.length (hlog.symm.trans heq)
    refine wp_mono (wp_insertItems_kept _ c items) (fun _ db₂ h₂ => ?_) (fun _ db₂ h₂ => ?_)
    · -- all items were stored, and the write of `TX_COMMIT` failed
      obtain ⟨xs, rfl, hkept⟩ := h₂
      obtain ⟨es, hlog, hes⟩ := hkept.log
      refine wp_writeNew (fun _ _ => trivial) (fun err m => ?_)
      refine ⟨⟨xs, List.prefix_rfl, ?_, fun h => absurd h (hlonger hlog), fun hf => ?_⟩,
        Or.inr ⟨id, t, es, by simpa using hlog, hes⟩⟩
      · refine hkept.contents.trans (congrArg (xs.foldl (Contents.store c)) ?_)
        exact htouch _ rfl rfl
      · exact absurd (hf.trans hkept.failed.symm) (Nat.succ_ne_self _)
    · obtain ⟨xs, hxs, hcontents, hrej⟩ := h₂.contents
      obtain ⟨es, hlog, hes⟩ := h₂.log
      refine ⟨⟨xs, hxs, ?_, fun h => absurd h (hlonger hlog), hrej⟩,
        Or.inr ⟨id, t, es, by simpa using hlog, hes⟩⟩
      refine hcontents.trans (congrArg (xs.foldl (Contents.store c)) ?_)
      exact htouch _ rfl rfl
  · refine ⟨⟨[], List.nil_prefix, htouch _ rfl rfl, fun _ => rfl, fun hf => ?_⟩, Or.inl rfl⟩
    exact absurd hf (Nat.succ_ne_self _)

variable [Crates]

/-- **A failed batch leaves no trace in the log**: its transaction is not finished, and a restart
    rebuilds what it would have rebuilt before.  In memory the documents and the index are those
    after a first part of the batch; it is empty if nothing was logged, and ends before the item
    that a schema rejects. -/
theorem insert_error {db db' : Db} {c : String} {items : List (String × Json)} {err : DbError}
    (h : Operations.insert c items db = (.error err, db')) :
    (∃ xs : List Stored, xs.map Stored.item <+: items ∧
      db'.contents = xs.foldl (Contents.store c) db.contents ∧ (db'.log = db.log → xs = []) ∧
      (db'.failedWrites = db.failedWrites → ∃ x : Stored,
        xs.map Stored.item ++ [x.item] <+: items ∧ db.accepts c (x.value c db'.contents) = false)) ∧
    ((∀ e ∈ db'.log, e.Fits) → ∀ now,
      rebuild now (deliver db'.log) = rebuild now (deliver db.log)) := by
  have hfailed := wp_of_error (wp_insert_failed db c items) h
  refine ⟨hfailed.contents, fun hfits now => ?_⟩
  rcases hfailed.log with hlog | ⟨id, t, es, hlog, hes⟩
  · rw [hlog]
  · have hold : ∀ e ∈ db.log, e.Fits := fun e he => hfits e (hlog ▸ List.mem_append_left _ he)
    rw [deliver_eq hfits, deliver_eq hold, rebuild_eq, rebuild_eq, hlog, effects_unfinished _ hes]

/-! ## A write that fails -/

section

omit [Crates]

/-- An empty database in which the write at the tick 7 fails. -/
def faultyDb : Db := Db.blank (World.plain 1000 [7]) 0

/-- The database after a batch of one document. -/
def faultyRun : Except DbError Unit × Db := Operations.insert "c" [("a", .obj [])] faultyDb

theorem faultyRun_error : Operations.insert "c" [("a", .obj [])] faultyDb =
    (.error .writeError, faultyRun.2) := by
  have hfst : faultyRun.1 = .error .writeError := by decide +kernel
  have hrun : Operations.insert "c" [("a", .obj [])] faultyDb = faultyRun := by rw [faultyRun]
  rw [hrun, ← hfst]

theorem insert_error_faulty :
    (∃ xs : List Stored, xs.map Stored.item <+: [("a", .obj [])] ∧
      faultyRun.2.contents = xs.foldl (Contents.store "c") faultyDb.contents ∧
      (faultyRun.2.log = faultyDb.log → xs = []) ∧
      (faultyRun.2.failedWrites = faultyDb.failedWrites → ∃ x : Stored,
        xs.map Stored.item ++ [x.item] <+: [("a", .obj [])] ∧
          faultyDb.accepts "c" (x.value "c" faultyRun.2.contents) = false)) ∧
    ((∀ e ∈ faultyRun.2.log, e.Fits) → ∀ now,
      @rebuild Crates.plain now (@deliver Crates.plain faultyRun.2.log) =
        @rebuild Crates.plain now (@deliver Crates.plain faultyDb.log)) :=
  @insert_error Crates.plain faultyDb faultyRun.2 "c" [("a", .obj [])] .writeError faultyRun_error

/-- **A failed batch leaves its documents in memory.** The write of the `INSERT` entry fails,
    and the document is in memory, in the index, and not in what a restart rebuilds. -/
theorem failed_insert_kept :
    ∃ (db db' : Db) (items : List (String × Json)) (err : DbError),
      Operations.insert "c" items db = (.error err, db') ∧ (∀ e ∈ db'.log, e.Fits) ∧
      db.bytes "c" "a" = none ∧ (db'.bytes "c" "a").isSome ∧
      db.seqIndex["c"]? = none ∧ (db'.seqIndex["c"]?.bind fun idx => idx[(0 : UInt64)]?) = some "a" ∧
      State.bytes (@rebuild Crates.plain 0 (@deliver Crates.plain db'.log)).state "c" "a" = none := by
  refine ⟨faultyDb, faultyRun.2, [("a", .obj [])], .writeError, faultyRun_error, ?_, ?_, ?_, ?_, ?_,
    ?_⟩ <;> decide +kernel

end

end MoltenDB
