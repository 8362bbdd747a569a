/-
  What the operations that store no document can do.

  They remove documents, and log entries that insert none (`Db.Removes`).  So does an insert
  or an update before and after it stores its values: an invariant that removals keep has to
  be checked where a value is stored, and nowhere else (`wp_insert_keeps`, `wp_update_keeps`).
-/
import MoltenDB.Engine.Mirror

namespace MoltenDB

open Wire Prog Prog.Eff SystemFields LogCommand Relation

/-- The entry inserts a document when it is read back. -/
def LogEntry.Puts (e : LogEntry) : Prop := LogCommand.canon e.cmd = IKEY_INSERT

/-- Documents may be gone, and entries logged that insert none; schemas and counters stay. -/
structure Db.Removes (db db' : Db) : Prop where
  schemas : db'.schemas = db.schemas
  seqCounters : db'.seqCounters = db.seqCounters
  bytes : ∀ c k b, db'.bytes c k = some b → db.bytes c k = some b
  log : ∃ es, db'.log = db.log ++ es ∧ ∀ e ∈ es, ¬ e.Puts

theorem log_same (db : Db) : ∃ es, db.log = db.log ++ es ∧ ∀ e ∈ es, ¬ e.Puts :=
  ⟨[], (List.append_nil _).symm, List.forall_mem_nil _⟩

theorem log_one (db : Db) {e : LogEntry} (he : ¬ e.Puts) :
    ∃ es, db.log ++ [e] = db.log ++ es ∧ ∀ e ∈ es, ¬ e.Puts :=
  ⟨[e], rfl, List.forall_mem_singleton.2 he⟩

/-- Entries that insert a document were logged before. -/
theorem Db.Removes.mem_log {db db' : Db} (h : db.Removes db') :
    ∀ e ∈ db'.log, e ∈ db.log ∨ ¬ e.Puts := by
  obtain ⟨es, hlog, hes⟩ := h.log
  intro e he
  rw [hlog] at he
  exact (List.mem_append.1 he).imp_right (hes e)

theorem Db.Removes.refl (db : Db) : db.Removes db :=
  ⟨rfl, rfl, fun _ _ _ h => h, log_same db⟩

theorem Db.Removes.trans {db₁ db₂ db₃ : Db} (h : db₁.Removes db₂) (h' : db₂.Removes db₃) :
    db₁.Removes db₃ := by
  obtain ⟨es, hlog, hes⟩ := h.log
  obtain ⟨es', hlog', hes'⟩ := h'.log
  refine ⟨h'.schemas.trans h.schemas, h'.seqCounters.trans h.seqCounters,
    fun c k b hb => h.bytes c k b (h'.bytes c k b hb), es ++ es', ?_, ?_⟩
  · rw [hlog', hlog, List.append_assoc]
  · exact List.forall_mem_append.2 ⟨hes, hes'⟩

/-- A step that leaves documents, schemas, counters and the log alone. -/
theorem Db.Removes.of_same {db db' : Db} (hstate : db'.state = db.state)
    (hschemas : db'.schemas = db.schemas) (hcounters : db'.seqCounters = db.seqCounters)
    (hlog : db'.log = db.log) : db.Removes db' := by
  refine ⟨hschemas, hcounters, fun c k b hb => ?_, hlog ▸ log_same db⟩
  rwa [Db.bytes, hstate] at hb

section

variable {α : Type} {c : String}

theorem wp_removes {m : Op α} (h : Steps Db.Removes m) (db : Db) :
    wp m (fun _ => db.Removes) (fun _ => db.Removes) db :=
  h.keeps (fun _ _ hstep hr => hr.trans hstep) (.refl db)

theorem removes_nowMs : Steps Db.Removes nowMs := fun _ =>
  wp_nowMs fun _ _ => .single (.of_same rfl rfl rfl rfl)

theorem removes_newUuid : Steps Db.Removes newUuid := fun _ =>
  wp_newUuid fun _ _ => .single (.of_same rfl rfl rfl rfl)

theorem removes_walk (m : DashMap α) : Steps Db.Removes (walk m) := fun _ =>
  wp_walk fun _ _ _ => .single (.of_same rfl rfl rfl rfl)

theorem removes_send (e : Json) : Steps Db.Removes (send e) :=
  steps_modify fun _ => .of_same rfl rfl rfl rfl

/-- Logging an entry that inserts nothing. -/
theorem removes_writeNew {cmd : String} (hcmd : canon cmd ≠ IKEY_INSERT) (k : String) (v : Json) :
    Steps Db.Removes (writeNew cmd c k v) := by
  intro db
  refine wp_writeNew (fun t n => .single ?_) fun _ n => .single (.of_same rfl rfl rfl rfl)
  exact ⟨rfl, rfl, fun _ _ _ h => h, log_one db hcmd⟩

theorem removes_begin (id : String) : Steps Db.Removes (writeNew IKEY_TX_BEGIN c id .null) :=
  removes_writeNew (by decide) id .null

theorem removes_commit (id : String) : Steps Db.Removes (writeNew IKEY_TX_COMMIT c id .null) :=
  removes_writeNew (by decide) id .null

theorem removes_checkFault : Steps Db.Removes checkFault := fun _ =>
  wp_checkFault (fun _ => .refl) fun _ => .refl

namespace Operations

theorem removes_validateDocument (doc : Json) : Steps Db.Removes (validateDocument c doc) :=
  fun _ => wp_validateDocument (fun _ => .refl) .refl

theorem removes_mergeUpdate (doc updates : Json) : Steps Db.Removes (mergeUpdate doc updates) :=
  fun _ => wp_mergeUpdate (fun _ => .refl)
    (fun _ _ _ _ _ _ => .single (.of_same rfl rfl rfl rfl)) .refl

theorem removes_deleteCollection : Steps Db.Removes (deleteCollection c) := by
  refine removes_newUuid.bind fun id => (removes_begin id).bind fun _ =>
    (steps_modify fun db => ⟨rfl, rfl, fun c' k b h => ?_, log_same db⟩).bind fun _ =>
      (removes_writeNew (by decide) _ _).bind fun _ => (removes_commit id).bind fun _ =>
        removes_send _
  rw [Db.bytes, Map.get?_erase] at h
  split_ifs at h
  · cases h
  · exact h

variable [Crates]

theorem removes_deleteItem (k : String) : Steps Db.Removes (deleteItem c k) := by
  have hremove : Steps Db.Removes (removeDoc c k) := steps_modify fun db => by
    refine ⟨rfl, rfl, fun c' k' b h => ?_, log_same db⟩
    have hb := (bytes_remove db.state c k c' k').symm.trans h
    split_ifs at hb
    exact hb
  have hlog : Steps Db.Removes (writeNew IKEY_DELETE c k .null) :=
    removes_writeNew (by decide) k .null
  have hrest := hremove.bind fun _ => hlog.bind fun _ =>
    removes_send (json [("event", .str "change"), ("collection", .str c), ("key", .str k),
      ("new_v", .null)])
  refine steps_get.bind fun db => ?_
  cases db.bytes c k with
  | none => exact hrest
  | some bytes => exact (steps_modify fun _ => .of_same rfl rfl rfl rfl).bind fun _ => hrest

theorem removes_delete (keys : List String) : Steps Db.Removes (delete c keys) := by
  refine removes_newUuid.bind fun id => (removes_begin id).bind fun _ => steps_get.bind fun _ => ?_
  split_ifs
  · exact (Steps.forEach removes_deleteItem keys).bind fun _ => removes_commit id
  · exact removes_commit id

theorem removes_deleteKeys (keys : List String) : Steps Db.Removes (deleteKeys c keys) := by
  unfold deleteKeys
  split_ifs
  · exact steps_pure _
  · exact (removes_delete keys).bind fun _ => steps_pure _

theorem removes_deleteFiltered (p : String → Bytes → Bool) (limit : Option ℕ) (asc : Bool) :
    Steps Db.Removes (deleteFiltered c p limit asc) := by
  refine steps_get.bind fun db => ?_
  cases db.col c with
  | none => exact steps_pure _
  | some col => exact (removes_walk col).bind fun _ => removes_deleteKeys _

theorem removes_endKeys (col : DashMap Bytes) (n : ℕ) (asc : Bool) :
    Steps Db.Removes (endKeys c col n asc) := by
  refine steps_get.bind fun db => ?_
  cases db.seqIndex[c]? with
  | some idx => exact steps_pure _
  | none => exact (removes_walk col).bind fun _ => steps_pure _

theorem removes_deleteN (n : ℕ) (asc : Bool) : Steps Db.Removes (deleteN c n asc) := by
  unfold deleteN
  split_ifs
  · exact steps_pure _
  · refine steps_get.bind fun db => ?_
    cases db.col c with
    | none => exact steps_pure _
    | some col => exact (removes_endKeys col n asc).bind fun _ => removes_deleteKeys _

theorem removes_evictOldest (n : ℕ) : Steps Db.Removes (evictOldest c n) := by
  refine steps_get.bind fun db => ?_
  cases db.col c with
  | none => exact steps_pure _
  | some col =>
    refine (removes_walk col).bind fun _ => ?_
    dsimp only
    split_ifs
    · exact steps_pure _
    · exact (removes_delete _).outcome.bind fun _ => steps_pure _

end Operations

namespace Db

open Operations

theorem removes_evictExpired : Steps Db.Removes (evictExpired c) := by
  refine steps_get.bind fun db => ?_
  cases db.ttlExpiry[c]? with
  | none => exact steps_pure _
  | some exp =>
    refine removes_nowMs.bind fun now => ?_
    split_ifs
    · exact removes_deleteCollection.outcome.bind fun _ =>
        steps_modify fun _ => .of_same rfl rfl rfl rfl
    · exact steps_pure _

theorem removes_resetExpiry : Steps Db.Removes (resetExpiry c) := by
  refine steps_get.bind fun db => ?_
  cases db.ttlDefaults[c]? with
  | none => exact steps_pure _
  | some secs =>
    exact removes_nowMs.bind fun now =>
      (steps_modify fun _ => .of_same rfl rfl rfl rfl).bind fun _ =>
        (removes_writeNew (by decide) _ _).outcome.bind fun _ => removes_send _

theorem removes_touch : Steps Db.Removes (Eff.modify fun db =>
    { db with state := db.state.alter c fun col => some (col.getD ∅) } : Op Unit) :=
  steps_modify fun db =>
    ⟨rfl, rfl, fun c' k _ h => (bytes_touch db.state c c' k).symm.trans h, log_same db⟩

variable [Crates]

theorem removes_evictOverflow : Steps Db.Removes (evictOverflow c) := by
  refine steps_get.bind fun db => ?_
  cases db.maxSizes[c]? with
  | none => exact steps_pure _
  | some max =>
    dsimp only
    split_ifs
    · exact removes_evictOldest _
    · exact steps_pure _

/-! ### The parts of an insert around its items -/

/-- The part of `Db.insert` before its items. -/
def beginInsert (collection : String) : Op String := do
  checkFault
  evictExpired collection
  Eff.modify fun db =>
    { db with state := db.state.alter collection fun col => some (col.getD ∅) }
  let txId ← newUuid
  writeNew IKEY_TX_BEGIN collection txId .null
  return txId

/-- The part of `Db.insert` after its items. -/
def endInsert (collection txId : String) : Op Unit := do
  writeNew IKEY_TX_COMMIT collection txId .null
  evictOverflow collection
  resetExpiry collection

theorem insert_eq (c : String) (items : List (String × Json)) :
    Db.insert c items = (do
      let txId ← beginInsert c
      Eff.forEach (insertItem c) items
      endInsert c txId) := by
  simp only [Db.insert, Operations.insert, beginInsert, endInsert, bind_assoc, pure_bind]

omit [Crates] in
theorem removes_beginInsert : Steps Db.Removes (beginInsert c) :=
  removes_checkFault.bind fun _ => removes_evictExpired.bind fun _ => removes_touch.bind fun _ =>
    removes_newUuid.bind fun id => (removes_begin id).bind fun _ => steps_pure _

theorem removes_endInsert (txId : String) : Steps Db.Removes (endInsert c txId) :=
  (removes_commit txId).bind fun _ => removes_evictOverflow.bind fun _ => removes_resetExpiry

/-! ### Deletes -/

theorem removes_delete (keys : List String) : Steps Db.Removes (Db.delete c keys) :=
  removes_checkFault.bind fun _ => Operations.removes_delete keys

theorem removes_deleteFiltered (p : String → Bytes → Bool) (limit : Option ℕ) (asc : Bool) :
    Steps Db.Removes (Db.deleteFiltered c p limit asc) :=
  removes_checkFault.bind fun _ => Operations.removes_deleteFiltered p limit asc

theorem removes_deleteN (n : ℕ) (asc : Bool) : Steps Db.Removes (Db.deleteN c n asc) :=
  removes_checkFault.bind fun _ => Operations.removes_deleteN n asc

end Db

end

/-! ## What a delete removes -/

section

variable [Crates]

theorem wp_deleteItem_bytes (c k : String) (db : Db) :
    wp (Operations.deleteItem c k)
      (fun _ db' => ∀ k', db'.bytes c k' = if k' = k then none else db.bytes c k')
      (fun _ _ => True) db := by
  have herase : ∀ k', State.bytes (db.state.alter c fun col => col.map fun col => col.erase k) c k' =
      if k' = k then none else db.bytes c k' := by
    intro k'
    rw [bytes_remove]
    simp only [true_and]
    rfl
  simp only [Operations.deleteItem, wp_bind, wp_get]
  cases db.bytes c k with
  | none =>
    simp only [Operations.removeDoc, wp_bind, wp_modify, wp_send]
    exact wp_writeNew (fun _ _ => herase) fun _ _ => trivial
  | some bytes =>
    simp only [Operations.indexRemove, Operations.removeDoc, wp_bind, wp_modify, wp_send]
    exact wp_writeNew (fun _ _ => herase) fun _ _ => trivial

/-- **A delete removes its keys** and nothing else. -/
theorem wp_delete_bytes (c : String) (keys : List String) (db : Db) :
    wp (Operations.delete c keys)
      (fun _ db' => ∀ k, db'.bytes c k = if k ∈ keys then none else db.bytes c k)
      (fun _ _ => True) db := by
  simp only [Operations.delete, wp_bind, wp_get]
  refine wp_newUuid fun id n => wp_writeNew (fun t m => ?_) fun _ _ => trivial
  split_ifs with hcol
  · rw [wp_bind]
    let Left : List String → Db → Prop := fun xs s =>
      ∀ k, (if k ∈ xs then none else s.bytes c k) = if k ∈ keys then none else db.bytes c k
    have hstep : ∀ x xs s, Left (x :: xs) s →
        wp (Operations.deleteItem c x) (fun _ => Left xs) (fun _ _ => True) s := by
      intro x xs s hleft
      refine wp_mono (wp_deleteItem_bytes c x s) (fun _ s' hs' k => ?_) fun _ _ _ => trivial
      rw [hs' k, ← hleft k]
      by_cases hk : k = x
      · simp [hk]
      · simp [hk]
    refine wp_mono (wp_forEach Left hstep keys _ fun k => rfl) (fun _ s hs => ?_) fun _ _ _ => trivial
    refine wp_writeNew (fun _ _ k => ?_) fun _ _ => trivial
    rw [← hs k]
    rfl
  · have hnone : ∀ k, db.bytes c k = none := by
      intro k
      have hstate : db.state[c]? = none := by simpa [Db.col] using hcol
      simp [Db.bytes, hstate]
    refine wp_writeNew (fun _ _ k => ?_) fun _ _ => trivial
    rw [hnone k, ite_self]
    exact hnone k

end

/-! ## Invariants of inserts and updates -/

section

variable {c : String} {I : Db → Prop}

/-- **An insert keeps what removals keep**, if storing each of its items does; `J` holds while
    the items `rest` are still to come. -/
theorem Db.wp_insert_keeps [Crates] {J : List (String × Json) → Db → Prop}
    (hJ : ∀ rest db db', db.Removes db' → J rest db → J rest db') (hJI : ∀ rest db, J rest db → I db)
    (hitem : ∀ item rest db, J (item :: rest) db →
      wp (Operations.insertItem c item) (fun _ => J rest) (fun _ => I) db)
    {items : List (String × Json)} {db : Db} (h : J items db) :
    wp (Db.insert c items) (fun _ => J []) (fun _ => I) db := by
  have hkeep : ∀ {α : Type} {m : Op α} {rest : List (String × Json)} {db : Db},
      Steps Db.Removes m → J rest db → wp m (fun _ => J rest) (fun _ => I) db := by
    intro α m rest db hm hdb
    exact wp_mono (hm.keeps (hJ rest) hdb) (fun _ _ h => h) fun _ _ h => hJI _ _ h
  rw [Db.insert_eq, wp_bind]
  refine wp_mono (hkeep Db.removes_beginInsert h) (fun id db₁ h₁ => ?_) fun _ _ h => h
  rw [wp_bind]
  refine wp_mono (wp_forEach J hitem items db₁ h₁) (fun _ db₂ h₂ => ?_) fun _ _ h => h
  exact hkeep (Db.removes_endInsert id) h₂

/-- **An update keeps what removals keep**, if storing the new value does. -/
theorem Db.wp_update_keeps (hI : ∀ db db', db.Removes db' → I db → I db') {k : String}
    {updates : Json} {db : Db} (h : I db)
    (hstore : ∀ doc db₁, (db.bytes c k).bind msgpackToValue = some doc → db.Removes db₁ → I db₁ →
      wp (Operations.mergeUpdate doc updates) (fun newValue db₂ => ∀ id,
        wp (Operations.storeUpdate c k id newValue) (fun _ => I) (fun _ => I) db₂)
        (fun _ => I) db₁) :
    wp (Db.update c k updates) (fun _ => I) (fun _ => I) db := by
  simp only [Db.update, Operations.update, wp_bind, wp_get]
  refine wp_checkFault (fun _ => wp_newUuid fun id n => wp_writeNew (fun t m => ?_) fun err m => ?_)
    fun _ => h
  · generalize hdb₁ : Db.mk _ _ _ _ _ _ _ _ _ _ _ _ _ = db₁
    have hr : db.Removes db₁ := by
      subst hdb₁
      have hbegin : canon IKEY_TX_BEGIN ≠ IKEY_INSERT := by decide
      exact ⟨rfl, rfl, fun _ _ _ h => h, log_one db hbegin⟩
    have hbytes : db₁.bytes c k = db.bytes c k := by
      subst hdb₁
      rfl
    rw [hbytes]
    cases hdoc : (db.bytes c k).bind msgpackToValue with
    | some doc =>
      simp only [wp_bind, wp_pure]
      exact wp_mono (hstore doc db₁ hdoc hr (hI _ _ hr h)) (fun _ _ h => h id) fun _ _ h => h
    | none =>
      simp only [wp_bind, wp_pure]
      exact (removes_commit id).keeps hI (hI _ _ hr h)
  · exact hI db _ (.of_same rfl rfl rfl rfl) h

end

end MoltenDB
