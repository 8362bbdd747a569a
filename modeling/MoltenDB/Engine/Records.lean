/-
  The log records the schemas and expiries in memory.

  What the log last says about the schema of a collection is its schema in memory, and
  so for its expiry, whether or not that has passed (`Recorded`).  Each operation keeps
  this, as long as no write fails and all lengths fit their headers (`Clean`).
-/
import MoltenDB.Engine.Moves
import MoltenDB.Engine.Mirror

namespace MoltenDB

open Wire Prog Prog.Eff LogCommand Relation

/-- What an entry says about the schema of a collection. -/
def LogEntry.registers (e : LogEntry) (c : String) : Option (Option Json) :=
  if e.cmd = IKEY_SCHEMA ∧ e.collection = c then some (some e.value) else none

/-- What an entry says about the expiry of a collection. -/
def LogEntry.expires (e : LogEntry) (c : String) : Option (Option UInt64) :=
  if e.collection = c then
    if e.cmd = IKEY_DROP then some none else e.expiresAt.map some
  else none

/-- The schema of a collection, as it is read back. -/
def Db.schemaOf (db : Db) (c : String) : Option Json := db.schemas[c]?.map fun s => s.value.canon

/-- The schemas and expiries in memory are those that the log records. -/
def Db.Recorded (db : Db) : Prop :=
  db.Clean → ∀ c,
    db.schemaOf c = Overwrite.replay LogEntry.registers (fun _ => none) (logOps db.log) c ∧
      db.ttlExpiry[c]? = Overwrite.replay LogEntry.expires (fun _ => none) (logOps db.log) c

/-! ## What single entries record -/

/-- An entry that says nothing about schemas and expiries. -/
def LogEntry.Silent (e : LogEntry) : Prop := ∀ c, e.registers c = none ∧ e.expires c = none

theorem silent_of_cmd {e : LogEntry} (h1 : e.cmd ≠ IKEY_SCHEMA) (h2 : e.cmd ≠ IKEY_DROP)
    (h3 : e.cmd ≠ "TTL_EXPIRY") : e.Silent := fun c => by
  simp [LogEntry.registers, LogEntry.expires, LogEntry.expiresAt, h1, h2, h3]

theorem silent_of_writeCmds {e : LogEntry} (h : e.cmd ∈ writeCmds) (hdrop : e.cmd ≠ IKEY_DROP) :
    e.canon.Silent := by
  have hall : ∀ cmd ∈ writeCmds, cmd ≠ IKEY_DROP →
      canon cmd ≠ IKEY_SCHEMA ∧ canon cmd ≠ IKEY_DROP ∧ canon cmd ≠ "TTL_EXPIRY" := by decide
  obtain ⟨h1, h2, h3⟩ := hall _ h hdrop
  exact silent_of_cmd h1 h2 h3

theorem silent_begin (c id : String) (v : Json) (t : UInt64) :
    (LogEntry.mk IKEY_TX_BEGIN c id v t).canon.Silent :=
  silent_of_cmd (show canon IKEY_TX_BEGIN ≠ IKEY_SCHEMA by decide)
    (show canon IKEY_TX_BEGIN ≠ IKEY_DROP by decide)
    (show canon IKEY_TX_BEGIN ≠ "TTL_EXPIRY" by decide)

theorem silent_commit (c id : String) (v : Json) (t : UInt64) :
    (LogEntry.mk IKEY_TX_COMMIT c id v t).canon.Silent :=
  silent_of_cmd (show canon IKEY_TX_COMMIT ≠ IKEY_SCHEMA by decide)
    (show canon IKEY_TX_COMMIT ≠ IKEY_DROP by decide)
    (show canon IKEY_TX_COMMIT ≠ "TTL_EXPIRY" by decide)

/-- An entry more, be it a marker or not. -/
theorem replay_logOps_append {V : Type} {act : LogEntry → String → Option V}
    (hmark : ∀ e c, e.cmd = IKEY_TX_BEGIN ∨ e.cmd = IKEY_TX_COMMIT → act e c = none)
    (σ : String → V) (log : List LogEntry) (e : LogEntry) (c : String) :
    Overwrite.replay act σ (logOps (log ++ [e])) c =
      (act e.canon c).getD (Overwrite.replay act σ (logOps log) c) := by
  rw [logOps_append]
  by_cases hm : e.canon.cmd = IKEY_TX_BEGIN ∨ e.canon.cmd = IKEY_TX_COMMIT
  · have hops : Journal.ops [e.canon.toRec] = [] := by
      rcases hm with hm | hm <;> simp [LogEntry.toRec, hm, Journal.ops,
        show IKEY_TX_COMMIT ≠ IKEY_TX_BEGIN by decide]
    rw [hops, List.append_nil, hmark _ _ hm, Option.getD_none]
  · have hops : Journal.ops [e.canon.toRec] = [e.canon] := by
      rw [not_or] at hm
      simp [LogEntry.toRec, hm.1, hm.2, Journal.ops]
    rw [hops, Overwrite.replay_append_singleton]

theorem marker_registers {e : LogEntry} (c : String)
    (h : e.cmd = IKEY_TX_BEGIN ∨ e.cmd = IKEY_TX_COMMIT) : e.registers c = none := by
  have hne : e.cmd ≠ IKEY_SCHEMA := by rcases h with h | h <;> rw [h] <;> decide
  simp [LogEntry.registers, hne]

theorem marker_expires {e : LogEntry} (c : String)
    (h : e.cmd = IKEY_TX_BEGIN ∨ e.cmd = IKEY_TX_COMMIT) : e.expires c = none := by
  have hne : e.cmd ≠ IKEY_DROP ∧ e.cmd ≠ "TTL_EXPIRY" := by
    rcases h with h | h <;> rw [h] <;> decide
  simp [LogEntry.expires, LogEntry.expiresAt, hne.1, hne.2]

/-! ## One entry at a time -/

/-- **An entry that says what changed in memory** keeps the records. -/
theorem Db.Recorded.append {db db' : Db} {e : LogEntry} (h : db.Recorded)
    (hlog : db'.log = db.log ++ [e]) (hf : db'.failedWrites = db.failedWrites)
    (hschema : ∀ c, db'.schemaOf c = (e.canon.registers c).getD (db.schemaOf c))
    (hexp : ∀ c, db'.ttlExpiry[c]? = (e.canon.expires c).getD db.ttlExpiry[c]?) :
    db'.Recorded := by
  intro hc c
  obtain ⟨h1, h2⟩ := h (hc.of_append hlog hf).1 c
  rw [hlog, replay_logOps_append (fun _ c h => marker_registers c h),
    replay_logOps_append (fun _ c h => marker_expires c h), ← h1, ← h2]
  exact ⟨hschema c, hexp c⟩

theorem Db.Recorded.silent {db db' : Db} {e : LogEntry} (h : db.Recorded)
    (hlog : db'.log = db.log ++ [e]) (hf : db'.failedWrites = db.failedWrites)
    (hs : db'.schemas = db.schemas) (hx : db'.ttlExpiry = db.ttlExpiry) (he : e.canon.Silent) :
    db'.Recorded := by
  refine h.append hlog hf (fun c => ?_) (fun c => ?_)
  · rw [(he c).1, Db.schemaOf, hs]; rfl
  · rw [(he c).2, hx]; rfl

theorem recorded_of_failed {db : Db} (h : ¬ db.Clean) : db.Recorded := fun hc => absurd hc h

/-- The moves of operations on documents say nothing about schemas and expiries. -/
theorem Db.Recorded.docMoves {c : String} {db db' : Db} (h : db.Recorded)
    (hm : ReflTransGen (DocMove c) db db') : db'.Recorded := by
  induction hm with
  | refl => exact h
  | tail _ hstep ih =>
    obtain ⟨hmove, hdrop⟩ := hstep
    cases hmove with
    | log e hc hcmd => exact ih.silent rfl rfl rfl rfl (silent_of_writeCmds hcmd (hdrop e rfl))
    | failed => exact recorded_of_failed fun hc => absurd hc.1 (Nat.succ_ne_zero _)
    | _ => exact ih

theorem WithinDocs.wp_recorded {α : Type} {c : String} {m : Op α} (hm : WithinDocs c m) {db : Db}
    (h : db.Recorded) : wp m (fun _ => Db.Recorded) (fun _ => Db.Recorded) db :=
  wp_mono (hm db) (fun _ _ hm => h.docMoves hm) (fun _ _ hm => h.docMoves hm)

/-! ## Drops -/

/-- Once a drop is logged, the expiry of the collection is to be forgotten. -/
theorem Db.Recorded.wp_deleteCollection {db : Db} (h : db.Recorded) (c : String) :
    wp (Operations.deleteCollection c)
      (fun _ db' => Db.Recorded { db' with ttlExpiry := db'.ttlExpiry.erase c })
      (fun _ db' => ¬ db'.Clean) db := by
  simp only [Operations.deleteCollection, wp_bind, wp_modify, wp_send]
  refine wp_newUuid fun id n => ?_
  refine wp_writeNew (fun t n => ?_) (fun _ _ => not_clean_of_failed)
  have h₁ : Db.Recorded { db with log := db.log ++ [⟨IKEY_TX_BEGIN, c, id, .null, t⟩], tick := n } :=
    h.silent rfl rfl rfl rfl (silent_begin _ _ _ _)
  refine wp_writeNew (fun t' n' => ?_) (fun _ _ => not_clean_of_failed)
  refine wp_writeNew (fun t'' n'' => ?_) (fun _ _ => not_clean_of_failed)
  have h₂ : Db.Recorded
      { db with
        log := db.log ++ [⟨IKEY_TX_BEGIN, c, id, .null, t⟩] ++ [⟨IKEY_DROP, c, "*", .null, t'⟩]
        ttlExpiry := db.ttlExpiry.erase c } := by
    refine h₁.append rfl rfl (fun c' => rfl) fun c' => ?_
    have hexp : (LogEntry.mk IKEY_DROP c "*" .null t').canon.expires c' =
        if c = c' then some none else none := rfl
    rw [hexp, Map.get?_erase]
    by_cases hcc : c = c'
    · rw [if_pos hcc, if_pos hcc.symm]; rfl
    · rw [if_neg hcc, if_neg (Ne.symm hcc)]; rfl
  exact h₂.silent rfl rfl rfl rfl (silent_commit _ _ _ _)

theorem Db.Recorded.wp_evictExpired {db : Db} (h : db.Recorded) (c : String) :
    wp (Db.evictExpired c) (fun _ => Db.Recorded) (fun _ _ => True) db := by
  simp only [Db.evictExpired, wp_bind, wp_get]
  split
  · exact h
  · simp only [wp_bind]
    refine wp_nowMs fun now n => ?_
    have h' : Db.Recorded { db with tick := n } := h
    split_ifs
    · simp only [wp_bind, wp_outcome, wp_modify]
      exact wp_mono (h'.wp_deleteCollection c) (fun _ _ h => h)
        (fun _ _ h => recorded_of_failed fun hc => h hc)
    · exact h'

variable [Crates]

theorem Db.Recorded.wp_evictOverflow {db : Db} (h : db.Recorded) (c : String) :
    wp (Db.evictOverflow c) (fun _ => Db.Recorded) (fun _ _ => True) db := by
  simp only [Db.evictOverflow, wp_bind, wp_get]
  split
  · exact h
  · split_ifs
    · exact wp_mono ((withinDocs_evictOldest _).wp_recorded h) (fun _ _ h => h)
        (fun _ _ _ => trivial)
    · exact h

omit [Crates] in
/-- An expiry is recorded under its number. -/
theorem expires_canon (c c' : String) (t s : UInt64) :
    (LogEntry.mk "TTL_EXPIRY" c (Decimal.print t.toNat) .null s).canon.expires c' =
      if c = c' then some (some t) else none := by
  have hcmd : (LogEntry.mk "TTL_EXPIRY" c (Decimal.print t.toNat) .null s).canon.cmd =
      "TTL_EXPIRY" := rfl
  have hparse : parseU64 (Decimal.print t.toNat) = some t := by
    rw [parseU64, Decimal.parse_print t.toNat_lt]
    simp
  have hne : ("TTL_EXPIRY" : String) ≠ IKEY_DROP := by decide
  simp only [LogEntry.expires, LogEntry.expiresAt, hcmd, if_neg hne, if_true]
  simp [LogEntry.canon, hparse]

omit [Crates] in
/-- Resetting the expiry of a collection records it. -/
theorem Db.Recorded.wp_resetExpiry {db : Db} (h : db.Recorded) (c : String) :
    wp (Db.resetExpiry c) (fun _ => Db.Recorded) (fun _ _ => True) db := by
  simp only [Db.resetExpiry, wp_bind, wp_get]
  cases db.ttlDefaults[c]? with
  | none => exact h
  | some secs =>
    simp only [wp_bind, wp_modify, wp_outcome, wp_send]
    refine wp_nowMs fun now n => ?_
    refine wp_writeNew (fun s m => ?_) (fun err m => ?_)
    · refine h.append (e := ⟨"TTL_EXPIRY", c, Decimal.print (now + secs * 1000).toNat, .null, s⟩)
        rfl rfl (fun c' => rfl) fun c' => ?_
      rw [expires_canon, Map.get?_insert]
      by_cases hcc : c = c'
      · rw [if_pos hcc, if_pos hcc.symm]; rfl
      · rw [if_neg hcc, if_neg (Ne.symm hcc)]; rfl
    · exact recorded_of_failed fun hc => absurd hc.1 (Nat.succ_ne_zero _)

theorem Db.Recorded.wp_dbInsert {db : Db} (h : db.Recorded) (c : String)
    (items : List (String × Json)) :
    wp (Db.insert c items) (fun _ => Db.Recorded) (fun _ _ => True) db := by
  simp only [Db.insert, wp_bind]
  refine wp_checkFault (fun _ => ?_) (fun _ => trivial)
  refine wp_mono (h.wp_evictExpired c) (fun _ db₁ h₁ => ?_) (fun _ _ _ => trivial)
  refine wp_mono ((withinDocs_insert items).wp_recorded h₁) (fun _ db₂ h₂ => ?_)
    (fun _ _ _ => trivial)
  refine wp_mono (h₂.wp_evictOverflow c) (fun _ db₃ h₃ => ?_) (fun _ _ _ => trivial)
  exact h₃.wp_resetExpiry c

/-! ## Schemas -/

omit [Crates] in
theorem registers_canon (c c' : String) (schema : Json) (t : UInt64) :
    (LogEntry.mk SCHEMA c "" schema t).canon.registers c' =
      if c = c' then some (some schema.canon) else none := by
  have hcmd : canon SCHEMA = IKEY_SCHEMA := by decide
  simp [LogEntry.registers, LogEntry.canon, hcmd]

omit [Crates] in
theorem expires_schema (c c' : String) (schema : Json) (t : UInt64) :
    (LogEntry.mk SCHEMA c "" schema t).canon.expires c' = none := by
  have hcmd : (LogEntry.mk SCHEMA c "" schema t).canon.cmd = IKEY_SCHEMA := rfl
  have hne : IKEY_SCHEMA ≠ IKEY_DROP ∧ IKEY_SCHEMA ≠ "TTL_EXPIRY" := by decide
  simp [LogEntry.expires, LogEntry.expiresAt, hcmd, hne.1, hne.2]

/-- **Registering a schema records it**; an invalid one changes nothing. -/
theorem Db.Recorded.wp_setSchema {db : Db} (h : db.Recorded) (c : String) (schema : Json) :
    wp (Operations.setSchema c schema) (fun _ => Db.Recorded) (fun _ => Db.Recorded) db := by
  unfold Operations.setSchema
  cases Crates.validatorFor schema with
  | error err => exact h
  | ok validator =>
    simp only [wp_bind, wp_modify, wp_send]
    refine wp_newUuid fun id n => ?_
    refine wp_writeNew (fun t n => ?_) (fun _ _ => recorded_of_failed not_clean_of_failed)
    have h₁ : Db.Recorded
        { db with log := db.log ++ [⟨IKEY_TX_BEGIN, c, id, .null, t⟩], tick := n } :=
      h.silent rfl rfl rfl rfl (silent_begin _ _ _ _)
    refine wp_writeNew (fun t' n' => ?_) (fun _ _ => recorded_of_failed not_clean_of_failed)
    refine wp_writeNew (fun t'' n'' => ?_) (fun _ _ => recorded_of_failed not_clean_of_failed)
    have h₂ : Db.Recorded
        { db with
          log := db.log ++ [⟨IKEY_TX_BEGIN, c, id, .null, t⟩] ++ [⟨SCHEMA, c, "", schema, t'⟩]
          schemas := db.schemas.insert c ⟨schema, validator⟩ } := by
      refine h₁.append rfl rfl (fun c' => ?_) fun c' => ?_
      · rw [registers_canon, Db.schemaOf, Map.get?_insert]
        by_cases hcc : c = c'
        · rw [if_pos hcc, if_pos hcc.symm]; rfl
        · rw [if_neg hcc, if_neg (Ne.symm hcc)]; rfl
      · rw [expires_schema]; rfl
    exact h₂.silent rfl rfl rfl rfl (silent_commit _ _ _ _)

/-- An entry about a schema, inside a transaction, leaves the documents alone. -/
theorem Db.InTx.wp_schema {db : Db} {id : String} (h : db.InTx id) (c : String) (schema : Json) :
    wp (writeNew SCHEMA c "" schema) (fun _ => Db.InTx id) (fun _ db' => ¬ db'.Clean) db := by
  refine wp_writeNew (fun t n => ?_) (fun _ _ => not_clean_of_failed)
  intro hc
  have hstep := logReader_append db.log ⟨SCHEMA, c, "", schema, t⟩
  have hops := logOps_append db.log ⟨SCHEMA, c, "", schema, t⟩
  obtain ⟨h1, h2, h3⟩ := h (hc.of_append rfl rfl).1
  rw [toRec_canon_op (by decide)] at hops
  rw [toRec_canon_op (by decide), Journal.Reader.step, h1] at hstep
  simp only [hstep, hops, Option.isSome_some, if_true, Journal.ops]
  refine ⟨trivial, by rw [← List.append_assoc, h2], fun c' k' => ?_⟩
  have hnone : (LogEntry.mk SCHEMA c "" schema t).canon.docWrites (.doc c' k') = none := by
    have hcmd : (LogEntry.mk SCHEMA c "" schema t).canon.cmd = IKEY_SCHEMA := rfl
    rw [LogEntry.docWrites, hcmd, if_neg (by decide), LogEntry.writes, LogEntry.change, hcmd,
      if_neg (by decide), if_neg (by decide), if_neg (by decide), if_neg (by decide), if_pos rfl]
    cases Crates.validatorFor (LogEntry.mk SCHEMA c "" schema t).canon.value <;> rfl
  rw [Overwrite.replay_append_singleton, hnone]
  exact h3 c' k'

/-- **Registering a schema keeps the mirror.** -/
theorem Db.Idle.wp_setSchema {db : Db} (h : db.Idle) (c : String) (schema : Json) :
    wp (Operations.setSchema c schema) (fun _ => Db.Idle) (fun _ => Db.Idle) db := by
  unfold Operations.setSchema
  cases Crates.validatorFor schema with
  | error err => exact h
  | ok validator =>
    simp only [wp_bind, wp_modify, wp_send]
    refine wp_newUuid fun id n => ?_
    refine wp_mono ((h.tick n).wp_begin c id) (fun _ db₁ h₁ => ?_) (fun _ _ h hc => absurd hc h)
    refine wp_mono (h₁.1.wp_schema c schema) (fun _ db₂ h₂ => ?_) (fun _ _ h hc => absurd hc h)
    exact wp_mono (h₂.wp_commit c) (fun _ _ h => h.idle) (fun _ _ h hc => absurd hc h)

end MoltenDB
