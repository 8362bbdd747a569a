/-
  Compaction, seen from a restart.

  A restart from the log finds the expiries that were logged, and drops what was logged
  before one that has passed.  A snapshot holds the documents and schemas in memory, and
  no expiries: what is rebuilt from it is the same exactly if no collection has one, and
  each schema can be registered again (`compaction_invisible_iff`).
-/
import MoltenDB.Proof.Crash
import MoltenDB.Proof.Expiry
import MoltenDB.Engine.Records

namespace MoltenDB

open Wire Prog Prog.Eff LogCommand Relation

/-! ## Histories of operations -/

/-- An operation of a history. -/
inductive Act
  | call (call : Call)
  | setSchema (collection : String) (schema : Json)
  | setTtlDefault (collection : String) (ttlSecs : UInt64) (hpos : ttlSecs ≠ 0)
  | setMaxSize (collection : String) (max : ℕ)

/-- The outcomes with which a history goes on: an invalid schema is turned down. -/
def Act.accepts : Act → Except DbError Unit → Bool
  | call c, out => c.accepts out
  | _, _ => true

/-- An empty database without schemas; default TTLs and `maxSize` caps may be set. -/
structure Db.Untouched (db : Db) : Prop where
  state : db.state = ∅
  schemas : db.schemas = ∅
  ttlExpiry : db.ttlExpiry = ∅
  log : db.log = []
  failedWrites : db.failedWrites = 0

/-- The maps that a compaction writes out. -/
def Db.recovered (db : Db) : Recovered := ⟨db.state, db.schemas, db.ttlExpiry⟩

/-- The files of a database that was not compacted. -/
def Db.disk (db : Db) : Disk := ⟨some (logBytes db.log), none, none, none⟩

variable [Crates]

namespace Act

def run : Act → Op Unit
  | call c => c.run
  | setSchema c schema => Db.setSchema c schema
  | setTtlDefault c secs _ => Db.setTtlDefault c secs
  | setMaxSize c max => Db.setMaxSize c max

/-- The operations, run one at a time and each accepted, lead from `db` to `db'`. -/
inductive Runs : Db → List Act → Db → Prop
  | nil (db : Db) : Runs db [] db
  | cons {db db' : Db} {act : Act} {acts : List Act} (h : act.accepts (act.run db).1)
    (hrest : Runs (act.run db).2 acts db') : Runs db (act :: acts) db'

/-- A property that each accepted operation keeps is kept by a whole history. -/
theorem Runs.keeps {P : Db → Prop} {db db' : Db} {acts : List Act}
    (hP : ∀ act : Act, ∀ db, P db →
      wp act.run (fun _ => P) (fun err db' => act.accepts (.error err) → P db') db)
    (hrun : Runs db acts db') (h : P db) : P db' := by
  induction hrun with
  | nil => exact h
  | @cons db db' act acts hacc hrest ih =>
    have hact := hP act db h
    rcases hout : act.run db with ⟨err | u, db₁⟩
    · rw [hout] at hacc ih
      exact ih (wp_of_error hact hout hacc)
    · rw [hout] at ih
      exact ih (wp_of_ok hact hout)

theorem wp_idle {db : Db} (h : db.Idle) (act : Act) :
    wp act.run (fun _ => Db.Idle) (fun err db' => act.accepts (.error err) → db'.Idle) db := by
  cases act with
  | call c => exact Call.wp_idle h c
  | setSchema c schema =>
    exact wp_mono (h.wp_setSchema c schema) (fun _ _ h => h) (fun _ _ h _ => h)
  | setTtlDefault c secs hpos =>
    simp only [run, Db.setTtlDefault, wp_modify, if_neg hpos]
    exact h
  | setMaxSize c max => exact h

/-- One accepted operation keeps the records of the log. -/
theorem wp_recorded {db : Db} (h : db.Recorded) (act : Act) :
    wp act.run (fun _ => Db.Recorded) (fun err db' => act.accepts (.error err) → db'.Recorded)
      db := by
  cases act with
  | call call =>
    cases call with
    | insert c items =>
      exact wp_mono (h.wp_dbInsert c items) (fun _ _ h => h)
        (fun _ _ _ hacc => by simpa using Call.accepts_error hacc)
    | update c k updates =>
      simp only [run, Call.run, Db.update, wp_bind, wp_pure]
      refine wp_checkFault (fun _ => ?_) (fun _ _ => h)
      exact wp_mono ((withinDocs_update k updates).wp_recorded h) (fun _ _ h => h)
        (fun _ _ h _ => h)
    | delete c keys =>
      simp only [run, Call.run, Db.delete, wp_bind]
      refine wp_checkFault (fun _ => ?_) (fun _ _ => h)
      exact wp_mono ((withinDocs_delete keys).wp_recorded h) (fun _ _ h => h) (fun _ _ h _ => h)
    | deleteFiltered c p limit asc =>
      simp only [run, Call.run, Db.deleteFiltered, wp_bind, wp_pure]
      refine wp_checkFault (fun _ => ?_) (fun _ _ => h)
      exact wp_mono ((withinDocs_deleteFiltered p limit asc).wp_recorded h) (fun _ _ h => h)
        (fun _ _ h _ => h)
    | deleteN c n asc =>
      simp only [run, Call.run, Db.deleteN, wp_bind, wp_pure]
      refine wp_checkFault (fun _ => ?_) (fun _ _ => h)
      exact wp_mono ((withinDocs_deleteN n asc).wp_recorded h) (fun _ _ h => h) (fun _ _ h _ => h)
    | deleteCollection c =>
      simp only [run, Call.run, Db.deleteCollection, wp_bind, wp_modify]
      exact wp_mono (h.wp_deleteCollection c) (fun _ _ h => h)
        (fun _ _ h _ => recorded_of_failed h)
  | setSchema c schema =>
    exact wp_mono (h.wp_setSchema c schema) (fun _ _ h => h) (fun _ _ h _ => h)
  | setTtlDefault c secs hpos =>
    simp only [run, Db.setTtlDefault, wp_modify, if_neg hpos]
    exact h
  | setMaxSize c max => exact h

end Act

omit [Crates] in
theorem Db.Untouched.recorded {db : Db} (h : db.Untouched) : db.Recorded := by
  intro _ c
  rw [Db.schemaOf, h.schemas, h.ttlExpiry, h.log]
  constructor <;> simp [logOps, Journal.ops, Overwrite.replay]

theorem Act.Runs.mirrored {db db' : Db} {acts : List Act} (hrun : Act.Runs db acts db')
    (h : db.Untouched) : db'.Idle ∧ db'.Recorded :=
  ⟨hrun.keeps (fun act _ h => Act.wp_idle h act) (Db.idle_of_empty h.state h.log),
    hrun.keeps (fun act _ h => Act.wp_recorded h act) h.recorded⟩

/-! ## What a restart from the log finds -/

/-- The entry drops the collection. -/
def LogEntry.Drops (e : LogEntry) (c : String) : Prop := e.cmd = IKEY_DROP ∧ e.collection = c

omit [Crates] in
theorem drops_of_expires {e : LogEntry} {c : String} (h : e.expires c = some none) :
    e.Drops c := by
  unfold LogEntry.expires at h
  split_ifs at h with hc hd
  · exact ⟨hd, hc⟩
  · obtain ⟨t, -, ht⟩ := Option.map_eq_some_iff.1 h
    cases ht

omit [Crates] in
theorem expires_of_lapsed {now : UInt64} {e : LogEntry} {c : String} (h : e.Lapsed now c) :
    ∃ t, e.expires c = some (some t) := by
  obtain ⟨hc, t, ht, -⟩ := id h
  have hne : ("TTL_EXPIRY" : String) ≠ IKEY_DROP := by decide
  exact ⟨t, by simp [LogEntry.expires, hc, h.cmd, hne, ht]⟩

theorem writes_of_drops {now : UInt64} {e : LogEntry} {c : String} (h : e.Drops c) (k : String) :
    e.writes now (.doc c k) = some none := by
  obtain ⟨hcmd, rfl⟩ := h
  have hch : e.change now = some (.drop e.collection) := by
    rw [LogEntry.change, if_neg (by rw [hcmd]; decide), if_neg (by rw [hcmd]; decide), if_pos hcmd]
  simp [LogEntry.writes, hch, Change.writes]

/-- An expiry that has passed is as good as a drop. -/
theorem writes_expiry (now : UInt64) (e : LogEntry) (c : String) :
    e.writes now (.expiry c) =
      (e.expires c).map fun o => (o.filter fun t => now < t).map fun t => some (.ofU64 t) := by
  by_cases hd : e.cmd = IKEY_DROP
  · have hch : e.change now = some (.drop e.collection) := by
      rw [LogEntry.change, if_neg (by rw [hd]; decide), if_neg (by rw [hd]; decide), if_pos hd]
    simp only [LogEntry.writes, hch, Option.bind_some, Change.writes, LogEntry.expires, hd, if_true]
    by_cases hc : c = e.collection <;> simp [hc, eq_comm]
  by_cases ht : e.cmd = "TTL_EXPIRY"
  · rw [LogEntry.writes, change_of_expiry ht]
    simp only [LogEntry.expires, if_neg hd]
    cases e.expiresAt with
    | none => simp
    | some t =>
      by_cases hlt : now < t <;> by_cases hc : c = e.collection <;>
        simp [hlt, hc, Change.writes, Option.filter_some, eq_comm]
  · -- any other entry is about a document or a schema
    have hnone : e.expires c = none := by simp [LogEntry.expires, LogEntry.expiresAt, hd, ht]
    rw [hnone, LogEntry.writes, LogEntry.change, if_neg hd, if_neg ht]
    split_ifs
    · rfl
    · rfl
    · cases Crates.validatorFor e.value <;> rfl
    · rfl

/-- **The expiries after a restart** are those logged that have not passed. -/
theorem replay_expiry (now : UInt64) (L : List LogEntry) (c : String) :
    Overwrite.replay (LogEntry.writes now) (fun _ => none) L (.expiry c) =
      ((Overwrite.replay LogEntry.expires (fun _ => none) L c).filter fun t => now < t).map
        fun t => some (.ofU64 t) := by
  rw [Overwrite.replay_eq, Overwrite.replay_eq,
    Overwrite.last_map fun e _ => writes_expiry now e c]
  cases Overwrite.last LogEntry.expires L c <;> rfl

/-- A drop after each passed expiry makes it as if none had been logged. -/
theorem replay_doc_of_dropped {now : UInt64} {L : List LogEntry} {c k : String}
    {σ σ' : Reg → Held} (hσ : σ (.doc c k) = σ' (.doc c k) ∨ ∃ d ∈ L, d.Drops c)
    (hlapsed : ∀ A e B, L = A ++ e :: B → e.Lapsed now c → ∃ d ∈ B, d.Drops c) :
    Overwrite.replay (LogEntry.writes now) σ L (.doc c k) =
      Overwrite.replay LogEntry.docWrites σ' L (.doc c k) := by
  induction L generalizing σ σ' with
  | nil =>
    rcases hσ with hσ | ⟨d, hd, -⟩
    · exact hσ
    · cases hd
  | cons e L ih =>
    refine ih ?_ fun A e' B hL => hlapsed (e :: A) e' B (by rw [hL]; rfl)
    by_cases hlater : ∃ d ∈ L, d.Drops c
    · exact Or.inr hlater
    refine Or.inl ?_
    have hl : ¬ e.Lapsed now c := fun hl => hlater (hlapsed [] e L rfl hl)
    simp only [Overwrite.apply]
    by_cases hd : e.Drops c
    · have hne : e.cmd ≠ "TTL_EXPIRY" := by rw [hd.1]; decide
      rw [← LogEntry.writes_doc now hne, writes_of_drops hd]
      rfl
    have hsame : σ (.doc c k) = σ' (.doc c k) := by
      rcases hσ with hσ | ⟨d, hmem, hdrop⟩
      · exact hσ
      · rcases List.mem_cons.1 hmem with rfl | hmem
        · exact absurd hdrop hd
        · exact absurd ⟨d, hmem, hdrop⟩ hlater
    by_cases ht : e.cmd = "TTL_EXPIRY"
    · rw [writes_of_not_lapsed ht hl, LogEntry.docWrites, if_pos ht, hsame]
    · rw [LogEntry.writes_doc now ht, hsame]

/-- **Where no expiry is left, the log brings the documents back as they were.** -/
theorem replay_doc {L : List LogEntry} {c : String}
    (h : Overwrite.replay LogEntry.expires (fun _ => none) L c = none) (now : UInt64) (k : String) :
    Overwrite.replay (LogEntry.writes now) (fun _ => none) L (.doc c k) =
      Overwrite.replay LogEntry.docWrites (fun _ => none) L (.doc c k) := by
  refine replay_doc_of_dropped (Or.inl rfl) fun A e B hL hl => ?_
  obtain ⟨t, ht⟩ := expires_of_lapsed hl
  rw [Overwrite.replay_eq, hL, Overwrite.last_append, Overwrite.last_cons, ht] at h
  cases hlast : Overwrite.last LogEntry.expires B c with
  | none => rw [hlast] at h; cases h
  | some o =>
    obtain rfl : o = none := by simpa [hlast] using h
    obtain ⟨d, hd, hexp⟩ := Overwrite.exists_of_last hlast
    exact ⟨d, hd, drops_of_expires hexp⟩

/-- What the log shows of a document is read back as it is. -/
theorem readBack_replay (L : List LogEntry) (c k : String) :
    Held.readBack (Overwrite.replay LogEntry.docWrites (fun _ => none) L (.doc c k)) =
      Overwrite.replay LogEntry.docWrites (fun _ => none) L (.doc c k) := by
  rw [Overwrite.replay_eq]
  cases hlast : Overwrite.last LogEntry.docWrites L (.doc c k) with
  | none => rfl
  | some held =>
    cases held with
    | none => rfl
    | some v =>
      obtain ⟨e, -, hw⟩ := Overwrite.exists_of_last hlast
      unfold LogEntry.docWrites at hw
      split_ifs at hw
      have hput := @writes_of_inserts _ 0 _ _ _ (inserts_of_writes hw)
      rw [hw] at hput
      obtain rfl : v = some e.value.canon := by simpa using hput
      simp [Held.readBack]

/-! ### Schemas -/

theorem writes_schema_eq (now : UInt64) (e : LogEntry) (c : String) :
    e.writes now (.schema c) = (e.registers c).bind fun o =>
      (o.bind compiled).map fun v => some (some v) := by
  by_cases hs : e.cmd = IKEY_SCHEMA
  · have hne : IKEY_SCHEMA ≠ IKEY_INSERT ∧ IKEY_SCHEMA ≠ IKEY_DELETE ∧ IKEY_SCHEMA ≠ IKEY_DROP ∧
        IKEY_SCHEMA ≠ "TTL_EXPIRY" := by decide
    cases hv : Crates.validatorFor e.value with
    | error err =>
      have hch : e.change now = none := by simp [LogEntry.change, hs, hne, hv]
      rw [LogEntry.writes, hch, LogEntry.registers]
      split_ifs <;> simp [compiled, hv]
    | ok p =>
      have hch : e.change now = some (.schema e.collection e.value p) := by
        simp [LogEntry.change, hs, hne, hv]
      rw [LogEntry.writes, hch, LogEntry.registers]
      by_cases hc : c = e.collection
      · rw [if_pos ⟨hs, hc.symm⟩]
        simp [compiled, hv, Change.writes, hc]
      · rw [if_neg fun h => hc h.2.symm]
        simp [Change.writes, hc]
  · rw [LogEntry.registers, if_neg fun h => hs h.1, LogEntry.writes, LogEntry.change, if_neg hs]
    split_ifs
    · rfl
    · rfl
    · rfl
    · cases e.expiresAt with
      | none => rfl
      | some t => by_cases hlt : now < t <;> simp [hlt, Change.writes]
    · rfl

omit [Crates] in
theorem registers_cases (e : LogEntry) (c : String) :
    e.registers c = none ∨ e.registers c = some (some e.value) := by
  unfold LogEntry.registers
  split_ifs
  · exact Or.inr rfl
  · exact Or.inl rfl

/-- An entry leaves a schema alone unless it registers one that compiles. -/
theorem writes_schema_eq_none {now : UInt64} {e : LogEntry} {c : String} :
    e.writes now (.schema c) = none ↔ ∀ v, e.registers c = some (some v) → compiled v = none := by
  rw [writes_schema_eq]
  rcases registers_cases e c with hreg | hreg <;> simp [hreg]

/-- The log brings back the last schema that compiles; that is the last one exactly if it
    compiles, or none does. -/
theorem replay_schema_iff (now : UInt64) (L : List LogEntry) (c : String) :
    ((Overwrite.replay LogEntry.registers (fun _ => none) L c).bind compiled).map some =
        Overwrite.replay (LogEntry.writes now) (fun _ => none) L (.schema c) ↔
      ∀ v, Overwrite.replay LogEntry.registers (fun _ => none) L c = some v → compiled v = none →
        ∀ e ∈ L, ∀ v', e.registers c = some (some v') → compiled v' = none := by
  rw [Overwrite.replay_eq, Overwrite.replay_eq]
  cases hlast : Overwrite.last LogEntry.registers L c with
  | none =>
    have hnone : Overwrite.last (LogEntry.writes now) L (.schema c) = none :=
      Overwrite.last_eq_none.2 fun e he => by
        rw [writes_schema_eq, Overwrite.last_eq_none.1 hlast e he, Option.bind_none]
    simp [hnone]
  | some o =>
    obtain ⟨A, e, B, rfl, he, hB⟩ := Overwrite.last_eq_some_iff.1 hlast
    obtain rfl : o = some e.value := by
      rcases registers_cases e c with hreg | hreg
      · rw [hreg] at he; cases he
      · rw [hreg] at he; cases he; rfl
    have hlater : Overwrite.last (LogEntry.writes now) B (.schema c) = none :=
      Overwrite.last_eq_none.2 fun e' he' => by rw [writes_schema_eq, hB e' he', Option.bind_none]
    rw [Overwrite.last_append, Overwrite.last_cons, hlater, Option.none_or, writes_schema_eq, he,
      Option.bind_some, Option.bind_some, Option.getD_some, Option.bind_some]
    cases hcomp : compiled e.value with
    | some w =>
      simp [hcomp]
    | none =>
      -- an earlier schema comes back
      simp only [Option.map_none, Option.none_or]
      constructor
      · intro h v hv _ e' he' v' hv'
        have hA : Overwrite.last (LogEntry.writes now) A (.schema c) = none := by
          cases hold : Overwrite.last (LogEntry.writes now) A (.schema c) with
          | none => rfl
          | some held =>
            rw [hold, Option.getD_some] at h
            obtain ⟨e'', -, hw⟩ := Overwrite.exists_of_last hold
            rw [← h, writes_schema_eq] at hw
            obtain ⟨o, -, ho⟩ := Option.bind_eq_some_iff.1 hw
            obtain ⟨x, -, hx⟩ := Option.map_eq_some_iff.1 ho
            cases hx
        rcases List.mem_append.1 he' with hmem | hmem
        · exact writes_schema_eq_none.1 (Overwrite.last_eq_none.1 hA e' hmem) v' hv'
        · rcases List.mem_cons.1 hmem with rfl | hmem
          · rw [he] at hv'
            cases hv'
            exact hcomp
          · rw [hB e' hmem] at hv'
            cases hv'
      · intro h
        have hA : Overwrite.last (LogEntry.writes now) A (.schema c) = none :=
          Overwrite.last_eq_none.2 fun e' he' => writes_schema_eq_none.2
            (h e.value rfl hcomp e' (List.mem_append_left _ he'))
        rw [hA]
        rfl

/-! ## Both restarts -/

/-- Nothing that the log would bring back is missing in a snapshot: no collection has an
    expiry, and no schema that cannot be registered again covers an earlier one that can. -/
structure Db.InSnapshot (db : Db) : Prop where
  expiry : ∀ c : String, db.ttlExpiry[c]? = none
  schemas : ∀ c v, db.schemaOf c = some v → compiled v = none →
    ∀ e ∈ logOps db.log, ∀ v', e.registers c = some (some v') → compiled v' = none

/-- The registers after a restart from the log. -/
theorem Db.Idle.view_disk {db : Db} (h : db.Idle) (hf : db.failedWrites = 0)
    (hshort : ∀ e ∈ db.log, e.Short) (now : UInt64) :
    (db.disk.rebuilt now).view =
      Overwrite.replay (LogEntry.writes now) (fun _ => none) (logOps db.log) := by
  have hfits : ∀ e ∈ db.log, e.Fits := fun e he => (hshort e he).fits
  have hentries : db.disk.entries = deliver db.log := by
    rw [Disk.entries, Db.disk, streamLogInto_none, streamLogEntries_whole hshort,
      deliver_eq hfits]
  rw [Disk.rebuilt, hentries, h.view_rebuild ⟨hf, hfits⟩ now]

/-- **Compaction is invisible to a restart exactly if nothing is missing in the snapshot**:
    after any history of accepted operations in which no write failed and all lengths fit,
    and at any time at which no current expiry has passed. -/
theorem compaction_invisible_iff {db db' : Db} {acts : List Act} (hnew : db.Untouched)
    (hrun : Act.Runs db acts db') (hf : db'.failedWrites = 0) (hshort : ∀ e ∈ db'.log, e.Short)
    (hsmall : db'.recovered.Small) {w : World} (hw : w.Calm) {now : UInt64}
    (hnow : ∀ (c : String) t, db'.ttlExpiry[c]? = some t → now < t) :
    (∀ r, ((db'.disk.compacted db'.recovered w).rebuilt now).view r =
        (db'.disk.rebuilt now).view r) ↔ db'.InSnapshot := by
  obtain ⟨hidle, hrec⟩ := hrun.mirrored hnew
  have hclean : db'.Clean := ⟨hf, fun e he => (hshort e he).fits⟩
  have hmem := (hidle hclean).2.2
  have hschema : ∀ c, db'.recovered.reread (.schema c) =
      ((db'.schemaOf c).bind compiled).map some := by
    intro c
    rw [Recovered.reread, Db.recovered, Db.schemaOf]
    cases db'.schemas[c]? <;> rfl
  have hsnap := view_compacted hsmall hw db'.disk now
  have hlog := congrFun (hidle.view_disk hf hshort now)
  constructor
  · intro h
    refine ⟨fun c => ?_, fun c v => ?_⟩
    · have hc := h (.expiry c)
      rw [hsnap, hlog, replay_expiry, ← (hrec hclean c).2] at hc
      cases ht : db'.ttlExpiry[c]? with
      | none => rfl
      | some t => simp [ht, Option.filter_some, hnow c t ht, Recovered.reread] at hc
    · have hc := h (.schema c)
      rw [hsnap, hlog, hschema, (hrec hclean c).1, replay_schema_iff] at hc
      rw [(hrec hclean c).1]
      exact hc v
  · intro h r
    rw [hsnap, hlog]
    cases r with
    | expiry c =>
      rw [replay_expiry, ← (hrec hclean c).2, h.expiry c]
      rfl
    | schema c =>
      rw [hschema, (hrec hclean c).1, replay_schema_iff, ← (hrec hclean c).1]
      exact h.schemas c
    | doc c k =>
      have hnone := (hrec hclean c).2
      rw [h.expiry c] at hnone
      rw [replay_doc hnone.symm now k, Recovered.reread, Recovered.shot, Recovered.view,
        Db.recovered, hmem c k, readBack_replay]

/-! ### A collection with a TTL -/

section

omit [Crates]

/-- A collection gets a TTL of a second, then a document. -/
def ttlActs : List Act :=
  [.setTtlDefault "c" 1 (by decide), .call (.insert "c" [("a", .obj [])])]

/-- The database after them. -/
def ttlHistory : Db :=
  ttlActs.foldl (fun db act => (@Act.run Crates.plain act db).2) (Db.blank (World.plain 1000 []) 0)

theorem blank_untouched (w : World) (tick : ℕ) : (Db.blank w tick).Untouched :=
  ⟨rfl, rfl, rfl, rfl, rfl⟩

theorem ttlHistory_runs :
    @Act.Runs Crates.plain (Db.blank (World.plain 1000 []) 0) ttlActs ttlHistory :=
  @Act.Runs.cons Crates.plain _ _ (.setTtlDefault "c" 1 (by decide)) _ rfl
    (@Act.Runs.cons Crates.plain _ _ (.call (.insert "c" [("a", .obj [])])) [] (by decide +kernel)
      (@Act.Runs.nil Crates.plain _))

theorem ttlHistory_small : ttlHistory.recovered.Small :=
  Recovered.small_of_toList (by decide +kernel) (by decide +kernel) (by decide +kernel)

/-- The expiry of the collection is 2008. -/
theorem ttlHistory_expiry (c : String) (t : UInt64) (h : ttlHistory.ttlExpiry[c]? = some t) :
    2007 < t := by
  have hall : ttlHistory.ttlExpiry.toList.all fun p => decide (2007 < p.2) := by decide +kernel
  exact of_decide_eq_true (List.all_eq_true.1 hall (c, t) (Map.mem_toList.2 h))

theorem compaction_invisible_iff_ttl :
    (∀ r, (@Disk.rebuilt Crates.plain (@Disk.compacted Crates.plain ttlHistory.disk
        ttlHistory.recovered (World.plain 0 [])) 2007).view r =
          (@Disk.rebuilt Crates.plain ttlHistory.disk 2007).view r) ↔
      @Db.InSnapshot Crates.plain ttlHistory :=
  @compaction_invisible_iff Crates.plain _ ttlHistory ttlActs (blank_untouched _ _) ttlHistory_runs
    (by decide +kernel) (by decide +kernel) ttlHistory_small (World.plain 0 []) (plain_calm 0) 2007
    ttlHistory_expiry

/-- **A compaction forgets expiries.** The collection lives until 2008; a restart at 2007 from the
    log knows that, one from the snapshot does not. -/
theorem compaction_forgets_expiry :
    ∃ (db db' : Db) (acts : List Act) (w : World) (now : UInt64), db.Untouched ∧
      @Act.Runs Crates.plain db acts db' ∧ db'.failedWrites = 0 ∧ (∀ e ∈ db'.log, e.Short) ∧
      db'.recovered.Small ∧ w.Calm ∧
      (∀ (c : String) t, db'.ttlExpiry[c]? = some t → now < t) ∧
      ¬ ∀ r, (@Disk.rebuilt Crates.plain (@Disk.compacted Crates.plain db'.disk db'.recovered w)
        now).view r = (@Disk.rebuilt Crates.plain db'.disk now).view r := by
  refine ⟨_, ttlHistory, ttlActs, World.plain 0 [], 2007, blank_untouched _ _, ttlHistory_runs,
    by decide +kernel, by decide +kernel, ttlHistory_small, plain_calm 0, ttlHistory_expiry,
    fun h => ?_⟩
  have hbefore : (@Disk.rebuilt Crates.plain ttlHistory.disk 2007).ttlExpiry["c"]? = some 2008 := by
    decide +kernel
  have hafter : (@Disk.rebuilt Crates.plain (@Disk.compacted Crates.plain ttlHistory.disk
      ttlHistory.recovered (World.plain 0 [])) 2007).ttlExpiry["c"]? = none := by
    decide +kernel
  have hview := h (.expiry "c")
  simp only [Recovered.view, hbefore, hafter] at hview
  cases hview

end

end MoltenDB
