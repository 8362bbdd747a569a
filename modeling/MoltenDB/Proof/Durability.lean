/-
  Durability of the engine: after any sequence of operations run one at a time, a
  replay of the log rebuilds the documents in memory.
-/
import MoltenDB.Engine.Moves
import MoltenDB.Engine.Mirror

namespace MoltenDB

open Wire Prog Prog.Eff LogCommand Relation

/-- A call of a write operation of the database handle. -/
inductive Call
  | insert (collection : String) (items : List (String × Json))
  | update (collection key : String) (updates : Json)
  | delete (collection : String) (keys : List String)
  | deleteFiltered (collection : String) (predicate : String → Bytes → Bool)
    (countLimit : Option ℕ) (defaultOrderAsc : Bool)
  | deleteN (collection : String) (n : ℕ) (orderAsc : Bool)
  | deleteCollection (collection : String)

/-- The outcomes with which a run goes on: success, or an update turned down. -/
def Call.accepts : Call → Except DbError Unit → Bool
  | _, .ok _ => true
  | update .., .error .conflict => true
  | update .., .error (.schemaValidationError _) => true
  | _, .error _ => false

/-- An empty database without TTLs: no documents and nothing logged.  Schemas and
    `maxSize` caps may be registered. -/
structure Db.Fresh (db : Db) : Prop where
  state : db.state = ∅
  log : db.log = []
  failedWrites : db.failedWrites = 0
  ttlDefaults : db.ttlDefaults = ∅
  ttlExpiry : db.ttlExpiry = ∅

/-- No collection has a TTL, and no expiry was logged. -/
structure Db.NoTtl (db : Db) : Prop where
  ttlDefaults : db.ttlDefaults = ∅
  ttlExpiry : db.ttlExpiry = ∅
  log : ∀ e ∈ db.log, canon e.cmd ≠ "TTL_EXPIRY"

theorem Db.NoTtl.moves {c : String} {db db' : Db} (h : db.NoTtl) (hm : Moves c db db') :
    db'.NoTtl := by
  induction hm with
  | refl => exact h
  | tail _ hstep ih =>
    cases hstep with
    | log e hc hcmd =>
      refine ⟨ih.ttlDefaults, ih.ttlExpiry, fun e' he' => ?_⟩
      rcases List.mem_append.1 he' with he' | he'
      · exact ih.log e' he'
      · rw [List.mem_singleton.1 he']
        have : ∀ cmd ∈ writeCmds, canon cmd ≠ "TTL_EXPIRY" := by decide
        exact this _ hcmd
    | _ => exact ⟨ih.ttlDefaults, ih.ttlExpiry, ih.log⟩

section

variable [Crates]

namespace Call

def run : Call → Op Unit
  | insert c items => Db.insert c items
  | update c k updates => do let _ ← Db.update c k updates
  | delete c keys => Db.delete c keys
  | deleteFiltered c p limit asc => do let _ ← Db.deleteFiltered c p limit asc
  | deleteN c n asc => do let _ ← Db.deleteN c n asc
  | deleteCollection c => Db.deleteCollection c

/-- The calls, run one at a time and each accepted, lead from `db` to `db'`. -/
inductive Runs : Db → List Call → Db → Prop
  | nil (db : Db) : Runs db [] db
  | cons {db db' : Db} {call : Call} {calls : List Call} (h : call.accepts (call.run db).1)
    (hrest : Runs (call.run db).2 calls db') : Runs db (call :: calls) db'

theorem wp_noTtl {db : Db} (h : db.NoTtl) (call : Call) :
    wp call.run (fun _ => Db.NoTtl) (fun _ => Db.NoTtl) db := by
  have hmoves : ∀ {α c} {m : Op α} {db₁ : Db}, Within c m → db₁.NoTtl →
      wp m (fun _ => Db.NoTtl) (fun _ => Db.NoTtl) db₁ := fun hm h₁ =>
    wp_mono (hm _) (fun _ _ hm => h₁.moves hm) (fun _ _ hm => h₁.moves hm)
  cases call with
  | insert c items =>
    simp only [run, Db.insert, wp_bind]
    refine wp_checkFault (fun _ => ?_) (fun _ => h)
    simp only [Db.evictExpired, wp_bind, wp_get, h.ttlExpiry, Map.get?_empty, wp_pure]
    refine wp_mono (hmoves (withinDocs_insert items).within h) (fun _ db₂ h₂ => ?_) (fun _ _ h => h)
    refine wp_mono (Q := fun _ => Db.NoTtl) (E := fun _ => Db.NoTtl) ?_ (fun _ db₃ h₃ => ?_)
      (fun _ _ h => h)
    · simp only [Db.evictOverflow, wp_bind, wp_get]
      split
      · exact h₂
      · split_ifs
        · exact hmoves (withinDocs_evictOldest _).within h₂
        · exact h₂
    · simpa only [Db.resetExpiry, wp_bind, wp_get, h₃.ttlDefaults, Map.get?_empty, wp_pure] using h₃
  | update c k updates =>
    simp only [run, Db.update, wp_bind, wp_pure]
    exact wp_checkFault (fun _ => hmoves (withinDocs_update k updates).within h) (fun _ => h)
  | delete c keys =>
    simp only [run, Db.delete, wp_bind]
    exact wp_checkFault (fun _ => hmoves (withinDocs_delete keys).within h) (fun _ => h)
  | deleteFiltered c p limit asc =>
    simp only [run, Db.deleteFiltered, wp_bind, wp_pure]
    exact wp_checkFault (fun _ => hmoves (withinDocs_deleteFiltered p limit asc).within h) (fun _ => h)
  | deleteN c n asc =>
    simp only [run, Db.deleteN, wp_bind, wp_pure]
    exact wp_checkFault (fun _ => hmoves (withinDocs_deleteN n asc).within h) (fun _ => h)
  | deleteCollection c =>
    simp only [run, Db.deleteCollection, wp_bind, wp_modify]
    refine wp_mono (hmoves within_deleteCollection h) (fun _ db₁ h₁ => ?_) (fun _ _ h => h)
    refine ⟨?_, ?_, h₁.log⟩
    · rw [h₁.ttlDefaults]; rfl
    · rw [h₁.ttlExpiry]; rfl

omit [Crates] in
/-- Only updates may be turned down. -/
theorem accepts_error {call : Call} {err : DbError} (h : call.accepts (.error err)) :
    ∃ c k updates, call = .update c k updates := by
  cases call with
  | update c k updates => exact ⟨c, k, updates, rfl⟩
  | _ => cases err <;> simp [accepts] at h

/-- One accepted call keeps the mirror between memory and log. -/
theorem wp_idle {db : Db} (h : db.Idle) (call : Call) :
    wp call.run (fun _ => Db.Idle)
      (fun err db' => call.accepts (.error err) → db'.Idle) db := by
  cases call with
  | insert c items =>
    exact wp_mono (h.wp_dbInsert c items) (fun _ _ h => h.idle)
      (fun _ _ _ hacc => by simpa using accepts_error hacc)
  | update c k updates =>
    simp only [run, Db.update, wp_bind, wp_pure]
    refine wp_checkFault (fun _ => ?_) (fun _ _ => h)
    exact wp_mono (h.wp_update c k updates) (fun _ _ h => h.idle) (fun _ _ h _ => h)
  | delete c keys =>
    simp only [run, Db.delete, wp_bind]
    refine wp_checkFault (fun _ => ?_) (fun _ _ => h)
    exact wp_mono (h.wp_delete c keys) (fun _ _ h => h.idle)
      (fun _ _ _ hacc => by simpa using accepts_error hacc)
  | deleteFiltered c p limit asc =>
    simp only [run, Db.deleteFiltered, wp_bind, wp_pure]
    refine wp_checkFault (fun _ => ?_) (fun _ _ => h)
    exact wp_mono (h.wp_deleteFiltered c p limit asc) (fun _ _ h => h)
      (fun _ _ _ hacc => by simpa using accepts_error hacc)
  | deleteN c n asc =>
    simp only [run, Db.deleteN, wp_bind, wp_pure]
    refine wp_checkFault (fun _ => ?_) (fun _ _ => h)
    exact wp_mono (h.wp_deleteN c n asc) (fun _ _ h => h)
      (fun _ _ _ hacc => by simpa using accepts_error hacc)
  | deleteCollection c =>
    simp only [run, Db.deleteCollection, wp_bind, wp_modify]
    exact wp_mono (h.wp_deleteCollection c) (fun _ _ h => h.idle)
      (fun _ _ _ hacc => by simpa using accepts_error hacc)

/-- A property that each accepted call of a run keeps is kept by the whole run. -/
theorem Runs.keeps {P : Db → Prop} {db db' : Db} {calls : List Call}
    (hP : ∀ call ∈ calls, ∀ db, P db →
      wp call.run (fun _ => P) (fun err db' => call.accepts (.error err) → P db') db)
    (hrun : Runs db calls db') (h : P db) : P db' := by
  induction hrun with
  | nil => exact h
  | @cons db db' call calls hacc hrest ih =>
    have hcall := hP call List.mem_cons_self db h
    have hcalls := fun call' h' => hP call' (List.mem_cons_of_mem _ h')
    rcases hout : call.run db with ⟨err | u, db₁⟩
    · rw [hout] at hacc ih
      exact ih hcalls (wp_of_error hcall hout hacc)
    · rw [hout] at ih
      exact ih hcalls (wp_of_ok hcall hout)

theorem Runs.idle {db db' : Db} {calls : List Call} (hrun : Runs db calls db') (h : db.Idle) :
    db'.Idle := hrun.keeps (fun call _ _ h => wp_idle h call) h

theorem Runs.noTtl {db db' : Db} {calls : List Call} (hrun : Runs db calls db') (h : db.NoTtl) :
    db'.NoTtl :=
  hrun.keeps (fun call _ _ h => wp_mono (wp_noTtl h call) (fun _ _ h => h) (fun _ _ h _ => h)) h

end Call

/-- A database with nothing stored and nothing logged is idle. -/
theorem Db.idle_of_empty {db : Db} (hs : db.state = ∅) (hl : db.log = []) : db.Idle := by
  intro _
  rw [hl]
  refine ⟨rfl, rfl, fun c k => ?_⟩
  simp [hs, State.bytes, logOps, Journal.ops, Overwrite.replay]

omit [Crates] in
theorem Db.Fresh.noTtl {db : Db} (h : db.Fresh) : db.NoTtl :=
  ⟨h.ttlDefaults, h.ttlExpiry, by simp [h.log]⟩

/-- Apart from expiries, what an entry writes into documents does not depend on the time. -/
theorem LogEntry.writes_doc (now : UInt64) {e : LogEntry} (h : e.cmd ≠ "TTL_EXPIRY")
    (c k : String) : e.writes now (.doc c k) = e.docWrites (.doc c k) := by
  simp [LogEntry.docWrites, h, LogEntry.writes, LogEntry.change]

/-- **Replaying the written log rebuilds the documents in memory**: after any run of
    accepted calls from an empty database in which no write failed and all lengths fit,
    and whatever the time of the restart. -/
theorem replay_rebuilds_memory {db db' : Db} {calls : List Call} (hfresh : db.Fresh)
    (hrun : Call.Runs db calls db') (hclean : db'.Clean) (now : UInt64) (c k : String) :
    ((rebuild now (deliver db'.log)).state.bytes c k).map msgpackToValue =
      (db'.state.bytes c k).map msgpackToValue := by
  have hidle := hrun.idle (Db.idle_of_empty hfresh.state hfresh.log)
  have hno := hrun.noTtl hfresh.noTtl
  have hview := congrFun (hidle.view_rebuild hclean now) (.doc c k)
  have hlast : ∀ L : List LogEntry, (∀ e ∈ L, e.cmd ≠ "TTL_EXPIRY") →
      Overwrite.last (LogEntry.writes now) L (.doc c k) =
        Overwrite.last LogEntry.docWrites L (.doc c k) := by
    intro L hL
    induction L with
    | nil => rfl
    | cons e L ih =>
      rw [Overwrite.last_cons, Overwrite.last_cons,
        ih fun e' he' => hL e' (List.mem_cons_of_mem _ he'),
        LogEntry.writes_doc now (hL e List.mem_cons_self)]
  have hops : ∀ e ∈ logOps db'.log, e.cmd ≠ "TTL_EXPIRY" := by
    intro e he
    obtain ⟨e', he', rfl⟩ := mem_logOps he
    exact hno.log e' he'
  rw [Recovered.view] at hview
  rw [hview, (hidle hclean).2.2 c k, Overwrite.replay_eq, Overwrite.replay_eq, hlast _ hops]

end

/-! ## A capped collection -/

/-- An empty database in which the collection `c` is capped at one document. -/
def cappedDb (faults : List ℕ) : Db :=
  { Db.blank (World.plain 1000 faults) 0 with maxSizes := (∅ : DashMap ℕ).insert "c" 1 }

theorem cappedDb_fresh (faults : List ℕ) : (cappedDb faults).Fresh := ⟨rfl, rfl, rfl, rfl, rfl⟩

/-- A batch of two documents into the capped collection: the older is evicted. -/
def twoDocs : Call := .insert "c" [("a", .obj []), ("b", .obj [])]

/-- The capped database after the batch; the writes at the ticks `faults` fail. -/
def cappedRun (faults : List ℕ) : Except DbError Unit × Db :=
  @Call.run Crates.plain twoDocs (cappedDb faults)

theorem cappedRun_runs {faults : List ℕ} (h : twoDocs.accepts (cappedRun faults).1) :
    @Call.Runs Crates.plain (cappedDb faults) [twoDocs] (cappedRun faults).2 :=
  @Call.Runs.cons Crates.plain _ _ twoDocs [] h (@Call.Runs.nil Crates.plain _)

theorem replay_rebuilds_memory_capped :
    ((@rebuild Crates.plain 0 (@deliver Crates.plain (cappedRun []).2.log)).state.bytes
        "c" "b").map msgpackToValue =
      ((cappedRun []).2.state.bytes "c" "b").map msgpackToValue :=
  @replay_rebuilds_memory Crates.plain (cappedDb []) (cappedRun []).2 [twoDocs]
    (cappedDb_fresh []) (cappedRun_runs (by decide +kernel)) (by decide +kernel) 0 "c" "b"

/-- **A failed eviction is not reported.** The write of its `DELETE` entry fails, the
    insert succeeds, and the evicted document comes back with a replay of the log. -/
theorem eviction_failure_unreported :
    ∃ (db db' : Db) (calls : List Call), db.Fresh ∧ @Call.Runs Crates.plain db calls db' ∧
      (∀ e ∈ db'.log, e.Fits) ∧ db'.state.bytes "c" "a" = none ∧
      ((@rebuild Crates.plain 0 (@deliver Crates.plain db'.log)).state.bytes "c" "a").isSome :=
  ⟨cappedDb [16], (cappedRun [16]).2, [twoDocs], cappedDb_fresh [16],
    cappedRun_runs (by decide +kernel), by decide +kernel, by decide +kernel, by decide +kernel⟩

end MoltenDB
