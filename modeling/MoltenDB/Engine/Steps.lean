/-
  Rules for the primitive steps of the engine: one for each step, for any answers
  of the world.
-/
import MoltenDB.Engine.Db

namespace MoltenDB

open Wire Prog Prog.Eff Operations

variable {α : Type} {Q : α → Db → Prop} {E : DbError → Db → Prop} {db : Db}

theorem wp_nowMs {Q : UInt64 → Db → Prop} (h : ∀ t n, Q t { db with tick := n }) :
    wp nowMs Q E db := h _ _

/-- A handler reads the clock, then the state. -/
theorem nowMs_get_bind (f : UInt64 → Db → Op α) (s : Db) :
    (do let t ← nowMs; let db ← Eff.get; f t db) s =
      f (s.world.clock s.tick) { s with tick := s.tick + 1 } { s with tick := s.tick + 1 } := rfl

theorem wp_newUuid {Q : String → Db → Prop} (h : ∀ id n, Q id { db with tick := n }) :
    wp newUuid Q E db := h _ _

/-! The same, with the answer of the world and the tick. -/

theorem wp_nowMs_at {Q : UInt64 → Db → Prop}
    (h : Q (db.world.clock db.tick) { db with tick := db.tick + 1 }) : wp nowMs Q E db := h

theorem wp_newUuid_at {Q : String → Db → Prop}
    (h : Q (db.world.uuid db.tick) { db with tick := db.tick + 1 }) : wp newUuid Q E db := h

theorem wp_writeEntry {e : LogEntry} {Q : Unit → Db → Prop}
    (ok : ∀ n, Q () { db with log := db.log ++ [e], tick := n })
    (error : ∀ err n, E err { db with failedWrites := db.failedWrites + 1, tick := n }) :
    wp (writeEntry e) Q E db := by
  unfold wp writeEntry
  cases db.world.fault db.tick with
  | none => exact ok _
  | some err => exact error _ _

/-- An entry is appended to the log, or the write fails. -/
theorem wp_writeNew {cmd c k : String} {v : Json} {Q : Unit → Db → Prop}
    (ok : ∀ t n, Q () { db with log := db.log ++ [⟨cmd, c, k, v, t⟩], tick := n })
    (error : ∀ err n, E err { db with failedWrites := db.failedWrites + 1, tick := n }) :
    wp (writeNew cmd c k v) Q E db := by
  unfold writeNew
  rw [wp_bind]
  exact wp_nowMs fun t _ => wp_writeEntry (fun n => ok t n) error

@[simp] theorem wp_send {event : Json} {Q : Unit → Db → Prop} :
    wp (send event) Q E db ↔ Q () { db with events := db.events ++ [event] } := Iff.rfl

theorem wp_walk {m : DashMap α} {Q : List (String × α) → Db → Prop}
    (h : ∀ ks n, ks.Perm m.keys → Q (m.inOrder ks) { db with tick := n }) :
    wp (walk m) Q E db := h _ _ (db.world.order_perm _ _)

/-- The schema of a collection, if there is one, accepts the document. -/
def Db.accepts (db : Db) (c : String) (doc : Json) : Bool :=
  (db.schemas[c]?).all fun schema => schema.isValid doc

theorem wp_validateDocument_accepts {c : String} {doc : Json} {Q : Unit → Db → Prop}
    (ok : db.accepts c doc = true → Q () db) (error : db.accepts c doc = false →
      E (.schemaValidationError "Document does not conform to schema") db) :
    wp (validateDocument c doc) Q E db := by
  unfold validateDocument
  rw [wp_bind, wp_get]
  cases hs : db.schemas[c]? with
  | none => exact ok (by simp [Db.accepts, hs])
  | some schema =>
    cases hv : schema.isValid doc with
    | true => simpa [hv] using ok (by simp [Db.accepts, hs, hv])
    | false => simpa [hv] using error (by simp [Db.accepts, hs, hv])

theorem wp_validateDocument {c : String} {doc : Json} {Q : Unit → Db → Prop}
    (ok : (∀ schema, db.schemas[c]? = some schema → schema.isValid doc) → Q () db)
    (error : E (.schemaValidationError "Document does not conform to schema") db) :
    wp (validateDocument c doc) Q E db := by
  refine wp_validateDocument_accepts (fun h => ok fun schema hs => ?_) fun _ => error
  simpa [Db.accepts, hs] using h

theorem wp_checkFault_mode {Q : Unit → Db → Prop} (ok : db.ioFault = false → Q () db)
    (error : db.ioFault = true → ∀ err, E err db) : wp checkFault Q E db := by
  unfold checkFault
  rw [wp_bind, wp_get]
  cases hf : db.ioFault
  · exact ok hf
  · exact error hf _

theorem wp_checkFault {Q : Unit → Db → Prop} (ok : db.ioFault = false → Q () db)
    (error : ∀ err, E err db) : wp checkFault Q E db :=
  wp_checkFault_mode ok fun _ => error

/-- Stamping a document changes no state; it may be rejected. -/
theorem wp_prepare {c : String} {existing : Option Json} {value : Json} {now seq : UInt64}
    {Q : Json → Db → Prop}
    (overwrite : ∀ old, existing = some old → Q (stampOverwrite old value now seq) db)
    (new : existing = none → value.isObject → Q (stampNew value now seq) db)
    (other : existing = none → value.isObject = false → Q value db)
    (error : E (.schemaValidationError "Document does not conform to schema") db) :
    wp (prepare c existing value now seq) Q E db := by
  cases existing with
  | some old =>
    simp only [prepare, wp_bind]
    exact wp_validateDocument (fun _ => overwrite old rfl) error
  | none =>
    cases hv : value.isObject
    · simpa [prepare, hv] using other rfl hv
    · simp only [prepare, hv, if_true, wp_bind]
      exact wp_validateDocument (fun _ => new rfl hv) error

theorem wp_checkGuard {doc updates : Json} {Q : Unit → Db → Prop} (ok : Q () db)
    (conflict : E .conflict db) : wp (checkGuard doc updates) Q E db := by
  unfold checkGuard
  split
  · split_ifs
    · exact conflict
    · exact ok
  · exact ok

/-- A document after an update by the fields `updateObj`, made at time `t`. -/
def merged (docObj updateObj : List (String × Json)) (t : UInt64) : Json :=
  ((Json.obj (mergeFields docObj updateObj)).set SystemFields.VERSION
    (.ofU64 ((fieldU64 (.obj docObj) SystemFields.IKEY_VERSION).getD 0 + 1))).set
      SystemFields.MODIFIED_AT (.ofU64 t)

/-- The merged document of an update, or a conflict. -/
theorem wp_mergeUpdate {doc updates : Json} {Q : Json → Db → Prop}
    (other : updates.isObject = false ∨ doc.isObject = false → Q doc db)
    (merge : ∀ docObj updateObj, doc = .obj docObj → updates = .obj updateObj → ∀ t n,
      Q (merged docObj updateObj t) { db with tick := n })
    (conflict : E .conflict db) : wp (mergeUpdate doc updates) Q E db := by
  cases updates with
  | obj updateObj =>
    simp only [mergeUpdate, wp_bind]
    refine wp_checkGuard ?_ conflict
    cases doc with
    | obj docObj =>
      simp only [mergeInto, wp_bind]
      exact wp_nowMs fun t n => merge docObj updateObj rfl rfl t n
    | _ => exact other (Or.inr rfl)
  | _ => exact other (Or.inl rfl)

theorem sortBySeq_perm {α : Type} (asc : Bool) (pairs : List (UInt64 × α)) :
    (Operations.sortBySeq asc pairs).Perm pairs := by
  unfold Operations.sortBySeq
  split_ifs
  · exact List.perm_insertionSort _ _
  · exact List.perm_insertionSort _ _

theorem mem_truncate {limit : Option ℕ} {keys : List String} {k : String}
    (h : k ∈ truncate limit keys) : k ∈ keys := by
  cases limit with
  | none => exact h
  | some n => exact List.mem_of_mem_take h

end MoltenDB
