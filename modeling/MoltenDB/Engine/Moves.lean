/-
  What the write operations on one collection can do at all.

  Every operation on a collection is a sequence of small moves (`Move`): it
  changes that collection's documents, index and counter, appends entries about
  it to the log, and leaves all other collections and settings alone (`Within`).
  An operation on documents never logs a drop of the collection (`WithinDocs`).
-/
import MoltenDB.Engine.Steps

namespace MoltenDB

open Wire Prog Prog.Eff LogCommand Relation

/-- The commands that the write operations log. -/
def writeCmds : List String := [IKEY_TX_BEGIN, IKEY_TX_COMMIT, IKEY_INSERT, IKEY_DELETE, IKEY_DROP]

/-- One move of an operation on the collection `c`. -/
inductive Move (c : String) (db : Db) : Db → Prop
  | tick (n : ℕ) : Move c db { db with tick := n }
  | log (e : LogEntry) (hc : e.collection = c) (hcmd : e.cmd ∈ writeCmds) :
    Move c db { db with log := db.log ++ [e] }
  | failed : Move c db { db with failedWrites := db.failedWrites + 1 }
  | state (f : Option (DashMap Bytes) → Option (DashMap Bytes)) :
    Move c db { db with state := db.state.alter c f }
  | index (f : Option (Map UInt64 String) → Option (Map UInt64 String)) :
    Move c db { db with seqIndex := db.seqIndex.alter c f }
  | counter (n : UInt64) : Move c db { db with seqCounters := db.seqCounters.insert c n }
  | event (e : Json) : Move c db { db with events := db.events ++ [e] }

/-- Any number of moves. -/
abbrev Moves (c : String) : Db → Db → Prop := ReflTransGen (Move c)

/-- Whatever the outcome, `m` only makes moves of the collection `c`. -/
def Within {α : Type} (c : String) (m : Op α) : Prop :=
  ∀ db, wp m (fun _ => Moves c db) (fun _ => Moves c db) db

/-- A move that does not log a drop. -/
def DocMove (c : String) (db db' : Db) : Prop :=
  Move c db db' ∧ ∀ e, db'.log = db.log ++ [e] → e.cmd ≠ IKEY_DROP

/-- Whatever the outcome, `m` only makes moves of the collection `c` and logs no drop. -/
abbrev WithinDocs {α : Type} (c : String) (m : Op α) : Prop := Steps (DocMove c) m

variable {α β : Type} {c : String}

theorem WithinDocs.within {m : Op α} (h : WithinDocs c m) : Within c m :=
  h.mono fun _ _ => And.left

theorem Move.docMove {db db' : Db} (h : Move c db db') (hlog : db'.log = db.log) :
    DocMove c db db' := by
  refine ⟨h, fun e he => ?_⟩
  rw [hlog] at he
  simp at he

theorem withinDocs_nowMs : WithinDocs c nowMs := fun _ =>
  wp_nowMs fun _ n => .single ((Move.tick n).docMove rfl)

theorem withinDocs_newUuid : WithinDocs c newUuid := fun _ =>
  wp_newUuid fun _ n => .single ((Move.tick n).docMove rfl)

theorem withinDocs_walk (m : DashMap α) : WithinDocs c (walk m) := fun _ =>
  wp_walk fun _ n _ => .single ((Move.tick n).docMove rfl)

theorem withinDocs_send (e : Json) : WithinDocs c (send e) :=
  steps_modify fun _ => (Move.event e).docMove rfl

theorem within_writeNew {cmd k : String} {v : Json} (h : cmd ∈ writeCmds) :
    Within c (writeNew cmd c k v) := by
  intro db
  refine wp_writeNew (fun t n => ?_) (fun _ n => ?_)
  · have h₁ : Move c db { db with log := db.log ++ [⟨cmd, c, k, v, t⟩] } := .log _ rfl h
    exact (ReflTransGen.single h₁).tail (.tick n)
  · have h₁ : Move c db { db with failedWrites := db.failedWrites + 1 } := .failed
    exact (ReflTransGen.single h₁).tail (.tick n)

theorem withinDocs_writeNew {cmd k : String} {v : Json} (h : cmd ∈ writeCmds)
    (hdrop : cmd ≠ IKEY_DROP) : WithinDocs c (writeNew cmd c k v) := by
  intro db
  refine wp_writeNew (fun t n => ?_) (fun _ n => ?_)
  · have h₁ : DocMove c db { db with log := db.log ++ [⟨cmd, c, k, v, t⟩] } := by
      refine ⟨.log _ rfl h, fun e he => ?_⟩
      rw [← List.singleton_inj.1 (List.append_cancel_left he)]
      exact hdrop
    exact (ReflTransGen.single h₁).tail ((Move.tick n).docMove rfl)
  · have h₁ : DocMove c db { db with failedWrites := db.failedWrites + 1 } :=
      Move.failed.docMove rfl
    exact (ReflTransGen.single h₁).tail ((Move.tick n).docMove rfl)

theorem withinDocs_begin (id : String) : WithinDocs c (writeNew IKEY_TX_BEGIN c id .null) :=
  withinDocs_writeNew (by simp [writeCmds]) (by decide)

theorem withinDocs_commit (id : String) : WithinDocs c (writeNew IKEY_TX_COMMIT c id .null) :=
  withinDocs_writeNew (by simp [writeCmds]) (by decide)

theorem withinDocs_validateDocument (doc : Json) :
    WithinDocs c (Operations.validateDocument c doc) :=
  fun _ => wp_validateDocument (fun _ => .refl) .refl

theorem withinDocs_storeDoc (k : String) (bytes : Bytes) :
    WithinDocs c (Operations.storeDoc c k bytes) :=
  steps_modify fun _ => (Move.state _).docMove rfl

theorem withinDocs_nextSeq : WithinDocs c (Operations.nextSeq c) :=
  steps_get.bind fun _ => (steps_modify fun _ => (Move.counter _).docMove rfl).bind fun _ =>
    steps_pure _

theorem withinDocs_prepare (existing : Option Json) (value : Json) (now seq : UInt64) :
    WithinDocs c (Operations.prepare c existing value now seq) := fun _ =>
  wp_prepare (fun _ _ => .refl) (fun _ _ => .refl) (fun _ _ => .refl) .refl

theorem withinDocs_mergeUpdate (doc updates : Json) :
    WithinDocs c (Operations.mergeUpdate doc updates) := fun _ =>
  wp_mergeUpdate (fun _ => .refl) (fun _ _ _ _ _ n => .single ((Move.tick n).docMove rfl)) .refl

theorem withinDocs_insertItem (item : String × Json) :
    WithinDocs c (Operations.insertItem c item) :=
  withinDocs_nowMs.bind fun _ => withinDocs_nextSeq.bind fun _ => steps_get.bind fun _ =>
    (withinDocs_prepare _ _ _ _).bind fun _ => (withinDocs_storeDoc _ _).bind fun _ =>
      (steps_modify fun _ => (Move.index _).docMove rfl).bind fun _ =>
        (withinDocs_writeNew (by simp [writeCmds]) (by decide)).bind fun _ => withinDocs_send _

theorem withinDocs_insert (items : List (String × Json)) :
    WithinDocs c (Operations.insert c items) :=
  (steps_modify fun _ => (Move.state _).docMove rfl).bind fun _ => withinDocs_newUuid.bind fun _ =>
    (withinDocs_begin _).bind fun _ => (Steps.forEach withinDocs_insertItem items).bind fun _ =>
      withinDocs_commit _

theorem withinDocs_storeUpdate (k id : String) (newValue : Json) :
    WithinDocs c (Operations.storeUpdate c k id newValue) :=
  (withinDocs_validateDocument _).bind fun _ => (withinDocs_storeDoc _ _).bind fun _ =>
    (withinDocs_writeNew (by simp [writeCmds]) (by decide)).bind fun _ =>
      (withinDocs_commit _).bind fun _ => withinDocs_send _

theorem withinDocs_update (k : String) (updates : Json) :
    WithinDocs c (Operations.update c k updates) := by
  refine withinDocs_newUuid.bind fun _ => (withinDocs_begin _).bind fun _ =>
    steps_get.bind fun _ => ?_
  split
  · exact (withinDocs_mergeUpdate _ _).bind fun _ => (withinDocs_storeUpdate _ _ _).bind fun _ =>
      steps_pure _
  · exact (withinDocs_commit _).bind fun _ => steps_pure _

/-- Dropping a collection logs a drop, so it is no operation on documents. -/
theorem within_deleteCollection : Within c (Operations.deleteCollection c) := by
  have herase : ∀ {V : Type} (m : DashMap V), m.erase c = m.alter c fun _ => none := fun m =>
    Map.ext_get? fun k => by rw [Map.get?_erase, Map.get?_alter]
  refine Steps.bind withinDocs_newUuid.within fun _ =>
    Steps.bind (withinDocs_begin _).within fun _ => Steps.bind (fun db => ?_) fun _ =>
      Steps.bind (within_writeNew (by simp [writeCmds])) fun _ =>
        Steps.bind (withinDocs_commit _).within fun _ => (withinDocs_send _).within
  rw [wp_modify, herase, herase]
  have h₁ : Move c db { db with state := db.state.alter c fun _ => none } := .state _
  exact (ReflTransGen.single h₁).tail (.index _)

variable [Crates]

theorem withinDocs_deleteItem (k : String) : WithinDocs c (Operations.deleteItem c k) := by
  refine steps_get.bind fun db => ?_
  have hrest : WithinDocs c (do
      Operations.removeDoc c k
      writeNew IKEY_DELETE c k .null
      send (json [("event", .str "change"), ("collection", .str c), ("key", .str k),
        ("new_v", .null)])) :=
    (steps_modify fun _ => (Move.state _).docMove rfl).bind fun _ =>
      (withinDocs_writeNew (by simp [writeCmds]) (by decide)).bind fun _ => withinDocs_send _
  cases db.bytes c k with
  | none => exact hrest
  | some bytes => exact (steps_modify fun _ => (Move.index _).docMove rfl).bind fun _ => hrest

theorem withinDocs_delete (keys : List String) : WithinDocs c (Operations.delete c keys) := by
  refine withinDocs_newUuid.bind fun _ => (withinDocs_begin _).bind fun _ =>
    steps_get.bind fun _ => ?_
  split_ifs
  · exact (Steps.forEach withinDocs_deleteItem keys).bind fun _ => withinDocs_commit _
  · exact withinDocs_commit _

theorem withinDocs_deleteKeys (keys : List String) :
    WithinDocs c (Operations.deleteKeys c keys) := by
  unfold Operations.deleteKeys
  split_ifs
  · exact steps_pure _
  · exact (withinDocs_delete keys).bind fun _ => steps_pure _

theorem withinDocs_deleteFiltered (p : String → Bytes → Bool) (limit : Option ℕ) (asc : Bool) :
    WithinDocs c (Operations.deleteFiltered c p limit asc) := by
  refine steps_get.bind fun db => ?_
  cases db.col c with
  | none => exact steps_pure _
  | some col => exact (withinDocs_walk col).bind fun _ => withinDocs_deleteKeys _

theorem withinDocs_endKeys (col : DashMap Bytes) (n : ℕ) (asc : Bool) :
    WithinDocs c (Operations.endKeys c col n asc) := by
  refine steps_get.bind fun db => ?_
  cases db.seqIndex[c]? with
  | some idx => exact steps_pure _
  | none => exact (withinDocs_walk col).bind fun _ => steps_pure _

theorem withinDocs_deleteN (n : ℕ) (asc : Bool) : WithinDocs c (Operations.deleteN c n asc) := by
  unfold Operations.deleteN
  split_ifs
  · exact steps_pure _
  · refine steps_get.bind fun db => ?_
    cases db.col c with
    | none => exact steps_pure _
    | some col => exact (withinDocs_endKeys col n asc).bind fun _ => withinDocs_deleteKeys _

theorem withinDocs_evictOldest (n : ℕ) : WithinDocs c (Operations.evictOldest c n) := by
  refine steps_get.bind fun db => ?_
  cases db.col c with
  | none => exact steps_pure _
  | some col =>
    refine (withinDocs_walk col).bind fun _ => ?_
    dsimp only
    split_ifs
    · exact steps_pure _
    · exact (withinDocs_delete _).outcome.bind fun _ => steps_pure _

end MoltenDB
