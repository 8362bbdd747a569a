/-
  The operations on one collection look at no other.

  Databases that differ in the documents of other collections at most (`Db.SameIn`) cannot be
  told apart by an insert (`alike_insert`).
-/
import MoltenDB.Engine.Steps

namespace MoltenDB

open Wire Prog Prog.Eff LogCommand Operations

/-- The databases differ in the documents of other collections at most. -/
def Db.SameIn (c : String) (db db' : Db) : Prop :=
  ∃ state : State, state[c]? = db.state[c]? ∧ db' = { db with state := state }

section

variable {α : Type} {c : String}

/-- A program that does not look at the documents. -/
theorem alike_of_blind {m : Op α}
    (h : ∀ (db : Db) (state : State), m { db with state := state } =
      ((m db).1, { (m db).2 with state := state }))
    (hstate : ∀ db, (m db).2.state = db.state) : Alike (Db.SameIn c) m := by
  rintro db _ ⟨state, hc, rfl⟩
  rw [h db state]
  exact ⟨rfl, state, by rw [hstate, hc], rfl⟩

/-- A program that looks at the documents of the collection. -/
theorem alike_of_col {f : Db → Op α}
    (h : ∀ (db : Db) (state : State), state[c]? = db.state[c]? →
      f { db with state := state } = f db) (hf : ∀ db, Alike (Db.SameIn c) (f db)) :
    Alike (Db.SameIn c) (Eff.get >>= f) := by
  refine alike_get_bind ?_
  rintro db _ ⟨state, hc, rfl⟩
  exact ⟨(h db state hc).symm, hf db⟩

theorem alike_nowMs : Alike (Db.SameIn c) nowMs := alike_of_blind (fun _ _ => rfl) fun _ => rfl

theorem alike_newUuid : Alike (Db.SameIn c) newUuid := alike_of_blind (fun _ _ => rfl) fun _ => rfl

theorem alike_walkIn (m : DashMap α) : Alike (Db.SameIn c) (walk m) :=
  alike_of_blind (fun _ _ => rfl) fun _ => rfl

theorem alike_send (event : Json) : Alike (Db.SameIn c) (send event) :=
  alike_of_blind (fun _ _ => rfl) fun _ => rfl

theorem alike_writeNew (cmd col key : String) (value : Json) :
    Alike (Db.SameIn c) (writeNew cmd col key value) := by
  refine alike_nowMs.bind fun t => alike_of_blind (fun db state => ?_) fun db => ?_
  · unfold writeEntry
    dsimp only
    cases db.world.fault db.tick <;> rfl
  · unfold writeEntry
    cases db.world.fault db.tick <;> rfl

/-- A change of the documents of the collection. -/
theorem alike_alter {f : Db → Db} (g : Option (DashMap Bytes) → Option (DashMap Bytes))
    (h : ∀ (db : Db) (state : State),
      f { db with state := state } = { f db with state := (f { db with state := state }).state })
    (hstate : ∀ db, (f db).state[c]? = g (db.state[c]?)) :
    Alike (Db.SameIn c) (Eff.modify f : Op Unit) := by
  rintro db _ ⟨state, hc, rfl⟩
  refine ⟨rfl, (f { db with state := state }).state, ?_, h db state⟩
  change (f { db with state := state }).state[c]? = (f db).state[c]?
  rw [hstate, hstate, hc]

theorem alike_storeDoc (key : String) (bytes : Bytes) :
    Alike (Db.SameIn c) (storeDoc c key bytes) :=
  alike_alter (fun col => some ((col.getD ∅).insert key bytes)) (fun _ _ => rfl) fun db => by
    simp only [Map.get?_alter, if_true]

theorem alike_removeDoc (key : String) : Alike (Db.SameIn c) (removeDoc c key) :=
  alike_alter (fun col => col.map fun col => col.erase key) (fun _ _ => rfl) fun db => by
    simp only [Map.get?_alter, if_true]

theorem alike_checkFault : Alike (Db.SameIn c) checkFault := by
  refine alike_of_col (fun _ _ _ => rfl) fun db => ?_
  split_ifs
  · exact alike_throw _
  · exact alike_pure ()

theorem alike_validateDocument (doc : Json) : Alike (Db.SameIn c) (validateDocument c doc) := by
  refine alike_of_col (fun _ _ _ => rfl) fun db => ?_
  cases db.schemas[c]? with
  | none => exact alike_pure ()
  | some schema =>
    dsimp only
    split_ifs
    · exact alike_pure ()
    · exact alike_throw _

theorem alike_prepare (existing : Option Json) (value : Json) (now seq : UInt64) :
    Alike (Db.SameIn c) (prepare c existing value now seq) := by
  cases existing with
  | some old => exact (alike_validateDocument _).bind fun _ => alike_pure _
  | none =>
    unfold prepare
    dsimp only
    split_ifs
    · exact (alike_validateDocument _).bind fun _ => alike_pure _
    · exact alike_pure _

variable [Crates]

theorem alike_deleteItem (key : String) : Alike (Db.SameIn c) (deleteItem c key) := by
  refine alike_of_col (fun db state hc => ?_) fun db => ?_
  · simp only [Db.bytes, hc]
  · have hrest : Alike (Db.SameIn c) (do
        removeDoc c key
        writeNew IKEY_DELETE c key .null
        send (json [("event", .str "change"), ("collection", .str c), ("key", .str key),
          ("new_v", .null)])) :=
      (alike_removeDoc key).bind fun _ => (alike_writeNew _ _ _ _).bind fun _ => alike_send _
    cases db.bytes c key with
    | none => exact hrest
    | some bytes => exact (alike_of_blind (fun _ _ => rfl) fun _ => rfl).bind fun _ => hrest

theorem alike_delete (keys : List String) : Alike (Db.SameIn c) (delete c keys) := by
  refine alike_newUuid.bind fun txId => (alike_writeNew _ _ _ _).bind fun _ => ?_
  refine alike_of_col (fun db state hc => ?_) fun db => ?_
  · have hcol : Db.col { db with state := state } c = db.col c := hc
    rw [hcol]
  · dsimp only
    split_ifs
    · exact (Alike.forEach alike_deleteItem keys).bind fun _ => alike_writeNew _ _ _ _
    · exact alike_writeNew _ _ _ _

omit [Crates] in
theorem alike_deleteCollection : Alike (Db.SameIn c) (deleteCollection c) := by
  refine alike_newUuid.bind fun txId => (alike_writeNew _ _ _ _).bind fun _ => ?_
  refine (alike_alter (fun _ => none) (fun _ _ => rfl) fun db => ?_).bind fun _ =>
    (alike_writeNew _ _ _ _).bind fun _ => (alike_writeNew _ _ _ _).bind fun _ => alike_send _
  simp only [Map.get?_erase, if_true]

omit [Crates] in
theorem alike_evictExpired : Alike (Db.SameIn c) (Db.evictExpired c) := by
  refine alike_of_col (fun _ _ _ => rfl) fun db => ?_
  cases db.ttlExpiry[c]? with
  | none => exact alike_pure ()
  | some exp =>
    refine alike_nowMs.bind fun now => ?_
    split_ifs
    · exact alike_deleteCollection.outcome.bind fun _ =>
        alike_of_blind (fun _ _ => rfl) fun _ => rfl
    · exact alike_pure ()

omit [Crates] in
theorem alike_resetExpiry : Alike (Db.SameIn c) (Db.resetExpiry c) := by
  refine alike_of_col (fun _ _ _ => rfl) fun db => ?_
  cases db.ttlDefaults[c]? with
  | none => exact alike_pure ()
  | some secs =>
    exact alike_nowMs.bind fun now => (alike_of_blind (fun _ _ => rfl) fun _ => rfl).bind fun _ =>
      (alike_writeNew _ _ _ _).outcome.bind fun _ => alike_send _

omit [Crates] in
theorem alike_insertItem (item : String × Json) : Alike (Db.SameIn c) (insertItem c item) := by
  refine alike_nowMs.bind fun now => Alike.bind (m := nextSeq c) ?_ fun seq => ?_
  · exact alike_of_blind (fun _ _ => rfl) fun _ => rfl
  refine alike_of_col (fun db state hc => ?_) fun db => ?_
  · simp only [Db.bytes, hc]
  · exact (alike_prepare _ _ _ _).bind fun value => (alike_storeDoc _ _).bind fun _ =>
      (alike_of_blind (fun _ _ => rfl) fun _ => rfl).bind fun _ =>
        (alike_writeNew _ _ _ _).bind fun _ => alike_send _

theorem alike_evictOldest (n : ℕ) : Alike (Db.SameIn c) (evictOldest c n) := by
  refine alike_of_col (fun db state hc => ?_) fun db => ?_
  · simp only [Db.col, hc]
  · cases db.col c with
    | none => exact alike_pure ()
    | some col =>
      refine (alike_walkIn col).bind fun entries => ?_
      dsimp only
      split_ifs
      · exact alike_pure ()
      · exact (alike_delete _).outcome.bind fun _ => alike_pure ()

theorem alike_evictOverflow : Alike (Db.SameIn c) (Db.evictOverflow c) := by
  refine alike_of_col (fun db state hc => ?_) fun db => ?_
  · have hcol : Db.col { db with state := state } c = db.col c := hc
    rw [hcol]
  · cases db.maxSizes[c]? with
    | none => exact alike_pure ()
    | some max =>
      dsimp only
      split_ifs
      · exact alike_evictOldest _
      · exact alike_pure ()

/-- **An insert works on its own collection alone.** -/
theorem alike_insert (items : List (String × Json)) : Alike (Db.SameIn c) (Db.insert c items) := by
  have hinsert : Alike (Db.SameIn c) (Operations.insert c items) := by
    refine (alike_alter (fun col => some (col.getD ∅)) (fun _ _ => rfl) fun db => ?_).bind fun _ =>
      alike_newUuid.bind fun txId => (alike_writeNew _ _ _ _).bind fun _ =>
        (Alike.forEach alike_insertItem items).bind fun _ => alike_writeNew _ _ _ _
    simp only [Map.get?_alter, if_true]
  exact alike_checkFault.bind fun _ => alike_evictExpired.bind fun _ => hinsert.bind fun _ =>
    alike_evictOverflow.bind fun _ => alike_resetExpiry

end

end MoltenDB
