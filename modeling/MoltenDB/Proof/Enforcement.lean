/-
  Schemas are enforced, but for one branch of `insert`.

  `Operations.storedItems` and `updateStores` collect the values that a call stores.  Each was
  accepted by the schema in the same call, if no item takes the branch that stores a value
  unchecked: a value that is no object, for a key without a document (`Unchecked`).
-/
import MoltenDB.Lib.Collect
import MoltenDB.Engine.Removals
import MoltenDB.Handlers.Writes

namespace MoltenDB

open Wire Prog Prog.Eff SystemFields LogCommand Relation

namespace Operations

/-! ## The values that a call stores -/

/-- The first half of `insertItem`: the value that is stored, and the number drawn for it. -/
def prepareItem (collection : String) (item : String × Json) : Op (Json × UInt64) := do
  let now ← nowMs
  let seq ← nextSeq collection
  let db ← Eff.get
  let existing := (db.bytes collection item.1).bind msgpackToValue
  let value ← prepare collection existing item.2 now seq
  return (value, seq)

/-- The second half of `insertItem`: store the value. -/
def commitItem (collection key : String) (prepared : Json × UInt64) : Op Unit := do
  storeDoc collection key (valueToMsgpack prepared.1)
  indexInsert collection ((fieldU64 prepared.1 IKEY_SEQ).getD prepared.2) key
  writeNew IKEY_INSERT collection key prepared.1
  send (insertEvent collection key prepared.1)

theorem insertItem_eq (c : String) (item : String × Json) :
    insertItem c item = prepareItem c item >>= commitItem c item.1 := by
  simp only [insertItem, prepareItem, commitItem, bind_assoc, pure_bind]

/-- The values that the items of a batch store. -/
def storedItems (c : String) : List (String × Json) → Db → List Json
  | [] => fun _ => []
  | item :: items => collect (prepareItem c item) fun prepared db =>
      prepared.1 :: collect (commitItem c item.1 prepared) (fun _ => storedItems c items) db

/-! ## Every checked value is accepted -/

section

variable {c : String} {s : Schema} {db : Db}

/-- The branch of `insert` that checks nothing: a value that is no object, for a key without a
    document. -/
def Unguarded (c : String) (s : Schema) (item : String × Json) (db : Db) : Prop :=
  (db.bytes c item.1).bind msgpackToValue = none ∧ item.2.isObject = false ∧
    s.isValid item.2 = false

/-- A prepared value was accepted, or no schema was asked. -/
theorem wp_prepareItem (hs : db.schemas[c]? = some s) (item : String × Json) :
    wp (prepareItem c item)
      (fun prepared db' => (s.isValid prepared.1 = true ↔ ¬ Unguarded c s item db) ∧
        db'.schemas[c]? = some s) (fun _ _ => ¬ Unguarded c s item db) db := by
  simp only [prepareItem, nextSeq, wp_bind, wp_get, wp_modify, wp_pure]
  refine wp_nowMs fun now n => ?_
  generalize hold : (Db.bytes _ c item.1).bind msgpackToValue = existing
  have hold' : (db.bytes c item.1).bind msgpackToValue = existing := hold
  cases existing with
  | some old =>
    have hguard : ¬ Unguarded c s item db := by simp [Unguarded, hold']
    simp only [prepare, wp_bind, wp_pure]
    exact wp_validateDocument (fun h => ⟨iff_of_true (h s hs) hguard, hs⟩) hguard
  | none =>
    cases hobj : item.2.isObject with
    | true =>
      have hguard : ¬ Unguarded c s item db := by simp [Unguarded, hobj]
      simp only [prepare, hobj, if_true, wp_bind, wp_pure]
      exact wp_validateDocument (fun h => ⟨iff_of_true (h s hs) hguard, hs⟩) hguard
    | false =>
      simp only [prepare, hobj, Bool.false_eq_true, if_false, wp_pure]
      refine ⟨?_, hs⟩
      simp [Unguarded, hold', hobj]

/-- An item of a batch takes the unguarded branch when its turn comes. -/
def Bypassed (c : String) (s : Schema) : List (String × Json) → Db → Prop
  | [], _ => False
  | item :: items, db =>
    Unguarded c s item db ∨ Reaches (insertItem c item) (fun _ => Bypassed c s items) db

theorem wp_commitItem (hs : db.schemas[c]? = some s) (key : String) (prepared : Json × UInt64) :
    wp (commitItem c key prepared) (fun _ db' => db'.schemas[c]? = some s) (fun _ _ => True) db := by
  simp only [commitItem, storeDoc, indexInsert, wp_bind, wp_modify, wp_send]
  exact wp_writeNew (fun _ _ => hs) fun _ _ => trivial

/-- **The items of a batch** store accepted values only, if none takes the unguarded branch. -/
theorem storedItems_accepted_iff (hs : db.schemas[c]? = some s) (items : List (String × Json)) :
    (∀ v ∈ storedItems c items db, s.isValid v = true) ↔ ¬ Bypassed c s items db := by
  induction items generalizing db with
  | nil => simp [storedItems, Bypassed]
  | cons item items ih =>
    have hprep := wp_prepareItem hs item
    have hok := wp_mono hprep (fun _ _ h => h) fun _ _ _ => trivial
    have hrest : wp (prepareItem c item) (fun prepared db' =>
          ∀ v ∈ prepared.1 :: collect (commitItem c item.1 prepared)
            (fun _ => storedItems c items) db', s.isValid v = true) (fun _ _ => True) db ↔
        wp (prepareItem c item) (fun prepared db' => ¬ Unguarded c s item db ∧
          wp (commitItem c item.1 prepared) (fun _ db'' => ¬ Bypassed c s items db'')
            (fun _ _ => True) db') (fun _ _ => True) db := by
      refine wp_congr_of hok fun prepared db' ⟨hvalid, hs'⟩ => ?_
      rw [List.forall_mem_cons, hvalid, forall_mem_collect]
      exact and_congr_right fun _ =>
        wp_congr_of (wp_commitItem hs' item.1 prepared) fun _ db'' hs'' => ih hs''
    rw [storedItems, forall_mem_collect, hrest, Bypassed, not_or, not_reaches, insertItem_eq,
      wp_bind]
    constructor
    · intro h
      refine ⟨fun hguard => ?_, wp_mono h (fun _ _ h => h.2) fun _ _ h => h⟩
      exact wp_final (P := fun _ => False) (wp_mono (wp_and hprep h)
        (fun _ _ h => h.2.1 hguard) fun _ _ h => h.1 hguard)
    · rintro ⟨hguard, h⟩
      exact wp_mono h (fun _ _ h => ⟨hguard, h⟩) fun _ _ h => h

end

end Operations

/-! ## Everything else stores nothing -/

/-- No document is new, and the schemas are the same. -/
structure Db.Sheds (db db' : Db) : Prop where
  schemas : db'.schemas = db.schemas
  bytes : ∀ c k b, db'.bytes c k = some b → db.bytes c k = some b

theorem Db.Sheds.refl (db : Db) : db.Sheds db := ⟨rfl, fun _ _ _ h => h⟩

theorem Db.Sheds.trans {db₁ db₂ db₃ : Db} (h : db₁.Sheds db₂) (h' : db₂.Sheds db₃) :
    db₁.Sheds db₃ :=
  ⟨h'.schemas.trans h.schemas, fun c k b hb => h.bytes c k b (h'.bytes c k b hb)⟩

theorem Db.Removes.sheds {db db' : Db} (h : db.Removes db') : db.Sheds db' := ⟨h.schemas, h.bytes⟩

section

variable {α : Type} {db : Db} {c : String}

theorem wp_sheds {m : Op α} (h : Steps Db.Sheds m) (db : Db) :
    wp m (fun _ => db.Sheds) (fun _ => db.Sheds) db :=
  h.keeps (fun _ _ hstep hr => hr.trans hstep) (.refl db)

theorem sheds_of_removes {m : Op α} (h : Steps Db.Removes m) : Steps Db.Sheds m :=
  h.mono fun _ _ => Db.Removes.sheds

namespace Operations

theorem sheds_prepareItem (item : String × Json) : Steps Db.Sheds (prepareItem c item) :=
  (sheds_of_removes removes_nowMs).bind fun _ => (steps_get.bind fun _ => (steps_modify fun _ =>
      ⟨rfl, fun _ _ _ h => h⟩).bind fun _ => steps_pure _).bind fun _ => steps_get.bind fun _ =>
    Steps.bind (fun _ => wp_prepare (fun _ _ => .refl) (fun _ _ => .refl) (fun _ _ => .refl) .refl)
      fun _ => steps_pure _

end Operations

end

namespace Db

open Operations

section

variable [Crates]

/-- The values that an insert stores. -/
def insertStores (c : String) (items : List (String × Json)) : Db → List Json :=
  collect (beginInsert c) fun _ => storedItems c items

/-- An item of an insert takes the unguarded branch. -/
def InsertBypasses (c : String) (s : Schema) (items : List (String × Json)) : Db → Prop :=
  Reaches (beginInsert c) fun _ => Bypassed c s items

end

/-- The first half of `Db.update`: the value that is stored, if there is a document. -/
def prepareUpdate (collection key : String) (updates : Json) : Op (String × Option Json) := do
  checkFault
  let txId ← newUuid
  writeNew IKEY_TX_BEGIN collection txId .null
  let db ← Eff.get
  match (db.bytes collection key).bind msgpackToValue with
  | some doc => do
    let newValue ← mergeUpdate doc updates
    validateDocument collection newValue
    return (txId, some newValue)
  | none => return (txId, none)

/-- The second half of `Db.update`: store the value. -/
def commitUpdate (collection key : String) (prepared : String × Option Json) : Op Bool :=
  match prepared.2 with
  | some newValue => do
    storeDoc collection key (valueToMsgpack newValue)
    writeNew IKEY_INSERT collection key newValue
    writeNew IKEY_TX_COMMIT collection prepared.1 .null
    send (json [("event", .str "change"), ("collection", .str collection), ("key", .str key),
      ("new_v", .ofU64 ((fieldU64 newValue VERSION).getD 0))])
    return true
  | none => do
    writeNew IKEY_TX_COMMIT collection prepared.1 .null
    return false

theorem update_eq (c key : String) (updates : Json) :
    Db.update c key updates = prepareUpdate c key updates >>= commitUpdate c key := by
  unfold Db.update Operations.update prepareUpdate
  simp only [bind_assoc]
  congr 1
  funext _
  congr 1
  funext txId
  congr 1
  funext _
  congr 1
  funext db
  cases (db.bytes c key).bind msgpackToValue with
  | some doc => simp only [commitUpdate, storeUpdate, bind_assoc, pure_bind]
  | none => simp only [commitUpdate, pure_bind]

/-- The values that an update stores. -/
def updateStores (c key : String) (updates : Json) : Db → List Json :=
  collect (prepareUpdate c key updates) fun prepared _ => prepared.2.toList

section

variable [Crates] {c : String} {s : Schema} {db : Db}

omit [Crates] in
theorem sheds_beginInsert : Steps Db.Sheds (beginInsert c) := sheds_of_removes removes_beginInsert

theorem sheds_endInsert (txId : String) : Steps Db.Sheds (endInsert c txId) :=
  sheds_of_removes (removes_endInsert txId)

omit [Crates] in
theorem sheds_prepareUpdate (key : String) (updates : Json) :
    Steps Db.Sheds (prepareUpdate c key updates) := by
  refine sheds_of_removes (removes_checkFault.bind fun _ => removes_newUuid.bind fun id =>
    (removes_begin id).bind fun _ => steps_get.bind fun db => ?_)
  cases (db.bytes c key).bind msgpackToValue with
  | none => exact steps_pure _
  | some doc =>
    exact (removes_mergeUpdate doc updates).bind fun newValue =>
      (removes_validateDocument newValue).bind fun _ => steps_pure _

/-! ## What is stored is collected -/

/-- Each document was there before, or is one of the values in the collection. -/
def StoredFrom (c : String) (db : Db) (values : List Json) (db' : Db) : Prop :=
  ∀ c' k b, db'.bytes c' k = some b →
    db.bytes c' k = some b ∨ c' = c ∧ ∃ v ∈ values, b = valueToMsgpack v

omit [Crates] in
theorem StoredFrom.of_sheds {db db₁ db₂ db₃ : Db} {values values' : List Json}
    (h : StoredFrom c db₁ values db₂) (h₁ : db.Sheds db₁) (h₃ : db₂.Sheds db₃)
    (hsub : values ⊆ values') : StoredFrom c db values' db₃ := by
  intro c' k b hb
  rcases h c' k b (h₃.bytes c' k b hb) with hb | ⟨hc, v, hv, henc⟩
  · exact Or.inl (h₁.bytes c' k b hb)
  · exact Or.inr ⟨hc, v, hsub hv, henc⟩

omit [Crates] in
/-- Whatever its outcome, the second half of an item stores the value. -/
theorem wp_commitItem_stored (key : String) (prepared : Json × UInt64) (db : Db) :
    wp (commitItem c key prepared) (fun _ => StoredFrom c db [prepared.1])
      (fun _ => StoredFrom c db [prepared.1]) db := by
  have hstore : ∀ c' k b, State.bytes (db.state.alter c fun col =>
      some ((col.getD ∅).insert key (valueToMsgpack prepared.1))) c' k = some b →
        db.bytes c' k = some b ∨ c' = c ∧ ∃ v ∈ [prepared.1], b = valueToMsgpack v := by
    intro c' k b hb
    rw [bytes_put] at hb
    split_ifs at hb with hck
    · exact Or.inr ⟨hck.1, prepared.1, List.mem_singleton_self _, (Option.some.inj hb).symm⟩
    · exact Or.inl hb
  simp only [commitItem, storeDoc, indexInsert, wp_bind, wp_modify, wp_send]
  exact wp_writeNew (fun _ _ => hstore) fun _ _ => hstore

omit [Crates] in
/-- **The items of a batch** store the collected values and nothing else. -/
theorem wp_items_stored (items : List (String × Json)) (db : Db) :
    wp (Eff.forEach (insertItem c) items)
      (fun _ => StoredFrom c db (storedItems c items db))
      (fun _ => StoredFrom c db (storedItems c items db)) db := by
  induction items generalizing db with
  | nil => exact fun _ _ _ h => Or.inl h
  | cons item items ih =>
    have hprep := wp_sheds (sheds_prepareItem (c := c) item) db
    rw [Eff.forEach, wp_bind, insertItem_eq, wp_bind]
    refine wp_intro (fun prepared db₁ hrun => ?_) fun e db₁ hrun => ?_
    · have h₁ := wp_of_ok hprep hrun
      have hstored := wp_commitItem_stored (c := c) item.1 prepared db₁
      have hcollect : storedItems c (item :: items) db = prepared.1 ::
          collect (commitItem c item.1 prepared) (fun _ => storedItems c items) db₁ := by
        rw [storedItems, collect, hrun]
      have hfirst : [prepared.1] ⊆ storedItems c (item :: items) db := by
        rw [hcollect]
        exact List.cons_subset_cons _ (List.nil_subset _)
      refine wp_intro (fun u db₂ hrun₂ => ?_) fun e db₂ hrun₂ => ?_
      · have h₂ : StoredFrom c db [prepared.1] db₂ :=
          (wp_of_ok hstored hrun₂).of_sheds h₁ (.refl db₂) (List.Subset.refl _)
        have hrest : storedItems c items db₂ ⊆ storedItems c (item :: items) db := by
          rw [hcollect, collect, hrun₂]
          exact List.subset_cons_self _ _
        have hall : ∀ db₃, StoredFrom c db₂ (storedItems c items db₂) db₃ →
            StoredFrom c db (storedItems c (item :: items) db) db₃ := by
          intro db₃ h₃ c' k b hb
          rcases h₃ c' k b hb with hb | ⟨hc, v, hv, henc⟩
          · rcases h₂ c' k b hb with hb | ⟨hc, v, hv, henc⟩
            · exact Or.inl hb
            · exact Or.inr ⟨hc, v, hfirst hv, henc⟩
          · exact Or.inr ⟨hc, v, hrest hv, henc⟩
        exact wp_mono (ih db₂) (fun _ => hall) fun _ => hall
      · exact (wp_of_error hstored hrun₂).of_sheds h₁ (.refl db₂) hfirst
    · exact fun c' k b hb => Or.inl ((wp_of_error hprep hrun).bytes c' k b hb)

/-- **What an insert stores is collected**: a document that is there afterwards was there before,
    or is one of these values. -/
theorem wp_insert_stored (items : List (String × Json)) (db : Db) :
    wp (Db.insert c items) (fun _ => StoredFrom c db (insertStores c items db))
      (fun _ => StoredFrom c db (insertStores c items db)) db := by
  rw [insert_eq, wp_bind]
  refine wp_intro (fun txId db₁ hrun => ?_) fun e db₁ hrun => ?_
  · have h₁ := wp_of_ok (wp_sheds sheds_beginInsert db) hrun
    have hcollect : insertStores c items db = storedItems c items db₁ := by
      rw [insertStores, collect, hrun]
    rw [wp_bind, hcollect]
    refine wp_mono (wp_items_stored items db₁) (fun _ db₂ h₂ => ?_) fun _ db₂ h₂ => ?_
    · refine wp_mono (wp_sheds (sheds_endInsert txId) db₂) (fun _ db₃ h₃ => ?_) fun _ db₃ h₃ => ?_
      · exact h₂.of_sheds h₁ h₃ (List.Subset.refl _)
      · exact h₂.of_sheds h₁ h₃ (List.Subset.refl _)
    · exact h₂.of_sheds h₁ (.refl db₂) (List.Subset.refl _)
  · exact fun c' k b hb =>
      Or.inl ((wp_of_error (wp_sheds sheds_beginInsert db) hrun).bytes c' k b hb)

omit [Crates] in
/-- **What an update stores is collected.** -/
theorem wp_update_stored (key : String) (updates : Json) (db : Db) :
    wp (Db.update c key updates) (fun _ => StoredFrom c db (updateStores c key updates db))
      (fun _ => StoredFrom c db (updateStores c key updates db)) db := by
  rw [update_eq, wp_bind]
  refine wp_intro (fun prepared db₁ hrun => ?_) fun e db₁ hrun => ?_
  · have h₁ := wp_of_ok (wp_sheds (sheds_prepareUpdate key updates) db) hrun
    have hcollect : updateStores c key updates db = prepared.2.toList := by
      rw [updateStores, collect, hrun]
    rw [hcollect]
    obtain ⟨txId, newValue⟩ := prepared
    cases newValue with
    | none =>
      have hkeep : ∀ c' k b, db₁.bytes c' k = some b →
          db.bytes c' k = some b ∨ c' = c ∧ ∃ v ∈ (none : Option Json).toList,
            b = valueToMsgpack v := fun c' k b hb => Or.inl (h₁.bytes c' k b hb)
      simp only [commitUpdate, wp_bind, wp_pure]
      exact wp_writeNew (fun _ _ => hkeep) fun _ _ => hkeep
    | some newValue =>
      have hstore : ∀ c' k b, State.bytes (db₁.state.alter c fun col =>
          some ((col.getD ∅).insert key (valueToMsgpack newValue))) c' k = some b →
            db.bytes c' k = some b ∨ c' = c ∧ ∃ v ∈ (some newValue).toList,
              b = valueToMsgpack v := by
        intro c' k b hb
        rw [bytes_put] at hb
        split_ifs at hb with hck
        · exact Or.inr ⟨hck.1, newValue, List.mem_singleton_self _, (Option.some.inj hb).symm⟩
        · exact Or.inl (h₁.bytes c' k b hb)
      simp only [commitUpdate, storeDoc, wp_bind, wp_modify, wp_pure, wp_send]
      refine wp_writeNew (fun _ _ => ?_) fun _ _ => hstore
      exact wp_writeNew (fun _ _ => hstore) fun _ _ => hstore
  · exact fun c' k b hb =>
      Or.inl ((wp_of_error (wp_sheds (sheds_prepareUpdate key updates) db) hrun).bytes c' k b hb)

/-! ## Enforcement -/

omit [Crates] in
/-- An update checks what it stores. -/
theorem updateStores_accepted (hs : db.schemas[c]? = some s) (key : String) (updates : Json) :
    ∀ v ∈ updateStores c key updates db, s.isValid v = true := by
  rw [updateStores, forall_mem_collect]
  simp only [prepareUpdate, wp_bind, wp_get]
  refine wp_checkFault (fun _ => wp_newUuid fun id n => wp_writeNew (fun t m => ?_)
    fun _ _ => trivial) fun _ => trivial
  cases (Db.bytes _ c key).bind msgpackToValue with
  | none => simp
  | some doc =>
    have hcheck : ∀ (newValue : Json) (db' : Db), db'.schemas[c]? = some s →
        wp (validateDocument c newValue)
          (fun _ _ => ∀ v ∈ (some newValue).toList, s.isValid v = true) (fun _ _ => True) db' := by
      intro newValue db' hs'
      refine wp_validateDocument (fun h v hv => ?_) trivial
      obtain rfl := List.mem_singleton.1 hv
      exact h s hs'
    simp only [wp_bind, wp_pure]
    refine wp_mergeUpdate (fun _ => ?_) (fun _ _ _ _ _ _ => ?_) trivial
    · exact hcheck _ _ hs
    · exact hcheck _ _ hs

omit [Crates] in
/-- **A schema is enforced** by every update, and by every insert none of whose items takes the
    unguarded branch. -/
theorem schema_enforced_iff (hs : db.schemas[c]? = some s) :
    (∀ items, (∀ v ∈ insertStores c items db, s.isValid v = true) ↔
        ¬ InsertBypasses c s items db) ∧
      ∀ key updates, ∀ v ∈ updateStores c key updates db, s.isValid v = true := by
  refine ⟨fun items => ?_, fun key updates => updateStores_accepted hs key updates⟩
  rw [insertStores, InsertBypasses, forall_mem_collect, not_reaches]
  have hbegin := wp_mono (wp_sheds (sheds_beginInsert (c := c)) db)
    (fun _ db₁ h => (congrArg (·[c]?) h.schemas).trans hs) fun _ _ _ => trivial
  exact wp_congr_of hbegin fun _ db₁ h₁ => storedItems_accepted_iff h₁ items

end

/-! ## A schema that wants objects -/

section

def objectSchema : Schema := ⟨.obj [("type", .str "object")], Json.isObject⟩

/-- An empty database in which the collection `c` has a schema. -/
def schemaDb : Db :=
  { Db.blank (World.plain 0 []) 0 with schemas := (∅ : DashMap Schema).insert "c" objectSchema }

theorem schemaDb_schema : schemaDb.schemas["c"]? = some objectSchema := by
  rw [schemaDb, Map.get?_insert, if_pos rfl]

theorem schema_enforced_iff_number :
    ((∀ v ∈ insertStores "c" [("k", .ofU64 5)] schemaDb, objectSchema.isValid v = true) ↔
      ¬ InsertBypasses "c" objectSchema [("k", .ofU64 5)] schemaDb) ∧
      ∀ v ∈ updateStores "c" "k" (.obj []) schemaDb, objectSchema.isValid v = true := by
  obtain ⟨hinsert, hupdate⟩ := schema_enforced_iff schemaDb_schema
  exact ⟨hinsert _, hupdate _ _⟩

/-- The number 5 is stored in a collection of objects. -/
theorem schema_bypassed :
    letI := Crates.plain
    letI := FloatText.plain
    schemaDb.schemas["c"]? = some objectSchema ∧
      (processSet (.obj [("collection", .str "c"), ("data", .obj [("k", .ofU64 5)])]) 1000 10
        schemaDb).1.toOption.map Prod.fst = some 200 ∧
      insertStores "c" [("k", .ofU64 5)] schemaDb = [.ofU64 5] ∧
      objectSchema.isValid (.ofU64 5) = false := by
  refine ⟨schemaDb_schema, ?_⟩
  decide +kernel

end

end Db

end MoltenDB
