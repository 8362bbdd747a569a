/-
  Requests leave the collections alone that their tokens give no access to, apart from the
  endpoints that check another collection than they change, or none.
-/
import MoltenDB.Engine.Moves
import MoltenDB.Handlers.Queries
import MoltenDB.Server.Handlers

namespace MoltenDB

open Wire Prog Prog.Eff

/-- Nothing about the collection `c` has changed. -/
structure SameFor (c : String) (db db' : Db) : Prop where
  documents : ∀ k, db'.bytes c k = db.bytes c k
  schema : db'.schemas[c]? = db.schemas[c]?
  ttlDefault : db'.ttlDefaults[c]? = db.ttlDefaults[c]?
  ttlExpiry : db'.ttlExpiry[c]? = db.ttlExpiry[c]?
  maxSize : db'.maxSizes[c]? = db.maxSizes[c]?

theorem SameFor.refl (c : String) (db : Db) : SameFor c db db :=
  ⟨fun _ => rfl, rfl, rfl, rfl, rfl⟩

theorem SameFor.trans {c : String} {db₁ db₂ db₃ : Db} (h : SameFor c db₁ db₂)
    (h' : SameFor c db₂ db₃) : SameFor c db₁ db₃ where
  documents k := (h'.documents k).trans (h.documents k)
  schema := h'.schema.trans h.schema
  ttlDefault := h'.ttlDefault.trans h.ttlDefault
  ttlExpiry := h'.ttlExpiry.trans h.ttlExpiry
  maxSize := h'.maxSize.trans h.maxSize

/-- Whatever the outcome, `m` changes nothing about the collection `c`. -/
def Leaves {α : Type} (c : String) (m : Op α) : Prop :=
  ∀ db, wp m (fun _ => SameFor c db) (fun _ => SameFor c db) db

section

variable {α β : Type} {c c' : String}

theorem Leaves.bind {m : Op α} {f : α → Op β} (hm : Leaves c m) (hf : ∀ a, Leaves c (f a)) :
    Leaves c (m >>= f) := by
  intro db
  rw [wp_bind]
  refine wp_mono (hm db) (fun a db₁ h₁ => ?_) fun _ _ h => h
  exact wp_mono (hf a db₁) (fun _ _ h => h₁.trans h) fun _ _ h => h₁.trans h

theorem leaves_pure (a : α) : Leaves c (pure a : Op α) := fun db => .refl c db

theorem leaves_get : Leaves c (get : Op Db) := fun db => .refl c db

theorem leaves_throw (e : DbError) : Leaves c (throw e : Op α) := fun db => .refl c db

theorem leaves_nowMs : Leaves c nowMs := fun _ =>
  wp_nowMs fun _ _ => ⟨fun _ => rfl, rfl, rfl, rfl, rfl⟩

theorem leaves_newUuid : Leaves c newUuid := fun _ =>
  wp_newUuid fun _ _ => ⟨fun _ => rfl, rfl, rfl, rfl, rfl⟩

theorem leaves_modify {f : Db → Db} (h : ∀ db, SameFor c db (f db)) :
    Leaves c (modify f : Op Unit) := h

theorem leaves_send (e : Json) : Leaves c (send e) :=
  leaves_modify fun _ => ⟨fun _ => rfl, rfl, rfl, rfl, rfl⟩

theorem leaves_writeNew (cmd d k : String) (v : Json) : Leaves c (writeNew cmd d k v) := by
  intro db
  refine wp_writeNew (fun t n => ?_) fun _ n => ?_
  · exact ⟨fun _ => rfl, rfl, rfl, rfl, rfl⟩
  · exact ⟨fun _ => rfl, rfl, rfl, rfl, rfl⟩

theorem Leaves.outcome {m : Op α} (h : Leaves c m) : Leaves c (outcome m) := by
  intro db
  rw [wp_outcome]
  exact h db

theorem Leaves.map {m : Op α} (h : Leaves c m) (f : α → β) : Leaves c (f <$> m) := by
  intro db
  rw [wp_map]
  exact h db

theorem Leaves.final {m : Op α} (h : Leaves c m) (db : Db) : SameFor c db (m db).2 :=
  wp_final (h db)

theorem Leaves.ite {p : Prop} [Decidable p] {m m' : Op α} (h : Leaves c m) (h' : Leaves c m') :
    Leaves c (if p then m else m') := by
  split_ifs
  · exact h
  · exact h'

/-- One move of an operation on another collection. -/
theorem Move.sameFor (hne : c' ≠ c) {db db' : Db} (h : Move c db db') : SameFor c' db db' := by
  cases h with
  | state f =>
    refine ⟨fun k => ?_, rfl, rfl, rfl, rfl⟩
    simp only [Db.bytes, Map.get?_alter, if_neg hne]
  | tick n => exact ⟨fun _ => rfl, rfl, rfl, rfl, rfl⟩
  | log e _ _ => exact ⟨fun _ => rfl, rfl, rfl, rfl, rfl⟩
  | failed => exact ⟨fun _ => rfl, rfl, rfl, rfl, rfl⟩
  | index f => exact ⟨fun _ => rfl, rfl, rfl, rfl, rfl⟩
  | counter n => exact ⟨fun _ => rfl, rfl, rfl, rfl, rfl⟩
  | event e => exact ⟨fun _ => rfl, rfl, rfl, rfl, rfl⟩

theorem Moves.sameFor (hne : c' ≠ c) {db db' : Db} (h : Moves c db db') : SameFor c' db db' := by
  induction h with
  | refl => exact .refl _ _
  | tail _ h ih => exact ih.trans (h.sameFor hne)

/-- **An operation on another collection** leaves this one alone. -/
theorem Within.leaves {m : Op α} (h : Within c m) (hne : c' ≠ c) : Leaves c' m := fun db =>
  wp_mono (h db) (fun _ _ h => h.sameFor hne) fun _ _ h => h.sameFor hne

end

/-! ## The database handle -/

section

variable [Crates] {c d : String}

omit [Crates] in
theorem leaves_checkFault : Leaves c checkFault :=
  leaves_get.bind fun _ => (leaves_throw _).ite (leaves_pure _)

theorem leaves_dbInsert (hne : c ≠ d) (items : List (String × Json)) :
    Leaves c (Db.insert d items) := by
  have hevict : Leaves c (Db.evictExpired d) := by
    refine leaves_get.bind fun db => ?_
    cases db.ttlExpiry[d]? with
    | none => exact leaves_pure _
    | some exp =>
      refine leaves_nowMs.bind fun now => Leaves.ite ?_ (leaves_pure _)
      refine (within_deleteCollection.leaves hne).outcome.bind fun _ => leaves_modify fun db => ?_
      refine ⟨fun _ => rfl, rfl, rfl, ?_, rfl⟩
      rw [Map.get?_erase, if_neg hne]
  have hoverflow : Leaves c (Db.evictOverflow d) := by
    refine leaves_get.bind fun db => ?_
    cases db.maxSizes[d]? with
    | none => exact leaves_pure _
    | some max => exact ((withinDocs_evictOldest _).within.leaves hne).ite (leaves_pure _)
  have hreset : Leaves c (Db.resetExpiry d) := by
    refine leaves_get.bind fun db => ?_
    cases db.ttlDefaults[d]? with
    | none => exact leaves_pure _
    | some secs =>
      refine leaves_nowMs.bind fun now => Leaves.bind (leaves_modify fun db => ?_) fun _ =>
        (leaves_writeNew _ _ _ _).outcome.bind fun _ => leaves_send _
      refine ⟨fun _ => rfl, rfl, rfl, ?_, rfl⟩
      rw [Map.get?_insert, if_neg hne]
  exact leaves_checkFault.bind fun _ => hevict.bind fun _ =>
    ((withinDocs_insert items).within.leaves hne).bind fun _ => hoverflow.bind fun _ => hreset

omit [Crates] in
theorem leaves_dbUpdate (hne : c ≠ d) (k : String) (updates : Json) :
    Leaves c (Db.update d k updates) :=
  leaves_checkFault.bind fun _ => (withinDocs_update k updates).within.leaves hne

theorem leaves_dbDelete (hne : c ≠ d) (keys : List String) : Leaves c (Db.delete d keys) :=
  leaves_checkFault.bind fun _ => (withinDocs_delete keys).within.leaves hne

theorem leaves_dbDeleteFiltered (hne : c ≠ d) (p : String → Bytes → Bool) (limit : Option ℕ)
    (asc : Bool) : Leaves c (Db.deleteFiltered d p limit asc) :=
  leaves_checkFault.bind fun _ => (withinDocs_deleteFiltered p limit asc).within.leaves hne

theorem leaves_dbDeleteN (hne : c ≠ d) (n : ℕ) (asc : Bool) : Leaves c (Db.deleteN d n asc) :=
  leaves_checkFault.bind fun _ => (withinDocs_deleteN n asc).within.leaves hne

omit [Crates] in
theorem leaves_dbDeleteCollection (hne : c ≠ d) : Leaves c (Db.deleteCollection d) := by
  refine (within_deleteCollection.leaves hne).bind fun _ => leaves_modify fun db => ?_
  refine ⟨fun _ => rfl, rfl, ?_, ?_, rfl⟩
  · rw [Map.get?_erase, if_neg hne]
  · rw [Map.get?_erase, if_neg hne]

theorem leaves_dbSetSchema (hne : c ≠ d) (schema : Json) : Leaves c (Db.setSchema d schema) := by
  unfold Db.setSchema Operations.setSchema
  cases Crates.validatorFor schema with
  | error err => exact leaves_throw _
  | ok validator =>
    refine leaves_newUuid.bind fun _ => (leaves_writeNew _ _ _ _).bind fun _ =>
      (leaves_writeNew _ _ _ _).bind fun _ => (leaves_writeNew _ _ _ _).bind fun _ =>
        Leaves.bind (leaves_modify fun db => ?_) fun _ => leaves_send _
    refine ⟨fun _ => rfl, ?_, rfl, rfl, rfl⟩
    rw [Map.get?_insert, if_neg hne]

omit [Crates] in
theorem leaves_setTtlDefault (hne : c ≠ d) (secs : UInt64) : Leaves c (Db.setTtlDefault d secs) := by
  refine leaves_modify fun db => ?_
  split_ifs
  · refine ⟨fun _ => rfl, rfl, ?_, ?_, rfl⟩
    · rw [Map.get?_erase, if_neg hne]
    · rw [Map.get?_erase, if_neg hne]
  · refine ⟨fun _ => rfl, rfl, ?_, rfl, rfl⟩
    rw [Map.get?_insert, if_neg hne]

omit [Crates] in
theorem leaves_setMaxSize (hne : c ≠ d) (max : ℕ) : Leaves c (Db.setMaxSize d max) := by
  refine leaves_modify fun db => ⟨fun _ => rfl, rfl, rfl, rfl, ?_⟩
  rw [Map.get?_insert, if_neg hne]

end

/-! ## The handlers -/

section

variable [Crates] [Lowercase] [FloatText] {c d : String}

omit [Crates] [Lowercase] [FloatText] in
theorem Leaves.validated {m : Op Response} (h : Leaves c m) (check : Except ValidationError Unit) :
    Leaves c (validated check m) := by
  cases check with
  | error e => exact leaves_pure _
  | ok u => exact h

omit [Crates] [Lowercase] [FloatText] in
theorem Leaves.withTtl {m : Op Response} (h : Leaves c m) (hne : c ≠ d) (ttl : Option Json)
    (invalid : Response) : Leaves c (withTtl d ttl invalid m) := by
  cases ttl with
  | none => exact h
  | some ttlVal =>
    unfold MoltenDB.withTtl
    dsimp only
    cases ttlVal.asU64 with
    | none => exact leaves_pure _
    | some secs => exact (leaves_setTtlDefault hne secs).bind fun _ => h

omit [Crates] [Lowercase] [FloatText] in
theorem Leaves.withMaxSize {m : Op Response} (h : Leaves c m) (hne : c ≠ d) (maxSize : Option Json)
    (invalid : Response) : Leaves c (withMaxSize d maxSize invalid m) := by
  cases maxSize with
  | none => exact h
  | some maxVal =>
    unfold MoltenDB.withMaxSize
    dsimp only
    cases maxVal.asU64.filter (0 < ·) with
    | none => exact leaves_pure _
    | some max => exact (leaves_setMaxSize hne _).bind fun _ => h

omit [Lowercase] [FloatText] in
theorem leaves_insertItems (hne : c ≠ d) (items success : List (String × Json)) :
    Leaves c (insertItems d items success) := by
  refine (leaves_dbInsert hne items).outcome.bind fun r => ?_
  cases r with
  | ok u => exact leaves_pure _
  | error e => exact leaves_pure _

omit [Crates] [Lowercase] [FloatText] in
theorem leaves_identify (db : Db) (items : List Json) : Leaves c (identify db items) := by
  induction items with
  | nil => exact leaves_pure _
  | cons item items ih =>
    exact leaves_newUuid.bind fun _ => (leaves_pure _).ite (ih.bind fun _ => leaves_pure _)

omit [Lowercase] [FloatText] in
theorem leaves_setData (hne : c ≠ d) (data : Option Json) : Leaves c (setData d data) := by
  refine leaves_get.bind fun db => ?_
  cases data with
  | none => exact leaves_pure _
  | some data =>
    cases data with
    | obj dataMap => exact (leaves_pure _).ite (leaves_insertItems hne _ _)
    | arr dataArr =>
      refine (leaves_identify db dataArr).bind fun items => ?_
      cases items with
      | none => exact leaves_pure _
      | some items => exact leaves_insertItems hne _ _
    | null => exact leaves_pure _
    | bool b => exact leaves_pure _
    | num n => exact leaves_pure _
    | str s => exact leaves_pure _

omit [Lowercase] in
theorem leaves_processSet {payload : Json} (hne : c ≠ (namedCollection payload).getD "default")
    (maxBodySize maxKeysPerRequest : ℕ) :
    Leaves c (processSet payload maxBodySize maxKeysPerRequest) :=
  ((((leaves_setData hne _).withMaxSize hne _ _).withTtl hne _ _).validated _).validated _

omit [Crates] [Lowercase] [FloatText] in
theorem leaves_updateItems (hne : c ≠ d) (n : ℕ) (items : List (String × Json)) :
    Leaves c (updateItems d n items) := by
  induction items generalizing n with
  | nil => exact leaves_pure _
  | cons item items ih =>
    refine (leaves_pure _).ite ((leaves_dbUpdate hne item.1 item.2).outcome.bind fun r => ?_)
    cases r with
    | ok found => cases found <;> exact ih _
    | error e => cases e <;> exact leaves_pure _

omit [Crates] [Lowercase] in
theorem leaves_processUpdate {payload : Json} (hne : c ≠ (namedCollection payload).getD "default")
    (maxBodySize maxKeysPerRequest : ℕ) :
    Leaves c (processUpdate payload maxBodySize maxKeysPerRequest) := by
  refine Leaves.validated (Leaves.validated ?_ _) _
  cases (payload.field .data).bind Json.asObject with
  | none => exact leaves_pure _
  | some dataMap => exact leaves_updateItems hne 0 dataMap

omit [Lowercase] in
theorem leaves_processSchema {payload : Json} (hne : namedCollection payload ≠ some c)
    (maxBodySize maxKeysPerRequest : ℕ) :
    Leaves c (processSchema payload maxBodySize maxKeysPerRequest) := by
  refine Leaves.validated (Leaves.validated ?_ _) _
  cases hcol : namedCollection payload with
  | none => exact leaves_pure _
  | some d =>
    have hne : c ≠ d := fun h => hne (by rw [hcol, h])
    have hrest : Leaves c (withTtl d (payload.field .ttl) SchemaError.invalidTtl.intoResponse
        (withMaxSize d (payload.field .maxSize) SchemaError.invalidMaxSize.intoResponse
          (pure (200, json [("status", .str "ok"), ("collection", .str d)])))) :=
      ((leaves_pure _).withMaxSize hne _ _).withTtl hne _ _
    refine (leaves_pure _).ite ?_
    cases payload.field .schema with
    | none => exact hrest
    | some schema =>
      refine (leaves_dbSetSchema hne schema).outcome.bind fun r => ?_
      cases r with
      | ok u => exact hrest
      | error e => cases e <;> exact leaves_pure _

omit [Lowercase] [FloatText] in
theorem leaves_deleteByKeys (hne : c ≠ d) (keys : List String) (failed : String → DeleteError) :
    Leaves c (deleteByKeys d keys failed) :=
  (leaves_dbDelete hne keys).outcome.bind fun _ => leaves_pure _

theorem leaves_processDelete {payload : Json} (hne : c ≠ (namedCollection payload).getD "default")
    (maxBodySize maxKeysPerRequest : ℕ) :
    Leaves c (processDelete payload maxBodySize maxKeysPerRequest) := by
  refine Leaves.validated (Leaves.validated (Leaves.ite ?_ ?_) _) _
  · refine (leaves_dbDeleteCollection hne).outcome.bind fun r => ?_
    cases r with
    | ok u => exact leaves_pure _
    | error e => exact leaves_pure _
  · split
    · exact (leaves_pure _).ite
        ((leaves_dbDeleteFiltered hne _ _ _).outcome.bind fun _ => leaves_pure _)
    · exact (leaves_pure _).ite ((leaves_dbDeleteN hne _ _).outcome.bind fun _ => leaves_pure _)
    · exact leaves_deleteByKeys hne _ _
    · exact leaves_deleteByKeys hne _ _
    · exact leaves_pure _

/-! ## Queries -/

/-- **A query** changes nothing. -/
theorem leaves_processGet (payload : Json) (maxBodySize maxKeysPerRequest : ℕ) :
    Leaves c (processGet payload maxBodySize maxKeysPerRequest) := fun db =>
  (drew_processGet payload maxBodySize maxKeysPerRequest).keeps (P := SameFor c db)
    (fun _ _ ⟨_, hdrew⟩ h => hdrew ▸ ⟨h.documents, h.schema, h.ttlDefault, h.ttlExpiry, h.maxSize⟩)
    (.refl c db)

theorem leaves_handleGet (claims : Claims) (payload : Json) (maxBodySize maxKeysPerRequest : ℕ) :
    Leaves c (handleGet claims payload maxBodySize maxKeysPerRequest) := by
  have hrun : ∀ payload, Leaves c (some <$> processGet payload maxBodySize maxKeysPerRequest) :=
    fun payload => (leaves_processGet payload _ _).map _
  refine (hrun payload).ite ((leaves_pure _).ite ?_)
  cases payload.field .keys with
  | some keys =>
    dsimp only
    split
    · exact leaves_pure _
    · exact hrun payload
  | none =>
    dsimp only
    split
    · exact hrun _
    · exact leaves_pure _

omit [Crates] [Lowercase] [FloatText] in
/-- A scope of another collection is none of this one, unless the request names none. -/
theorem leaves_withScope {claims : Claims} {action : String} {payload : Json} {m : Op Response}
    (hno : claims.hasCollectionAccess action c = false)
    (hopen : namedCollection payload = none → c = "default" →
      claims.hasCollectionAccess action "" = false)
    (h : c ≠ (namedCollection payload).getD "default" → Leaves c m) :
    Leaves c (withScope claims action payload m) := by
  unfold withScope
  dsimp only
  split_ifs with haccess
  · refine h ?_
    rintro rfl
    cases hcol : namedCollection payload with
    | none =>
      rw [hcol] at haccess
      exact absurd haccess (Bool.eq_false_iff.1 (hopen hcol (by rw [hcol]; rfl)))
    | some d =>
      rw [hcol] at haccess hno
      exact absurd haccess (Bool.eq_false_iff.1 hno)
  · exact leaves_pure _

omit [Crates] [Lowercase] in
/-- A valid request names a valid collection. -/
theorem validateCollectionName_of_validateRequest {payload : Json} {maxBodySize maxKeysPerRequest : ℕ}
    (h : validateRequest payload maxBodySize maxKeysPerRequest = .ok ())
    (hcol : namedCollection payload = some c) : validateCollectionName c = .ok () := by
  have hname := (requestAccepted_of_ok h).collection
  rwa [hcol] at hname

/-! ## What is not checked -/

/-- Requests that may change a collection that the token gives no access to: schemas are
    registered by anyone, and a request that names no collection is checked against the
    empty name and changes the collection `default`. -/
def Unchecked (claims : Claims) (c : String) (endpoint : Endpoint) (named : Option String) : Prop :=
  match endpoint, named with
  | .schema, some d => d = c ∧ validateCollectionName c = .ok ()
  | .set, none | .update, none => c = "default" ∧ claims.hasCollectionAccess ACTION_WRITE "" = true
  | .delete, none => c = "default" ∧ claims.hasCollectionAccess ACTION_DELETE "" = true
  | _, _ => False

theorem leaves_handle {claims : Claims} (hadmin : claims.isAdmin = false)
    (hwrite : claims.hasCollectionAccess ACTION_WRITE c = false)
    (hdelete : claims.hasCollectionAccess ACTION_DELETE c = false) {endpoint : Endpoint}
    {payload : Json} (hchecked : ¬ Unchecked claims c endpoint (namedCollection payload))
    (compact : Op Unit) (maxBodySize maxKeysPerRequest : ℕ) :
    Leaves c (handle compact claims endpoint payload maxBodySize maxKeysPerRequest) := by
  cases endpoint with
  | set =>
    refine (leaves_withScope hwrite (fun hnone hc => ?_) fun hne => leaves_processSet hne _ _).map _
    rw [hnone] at hchecked
    exact Bool.eq_false_iff.2 fun h => hchecked ⟨hc, h⟩
  | update =>
    refine (leaves_withScope hwrite (fun hnone hc => ?_) fun hne => leaves_processUpdate hne _ _).map _
    rw [hnone] at hchecked
    exact Bool.eq_false_iff.2 fun h => hchecked ⟨hc, h⟩
  | delete =>
    refine (leaves_withScope hdelete (fun hnone hc => ?_) fun hne => leaves_processDelete hne _ _).map _
    rw [hnone] at hchecked
    exact Bool.eq_false_iff.2 fun h => hchecked ⟨hc, h⟩
  | schema =>
    refine Leaves.map ?_ _
    by_cases hcol : namedCollection payload = some c
    · rw [hcol] at hchecked
      refine Leaves.validated ?_ _
      cases hvalid : validateRequest payload maxBodySize maxKeysPerRequest with
      | error e => exact leaves_pure _
      | ok u => exact absurd ⟨rfl, validateCollectionName_of_validateRequest hvalid hcol⟩ hchecked
    · exact leaves_processSchema hcol _ _
  | get => exact leaves_handleGet claims payload _ _
  | snapshot =>
    refine Leaves.map ?_ _
    rw [handleSnapshot, hadmin]
    exact leaves_pure _

/-! ## Requests that change a collection unchecked -/

omit [Crates] [Lowercase] [FloatText] in
/-- A check that passes is passed. -/
theorem validated_ok {check : Except ValidationError Unit} (h : check = .ok ()) (m : Op Response) :
    validated check m = m := by
  rw [h]
  rfl

/-- The size of a payload. -/
def textSize (payload : Json) : ℕ := (utf8 payload.toText).length

omit [Crates] [Lowercase] in
theorem validatePayloadSize_textSize (payload : Json) :
    validatePayloadSize payload (textSize payload) = .ok () := if_neg (lt_irrefl _)

/-- A small request that sets the maximal size of a collection. -/
def sizeRequest (named : Option String) : Json :=
  match named with
  | some d => .obj [("collection", .str d), ("maxSize", .ofU64 1)]
  | none => .obj [("maxSize", .ofU64 1)]

/-- A request that updates a document of no named collection. -/
def updateRequest : Json := .obj [("data", .obj [("d", .obj [])])]

/-- A request that drops no named collection. -/
def dropRequest : Json := .obj [("drop", .bool true)]

omit [Crates] [Lowercase] in
theorem validateRequest_sizeRequest {named : Option String}
    (hname : ∀ d, named = some d → validateCollectionName d = .ok ()) :
    validateRequest (sizeRequest named) (textSize (sizeRequest named)) 0 = .ok () := by
  unfold validateRequest
  rw [validatePayloadSize_textSize]
  cases named with
  | none => rfl
  | some d =>
    have hd := hname d rfl
    change (validateCollectionName d >>= fun _ => Except.ok ()) = Except.ok ()
    rw [hd]
    rfl

/-- A database in which the collection `default` has one document. -/
def defaultDb : Db :=
  { Db.blank (World.plain 0 []) 0 with
    state := (∅ : State).insert "default" ((∅ : DashMap Bytes).insert "d" (valueToMsgpack (.obj []))) }

/-- Some request to the endpoint that names the collection `named`, or none, changes something
    about the collection `c`. -/
def CanChange (claims : Claims) (c : String) (endpoint : Endpoint) (named : Option String)
    (compact : Op Unit) : Prop :=
  ∃ payload maxBodySize maxKeysPerRequest db, namedCollection payload = named ∧
    ¬ SameFor c db (handle compact claims endpoint payload maxBodySize maxKeysPerRequest db).2

omit [Crates] [Lowercase] [FloatText] in
/-- A collection that got a maximal size is not the same as in a blank database. -/
theorem not_sameFor_blank {db' : Db} {m : DashMap ℕ} (h : db'.maxSizes = m.insert c 1) :
    ¬ SameFor c (Db.blank (World.plain 0 []) 0) db' := by
  intro hsame
  have heq := hsame.maxSize
  rw [h, Map.get?_insert, if_pos rfl] at heq
  cases heq

variable {claims : Claims} (compact : Op Unit)

theorem canChange_schema (hname : validateCollectionName c = .ok ()) :
    CanChange claims c .schema (some c) compact := by
  have hvalid : validateRequest (sizeRequest (some c)) (textSize (sizeRequest (some c))) 0 =
      .ok () := validateRequest_sizeRequest fun d hd => by
    obtain rfl := Option.some.inj hd
    exact hname
  refine ⟨sizeRequest (some c), textSize (sizeRequest (some c)), 0,
    Db.blank (World.plain 0 []) 0, rfl, not_sameFor_blank (m := ∅) ?_⟩
  unfold handle handleSchema processSchema
  rw [validated_ok hvalid]
  rfl

theorem canChange_set (haccess : claims.hasCollectionAccess ACTION_WRITE "" = true) :
    CanChange claims "default" .set none compact := by
  have hvalid : validateRequest (sizeRequest none) (textSize (sizeRequest none)) 0 = .ok () :=
    validateRequest_sizeRequest nofun
  refine ⟨sizeRequest none, textSize (sizeRequest none), 0, Db.blank (World.plain 0 []) 0, rfl,
    not_sameFor_blank (m := ∅) ?_⟩
  unfold handle handleSet withScope processSet
  rw [validated_ok hvalid]
  change (((some <$> if claims.hasCollectionAccess ACTION_WRITE "" then _ else _ : Op _) _).2
    : Db).maxSizes = _
  rw [if_pos haccess]
  rfl

theorem canChange_update (haccess : claims.hasCollectionAccess ACTION_WRITE "" = true) :
    CanChange claims "default" .update none compact := by
  refine ⟨updateRequest, textSize updateRequest, 1, defaultDb, rfl, fun hsame => ?_⟩
  have hvalid : validateRequest updateRequest (textSize updateRequest) 1 = .ok () := by
    unfold validateRequest
    rw [validatePayloadSize_textSize]
    rfl
  unfold handle handleUpdate withScope processUpdate at hsame
  rw [validated_ok hvalid] at hsame
  have hdoc := hsame.documents "d"
  change (((some <$> if claims.hasCollectionAccess ACTION_WRITE "" then _ else _ : Op _) _).2
    : Db).bytes "default" "d" = _ at hdoc
  rw [if_pos haccess] at hdoc
  have hchanged : (updateItems "default" 0 [("d", .obj [])] defaultDb).2.bytes "default" "d" ≠
      defaultDb.bytes "default" "d" := by decide +kernel
  exact hchanged hdoc

theorem canChange_delete (haccess : claims.hasCollectionAccess ACTION_DELETE "" = true) :
    CanChange claims "default" .delete none compact := by
  refine ⟨dropRequest, textSize dropRequest, 0, defaultDb, rfl, fun hsame => ?_⟩
  have hvalid : validateRequest dropRequest (textSize dropRequest) 0 = .ok () := by
    unfold validateRequest
    rw [validatePayloadSize_textSize]
    rfl
  unfold handle handleDelete withScope processDelete at hsame
  rw [validated_ok hvalid] at hsame
  have hdoc := hsame.documents "d"
  change (((some <$> if claims.hasCollectionAccess ACTION_DELETE "" then _ else _ : Op _) _).2
    : Db).bytes "default" "d" = _ at hdoc
  rw [if_pos haccess] at hdoc
  have hchanged : (Db.deleteCollection "default" defaultDb).2.bytes "default" "d" ≠
      defaultDb.bytes "default" "d" := by decide +kernel
  exact hchanged hdoc

/-- **What is not checked** can change the collection. -/
theorem unchecked_changes {endpoint : Endpoint} {named : Option String}
    (h : Unchecked claims c endpoint named) : CanChange claims c endpoint named compact := by
  match endpoint, named, h with
  | .schema, some d, h =>
    obtain ⟨rfl, hname⟩ := h
    exact canChange_schema compact hname
  | .set, none, h =>
    obtain ⟨rfl, haccess⟩ := h
    exact canChange_set compact haccess
  | .update, none, h =>
    obtain ⟨rfl, haccess⟩ := h
    exact canChange_update compact haccess
  | .delete, none, h =>
    obtain ⟨rfl, haccess⟩ := h
    exact canChange_delete compact haccess

/-- **Scopes are enforced** for a collection that the token may neither write nor delete: no
    request to an endpoint that names this collection, another or none changes anything
    about it, exactly if the check is made on what is changed. -/
theorem scopes_enforced_iff {claims : Claims} (hadmin : claims.isAdmin = false)
    (hwrite : claims.hasCollectionAccess ACTION_WRITE c = false)
    (hdelete : claims.hasCollectionAccess ACTION_DELETE c = false) (compact : Op Unit)
    (endpoint : Endpoint) (named : Option String) :
    (∀ payload maxBodySize maxKeysPerRequest db, namedCollection payload = named →
        SameFor c db (handle compact claims endpoint payload maxBodySize maxKeysPerRequest db).2) ↔
      ¬ Unchecked claims c endpoint named := by
  constructor
  · intro h hopen
    obtain ⟨payload, maxBodySize, maxKeysPerRequest, db, hnamed, hchanged⟩ :=
      unchecked_changes compact hopen
    exact hchanged (h payload maxBodySize maxKeysPerRequest db hnamed)
  · rintro hchecked payload maxBodySize maxKeysPerRequest db rfl
    exact (leaves_handle hadmin hwrite hdelete hchecked compact _ _).final db

end

/-- A token that may only read one collection. -/
def readerClaims : Claims := ⟨"reader", 2000000000, ["read:users:*"], "jti"⟩

theorem scopes_enforced_iff_reader :
    letI := Crates.plain
    letI := Lowercase.ascii
    letI := FloatText.plain
    let db := Db.blank (World.plain 0 []) 0
    let payload := Json.obj [("collection", .str "users"), ("keys", .str "u1")]
    SameFor "users" db (handle (pure ()) readerClaims .delete payload 1000 10 db).2 := by
  let _ := Crates.plain
  let _ := Lowercase.ascii
  let _ := FloatText.plain
  exact (scopes_enforced_iff (by decide +kernel) (by decide +kernel) (by decide +kernel) (pure ())
    .delete (some "users")).2 id _ 1000 10 _ (by decide +kernel)

/-- A token that may only read sets the maximal size of its collection. -/
theorem schema_unchecked :
    letI := Crates.plain
    letI := Lowercase.ascii
    letI := FloatText.plain
    let db := Db.blank (World.plain 0 []) 0
    let db' := (handle (pure ()) readerClaims .schema
      (.obj [("collection", .str "users"), ("maxSize", .ofU64 1)]) 1000 10 db).2
    (readerClaims.isAdmin = false ∧
      readerClaims.hasCollectionAccess ACTION_WRITE "users" = false ∧
      readerClaims.hasCollectionAccess ACTION_DELETE "users" = false) ∧
      db.maxSizes["users"]? = none ∧ db'.maxSizes["users"]? = some 1 := by
  decide +kernel

end MoltenDB
