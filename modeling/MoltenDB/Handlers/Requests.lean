/-
  Runs of client requests, of drops of expired collections, and of restarts.

  Only a set, an update and a restart can make documents: the others lose some (`Db.Loses`).
  So an invariant that losses keep is to be checked where a set or an update stores a value
  (`wp_processSet_keeps`, `wp_processUpdate_keeps`) and where the database is opened.
-/
import MoltenDB.Engine.AllDocs
import MoltenDB.Handlers.Queries
import MoltenDB.Handlers.Rules
import MoltenDB.Lib.Runs

namespace MoltenDB

open Wire Prog Prog.Eff LogCommand

/-! ## Losses -/

/-- Documents may be gone, counters too where no documents are left, and entries logged that
    insert none. -/
structure Db.Loses (db db' : Db) : Prop where
  seqCounters : ∀ c : String, db'.seqCounters[c]? = db.seqCounters[c]? ∨ ∀ k, db'.bytes c k = none
  bytes : ∀ c k b, db'.bytes c k = some b → db.bytes c k = some b
  log : ∀ e ∈ db'.log, e ∈ db.log ∨ ¬ e.Puts

theorem Db.Loses.trans {db₁ db₂ db₃ : Db} (h : db₁.Loses db₂) (h' : db₂.Loses db₃) :
    db₁.Loses db₃ := by
  refine ⟨fun c => ?_, fun c k b hb => h.bytes c k b (h'.bytes c k b hb), fun e he => ?_⟩
  · rcases h'.seqCounters c with hc' | hnone
    · rcases h.seqCounters c with hc | hnone
      · exact Or.inl (hc'.trans hc)
      · refine Or.inr fun k => Option.eq_none_iff_forall_not_mem.2 fun b hb => ?_
        have hb₂ := h'.bytes c k b hb
        rw [hnone k] at hb₂
        cases hb₂
    · exact Or.inr hnone
  · rcases h'.log e he with he | hputs
    · exact h.log e he
    · exact Or.inr hputs

theorem Db.Removes.loses {db db' : Db} (h : db.Removes db') : db.Loses db' :=
  ⟨fun _ => Or.inl (by rw [h.seqCounters]), h.bytes, h.mem_log⟩

theorem Db.Drew.removes {db db' : Db} (h : db.Drew db') : db.Removes db' := by
  obtain ⟨n, rfl⟩ := h
  exact .of_same rfl rfl rfl rfl

theorem Db.AllDocs.loses {P : Json → Prop} {db db' : Db} (hl : db.Loses db') (h : db.AllDocs P) :
    db'.AllDocs P := by
  refine ⟨fun c k b hb => h.bytes c k b (hl.bytes c k b hb), fun e he hputs => ?_⟩
  exact h.log e ((hl.log e he).resolve_right fun hn => hn hputs) hputs

section

variable {c : String}

/-- A dropped collection has no documents. -/
theorem wp_dropped (c : String) (db : Db) :
    wp (Operations.deleteCollection c) (fun _ db' => ∀ k, db'.bytes c k = none) (fun _ _ => True)
      db := by
  simp only [Operations.deleteCollection, wp_bind, wp_modify, wp_send]
  refine wp_newUuid fun id n => wp_writeNew (fun t n => ?_) fun _ _ => trivial
  have hnone : ∀ k, State.bytes (db.state.erase c) c k = none := fun k => by
    rw [bytes_drop, if_pos rfl]
  exact wp_writeNew (fun t n => wp_writeNew (fun t n => hnone) fun _ _ => trivial)
    fun _ _ => trivial

theorem loses_deleteCollection : Steps Db.Loses (Db.deleteCollection c) := by
  intro db
  rw [Db.deleteCollection, wp_bind]
  refine wp_mono (wp_and (wp_removes Operations.removes_deleteCollection db) (wp_dropped c db))
    (fun _ db' h => .single ?_) fun _ _ h => .single h.1.loses
  obtain ⟨hr, hnone⟩ := h
  refine ⟨fun c' => ?_, hr.bytes, hr.mem_log⟩
  by_cases hc : c' = c
  · rw [hc]
    exact Or.inr hnone
  · refine Or.inl ?_
    rw [← hr.seqCounters]
    simp [Map.get?_erase, hc]

theorem loses_of_removes {α : Type} {m : Op α} (h : Steps Db.Removes m) : Steps Db.Loses m :=
  h.mono fun _ _ => Db.Removes.loses

theorem loses_setSchema [Crates] (schema : Json) : Steps Db.Loses (Db.setSchema c schema) := by
  have hlog : ∀ {cmd : String}, canon cmd ≠ IKEY_INSERT → ∀ k v,
      Steps Db.Loses (writeNew cmd c k v) := fun hcmd k v =>
    loses_of_removes (removes_writeNew hcmd k v)
  unfold Db.setSchema Operations.setSchema
  cases Crates.validatorFor schema with
  | error err => exact fun db => .refl
  | ok validator =>
    refine (loses_of_removes removes_newUuid).bind fun id => (hlog (by decide) _ _).bind fun _ =>
      (hlog (by decide) _ _).bind fun _ => (hlog (by decide) _ _).bind fun _ => ?_
    refine (steps_modify fun db => ?_).bind fun _ => loses_of_removes (removes_send _)
    exact ⟨fun _ => Or.inl rfl, fun _ _ _ h => h, fun _ h => Or.inl h⟩

end

/-! ## Requests that store nothing -/

theorem steps_validated {R : Db → Db → Prop} {m : Op Response} (h : Steps R m)
    (check : Except ValidationError Unit) : Steps R (validated check m) := by
  cases check with
  | error e => exact steps_pure _
  | ok u => exact h

theorem Db.Limited.removes {db db' : Db} (h : db.Limited db') : db.Removes db' := by
  obtain ⟨_, _, _, rfl⟩ := h
  exact .of_same rfl rfl rfl rfl

section

variable {c : String} {m : Op Response} {invalid : Response}

theorem loses_withTtl (h : Steps Db.Loses m) (ttl : Option Json) :
    Steps Db.Loses (withTtl c ttl invalid m) := by
  cases ttl with
  | none => exact h
  | some v =>
    unfold withTtl
    dsimp only
    cases v.asU64 with
    | none => exact steps_pure _
    | some secs => exact (steps_modify fun db =>
        (db.limited_withTtlDefault c secs).removes.loses).bind fun _ => h

theorem loses_withMaxSize (h : Steps Db.Loses m) (maxSize : Option Json) :
    Steps Db.Loses (withMaxSize c maxSize invalid m) := by
  cases maxSize with
  | none => exact h
  | some v =>
    unfold withMaxSize
    dsimp only
    cases v.asU64.filter (0 < ·) with
    | none => exact steps_pure _
    | some max =>
      have hset : Steps Db.Loses (Db.setMaxSize c max.toNat) := steps_modify fun _ =>
        ⟨fun _ => Or.inl rfl, fun _ _ _ h => h, fun _ h => Or.inl h⟩
      exact hset.bind fun _ => h

end

section

variable [Crates] [Lowercase] [FloatText] (payload : Json) (maxBodySize maxKeysPerRequest : ℕ)

omit [Lowercase] in
theorem loses_processSchema :
    Steps Db.Loses (processSchema payload maxBodySize maxKeysPerRequest) := by
  refine steps_validated (steps_validated ?_ _) _
  cases namedCollection payload with
  | none => exact steps_pure _
  | some c =>
    have hrest : Steps Db.Loses (withTtl c (payload.field .ttl) SchemaError.invalidTtl.intoResponse
        (withMaxSize c (payload.field .maxSize) SchemaError.invalidMaxSize.intoResponse
          (pure (200, json [("status", .str "ok"), ("collection", .str c)])))) :=
      loses_withTtl (loses_withMaxSize (steps_pure _) _) _
    dsimp only
    split_ifs
    · exact steps_pure _
    · cases payload.field .schema with
      | none => exact hrest
      | some schema =>
        refine (loses_setSchema schema).outcome.bind fun r => ?_
        cases r with
        | ok u => exact hrest
        | error e => cases e <;> exact steps_pure _

theorem loses_processDelete :
    Steps Db.Loses (processDelete payload maxBodySize maxKeysPerRequest) := by
  have hkeys : ∀ (c : String) (keys : List String) (failed : String → DeleteError),
      Steps Db.Loses (deleteByKeys c keys failed) := fun c keys failed =>
    (loses_of_removes (Db.removes_delete keys)).outcome.bind fun _ => steps_pure _
  refine steps_validated (steps_validated ?_ _) _
  dsimp only
  split_ifs
  · refine loses_deleteCollection.outcome.bind fun r => ?_
    cases r with
    | ok u => exact steps_pure _
    | error e => exact steps_pure _
  · split
    · split_ifs
      · exact steps_pure _
      · exact (loses_of_removes (Db.removes_deleteFiltered _ _ _)).outcome.bind
          fun _ => steps_pure _
    · split_ifs
      · exact steps_pure _
      · exact (loses_of_removes (Db.removes_deleteN _ _)).outcome.bind fun _ => steps_pure _
    · exact hkeys _ _ _
    · exact hkeys _ _ _
    · exact steps_pure _

end

/-! ## Sets -/

/-- The documents in the data of a set. -/
def setDocs (payload : Json) : List Json :=
  match payload.field .data with
  | some (.obj dataMap) => dataMap.map Prod.snd
  | some (.arr dataArr) => dataArr
  | _ => []

theorem resolveExtends_congr {db db' : Db} (h : db'.state = db.state) (doc : Json) :
    resolveExtends db' doc = resolveExtends db doc := by
  cases db
  cases db'
  cases h
  rfl

/-- The items of a set: its documents, with what they extend, and without reserved names. -/
structure SetItems (db : Db) (payload : Json) (items : List (String × Json)) : Prop where
  length : items.length = (setDocs payload).length
  resolved : ∀ item ∈ items, ∃ doc ∈ setDocs payload,
    item.2 = resolveExtends db doc ∧ hasReserved [] item.2 = false

theorem SetItems.of_state {db db' : Db} {payload : Json} {items : List (String × Json)}
    (h : SetItems db' payload items) (hstate : db'.state = db.state) :
    SetItems db payload items := by
  refine ⟨h.length, fun item hitem => ?_⟩
  obtain ⟨doc, hdoc, heq, hfree⟩ := h.resolved item hitem
  exact ⟨doc, hdoc, heq.trans (resolveExtends_congr hstate doc), hfree⟩

theorem setItems_of_dataItems {db : Db} {payload : Json} {items : List (String × Json)}
    (h : db.dataItems (payload.field .data) = some items) : SetItems db payload items := by
  cases hfield : payload.field .data with
  | none =>
    rw [hfield] at h
    cases h
  | some data =>
    rw [hfield] at h
    cases data with
    | obj dataMap =>
      have hdocs : setDocs payload = dataMap.map Prod.snd := by simp [setDocs, hfield]
      simp only [Db.dataItems] at h
      split_ifs at h with hres
      obtain rfl := Option.some.inj h
      rw [Bool.not_eq_true, List.any_eq_false] at hres
      refine ⟨by simp [hdocs], fun item hitem => ?_⟩
      have hfree := Bool.eq_false_iff.2 (hres item hitem)
      obtain ⟨p, hp, rfl⟩ := List.mem_map.1 hitem
      refine ⟨p.2, ?_, rfl, hfree⟩
      rw [hdocs]
      exact List.mem_map_of_mem hp
    | arr dataArr =>
      have hdocs : setDocs payload = dataArr := by simp [setDocs, hfield]
      obtain ⟨hlen, hitems⟩ := freshItems_resolved h
      exact ⟨by rw [hlen, hdocs], by rwa [hdocs]⟩
    | _ => cases h

theorem Db.removes_drawn (db : Db) (data : Option Json) : db.Removes (db.drawn data) := by
  unfold Db.drawn
  split <;> exact .of_same rfl rfl rfl rfl

section

variable [Crates] [FloatText] {payload : Json} {maxBodySize maxKeysPerRequest : ℕ} {I : Db → Prop}
  {J : List (String × Json) → Db → Prop}

/-- **A set keeps what removals keep**, if storing each of its items does; `J` holds while the
    items `rest` are still to come. -/
theorem wp_processSet_keeps {c : String} (hcol : (namedCollection payload).getD "default" = c)
    (hI : ∀ db db', db.Removes db' → I db → I db')
    (hJ : ∀ rest db db', db.Removes db' → J rest db → J rest db') (hJI : ∀ rest db, J rest db → I db)
    (hitem : ∀ item rest db, J (item :: rest) db →
      wp (Operations.insertItem c item) (fun _ => J rest) (fun _ => I) db)
    {db : Db} (h : I db)
    (hstart : validateRequest payload maxBodySize maxKeysPerRequest = .ok () →
      ∀ items db₁, db.Removes db₁ → I db₁ → SetItems db payload items → J items db₁) :
    wp (processSet payload maxBodySize maxKeysPerRequest) (fun _ => I) (fun _ => I) db := by
  refine wp_processSet hcol (fun _ _ _ hlim => hI _ _ hlim.removes h) fun hvalid db₁ hlim => ?_
  have h₁ := hI _ _ hlim.removes h
  refine wp_setData (fun _ _ _ => hI db₁ _ (.of_same rfl rfl rfl rfl) h₁) fun items success hitems =>
    ?_
  have hdrawn := db₁.removes_drawn (payload.field .data)
  have hJ₁ := hstart hvalid items _ (hlim.removes.trans hdrawn) (hI _ _ hdrawn h₁)
    ((setItems_of_dataItems hitems).of_state hlim.state)
  exact wp_insertItems (wp_mono (Db.wp_insert_keeps hJ hJI hitem hJ₁) (fun _ _ h => hJI _ _ h)
    fun _ _ h => h)

end

/-! ## Updates -/

/-- The value may be stored under the key; the other documents and the counters stay. -/
structure Db.MayStore (c k : String) (v : Json) (db db' : Db) : Prop where
  seqCounters : db'.seqCounters = db.seqCounters
  bytes : ∀ c' k', db'.bytes c' k' = db.bytes c' k' ∨
    (c' = c ∧ k' = k) ∧ db'.bytes c' k' = some (valueToMsgpack v)

theorem wp_storeUpdate_mayStore (c k id : String) (v : Json) (db : Db) :
    wp (Operations.storeUpdate c k id v) (fun _ => db.MayStore c k v) (fun _ => db.MayStore c k v)
      db := by
  simp only [Operations.storeUpdate, Operations.storeDoc, wp_bind, wp_modify, wp_send]
  refine wp_validateDocument (fun _ => ?_) ⟨rfl, fun _ _ => Or.inl rfl⟩
  have hput : ∀ c' k', State.bytes (db.state.alter c fun col =>
      some ((col.getD ∅).insert k (valueToMsgpack v))) c' k' = db.bytes c' k' ∨
        (c' = c ∧ k' = k) ∧ State.bytes (db.state.alter c fun col =>
          some ((col.getD ∅).insert k (valueToMsgpack v))) c' k' = some (valueToMsgpack v) := by
    intro c' k'
    rw [bytes_put]
    split_ifs with hck
    · exact Or.inr ⟨hck, rfl⟩
    · exact Or.inl rfl
  refine wp_writeNew (fun t n => ?_) fun _ _ => ⟨rfl, hput⟩
  exact wp_writeNew (fun t n => ⟨rfl, hput⟩) fun _ _ => ⟨rfl, hput⟩

section

variable [FloatText] {payload : Json} {maxBodySize maxKeysPerRequest : ℕ} {I : Db → Prop} {c : String}

omit [FloatText] in
/-- The rest of a batch of updates; the documents `db` are those before the batch. -/
theorem wp_updateItems_keeps (hI : ∀ db db', db.Removes db' → I db → I db') {db : Db}
    {items : List (String × Json)} (hnodup : (items.map Prod.fst).Nodup)
    (hstore : ∀ p ∈ items, hasReserved ["_v"] p.2 = false → ∀ doc db₁,
      (db.bytes c p.1).bind msgpackToValue = some doc → I db₁ →
      wp (Operations.mergeUpdate doc p.2) (fun newValue db₂ => ∀ id,
        wp (Operations.storeUpdate c p.1 id newValue) (fun _ => I) (fun _ => I) db₂)
        (fun _ => I) db₁) (n : ℕ) {db₁ : Db} (h : I db₁)
    (hsame : ∀ p ∈ items, ∀ b, db₁.bytes c p.1 = some b → db.bytes c p.1 = some b) :
    wp (updateItems c n items) (fun _ => I) (fun _ => I) db₁ := by
  induction items generalizing n db₁ with
  | nil => exact h
  | cons item items ih =>
    rw [List.map_cons, List.nodup_cons] at hnodup
    refine wp_updateItems_cons (fun _ _ _ => h) fun hres => ?_
    obtain ⟨k, updates⟩ := item
    -- the documents of the other items are as they were
    let K : Db → Prop := fun db' =>
      ∀ p ∈ items, ∀ b, db'.bytes c p.1 = some b → db.bytes c p.1 = some b
    have hK : ∀ db' db'', db'.Removes db'' → K db' → K db'' := fun _ _ hr hk p hp b hb =>
      hk p hp b (hr.bytes c p.1 b hb)
    have hupdate : wp (Db.update c k updates) (fun _ db' => I db' ∧ K db')
        (fun _ db' => I db' ∧ K db') db₁ := by
      refine Db.wp_update_keeps (fun _ _ hr h => ⟨hI _ _ hr h.1, hK _ _ hr h.2⟩)
        ⟨h, fun p hp => hsame p (List.mem_cons_of_mem _ hp)⟩ fun doc db₂ hdoc _ h₂ => ?_
      obtain ⟨b, hb, hdec⟩ := Option.bind_eq_some_iff.1 hdoc
      have hbefore : (db.bytes c k).bind msgpackToValue = some doc := by
        rw [hsame (k, updates) List.mem_cons_self b hb]
        exact hdec
      refine wp_mono (wp_and (hstore (k, updates) List.mem_cons_self hres doc db₂
        hbefore h₂.1) ((Operations.removes_mergeUpdate doc updates).keeps hK h₂.2))
        (fun newValue db₃ h₃ id => ?_) fun _ _ h => h
      refine wp_mono (wp_and (h₃.1 id) (wp_storeUpdate_mayStore c k id newValue db₃)) ?_ ?_
      all_goals
        rintro _ db₄ ⟨h₄, hstore⟩
        refine ⟨h₄, fun p hp b hb => h₃.2 p hp b ?_⟩
        rwa [(hstore.bytes c p.1).resolve_right fun hk =>
          hnodup.1 (List.mem_map.2 ⟨p, hp, hk.1.2⟩)] at hb
    refine wp_mono hupdate (fun found db' h' n => ?_) fun _ db' h' _ _ => h'.1
    exact ih hnodup.2 (fun p hp => hstore p (List.mem_cons_of_mem _ hp)) n h'.1 h'.2

/-- **An update keeps what removals keep**, if storing what it merges does. -/
theorem wp_processUpdate_keeps (hcol : (namedCollection payload).getD "default" = c)
    (hI : ∀ db db', db.Removes db' → I db → I db') {db : Db} (h : I db)
    (hstore : validateRequest payload maxBodySize maxKeysPerRequest = .ok () →
      ∀ data, payload.field .data = some (.obj data) → (data.map Prod.fst).Nodup ∧
        ∀ p ∈ data, hasReserved ["_v"] p.2 = false → ∀ doc db₁,
          (db.bytes c p.1).bind msgpackToValue = some doc → I db₁ →
          wp (Operations.mergeUpdate doc p.2) (fun newValue db₂ => ∀ id,
            wp (Operations.storeUpdate c p.1 id newValue) (fun _ => I) (fun _ => I) db₂)
            (fun _ => I) db₁) :
    wp (processUpdate payload maxBodySize maxKeysPerRequest) (fun _ => I) (fun _ => I) db := by
  refine wp_processUpdate hcol (fun _ _ => h) fun hvalid data hdata => ?_
  obtain ⟨hnodup, hitems⟩ := hstore hvalid data hdata
  exact wp_updateItems_keeps hI hnodup hitems 0 h fun _ _ _ hb => hb

end

/-! ## Runs -/

/-- A request of a client, a drop of a collection by the sweep, or a restart of the database on
    its log. -/
inductive ClientRequest
  | set (payload : Json)
  | update (payload : Json)
  | delete (payload : Json)
  | schema (payload : Json)
  | get (payload : Json)
  | drop (collection : String)
  | restart

/-- The payload that sets or updates one document of the collection `c`. -/
def oneDocPayload (key : String) (doc : Json) : Json :=
  .obj [("collection", .str "c"), ("data", .obj [(key, doc)])]

namespace ClientRequest

variable [Crates] [Lowercase] [FloatText] (maxBodySize maxKeysPerRequest : ℕ)

/-- The request, without its response. -/
def run : ClientRequest → Op Unit
  | set payload => do
    let _ ← processSet payload maxBodySize maxKeysPerRequest
  | update payload => do
    let _ ← processUpdate payload maxBodySize maxKeysPerRequest
  | delete payload => do
    let _ ← processDelete payload maxBodySize maxKeysPerRequest
  | schema payload => do
    let _ ← processSchema payload maxBodySize maxKeysPerRequest
  | get payload => do
    let _ ← processGet payload maxBodySize maxKeysPerRequest
  | drop c => Db.deleteCollection c
  | restart => do
    let db ← Eff.get
    Db.openOn (deliver db.log)

/-- The database after the request, whatever its outcome. -/
def next (db : Db) (r : ClientRequest) : Db := (r.run maxBodySize maxKeysPerRequest db).2

/-- **A request keeps what losses keep**, if sets, updates and restarts do. -/
theorem next_keeps {I : Db → Prop} (hI : ∀ db db', db.Loses db' → I db → I db') {db : Db} (h : I db)
    (r : ClientRequest)
    (hset : ∀ payload, r = .set payload →
      wp (processSet payload maxBodySize maxKeysPerRequest) (fun _ => I) (fun _ => I) db)
    (hupdate : ∀ payload, r = .update payload →
      wp (processUpdate payload maxBodySize maxKeysPerRequest) (fun _ => I) (fun _ => I) db)
    (hrestart : r = .restart → wp (Db.openOn (deliver db.log)) (fun _ => I) (fun _ => I) db) :
    I (next maxBodySize maxKeysPerRequest db r) := by
  refine wp_final (P := I) ?_
  cases r with
  | set payload =>
    simp only [run, wp_bind, wp_pure]
    exact hset payload rfl
  | update payload =>
    simp only [run, wp_bind, wp_pure]
    exact hupdate payload rfl
  | delete payload =>
    simp only [run, wp_bind, wp_pure]
    exact (loses_processDelete payload _ _).keeps hI h
  | schema payload =>
    simp only [run, wp_bind, wp_pure]
    exact (loses_processSchema payload _ _).keeps hI h
  | get payload =>
    simp only [run, wp_bind, wp_pure]
    exact (drew_processGet payload _ _).keeps (fun _ _ hd => hI _ _ hd.removes.loses) h
  | drop c => exact loses_deleteCollection.keeps hI h
  | restart =>
    simp only [run, wp_bind, wp_get]
    exact hrestart rfl

/-- **A request keeps what all documents have**, if the documents it may store have it: those of
    an accepted set, with or without stamps, and those that an accepted update merges. -/
theorem allDocs_next {P : Json → Prop} (hP : ∀ v, P v → v.Fits ∧ P v.canon) {db : Db}
    (h : db.AllDocs P) (r : ClientRequest)
    (hset : ∀ payload, r = .set payload →
      validateRequest payload maxBodySize maxKeysPerRequest = .ok () → ∀ doc ∈ setDocs payload,
        hasReserved [] (resolveExtends db doc) = false →
          ((resolveExtends db doc).isObject = false → P (resolveExtends db doc)) ∧
            ∀ ver created now seq, P (stampWith (resolveExtends db doc) ver created now seq))
    (hupdate : ∀ payload, r = .update payload →
      validateRequest payload maxBodySize maxKeysPerRequest = .ok () →
        ∀ data, payload.field .data = some (.obj data) → (data.map Prod.fst).Nodup ∧
          ∀ p ∈ data, ∀ docObj updateObj, (db.bytes ((namedCollection payload).getD "default")
            p.1).bind msgpackToValue = some (.obj docObj) → P (.obj docObj) →
              p.2 = .obj updateObj → ∀ now, P (merged docObj updateObj now))
    (hrestart : r = .restart → ∀ e ∈ db.log, e.Fits) :
    (next maxBodySize maxKeysPerRequest db r).AllDocs P := by
  -- what a stored document is decoded as
  have hdecoded : ∀ {c k : String} {doc : Json}, (db.bytes c k).bind msgpackToValue = some doc →
      P doc := by
    intro c k doc hdoc
    obtain ⟨b, hb, hdec⟩ := Option.bind_eq_some_iff.1 hdoc
    obtain ⟨v, rfl, hv⟩ := h.bytes _ _ b hb
    rw [msgpackToValue_valueToMsgpack (hP v hv).1] at hdec
    exact Option.some.inj hdec ▸ (hP v hv).2
  refine next_keeps _ _ (fun _ _ hl h => h.loses hl) h r ?_ ?_ ?_
  · rintro payload rfl
    refine wp_processSet_keeps (J := fun items db => db.AllDocs P ∧ ∀ item ∈ items,
        (item.2.isObject = false → P item.2) ∧
          ∀ ver created now seq, P (stampWith item.2 ver created now seq)) rfl
      (fun _ _ hr h => h.removes hr) (fun _ _ _ hr h => ⟨h.1.removes hr, h.2⟩) (fun _ _ h => h.1)
      (fun item items db h => ?_) h fun hok items db₁ _ h₁ hitems => ⟨h₁, fun item hitem => ?_⟩
    · obtain ⟨hplain, hstamped⟩ := h.2 item List.mem_cons_self
      refine wp_mono (h.1.wp_item _ fun now seq value hprep => ?_)
        (fun _ _ h' => ⟨h', fun item hitem => h.2 item (List.mem_cons_of_mem _ hitem)⟩)
        fun _ _ h => h
      cases hprep with
      | overwrite old => exact hstamped _ _ _ _
      | new => exact hstamped _ _ _ _
      | other _ hobj => exact hplain hobj
    · obtain ⟨doc, hdoc, heq, hfree⟩ := hitems.resolved item hitem
      rw [heq] at hfree ⊢
      exact hset payload rfl hok doc hdoc hfree
  · rintro payload rfl
    refine wp_processUpdate_keeps rfl (fun _ _ hr h => h.removes hr) h fun hok data hdata => ?_
    obtain ⟨hnodup, hmerged⟩ := hupdate payload rfl hok data hdata
    refine ⟨hnodup, fun p hp _ doc db₁ hdoc h₁ => ?_⟩
    refine wp_mergeUpdate (fun _ id => h₁.wp_storeUpdate _ _ id (hdecoded hdoc))
      (fun docObj updateObj hobj hupdates now n id => ?_) h₁
    have htick : db₁.Removes { db₁ with tick := n } := .of_same rfl rfl rfl rfl
    refine (h₁.removes htick).wp_storeUpdate _ _ id ?_
    exact hmerged p hp docObj updateObj (hobj ▸ hdoc) (hobj ▸ hdecoded hdoc) hupdates now
  · rintro rfl
    refine wp_mono (wp_openOn (E := fun _ => Db.AllDocs P)) (fun _ db' hopen => ?_) fun _ _ h => h
    obtain ⟨now, hopen⟩ := hopen
    exact h.opened (fun v hv => (hP v hv).2) (hrestart rfl) hopen

end ClientRequest

end MoltenDB
