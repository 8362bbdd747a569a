/-
  What a set copies of the documents that its token does not see.

  Documents are extended by documents of any collection.  So a token copies what it does not see
  exactly if its request is taken and extends such a document under a name that is not one of the
  stamps (`set_confined_iff`): a set that sees all that it works with cannot tell what else there is
  (`SetSeen.confined`), and one that does not leaves different bytes for a longer document.
-/
import MoltenDB.Proof.Extends
import MoltenDB.Server.Handlers

namespace MoltenDB

open Wire Prog Prog.Eff SystemFields LogCommand Operations

/-! ## What a token sees -/

/-- The token may read the document, or write its collection. -/
def Claims.sees (claims : Claims) (c k : String) : Bool :=
  claims.hasAccess ACTION_READ c k || claims.hasCollectionAccess ACTION_WRITE c

/-- The reference is to a document that the token sees, or comes to a field that stamping sets. -/
def Claims.SeesReference (claims : Claims) (p : String × Json) : Prop :=
  p.1 ∈ stampNames ∨ ∀ r ∈ p.2.asStr.bind cutAtDot, claims.sees r.1 r.2 = true

/-- The databases differ in documents that the token does not see at most. -/
structure Db.SameSeen (claims : Claims) (db db' : Db) : Prop where
  rest : db' = { db with state := db'.state }
  collections : ∀ c, (db'.col c).isSome = (db.col c).isSome
  seen : ∀ c k, claims.sees c k = true → db'.bytes c k = db.bytes c k

section

variable {claims : Claims} {db db' : Db} {c : String}

/-- A collection all of which the token sees. -/
theorem Db.SameSeen.sameIn (h : db.SameSeen claims db')
    (hc : ∀ k, claims.sees c k = true) : db.SameIn c db' := by
  refine ⟨db'.state, ?_, h.rest⟩
  have hcol := h.collections c
  have hbytes : ∀ k, db'.bytes c k = db.bytes c k := fun k => h.seen c k (hc k)
  simp only [Db.bytes] at hbytes
  unfold Db.col at hcol
  revert hcol hbytes
  cases db'.state[c]? with
  | none =>
    cases db.state[c]? with
    | none => exact fun _ _ => rfl
    | some col => exact fun hcol => by cases hcol
  | some col' =>
    cases db.state[c]? with
    | none => exact fun hcol => by cases hcol
    | some col => exact fun _ hbytes => congrArg some (Map.ext_get? hbytes)

theorem Db.referenced_eq (db : Db) (reference : Json) : db.referenced reference =
    (reference.asStr.bind cutAtDot).bind fun p => db.shown p.1 p.2 := by
  unfold Db.referenced
  congr 1
  funext p
  rw [Db.get_one]
  cases db.shown p.1 p.2 with
  | none => rfl
  | some v => simp

/-- **What the token sees is embedded alike.** -/
theorem Db.SameSeen.sameUnstamped (h : db.SameSeen claims db') {doc : Json} (hdoc : doc.Ordered)
    (hrefs : ∀ p ∈ references doc, claims.SeesReference p) :
    SameUnstamped (resolveExtends db doc) (resolveExtends db' doc) := by
  cases doc with
  | obj fs =>
    obtain ⟨gs, -, hgs, hresolve⟩ := exists_unextended fs
    rw [hresolve, hresolve]
    have hsorted := hgs (Json.ordered_obj.1 hdoc).1
    refine .obj _ _ (hsorted.insertAll _) (hsorted.insertAll _) fun key hkey => ?_
    rw [Fields.lookup_insertAll, Fields.lookup_insertAll]
    congr 1
    refine lookup_embedded_congr fun p hp hname => ?_
    have hsees := (hrefs p hp).resolve_left fun hmem => hkey (hname ▸ hmem)
    rw [Db.referenced_eq, Db.referenced_eq]
    cases hr : p.2.asStr.bind cutAtDot with
    | none => rfl
    | some r =>
      have hbytes := h.seen r.1 r.2 (hsees r hr)
      simp only [Option.bind_some, Db.shown, hbytes]
  | _ =>
    rw [resolveExtends_of_not_object rfl, resolveExtends_of_not_object rfl]
    exact .refl _

end

/-! ## The condition -/

section

variable [Crates] [FloatText] (claims : Claims) (payload : Json) (maxBodySize maxKeysPerRequest : ℕ)

/-- **The set copies nothing that the token does not see**: whatever that is, the request is answered
    with the same status and leaves the same documents in its collection. -/
def SetConfined : Prop :=
  ∀ db db' : Db, db.SameSeen claims db' → SameOutcome (setTarget payload)
    (handleSet claims payload maxBodySize maxKeysPerRequest db)
    (handleSet claims payload maxBodySize maxKeysPerRequest db')

/-- The request is allowed and valid, and none of its documents has a reserved name of its own. -/
structure SetTaken : Prop where
  scope : claims.hasCollectionAccess ACTION_WRITE ((namedCollection payload).getD "") = true
  valid : SetValid payload maxBodySize maxKeysPerRequest
  unreserved : ∀ doc ∈ setDocs payload, hasReserved [] (unextended doc) = false

/-- The token sees its collection and, if the request is taken, all that its documents extend. -/
structure SetSeen : Prop where
  target : ∀ k, claims.sees (setTarget payload) k = true
  extended : SetTaken claims payload maxBodySize maxKeysPerRequest →
    ∀ doc ∈ setDocs payload, ∀ p ∈ references doc, claims.SeesReference p

variable {claims payload maxBodySize maxKeysPerRequest}

omit [Crates] [FloatText] in
theorem hasReserved_resolveExtends {doc : Json} (h : hasReserved [] (unextended doc) = true)
    (db : Db) : hasReserved [] (resolveExtends db doc) = true := by
  cases doc with
  | obj fs =>
    obtain ⟨gs, hgs, -, hresolve⟩ := exists_unextended fs
    rw [hgs, hasReserved_obj] at h
    obtain ⟨key, hkey, hsome⟩ := h
    rw [hresolve, hasReserved_obj]
    refine ⟨key, hkey, ?_⟩
    rw [Fields.lookup_insertAll, Option.isSome_or, hsome, Bool.or_true]
  | _ => cases h

omit [Crates] [FloatText] in
/-- A document with a reserved name refuses all. -/
theorem refusesSet_of_reserved {doc : Json} (hdoc : doc ∈ setDocs payload)
    (h : hasReserved [] (unextended doc) = true) (db : Db) : db.refusesSet payload = true :=
  List.any_eq_true.2 ⟨doc, hdoc, hasReserved_resolveExtends h db⟩

omit [FloatText] [Crates] in
theorem isBatch_of_mem {doc : Json} (hdoc : doc ∈ setDocs payload) :
    isBatch (payload.field .data) = true := by
  unfold setDocs at hdoc
  split at hdoc
  · next h => simp only [isBatch, h]
  · next h => simp only [isBatch, h]
  · cases hdoc

omit [Crates] [FloatText] in
theorem ordered_setDocs (h : payload.Ordered) {doc : Json} (hdoc : doc ∈ setDocs payload) :
    doc.Ordered := by
  have hfield : ∀ data, payload.field .data = some data → data.Ordered := by
    intro data hdata
    cases payload with
    | obj fs => exact (Json.ordered_obj.1 h).2 _ (Fields.mem_of_lookup hdata)
    | _ => cases hdata
  unfold setDocs at hdoc
  split at hdoc
  · next data hdata =>
    obtain ⟨p, hp, rfl⟩ := List.mem_map.1 hdoc
    exact (Json.ordered_obj.1 (hfield _ hdata)).2 p hp
  · next data hdata => exact Json.ordered_arr.1 (hfield _ hdata) doc hdoc
  · cases hdoc

/-- **A set of a token that sees all that the set works with** copies nothing else. -/
theorem SetSeen.confined (h : SetSeen claims payload maxBodySize maxKeysPerRequest)
    (hordered : payload.Ordered) : SetConfined claims payload maxBodySize maxKeysPerRequest := by
  intro db db' hseen
  have hsame := hseen.sameIn h.target
  have hhandle : ∀ db, handleSet claims payload maxBodySize maxKeysPerRequest db =
      (if claims.hasCollectionAccess ACTION_WRITE ((namedCollection payload).getD "") then
        processSet payload maxBodySize maxKeysPerRequest
      else pure (requiresScope ACTION_WRITE ((namedCollection payload).getD "")) : Op Response) db :=
    fun _ => rfl
  rw [hhandle, hhandle]
  by_cases hscope :
      claims.hasCollectionAccess ACTION_WRITE ((namedCollection payload).getD "") = true
  · rw [if_pos hscope]
    by_cases hvalid : SetValid payload maxBodySize maxKeysPerRequest
    · rw [processSet_valid hvalid, processSet_valid hvalid]
      have hconf := hsame.configured (setTarget payload) payload
      by_cases hfree : ∀ doc ∈ setDocs payload, hasReserved [] (unextended doc) = false
      · refine sameOutcome_setData hconf fun doc hdoc => ?_
        rw [resolveExtends_congr (db.limited_configured _ payload).state,
          resolveExtends_congr (db'.limited_configured _ payload).state]
        exact hseen.sameUnstamped (ordered_setDocs hordered hdoc)
          (h.extended ⟨hscope, hvalid, hfree⟩ doc hdoc)
      · push Not at hfree
        obtain ⟨doc, hdoc, hres⟩ := hfree
        replace hres := Bool.ne_false_iff.1 hres
        have hrun := fun db => setData_run (c := setTarget payload) (isBatch_of_mem hdoc) db
        simp only [refusesSet_of_reserved hdoc hres, if_true] at hrun
        obtain ⟨n, hn⟩ := hrun (db.configured (setTarget payload) payload)
        obtain ⟨n', hn'⟩ := hrun (db'.configured (setTarget payload) payload)
        rw [hn, hn']
        exact ⟨rfl, hconf.bytes⟩
    · obtain ⟨r, hr⟩ := processSet_invalid hvalid
      obtain ⟨_, db₁, hrun, rfl, hstate⟩ := exists_of_wp (hr db)
      obtain ⟨_, db₁', hrun', rfl, hstate'⟩ := exists_of_wp (hr db')
      rw [hrun, hrun']
      refine ⟨rfl, fun k => ?_⟩
      rw [Db.bytes, Db.bytes, hstate, hstate']
      exact hsame.bytes k
  · rw [if_neg hscope]
    exact ⟨rfl, hsame.bytes⟩

end

/-! ## A set that stores its documents and fails -/

/-- A world in which only the write at the tick `f` fails. -/
def World.failing (f : ℕ) : World where
  clock _ := 0
  uuid n := String.ofList (List.replicate n 'x')
  fault n := if n = f then some .writeError else none
  order _ ks := ks
  order_perm _ _ := .refl _

section

variable {c : String} {db : Db} {f : ℕ} {Q : Unit → Db → Prop} {E : DbError → Db → Prop}

theorem wp_writeNew_failing (hworld : db.world = .failing f) (hf : db.tick + 1 ≠ f)
    {cmd key : String} {value : Json} (h : ∀ log, Q () { db with log := log, tick := db.tick + 2 }) :
    wp (writeNew cmd c key value) Q E db := by
  have hfault : db.world.fault (db.tick + 1) = none := by
    rw [hworld]
    exact if_neg hf
  have hlog := h (db.log ++ [⟨cmd, c, key, value, db.world.clock db.tick⟩])
  unfold writeNew
  rw [wp_bind]
  unfold wp nowMs writeEntry
  dsimp only
  rw [hfault]
  exact hlog

theorem wp_beginInsert_failing (hworld : db.world = .failing f) (hf : db.tick + 2 ≠ f)
    (hmode : db.ioFault = false) (hexp : db.ttlExpiry[c]? = none) :
    wp (Db.beginInsert c) (fun _ db' => db'.tick = db.tick + 3 ∧ db'.world = db.world ∧
      db'.schemas = db.schemas) (fun _ _ => False) db := by
  simp only [Db.beginInsert, Db.evictExpired, wp_bind]
  refine wp_checkFault_mode (fun _ => ?_) fun hfault => ?_
  · rw [wp_get, hexp]
    simp only [wp_pure, wp_modify]
    refine wp_newUuid_at (wp_writeNew_failing (f := f) ?_ ?_ fun _ => ⟨rfl, rfl, rfl⟩)
    · exact hworld
    · exact hf
  · rw [hmode] at hfault
    cases hfault

theorem wp_prepare_free (hschema : db.schemas[c]? = none) {existing : Option Json} {value : Json}
    {now seq : UInt64} {Q : Json → Db → Prop} (h : ∀ v, Q v db) :
    wp (prepare c existing value now seq) Q E db := by
  have hvalidate : ∀ doc v, wp (validateDocument c doc) (fun _ => Q v) E db := fun doc v => by
    refine wp_validateDocument_accepts (fun _ => h v) fun hreject => ?_
    rw [Db.accepts, hschema] at hreject
    cases hreject
  unfold prepare
  cases existing with
  | some old =>
    rw [wp_bind]
    exact hvalidate _ _
  | none =>
    dsimp only
    split_ifs
    · rw [wp_bind]
      exact hvalidate _ _
    · exact h _

/-- Without a schema, an item is stored in three ticks. -/
theorem wp_insertItem_failing (hworld : db.world = .failing f) (hf : db.tick + 2 ≠ f)
    (hschema : db.schemas[c]? = none) (item : String × Json) :
    wp (insertItem c item) (fun _ db' => db'.tick = db.tick + 3 ∧ db'.world = db.world ∧
      db'.schemas = db.schemas) (fun _ _ => False) db := by
  have hrest : ∀ (value : Json) (db₁ : Db), db₁.world = db.world → db₁.tick = db.tick + 1 →
      db₁.schemas = db.schemas → wp (do
        storeDoc c item.1 (valueToMsgpack value)
        indexInsert c ((fieldU64 value IKEY_SEQ).getD (db.seqCounters[c]?.getD 0)) item.1
        writeNew IKEY_INSERT c item.1 value
        send (insertEvent c item.1 value)) (fun _ db' => db'.tick = db.tick + 3 ∧
          db'.world = db.world ∧ db'.schemas = db.schemas) (fun _ _ => False) db₁ := by
    intro value db₁ hworld₁ htick₁ hschemas₁
    simp only [storeDoc, indexInsert, wp_bind, wp_modify, wp_send]
    refine wp_writeNew_failing (f := f) ?_ ?_ fun _ => ⟨?_, hworld₁, hschemas₁⟩
    · exact hworld₁.trans hworld
    · change db₁.tick + 1 ≠ f
      rwa [htick₁]
    · change db₁.tick + 2 = db.tick + 3
      rw [htick₁]
  simp only [insertItem, nextSeq, wp_bind, wp_get, wp_modify, wp_pure]
  refine wp_nowMs_at (wp_prepare_free ?_ fun value => ?_)
  · exact hschema
  · have h := hrest value { db with
      seqCounters := db.seqCounters.insert c (db.seqCounters[c]?.getD 0 + 1), tick := db.tick + 1 }
      rfl rfl rfl
    simpa only [wp_bind] using h

theorem wp_items_failing (items : List (String × Json)) (hworld : db.world = .failing f)
    (hf : db.tick + 3 * items.length ≤ f) (hschema : db.schemas[c]? = none) :
    wp (Eff.forEach (insertItem c) items) (fun _ db' => db'.tick = db.tick + 3 * items.length ∧
      db'.world = db.world) (fun _ _ => False) db := by
  induction items generalizing db with
  | nil => exact ⟨rfl, rfl⟩
  | cons item items ih =>
    rw [List.length_cons] at hf ⊢
    rw [Eff.forEach, wp_bind]
    refine wp_mono (wp_insertItem_failing hworld (by omega) hschema item) (fun _ db₁ h₁ => ?_)
      fun _ _ h => h
    obtain ⟨htick, hworld₁, hschemas⟩ := h₁
    refine wp_mono (ih (hworld₁.trans hworld) (by omega) (by rw [hschemas, hschema]))
      (fun _ db₂ h₂ => ?_) fun _ _ h => h
    exact ⟨by omega, h₂.2.trans hworld₁⟩

theorem wp_endInsert_failing [Crates] (hworld : db.world = .failing f) (hf : db.tick + 1 = f)
    (id : String) :
    wp (Db.endInsert c id) (fun _ _ => False)
      (fun e db' => e = .writeError ∧ db'.state = db.state) db := by
  have hfault : db.world.fault (db.tick + 1) = some .writeError := by
    rw [hworld]
    exact if_pos hf
  unfold Db.endInsert writeNew
  rw [wp_bind, wp_bind]
  refine wp_nowMs_at ?_
  unfold wp writeEntry
  dsimp only
  rw [hfault]
  exact ⟨rfl, rfl⟩

/-- **An insert may store its items and fail**, at the end of its transaction. -/
theorem wp_insert_failing [Crates] {k : String} (doc : Json) {items : List (String × Json)}
    (hworld : db.world = .failing f) (hf : db.tick + 3 + 3 * items.length + 1 = f)
    (hmode : db.ioFault = false) (hexp : db.ttlExpiry[c]? = none) (hschema : db.schemas[c]? = none)
    (hnodup : (items.map Prod.fst).Nodup) (hmem : (k, doc) ∈ items) (hobj : doc.isObject = true) :
    wp (Db.insert c items) (fun _ _ => False) (fun e db' => e = .writeError ∧
      (db'.bytes c k).isSome = true ∧ db'.HasStamped c k doc) db := by
  rw [Db.insert_eq, wp_bind]
  refine wp_mono (wp_beginInsert_failing hworld (by omega) hmode hexp) (fun id db₁ h₁ => ?_)
    fun _ _ h => h.elim
  obtain ⟨htick₁, hworld₁, hschemas₁⟩ := h₁
  rw [wp_bind]
  have hitems := wp_and (wp_items_failing (c := c) items (hworld₁.trans hworld) (by omega)
    (by rw [hschemas₁, hschema])) (wp_items_held hobj hnodup hmem db₁)
  refine wp_mono hitems (fun _ db₂ h₂ => ?_) fun _ _ h => h.1.elim
  obtain ⟨⟨htick₂, hworld₂⟩, hsome, hstamped, -⟩ := h₂
  refine wp_mono (wp_endInsert_failing ((hworld₂.trans hworld₁).trans hworld) (by omega) id)
    (fun _ _ h => h) fun e db₃ h₃ => ⟨h₃.1, ?_⟩
  have hbytes : ∀ k', db₃.bytes c k' = db₂.bytes c k' := fun k' => by rw [Db.bytes, Db.bytes, h₃.2]
  exact ⟨by rwa [hbytes], fun b hb => hstamped b (by rwa [← hbytes])⟩

end

/-! ## A document that is longer than another -/

theorem ordered_nested (n : ℕ) : (nested n).Ordered := by
  induction n with
  | zero => decide
  | succ n ih => exact Json.ordered_arr.2 fun x hx => List.mem_singleton.1 hx ▸ ih

theorem aliasFree_nested (n : ℕ) : (nested n).AliasFree := by
  induction n with
  | zero => decide
  | succ n ih => exact Json.aliasFree_arr.2 fun x hx => List.mem_singleton.1 hx ▸ ih

theorem fits_nested (n : ℕ) : (nested n).Fits := by
  induction n with
  | zero => decide
  | succ n ih => exact Json.fits_arr.2 ⟨by simp, fun x hx => List.mem_singleton.1 hx ▸ ih⟩

theorem lt_length_nested (n : ℕ) : n < (writeValue (nested n)).length := by
  induction n with
  | zero => decide
  | succ n ih =>
    have hheader : (writeArrayHeader 1).length = 1 := by decide
    simp only [nested, writeValue, writeItems, List.length_append, List.length_nil, List.length_cons,
      hheader]
    omega

/-- The bytes of an object are at least those of each of its fields. -/
theorem length_le_of_get {v x : Json} {key : String} (h : v.get key = some x) :
    (writeValue x).length ≤ (writeValue v).length := by
  cases v with
  | obj fs =>
    have hle := length_le_flatMap (f := writeField) (Fields.mem_of_lookup (Json.get_obj .. ▸ h))
    rw [writeField, List.length_append] at hle
    rw [writeValue, writeFields_eq, List.length_append]
    dsimp only at hle
    omega
  | _ => cases h

/-! ## The need for the condition -/

/-- A database with one collection. -/
def Db.holding (w : World) (c : String) (col : DashMap Bytes) : Db :=
  { Db.blank w 0 with state := (∅ : State).insert c col }

section

variable {w : World} {c : String}

theorem Db.bytes_holding (col : DashMap Bytes) (c' k : String) :
    (Db.holding w c col).bytes c' k = if c' = c then col[k]? else none := by
  simp only [Db.bytes, Db.holding, Map.get?_insert]
  split_ifs
  · rfl
  · simp

/-- Databases that hold different documents that the token does not see. -/
theorem sameSeen_holding {claims : Claims} (col col' : DashMap Bytes)
    (h : ∀ k, claims.sees c k = true → col'[k]? = col[k]?) :
    (Db.holding w c col).SameSeen claims (Db.holding w c col') := by
  refine ⟨rfl, fun c' => ?_, fun c' k hk => ?_⟩
  · simp only [Db.col, Db.holding, Map.get?_insert]
    split_ifs
    · rfl
    · rfl
  · rw [Db.bytes_holding, Db.bytes_holding]
    split_ifs with hc
    · exact h k (hc ▸ hk)
    · rfl

end

section

variable [Crates] [FloatText] {claims : Claims} {payload : Json} {maxBodySize maxKeysPerRequest : ℕ}

/-- In read-only mode a set changes no documents. -/
theorem handleSet_readOnly {db : Db} (hmode : db.ioFault = true) :
    (handleSet claims payload maxBodySize maxKeysPerRequest db).2.state = db.state := by
  refine wp_final (P := fun db' : Db => db'.state = db.state) ?_
  change wp (if _ then _ else _ : Op Response) _ _ db
  split_ifs
  · refine wp_processSet rfl (fun _ _ _ hlim => hlim.state) fun _ db₁ hlim => ?_
    have hmode₁ : db₁.ioFault = true := by
      obtain ⟨_, _, _, rfl⟩ := hlim
      exact hmode
    refine wp_setData (fun _ _ _ => hlim.state) fun items success _ => wp_insertItems ?_
    have hdrawn : (db₁.drawn (payload.field .data)).state = db.state ∧
        (db₁.drawn (payload.field .data)).ioFault = true := by
      unfold Db.drawn
      split <;> exact ⟨hlim.state, hmode₁⟩
    rw [Db.insert, wp_bind]
    refine wp_checkFault_mode (fun hno => ?_) fun _ _ => hdrawn.1
    rw [hdrawn.2] at hno
    cases hno
  · rfl

/-- **A token that does not see all of the collection** can tell. -/
theorem SetConfined.target (h : SetConfined claims payload maxBodySize maxKeysPerRequest)
    (k : String) : claims.sees (setTarget payload) k = true := by
  by_contra hk
  let ofCol (col : DashMap Bytes) : Db :=
    { Db.holding (.failing 0) (setTarget payload) col with ioFault := true }
  have hseen : (ofCol ∅).SameSeen claims (ofCol ((∅ : DashMap Bytes).insert k [])) := by
    obtain ⟨hrest, hcol, hbytes⟩ := sameSeen_holding (w := .failing 0) (c := setTarget payload) ∅
      ((∅ : DashMap Bytes).insert k []) fun k' (hk' : claims.sees (setTarget payload) k' = true) => by
        rw [Map.get?_insert, if_neg]
        rintro rfl
        exact hk hk'
    exact ⟨rfl, hcol, hbytes⟩
  have hsame := (h _ _ hseen).2 k
  rw [Db.bytes, handleSet_readOnly rfl, Db.bytes, handleSet_readOnly rfl] at hsame
  simp [ofCol, Db.holding] at hsame

omit [Crates] [FloatText] in
theorem nodup_setKeys (hordered : payload.Ordered) (f n : ℕ) :
    (setKeys (.failing f) n (payload.field .data)).Nodup := by
  cases hfield : payload.field .data with
  | none => exact List.nodup_nil
  | some data =>
    cases data with
    | obj dataMap =>
      have hdata : (Json.obj dataMap).Ordered := by
        cases payload with
        | obj fs => exact (Json.ordered_obj.1 hordered).2 _ (Fields.mem_of_lookup hfield)
        | _ => cases hfield
      exact (Json.ordered_obj.1 hdata).1.nodup_keys
    | arr dataArr =>
      refine List.Nodup.map (fun a b hab => ?_) (List.nodup_range' ..)
      have hlist : List.replicate a 'x' = List.replicate b 'x' := String.ofList_injective hab
      simpa using congrArg List.length hlist
    | _ => exact List.nodup_nil

omit [Crates] [FloatText] in
theorem length_setKeys (w : World) (n : ℕ) (payload : Json) :
    (setKeys w n (payload.field .data)).length = (setDocs payload).length := by
  unfold setDocs
  split
  · next h => simp [h, setKeys]
  · next h => simp [h, setKeys]
  · next hmap harr =>
    cases hfield : payload.field .data with
    | none => rfl
    | some data =>
      cases data with
      | obj dataMap => exact absurd hfield (hmap dataMap)
      | arr dataArr => exact absurd hfield (harr dataArr)
      | _ => rfl

omit [Crates] [FloatText] in
/-- What is embedded under the name of a reference. -/
theorem lookup_embedded {db : Db} {refs : List (String × Json)} (hrefs : Fields.Sorted refs)
    {p : String × Json} (hp : p ∈ refs) {v : Json} (hv : db.referenced p.2 = some v) :
    (db.embedded refs).reverse.lookup p.1 = some v := by
  have hmem : (p.1, v) ∈ (db.embedded refs).reverse :=
    List.mem_reverse.2 (List.mem_filterMap.2 ⟨p, hp, by rw [hv]; rfl⟩)
  have hsome : ((db.embedded refs).reverse.lookup p.1).isSome = true :=
    List.lookup_isSome_iff.2 ⟨_, hmem, by simp⟩
  obtain ⟨v', hv'⟩ := Option.isSome_iff_exists.1 hsome
  obtain ⟨q, hq, hqv⟩ := List.mem_filterMap.1 (List.mem_reverse.1 (Fields.mem_of_lookup hv'))
  obtain ⟨w, hw, heq⟩ := Option.map_eq_some_iff.1 hqv
  obtain ⟨hname, rfl⟩ := Prod.mk.inj heq
  obtain rfl := List.inj_on_of_nodup_map hrefs.nodup_keys hq hp hname
  rw [hv', ← hw, hv]

/-- The tick of the last write of a set in a world that has just begun. -/
def lastWrite (payload : Json) : ℕ :=
  ((Db.blank (.failing 0) 0).drawn (payload.field .data)).tick + 3 +
    3 * (setDocs payload).length + 1

omit [Crates] [FloatText] in
theorem ttlExpiry_configured {db : Db} (h : db.ttlExpiry = ∅) (c c' : String) :
    (db.configured c' payload).ttlExpiry[c]? = none := by
  unfold Db.configured Db.withTtlOf Db.withTtlDefault
  cases ttlSet payload with
  | none => cases maxSizeSet payload <;> simp [h]
  | some secs =>
    cases maxSizeSet payload <;> simp only [Option.elim_some, Option.elim_none] <;> split_ifs <;>
      simp [h]

/-- **A set that is taken** is refused for what it extends, or stores its documents. -/
theorem wp_handleSet_holding (hordered : payload.Ordered)
    (htaken : SetTaken claims payload maxBodySize maxKeysPerRequest) {k : String} {doc : Json}
    (hdoc : (k, doc) ∈ (setKeys (.failing (lastWrite payload)) 0 (payload.field .data)).zip
      (setDocs payload)) {db : Db} (hobj : (resolveExtends db doc).isObject = true)
    (hdb : ∃ c col, db = .holding (.failing (lastWrite payload)) c col) :
    wp (handleSet claims payload maxBodySize maxKeysPerRequest) (fun r db' =>
      if db.refusesSet payload then r.1 = 400
      else r.1 = 500 ∧ (db'.bytes (setTarget payload) k).isSome = true ∧
        db'.HasStamped (setTarget payload) k (resolveExtends db doc)) (fun _ _ => False) db := by
  have hbatch := isBatch_of_mem (List.of_mem_zip hdoc).2
  have hstate := (db.limited_configured (setTarget payload) payload).state
  -- what the request registers matters to none of this
  obtain ⟨hworld, htick, hmode, hschemas, hexp⟩ :
      (db.configured (setTarget payload) payload).world = .failing (lastWrite payload) ∧
      (db.configured (setTarget payload) payload).tick = 0 ∧
      (db.configured (setTarget payload) payload).ioFault = false ∧
      (db.configured (setTarget payload) payload).schemas = ∅ ∧
      (db.configured (setTarget payload) payload).ttlExpiry[setTarget payload]? = none := by
    obtain ⟨c, col, rfl⟩ := hdb
    have hexp : ((Db.holding (.failing (lastWrite payload)) c col).configured (setTarget payload)
        payload).ttlExpiry[setTarget payload]? = none := ttlExpiry_configured rfl _ _
    obtain ⟨_, _, _, heq⟩ := Db.limited_configured (.holding (.failing (lastWrite payload)) c col)
      (setTarget payload) payload
    rw [heq] at hexp ⊢
    exact ⟨rfl, rfl, rfl, rfl, hexp⟩
  have hrefuses : (db.configured (setTarget payload) payload).refusesSet payload =
      db.refusesSet payload := by
    unfold Db.refusesSet
    simp only [resolveExtends_congr hstate]
  have hitems : (db.configured (setTarget payload) payload).setItems payload =
      ((setKeys (.failing (lastWrite payload)) 0 (payload.field .data)).zip
        (setDocs payload)).map fun p => (p.1, resolveExtends db p.2) := by
    unfold Db.setItems
    rw [hworld, htick]
    simp only [resolveExtends_congr hstate]
  have hhandle : handleSet claims payload maxBodySize maxKeysPerRequest db =
      setData (setTarget payload) (payload.field .data)
        (db.configured (setTarget payload) payload) := by
    rw [← processSet_valid htaken.valid]
    change (if _ then _ else _ : Op Response) db = _
    rw [if_pos htaken.scope]
  refine wp_of_eq hhandle ?_
  have hrun := setData_run (c := setTarget payload) hbatch
    (db.configured (setTarget payload) payload)
  rw [hrefuses] at hrun
  split_ifs at hrun ⊢ with hrefused
  · obtain ⟨n, hrun⟩ := hrun
    exact wp_of_run hrun rfl
  · refine wp_of_eq hrun (wp_insertItems ?_)
    rw [hitems]
    obtain ⟨n, hn, hdrawn⟩ : ∃ n, ((Db.blank (.failing 0) 0).drawn (payload.field .data)).tick = n ∧
        (db.configured (setTarget payload) payload).drawn (payload.field .data) =
          { db.configured (setTarget payload) payload with tick := n } := by
      unfold Db.drawn
      split
      · refine ⟨_, rfl, ?_⟩
        rw [htick]
        rfl
      · exact ⟨0, rfl, by rw [← htick]⟩
    have hlen := length_setKeys (.failing (lastWrite payload)) 0 payload
    rw [hdrawn]
    refine wp_mono (wp_insert_failing (f := lastWrite payload) (k := k)
      (resolveExtends db doc) ?_ ?_ ?_ ?_ ?_ ?_ ?_ hobj) (fun _ _ h => h.elim)
      fun e db' h => ⟨by rw [h.1]; rfl, h.2⟩
    · exact hworld
    · rw [List.length_map, List.length_zip, hlen, Nat.min_self, lastWrite, hn]
    · exact hmode
    · exact hexp
    · rw [hschemas]
      simp
    · rw [List.map_map]
      refine List.Nodup.sublist ?_ (nodup_setKeys hordered (lastWrite payload) 0)
      rw [show (Prod.fst ∘ fun p : String × Json => (p.1, resolveExtends db p.2)) = Prod.fst from rfl,
        List.map_fst_zip hlen.le]
    · exact List.mem_map.2 ⟨_, hdoc, rfl⟩

omit [Crates] [FloatText] in
/-- With nothing to refer to, references come to nothing. -/
theorem resolveExtends_of_empty {w : World} {c : String} (doc : Json) :
    resolveExtends (.holding w c ∅) doc = unextended doc := by
  have hnone : ∀ reference, (Db.holding w c ∅).referenced reference = none := by
    intro reference
    rw [Db.referenced_eq]
    cases reference.asStr.bind cutAtDot with
    | none => rfl
    | some r =>
      have hbytes : (Db.holding w c ∅).bytes r.1 r.2 = none := by
        rw [Db.bytes_holding]
        split_ifs <;> simp
      simp only [Option.bind_some, Db.shown, hbytes, Option.bind_none, Option.map_none]
  have hembedded : ∀ refs, (Db.holding w c ∅).embedded refs = [] := fun refs => by
    simp [Db.embedded, hnone]
  cases doc with
  | obj fs =>
    obtain ⟨gs, hgs, -, hresolve⟩ := exists_unextended fs
    rw [hresolve, hgs, hembedded]
    rfl
  | _ => rw [resolveExtends_of_not_object rfl]; rfl

/-- **A reference to a document that the token does not see** copies it. -/
theorem SetConfined.sees (hordered : payload.Ordered)
    (h : SetConfined claims payload maxBodySize maxKeysPerRequest)
    (htaken : SetTaken claims payload maxBodySize maxKeysPerRequest) {doc : Json}
    (hdoc : doc ∈ setDocs payload) {p : String × Json} (hp : p ∈ references doc) :
    claims.SeesReference p := by
  by_contra hnot
  unfold Claims.SeesReference at hnot
  push Not at hnot
  obtain ⟨hname, r, hr, hsees⟩ := hnot
  -- the document is an object with references under different names
  obtain ⟨fs, refs, rfl, hext, hrefs⟩ : ∃ fs refs, doc = .obj fs ∧
      references (.obj fs) = refs ∧ Fields.Sorted refs := by
    cases doc with
    | obj fs =>
      refine ⟨fs, _, rfl, rfl, ?_⟩
      have hfs := Json.ordered_obj.1 (ordered_setDocs hordered hdoc)
      unfold references
      rw [Json.get_obj]
      cases hlook : fs.lookup "extends" with
      | none => exact List.Pairwise.nil
      | some v =>
        have hv := hfs.2 _ (Fields.mem_of_lookup hlook)
        cases v with
        | obj refs => exact (Json.ordered_obj.1 hv).1
        | _ => exact List.Pairwise.nil
    | _ => cases hp
  rw [hext] at hp
  obtain ⟨gs, hgs, -, hresolve⟩ := exists_unextended fs
  rw [hext] at hresolve
  obtain ⟨k, hk⟩ : ∃ k, (k, Json.obj fs) ∈
      (setKeys (.failing (lastWrite payload)) 0 (payload.field .data)).zip (setDocs payload) := by
    have hlen := length_setKeys (.failing (lastWrite payload)) 0 payload
    rw [← List.map_snd_zip hlen.ge] at hdoc
    obtain ⟨⟨k, doc⟩, hk, rfl⟩ := List.mem_map.1 hdoc
    exact ⟨k, hk⟩
  have hobj : ∀ db, (resolveExtends db (.obj fs)).isObject = true := fun db => by
    rw [hresolve]
    rfl
  have hrun := fun col => wp_handleSet_holding hordered htaken hk
    (hobj (.holding (.failing (lastWrite payload)) r.1 col)) ⟨r.1, col, rfl⟩
  -- without the document, the set stores some bytes
  have htakes : (Db.holding (.failing (lastWrite payload)) r.1 ∅).refusesSet payload = false := by
    unfold Db.refusesSet
    rw [List.any_eq_false]
    intro doc' hdoc'
    rw [resolveExtends_of_empty, htaken.unreserved doc' hdoc']
    exact Bool.false_ne_true
  obtain ⟨resp, db', hempty, hout⟩ := exists_of_wp (hrun ∅)
  rw [htakes, if_neg Bool.false_ne_true] at hout
  obtain ⟨hstatus, hsome, -⟩ := hout
  obtain ⟨b, hb⟩ := Option.isSome_iff_exists.1 hsome
  -- with one that is longer than they are, it cannot store the same
  let col : DashMap Bytes := (∅ : DashMap Bytes).insert r.2 (valueToMsgpack (nested b.length))
  obtain ⟨resp', db'', hfull, hout'⟩ := exists_of_wp (hrun col)
  have hsame := h _ _ (sameSeen_holding (w := .failing (lastWrite payload)) (c := r.1) ∅ col
    fun k' hk' => by
      rw [Map.get?_insert, if_neg]
      rintro rfl
      exact hsees hk')
  rw [hempty, hfull] at hsame
  obtain ⟨hsameStatus, hsameBytes⟩ := hsame
  have hstatus' : resp'.1 = 500 := (Except.ok.inj hsameStatus).symm.trans hstatus
  split_ifs at hout' with hrefused
  · rw [hstatus'] at hout'
    cases hout'
  · obtain ⟨ver, created, now, seq, hbytes⟩ := hout'.2.2 b (by rw [← hsameBytes k, hb])
    have href : (Db.holding (.failing (lastWrite payload)) r.1 col).referenced p.2 =
        some (nested b.length) := by
      rw [Db.referenced_eq, show p.2.asStr.bind cutAtDot = some r from hr]
      simp only [Option.bind_some, Db.shown, Db.bytes_holding, if_true]
      rw [Map.get?_insert, if_pos rfl, Option.bind_some,
        msgpackToValue_valueToMsgpack (fits_nested _), Option.map_some]
      exact congrArg some (Json.shown_eq_self (ordered_nested _) (aliasFree_nested _))
    rw [hresolve] at hbytes
    have hlook : (stampWith (.obj (Fields.insertAll ((Db.holding (.failing (lastWrite payload)) r.1
        col).embedded refs) gs)) ver created now seq).get p.1 = some (nested b.length) := by
      simp only [stampNames, List.mem_cons, List.not_mem_nil, or_false, not_or] at hname
      rw [get_stampWith, if_neg hname.2.2.2, if_neg hname.2.2.1, if_neg hname.2.1, if_neg hname.1,
        Fields.lookup_insertAll, lookup_embedded hrefs hp href, Option.some_or]
    have hle := length_le_of_get hlook
    rw [← show b = writeValue _ from hbytes] at hle
    have hlt := lt_length_nested b.length
    omega

/-- **A set copies nothing that the token does not see** exactly if the token sees its collection
    and, unless the request is refused, all documents that its data extend but under the names of
    stamps. -/
theorem set_confined_iff (claims : Claims) (payload : Json) (maxBodySize maxKeysPerRequest : ℕ)
    (hordered : payload.Ordered) : SetConfined claims payload maxBodySize maxKeysPerRequest ↔
      SetSeen claims payload maxBodySize maxKeysPerRequest :=
  ⟨fun h => ⟨h.target, fun htaken _ hdoc _ hp => h.sees hordered htaken hdoc hp⟩,
    fun h => h.confined hordered⟩

end

section

/-- The claims of a token for the collection `a`. -/
def tokenOfA : Claims := ⟨"client", 0, ["read:a:*", "write:a:*"], "jti"⟩

/-- A set of a document of the collection `a` that extends one of the collection `secret`. -/
def copyRequest : Json :=
  .obj [("collection", .str "a"),
    ("data", .obj [("k", .obj [("extends", .obj [("x", .str "secret.s")])])])]

theorem set_confined_iff_copy :
    letI := Crates.plain
    letI := FloatText.plain
    SetConfined tokenOfA copyRequest 1000 10 ↔ SetSeen tokenOfA copyRequest 1000 10 := by
  let _ := Crates.plain
  let _ := FloatText.plain
  exact set_confined_iff tokenOfA copyRequest 1000 10 (by decide)

/-- **A token copies what it may not read.** -/
theorem unseen_copied :
    letI := Crates.plain
    letI := FloatText.plain
    tokenOfA.isAdmin = false ∧ ¬ SetConfined tokenOfA copyRequest 1000 10 := by
  let _ := Crates.plain
  let _ := FloatText.plain
  refine ⟨by decide, fun h => ?_⟩
  let holdingPin (pin : UInt64) : Db := .holding (.plain 1000 []) "secret"
    ((∅ : DashMap Bytes).insert "s" (valueToMsgpack (.obj [("pin", .ofU64 pin)])))
  have hseen : (holdingPin 1).SameSeen tokenOfA (holdingPin 2) := by
    refine sameSeen_holding _ _ fun k hk => ?_
    rw [Map.get?_insert, Map.get?_insert, if_neg, if_neg]
    all_goals
      rintro rfl
      exact absurd hk (by decide)
  have hsame := (h (holdingPin 1) (holdingPin 2) hseen).2 "k"
  revert hsame
  decide +kernel

end

end MoltenDB
