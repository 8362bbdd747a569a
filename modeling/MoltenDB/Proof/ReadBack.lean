/-
  What is stored is what is read, but for fields with the alias of a system field as their name.

  A document that a client sets under a key is stored with its stamps (`wp_dbInsert_held`), and
  the query for that key returns what is seen of it: the document with `_v` set, exactly if no
  object in it, at any depth, has a field with such a name (`keyShape_stamped_iff`).
-/
import MoltenDB.Common.Aliases
import MoltenDB.Engine.Items
import MoltenDB.Engine.Settings
import MoltenDB.Handlers.Requests
import MoltenDB.Handlers.SingleKey
import MoltenDB.Proof.Enforcement

namespace MoltenDB

open Wire Prog Prog.Eff SystemFields LogCommand Operations

/-! ## What is returned of a stamped document -/

theorem sorted_erase {k : String} {fs : List (String × Json)} (h : Fields.Sorted fs) :
    Fields.Sorted (Fields.erase k fs) := h.filter _

section

variable {fs : List (String × Json)} (ver created now seq : UInt64)

/-- The fields of a stamped object. -/
theorem get_stampWith (key : String) :
    (stampWith (.obj fs) ver created now seq).get key =
      if key = IKEY_SEQ then some (.ofU64 seq) else if key = IKEY_MODIFIED_AT then some (.ofU64 now)
      else if key = IKEY_CREATED_AT then some (.ofU64 created)
      else if key = IKEY_VERSION then some (.ofU64 ver) else fs.lookup key := by
  rw [stampWith, Json.get_set (by simp [Json.isObject]), Json.get_set (by simp [Json.isObject]),
    Json.get_set (by simp [Json.isObject]), Json.get_set rfl, Json.get_obj]

/-- **A client sees its own fields of a stamped object**, as they are seen when stored. -/
theorem get_shown_stampWith (hfs : Fields.Sorted fs) {key : String}
    (hkey : key ∉ publicNames ++ aliases) :
    (stampWith (.obj fs) ver created now seq).shown.get key = (fs.lookup key).map Json.shown := by
  rw [List.mem_append, not_or] at hkey
  have hnone : tokenOf key = none :=
    (name_cases key).resolve_right fun h => (List.mem_append.1 h).elim hkey.1 hkey.2
  have hget : (stampWith (.obj fs) ver created now seq).get key = _ :=
    get_stampWith ver created now seq key
  have hne := hkey.2
  simp only [aliases, List.mem_cons, List.not_mem_nil, or_false, not_or] at hne
  rw [if_neg hne.2.2.1, if_neg hne.2.2.2.2.1, if_neg hne.2.2.2.1, if_neg hne.1] at hget
  have hshown : (stampWith (.obj fs) ver created now seq).shown.get key = _ :=
    Json.get_shown ((((hfs.insert _ _).insert _ _).insert _ _).insert _ _) hkey.2
  rw [internalName_of_none hnone, Option.or_self] at hshown
  exact hshown.trans (congrArg (Option.map Json.shown) hget)

/-- The version of a stamped object. -/
theorem get_version_stampWith (hfs : Fields.Sorted fs) (h : hasReserved [] (.obj fs) = false) :
    (stampWith (.obj fs) ver created now seq).shown.get VERSION = some (.ofU64 ver) := by
  have hpub : (stampWith (.obj fs) ver created now seq).get VERSION = _ :=
    get_stampWith ver created now seq VERSION
  have hint : (stampWith (.obj fs) ver created now seq).get IKEY_VERSION = _ :=
    get_stampWith ver created now seq IKEY_VERSION
  have hshown : (stampWith (.obj fs) ver created now seq).shown.get VERSION = _ :=
    Json.get_shown ((((hfs.insert _ _).insert _ _).insert _ _).insert _ _) (by decide)
  have hname : internalName VERSION = IKEY_VERSION := rfl
  rw [lookup_public h (by decide) List.not_mem_nil] at hpub
  rw [hname] at hshown
  refine hshown.trans ?_
  change Option.map Json.shown (((stampWith (.obj fs) ver created now seq).get VERSION).or
    ((stampWith (.obj fs) ver created now seq).get IKEY_VERSION)) = _
  rw [hpub, hint]
  rfl

end

section

variable {payload : Json} {c k : String}

/-- The query asks for nothing but the key. -/
structure BareQuery (payload : Json) (c k : String) : Prop extends KeyQuery payload c k where
  bare : payload.field .fields = none ∧ payload.field .excludedFields = none

/-- A document in the shape that a bare query returns. -/
theorem BareQuery.lookup (h : BareQuery payload c k) (db : Db) {doc : Json} {v : Json}
    (hobj : doc.isObject = true) (hver : doc.get VERSION = some v) :
    ∃ out, keyShape db payload c k doc = .obj out ∧
      (∀ fs, doc = .obj fs → Fields.Sorted fs → Fields.Sorted out) ∧
      ∀ key, out.lookup key =
        if key = VERSION then some v
        else if key ∈ publicNames then none else doc.get key := by
  obtain ⟨es, rfl⟩ : ∃ es, doc = .obj es := by cases doc <;> simp_all [Json.isObject]
  have hshape : keyShape db payload c k (.obj es) = .obj (Fields.erase KEY (Fields.insert KEY
      (.str k) (Fields.insert VERSION v (Fields.erase EXPIRES_AT (Fields.erase MODIFIED_AT
        (Fields.erase CREATED_AT (Fields.erase SEQ es))))))) := by
    simp only [keyShape, GetParams.shape, keyParams, h.bare.1, h.bare.2, Option.bind_none, shapeDoc,
      stripMetadata, hver, Json.set_obj]
  refine ⟨_, hshape, fun fs hfs hs => ?_, fun key => ?_⟩
  · obtain rfl := Json.obj.inj hfs
    exact sorted_erase ((sorted_erase (sorted_erase (sorted_erase (sorted_erase hs)))).insert _ _
      |>.insert _ _)
  · simp only [Fields.lookup_erase, Fields.lookup_insert, Json.get_obj]
    by_cases hv : key = VERSION
    · subst hv
      simp [VERSION, KEY]
    by_cases hpub : key ∈ publicNames
    · rw [if_neg hv, if_pos hpub]
      simp only [publicNames, List.mem_cons, List.not_mem_nil, or_false] at hpub
      rcases hpub with rfl | rfl | rfl | rfl | rfl | rfl
      · exact absurd rfl hv
      · rfl
      · rfl
      · rfl
      · rfl
      · rfl
    · rw [if_neg hv, if_neg hpub]
      simp only [publicNames, List.mem_cons, List.not_mem_nil, or_false, not_or] at hpub
      simp [hpub]

/-- **What a query returns of a stamped document** is the document with `_v` set, exactly if no
    object in it has a field with the alias of a system field as its name. -/
theorem keyShape_stamped_iff (h : BareQuery payload c k) (db : Db) {doc : Json}
    (hobj : doc.isObject = true) (ho : doc.Ordered) (hres : hasReserved [] doc = false)
    (ver created now seq : UInt64) :
    (∃ v : UInt64, keyShape db payload c k (stampWith doc ver created now seq).shown =
      doc.set VERSION (.ofU64 v)) ↔ doc.AliasFree := by
  obtain ⟨fs, rfl⟩ : ∃ fs, doc = .obj fs := by cases doc <;> simp_all [Json.isObject]
  rw [Json.ordered_obj] at ho
  have hver := get_version_stampWith ver created now seq ho.1 hres
  obtain ⟨gs, hgs⟩ : ∃ gs, (stampWith (.obj fs) ver created now seq).shown = .obj gs := ⟨_, rfl⟩
  obtain ⟨out, hshape, hsorted, hlookup⟩ := h.lookup db (by rw [hgs]; rfl) hver
  rw [hshape]
  constructor
  · rintro ⟨v, heq⟩
    have hout : out = Fields.insert VERSION (.ofU64 v) fs := Json.obj.inj heq
    have hfree : (Json.obj gs).AliasFree := by
      rw [← hgs]
      exact Json.aliasFree_expand _
    rw [Json.aliasFree_obj] at hfree ⊢
    intro p hp
    have hpv : p.1 ≠ VERSION := fun hpv => List.not_mem_nil (not_reserved hres hp (hpv ▸ by decide))
    have hlook : out.lookup p.1 = some p.2 := by
      rw [hout, Fields.lookup_insert, if_neg hpv]
      exact Fields.lookup_of_mem ho.1.nodup_keys hp
    rw [hlookup, if_neg hpv, if_neg fun hpub => List.not_mem_nil (not_reserved hres hp hpub), hgs]
      at hlook
    exact hfree _ (Fields.mem_of_lookup hlook)
  · intro hfree
    refine ⟨ver, ?_⟩
    rw [Json.set_obj]
    congr 1
    have hgsorted : Fields.Sorted gs := by
      rw [← Json.obj.inj hgs]
      exact Fields.Sorted.insertAll List.Pairwise.nil _
    refine Fields.Sorted.ext (hsorted gs hgs hgsorted) (ho.1.insert _ _) fun key => ?_
    rw [hlookup, Fields.lookup_insert]
    split_ifs with hv hpub
    · rfl
    · exact (lookup_public hres hpub List.not_mem_nil).symm
    · by_cases halias : key ∈ aliases
      · rw [Json.get_shown_alias _ halias, eq_comm, List.lookup_eq_none_iff]
        refine fun p hp => bne_iff_ne.2 ?_
        rintro rfl
        exact (Json.aliasFree_obj.1 hfree p hp).1 halias
      · rw [get_shown_stampWith ver created now seq ho.1 fun hmem =>
          (List.mem_append.1 hmem).elim hpub halias]
        cases hl : fs.lookup key with
        | none => rfl
        | some x =>
          have hmem := Fields.mem_of_lookup hl
          rw [Option.map_some, Json.shown_eq_self (ho.2 _ hmem) (Json.aliasFree_obj.1 hfree _ hmem).2]

end

/-! ## What an insert leaves under a key -/

/-- What is stored under the key, if anything, is the stamped document. -/
def Db.HasStamped (db : Db) (c k : String) (doc : Json) : Prop :=
  ∀ b, db.bytes c k = some b →
    ∃ ver created now seq, b = valueToMsgpack (stampWith doc ver created now seq)

section

variable {c k : String} {doc : Json}

theorem Db.ItemStored.bytes {db db' : Db} {item : String × Json} {value : Json}
    (h : db.ItemStored c item value db') (k' : String) :
    db'.bytes c k' = if k' = item.1 then some (valueToMsgpack value) else db.bytes c k' := by
  have hput := bytes_put db.state c item.1 c k' (valueToMsgpack value)
  rw [← h.state] at hput
  simp only [true_and] at hput
  exact hput

/-- **The items of a batch**, one of which is the document, store it stamped. -/
theorem wp_items_held (hobj : doc.isObject = true) {items : List (String × Json)}
    (hnodup : (items.map Prod.fst).Nodup) (hmem : (k, doc) ∈ items) (db : Db) :
    wp (Eff.forEach (insertItem c) items)
      (fun _ db' => (db'.bytes c k).isSome = true ∧ db'.HasStamped c k doc ∧ db.SameSettings db' ∧
        ∀ k' b, db'.bytes c k' = some b → k' ∈ db.keys c ++ items.map Prod.fst)
      (fun _ _ => True) db := by
  -- the document is still to come, or stored
  let J : List (String × Json) → Db → Prop := fun rest db' =>
    (rest.map Prod.fst).Nodup ∧ rest ⊆ items ∧ db.SameSettings db' ∧
      ((k, doc) ∈ rest ∨ k ∉ rest.map Prod.fst ∧ (db'.bytes c k).isSome = true ∧
        db'.HasStamped c k doc) ∧
      ∀ k' b, db'.bytes c k' = some b → k' ∈ db.keys c ++ items.map Prod.fst
  have hstart : J items db := by
    refine ⟨hnodup, List.Subset.refl _, .refl db, Or.inl hmem, fun k' b hb => ?_⟩
    exact List.mem_append_left _ (Db.mem_keys.2 ⟨b, hb⟩)
  refine wp_mono (wp_forEach J (fun item rest db₁ h₁ => ?_) items db hstart) (fun _ db₂ h₂ => ?_)
    fun _ _ h => h
  · obtain ⟨hnd, hsub, hset, hk, hkeys⟩ := h₁
    rw [List.map_cons, List.nodup_cons] at hnd
    refine wp_mono (wp_insertItem c item db₁) (fun _ db₂ h₂ => ?_) fun _ _ _ => trivial
    obtain ⟨now, value, hprep, hs⟩ := h₂
    refine ⟨hnd.2, fun p hp => hsub (List.mem_cons_of_mem _ hp),
      hset.trans ⟨hs.ttlDefaults, hs.maxSizes⟩, ?_, fun k' b hb => ?_⟩
    · by_cases hkey : item.1 = k
      · have hitem : item = (k, doc) := by
          rcases hk with hin | ⟨hnot, -⟩
          · rcases List.mem_cons.1 hin with heq | hin
            · exact heq.symm
            · exact absurd (hkey ▸ List.mem_map_of_mem hin) hnd.1
          · exact absurd (by simp [hkey]) hnot
        refine Or.inr ⟨hkey ▸ hnd.1, ?_, fun b hb => ?_⟩
        · rw [hs.bytes, if_pos hkey.symm]
          rfl
        · rw [hs.bytes, if_pos hkey.symm] at hb
          obtain ⟨ver, created, seq', rfl⟩ := hprep.stamped (by rw [hitem]; exact hobj)
          exact ⟨ver, created, now, seq', by rw [← Option.some.inj hb, hitem]⟩
      · have hsame : db₂.bytes c k = db₁.bytes c k := by rw [hs.bytes, if_neg (Ne.symm hkey)]
        rcases hk with hin | ⟨hnot, hsome, hstamped⟩
        · refine Or.inl ((List.mem_cons.1 hin).resolve_left fun heq => hkey ?_)
          rw [← heq]
        · refine Or.inr ⟨fun hin => hnot (List.mem_cons_of_mem _ hin), hsame ▸ hsome, fun b hb => ?_⟩
          exact hstamped b (hsame ▸ hb)
    · rw [hs.bytes] at hb
      split_ifs at hb with hk'
      · rw [hk']
        exact List.mem_append_right _ (List.mem_map_of_mem (hsub List.mem_cons_self))
      · exact hkeys k' b hb
  · obtain ⟨-, -, hset, hk, hkeys⟩ := h₂
    obtain ⟨-, hsome, hstamped⟩ := hk.resolve_left List.not_mem_nil
    exact ⟨hsome, hstamped, hset, hkeys⟩

theorem settings_beginInsert : Steps Db.SameSettings (Db.beginInsert c) :=
  settings_checkFault.bind fun _ => Db.settings_evictExpired.bind fun _ =>
    (steps_modify fun _ => ⟨rfl, rfl⟩).bind fun _ =>
      (withinDocs_newUuid (c := c)).within.settings.bind fun id =>
        (withinDocs_begin id).within.settings.bind fun _ => steps_pure _

variable [Crates]

/-- Within its maximal size, a collection keeps all documents at the end of an insert. -/
theorem wp_endInsert_keeps {db : Db} (hmax : ∀ max, db.maxSizes[c]? = some max → db.count c ≤ max)
    (txId : String) :
    wp (Db.endInsert c txId) (fun _ db' => db'.state = db.state) (fun _ _ => True) db := by
  simp only [Db.endInsert, wp_bind]
  refine wp_writeNew (fun t n => ?_) fun _ _ => trivial
  have hover : wp (Db.evictOverflow c) (fun _ db' => db'.state = db.state) (fun _ _ => True)
      { db with log := db.log ++ [⟨IKEY_TX_COMMIT, c, txId, .null, t⟩], tick := n } := by
    simp only [Db.evictOverflow, wp_bind, wp_get]
    cases hm : db.maxSizes[c]? with
    | none => exact rfl
    | some max =>
      dsimp only
      split_ifs with hlt
      · exact absurd hlt (not_lt.2 (hmax max hm))
      · exact rfl
  refine wp_mono hover (fun _ db₁ h₁ => ?_) fun _ _ h => h
  simp only [Db.resetExpiry, wp_bind, wp_get]
  cases db₁.ttlDefaults[c]? with
  | none => exact h₁
  | some secs =>
    simp only [wp_bind, wp_modify, wp_outcome, wp_send]
    refine wp_nowMs fun now m => wp_writeNew (fun _ _ => h₁) fun _ _ => h₁

/-- **An insert stores the document stamped**; it is still there at the end if the collection
    stays within its maximal size. -/
theorem wp_dbInsert_held (hobj : doc.isObject = true) {items : List (String × Json)}
    (hnodup : (items.map Prod.fst).Nodup) (hmem : (k, doc) ∈ items) (db : Db) :
    wp (Db.insert c items) (fun _ db' => db'.HasStamped c k doc ∧
      ((∀ max, db'.maxSizes[c]? = some max → db.count c + items.length ≤ max) →
        (db'.bytes c k).isSome = true)) (fun _ _ => True) db := by
  rw [Db.insert_eq, wp_bind]
  refine wp_mono (wp_and (wp_removes Db.removes_beginInsert db)
    (wp_settings settings_beginInsert db)) (fun id db₁ h₁ => ?_) fun _ _ _ => trivial
  obtain ⟨hr, hset⟩ := h₁
  rw [wp_bind]
  refine wp_mono (wp_items_held hobj hnodup hmem db₁) (fun _ db₂ h₂ => ?_) fun _ _ _ => trivial
  obtain ⟨hsome, hstamped, hset₂, hkeys⟩ := h₂
  have hcount : db₂.count c ≤ db.count c + items.length := by
    have hle := Db.count_le hkeys
    have hbefore := hr.count_le (c := c)
    rw [List.length_append, Db.length_keys, List.length_map] at hle
    omega
  have hend := wp_and (wp_removes (Db.removes_endInsert (c := c) id) db₂)
    (wp_settings ((withinDocs_commit id).within.settings.bind fun _ =>
      Db.settings_evictOverflow.bind fun _ => Db.settings_resetExpiry) db₂)
  refine wp_intro (fun u db₃ hrun => ?_) fun _ _ _ => trivial
  obtain ⟨hr₃, hset₃⟩ := wp_of_ok hend hrun
  refine ⟨fun b hb => hstamped b (hr₃.bytes c k b hb), fun hmax => ?_⟩
  rw [hset₃.maxSizes] at hmax
  have hkeep := wp_of_ok (wp_endInsert_keeps (fun max hm => hcount.trans (hmax max hm)) id) hrun
  rw [Db.bytes, hkeep]
  exact hsome

end

/-! ## A request that sets it -/

section

variable {c k : String} {doc : Json}

theorem resolveExtends_of_none {db : Db} (h : doc.get "extends" = none) :
    resolveExtends db doc = doc := by
  cases doc with
  | obj fs =>
    rw [Json.get_obj] at h
    simp only [resolveExtends, h, Option.bind_none]
  | _ => rfl

variable [Crates] [FloatText]

omit [FloatText] in
theorem wp_setData_held (hobj : doc.isObject = true) (hext : doc.get "extends" = none)
    {data : List (String × Json)} (hnodup : (data.map Prod.fst).Nodup) (hmem : (k, doc) ∈ data)
    (db : Db) :
    wp (setData c (some (.obj data))) (fun r db' => r.1 = 200 → hasReserved [] doc = false ∧
      db'.HasStamped c k doc ∧
      ((∀ max, db'.maxSizes[c]? = some max → db.count c + data.length ≤ max) →
        (db'.bytes c k).isSome = true)) (fun _ _ => True) db := by
  refine wp_setData (fun _ e _ h => absurd h (ne_ok_of_setError e)) fun items success hitems => ?_
  simp only [Db.dataItems] at hitems
  split_ifs at hitems with hres
  obtain rfl := Option.some.inj hitems
  rw [Bool.not_eq_true, List.any_eq_false] at hres
  have hitem : (k, doc) ∈ data.map fun p => (p.1, resolveExtends db p.2) :=
    List.mem_map.2 ⟨(k, doc), hmem, by rw [resolveExtends_of_none hext]⟩
  have hkeys : ((data.map fun p => (p.1, resolveExtends db p.2)).map Prod.fst).Nodup := by
    rwa [List.map_map]
  refine wp_insertItems (wp_mono (wp_dbInsert_held hobj hkeys hitem db) ?_ fun _ _ _ => ?_)
  · intro _ db' h _
    refine ⟨Bool.eq_false_iff.2 (hres _ hitem), h.1, ?_⟩
    rw [← List.length_map (f := fun p => (p.1, resolveExtends db p.2))]
    exact h.2
  · exact fun h => absurd h (ne_ok_of_setError _)

/-- **A request that sets a document** stores it stamped. -/
theorem wp_processSet_held {payload : Json} {maxBodySize maxKeysPerRequest : ℕ}
    (hcol : (namedCollection payload).getD "default" = c) {data : List (String × Json)}
    (hdata : payload.field .data = some (.obj data)) (hobj : doc.isObject = true)
    (hext : doc.get "extends" = none) (hnodup : (data.map Prod.fst).Nodup)
    (hmem : (k, doc) ∈ data) (db : Db) :
    wp (processSet payload maxBodySize maxKeysPerRequest) (fun r db' => r.1 = 200 →
      hasReserved [] doc = false ∧ db'.HasStamped c k doc ∧
      ((∀ max, db'.maxSizes[c]? = some max → db.count c + data.length ≤ max) →
        (db'.bytes c k).isSome = true)) (fun _ _ => True) db := by
  refine wp_processSet hcol (fun _ _ hr _ hok => absurd hok hr) fun _ db₁ hlim => ?_
  have hcount : db₁.count c = db.count c := by rw [Db.count, Db.col, hlim.state, Db.count, Db.col]
  rw [hdata, ← hcount]
  exact wp_setData_held hobj hext hnodup hmem db₁

variable [Lowercase]

/-- **What is stored is what is read**: the answer to the query for a key that was just set is the
    document with `_v`, exactly if no object in it has a field with the alias of a system field as
    its name, it is still stored, and its collection has not expired.  It is still stored if the
    collection is within its maximal size. -/
theorem stored_is_read_iff {payload query resp : Json} {maxBodySize maxKeysPerRequest : ℕ}
    (db : Db) (hset : (processSet payload maxBodySize maxKeysPerRequest db).1 = .ok (200, resp))
    (hcol : (namedCollection payload).getD "default" = c) {data : List (String × Json)}
    (hdata : payload.field .data = some (.obj data)) (hordered : (Json.obj data).Ordered)
    (hmem : (k, doc) ∈ data) (hobj : doc.isObject = true) (hext : doc.get "extends" = none)
    (hfits : doc.Fits) (hlen : ∀ fs, doc = .obj fs → fs.length + 4 < 2 ^ 32)
    (hquery : BareQuery query c k) {maxBodySize' maxKeysPerRequest' : ℕ}
    (hvalid : validateGetRequest query maxBodySize' maxKeysPerRequest' = .ok ()) :
    let db' := (processSet payload maxBodySize maxKeysPerRequest db).2
    ((∃ ver : UInt64, (processGet query maxBodySize' maxKeysPerRequest' db').1 =
        .ok (200, doc.set VERSION (.ofU64 ver))) ↔
      doc.AliasFree ∧ (db'.bytes c k).isSome = true ∧ ¬ db'.Expired c) ∧
    ((∀ max, db'.maxSizes[c]? = some max → db.count c + data.length ≤ max) →
      (db'.bytes c k).isSome = true) := by
  intro db'
  rw [Json.ordered_obj] at hordered
  have hrun : processSet payload maxBodySize maxKeysPerRequest db = (.ok (200, resp), db') :=
    Prod.ext hset rfl
  obtain ⟨hres, hstamped, hkept⟩ := wp_of_ok
    (wp_processSet_held hcol hdata hobj hext hordered.1.nodup_keys hmem db) hrun rfl
  refine ⟨?_, hkept⟩
  rw [processGet_key hquery.toKeyQuery hvalid, keyResponse]
  have hiff := keyShape_stamped_iff hquery db' hobj (hordered.2 _ hmem) hres
  by_cases hexp : db'.Expired c
  · rw [if_pos hexp]
    constructor
    · rintro ⟨ver, h⟩
      cases congrArg Prod.fst (Except.ok.inj h)
    · exact fun h => absurd hexp h.2.2
  rw [if_neg hexp]
  cases hb : db'.bytes c k with
  | none =>
    simp only [Db.shown, hb, Option.bind_none, Option.map_none]
    constructor
    · rintro ⟨ver, h⟩
      cases congrArg Prod.fst (Except.ok.inj h)
    · exact fun h => absurd h.2.1 (by simp)
  | some b =>
    obtain ⟨ver, created, now, seq, rfl⟩ := hstamped b hb
    have hshown : db'.shown c k = some (stampWith doc ver created now seq).shown := by
      rw [Db.shown, hb, Option.bind_some, msgpackToValue_valueToMsgpack
        (fits_stampWith hfits hlen ver created now seq)]
      rfl
    rw [hshown, ← hiff ver created now seq]
    simp [hexp]

end

/-! ## Documents with nested fields -/

section

/-- The query for the document `k`. -/
def getOne : Json := .obj [("collection", .str "c"), ("keys", .str "k")]

theorem getOne_bare : BareQuery getOne "c" "k" where
  collection := rfl
  keys := rfl
  plain := by decide
  bare := ⟨rfl, rfl⟩

theorem stored_is_read_iff_nested :
    letI := Crates.plain
    letI := Lowercase.ascii
    letI := FloatText.plain
    let doc : Json := .obj [("a", .obj [("b", .null)])]
    let db := (processSet (oneDocPayload "k" doc) 1000 10 (Db.blank (World.plain 1000 []) 0)).2
    (∃ ver : UInt64, (processGet getOne 1000 10 db).1 = .ok (200, doc.set VERSION (.ofU64 ver))) ↔
      doc.AliasFree ∧ (db.bytes "c" "k").isSome = true ∧ ¬ db.Expired "c" := by
  let _ := Crates.plain
  let _ := Lowercase.ascii
  let _ := FloatText.plain
  intro doc db
  have hset : (processSet (oneDocPayload "k" doc) 1000 10 (Db.blank (World.plain 1000 []) 0)).1 =
      .ok (200, json [("status", .str "ok"), ("count", .ofU64 1)]) := by
    decide +kernel
  have hdata : (oneDocPayload "k" doc).field .data = some (.obj [("k", doc)]) := rfl
  have hvalid : validateGetRequest getOne 1000 10 = .ok () := rfl
  have hlen : ∀ fs, doc = .obj fs → fs.length + 4 < 2 ^ 32 := by
    rintro fs hfs
    rw [← Json.obj.inj hfs]
    decide
  have hiff := stored_is_read_iff _ hset rfl hdata (by decide) (List.mem_singleton.2 rfl) rfl rfl
    (by decide) hlen getOne_bare hvalid
  exact hiff.1

/-- **A nested field with the alias of a system field as its name is renamed.** -/
theorem nested_alias_renamed :
    letI := Crates.plain
    letI := Lowercase.ascii
    letI := FloatText.plain
    let set := processSet (oneDocPayload "k" (.obj [("a", .obj [("-1", .ofU64 5)])])) 1000 10
      (Db.blank (World.plain 1000 []) 0)
    set.1.toOption.map Prod.fst = some 200 ∧
      (processGet getOne 1000 10 set.2).1.toOption =
        some (200, .obj [("_v", .ofU64 1), ("a", .obj [("_v", .ofU64 5)])]) := by
  decide +kernel

end

end MoltenDB
