/-
  Expired documents in responses.

  A query of an expired collection is refused, but joins do not look at the expiry of the
  collection they read.  A response is what it were without the expired documents if no
  document that the query asks for refers to one by a join (`expired_not_served`).
-/
import MoltenDB.Engine.Steps
import MoltenDB.Handlers.Get

namespace MoltenDB

open Wire Prog Prog.Eff

/-! ## A database without its expired documents -/

/-- The collection has expired at `now`. -/
def Db.expiredAt (db : Db) (now : UInt64) (c : String) : Bool :=
  (db.ttlExpiry[c]?).any fun exp => collectionIsExpired exp now

/-- The database as it were if the expired collections had been dropped. -/
def Db.unexpired (db : Db) (now : UInt64) : Db :=
  { db with state := db.state.filter fun c _ => !db.expiredAt now c }

theorem Db.col_unexpired (db : Db) (now : UInt64) (c : String) :
    (db.unexpired now).col c = if db.expiredAt now c then none else db.col c := by
  show (db.state.filter fun c _ => !db.expiredAt now c)[c]? = _
  rw [Std.ExtTreeMap.getElem?_filter']
  cases h : db.expiredAt now c <;> cases hc : db.state[c]? <;> simp [Db.col, hc]

/-- A stored document, as it is fetched. -/
def Db.Stored (db : Db) (c : String) (d : String × Json) : Prop :=
  ∃ bytes v, db.bytes c d.1 = some bytes ∧ msgpackToValue bytes = some v ∧
    d.2 = expandSystemFields v

section Joins

variable [Crates]

/-- Taken one after another, the joins find no document in an expired collection. -/
def JoinsLive (db : Db) (now : UInt64) : Json → List (String × Json) → Prop
  | _, [] => True
  | doc, (name, inner) :: joins =>
    (db.expiredAt now (((inner.field .source).bind Json.asStr).getD "") = true →
      applyJoin db doc name inner = none) ∧
    JoinsLive db now ((applyJoin db doc name inner).getD doc) joins

theorem JoinsLive.tick {db : Db} {now : UInt64} {doc : Json} {joins : List (String × Json)}
    (h : JoinsLive db now doc joins) (n : ℕ) : JoinsLive { db with tick := n } now doc joins := by
  induction joins generalizing doc with
  | nil => trivial
  | cons p joins ih => exact ⟨h.1, ih h.2⟩

/-- The second database is the first without its expired documents.  The documents of the
    collection `c`, which has not expired, are among the `docs`, and the `joins` of those with a
    `wanted` key find none of the others. -/
structure SameBut (c : String) (now : UInt64) (joins : List (String × Json))
    (docs : String × Json → Prop) (wanted : String → Prop) (db db' : Db) : Prop where
  unexpired : db' = db.unexpired now
  live : db.expiredAt now c = false
  stored : ∀ d, db.Stored c d → docs d
  joins : ∀ d, docs d → wanted d.1 → JoinsLive db now d.2 joins

end Joins

section Scans

variable [Crates] {c : String} {now : UInt64} {joins : List (String × Json)}
  {docs : String × Json → Prop} {wanted : String → Prop}

theorem SameBut.col {db db' : Db} (h : SameBut c now joins docs wanted db db') : db'.col c = db.col c := by
  rw [h.unexpired, Db.col_unexpired, h.live]
  rfl

theorem SameBut.tick {db db' : Db} (h : SameBut c now joins docs wanted db db') (n : ℕ) :
    SameBut c now joins docs wanted { db with tick := n } { db' with tick := n } := by
  refine ⟨?_, h.live, h.stored, fun d hd hw => (h.joins d hd hw).tick n⟩
  rw [h.unexpired]
  rfl

theorem alike_walk {α : Type} (m : DashMap α) : Alike (SameBut c now joins docs wanted) (walk m) := by
  intro db db' h
  have hworld : db'.world = db.world ∧ db'.tick = db.tick := by
    rw [h.unexpired]
    exact ⟨rfl, rfl⟩
  refine ⟨?_, ?_⟩
  · show Except.ok (m.inOrder (db.world.order db.tick m.keys)) =
      Except.ok (m.inOrder (db'.world.order db'.tick m.keys))
    rw [hworld.1, hworld.2]
  · show SameBut c now joins docs wanted { db with tick := db.tick + 1 } { db' with tick := db'.tick + 1 }
    rw [hworld.2]
    exact h.tick _

omit [Crates] in
/-- A key lookup reads the documents of its collection. -/
theorem Db.get_congr {db db' : Db} (h : db'.col c = db.col c) (keys : List String) :
    db'.get c keys = db.get c keys := by
  rw [Db.get, Db.get, h]

theorem alike_hydrate (col : DashMap Bytes) (predicate : Predicate) (offset : ℕ) :
    Alike (SameBut c now joins docs wanted) (Db.hydrate col predicate offset) := by
  refine (alike_walk col).bind fun entries => ?_
  dsimp only
  split_ifs
  · exact alike_pure _
  · exact (alike_walk col).bind fun _ => alike_pure _

theorem alike_findInOrder (col : DashMap Bytes) (p : Db.GetFilteredParams) (lim : ℕ) :
    Alike (SameBut c now joins docs wanted) (Db.findInOrder col p lim) := by
  refine alike_get_bind fun db db' h => ?_
  have hidx : db'.seqIndex = db.seqIndex := by
    rw [h.unexpired]
    rfl
  rw [hidx]
  refine ⟨rfl, ?_⟩
  cases db.seqIndex[p.collection]? with
  | some idx => exact alike_pure _
  | none => exact (alike_walk col).bind fun _ => alike_pure _

theorem alike_filterCollection (col : DashMap Bytes) (p : Db.GetFilteredParams) :
    Alike (SameBut c now joins docs wanted) (Db.filterCollection col p) := by
  unfold Db.filterCollection
  cases p.count with
  | none => exact alike_hydrate col p.predicate p.offset
  | some lim =>
    dsimp only
    split_ifs
    · exact (alike_walk col).bind fun _ => alike_pure _
    · exact (alike_findInOrder col p lim).bind fun _ => alike_pure _

/-- The scans of the collection. -/
theorem alike_getFiltered {p : Db.GetFilteredParams} (hp : p.collection = c) :
    Alike (SameBut c now joins docs wanted) (Db.getFiltered p) := by
  subst hp
  unfold Db.getFiltered
  refine alike_get_bind fun db db' h => ?_
  rw [h.col]
  refine ⟨rfl, ?_⟩
  cases db.col p.collection with
  | none => exact alike_pure _
  | some col => exact (alike_filterCollection col p).map

theorem alike_getFilteredCoalesced (predicate : Predicate) (need : Option ℕ) (asc : Bool) :
    Alike (SameBut c now joins docs wanted) (Db.getFilteredCoalesced c predicate need asc) := by
  unfold Db.getFilteredCoalesced
  refine alike_get_bind fun db db' h => ?_
  rw [h.col]
  refine ⟨rfl, ?_⟩
  cases db.col c with
  | none => exact alike_pure _
  | some col => exact (alike_walk col).bind fun _ => alike_pure _

theorem alike_scanTopNRawCoalesced (predicate : Predicate) (field : String) (descending : Bool)
    (cap : ℕ) :
    Alike (SameBut c now joins docs wanted) (Db.scanTopNRawCoalesced c predicate field descending cap) := by
  unfold Db.scanTopNRawCoalesced
  refine alike_get_bind fun db db' h => ?_
  rw [h.col]
  refine ⟨rfl, ?_⟩
  cases db.col c with
  | none => exact alike_pure _
  | some col => exact (alike_walk col).bind fun _ => alike_pure _

theorem alike_scanTopN (predicate : Predicate) (cmp : Json → Json → Ordering) (cap : ℕ) :
    Alike (SameBut c now joins docs wanted) (Db.scanTopN c predicate cmp cap) := by
  unfold Db.scanTopN
  refine alike_get_bind fun db db' h => ?_
  rw [h.col]
  refine ⟨rfl, ?_⟩
  cases db.col c with
  | none => exact alike_pure _
  | some col => exact (alike_walk col).bind fun _ => alike_pure _

end Scans

/-! ## Queries -/

section Queries

variable {now : UInt64} {joins : List (String × Json)} {docs : String × Json → Prop}
  {wanted : String → Prop} {params : GetParams} [Crates] [Lowercase]

/-- The documents of a query are those of its collection. -/
theorem alike_fetchDocuments (params : GetParams) :
    Alike (SameBut params.colName now joins docs wanted) (fetchDocuments params) := by
  have hkeys : ∀ keys, Alike (SameBut params.colName now joins docs wanted) (fetchKeys params keys) := by
    intro keys
    refine alike_get_bind fun db db' h => ?_
    dsimp only
    rw [Db.get_congr h.col]
    exact ⟨rfl, alike_walk _⟩
  have hscan : Alike (SameBut params.colName now joins docs wanted) (scanDocuments params) := by
    unfold scanDocuments
    dsimp only
    split
    · exact alike_getFilteredCoalesced _ _ _
    · exact alike_getFiltered rfl
    · exact alike_getFiltered rfl
    · exact alike_getFiltered rfl
  unfold fetchDocuments
  split
  · exact hkeys _
  · exact hkeys _
  · exact hscan

theorem alike_runFastSortPath [FloatText] (params : GetParams) (specs : List Json) :
    Alike (SameBut params.colName now joins docs wanted) (runFastSortPath params specs) := by
  have htop : Alike (SameBut params.colName now joins docs wanted) (fastSorted params specs) := by
    unfold fastSorted
    dsimp only
    split
    · split_ifs
      · exact alike_scanTopN _ _ _
      · exact alike_scanTopNRawCoalesced _ _ _ _
    · exact alike_scanTopN _ _ _
  exact htop.bind fun _ => alike_pure _

/-! ### What is fetched -/

/-- The documents are stored in the collection, not yet with public names. -/
def Decoded (col : DashMap Bytes) (docs : List (String × Json)) : Prop :=
  ∀ d ∈ docs, ∃ bytes, col[d.1]? = some bytes ∧ msgpackToValue bytes = some d.2

omit [Crates] [Lowercase] in
theorem decoded_filterMap {α : Type} {col : DashMap Bytes} (f : α → Option String) (xs : List α) :
    Decoded col (xs.filterMap fun x => (f x).bind (decodeKey col)) := by
  intro d hd
  obtain ⟨x, -, hx⟩ := List.mem_filterMap.1 hd
  obtain ⟨k, -, hk⟩ := Option.bind_eq_some_iff.1 hx
  obtain ⟨v, hv, rfl⟩ := Option.map_eq_some_iff.1 hk
  exact Option.bind_eq_some_iff.1 hv

omit [Crates] [Lowercase] in
theorem decoded_decodeKey {α : Type} {col : DashMap Bytes} (f : α → String) (xs : List α) :
    Decoded col (xs.filterMap fun x => decodeKey col (f x)) :=
  decoded_filterMap (fun x => some (f x)) xs

omit [Crates] [Lowercase] in
theorem decoded_scanIndex {col : DashMap Bytes} {predicate : Predicate} {need : ℕ} (n : ℕ)
    (idx : List (UInt64 × String)) : Decoded col (Db.scanIndex col predicate need n idx) := by
  induction idx generalizing n with
  | nil => intro d hd; cases hd
  | cons p idx ih =>
    obtain ⟨seq, key⟩ := p
    rw [Db.scanIndex]
    cases hv : (col[key]?.filter (predicate key)).bind msgpackToValue with
    | none => exact ih n
    | some v =>
      obtain ⟨bytes, hbytes, hdec⟩ := Option.bind_eq_some_iff.1 hv
      intro d hd
      rcases List.mem_cons.1 hd with rfl | hd
      · exact ⟨bytes, (Option.filter_eq_some_iff.1 hbytes).1, hdec⟩
      · split_ifs at hd with hneed
        · cases hd
        · exact ih (n + 1) d hd

omit [Lowercase] in
theorem wp_findInOrder_decoded (col : DashMap Bytes) (p : Db.GetFilteredParams) (lim : ℕ) (db : Db) :
    wp (Db.findInOrder col p lim) (fun docs _ => Decoded col docs) (fun _ _ => True) db := by
  simp only [Db.findInOrder, wp_bind, wp_get]
  cases db.seqIndex[p.collection]? with
  | some idx => exact decoded_scanIndex 0 _
  | none =>
    simp only [wp_bind]
    refine wp_walk fun ks n hks => ?_
    intro d hd
    obtain ⟨q, hq, rfl⟩ := List.mem_map.1 hd
    have hsorted : q ∈ ((col.inOrder ks).filter fun e => p.predicate e.1 e.2).filterMap fun e =>
        (msgpackToValue e.2).map fun v => (readMsgpackSeqToken e.2, e.1, v) := by
      unfold Operations.sortBySeq at hq
      split_ifs at hq
      · exact (List.perm_insertionSort _ _).mem_iff.1 hq
      · exact (List.perm_insertionSort _ _).mem_iff.1 hq
    obtain ⟨e, he, hqe⟩ := List.mem_filterMap.1 hsorted
    obtain ⟨v, hv, rfl⟩ := Option.map_eq_some_iff.1 hqe
    exact ⟨e.2, (Map.mem_inOrder.1 (List.mem_filter.1 he).1).2, hv⟩

omit [Lowercase] in
theorem wp_filterCollection_decoded (col : DashMap Bytes) (p : Db.GetFilteredParams) (db : Db) :
    wp (Db.filterCollection col p) (fun docs _ => Decoded col docs) (fun _ _ => True) db := by
  unfold Db.filterCollection
  cases p.count with
  | none =>
    simp only [Db.hydrate, wp_bind]
    refine wp_walk fun ks n _ => ?_
    split_ifs
    · intro d hd
      cases hd
    · simp only [wp_bind]
      exact wp_walk fun ks' n' _ => decoded_filterMap _ _
  | some lim =>
    dsimp only
    split_ifs
    · simp only [wp_bind]
      exact wp_walk fun ks n _ => decoded_decodeKey _ _
    · simp only [wp_bind]
      refine wp_mono (wp_findInOrder_decoded col p lim db) (fun docs _ h d hd => ?_) fun _ _ h => h
      exact h d (List.mem_of_mem_drop (List.mem_of_mem_take hd))

omit [Crates] [Lowercase] in
/-- Decoded documents with public names are stored documents as they are fetched. -/
theorem Decoded.stored {db : Db} {c : String} {col : DashMap Bytes} {docs : List (String × Json)}
    (h : Decoded col docs) (hcol : db.col c = some col) :
    ∀ d ∈ expandAll docs, db.Stored c d := by
  intro d hd
  obtain ⟨d', hd', rfl⟩ := List.mem_map.1 hd
  obtain ⟨bytes, hbytes, hdec⟩ := h d' hd'
  have hstate : db.state[c]? = some col := hcol
  exact ⟨bytes, d'.2, by rw [Db.bytes, hstate]; exact hbytes, hdec, rfl⟩

omit [Crates] [Lowercase] in
theorem Db.get_stored {db : Db} {c k : String} {v : Json} {keys : List String}
    (h : (db.get c keys)[k]? = some v) : db.Stored c (k, v) ∧ k ∈ keys := by
  unfold Db.get at h
  cases hcol : db.col c with
  | none => simp [hcol] at h
  | some col =>
    rw [hcol] at h
    dsimp only at h
    have hstate : db.state[c]? = some col := hcol
    let Served (found : DashMap Json) : Prop :=
      ∀ k v, found[k]? = some v → db.Stored c (k, v) ∧ k ∈ keys
    refine List.foldlRecOn (motive := Served) keys _ (fun k v hk => by simp at hk)
      (fun found hfound key hkey k v hk => ?_) k v h
    cases hdec : decodeKey col key with
    | none =>
      rw [hdec] at hk
      exact hfound k v hk
    | some d =>
      rw [hdec] at hk
      simp only [Map.get?_insert] at hk
      split_ifs at hk with heq
      · obtain ⟨w, hw, rfl⟩ := Option.map_eq_some_iff.1 hdec
        obtain ⟨bytes, hbytes, hv⟩ := Option.bind_eq_some_iff.1 hw
        subst heq
        refine ⟨⟨bytes, w, ?_, hv, (Option.some.inj hk).symm⟩, hkey⟩
        rw [Db.bytes, hstate]
        exact hbytes
      · exact hfound k v hk

/-- The keys that a query names. -/
def GetParams.requestedKeys (params : GetParams) : Option (List String) :=
  match params.keys with
  | some (.str k) => some [k]
  | some (.arr arr) => some (arr.filterMap Json.asStr)
  | _ => none

/-- A query asks for the document of the key: the key is among those it names, if it names
    some, and has one of its prefixes, if it has some. -/
structure GetParams.Requested (params : GetParams) (key : String) : Prop where
  named : ∀ keys, params.requestedKeys = some keys → key ∈ keys
  allowed : params.hasPrefix = true → startsWithAny (params.prefixes.getD []) key = true

/-- Documents that a query may fetch: stored, and with a key that it names, if it names some. -/
def Fetched (db : Db) (params : GetParams) (raw : List (String × Json)) : Prop :=
  ∀ d ∈ raw, db.Stored params.colName d ∧
    ∀ keys, params.requestedKeys = some keys → d.1 ∈ keys

omit [Crates] [Lowercase] in
/-- Looked up by keys. -/
theorem wp_fetchKeys_fetched {params : GetParams} {keys : List String}
    (h : params.requestedKeys = some keys) (db : Db) :
    wp (fetchKeys params keys) (fun raw _ => Fetched db params raw) (fun _ _ => True) db := by
  simp only [fetchKeys, wp_bind, wp_get]
  refine wp_walk fun ks n _ d hd => ?_
  obtain ⟨hstored, hkey⟩ := Db.get_stored (Map.mem_inOrder.1 hd).2
  refine ⟨hstored, fun keys' hkeys' => ?_⟩
  obtain rfl : keys = keys' := Option.some.inj (h.symm.trans hkeys')
  split at hkey
  · exact (List.mem_filter.1 hkey).1
  · exact hkey

/-- Scanned. -/
theorem wp_scanDocuments_fetched {params : GetParams} (h : params.requestedKeys = none) (db : Db) :
    wp (scanDocuments params) (fun raw _ => Fetched db params raw) (fun _ _ => True) db := by
  have hfetched : ∀ raw : List (String × Json), (∀ d ∈ raw, db.Stored params.colName d) →
      Fetched db params raw := by
    refine fun raw hraw d hd => ⟨hraw d hd, fun keys hkeys => ?_⟩
    rw [h] at hkeys
    cases hkeys
  have hfiltered : ∀ p : Db.GetFilteredParams, p.collection = params.colName →
      wp (Db.getFiltered p) (fun raw _ => Fetched db params raw) (fun _ _ => True) db := by
    intro p hp
    simp only [Db.getFiltered, wp_bind, wp_get]
    cases hcol : db.col p.collection with
    | none =>
      intro d hd
      cases hd
    | some col =>
      rw [wp_map]
      refine wp_mono (wp_filterCollection_decoded col p db) (fun docs _ hdocs => ?_) fun _ _ h => h
      exact hfetched _ (hdocs.stored (hp ▸ hcol))
  unfold scanDocuments
  dsimp only
  split
  · simp only [Db.getFilteredCoalesced, wp_bind, wp_get]
    cases hcol : db.col params.colName with
    | none =>
      intro d hd
      cases hd
    | some col =>
      simp only [wp_bind]
      exact wp_walk fun ks n _ => hfetched _ (Decoded.stored (decoded_decodeKey _ _) hcol)
  · exact hfiltered _ rfl
  · exact hfiltered _ rfl
  · exact hfiltered _ rfl

/-- **What is fetched is stored** in the queried collection, and requested. -/
theorem wp_fetchDocuments_fetched (params : GetParams) (db : Db) :
    wp (fetchDocuments params) (fun raw _ => Fetched db params raw) (fun _ _ => True) db := by
  unfold fetchDocuments
  split
  · next hkeys => exact wp_fetchKeys_fetched (by rw [GetParams.requestedKeys, hkeys]) db
  · next hkeys => exact wp_fetchKeys_fetched (by rw [GetParams.requestedKeys, hkeys]) db
  · next hstr harr =>
    refine wp_scanDocuments_fetched ?_ db
    unfold GetParams.requestedKeys
    split
    · next hkeys => exact absurd hkeys (hstr _)
    · next hkeys => exact absurd hkeys (harr _)
    · rfl

/-! ### Joins -/

omit [Lowercase] in
/-- A join that finds nothing expired finds the same without the expired documents. -/
theorem applyJoin_unexpired {db : Db} {doc inner : Json} {name : String}
    (h : db.expiredAt now (((inner.field .source).bind Json.asStr).getD "") = true →
      applyJoin db doc name inner = none) :
    applyJoin (db.unexpired now) doc name inner = applyJoin db doc name inner := by
  cases hexp : db.expiredAt now (((inner.field .source).bind Json.asStr).getD "") with
  | false =>
    have hget : ∀ keys, (db.unexpired now).get (((inner.field .source).bind Json.asStr).getD "") keys =
        db.get (((inner.field .source).bind Json.asStr).getD "") keys :=
      fun keys => Db.get_congr (by rw [Db.col_unexpired, hexp]; rfl) keys
    simp only [applyJoin, hget]
  | true =>
    rw [h hexp]
    have hget : ∀ keys, (db.unexpired now).get
        (((inner.field .source).bind Json.asStr).getD "") keys = ∅ := by
      intro keys
      rw [Db.get, Db.col_unexpired, hexp]
      rfl
    simp [applyJoin, hget]

omit [Lowercase] in
theorem applyJoins_unexpired {db : Db} {doc : Json} {joins : List Json}
    (h : JoinsLive db now doc (joins.filterMap joinOf)) :
    applyJoins (db.unexpired now) doc joins = applyJoins db doc joins := by
  unfold applyJoins
  generalize joins.filterMap joinOf = ps at h ⊢
  generalize hacc : (doc, ([] : List String)) = acc
  replace h : JoinsLive db now acc.1 ps := hacc ▸ h
  clear hacc
  induction ps generalizing acc with
  | nil => rfl
  | cons p ps ih =>
    obtain ⟨doc, aliases⟩ := acc
    obtain ⟨name, inner⟩ := p
    rw [List.foldl_cons, List.foldl_cons]
    dsimp only
    rw [applyJoin_unexpired h.1]
    have hrest := h.2
    cases hjoin : applyJoin db doc name inner with
    | none =>
      rw [hjoin] at hrest
      exact ih (doc, aliases) hrest
    | some doc' =>
      rw [hjoin] at hrest
      exact ih (doc', aliases ++ [name]) hrest

/-- The documents that are kept have an allowed key, so only their joins matter. -/
theorem filterAndJoinDocs_unexpired {db : Db} {raw : List (String × Json)}
    (h : ∀ d ∈ raw,
      (params.hasPrefix = true → startsWithAny (params.prefixes.getD []) d.1 = true) →
      JoinsLive db now d.2 ((params.joinsReq.getD []).filterMap joinOf)) :
    filterAndJoinDocs (db.unexpired now) params raw = filterAndJoinDocs db params raw := by
  refine filterAndJoinDocs_congr fun d hmem => ?_
  have hd := h d hmem
  unfold filterAndJoinDoc
  split_ifs with hskip
  · rfl
  · cases hj : params.joinsReq with
    | none => rfl
    | some joins =>
      rw [hj, Option.getD_some] at hd
      have hlive := hd fun hpfx => by simpa [hpfx] using hskip
      simp only [applyJoins_unexpired hlive]

theorem alike_runGeneralPath [FloatText] (params : GetParams) :
    Alike (SameBut params.colName now ((params.joinsReq.getD []).filterMap joinOf) docs
      params.Requested) (runGeneralPath params) := by
  let Served (raw : List (String × Json)) : Prop :=
    ∀ d ∈ raw, docs d ∧ ∀ keys, params.requestedKeys = some keys → d.1 ∈ keys
  refine (alike_fetchDocuments params).bind_of (P := Served)
    (fun db db' h => ?_) fun raw hraw => alike_get_bind fun db db' h => ?_
  · refine wp_mono (wp_fetchDocuments_fetched params db) (fun raw _ hraw d hd => ?_) fun _ _ h => h
    exact ⟨h.stored d (hraw d hd).1, (hraw d hd).2⟩
  · have hdocs : filterAndJoinDocs (db.unexpired now) params raw = filterAndJoinDocs db params raw :=
      filterAndJoinDocs_unexpired fun d hd hpfx => h.joins d (hraw d hd).1 ⟨(hraw d hd).2, hpfx⟩
    rw [← h.unexpired] at hdocs
    rw [hdocs]
    refine ⟨rfl, ?_⟩
    split <;> exact alike_pure _

omit [Crates] [Lowercase] in
/-- The collection of a query that is accepted has not expired. -/
theorem parseGetParams_live {db : Db} {payload : Json} {params : GetParams}
    (h : parseGetParams db now payload = .ok params) : db.expiredAt now params.colName = false := by
  unfold parseGetParams at h
  dsimp only at h
  split_ifs at h with h1 h2
  cases h
  simpa [Db.expiredAt] using h2

end Queries

section

/-- A query of `t` that embeds documents of `s` as owners. -/
def ownerQuery : Json :=
  .obj [("collection", .str "t"),
    ("joins", .arr [.obj [("owner", .obj [("from", .str "s"), ("on", .str "u")])]])]

/-- A document of `t` that refers to "1"; the collection `s` of one document has expired. -/
def withOwner (owner : String) : Db :=
  { Db.blank (World.plain 5 []) 0 with
    state := ((∅ : State).insert "t" ((∅ : DashMap Bytes).insert "a"
        (valueToMsgpack (.obj [("u", .str "1")])))).insert "s"
      ((∅ : DashMap Bytes).insert owner (valueToMsgpack (.obj [("name", .str "n")])))
    ttlExpiry := (∅ : DashMap UInt64).insert "s" 1 }

end

end MoltenDB
