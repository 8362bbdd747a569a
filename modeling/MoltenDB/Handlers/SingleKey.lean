/-
  The query for one key.

  It answers with the document of that key alone, in shape and without `_key`, unless the TTL
  of the collection has lapsed or there is no such document (`processGet_key`).
-/
import MoltenDB.Engine.Steps
import MoltenDB.Handlers.Get

namespace MoltenDB

open Wire Prog Prog.Eff SystemFields

/-- The payload asks for the key `k` of the collection `c`, with no options but the choice of
    the fields that are returned. -/
structure KeyQuery (payload : Json) (c k : String) : Prop where
  collection : (namedCollection payload).getD "default" = c
  keys : payload.field .keys = some (.str k)
  plain : ∀ f ∈ [PayloadField.filter, .joins, .sort, .count, .allowedPrefixes],
    payload.field f = none

/-- A stored document with the public names of system fields. -/
def Db.shown (db : Db) (c k : String) : Option Json :=
  ((db.bytes c k).bind msgpackToValue).map expandSystemFields

variable {db : Db} {c k : String}

/-- The lookup of one key finds its document. -/
theorem Db.get_one (db : Db) (c k : String) :
    db.get c [k] = ((db.shown c k).map fun v => (∅ : DashMap Json).insert k v).getD ∅ := by
  rw [Db.get, Db.shown, Db.bytes, Db.col]
  cases db.state[c]? with
  | none => rfl
  | some col =>
    simp only [List.foldl_cons, List.foldl_nil, decodeKey, Option.bind_some]
    cases col[k]?.bind msgpackToValue <;> rfl

/-- A walk over the result finds the document, too. -/
theorem wp_walk_one {Q : List (String × Json) → Db → Prop} {E : DbError → Db → Prop}
    (h : ∀ n, Q ((db.shown c k).toList.map fun v => (k, v)) { db with tick := n }) :
    wp (walk (db.get c [k])) Q E db := by
  refine wp_walk fun ks n hks => ?_
  have hone : (db.get c [k]).inOrder ks = (db.shown c k).toList.map fun v => (k, v) := by
    rw [Db.get_one] at hks ⊢
    revert hks
    cases db.shown c k with
    | none =>
      refine fun _ => List.eq_nil_iff_forall_not_mem.2 fun p hp => ?_
      obtain ⟨-, hget⟩ := Map.mem_inOrder.1 hp
      simp at hget
    | some v =>
      intro hks
      have hkeys : ks = [k] := by
        refine List.perm_singleton.1 (hks.trans ?_)
        refine (List.perm_ext_iff_of_nodup (Map.nodup_keys _) (List.nodup_singleton k)).2 fun k' => ?_
        rw [Map.mem_keys, List.mem_singleton]
        by_cases hk : k' = k <;> simp [Map.get?_insert, hk]
      rw [hkeys]
      simp [Map.inOrder]
  rw [hone]
  exact h n

/-! ## The response -/

section

variable [Crates] [Lowercase] [FloatText] {payload : Json} {maxBodySize maxKeysPerRequest : ℕ}

/-- The parameters of a query for one key. -/
def keyParams (db : Db) (payload : Json) (c k : String) : GetParams where
  colName := c
  whereClause := none
  joinsReq := none
  sortSpecs := none
  countLimit := DEFAULT_COUNT
  offset := (((payload.field .offset).bind Json.asU64).map UInt64.toNat).getD 0
  fieldsReq := (payload.field .fields).bind Json.asArray
  excludedReq := (payload.field .excludedFields).bind Json.asArray
  allowedPrefixes := none
  expiresVal := db.ttlExpiry[c]?.map fun ms => .str (msToIso ms)
  keys := some (.str k)
  defaultOrderAsc := (payload.field .order).bind Json.asStr == some "asc"

/-- A document as the query for its key returns it. -/
def keyShape (db : Db) (payload : Json) (c k : String) (doc : Json) : Json :=
  match (keyParams db payload c k).shape (k, doc, []) with
  | .obj out => .obj (Fields.erase KEY out)
  | out => out

/-- The answer to a query for one key. -/
def keyResponse (db : Db) (payload : Json) (c k : String) : Response :=
  if db.Expired c then GetError.collectionExpired.intoResponse
  else match db.shown c k with
    | some doc => (200, keyShape db payload c k doc)
    | none => GetError.noDocumentsFound.intoResponse

omit [Crates] [Lowercase] [FloatText] in
theorem KeyQuery.parseGetParams (h : KeyQuery payload c k) (n : ℕ) :
    MoltenDB.parseGetParams { db with tick := n } (db.world.clock db.tick) payload =
      if db.Expired c then .error GetError.collectionExpired.intoResponse
      else .ok (keyParams db payload c k) := by
  have hnone := h.plain
  simp only [List.mem_cons, List.not_mem_nil, or_false, forall_eq_or_imp, forall_eq] at hnone
  obtain ⟨hfilter, hjoins, hsort, hcount, hprefixes⟩ := hnone
  simp only [MoltenDB.parseGetParams, h.collection, h.keys, hfilter, hjoins, hsort, hcount,
    hprefixes, Option.bind_none, Option.any_none, Bool.false_eq_true, if_false, Db.Expired]
  rfl

/-- **A query for one key** answers with its document. -/
theorem processGet_key (h : KeyQuery payload c k)
    (hvalid : validateGetRequest payload maxBodySize maxKeysPerRequest = .ok ()) (db : Db) :
    (processGet payload maxBodySize maxKeysPerRequest db).1 = .ok (keyResponse db payload c k) := by
  have hdocs : (keyParams db payload c k).keys = some (.str k) := rfl
  unfold processGet
  rw [hvalid]
  dsimp only
  rw [nowMs_get_bind, h.parseGetParams]
  by_cases hexp : db.Expired c
  · rw [if_pos hexp, keyResponse, if_pos hexp]
    exact rfl
  · rw [if_neg hexp, keyResponse, if_neg hexp]
    change (runGeneralPath (keyParams db payload c k) { db with tick := db.tick + 1 }).1 = _
    refine ok_of_wp ?_
    simp only [runGeneralPath, fetchDocuments, hdocs, fetchKeys, wp_bind, wp_get]
    change wp (walk (Db.get { db with tick := db.tick + 1 } c [k])) _ _ _
    refine wp_walk_one fun n => ?_
    have hshown : Db.shown { db with tick := db.tick + 1 } c k = db.shown c k := rfl
    rw [hshown]
    cases db.shown c k with
    | none => exact rfl
    | some doc => exact rfl

end

end MoltenDB
