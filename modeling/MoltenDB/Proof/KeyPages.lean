/-
  The pages of a lookup of many keys.

  The documents of the keys come out of a hash map, in whatever order it is walked, and each
  page is cut off afterwards.  So the pages have every document once, in all orders, exactly if
  there is one page (`key_pages_iff`).
-/
import MoltenDB.Handlers.SingleKey
import MoltenDB.Lib.Pages
import MoltenDB.Proof.CursorPages

namespace MoltenDB

open Wire Prog Prog.Eff SystemFields

/-! ## The lookup -/

/-- The lookup of the keys, from the offset on. -/
def keysQuery (c : String) (keys : List String) (count offset : UInt64) : Json :=
  .obj [("collection", .str c), ("count", .ofU64 count), ("keys", .arr (keys.map .str)),
    ("offset", .ofU64 offset)]

/-- What the lookup is parsed to. -/
def lookupParams (db : Db) (c : String) (keys : List String) (count offset : UInt64) : GetParams where
  colName := c
  whereClause := none
  joinsReq := none
  sortSpecs := none
  countLimit := count.toNat
  offset := offset.toNat
  fieldsReq := none
  excludedReq := none
  allowedPrefixes := none
  expiresVal := db.ttlExpiry[c]?.map fun ms => .str (msToIso ms)
  keys := some (.arr (keys.map .str))
  defaultOrderAsc := false

/-- A document as it is listed. -/
def Db.listed (db : Db) (c : String) (d : String × Json) : Json :=
  shapeDoc d.2 d.1 none none [] (db.ttlExpiry[c]?.map fun ms => .str (msToIso ms))

/-- The documents of the keys. -/
def Db.requested (db : Db) (c : String) (keys : List String) : List (String × Json) :=
  keys.filterMap fun k => (db.shown c k).map fun v => (k, v)

/-- The documents on the pages from the `i`-th on, up to the first empty one; at most `n` pages. -/
def lookupPages [Crates] [Lowercase] [FloatText] (c : String) (keys : List String) (count : UInt64)
    (maxBodySize maxKeysPerRequest : ℕ) : ℕ → ℕ → Op (List Json)
  | 0, _ => return []
  | n + 1, i => do
    let r ← processGet (keysQuery c keys count (UInt64.ofNat (i * count.toNat))) maxBodySize
      maxKeysPerRequest
    match pageDocs r with
    | some (d :: docs) => do
      let rest ← lookupPages c keys count maxBodySize maxKeysPerRequest n (i + 1)
      return d :: docs ++ rest
    | _ => return []

/-- The same database, with hash maps that are walked in these orders. -/
def Db.walked (db : Db) (order : ℕ → List String → List String)
    (hperm : ∀ n ks, (order n ks).Perm ks) : Db :=
  { db with world := { db.world with order := order, order_perm := hperm } }

/-- In whatever orders hash maps are walked, the pages have every document of the keys, once. -/
def Db.PagesExact [Crates] [Lowercase] [FloatText] (db : Db) (c : String) (keys : List String)
    (count : UInt64) (maxBodySize maxKeysPerRequest : ℕ) : Prop :=
  ∀ (order : ℕ → List String → List String) (hperm : ∀ n ks, (order n ks).Perm ks) (n : ℕ),
    keys.length + 1 < n → ∃ docs db',
      lookupPages c keys count maxBodySize maxKeysPerRequest n 0 (db.walked order hperm) =
        (.ok docs, db') ∧
      docs.Perm ((db.requested c keys).map (db.listed c))

/-! ## The hash map of the documents -/

section

variable {db : Db} {c : String} {keys : List String}

/-- Entries are put into a map key by key. -/
theorem get?_foldl {F : DashMap Json → String → DashMap Json} {shown : String → Option Json}
    (hF : ∀ found key (k : String),
      (F found key)[k]? = if k = key then (shown k).or found[k]? else found[k]?)
    (keys : List String) (found : DashMap Json) (k : String) :
    (keys.foldl F found)[k]? = if k ∈ keys then (shown k).or found[k]? else found[k]? := by
  induction keys generalizing found with
  | nil => rfl
  | cons key keys ih =>
    rw [List.foldl_cons, ih, hF]
    by_cases hk : k = key
    · cases shown k with
      | none => simp [hk]
      | some v => simp [hk]
    · simp only [List.mem_cons, hk, false_or, if_false]

theorem Db.get?_get (db : Db) (c : String) (keys : List String) (k : String) :
    (db.get c keys)[k]? = if k ∈ keys then db.shown c k else none := by
  rw [Db.get, Db.shown, Db.bytes, Db.col]
  cases db.state[c]? with
  | none => simp
  | some col =>
    refine (@get?_foldl _ (fun k => (col[k]?.bind msgpackToValue).map expandSystemFields)
      (fun found key k => ?_) keys ∅ k).trans ?_
    · rw [decodeKey]
      by_cases hk : k = key
      · subst hk
        cases col[k]?.bind msgpackToValue with
        | none => simp
        | some v => simp
      · rw [if_neg hk]
        cases col[key]?.bind msgpackToValue with
        | none => rfl
        | some v => exact (Map.get?_insert _ _ _ _).trans (if_neg hk)
    · simp

theorem Db.mem_requested {ks : List String} {k : String} {v : Json} :
    (k, v) ∈ db.requested c ks ↔ k ∈ ks ∧ db.shown c k = some v := by
  rw [Db.requested, List.mem_filterMap]
  constructor
  · rintro ⟨k', hk', h⟩
    obtain ⟨v', hv', heq⟩ := Option.map_eq_some_iff.1 h
    obtain ⟨rfl, rfl⟩ := Prod.mk.inj heq
    exact ⟨hk', hv'⟩
  · rintro ⟨hk, hv⟩
    exact ⟨k, hk, by rw [hv]; rfl⟩

theorem Db.nodup_requested {ks : List String} (h : ks.Nodup) : (db.requested c ks).Nodup := by
  refine h.filterMap fun k k' d hd hd' => ?_
  obtain ⟨v, -, rfl⟩ := Option.map_eq_some_iff.1 hd
  obtain ⟨v', -, heq⟩ := Option.map_eq_some_iff.1 hd'
  exact (Prod.mk.inj heq).1.symm

/-- The hash map holds the documents of the keys. -/
theorem Db.toList_get_perm (hnodup : keys.Nodup) :
    (db.get c keys).toList.Perm (db.requested c keys) := by
  refine (List.perm_ext_iff_of_nodup ?_ (Db.nodup_requested hnodup)).2 fun ⟨k, v⟩ => ?_
  · refine List.Nodup.of_map Prod.fst ?_
    rw [Std.ExtTreeMap.map_fst_toList_eq_keys]
    exact Map.nodup_keys _
  · rw [Map.mem_toList, Db.get?_get, Db.mem_requested]
    split_ifs with hk
    · exact (and_iff_right hk).symm
    · exact iff_of_false (fun h => by cases h) fun h => hk h.1

end

/-! ## One page -/

section

variable [Crates] [Lowercase] [FloatText] {db : Db} {c : String} {keys : List String}
  {count offset : UInt64} {maxBodySize maxKeysPerRequest : ℕ}

/-- The documents of the keys, in the order in which their hash map is walked next. -/
def Db.walkedKeys (db : Db) (c : String) (keys : List String) (tick : ℕ) : List (String × Json) :=
  (db.get c keys).inOrder (db.world.order tick (db.get c keys).keys)

omit [FloatText] in
theorem wp_fetchKeys (db₀ : Db) {Q : List (String × Json) → Db → Prop} {E : DbError → Db → Prop}
    (h : Q (db.walkedKeys c keys db.tick) { db with tick := db.tick + 1 }) :
    wp (fetchDocuments (lookupParams db₀ c keys count offset)) Q E db := by
  change wp (fetchKeys (lookupParams db₀ c keys count offset)
    ((keys.map Json.str).filterMap Json.asStr)) Q E db
  rw [filterMap_asStr]
  exact h

/-- **A page of the lookup** is cut from the documents in the order in which they come. -/
theorem processGet_keys (hcount : count.toNat ≤ 1000) (hroom : offset.toNat + count.toNat < 2 ^ 64)
    (hvalid : validateGetRequest (keysQuery c keys count offset) maxBodySize maxKeysPerRequest =
      .ok ()) (hexp : ¬ db.Expired c) :
    processGet (keysQuery c keys count offset) maxBodySize maxKeysPerRequest db =
      (.ok (documentsResponse ((((db.walkedKeys c keys (db.tick + 1)).drop offset.toNat).take
        count.toNat).map (db.listed c))), { db with tick := db.tick + 2 }) := by
  have hparse : parseGetParams { db with tick := db.tick + 1 } (db.world.clock db.tick)
      (keysQuery c keys count offset) = .ok (lookupParams db c keys count offset) := by
    have hlimit : ¬ MAX_COUNT < count.toNat := not_lt.2 hcount
    have hparse : parseGetParams { db with tick := db.tick + 1 } (db.world.clock db.tick)
        (keysQuery c keys count offset) =
        if decide (MAX_COUNT < count.toNat) = true then
          .error (GetError.countExceeded MAX_COUNT).intoResponse
        else if db.ttlExpiry[c]?.any fun exp => collectionIsExpired exp (db.world.clock db.tick) then
          .error GetError.collectionExpired.intoResponse
        else .ok (lookupParams db c keys count offset) := rfl
    rw [hparse, if_neg (by simpa using hlimit)]
    exact if_neg hexp
  rw [processGet_general hvalid hparse rfl]
  have hrun : wp (runGeneralPath (lookupParams db c keys count offset)) (fun r db' =>
      r = documentsResponse ((((db.walkedKeys c keys (db.tick + 1)).drop offset.toNat).take
        count.toNat).map (db.listed c)) ∧ db' = { db with tick := db.tick + 2 }) (fun _ _ => False)
      { db with tick := db.tick + 1 } := by
    rw [runGeneralPath, wp_bind]
    refine wp_fetchKeys db ?_
    have hwalked : Db.walkedKeys { db with tick := db.tick + 1 } c keys (db.tick + 1) =
        db.walkedKeys c keys (db.tick + 1) := rfl
    rw [hwalked, wp_bind, wp_get, filterAndJoinDocs_of_ok (f := fun d => some (d.1, d.2, []))
      fun d _ => rfl, List.filterMap_eq_map']
    cases db.walkedKeys c keys (db.tick + 1) with
    | nil =>
      rw [List.drop_nil, List.take_nil]
      exact ⟨rfl, rfl⟩
    | cons d docs =>
      refine ⟨?_, rfl⟩
      change documentsResponse ((((List.map _ (d :: docs)).take
        (usizeAdd offset.toNat count.toNat)).drop offset.toNat).map _) = _
      rw [usizeAdd, Nat.mod_eq_of_lt hroom, List.drop_take, Nat.add_sub_cancel_left, ← List.map_drop,
        ← List.map_take, List.map_map]
      rfl
  obtain ⟨r, db', hm, rfl, rfl⟩ := exists_of_wp hrun
  exact hm

/-! ## All pages -/

omit [Crates] [Lowercase] [FloatText] in
theorem Db.walkedKeys_perm (hnodup : keys.Nodup) (tick : ℕ) :
    (db.walkedKeys c keys tick).Perm (db.requested c keys) :=
  (Map.inOrder_perm (db.world.order_perm _ _)).trans (Db.toList_get_perm hnodup)

omit [Crates] [Lowercase] [FloatText] in
theorem Db.length_walkedKeys_le (hnodup : keys.Nodup) (tick : ℕ) :
    (db.walkedKeys c keys tick).length ≤ keys.length := by
  rw [(Db.walkedKeys_perm hnodup tick).length_eq]
  exact List.length_filterMap_le _ _

/-- The pages are those of the documents in the orders in which they come. -/
theorem wp_lookupPages (hnodup : keys.Nodup) (hlen : keys.length < 2 ^ 63) (hcount : 0 < count.toNat)
    (hmax : count.toNat ≤ 1000)
    (hvalid : ∀ i : ℕ, i * count.toNat < keys.length + count.toNat →
      validateGetRequest (keysQuery c keys count (UInt64.ofNat (i * count.toNat))) maxBodySize
        maxKeysPerRequest = .ok ()) (hexp : ∀ n, ¬ Db.Expired { db with tick := n } c)
    (n i : ℕ) (hi : i * count.toNat < keys.length + count.toNat) :
    wp (lookupPages c keys count maxBodySize maxKeysPerRequest n i)
      (fun docs _ => docs = (Pages.pages count.toNat
        (fun j => db.walkedKeys c keys (db.tick + 2 * j + 1)) n i).map (db.listed c))
      (fun _ _ => False) { db with tick := db.tick + 2 * i } := by
  induction n generalizing i with
  | zero => exact rfl
  | succ n ih =>
    have hoffset : (UInt64.ofNat (i * count.toNat)).toNat = i * count.toNat := by
      rw [UInt64.toNat_ofNat', Nat.mod_eq_of_lt (by omega)]
    have hroom : (UInt64.ofNat (i * count.toNat)).toNat + count.toNat < 2 ^ 64 := by
      rw [hoffset]
      omega
    have hpage := processGet_keys hmax hroom (hvalid i hi) (hexp (db.tick + 2 * i))
    rw [hoffset] at hpage
    rw [lookupPages, wp_bind]
    refine wp_of_run hpage ?_
    rw [pageDocs_documentsResponse, Pages.pages]
    change wp _ _ _ { db with tick := db.tick + 2 * (i + 1) }
    have hwalked : Db.walkedKeys { db with tick := db.tick + 2 * i } c keys (db.tick + 2 * i + 1) =
        db.walkedKeys c keys (db.tick + 2 * i + 1) := rfl
    rw [hwalked]
    cases hitems : ((db.walkedKeys c keys (db.tick + 2 * i + 1)).drop (i * count.toNat)).take
      count.toNat with
    | nil => exact rfl
    | cons d page =>
      have hnext : (i + 1) * count.toNat < keys.length + count.toNat := by
        have hpos := congrArg List.length hitems
        rw [List.length_take, List.length_drop, List.length_cons] at hpos
        have hle := db.length_walkedKeys_le (c := c) hnodup (db.tick + 2 * i + 1)
        have hsucc : (i + 1) * count.toNat = i * count.toNat + count.toNat := by ring
        omega
      rw [List.map_cons]
      dsimp only
      rw [wp_bind]
      refine wp_mono (ih (i + 1) hnext) (fun rest _ hrest => ?_) fun _ _ h => h
      rw [wp_pure, hrest, List.map_append, List.map_cons]
      rfl

end

/-! ## All orders -/

section

variable {db : Db} {c : String} {keys : List String}

/-- A map is walked in the order of a list of all its bindings. -/
theorem inOrder_map_fst {m : DashMap Json} {es : List (String × Json)} (h : es.Perm m.toList) :
    m.inOrder (es.map Prod.fst) = es := by
  rw [Map.inOrder, List.filterMap_map, ← List.filterMap_some (l := es)]
  refine (List.filterMap_congr fun e he => ?_).trans (by rw [List.filterMap_some])
  rw [List.filterMap_some] at he
  have hget : m[e.1]? = some e.2 := Map.mem_toList.1 (h.mem_iff.1 he)
  rw [Function.comp_apply, hget]
  rfl

/-- The documents come in any orders, one for each page. -/
theorem exists_walked (hnodup : keys.Nodup) {lists : ℕ → List (String × Json)}
    (hlists : ∀ i, (lists i).Perm (db.requested c keys)) :
    ∃ (order : ℕ → List String → List String) (hperm : ∀ n ks, (order n ks).Perm ks),
      ∀ i, (db.walked order hperm).walkedKeys c keys (db.tick + 2 * i + 1) = lists i := by
  have hmap : ∀ i, (lists i).Perm (db.get c keys).toList := fun i =>
    (hlists i).trans (Db.toList_get_perm hnodup).symm
  refine ⟨fun n ks => if ks = (db.get c keys).keys then (lists ((n - db.tick) / 2)).map Prod.fst
    else ks, fun n ks => ?_, fun i => ?_⟩
  · dsimp only
    split_ifs with hks
    · rw [hks, ← Std.ExtTreeMap.map_fst_toList_eq_keys]
      exact (hmap _).map _
    · exact .refl _
  · have hi : (db.tick + 2 * i + 1 - db.tick) / 2 = i := by omega
    change (db.get c keys).inOrder (if (db.get c keys).keys = (db.get c keys).keys then
      (lists ((db.tick + 2 * i + 1 - db.tick) / 2)).map Prod.fst else _) = lists i
    rw [if_pos rfl, hi, inOrder_map_fst (hmap i)]

end

/-- **The pages of a lookup** have every document once, in whatever orders the hash map is walked,
    exactly if there is one page, or all documents are listed alike. -/
theorem key_pages_iff [Crates] [Lowercase] [FloatText] {db : Db} {c : String} {keys : List String}
    (hnodup : keys.Nodup) (hlen : keys.length < 2 ^ 63) {count : UInt64} (hcount : 0 < count.toNat)
    (hmax : count.toNat ≤ 1000) {maxBodySize maxKeysPerRequest : ℕ}
    (hvalid : ∀ i : ℕ, i * count.toNat < keys.length + count.toNat →
      validateGetRequest (keysQuery c keys count (UInt64.ofNat (i * count.toNat))) maxBodySize
        maxKeysPerRequest = .ok ()) (hexp : ∀ n, ¬ Db.Expired { db with tick := n } c) :
    db.PagesExact c keys count maxBodySize maxKeysPerRequest ↔
      (db.requested c keys).length ≤ count.toNat ∨
        ∀ d ∈ db.requested c keys, ∀ d' ∈ db.requested c keys, db.listed c d = db.listed c d' := by
  have hshort : (db.requested c keys).length ≤ keys.length := List.length_filterMap_le _ _
  have hpages : ∀ order hperm (n : ℕ), wp (lookupPages c keys count maxBodySize maxKeysPerRequest n 0)
      (fun docs _ => docs = (Pages.pages count.toNat (fun j =>
        (db.walked order hperm).walkedKeys c keys (db.tick + 2 * j + 1)) n 0).map (db.listed c))
      (fun _ _ => False) (db.walked order hperm) := fun order hperm n =>
    @wp_lookupPages _ _ _ (db.walked order hperm) _ _ _ _ _ hnodup hlen hcount hmax hvalid hexp n 0
      (by omega)
  constructor
  · intro h
    refine (Pages.pages_perm_iff (db.listed c) hcount (n := keys.length + 2) (by omega)
      (by omega)).1 fun lists hlists => ?_
    obtain ⟨order, hperm, hwalked⟩ := exists_walked hnodup hlists
    obtain ⟨docs, db', hrun, hdocs⟩ := h order hperm (keys.length + 2) (by omega)
    have heq := wp_of_ok (hpages order hperm _) hrun
    simp only [hwalked] at heq
    rw [heq] at hdocs
    exact hdocs
  · intro h order hperm n hn
    obtain ⟨docs, db', hrun, rfl⟩ := exists_of_wp (hpages order hperm n)
    refine ⟨_, db', hrun, ?_⟩
    exact (Pages.pages_perm_iff (db.listed c) hcount (by omega) (by omega)).2 h _ fun i =>
      Db.walkedKeys_perm hnodup _

/-- Two documents on one page. -/
theorem key_pages_iff_two :
    letI := Crates.plain
    letI := Lowercase.ascii
    letI := FloatText.plain
    ofTwoDocuments.PagesExact "c" ["a", "b"] 2 1000 10 := by
  let _ := Crates.plain
  let _ := Lowercase.ascii
  let _ := FloatText.plain
  refine (key_pages_iff (by decide) (by decide) (by decide) (by decide) (fun i hi => ?_)
    fun n => ?_).2 (Or.inl ?_)
  · have hi2 : i < 2 := by
      have htwo : (2 : UInt64).toNat = 2 := rfl
      rw [htwo, List.length_cons, List.length_singleton] at hi
      omega
    interval_cases i
    · decide +kernel
    · decide +kernel
  · rw [Db.Expired, ofTwoDocuments, Db.blank, Map.get?_empty]
    exact Bool.false_ne_true
  · exact List.length_filterMap_le _ ["a", "b"]

/-- Hash maps are walked backwards at the fourth tick, which is that of the second page. -/
def secondBackwards (n : ℕ) (ks : List String) : List String := if n = 3 then ks.reverse else ks

theorem secondBackwards_perm (n : ℕ) (ks : List String) : (secondBackwards n ks).Perm ks := by
  unfold secondBackwards
  split_ifs
  · exact List.reverse_perm ks
  · exact .refl ks

/-- Two documents on two pages, and the hash map walked backwards for the second one: the first
    document is on both. -/
theorem lookup_repeats :
    letI := Crates.plain
    letI := Lowercase.ascii
    letI := FloatText.plain
    ¬ ofTwoDocuments.PagesExact "c" ["a", "b"] 1 1000 10 := by
  let _ := Crates.plain
  let _ := Lowercase.ascii
  let _ := FloatText.plain
  intro h
  obtain ⟨docs, db', hrun, hdocs⟩ := h secondBackwards secondBackwards_perm 4 (by decide)
  have htwice : (lookupPages "c" ["a", "b"] 1 1000 10 4 0
      (ofTwoDocuments.walked secondBackwards secondBackwards_perm)).1 =
      .ok [ofTwoDocuments.listed "c" ("a", .obj [("n", .ofU64 7)]),
        ofTwoDocuments.listed "c" ("a", .obj [("n", .ofU64 7)])] := by
    decide +kernel
  rw [hrun] at htwice
  obtain rfl := Except.ok.inj htwice
  revert hdocs
  decide +kernel

end MoltenDB
