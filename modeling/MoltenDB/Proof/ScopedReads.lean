/-
  What a token with scopes of documents reads.

  The handler of queries asks for the keys that the token names or, if it has a prefix, for the
  prefixes alone; a token that names no key is refused.  So it serves what the token may read
  exactly if this one of the two is what the token may read (`scoped_read_iff`): keys alone are,
  prefixes alone never are.
-/
import MoltenDB.Proof.PlainQueries
import MoltenDB.Proof.ScopeKeys
import MoltenDB.Server.Handlers

namespace MoltenDB

open Prog Prog.Eff

/-! ## The query of a token -/

namespace Claims

variable (claims : Claims) (c : String)

/-- The token has scopes of keys and of prefixes only. -/
def DocumentScoped : Prop :=
  ∀ p ∈ claims.keyPatterns ACTION_READ c, '*' ∉ p.toList ∨ isPrefixPattern p = true

instance : Decidable (claims.DocumentScoped c) :=
  inferInstanceAs (Decidable (∀ p ∈ claims.keyPatterns ACTION_READ c, _))

/-- The keys that the handler asks for. -/
def queriedKeys : Option (List String) :=
  if claims.hasCollectionAccess ACTION_READ c || claims.hasPrefixWildcard ACTION_READ c then none
  else some (claims.allowedKeys ACTION_READ c)

/-- The prefixes that the handler asks for. -/
def queriedPrefixes : Option (List String) :=
  if claims.hasCollectionAccess ACTION_READ c then none
  else if claims.hasPrefixWildcard ACTION_READ c then some (claims.extractPrefixes ACTION_READ c)
  else none

/-- The request that names the collection, with the keys or the prefixes of the token. -/
def scopedQuery : Json := plainQuery c (claims.queriedKeys c) (claims.queriedPrefixes c)

end Claims

/-- The documents of the collection that the token may read. -/
def Db.readable (db : Db) (claims : Claims) (c : String) : List (String × Json) :=
  db.requested c ((db.keys c).filter (claims.hasAccess ACTION_READ c))

/-- The response lists what the token may read; it is a refusal only of a token that has no scope
    to read in the collection. -/
def Db.Served (db : Db) (claims : Claims) (c : String) (r : Response) : Prop :=
  ((pageDocs r).getD []).Perm ((db.readable claims c).map (db.listed c)) ∧
    (r.1 = 403 → claims.keyPatterns ACTION_READ c = [])

section

variable [Crates] [Lowercase] [FloatText]

/-- A request that names only the collection is served. -/
def Db.ServesToken (db : Db) (claims : Claims) (c : String) (maxBodySize maxKeysPerRequest : ℕ) :
    Prop :=
  ∃ (r : Response) (db' : Db), handleGet claims (plainQuery c none none) maxBodySize
    maxKeysPerRequest db = (.ok (some r), db') ∧ db.Served claims c r

/-- The scopes of the token come to a query for what it may read. -/
structure Db.ScopesSuffice (db : Db) (claims : Claims) (c : String)
    (maxBodySize maxKeysPerRequest : ℕ) : Prop where
  named : claims.hasCollectionAccess ACTION_READ c = true ∨ claims.allowedKeys ACTION_READ c ≠ []
  /-- The query is valid, if there is anything to read. -/
  valid : (∃ k ∈ db.keys c, claims.hasAccess ACTION_READ c k = true) →
    validateGetRequest (claims.scopedQuery c) maxBodySize maxKeysPerRequest = .ok ()
  /-- A token that is taken for one of the whole collection may read all of it. -/
  whole : validateGetRequest (claims.scopedQuery c) maxBodySize maxKeysPerRequest = .ok () →
    claims.hasCollectionAccess ACTION_READ c = true →
    ∀ k ∈ db.keys c, claims.hasAccess ACTION_READ c k = true
  /-- If there are prefixes, the keys that start with one are those that the token may read. -/
  prefixes : validateGetRequest (claims.scopedQuery c) maxBodySize maxKeysPerRequest = .ok () →
    claims.hasCollectionAccess ACTION_READ c = false →
    claims.hasPrefixWildcard ACTION_READ c = true → ∀ k ∈ db.keys c,
      startsWithAny (claims.extractPrefixes ACTION_READ c) k = claims.hasAccess ACTION_READ c k

variable {db : Db} {claims : Claims} {c : String} {maxBodySize maxKeysPerRequest : ℕ}

/-! ## The branches of the handler -/

theorem handleGet_refused (hwhole : claims.hasCollectionAccess ACTION_READ c = false)
    (hnone : claims.allowedKeys ACTION_READ c = []) :
    handleGet claims (plainQuery c none none) maxBodySize maxKeysPerRequest db =
      (.ok (some (forbidden ("token has no read access to collection '" ++ c ++ "'"))), db) := by
  have hname : (namedCollection (plainQuery c none none)).getD "" = c := rfl
  unfold handleGet
  dsimp only
  rw [hname, hwhole, if_neg Bool.false_ne_true, if_pos hnone]
  rfl

/-- A refusal serves tokens without scopes only. -/
theorem keyPatterns_of_refused (hwhole : claims.hasCollectionAccess ACTION_READ c = false)
    (hnone : claims.allowedKeys ACTION_READ c = [])
    (hserves : db.ServesToken claims c maxBodySize maxKeysPerRequest) :
    claims.keyPatterns ACTION_READ c = [] := by
  obtain ⟨r, db', hrun, -, hstatus⟩ := hserves
  rw [handleGet_refused hwhole hnone] at hrun
  obtain rfl := Option.some.inj (Except.ok.inj (congrArg Prod.fst hrun))
  exact hstatus rfl

omit [Crates] [Lowercase] [FloatText] in
theorem extractPrefixes_ne_nil (hadmin : claims.isAdmin = false)
    (hpre : claims.hasPrefixWildcard ACTION_READ c = true) :
    claims.extractPrefixes ACTION_READ c ≠ [] := by
  obtain ⟨p, hp, hpattern⟩ := List.any_eq_true.1 hpre
  rw [Claims.extractPrefixes, hadmin, if_neg Bool.false_ne_true]
  refine List.ne_nil_of_mem (List.mem_map_of_mem (List.mem_filter.2 ⟨hp, hpattern⟩))

omit [Crates] [Lowercase] [FloatText] in
theorem assign_keys (ks : List String) :
    assign (plainQuery c none none) "keys" (.arr (ks.map .str)) =
      some (plainQuery c (some ks) none) := by
  have hlt : (compare "collection" "keys" == .lt) = true := by decide
  have hgt : (compare "keys" "collection" == .lt) = false := by decide
  simp [assign, plainQuery, Fields.insert, hlt, hgt]

omit [Crates] [Lowercase] [FloatText] in
theorem assign_prefixes (ps : List String) :
    assign (.obj (Fields.erase "_allowed_prefixes" [("collection", .str c)])) "_allowed_prefixes"
      (.arr (ps.map .str)) = some (plainQuery c none (some ps)) := by
  have hlt : (compare "_allowed_prefixes" "collection" == .lt) = true := by decide
  have hgt : (compare "collection" "_allowed_prefixes" == .lt) = false := by decide
  simp [assign, plainQuery, Fields.insert, Fields.erase, hlt, hgt]

omit [Crates] [Lowercase] [FloatText] in
/-- The payload is cut down to the prefixes of the token, or to its keys. -/
theorem scopedPayload_plainQuery (hadmin : claims.isAdmin = false)
    (hwhole : claims.hasCollectionAccess ACTION_READ c = false) :
    scopedPayload claims c (plainQuery c none none) = some (claims.scopedQuery c) := by
  unfold scopedPayload Claims.scopedQuery Claims.queriedKeys Claims.queriedPrefixes
  rw [hwhole, Bool.false_or, if_neg Bool.false_ne_true]
  split_ifs with hpre
  · dsimp only
    rw [if_neg (extractPrefixes_ne_nil hadmin hpre)]
    exact assign_prefixes _
  · exact assign_keys _

/-- **The handler runs the query of the token**, if it does not refuse it. -/
theorem handleGet_scoped (hadmin : claims.isAdmin = false)
    (hnamed : claims.hasCollectionAccess ACTION_READ c = true ∨
      claims.allowedKeys ACTION_READ c ≠ []) :
    handleGet claims (plainQuery c none none) maxBodySize maxKeysPerRequest =
      some <$> processGet (claims.scopedQuery c) maxBodySize maxKeysPerRequest := by
  have hname : (namedCollection (plainQuery c none none)).getD "" = c := rfl
  have hkeys : (plainQuery c none none).field .keys = none := rfl
  unfold handleGet
  dsimp only
  rw [hname]
  cases hwhole : claims.hasCollectionAccess ACTION_READ c with
  | true =>
    rw [if_pos rfl, Claims.scopedQuery, Claims.queriedKeys, Claims.queriedPrefixes, hwhole]
    rfl
  | false =>
    have hsome : claims.allowedKeys ACTION_READ c ≠ [] := by
      refine hnamed.resolve_left ?_
      rw [hwhole]
      exact Bool.false_ne_true
    rw [if_neg Bool.false_ne_true, if_neg hsome, hkeys]
    dsimp only
    rw [scopedPayload_plainQuery hadmin hwhole]

/-- The handler answers as the query of the token. -/
theorem servesToken_iff (hadmin : claims.isAdmin = false)
    (hnamed : claims.hasCollectionAccess ACTION_READ c = true ∨
      claims.allowedKeys ACTION_READ c ≠ []) {r : Response} {db' : Db}
    (hrun : processGet (claims.scopedQuery c) maxBodySize maxKeysPerRequest db = (.ok r, db')) :
    db.ServesToken claims c maxBodySize maxKeysPerRequest ↔ db.Served claims c r := by
  have hget : handleGet claims (plainQuery c none none) maxBodySize maxKeysPerRequest db =
      (.ok (some r), db') := by
    rw [handleGet_scoped hadmin hnamed]
    change Eff.bind _ _ _ = _
    rw [Eff.bind, hrun]
    rfl
  constructor
  · rintro ⟨r', db'', hrun', hserved⟩
    obtain rfl := Option.some.inj (Except.ok.inj (congrArg Prod.fst (hget.symm.trans hrun')))
    exact hserved
  · exact fun hserved => ⟨r, db', hget, hserved⟩

/-- A valid query serves what the token may read exactly if it asks for that. -/
theorem Orderly.servesToken_valid (h : Orderly db c) (hcount : db.count c ≤ DEFAULT_COUNT)
    (hexp : ¬ db.Expired c) (hadmin : claims.isAdmin = false)
    (hnamed : claims.hasCollectionAccess ACTION_READ c = true ∨
      claims.allowedKeys ACTION_READ c ≠ [])
    (hvalid : validateGetRequest (claims.scopedQuery c) maxBodySize maxKeysPerRequest = .ok ()) :
    db.ServesToken claims c maxBodySize maxKeysPerRequest ↔ ∀ k ∈ db.keys c,
      asksFor (claims.queriedKeys c) (claims.queriedPrefixes c) k =
        claims.hasAccess ACTION_READ c k := by
  have hne : claims.queriedPrefixes c ≠ some [] := by
    unfold Claims.queriedPrefixes
    split_ifs with hwhole hpre
    · exact Option.some_ne_none [] ∘ Eq.symm
    · exact fun heq => extractPrefixes_ne_nil hadmin hpre (Option.some.inj heq)
    · exact Option.some_ne_none [] ∘ Eq.symm
  obtain ⟨raw, db', hraw, hrun⟩ := h.processGet_plain hcount hexp hne hvalid
  rw [servesToken_iff hadmin hnamed hrun, Db.Served, pageDocs_documentsResponse, Option.getD_some,
    and_iff_left fun hstatus => ?_, (hraw.map _).congr_left, Db.readable, h.listed_perm_iff]
  unfold documentsResponse at hstatus
  split_ifs at hstatus
  · cases hstatus
  · cases hstatus

/-- A query that is not valid gets nothing. -/
theorem Orderly.servesToken_invalid (h : Orderly db c) (hadmin : claims.isAdmin = false)
    (hnamed : claims.hasCollectionAccess ACTION_READ c = true ∨
      claims.allowedKeys ACTION_READ c ≠ [])
    (hvalid : validateGetRequest (claims.scopedQuery c) maxBodySize maxKeysPerRequest ≠ .ok ()) :
    db.ServesToken claims c maxBodySize maxKeysPerRequest ↔
      ¬ ∃ k ∈ db.keys c, claims.hasAccess ACTION_READ c k = true := by
  obtain ⟨r, hr⟩ : ∃ r, validateGetRequest (claims.scopedQuery c) maxBodySize maxKeysPerRequest =
      .error r := by
    cases hcheck : validateGetRequest (claims.scopedQuery c) maxBodySize maxKeysPerRequest with
    | error r => exact ⟨r, rfl⟩
    | ok u => exact absurd hcheck hvalid
  have hstatus := validateGetRequest_error hr
  rw [servesToken_iff hadmin hnamed (processGet_invalid hr), Db.Served]
  obtain ⟨code, body⟩ := r
  obtain rfl : code = 400 := hstatus
  have hnone : (pageDocs (400, body)).getD [] = [] := rfl
  rw [hnone, and_iff_left (fun h400 => by cases h400), List.nil_perm, List.map_eq_nil_iff,
    Db.readable, List.eq_nil_iff_forall_not_mem]
  constructor
  · rintro hnothing ⟨k, hk, hreads⟩
    obtain ⟨v, hv⟩ := h.exists_shown hk
    exact hnothing (k, v) (Db.mem_requested.2 ⟨List.mem_filter.2 ⟨hk, hreads⟩, hv⟩)
  · rintro hnothing ⟨k, v⟩ hd
    obtain ⟨hk, hreads⟩ := List.mem_filter.1 (Db.mem_requested.1 hd).1
    exact hnothing ⟨k, hk, hreads⟩

/-! ## Keys alone -/

omit [Crates] [Lowercase] [FloatText] in
/-- A pattern without stars matches itself only. -/
theorem keyMatches_of_starless {p k : String} (hp : '*' ∉ p.toList) :
    keyMatches p k = true ↔ p = k := by
  unfold keyMatches
  split_ifs with hall hstar
  · subst hall
    exact absurd List.mem_cons_self hp
  · exact absurd (List.mem_of_getLast? hstar) hp
  · exact beq_iff_eq

omit [Crates] [Lowercase] [FloatText] in
/-- A token without prefixes may read the keys that it names. -/
theorem hasAccess_of_keys (hadmin : claims.isAdmin = false) (hscoped : claims.DocumentScoped c)
    (hpre : claims.hasPrefixWildcard ACTION_READ c = false) (k : String) :
    (claims.allowedKeys ACTION_READ c).contains k = claims.hasAccess ACTION_READ c k := by
  have hstarless : ∀ p ∈ claims.keyPatterns ACTION_READ c, '*' ∉ p.toList := by
    intro p hp
    rcases hscoped p hp with hkey | hpattern
    · exact hkey
    · rw [Claims.hasPrefixWildcard, List.any_eq_false] at hpre
      exact absurd hpattern (hpre p hp)
  rw [Bool.eq_iff_iff, Claims.hasAccess_iff hadmin, List.contains_iff_mem, Claims.allowedKeys,
    List.mem_filter]
  constructor
  · rintro ⟨hk, -⟩
    exact ⟨k, hk, (keyMatches_of_starless (hstarless k hk)).2 rfl⟩
  · rintro ⟨p, hp, hmatch⟩
    obtain rfl := (keyMatches_of_starless (hstarless p hp)).1 hmatch
    exact ⟨hp, by simpa using hstarless p hp⟩

/-! ## All branches -/

omit [Crates] [Lowercase] [FloatText] in
/-- A token without scopes to read in the collection may read none of it. -/
theorem hasAccess_of_unscoped (hadmin : claims.isAdmin = false)
    (hnone : claims.keyPatterns ACTION_READ c = []) (k : String) :
    claims.hasAccess ACTION_READ c k = false := by
  rw [Bool.eq_false_iff, Ne, Claims.hasAccess_iff hadmin, hnone]
  rintro ⟨p, hp, -⟩
  cases hp

omit [Crates] [Lowercase] in
/-- What the handler asks for, key by key. -/
theorem scopesSuffice_of_named (hadmin : claims.isAdmin = false)
    (hscoped : claims.DocumentScoped c)
    (hnamed : claims.hasCollectionAccess ACTION_READ c = true ∨
      claims.allowedKeys ACTION_READ c ≠ [])
    (hvalid : validateGetRequest (claims.scopedQuery c) maxBodySize maxKeysPerRequest = .ok ()) :
    db.ScopesSuffice claims c maxBodySize maxKeysPerRequest ↔ ∀ k ∈ db.keys c,
      asksFor (claims.queriedKeys c) (claims.queriedPrefixes c) k =
        claims.hasAccess ACTION_READ c k := by
  unfold Claims.queriedKeys Claims.queriedPrefixes
  cases hwhole : claims.hasCollectionAccess ACTION_READ c with
  | true =>
    have hasks : ∀ k, asksFor (if (true || claims.hasPrefixWildcard ACTION_READ c) = true then none
        else some (claims.allowedKeys ACTION_READ c)) (if true = true then none
        else if claims.hasPrefixWildcard ACTION_READ c = true then
          some (claims.extractPrefixes ACTION_READ c) else none) k = true := fun _ => rfl
    constructor
    · intro hsuffice k hk
      rw [hasks, hsuffice.whole hvalid hwhole k hk]
    · intro hall
      refine ⟨hnamed, fun _ => hvalid, fun _ _ k hk => ?_, fun _ hno => ?_⟩
      · rw [← hall k hk, hasks]
      · rw [hwhole] at hno
        cases hno
  | false =>
    cases hpre : claims.hasPrefixWildcard ACTION_READ c with
    | true =>
      constructor
      · intro hsuffice k hk
        rw [← hsuffice.prefixes hvalid hwhole hpre k hk]
        rfl
      · intro hall
        refine ⟨hnamed, fun _ => hvalid, fun _ hyes => ?_, fun _ _ _ k hk => ?_⟩
        · rw [hwhole] at hyes
          cases hyes
        · rw [← hall k hk]
          rfl
    | false =>
      refine iff_of_true ⟨hnamed, fun _ => hvalid, fun _ hyes => ?_, fun _ _ hyes => ?_⟩
        fun k _ => ?_
      · rw [hwhole] at hyes
        cases hyes
      · rw [hpre] at hyes
        cases hyes
      · rw [← hasAccess_of_keys hadmin hscoped hpre]
        exact Bool.and_true _

/-- **A request that names only the collection** is answered with what the token may read, and
    refused only without any scope, exactly if the token has no scope to read in the collection
    or its scopes come to a query for what it may read. -/
theorem scoped_read_iff (hadmin : claims.isAdmin = false) (hscoped : claims.DocumentScoped c)
    (h : Orderly db c) (hcount : db.count c ≤ 100) (hexp : ¬ db.Expired c)
    (maxBodySize maxKeysPerRequest : ℕ) :
    db.ServesToken claims c maxBodySize maxKeysPerRequest ↔
      claims.keyPatterns ACTION_READ c = [] ∨
        db.ScopesSuffice claims c maxBodySize maxKeysPerRequest := by
  by_cases hnamed : claims.hasCollectionAccess ACTION_READ c = true ∨
      claims.allowedKeys ACTION_READ c ≠ []
  · have hpatterns : claims.keyPatterns ACTION_READ c ≠ [] := by
      intro hnone
      rcases hnamed with hwhole | hkeys
      · rw [Claims.hasCollectionAccess, hasAccess_of_unscoped hadmin hnone] at hwhole
        cases hwhole
      · rw [Claims.allowedKeys, hnone] at hkeys
        exact hkeys rfl
    rw [or_iff_right hpatterns]
    by_cases hvalid : validateGetRequest (claims.scopedQuery c) maxBodySize maxKeysPerRequest = .ok ()
    · rw [h.servesToken_valid hcount hexp hadmin hnamed hvalid,
        scopesSuffice_of_named hadmin hscoped hnamed hvalid]
    · rw [h.servesToken_invalid hadmin hnamed hvalid]
      constructor
      · intro hnothing
        exact ⟨hnamed, fun hreads => absurd hreads hnothing, fun hok => absurd hok hvalid,
          fun hok => absurd hok hvalid⟩
      · exact fun hsuffice hreads => hvalid (hsuffice.valid hreads)
  · obtain ⟨hwhole, hkeys⟩ := not_or.1 hnamed
    rw [Bool.not_eq_true] at hwhole
    constructor
    · exact fun hserves => .inl (keyPatterns_of_refused hwhole (not_not.1 hkeys) hserves)
    · rintro (hnone | hsuffice)
      · refine ⟨_, _, handleGet_refused hwhole (not_not.1 hkeys), ?_, fun _ => hnone⟩
        have hempty : db.readable claims c = [] := by
          rw [Db.readable, List.filter_eq_nil_iff.2 fun k _ => ?_]
          · rfl
          · rw [hasAccess_of_unscoped hadmin hnone]
            exact Bool.false_ne_true
        rw [hempty]
        exact List.Perm.refl _
      · exact absurd hsuffice.named hnamed

end

/-! ## Two tokens -/

theorem count_ofTwoDocuments : ofTwoDocuments.count "c" ≤ 100 := by decide +kernel

theorem not_expired_ofTwoDocuments : ¬ ofTwoDocuments.Expired "c" := by decide +kernel

/-- A token with one key reads its document. -/
theorem scoped_read_iff_key :
    letI := Crates.plain
    letI := Lowercase.ascii
    letI := FloatText.plain
    ofTwoDocuments.ServesToken (Claims.withScopes ["read:c:a"]) "c" 1000 10 := by
  let _ := Crates.plain
  let _ := Lowercase.ascii
  let _ := FloatText.plain
  have hkeys : (Claims.withScopes ["read:c:a"]).allowedKeys ACTION_READ "c" ≠ [] := by decide
  have hquery : (Claims.withScopes ["read:c:a"]).scopedQuery "c" =
      plainQuery "c" (some ["a"]) none := by
    have hqueried : (Claims.withScopes ["read:c:a"]).queriedKeys "c" = some ["a"] := by decide
    have hprefixes : (Claims.withScopes ["read:c:a"]).queriedPrefixes "c" = none := by decide
    rw [Claims.scopedQuery, hqueried, hprefixes]
  have hvalid : validateGetRequest ((Claims.withScopes ["read:c:a"]).scopedQuery "c") 1000 10 =
      .ok () := by
    rw [hquery]
    rfl
  refine (scoped_read_iff (by decide) (by decide) ofTwoDocuments_orderly count_ofTwoDocuments
    not_expired_ofTwoDocuments 1000 10).2 (.inr ⟨.inr hkeys, fun _ => hvalid, fun _ hwhole => ?_,
      fun _ _ hpre => ?_⟩)
  · exact absurd hwhole (by decide)
  · exact absurd hpre (by decide)

/-- A token with one prefix is refused, though there is a document that it may read. -/
theorem prefix_token_refused :
    letI := Crates.plain
    letI := Lowercase.ascii
    letI := FloatText.plain
    (Claims.withScopes ["read:c:a*"]).isAdmin = false ∧
      (Claims.withScopes ["read:c:a*"]).DocumentScoped "c" ∧ Orderly ofTwoDocuments "c" ∧
      ofTwoDocuments.count "c" ≤ 100 ∧ ¬ ofTwoDocuments.Expired "c" ∧ "a" ∈ ofTwoDocuments.keys "c" ∧
      (Claims.withScopes ["read:c:a*"]).hasAccess ACTION_READ "c" "a" = true ∧
      ¬ ofTwoDocuments.ServesToken (Claims.withScopes ["read:c:a*"]) "c" 1000 10 := by
  let _ := Crates.plain
  let _ := Lowercase.ascii
  let _ := FloatText.plain
  have hscopes : (Claims.withScopes ["read:c:a*"]).keyPatterns ACTION_READ "c" ≠ [] := by decide
  refine ⟨by decide, by decide, ofTwoDocuments_orderly, count_ofTwoDocuments,
    not_expired_ofTwoDocuments, by decide +kernel, by decide, fun hserves => ?_⟩
  exact hscopes (keyPatterns_of_refused (by decide) (by decide) hserves)

end MoltenDB
