/-
  Rules for the handlers of requests that write: one for each of their parts.
-/
import MoltenDB.Engine.Steps
import MoltenDB.Handlers.Writes

namespace MoltenDB

open Wire Prog Prog.Eff

/-- The settings after a registration of a TTL. -/
def Db.withTtlDefault (db : Db) (c : String) (secs : UInt64) : Db :=
  if secs = 0 then { db with ttlDefaults := db.ttlDefaults.erase c, ttlExpiry := db.ttlExpiry.erase c }
  else { db with ttlDefaults := db.ttlDefaults.insert c secs }

/-- The databases differ in the limits of collections at most: in how long documents live, and in
    how many there may be. -/
def Db.Limited (db db' : Db) : Prop :=
  ∃ ttlDefaults ttlExpiry maxSizes,
    db' = { db with ttlDefaults := ttlDefaults, ttlExpiry := ttlExpiry, maxSizes := maxSizes }

theorem Db.Limited.refl (db : Db) : db.Limited db := ⟨_, _, _, rfl⟩

theorem Db.limited_withTtlDefault (db : Db) (c : String) (secs : UInt64) :
    db.Limited (db.withTtlDefault c secs) := by
  unfold Db.withTtlDefault
  split_ifs <;> exact ⟨_, _, _, rfl⟩

namespace Db.Limited

variable {db db' : Db} (h : db.Limited db')

include h

theorem withMaxSize (c : String) (max : ℕ) :
    db.Limited { db' with maxSizes := db'.maxSizes.insert c max } := by
  obtain ⟨_, _, _, rfl⟩ := h
  exact ⟨_, _, _, rfl⟩

theorem state : db'.state = db.state := by
  obtain ⟨_, _, _, rfl⟩ := h
  rfl

theorem world : db'.world = db.world := by
  obtain ⟨_, _, _, rfl⟩ := h
  rfl

end Db.Limited

section

variable {db : Db} {c : String} {Q : Response → Db → Prop} {E : DbError → Db → Prop}
  {next : Op Response} {invalid : Response}

theorem wp_validated {check : Except ValidationError Unit} (herror : ∀ e : ValidationError, Q e.intoResponse db)
    (h : check = .ok () → wp next Q E db) : wp (validated check next) Q E db := by
  cases check with
  | error e => exact herror e
  | ok u => exact h rfl

theorem wp_withTtl {ttl : Option Json} (hinvalid : Q invalid db) (hnone : ttl = none → wp next Q E db)
    (hsome : ∀ v secs, ttl = some v → v.asU64 = some secs → wp next Q E (db.withTtlDefault c secs)) :
    wp (withTtl c ttl invalid next) Q E db := by
  cases ttl with
  | none => exact hnone rfl
  | some v =>
    unfold withTtl
    dsimp only
    cases hv : v.asU64 with
    | none => exact hinvalid
    | some secs => exact hsome v secs rfl hv

theorem wp_withMaxSize {maxSize : Option Json} (hinvalid : Q invalid db)
    (hnone : maxSize = none → wp next Q E db)
    (hsome : ∀ v max, maxSize = some v → v.asU64 = some max → 0 < max →
      wp next Q E { db with maxSizes := db.maxSizes.insert c max.toNat }) :
    wp (withMaxSize c maxSize invalid next) Q E db := by
  cases maxSize with
  | none => exact hnone rfl
  | some v =>
    unfold withMaxSize
    dsimp only
    cases hv : v.asU64 with
    | none => exact hinvalid
    | some max =>
      by_cases hpos : 0 < max
      · simp only [Option.filter_some, hpos, decide_true, if_true]
        exact hsome v max rfl hv hpos
      · simp only [Option.filter_some, hpos, decide_false, Bool.false_eq_true, if_false]
        exact hinvalid

theorem ne_ok_of_validationError (e : ValidationError) : e.intoResponse.1 ≠ 200 :=
  show 400 ≠ 200 by decide

theorem ne_ok_of_setError (e : SetError) : e.intoResponse.1 ≠ 200 := by
  have hstatus : e.statusCode ≠ 200 := by cases e <;> simp [SetError.statusCode]
  exact hstatus

theorem ne_ok_of_updateError (e : UpdateError) : e.intoResponse.1 ≠ 200 := by
  have hstatus : e.statusCode ≠ 200 := by cases e <;> simp [UpdateError.statusCode]
  exact hstatus

theorem ne_ok_of_schemaError (e : SchemaError) : e.intoResponse.1 ≠ 200 := by
  have hstatus : e.statusCode ≠ 200 := by cases e <;> simp [SchemaError.statusCode]
  exact hstatus

theorem wp_insertItems [Crates] {items success : List (String × Json)}
    (hok : wp (Db.insert c items) (fun _ => Q (200, json success))
      (fun e => Q (SetError.ofDbError e).intoResponse) db) :
    wp (insertItems c items success) Q E db := by
  simp only [insertItems, wp_bind, wp_outcome]
  exact wp_mono hok (fun _ _ h => h) fun _ _ h => h

/-- A set is rejected, or goes on with its documents after its limits. -/
theorem wp_processSet [Crates] [FloatText] {payload : Json} {maxBodySize maxKeysPerRequest : ℕ}
    (hcol : (namedCollection payload).getD "default" = c)
    (hrejected : ∀ (r : Response) db', r.1 ≠ 200 → db.Limited db' → Q r db')
    (hdata : validateRequest payload maxBodySize maxKeysPerRequest = .ok () →
      ∀ db', db.Limited db' → wp (setData c (payload.field .data)) Q E db') :
    wp (processSet payload maxBodySize maxKeysPerRequest) Q E db := by
  rw [processSet, hcol]
  refine wp_validated (fun e => hrejected _ db (ne_ok_of_validationError e) (.refl db)) fun _ => ?_
  refine wp_validated (fun e => hrejected _ db (ne_ok_of_validationError e) (.refl db)) fun hvalid =>
    ?_
  have hsize : ∀ db₁ : Db, db.Limited db₁ → wp (withMaxSize c (payload.field .maxSize)
      SetError.invalidMaxSize.intoResponse (setData c (payload.field .data))) Q E db₁ :=
    fun db₁ h₁ => wp_withMaxSize (hrejected _ db₁ (ne_ok_of_setError _) h₁)
      (fun _ => hdata hvalid db₁ h₁) fun _ max _ _ _ => hdata hvalid _ (h₁.withMaxSize c max.toNat)
  exact wp_withTtl (hrejected _ db (ne_ok_of_setError _) (.refl db)) (fun _ => hsize db (.refl db))
    fun _ secs _ _ => hsize _ (db.limited_withTtlDefault c secs)

/-- An update is rejected, or goes on with its documents. -/
theorem wp_processUpdate [FloatText] {payload : Json} {maxBodySize maxKeysPerRequest : ℕ}
    (hcol : (namedCollection payload).getD "default" = c)
    (hrejected : ∀ r : Response, r.1 ≠ 200 → Q r db)
    (hdata : validateRequest payload maxBodySize maxKeysPerRequest = .ok () →
      ∀ data, payload.field .data = some (.obj data) → wp (updateItems c 0 data) Q E db) :
    wp (processUpdate payload maxBodySize maxKeysPerRequest) Q E db := by
  rw [processUpdate, hcol]
  refine wp_validated (fun e => hrejected _ (ne_ok_of_validationError e)) fun _ => ?_
  refine wp_validated (fun e => hrejected _ (ne_ok_of_validationError e)) fun hvalid => ?_
  split
  · next data hobj =>
    obtain ⟨v, hfield, hv⟩ := Option.bind_eq_some_iff.1 hobj
    exact hdata hvalid data (Json.eq_obj_of_asObject hv ▸ hfield)
  · exact hrejected _ (ne_ok_of_updateError _)

/-- A batch goes on with its rest if the first document can be updated, and is answered with an
    error otherwise. -/
theorem wp_updateItems_cons {item : String × Json} {items : List (String × Json)} {n : ℕ}
    (hreserved : hasReserved ["_v"] item.2 = true → ∀ r : Response, r.1 ≠ 200 → Q r db)
    (hupdate : hasReserved ["_v"] item.2 = false →
      wp (Db.update c item.1 item.2) (fun _ db' => ∀ n, wp (updateItems c n items) Q E db')
        (fun _ db' => ∀ r : Response, r.1 ≠ 200 → Q r db') db) :
    wp (updateItems c n (item :: items)) Q E db := by
  obtain ⟨key, value⟩ := item
  rw [updateItems]
  split_ifs with hres
  · exact hreserved hres _ (ne_ok_of_updateError _)
  rw [wp_bind, wp_outcome]
  refine wp_mono (hupdate (by simpa using hres)) (fun found db' h => ?_) fun e db' h => ?_
  · cases found with
    | true => exact h (n + 1)
    | false => exact h n
  · cases e with
    | schemaValidationError msg => exact h _ (show 400 ≠ 200 by decide)
    | _ => exact h _ (ne_ok_of_updateError _)

end

/-! ## The documents of a set -/

/-- The documents of an array under fresh identifiers, the first of them at the tick `n`; `none`
    if one has reserved fields. -/
def freshItems (db : Db) : ℕ → List Json → Option (List (String × Json))
  | _, [] => some []
  | n, doc :: docs =>
    if hasReserved [] (resolveExtends db doc) then none
    else (freshItems db (n + 1) docs).map ((db.world.uuid n, resolveExtends db doc) :: ·)

namespace Db

/-- The items that the data of a set stand for, if they are accepted. -/
def dataItems (db : Db) : Option Json → Option (List (String × Json))
  | some (.obj dataMap) =>
    let items := dataMap.map fun p => (p.1, resolveExtends db p.2)
    if items.any fun p => hasReserved [] p.2 then none else some items
  | some (.arr dataArr) => freshItems db db.tick dataArr
  | _ => none

/-- The identifiers of the documents of an array were drawn. -/
def drawn (db : Db) : Option Json → Db
  | some (.arr dataArr) => { db with tick := db.tick + dataArr.length }
  | _ => db

end Db

/-- The documents of an array are given fresh identifiers, unless one has reserved fields. -/
theorem wp_identify {db₀ : Db} {docs : List Json} {db : Db} (hworld : db.world = db₀.world)
    {Q : Option (List (String × Json)) → Db → Prop} {E : DbError → Db → Prop}
    (hnone : freshItems db₀ db.tick docs = none → ∀ n, Q none { db with tick := n })
    (hsome : ∀ items, freshItems db₀ db.tick docs = some items →
      Q (some items) { db with tick := db.tick + docs.length }) :
    wp (identify db₀ docs) Q E db := by
  induction docs generalizing db Q with
  | nil => exact hsome [] rfl
  | cons doc docs ih =>
    simp only [identify, wp_bind]
    change wp (if _ then _ else _) Q E { db with tick := db.tick + 1 }
    simp only [freshItems] at hnone hsome
    split_ifs with hres
    · exact hnone (by rw [if_pos hres]) _
    · rw [if_neg hres] at hnone hsome
      rw [wp_bind]
      have hworld₁ : Db.world { db with tick := db.tick + 1 } = db₀.world := hworld
      refine ih hworld₁ (fun h n => ?_) fun items h => ?_
      · exact hnone (by rw [show freshItems db₀ (db.tick + 1) docs = none from h]; rfl) n
      · have hitems := hsome ((db₀.world.uuid db.tick, resolveExtends db₀ doc) :: items)
          (by rw [show freshItems db₀ (db.tick + 1) docs = some items from h]; rfl)
        rw [← hworld, List.length_cons] at hitems
        have hticks : db.tick + 1 + docs.length = db.tick + (docs.length + 1) := by omega
        change Q _ { db with tick := db.tick + 1 + docs.length }
        rw [hticks]
        exact hitems

/-- The data of a set are rejected, or stand for items that are inserted. -/
theorem wp_setData [Crates] {db : Db} {c : String} {data : Option Json} {Q : Response → Db → Prop}
    {E : DbError → Db → Prop}
    (hrejected : db.dataItems data = none → ∀ (e : SetError) n, Q e.intoResponse { db with tick := n })
    (hinsert : ∀ items success, db.dataItems data = some items →
      wp (insertItems c items success) Q E (db.drawn data)) :
    wp (setData c data) Q E db := by
  rw [setData, wp_bind, wp_get]
  cases data with
  | none => exact hrejected rfl .missingDataMap db.tick
  | some v =>
    cases v with
    | obj dataMap =>
      dsimp only
      split_ifs with hres
      · exact hrejected (if_pos hres) .reservedFields db.tick
      · exact hinsert _ _ (if_neg hres)
    | arr dataArr =>
      dsimp only
      rw [wp_bind]
      refine wp_identify rfl (fun hnone n => ?_) fun items hitems => ?_
      · exact hrejected hnone .reservedFields n
      · exact hinsert items _ hitems
    | _ => exact hrejected rfl .missingDataMap db.tick

theorem freshItems_resolved {db : Db} {n : ℕ} {docs : List Json} {items : List (String × Json)}
    (h : freshItems db n docs = some items) : items.length = docs.length ∧
      ∀ item ∈ items, ∃ doc ∈ docs, item.2 = resolveExtends db doc ∧
        hasReserved [] item.2 = false := by
  induction docs generalizing n items with
  | nil =>
    cases h
    exact ⟨rfl, List.forall_mem_nil _⟩
  | cons doc docs ih =>
    rw [freshItems] at h
    split_ifs at h with hres
    obtain ⟨rest, hrest, rfl⟩ := Option.map_eq_some_iff.1 h
    obtain ⟨hlen, hitems⟩ := ih hrest
    refine ⟨by rw [List.length_cons, hlen, List.length_cons], fun item hitem => ?_⟩
    rcases List.mem_cons.1 hitem with rfl | hitem
    · exact ⟨doc, List.mem_cons_self, rfl, by simpa using hres⟩
    · obtain ⟨doc', hdoc', hitem'⟩ := hitems item hitem
      exact ⟨doc', List.mem_cons_of_mem _ hdoc', hitem'⟩

/-! ## Reserved names -/

/-- An accepted document has no public names of system fields, other than those excepted. -/
theorem not_reserved {excepted : List String} {fs : List (String × Json)}
    (h : hasReserved excepted (.obj fs) = false) {p : String × Json} (hp : p ∈ fs)
    (hname : p.1 ∈ publicNames) : p.1 ∈ excepted := by
  by_contra hnot
  have hall : ∀ name ∈ publicNames, name.toList.head? = some '_' := by decide
  have hres : hasReserved excepted (.obj fs) = true :=
    List.any_eq_true.2 ⟨p, hp, by simp [hall p.1 hname, hnot]⟩
  rw [h] at hres
  cases hres

theorem lookup_public {excepted : List String} {fs : List (String × Json)}
    (h : hasReserved excepted (.obj fs) = false) {key : String}
    (hkey : key ∈ publicNames) (hnot : key ∉ excepted) : fs.lookup key = none := by
  cases hl : fs.lookup key with
  | none => rfl
  | some v => exact absurd (not_reserved h (Fields.mem_of_lookup hl) hkey) hnot

end MoltenDB
