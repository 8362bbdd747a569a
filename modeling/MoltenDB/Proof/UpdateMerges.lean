/-
  An update sets the fields that the client names, the version and the time, and nothing else,
  exactly if the documents have a version that can be counted up and the client names no alias of
  a system field, at any depth (`update_merges_iff`).
-/
import MoltenDB.Common.Aliases
import MoltenDB.Engine.Clock
import MoltenDB.Handlers.Requests
import MoltenDB.Handlers.SingleKey
import MoltenDB.Proof.Locking

namespace MoltenDB

open Wire Prog Prog.Eff Operations SystemFields LogCommand

/-! ## What is seen of a merged document -/

/-- The fields that an update sets or keeps on its own account. -/
def managed : List String := [VERSION, SEQ, CREATED_AT, MODIFIED_AT]

/-- `new` is `old` with the fields of `value`, the next version, and one of the `readings` of the
    clock as its time. -/
structure MergedInto (readings : Set UInt64) (old value new : Json) : Prop where
  version : ∃ n : UInt64, n.toNat + 1 < 2 ^ 64 ∧ old.get VERSION = some (.ofU64 n) ∧
    new.get VERSION = some (.ofU64 (n + 1))
  seq : new.get SEQ = old.get SEQ
  createdAt : new.get CREATED_AT = old.get CREATED_AT
  modifiedAt : ∃ now ∈ readings, new.get MODIFIED_AT = some (.ofU64 now)
  fields : ∀ key ∉ managed, new.get key = (value.get key).or (old.get key)

/-- The document has a version that can be counted up, and the value is an object without aliases
    of system fields, the guard apart. -/
def Mergeable (old value : Json) : Prop :=
  (∃ n : UInt64, n.toNat + 1 < 2 ^ 64 ∧ old.get VERSION = some (.ofU64 n)) ∧
    ∃ fs, value = .obj fs ∧ ∀ p ∈ fs, p.1 ≠ VERSION → p.1 ∉ aliases ∧ p.2.AliasFree

/-- A field of a document, as a client sees it. -/
theorem get_shown_of {v : Json} (hv : ∀ fs, v = .obj fs → Fields.Sorted fs) {key : String}
    (hkey : key ∉ aliases) :
    v.shown.get key = ((v.get key).or (v.get (internalName key))).map Json.shown := by
  cases v with
  | obj fs => exact Json.get_shown (hv fs rfl) hkey
  | arr xs =>
    rw [Json.shown_arr]
    rfl
  | _ => rfl

theorem eq_of_shown_ofU64 {x : Json} {n : UInt64} (h : x.shown = .ofU64 n) : x = .ofU64 n := by
  cases x with
  | obj fs =>
    rw [Json.shown_obj] at h
    cases h
  | arr xs =>
    rw [Json.shown_arr] at h
    cases h
  | _ => exact h

/-- A field of a merged document. -/
theorem get_merged {docObj updateObj : List (String × Json)} (hnodup : (updateObj.map Prod.fst).Nodup)
    (now : UInt64) (key : String) :
    (merged docObj updateObj now).get key =
      if key = MODIFIED_AT then some (.ofU64 now)
      else if key = VERSION then
        some (.ofU64 ((fieldU64 (.obj docObj) IKEY_VERSION).getD 0 + 1))
      else if key = CREATED_AT then docObj.lookup key
      else (updateObj.lookup key).or (docObj.lookup key) := by
  rw [merged, Json.get_set rfl, Json.get_set rfl, Json.get_obj, mergeFields,
    Fields.lookup_insertAll]
  split_ifs with hmod hver hcreated
  · rfl
  · rfl
  · rw [hcreated, Fields.lookup_reverse ((hnodup.sublist (List.filter_sublist.map _))),
      Fields.lookup_filter (fun k => !(k == VERSION || k == CREATED_AT))]
    rfl
  · rw [Fields.lookup_reverse ((hnodup.sublist (List.filter_sublist.map _))),
      Fields.lookup_filter (fun k => !(k == VERSION || k == CREATED_AT))]
    simp [hver, hcreated]

section

variable {readings : Set UInt64} {v value : Json} {now : UInt64}

/-- What an update stores comes out of the document as it was decoded. -/
theorem shown_canon (v : Json) : v.canon.shown = v.shown := by
  rw [Json.shown, Json.canon_canon, Json.shown]

theorem sorted_canon (v : Json) : ∀ fs, v.canon = .obj fs → Fields.Sorted fs := by
  intro fs hfs
  cases v with
  | obj gs =>
    rw [Json.canon_obj] at hfs
    rw [← Json.obj.inj hfs]
    exact Json.sorted_canonFields gs
  | arr xs =>
    rw [Json.canon_arr] at hfs
    cases hfs
  | _ => cases hfs

/-- A field with a public name, of a decoded document. -/
theorem get_shown_canon (v : Json) {key : String} (hkey : key ∈ publicNames) :
    v.shown.get key = (v.canon.get (internalName key)).map Json.shown := by
  have halias : key ∉ aliases := by
    revert key
    decide
  rw [← shown_canon, get_shown_of (sorted_canon v) halias, Json.get_canon_public v hkey,
    Option.none_or]

/-- The fields of a stored document, and those of an update that names no field that the database
    manages, the guard apart. -/
structure Merging (v : Json) (docObj updateObj : List (String × Json)) : Prop where
  doc : v.canon = .obj docObj
  nodup : (updateObj.map Prod.fst).Nodup
  named : ∀ key ∈ publicNames, key ≠ VERSION → updateObj.lookup key = none
  unaliased : ∀ key ∈ aliases, updateObj.lookup key = none

namespace Merging

variable {docObj updateObj : List (String × Json)} {key : String} (h : Merging v docObj updateObj)

include h

theorem sorted : ∀ fs, merged docObj updateObj now = .obj fs → Fields.Sorted fs := by
  intro fs hfs
  rw [merged, Json.set_obj, Json.set_obj] at hfs
  rw [← Json.obj.inj hfs]
  exact ((((sorted_canon v) docObj h.doc).insertAll _).insert _ _).insert _ _

theorem get_doc (key : String) : docObj.lookup key = v.canon.get key := by
  rw [h.doc, Json.get_obj]

/-- The version is counted up. -/
theorem shown_version {n : UInt64} (hn : v.canon.get IKEY_VERSION = some (.ofU64 n)) :
    (merged docObj updateObj now).shown.get VERSION = some (.ofU64 (n + 1)) := by
  rw [get_shown_of h.sorted (by decide), get_merged h.nodup, if_neg (by decide), if_pos rfl,
    fieldU64, Json.get_obj, h.get_doc, hn]
  rfl

theorem shown_modifiedAt :
    (merged docObj updateObj now).shown.get MODIFIED_AT = some (.ofU64 now) := by
  rw [get_shown_of h.sorted (by decide), get_merged h.nodup, if_pos rfl]
  rfl

/-- A public name other than the version and the time shows what it showed. -/
theorem shown_public (hkey : key ∈ publicNames) (hversion : key ≠ VERSION)
    (hmodified : key ≠ MODIFIED_AT) :
    (merged docObj updateObj now).shown.get key = v.shown.get key := by
  have halias : key ∉ aliases := by
    revert key
    decide
  have hinternal : internalName key ∈ aliases ∧ internalName key ∉ publicNames := by
    revert key
    decide
  have hne : ∀ name ∈ publicNames, internalName key ≠ name := fun name hname heq =>
    hinternal.2 (heq ▸ hname)
  have hfirst : (merged docObj updateObj now).get key = none := by
    rw [get_merged h.nodup, if_neg hmodified, if_neg hversion, h.get_doc,
      Json.get_canon_public v hkey, h.named key hkey hversion, Option.none_or, ite_self]
  rw [get_shown_of h.sorted halias, hfirst, Option.none_or, get_merged h.nodup,
    if_neg (hne _ (by decide)), if_neg (hne _ (by decide)), if_neg (hne _ (by decide)),
    h.unaliased _ hinternal.1, Option.none_or, get_shown_canon v hkey, h.get_doc]

/-- A name of the client shows what the update says, or what it showed. -/
theorem shown_client (hpublic : key ∉ publicNames) (halias : key ∉ aliases) :
    (merged docObj updateObj now).shown.get key =
      ((updateObj.lookup key).map Json.shown).or (v.shown.get key) := by
  have hnone : tokenOf key = none :=
    (name_cases key).resolve_right fun hmem => (List.mem_append.1 hmem).elim hpublic halias
  have hversion : key ≠ VERSION := fun heq => hpublic (heq ▸ by decide)
  have hmodified : key ≠ MODIFIED_AT := fun heq => hpublic (heq ▸ by decide)
  have hcreated : key ≠ CREATED_AT := fun heq => hpublic (heq ▸ by decide)
  rw [get_shown_of h.sorted halias, internalName_of_none hnone, Option.or_self,
    get_merged h.nodup, if_neg hmodified, if_neg hversion, if_neg hcreated, ← shown_canon v,
    get_shown_of (sorted_canon v) halias, internalName_of_none hnone, Option.or_self, h.get_doc]
  cases updateObj.lookup key <;> rfl

end Merging

/-- What is merged, if the version can be counted up and the client names no alias. -/
theorem merging_of_mergeable {updateObj : List (String × Json)} {n : UInt64}
    (hint : v.canon.get IKEY_VERSION = some (.ofU64 n)) (hvalue : (Json.obj updateObj).Ordered)
    (hfree : hasReserved ["_v"] (.obj updateObj) = false)
    (hclean : ∀ p ∈ updateObj, p.1 ≠ VERSION → p.1 ∉ aliases ∧ p.2.AliasFree) :
    ∃ docObj, Merging v docObj updateObj := by
  rw [Json.ordered_obj] at hvalue
  obtain ⟨docObj, hdoc⟩ : ∃ docObj, v.canon = .obj docObj := by
    cases hv : v.canon with
    | obj docObj => exact ⟨docObj, rfl⟩
    | _ => simp [hv, Json.get, Json.asObject] at hint
  refine ⟨docObj, hdoc, hvalue.1.nodup_keys, fun key hkey hne => ?_, fun key hkey => ?_⟩
  · exact lookup_public hfree hkey fun hmem => hne (List.mem_singleton.1 hmem)
  · rw [List.lookup_eq_none_iff]
    refine fun p hp => bne_iff_ne.2 ?_
    rintro rfl
    refine (hclean p hp ?_).1 hkey
    rintro hversion
    rw [hversion] at hkey
    exact absurd hkey (by decide)

/-- **A merge that is seen as one**: only what the client names changes. -/
theorem Mergeable.mergedInto (h : Mergeable v.shown value) (hvalue : value.Ordered)
    (hfree : hasReserved ["_v"] value = false) (hnow : now ∈ readings) :
    MergedInto readings v.shown value (mergeAt v.canon value now).shown := by
  obtain ⟨⟨n, hn, hver⟩, updateObj, rfl, hclean⟩ := h
  have hint : v.canon.get IKEY_VERSION = some (.ofU64 n) := by
    rw [get_shown_canon v (by decide)] at hver
    obtain ⟨x, hx, hshown⟩ := Option.map_eq_some_iff.1 hver
    rw [eq_of_shown_ofU64 hshown] at hx
    exact hx
  obtain ⟨docObj, hm⟩ := merging_of_mergeable hint hvalue hfree hclean
  have hmerge : mergeAt v.canon (.obj updateObj) now = merged docObj updateObj now := by
    rw [hm.doc]
    rfl
  rw [hmerge]
  refine ⟨⟨n, hn, hver, hm.shown_version hint⟩,
    hm.shown_public (by decide) (by decide) (by decide),
    hm.shown_public (by decide) (by decide) (by decide), ⟨now, hnow, hm.shown_modifiedAt⟩,
    fun key hkey => ?_⟩
  rw [Json.get_obj]
  by_cases halias : key ∈ aliases
  · rw [Json.get_shown_alias _ halias, Json.get_shown_alias _ halias, hm.unaliased key halias]
    rfl
  have hversion : key ≠ VERSION := fun heq => hkey (heq ▸ by decide)
  by_cases hpublic : key ∈ publicNames
  · have hmodified : key ≠ MODIFIED_AT := fun heq => hkey (heq ▸ by decide)
    rw [hm.shown_public hpublic hversion hmodified, hm.named key hpublic hversion, Option.none_or]
  rw [hm.shown_client hpublic halias]
  cases hup : updateObj.lookup key with
  | none => rfl
  | some x =>
    have hmem := Fields.mem_of_lookup hup
    have hshown := Json.shown_eq_self ((Json.ordered_obj.1 hvalue).2 _ hmem) (hclean _ hmem hversion).2
    rw [Option.map_some, hshown, Option.some_or]

theorem mergeAt_other (doc : Json) (h : value.isObject = false) : mergeAt doc value now = doc := by
  cases value with
  | obj fs => cases h
  | _ => cases doc <;> rfl

/-- **Only such a merge is.** -/
theorem MergedInto.mergeable (hvalue : value.Ordered) (hfree : hasReserved ["_v"] value = false)
    (h : MergedInto readings v.shown value (mergeAt v.canon value now).shown) :
    Mergeable v.shown value := by
  obtain ⟨n, hn, hold, hnew⟩ := h.version
  refine ⟨⟨n, hn, hold⟩, ?_⟩
  cases value with
  | obj updateObj =>
    rw [Json.ordered_obj] at hvalue
    refine ⟨updateObj, rfl, fun p hp hversion => ?_⟩
    have hkey : p.1 ∉ managed := by
      intro hmem
      have hpub : p.1 ∈ publicNames := by
        revert hmem
        generalize p.1 = key
        revert key
        decide
      exact hversion (List.mem_singleton.1 (not_reserved hfree hp hpub))
    have hget := h.fields p.1 hkey
    rw [Json.get_obj, Fields.lookup_of_mem hvalue.1.nodup_keys hp, Option.some_or] at hget
    have hshown : (mergeAt v.canon (.obj updateObj) now).shown.AliasFree :=
      Json.aliasFree_expand _
    cases hm : (mergeAt v.canon (.obj updateObj) now).shown with
    | obj gs =>
      rw [hm] at hget hshown
      exact Json.aliasFree_obj.1 hshown _ (Fields.mem_of_lookup hget)
    | _ => simp [hm, Json.get, Json.asObject] at hget
  | _ =>
    rw [mergeAt_other _ rfl, shown_canon, hold] at hnew
    have hnum := congrArg (fun x : Option Json => x.bind Json.asU64) hnew
    simp [Json.asU64_ofU64] at hnum

end

/-! ## What a request updates -/

section

variable {c k : String}

/-- What an update leaves that does not fail. -/
structure Db.Updated (c k : String) (updates : Json) (db db' : Db) : Prop extends db.GoesOn db' where
  others : ∀ c' k', ¬(c' = c ∧ k' = k) → db'.bytes c' k' = db.bytes c' k'
  here : (db.bytes c k).bind msgpackToValue = none ∧ db'.bytes c k = db.bytes c k ∨
    ∃ doc, (db.bytes c k).bind msgpackToValue = some doc ∧ ∃ now ∈ db.readings,
      db'.bytes c k = some (valueToMsgpack (mergeAt doc updates now))

/-- Merging reads the clock, or nothing. -/
theorem wp_mergeUpdate_at {db : Db} {doc updates : Json} {Q : Json → Db → Prop}
    (ok : ∀ now ∈ db.readings, ∀ n, db.tick ≤ n →
      Q (mergeAt doc updates now) { db with tick := n }) :
    wp (mergeUpdate doc updates) Q (fun _ _ => True) db := by
  have hnow : db.world.clock db.tick ∈ db.readings := ⟨db.tick, le_refl _, rfl⟩
  have hsame : mergeAt doc updates (db.world.clock db.tick) = doc → Q doc db := fun heq => by
    simpa only [heq] using ok _ hnow db.tick (le_refl _)
  cases updates with
  | obj updateObj =>
    rw [mergeUpdate, wp_bind]
    refine wp_checkGuard ?_ trivial
    cases doc with
    | obj docObj => exact ok _ hnow (db.tick + 1) (Nat.le_succ _)
    | _ => exact hsame rfl
  | _ =>
    cases doc <;> exact hsame rfl

/-- The second half of an update. -/
theorem wp_storeUpdate_at {db : Db} {v : Json} (id : String) :
    wp (storeUpdate c k id v) (fun _ db' => db'.bytes c k = some (valueToMsgpack v) ∧
      ∀ c' k', ¬(c' = c ∧ k' = k) → db'.bytes c' k' = db.bytes c' k') (fun _ _ => True) db := by
  have hput : ∀ c' k', State.bytes (db.state.alter c fun col =>
      some ((col.getD ∅).insert k (valueToMsgpack v))) c' k' =
        if c' = c ∧ k' = k then some (valueToMsgpack v) else db.bytes c' k' := fun c' k' =>
    bytes_put db.state c k c' k' (valueToMsgpack v)
  simp only [storeUpdate, storeDoc, wp_bind, wp_modify, wp_send]
  refine wp_validateDocument (fun _ => ?_) trivial
  refine wp_writeNew (fun _ _ => wp_writeNew (fun _ _ => ?_) fun _ _ => trivial) fun _ _ => trivial
  refine ⟨?_, fun c' k' hne => ?_⟩
  · exact (hput c k).trans (if_pos ⟨rfl, rfl⟩)
  · exact (hput c' k').trans (if_neg hne)

/-- **An update that does not fail** stores the merged document, if there is one to merge into. -/
theorem wp_update_at (db : Db) (c k : String) (updates : Json) :
    wp (Db.update c k updates) (fun _ => db.Updated c k updates) (fun _ _ => True) db := by
  simp only [Db.update, Operations.update, wp_bind, wp_get]
  refine wp_checkFault (fun _ => ?_) fun _ => trivial
  change wp (writeNew _ _ _ _) _ _ { db with tick := db.tick + 1 }
  refine wp_writeNew_at (fun _ => ?_) fun _ => trivial
  generalize hdb₁ : Db.mk _ _ _ _ _ _ _ _ _ _ _ _ _ = db₁
  have hbegin : db.GoesOn db₁ ∧ ∀ c' k', db₁.bytes c' k' = db.bytes c' k' := by
    subst hdb₁
    exact ⟨⟨rfl, Nat.le_add_right _ 3, le_refl _⟩, fun _ _ => rfl⟩
  obtain ⟨hgoes, hsame⟩ := hbegin
  rw [hsame c k]
  cases hdoc : (db.bytes c k).bind msgpackToValue with
  | none =>
    simp only [wp_bind, wp_pure]
    refine wp_writeNew_at (fun _ => ?_) fun _ => trivial
    exact ⟨hgoes.trans ⟨rfl, Nat.le_add_right _ _, le_refl _⟩, fun c' k' _ => hsame c' k', Or.inl ⟨hdoc, hsame c k⟩⟩
  | some doc =>
    simp only [wp_bind, wp_pure]
    refine wp_mergeUpdate_at fun now hnow n hn => ?_
    refine wp_mono (wp_and (wp_goesOn (goesOn_storeUpdate k _ _) _) (wp_storeUpdate_at _))
      (fun _ db₂ h₂ => ?_) fun _ _ _ => trivial
    obtain ⟨hstore, hbytes, hothers⟩ := h₂
    have htick : db₁.GoesOn { db₁ with tick := n } := ⟨rfl, hn, le_refl _⟩
    refine ⟨(hgoes.trans htick).trans hstore, fun c' k' hne => (hothers c' k' hne).trans (hsame c' k'), Or.inr ?_⟩
    exact ⟨doc, hdoc, now, hgoes.readings hnow, hbytes⟩

/-- What a batch of updates leaves that does not fail. -/
structure Db.UpdatedAll (c : String) (items : List (String × Json)) (db db' : Db) : Prop
    extends db.GoesOn db' where
  accepted : ∀ p ∈ items, hasReserved ["_v"] p.2 = false
  others : ∀ c' k', ¬(c' = c ∧ k' ∈ items.map Prod.fst) → db'.bytes c' k' = db.bytes c' k'
  named : ∀ p ∈ items, (db.bytes c p.1).bind msgpackToValue = none ∧
      db'.bytes c p.1 = db.bytes c p.1 ∨
    ∃ doc, (db.bytes c p.1).bind msgpackToValue = some doc ∧ ∃ now ∈ db.readings,
      db'.bytes c p.1 = some (valueToMsgpack (mergeAt doc p.2 now))

theorem wp_updateItems_at {items : List (String × Json)} (hnodup : (items.map Prod.fst).Nodup)
    (n : ℕ) (db : Db) :
    wp (updateItems c n items) (fun r db' => r.1 = 200 → db.UpdatedAll c items db')
      (fun _ _ => True) db := by
  induction items generalizing n db with
  | nil =>
    exact fun _ => ⟨.refl db, List.forall_mem_nil _, fun _ _ _ => rfl, List.forall_mem_nil _⟩
  | cons item items ih =>
    rw [List.map_cons, List.nodup_cons] at hnodup
    refine wp_updateItems_cons (fun _ _ hr hok => absurd hok hr) fun hres => ?_
    refine wp_mono (wp_update_at db c item.1 item.2) (fun _ db₁ h₁ n => ?_)
      fun _ _ _ _ hr hok => absurd hok hr
    refine wp_mono (ih hnodup.2 n db₁) (fun r db₂ h₂ hok => ?_) fun _ _ h => h
    obtain ⟨hgoes, haccepted, hothers, hnamed⟩ := h₂ hok
    have hne : ∀ p ∈ items, p.1 ≠ item.1 := fun p hp heq =>
      hnodup.1 (List.mem_map.2 ⟨p, hp, heq⟩)
    have hbefore : ∀ p ∈ items, db₁.bytes c p.1 = db.bytes c p.1 := fun p hp =>
      h₁.others c p.1 fun h => hne p hp h.2
    have hafter : db₂.bytes c item.1 = db₁.bytes c item.1 :=
      hothers c item.1 fun h => hnodup.1 h.2
    refine ⟨h₁.toGoesOn.trans hgoes, fun p hp => ?_, fun c' k' hout => ?_, fun p hp => ?_⟩
    · rcases List.mem_cons.1 hp with rfl | hp
      · exact hres
      · exact haccepted p hp
    · rw [List.map_cons, List.mem_cons] at hout
      rw [hothers c' k' fun h => hout ⟨h.1, Or.inr h.2⟩]
      exact h₁.others c' k' fun h => hout ⟨h.1, Or.inl h.2⟩
    · rcases List.mem_cons.1 hp with rfl | hp
      · rw [hafter]
        exact h₁.here
      · have hp' := hnamed p hp
        rw [hbefore p hp] at hp'
        refine hp'.imp id ?_
        rintro ⟨doc, hdoc, now, hnow, hbytes⟩
        exact ⟨doc, hdoc, now, h₁.toGoesOn.readings hnow, hbytes⟩

variable [FloatText] {payload : Json} {maxBodySize maxKeysPerRequest : ℕ}

theorem wp_processUpdate_at (hcol : (namedCollection payload).getD "default" = c)
    {data : List (String × Json)} (hdata : payload.field .data = some (.obj data))
    (hnodup : (data.map Prod.fst).Nodup) (db : Db) :
    wp (processUpdate payload maxBodySize maxKeysPerRequest)
      (fun r db' => r.1 = 200 → db.UpdatedAll c data db') (fun _ _ => True) db := by
  refine wp_processUpdate hcol (fun _ hr hok => absurd hok hr) fun _ data' hdata' => ?_
  rw [hdata] at hdata'
  obtain rfl := Json.obj.inj (Option.some.inj hdata')
  exact wp_updateItems_at hnodup 0 db

end

/-! ## Runs -/

/-- The values that updates of these items would store have lengths that fit their headers. -/
def UpdatesFit (db : Db) (c : String) (items : List (String × Json)) : Prop :=
  ∀ p ∈ items, ∀ docObj updateObj, (db.bytes c p.1).bind msgpackToValue = some (.obj docObj) →
    p.2 = .obj updateObj → ∀ now, (merged docObj updateObj now).Fits

namespace ClientRequest

variable [Crates]

/-- Values with lengths that fit their headers are stored and logged, and the keys of an update
    are distinct. -/
def Fitting (db : Db) : ClientRequest → Prop
  | set payload => ∀ doc ∈ setDocs payload, (resolveExtends db doc).Fits ∧
    ∀ fs, resolveExtends db doc = .obj fs → fs.length + 4 < 2 ^ 32
  | update payload => ∀ data, payload.field .data = some (.obj data) → (data.map Prod.fst).Nodup ∧
    UpdatesFit db ((namedCollection payload).getD "default") data
  | restart => ∀ e ∈ db.log, e.Fits
  | _ => True

variable [Lowercase] [FloatText] {maxBodySize maxKeysPerRequest : ℕ} {db : Db}

theorem fits_next {r : ClientRequest} (h : db.AllDocs Json.Fits) (hr : r.Fitting db) :
    (next maxBodySize maxKeysPerRequest db r).AllDocs Json.Fits := by
  refine allDocs_next _ _ (fun v hv => ⟨hv, hv.canon⟩) h r ?_ ?_ ?_
  · rintro payload rfl - doc hdoc -
    obtain ⟨hfits, hlen⟩ := hr doc hdoc
    exact ⟨fun _ => hfits, fits_stampWith hfits hlen⟩
  · rintro payload rfl - data hdata
    obtain ⟨hnodup, hfit⟩ := hr data hdata
    exact ⟨hnodup, fun p hp docObj updateObj hdoc _ hupdates now =>
      hfit p hp docObj updateObj hdoc hupdates now⟩
  · rintro rfl
    exact hr

end ClientRequest

/-! ## The claim -/

/-- The documents that the items name have become what the updates make of them, and the others
    are the same. -/
structure Db.Merges (c : String) (items : List (String × Json)) (db db' : Db) : Prop where
  named : ∀ p ∈ items, ∀ old, db.shown c p.1 = some old →
    ∃ new, db'.shown c p.1 = some new ∧ MergedInto db.readings old p.2 new
  others : ∀ c' k', ¬(c' = c ∧ k' ∈ items.map Prod.fst) → db'.bytes c' k' = db.bytes c' k'

theorem fits_mergeAt {doc value : Json} {now : UInt64} (hdoc : doc.Fits)
    (h : ∀ docObj updateObj, doc = .obj docObj → value = .obj updateObj →
      (merged docObj updateObj now).Fits) : (mergeAt doc value now).Fits := by
  cases value with
  | obj updateObj =>
    cases doc with
    | obj docObj => exact h docObj updateObj rfl rfl
    | _ => exact hdoc
  | _ =>
    rw [mergeAt_other _ rfl]
    exact hdoc

/-- **What a batch of updates leaves** is what the claim says, exactly if all of them can be
    merged. -/
theorem Db.UpdatedAll.merges_iff {c : String} {data : List (String × Json)} {db db' : Db}
    (h : db.UpdatedAll c data db') (hall : db.AllDocs Json.Fits) (hfit : UpdatesFit db c data)
    (hordered : (Json.obj data).Ordered) :
    db.Merges c data db' ↔ ∀ p ∈ data, ∀ old, db.shown c p.1 = some old → Mergeable old p.2 := by
  rw [Json.ordered_obj] at hordered
  -- what is found under a key of the request, and what is there afterwards
  have hitem : ∀ p ∈ data, ∀ old, db.shown c p.1 = some old → ∃ v : Json, old = v.shown ∧
      ∃ now ∈ db.readings, db'.shown c p.1 = some (mergeAt v.canon p.2 now).shown := by
    intro p hp old hold
    obtain ⟨doc, hdoc, rfl⟩ := Option.map_eq_some_iff.1 hold
    obtain ⟨b, hb, hdec⟩ := Option.bind_eq_some_iff.1 hdoc
    obtain ⟨v, rfl, hv⟩ := hall.bytes c p.1 b hb
    rw [msgpackToValue_valueToMsgpack hv] at hdec
    obtain rfl := Option.some.inj hdec
    rcases h.named p hp with ⟨hnone, -⟩ | ⟨doc, hdoc', now, hnow, hbytes⟩
    · rw [hdoc] at hnone
      cases hnone
    rw [hdoc] at hdoc'
    obtain rfl := Option.some.inj hdoc'
    have hfits : (mergeAt v.canon p.2 now).Fits := fits_mergeAt hv.canon
      fun docObj updateObj hobj hval => hfit p hp docObj updateObj (hobj ▸ hdoc) hval now
    refine ⟨v, rfl, now, hnow, ?_⟩
    rw [Db.shown, hbytes, Option.bind_some, msgpackToValue_valueToMsgpack hfits]
    rfl
  constructor
  · rintro ⟨hmerged, -⟩ p hp old hold
    obtain ⟨v, rfl, now, -, hafter⟩ := hitem p hp old hold
    obtain ⟨new, hnew, hinto⟩ := hmerged p hp _ hold
    rw [hafter] at hnew
    obtain rfl := Option.some.inj hnew
    exact hinto.mergeable (hordered.2 p hp) (h.accepted p hp)
  · refine fun hmerge => ⟨fun p hp old hold => ?_, h.others⟩
    have hmergeable := hmerge p hp old hold
    obtain ⟨v, rfl, now, hnow, hafter⟩ := hitem p hp old hold
    exact ⟨_, hafter, hmergeable.mergedInto (hordered.2 p hp) (h.accepted p hp) hnow⟩

section

variable [Crates] [Lowercase] [FloatText] {maxBodySize maxKeysPerRequest : ℕ}

/-- **An update merges the fields of the client and nothing else**, in a state that any requests
    have led to, exactly if each document that it finds has a version that can be counted up, and
    is given an object without aliases of system fields. -/
theorem update_merges_iff {db₀ : Db} {rs : List ClientRequest} (hdb : db₀.NoDocs)
    (hrun : Runs.Along (ClientRequest.next maxBodySize maxKeysPerRequest) ClientRequest.Fitting
      db₀ rs) {payload resp : Json} {data : List (String × Json)} {c : String}
    (hcol : (namedCollection payload).getD "default" = c)
    (hdata : payload.field .data = some (.obj data)) (hordered : (Json.obj data).Ordered) :
    let db := Runs.after (ClientRequest.next maxBodySize maxKeysPerRequest) db₀ rs
    UpdatesFit db c data →
      (processUpdate payload maxBodySize maxKeysPerRequest db).1 = .ok (200, resp) →
        (db.Merges c data (processUpdate payload maxBodySize maxKeysPerRequest db).2 ↔
          ∀ p ∈ data, ∀ old, db.shown c p.1 = some old → Mergeable old p.2) := by
  intro db hfit hok
  have hall : db.AllDocs Json.Fits := hrun.keeps
    (fun _ _ h hr => ClientRequest.fits_next h hr) (hdb.allDocs _)
  have hkeys : (data.map Prod.fst).Nodup := (Json.ordered_obj.1 hordered).1.nodup_keys
  have hupdated := wp_of_ok (wp_processUpdate_at hcol hdata hkeys db) (Prod.ext hok rfl) rfl
  exact hupdated.merges_iff hall hfit hordered

end

/-! ## A document with one field -/

section

/-- A client sets a document. -/
def setOneField : List ClientRequest := [.set (oneDocPayload "k" (.obj [("a", .ofU64 1)]))]

theorem setOneField_stored :
    letI := Crates.plain
    letI := Lowercase.ascii
    letI := FloatText.plain
    ((Runs.after (ClientRequest.next 1000 10) (Db.blank (World.plain 1000 []) 0)
      setOneField).bytes "c" "k").bind msgpackToValue =
        some (.obj [("-1", .ofU64 1), ("-3", .ofU64 0), ("-4", .ofU64 1003), ("-5", .ofU64 1003),
          ("a", .ofU64 1)]) := by
  decide +kernel

theorem update_merges_iff_two :
    letI := Crates.plain
    letI := Lowercase.ascii
    letI := FloatText.plain
    let db := Runs.after (ClientRequest.next 1000 10) (Db.blank (World.plain 1000 []) 0) setOneField
    let data := [("k", Json.obj [("a", .ofU64 2)])]
    db.Merges "c" data
        (processUpdate (oneDocPayload "k" (.obj [("a", .ofU64 2)])) 1000 10 db).2 ↔
      ∀ p ∈ data, ∀ old, db.shown "c" p.1 = some old → Mergeable old p.2 := by
  let _ := Crates.plain
  let _ := Lowercase.ascii
  let _ := FloatText.plain
  intro db data
  have hempty : (Db.blank (World.plain 1000 []) 0).NoDocs :=
    ⟨fun c k => by simp [Db.blank, Db.bytes], by simp [Db.blank]⟩
  have hrun : Runs.Along (ClientRequest.next 1000 10) ClientRequest.Fitting
      (Db.blank (World.plain 1000 []) 0) setOneField := by
    refine ⟨fun doc hdoc => ?_, trivial⟩
    rw [List.mem_singleton.1 hdoc]
    refine ⟨by decide, ?_⟩
    rintro fs hfs
    rw [← Json.obj.inj hfs]
    decide
  have hdata : (oneDocPayload "k" (.obj [("a", .ofU64 2)])).field .data = some (.obj data) := rfl
  have hok : (processUpdate (oneDocPayload "k" (.obj [("a", .ofU64 2)])) 1000 10 db).1 =
      .ok (200, json [("status", .str "ok"), ("updated", .ofU64 1)]) := by
    decide +kernel
  refine update_merges_iff hempty hrun rfl hdata (by decide) ?_ hok
  intro p hp docObj updateObj hdoc hupdate now
  rw [List.mem_singleton.1 hp] at hdoc hupdate
  rw [← Json.obj.inj hupdate, ← Json.obj.inj (Option.some.inj (setOneField_stored.symm.trans hdoc))]
  refine Json.fits_set (Json.fits_set (by decide) ?_ rfl _) ?_ rfl now
  · rintro fs hfs
    rw [← Json.obj.inj hfs]
    decide
  · rintro fs hfs
    rw [← Json.obj.inj hfs]
    decide

/-- **An alias in an update is written over the system field**, here the sequence number. -/
theorem alias_overwrites_seq :
    letI := Crates.plain
    letI := Lowercase.ascii
    letI := FloatText.plain
    let db := Runs.after (ClientRequest.next 1000 10) (Db.blank (World.plain 1000 []) 0) setOneField
    let update := processUpdate (oneDocPayload "k" (.obj [("-3", .ofU64 7)])) 1000 10 db
    update.1.toOption.map Prod.fst = some 200 ∧
      (db.shown "c" "k").bind (fun v => v.get SEQ) = some (.ofU64 0) ∧
      (update.2.shown "c" "k").bind (fun v => v.get SEQ) = some (.ofU64 7) ∧
      ¬ db.Merges "c" [("k", .obj [("-3", .ofU64 7)])] update.2 := by
  let _ := Crates.plain
  let _ := Lowercase.ascii
  let _ := FloatText.plain
  intro db update
  have hbefore : (db.shown "c" "k").bind (fun v => v.get SEQ) = some (.ofU64 0) := by
    decide +kernel
  have hafter : (update.2.shown "c" "k").bind (fun v => v.get SEQ) = some (.ofU64 7) := by
    decide +kernel
  refine ⟨by decide +kernel, hbefore, hafter, fun hmerges => ?_⟩
  obtain ⟨old, hold, hseq⟩ := Option.bind_eq_some_iff.1 hbefore
  obtain ⟨new, hnew, hinto⟩ := hmerges.named _ (List.mem_singleton.2 rfl) old hold
  rw [hnew, Option.bind_some, hinto.seq, hseq] at hafter
  exact absurd hafter (by decide)

end

end MoltenDB
