/-
  What a set does with the documents that its own extend.

  A document is stored with what its references come to (`exists_unextended`), but for the fields
  that stamping sets: sets whose documents are the same but for these have the same outcome
  (`sameOutcome_setData`).
-/
import MoltenDB.Engine.Items
import MoltenDB.Engine.OneCollection
import MoltenDB.Proof.DocumentDepth
import MoltenDB.Proof.FailedSettings
import MoltenDB.Proof.ReturnedVersions

namespace MoltenDB

open Wire Prog Prog.Eff SystemFields Operations

/-! ## The documents that a document extends -/

/-- The references of a document, under the names that they are embedded under. -/
def references (doc : Json) : List (String × Json) :=
  ((doc.get "extends").bind Json.asObject).getD []

/-- A document without its references. -/
def unextended (doc : Json) : Json :=
  match doc with
  | .obj fs =>
    if ((fs.lookup "extends").bind Json.asObject).isSome then .obj (Fields.erase "extends" fs)
    else doc
  | doc => doc

/-- What the references come to. -/
def Db.embedded (db : Db) (refs : List (String × Json)) : List (String × Json) :=
  refs.filterMap fun p => (db.referenced p.2).map fun v => (p.1, v)

theorem foldl_embedReference (db : Db) (refs result : List (String × Json)) :
    refs.foldl (fun result p => embedReference db result p.1 p.2) result =
      Fields.insertAll (db.embedded refs) result := by
  induction refs generalizing result with
  | nil => rfl
  | cons p refs ih =>
    rw [List.foldl_cons, ih, embedReference_eq, Db.embedded, Db.embedded, List.filterMap_cons]
    cases db.referenced p.2 <;> rfl

/-- **A document with what it extends** is the one without its references, with what they come to. -/
theorem exists_unextended (fs : List (String × Json)) : ∃ gs, unextended (.obj fs) = .obj gs ∧
    (Fields.Sorted fs → Fields.Sorted gs) ∧ ∀ db, resolveExtends db (.obj fs) =
      .obj (Fields.insertAll (db.embedded (references (.obj fs))) gs) := by
  simp only [unextended, references, resolveExtends, Json.get_obj]
  cases (fs.lookup "extends").bind Json.asObject with
  | none => exact ⟨fs, rfl, id, fun _ => rfl⟩
  | some refs =>
    refine ⟨Fields.erase "extends" fs, rfl, sorted_erase, fun db => ?_⟩
    dsimp only
    rw [foldl_embedReference]
    rfl

theorem resolveExtends_of_not_object {doc : Json} (h : doc.isObject = false) (db : Db) :
    resolveExtends db doc = doc := by
  cases doc with
  | obj fs => cases h
  | _ => rfl

/-- What is embedded under a name depends on the references under that name. -/
theorem lookup_embedded_congr {db db' : Db} {key : String} {refs : List (String × Json)}
    (h : ∀ p ∈ refs, p.1 = key → db'.referenced p.2 = db.referenced p.2) :
    (db'.embedded refs).reverse.lookup key = (db.embedded refs).reverse.lookup key := by
  induction refs with
  | nil => rfl
  | cons p refs ih =>
    have hrest := ih fun q hq => h q (List.mem_cons_of_mem _ hq)
    have hsplit : ∀ db : Db, (db.embedded (p :: refs)).reverse.lookup key =
        ((db.embedded refs).reverse.lookup key).or
          (if key = p.1 then db.referenced p.2 else none) := by
      intro db
      have hcons : db.embedded (p :: refs) =
          ((db.referenced p.2).map fun v => (p.1, v)).toList ++ db.embedded refs := by
        rw [Db.embedded, List.filterMap_cons]
        cases db.referenced p.2 <;> rfl
      rw [hcons, List.reverse_append, List.lookup_append]
      congr 1
      cases db.referenced p.2 with
      | none => simp
      | some v =>
        by_cases hkey : key = p.1
        · simp [hkey]
        · have hne : (key == p.1) = false := beq_false_of_ne hkey
          simp [hkey, List.lookup_cons, hne]
    rw [hsplit, hsplit, hrest]
    split_ifs with hkey
    · rw [h p List.mem_cons_self hkey.symm]
    · rfl

/-- The names of the fields that stamping sets. -/
def stampNames : List String := [IKEY_VERSION, IKEY_CREATED_AT, IKEY_MODIFIED_AT, IKEY_SEQ]

/-- The values are the same but for the fields that stamping sets. -/
inductive SameUnstamped : Json → Json → Prop
  | refl (v : Json) : SameUnstamped v v
  | obj (fs fs' : List (String × Json)) (hfs : Fields.Sorted fs) (hfs' : Fields.Sorted fs')
    (h : ∀ key ∉ stampNames, fs'.lookup key = fs.lookup key) : SameUnstamped (.obj fs) (.obj fs')

theorem hasReserved_obj {fs : List (String × Json)} : hasReserved [] (.obj fs) = true ↔
    ∃ key : String, key.toList.head? = some '_' ∧ (fs.lookup key).isSome = true := by
  unfold hasReserved
  rw [List.any_eq_true]
  constructor
  · rintro ⟨p, hp, hkey⟩
    refine ⟨p.1, by simpa using hkey, ?_⟩
    rw [List.lookup_isSome_iff]
    exact ⟨p, hp, by simp⟩
  · rintro ⟨key, hkey, hsome⟩
    obtain ⟨v, hv⟩ := Option.isSome_iff_exists.1 hsome
    exact ⟨(key, v), Fields.mem_of_lookup hv, by simp [hkey]⟩

namespace SameUnstamped

variable {v v' : Json}

theorem reserved (h : SameUnstamped v v') : hasReserved [] v' = hasReserved [] v := by
  cases h with
  | refl => rfl
  | obj fs fs' _ _ h =>
    rw [Bool.eq_iff_iff, hasReserved_obj, hasReserved_obj]
    have hstamps : ∀ key : String, key.toList.head? = some '_' → key ∉ stampNames := by
      rintro key hkey hmem
      revert hkey
      fin_cases hmem <;> decide
    constructor
    · rintro ⟨key, hkey, hsome⟩
      exact ⟨key, hkey, by rwa [← h key (hstamps key hkey)]⟩
    · rintro ⟨key, hkey, hsome⟩
      exact ⟨key, hkey, by rwa [h key (hstamps key hkey)]⟩

theorem stampWith_eq {fs fs' : List (String × Json)} (hfs : Fields.Sorted fs)
    (hfs' : Fields.Sorted fs') (h : ∀ key ∉ stampNames, fs'.lookup key = fs.lookup key)
    (ver created now seq : UInt64) :
    stampWith (.obj fs') ver created now seq = stampWith (.obj fs) ver created now seq := by
  simp only [stampWith, Json.set_obj]
  congr 1
  refine Fields.Sorted.ext ((((hfs'.insert _ _).insert _ _).insert _ _).insert _ _)
    ((((hfs.insert _ _).insert _ _).insert _ _).insert _ _) fun key => ?_
  simp only [Fields.lookup_insert]
  split_ifs with h₁ h₂ h₃ h₄
  · rfl
  · rfl
  · rfl
  · rfl
  · refine h key fun hmem => ?_
    simp only [stampNames, List.mem_cons, List.not_mem_nil, or_false] at hmem
    rcases hmem with rfl | rfl | rfl | rfl
    · exact h₄ rfl
    · exact h₃ rfl
    · exact h₂ rfl
    · exact h₁ rfl

theorem prepare_eq (h : SameUnstamped v v') (c : String) (existing : Option Json)
    (now seq : UInt64) : prepare c existing v' now seq = prepare c existing v now seq := by
  cases h with
  | refl => rfl
  | obj fs fs' hfs hfs' h =>
    have hstamp := stampWith_eq hfs hfs' h
    cases existing with
    | some old =>
      have hover : stampOverwrite old (.obj fs') now seq = stampOverwrite old (.obj fs) now seq :=
        hstamp _ _ _ _
      rw [prepare, prepare, hover]
    | none =>
      have hnew : stampNew (.obj fs') now seq = stampNew (.obj fs) now seq := hstamp _ _ _ _
      rw [prepare, prepare, hnew]
      rfl

/-- **The fields that stamping sets do not matter** to a set. -/
theorem insertItem_eq [Crates] (h : SameUnstamped v v') (c k : String) :
    insertItem c (k, v') = insertItem c (k, v) := by
  simp only [insertItem, h.prepare_eq]

end SameUnstamped

/-! ## The parts of a set -/

/-- The collection that a set writes to. -/
def setTarget (payload : Json) : String := (namedCollection payload).getD "default"

/-- The request gets as far as its documents. -/
structure SetValid [FloatText] (payload : Json) (maxBodySize maxKeysPerRequest : ℕ) : Prop where
  properties : validateAllowedProperties payload SET_ALLOWED = .ok ()
  request : validateRequest payload maxBodySize maxKeysPerRequest = .ok ()
  ttl : ttlValid payload = true
  maxSize : maxSizeValid payload = true

theorem Db.limited_configured (db : Db) (c : String) (payload : Json) :
    db.Limited (db.configured c payload) := by
  have httl : db.Limited (db.withTtlOf c payload) := by
    unfold Db.withTtlOf
    cases ttlSet payload with
    | none => exact .refl db
    | some secs => exact db.limited_withTtlDefault c secs
  unfold Db.configured
  cases maxSizeSet payload with
  | none => exact httl
  | some max => exact httl.withMaxSize c max

section

variable [Crates] [FloatText] {payload : Json} {maxBodySize maxKeysPerRequest : ℕ}

/-- A request that gets to its documents has registered its limits. -/
theorem processSet_valid (h : SetValid payload maxBodySize maxKeysPerRequest) (db : Db) :
    processSet payload maxBodySize maxKeysPerRequest db =
      setData (setTarget payload) (payload.field .data)
        (db.configured (setTarget payload) payload) := by
  refine eq_of_wp ?_
  rw [processSet, h.properties, h.request]
  refine wp_withTtl_of (fun httl => ?_) fun _ => wp_withMaxSize_of (fun hmax => ?_) fun _ => ?_
  · rw [h.ttl] at httl
    cases httl
  · rw [h.maxSize] at hmax
    cases hmax
  · exact wp_intro (fun _ _ hrun => hrun) fun _ _ hrun => hrun

/-- One that does not is answered alike in all databases. -/
theorem processSet_invalid (h : ¬ SetValid payload maxBodySize maxKeysPerRequest) :
    ∃ r : Response, ∀ db, wp (processSet payload maxBodySize maxKeysPerRequest)
      (fun r' db' => r' = r ∧ db'.state = db.state) (fun _ _ => False) db := by
  rw [processSet]
  cases hprop : validateAllowedProperties payload SET_ALLOWED with
  | error e => exact ⟨e.intoResponse, fun db => ⟨rfl, rfl⟩⟩
  | ok u =>
    cases hreq : validateRequest payload maxBodySize maxKeysPerRequest with
    | error e => exact ⟨e.intoResponse, fun db => ⟨rfl, rfl⟩⟩
    | ok u' =>
      cases httl : ttlValid payload with
      | false =>
        refine ⟨SetError.invalidTtl.intoResponse, fun db => ?_⟩
        refine wp_withTtl_of (fun _ => ⟨rfl, rfl⟩) fun hvalid => ?_
        rw [httl] at hvalid
        cases hvalid
      | true =>
        refine ⟨SetError.invalidMaxSize.intoResponse, fun db => ?_⟩
        refine wp_withTtl_of (fun hinvalid => ?_) fun _ => wp_withMaxSize_of (fun _ => ⟨rfl, ?_⟩)
          fun hmax => absurd ⟨hprop, hreq, httl, hmax⟩ h
        · rw [httl] at hinvalid
          cases hinvalid
        · unfold Db.withTtlOf
          cases ttlSet payload with
          | none => rfl
          | some secs => exact (db.limited_withTtlDefault _ secs).state

end

/-! ## The same documents -/

/-- The outcomes have the same status, and leave the same documents in the collection. -/
def SameOutcome (c : String) (r r' : Except DbError Response × Db) : Prop :=
  r.1.map Prod.fst = r'.1.map Prod.fst ∧ ∀ k, r.2.bytes c k = r'.2.bytes c k

section

variable {c : String} {db db' : Db}

theorem Db.SameIn.bytes (h : db.SameIn c db') (k : String) : db.bytes c k = db'.bytes c k := by
  obtain ⟨state, hc, rfl⟩ := h
  simp only [Db.bytes, hc]

theorem Db.SameIn.configured (h : db.SameIn c db') (c' : String) (payload : Json) :
    (db.configured c' payload).SameIn c (db'.configured c' payload) := by
  obtain ⟨state, hc, rfl⟩ := h
  refine ⟨state, by rwa [(db.limited_configured c' payload).state], ?_⟩
  unfold Db.configured Db.withTtlOf Db.withTtlDefault
  cases ttlSet payload with
  | none => cases maxSizeSet payload <;> rfl
  | some secs =>
    cases maxSizeSet payload <;> simp only [Option.elim_some, Option.elim_none] <;> split_ifs <;> rfl

theorem sameOutcome_of_alike {m : Op Response} (hm : Alike (Db.SameIn c) m) (h : db.SameIn c db') :
    SameOutcome c (m db) (m db') := by
  obtain ⟨hout, hend⟩ := hm db db' h
  exact ⟨by rw [hout], hend.bytes⟩

variable [Crates]

/-- An insert of items that are stored alike. -/
theorem insertItems_congr {items items' : List (String × Json)}
    (h : items'.map (insertItem c) = items.map (insertItem c)) (success : List (String × Json)) :
    insertItems c items' success = insertItems c items success := by
  simp only [insertItems, Db.insert, Operations.insert, forEach_congr h]

theorem alike_insertItems (items success : List (String × Json)) :
    Alike (Db.SameIn c) (insertItems c items success) := by
  refine (alike_insert items).outcome.bind fun r => ?_
  cases r with
  | ok u => exact alike_pure _
  | error e => exact alike_pure _

end

/-- The keys of the documents of a set: those of a map, or identifiers that are drawn. -/
def setKeys (w : World) (n : ℕ) : Option Json → List String
  | some (.obj dataMap) => dataMap.map Prod.fst
  | some (.arr dataArr) => (List.range' n dataArr.length).map w.uuid
  | _ => []

/-- The data of a set are a map or an array. -/
def isBatch : Option Json → Bool
  | some (.obj _) | some (.arr _) => true
  | _ => false

/-- A document of the set has a reserved name, of its own or that of what it extends. -/
def Db.refusesSet (db : Db) (payload : Json) : Bool :=
  (setDocs payload).any fun doc => hasReserved [] (resolveExtends db doc)

/-- The items of a set: its documents under their keys, with what they extend. -/
def Db.setItems (db : Db) (payload : Json) : List (String × Json) :=
  ((setKeys db.world db.tick (payload.field .data)).zip (setDocs payload)).map fun p =>
    (p.1, resolveExtends db p.2)

section

variable {payload : Json} {c : String}

theorem freshItems_eq (db : Db) (docs : List Json) (n : ℕ) : freshItems db n docs =
    if docs.any fun doc => hasReserved [] (resolveExtends db doc) then none
    else some ((((List.range' n docs.length).map db.world.uuid).zip docs).map fun p =>
      (p.1, resolveExtends db p.2)) := by
  induction docs generalizing n with
  | nil => rfl
  | cons doc docs ih =>
    rw [freshItems, ih, List.any_cons]
    cases hasReserved [] (resolveExtends db doc) with
    | true => rfl
    | false =>
      rw [Bool.false_or, if_neg Bool.false_ne_true]
      split_ifs
      · rfl
      · rfl

theorem dataItems_eq (h : isBatch (payload.field .data) = true) (db : Db) :
    db.dataItems (payload.field .data) =
      if db.refusesSet payload then none else some (db.setItems payload) := by
  unfold Db.refusesSet Db.setItems setDocs
  unfold isBatch at h
  cases hfield : payload.field .data with
  | none =>
    rw [hfield] at h
    cases h
  | some data =>
    rw [hfield] at h
    cases data with
    | obj dataMap =>
      have hany : ((dataMap.map fun p => (p.1, resolveExtends db p.2)).any fun p =>
          hasReserved [] p.2) =
            (dataMap.map Prod.snd).any fun doc => hasReserved [] (resolveExtends db doc) := by
        rw [List.any_map, List.any_map]
        rfl
      simp only [Db.dataItems, setKeys, hany, List.zip_map', List.map_map]
      rfl
    | arr dataArr => exact freshItems_eq db dataArr db.tick
    | _ => cases h

theorem run_identify (db db₀ : Db) (docs : List Json) (hworld : db.world = db₀.world) : ∃ n : ℕ,
    identify db₀ docs db = (.ok (freshItems db₀ db.tick docs), { db with tick := n }) ∧
      ((freshItems db₀ db.tick docs).isSome = true → n = db.tick + docs.length) := by
  have hwp : wp (identify db₀ docs) (fun r s => r = freshItems db₀ db.tick docs ∧
      ∃ n : ℕ, s = { db with tick := n } ∧ (r.isSome = true → n = db.tick + docs.length))
      (fun _ _ => False) db :=
    wp_identify hworld (fun hnone n => ⟨hnone.symm, n, rfl, fun h => by cases h⟩)
      fun items hitems => ⟨hitems.symm, _, rfl, fun _ => rfl⟩
  obtain ⟨r, s, hrun, rfl, n, rfl, hn⟩ := exists_of_wp hwp
  exact ⟨n, hrun, hn⟩

variable [Crates]

/-- The fields of the answer to a set that stores its items. -/
def setSuccess (data : Option Json) (items : List (String × Json)) : List (String × Json) :=
  match data with
  | some (.arr _) => [("status", .str "ok"), ("count", jsonCount items.length),
    ("ids", .arr (items.map fun p => .str p.1))]
  | _ => [("status", .str "ok"), ("count", jsonCount items.length)]

/-- **The data of a set** are refused, or inserted. -/
theorem setData_run (h : isBatch (payload.field .data) = true) (db : Db) :
    if db.refusesSet payload then ∃ n : ℕ, setData c (payload.field .data) db =
      (.ok SetError.reservedFields.intoResponse, { db with tick := n })
    else setData c (payload.field .data) db =
      insertItems c (db.setItems payload) (setSuccess (payload.field .data) (db.setItems payload))
        (db.drawn (payload.field .data)) := by
  have hitems := dataItems_eq h db
  unfold isBatch at h
  revert hitems
  cases hfield : payload.field .data with
  | none =>
    rw [hfield] at h
    cases h
  | some data =>
    rw [hfield] at h
    cases data with
    | obj dataMap =>
      intro hitems
      simp only [Db.dataItems] at hitems
      split_ifs at hitems ⊢ with hrefused hany hany
      · refine ⟨db.tick, ?_⟩
        change (if _ then _ else _ : Op Response) db = _
        rw [if_pos hany]
        rfl
      · change (if _ then _ else _ : Op Response) db = _
        rw [if_neg hany, ← Option.some.inj hitems]
        unfold setSuccess
        rw [List.length_map]
        rfl
    | arr dataArr =>
      intro hitems
      change freshItems db db.tick dataArr = _ at hitems
      obtain ⟨n, hrun, hn⟩ := run_identify db db dataArr rfl
      have hset : setData c (some (.arr dataArr)) db = Eff.bind (identify db dataArr)
          (fun items => items.elim (pure SetError.reservedFields.intoResponse) fun items =>
            insertItems c items [("status", .str "ok"), ("count", jsonCount dataArr.length),
              ("ids", .arr (items.map fun p => .str p.1))]) db := by
        refine congrArg (fun k => Eff.bind (identify db dataArr) k db) ?_
        funext items
        cases items <;> rfl
      rw [hset]
      unfold Eff.bind
      rw [hrun]
      rw [hitems] at hn ⊢
      split_ifs at hn ⊢ with hrefused
      · exact ⟨n, rfl⟩
      · obtain rfl := hn rfl
        have hlen : (db.setItems payload).length = dataArr.length := by
          simp [Db.setItems, setDocs, setKeys, hfield]
        unfold setSuccess
        rw [hlen]
        rfl
    | _ => cases h

theorem setData_missing (h : isBatch (payload.field .data) = false) (db : Db) :
    setData c (payload.field .data) db = (.ok SetError.missingDataMap.intoResponse, db) := by
  cases hfield : payload.field .data with
  | none => rfl
  | some data =>
    rw [hfield] at h
    cases data with
    | obj | arr => cases h
    | _ => rfl

/-- **The data of a set have the same outcome** if their documents are stored alike. -/
theorem sameOutcome_setData {db db' : Db} (h : db.SameIn c db')
    (hdocs : ∀ doc ∈ setDocs payload,
      SameUnstamped (resolveExtends db doc) (resolveExtends db' doc)) :
    SameOutcome c (setData c (payload.field .data) db) (setData c (payload.field .data) db') := by
  cases hbatch : isBatch (payload.field .data) with
  | false =>
    rw [setData_missing hbatch, setData_missing hbatch]
    exact ⟨rfl, h.bytes⟩
  | true =>
    have hrun := setData_run (c := c) hbatch db
    have hrun' := setData_run (c := c) hbatch db'
    have hrefuses : db'.refusesSet payload = db.refusesSet payload := by
      have hany : ∀ db : Db, db.refusesSet payload =
          ((setDocs payload).map fun doc => hasReserved [] (resolveExtends db doc)).any id := by
        intro db
        rw [List.any_map]
        rfl
      rw [hany, hany, List.map_congr_left fun doc hdoc => (hdocs doc hdoc).reserved]
    rw [hrefuses] at hrun'
    split_ifs at hrun hrun'
    · obtain ⟨n, hrun⟩ := hrun
      obtain ⟨n', hrun'⟩ := hrun'
      rw [hrun, hrun']
      exact ⟨rfl, h.bytes⟩
    · obtain ⟨state, hc, rfl⟩ := h
      have hstored : (Db.setItems { db with state := state } payload).map (insertItem c) =
          (db.setItems payload).map (insertItem c) := by
        unfold Db.setItems
        rw [List.map_map, List.map_map]
        exact List.map_congr_left fun p hp =>
          (hdocs p.2 (List.of_mem_zip hp).2).insertItem_eq c p.1
      have hsuccess : setSuccess (payload.field .data) (Db.setItems { db with state := state } payload) =
          setSuccess (payload.field .data) (db.setItems payload) := by
        unfold setSuccess Db.setItems
        simp only [List.length_map, List.map_map]
        rfl
      rw [hrun, hrun', hsuccess, insertItems_congr hstored]
      refine sameOutcome_of_alike (alike_insertItems _ _) ⟨state, ?_, ?_⟩
      · unfold Db.drawn
        split <;> exact hc
      · unfold Db.drawn
        split <;> rfl

end

end MoltenDB
