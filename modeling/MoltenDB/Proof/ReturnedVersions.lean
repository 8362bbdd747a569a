/-
  The key and the version that a query returns are the stored ones, unless a join is embedded as
  the version.

  A document that is stored as an object has a version (`Versioned`), and the joins come before
  the version is read: what a join with the alias `_v` finds takes its place.
-/
import MoltenDB.Proof.ExpiredReads
import MoltenDB.Proof.ReadBack
import MoltenDB.Proof.UpdateMerges

namespace MoltenDB

open Wire Prog Prog.Eff SystemFields Operations

/-! ## Documents with a version -/

/-- The value is an object, and a client sees its version once it is stored. -/
structure Versioned (v : Json) : Prop where
  fits : v.Fits
  object : ∃ fs, v = .obj fs ∧ Fields.Sorted fs
  version : ∃ n : UInt64, v.shown.get VERSION = some (.ofU64 n)

theorem Versioned.canon {v : Json} (h : Versioned v) : Versioned v.canon where
  fits := h.fits.canon
  object := by
    obtain ⟨fs, rfl, -⟩ := h.object
    exact ⟨_, Json.canon_obj fs, Json.sorted_canonFields fs⟩
  version := by
    rw [shown_canon]
    exact h.version

theorem versioned_stampWith {fs : List (String × Json)} (hfs : Fields.Sorted fs)
    (hfree : hasReserved [] (.obj fs) = false) (hfits : (Json.obj fs).Fits)
    (hlen : fs.length + 4 < 2 ^ 32) (ver created now seq : UInt64) :
    Versioned (stampWith (.obj fs) ver created now seq) where
  fits := fits_stampWith hfits (fun _ h => Json.obj.inj h ▸ hlen) ver created now seq
  object := ⟨_, rfl, (((hfs.insert _ _).insert _ _).insert _ _).insert _ _⟩
  version := ⟨ver, get_version_stampWith ver created now seq hfs hfree⟩

theorem versioned_merged {docObj updateObj : List (String × Json)} (hdoc : Fields.Sorted docObj)
    {now : UInt64} (hfits : (merged docObj updateObj now).Fits) :
    Versioned (merged docObj updateObj now) := by
  have hsorted : Fields.Sorted (Fields.insert MODIFIED_AT (.ofU64 now) (Fields.insert VERSION
      (.ofU64 ((fieldU64 (.obj docObj) IKEY_VERSION).getD 0 + 1)) (mergeFields docObj updateObj))) :=
    ((hdoc.insertAll _).insert _ _).insert _ _
  refine ⟨hfits, ⟨_, rfl, hsorted⟩, (fieldU64 (.obj docObj) IKEY_VERSION).getD 0 + 1, ?_⟩
  have hget : (merged docObj updateObj now).get VERSION =
      some (.ofU64 ((fieldU64 (.obj docObj) IKEY_VERSION).getD 0 + 1)) := by
    rw [merged, Json.get_set rfl, if_neg (by decide), Json.get_set rfl, if_pos rfl]
  have hall : ∀ fs, merged docObj updateObj now = .obj fs → Fields.Sorted fs := by
    intro fs hobj
    rw [merged, Json.set_obj, Json.set_obj] at hobj
    exact Json.obj.inj hobj ▸ hsorted
  rw [get_shown_of hall (by decide), hget]
  rfl

/-- The version that a client sees is the stored one. -/
theorem Versioned.version_eq {v : Json} (h : Versioned v) :
    v.shown.get VERSION = some (.ofU64 (MoltenDB.version (valueToMsgpack v))) := by
  obtain ⟨n, hn⟩ := h.version
  have hint : v.canon.get IKEY_VERSION = some (.ofU64 n) := by
    rw [get_shown_canon v (by decide)] at hn
    obtain ⟨x, hx, hshown⟩ := Option.map_eq_some_iff.1 hn
    rw [eq_of_shown_ofU64 hshown] at hx
    exact hx
  rw [MoltenDB.version, msgpackToValue_valueToMsgpack h.fits, Option.bind_some, fieldU64, hint, hn]
  simp [Json.asU64_ofU64]

theorem sorted_resolveExtends [Crates] (db : Db) {fs : List (String × Json)}
    (hfs : Fields.Sorted fs) : ∃ gs, resolveExtends db (.obj fs) = .obj gs ∧ Fields.Sorted gs := by
  rw [resolveExtends]
  cases (fs.lookup "extends").bind Json.asObject with
  | none => exact ⟨fs, rfl, hfs⟩
  | some refs =>
    refine ⟨_, rfl, ?_⟩
    refine List.foldlRecOn (motive := Fields.Sorted) refs _ (sorted_erase hfs) fun result hresult p _ => ?_
    unfold embedReference
    cases p.2.asStr.bind cutAtDot with
    | none => exact hresult
    | some ref =>
      dsimp only
      cases (db.get ref.1 [ref.2])[ref.2]? with
      | none => exact hresult
      | some v => exact hresult.insert _ _

namespace ClientRequest

variable [Crates]

/-- Documents are set as objects. -/
def SetsObjects (db : Db) (r : ClientRequest) : Prop :=
  r.Fitting db ∧ ∀ payload, r = .set payload → ∀ doc ∈ setDocs payload,
    ∃ fs, doc = .obj fs ∧ Fields.Sorted fs

variable [Lowercase] [FloatText] {maxBodySize maxKeysPerRequest : ℕ} {db : Db}

theorem versioned_next {r : ClientRequest} (h : db.AllDocs Versioned) (hr : r.SetsObjects db) :
    (next maxBodySize maxKeysPerRequest db r).AllDocs Versioned := by
  obtain ⟨hfitting, hobjects⟩ := hr
  refine allDocs_next _ _ (fun v hv => ⟨hv.fits, hv.canon⟩) h r ?_ ?_ ?_
  · rintro payload rfl - doc hdoc hfree
    obtain ⟨hfits, hlen⟩ := hfitting doc hdoc
    obtain ⟨fs, rfl, hfs⟩ := hobjects payload rfl doc hdoc
    obtain ⟨gs, hgs, hsorted⟩ := sorted_resolveExtends db hfs
    rw [hgs] at hfree hfits ⊢
    refine ⟨fun hother => ?_, versioned_stampWith hsorted hfree hfits (hlen gs hgs)⟩
    cases hother
  · rintro payload rfl - data hdata
    obtain ⟨hnodup, hfit⟩ := hfitting data hdata
    refine ⟨hnodup, fun p hp docObj updateObj hdoc hold hupdates now => ?_⟩
    obtain ⟨fs, hfs, hsorted⟩ := hold.object
    obtain rfl := Json.obj.inj hfs
    exact versioned_merged hsorted (hfit p hp docObj updateObj hdoc hupdates now)
  · rintro rfl
    exact hfitting

end ClientRequest

/-- A document of a query, as it is fetched. -/
theorem Db.Stored.versioned {db : Db} (h : db.AllDocs Versioned) {c : String} {d : String × Json}
    (hd : db.Stored c d) : ∃ b, db.bytes c d.1 = some b ∧ d.2.isObject = true ∧
      d.2.get VERSION = some (.ofU64 (version b)) := by
  obtain ⟨b, w, hb, hdec, hw⟩ := hd
  obtain ⟨v, rfl, hv⟩ := h.bytes c d.1 b hb
  rw [msgpackToValue_valueToMsgpack hv.fits] at hdec
  obtain rfl := Option.some.inj hdec
  refine ⟨_, hb, ?_, hw ▸ hv.version_eq⟩
  obtain ⟨fs, hfs, -⟩ := hv.canon.object
  rw [hw, hfs, expandSystemFields_obj]
  rfl

/-! ## Joins -/

section

variable [Crates]

/-- Taken one after another, a join with the alias `_v` finds a document. -/
def VersionJoined (db : Db) : Json → List (String × Json) → Prop
  | _, [] => False
  | doc, (name, inner) :: joins =>
    name = VERSION ∧ (applyJoin db doc name inner).isSome = true ∨
      VersionJoined db ((applyJoin db doc name inner).getD doc) joins

/-- A document is embedded under its alias. -/
theorem applyJoin_object {db : Db} (h : db.AllDocs Versioned) {doc inner doc' : Json} {name : String}
    (hjoin : applyJoin db doc name inner = some doc') :
    ∃ embedded, embedded.isObject = true ∧ doc' = doc.set name embedded := by
  simp only [applyJoin, Option.bind_eq_bind, Option.bind_eq_some_iff, Option.pure_def,
    Option.some.injEq] at hjoin
  obtain ⟨fk, -, related, hrelated, rfl⟩ := hjoin
  obtain ⟨b, -, hobj, -⟩ := Db.Stored.versioned h (Db.get_stored hrelated).1
  refine ⟨_, ?_, rfl⟩
  cases (inner.field .fields).bind Json.asArray with
  | none => exact hobj
  | some fields => rfl

/-- The version of the document is an object. -/
def ObjectVersion (doc : Json) : Prop := ∃ w, doc.get VERSION = some w ∧ w.isObject = true

/-- The documents `doc` before and `out` after the `joins`: the version is the same, or an object
    if one of them is embedded as the version. -/
structure JoinedAs (db : Db) (doc : Json) (joins : List (String × Json)) (out : Json) : Prop where
  object : out.isObject = true
  kept : ¬ VersionJoined db doc joins → out.get VERSION = doc.get VERSION
  replaced : VersionJoined db doc joins ∨ ObjectVersion doc → ObjectVersion out

theorem applyJoins_joinedAs {db : Db} (h : db.AllDocs Versioned) {doc : Json}
    (hdoc : doc.isObject = true) (joins : List Json) :
    JoinedAs db doc (joins.filterMap joinOf) (applyJoins db doc joins).1 := by
  unfold applyJoins
  generalize joins.filterMap joinOf = ps
  generalize hacc : (doc, ([] : List String)) = acc
  obtain rfl : acc.1 = doc := hacc ▸ rfl
  clear hacc
  induction ps generalizing acc with
  | nil => exact ⟨hdoc, fun _ => rfl, fun hv => hv.resolve_left id⟩
  | cons p ps ih =>
    obtain ⟨doc, aliases⟩ := acc
    obtain ⟨name, inner⟩ := p
    rw [List.foldl_cons]
    dsimp only at hdoc ⊢
    cases hjoin : applyJoin db doc name inner with
    | none =>
      obtain ⟨hobj, hkept, hreplaced⟩ := ih (doc, aliases) hdoc
      have hiff : VersionJoined db doc ((name, inner) :: ps) ↔ VersionJoined db doc ps := by
        simp [VersionJoined, hjoin]
      exact ⟨hobj, fun hv => hkept fun hrest => hv (hiff.2 hrest), fun hv =>
        hreplaced (hv.imp_left hiff.1)⟩
    | some doc' =>
      obtain ⟨embedded, hembedded, rfl⟩ := applyJoin_object h hjoin
      have hobj' : (doc.set name embedded).isObject = true := by rw [Json.isObject_set, hdoc]
      obtain ⟨hobj, hkept, hreplaced⟩ := ih (doc.set name embedded, aliases ++ [name]) hobj'
      have hiff : VersionJoined db doc ((name, inner) :: ps) ↔
          name = VERSION ∨ VersionJoined db (doc.set name embedded) ps := by
        simp [VersionJoined, hjoin]
      refine ⟨hobj, fun hv => ?_, fun hv => hreplaced ?_⟩
      · rw [hiff, not_or] at hv
        rw [hkept hv.2, Json.get_set hdoc, if_neg (Ne.symm hv.1)]
      · rw [hiff] at hv
        by_cases hname : name = VERSION
        · refine Or.inr ⟨embedded, ?_, hembedded⟩
          rw [Json.get_set hdoc, if_pos hname.symm]
        · rcases hv with (heq | hrest) | ⟨w, hw, hobjw⟩
          · exact absurd heq hname
          · exact Or.inl hrest
          · refine Or.inr ⟨w, ?_, hobjw⟩
            rw [Json.get_set hdoc, if_neg (Ne.symm hname), hw]

end

/-! ## Shape -/

theorem isObject_projectDoc (doc : Json) (fields : List Json) (aliases : List String)
    (expiresVal : Option Json) : (projectDoc doc fields aliases expiresVal).isObject = true := by
  have hset : ∀ (requested : List String) (field : String) (value : Option Json) (out : Json), out.isObject = true →
      (setRequested requested field value out).isObject = true := by
    intro requested field value out hout
    unfold setRequested
    cases value with
    | none => exact hout
    | some v =>
      dsimp only
      split_ifs
      · rw [Json.isObject_set, hout]
      · exact hout
  refine hset _ _ _ _ (hset _ _ _ _ (hset _ _ _ _ (hset _ _ _ _ ?_)))
  refine List.foldlRecOn (motive := fun out : Json => out.isObject = true) aliases _ rfl
    fun out hout name _ => ?_
  cases doc.get name with
  | none => exact hout
  | some v => exact (Json.isObject_set out name v).trans hout

/-- What is returned of an object has its key and the version that it has then. -/
theorem get_shapeDoc {doc v : Json} (hdoc : doc.isObject = true) (hv : doc.get VERSION = some v)
    (key : String) (fields excluded : Option (List Json)) (aliases : List String)
    (expiresVal : Option Json) :
    (shapeDoc doc key fields excluded aliases expiresVal).isObject = true ∧
      (shapeDoc doc key fields excluded aliases expiresVal).get KEY = some (.str key) ∧
      (shapeDoc doc key fields excluded aliases expiresVal).get VERSION = some v := by
  obtain ⟨fs, rfl⟩ : ∃ fs, doc = .obj fs := by cases doc <;> simp_all [Json.isObject]
  have hshape : ∃ out : Json, out.isObject = true ∧
      shapeDoc (.obj fs) key fields excluded aliases expiresVal =
        (out.set VERSION v).set KEY (.str key) := by
    unfold shapeDoc
    rw [hv]
    refine ⟨_, ?_, rfl⟩
    cases fields with
    | some f => exact isObject_projectDoc (.obj fs) f aliases expiresVal
    | none =>
      cases excluded with
      | some ex => rfl
      | none => rfl
  obtain ⟨out, hout, heq⟩ := hshape
  have hset : (out.set VERSION v).isObject = true := by rw [Json.isObject_set, hout]
  rw [heq]
  refine ⟨by rw [Json.isObject_set, hset], ?_, ?_⟩
  · rw [Json.get_set hset, if_pos rfl]
  · rw [Json.get_set hset, if_neg (by decide), Json.get_set hout, if_pos rfl]

/-! ## Queries -/

section

variable [Crates] {db : Db} {c : String}

/-- The element has the key of a document of the collection, and the version that it is stored
    with. -/
def Db.Genuine (db : Db) (c : String) (e : Json) : Prop :=
  ∃ k b, db.bytes c k = some b ∧ e.get KEY = some (.str k) ∧
    e.get VERSION = some (.ofU64 (version b))

omit [Crates] in
/-- The version of the element is a guard that holds for an update of the document. -/
theorem Db.Genuine.guardHolds {e : Json} (h : db.Genuine c e) :
    ∃ k b, db.bytes c k = some b ∧ e.get KEY = some (.str k) ∧
      ∀ doc updates, msgpackToValue b = some doc → updates.get VERSION = e.get VERSION →
        MoltenDB.guardHolds doc updates = true := by
  obtain ⟨k, b, hb, hkey, hversion⟩ := h
  refine ⟨k, b, hb, hkey, fun doc updates hdoc hguard => ?_⟩
  have hfield : fieldU64 updates VERSION = some (version b) := by
    rw [fieldU64, hguard, hversion, Option.bind_some, Json.asU64_ofU64]
  rw [MoltenDB.guardHolds, hfield, version, hdoc, Option.bind_some]
  exact beq_self_eq_true _

/-- **A document in its shape** has its key, and its version exactly if no join is embedded as
    the version. -/
theorem shape_genuine_iff (h : db.AllDocs Versioned) {d : String × Json} (hd : db.Stored c d)
    (params : GetParams) (joins : List Json) :
    (params.shape (d.1, applyJoins db d.2 joins)).get KEY = some (.str d.1) ∧
      (db.Genuine c (params.shape (d.1, applyJoins db d.2 joins)) ↔
        ¬ VersionJoined db d.2 (joins.filterMap joinOf)) := by
  obtain ⟨b, hb, hobj, hver⟩ := Db.Stored.versioned h hd
  obtain ⟨hout, hkept, hreplaced⟩ := applyJoins_joinedAs h hobj joins
  have hshape : ∀ v, (applyJoins db d.2 joins).1.get VERSION = some v →
      (params.shape (d.1, applyJoins db d.2 joins)).get KEY = some (.str d.1) ∧
        (params.shape (d.1, applyJoins db d.2 joins)).get VERSION = some v := fun v hv =>
    (get_shapeDoc hout hv _ _ _ _ _).2
  by_cases hjoined : VersionJoined db d.2 (joins.filterMap joinOf)
  · obtain ⟨w, hw, hobjw⟩ := hreplaced (Or.inl hjoined)
    obtain ⟨hkey, hversion⟩ := hshape w hw
    refine ⟨hkey, iff_of_false ?_ (not_not.2 hjoined)⟩
    rintro ⟨k, b', -, -, hgenuine⟩
    rw [hversion] at hgenuine
    rw [Option.some.inj hgenuine] at hobjw
    cases hobjw
  · obtain ⟨hkey, hversion⟩ := hshape _ ((hkept hjoined).trans hver)
    exact ⟨hkey, iff_of_true ⟨d.1, b, hb, hkey, hversion⟩ hjoined⟩

/-- An element of an array response: a stored document with its joins, in its shape. -/
def Db.Lists (db : Db) (c : String) (joins : List Json) (e : Json) : Prop :=
  ∃ d, db.Stored c d ∧ ∃ params : GetParams, e = params.shape (d.1, applyJoins db d.2 joins)

end

section

variable [Crates] [Lowercase] {db : Db} {params : GetParams}

omit [Crates] [Lowercase] in
/-- What a bounded heap holds was pushed. -/
theorem mem_foldl_pushBounded {α : Type} {cmp : α → α → Ordering} {cap : ℕ} {items heap : List α}
    {x : α} (h : x ∈ items.foldl (pushBounded cmp cap) heap) : x ∈ heap ∨ x ∈ items := by
  have hpush : ∀ {heap : List α} {item : α}, x ∈ pushBounded cmp cap heap item →
      x ∈ heap ∨ x = item := by
    intro heap item hx
    unfold pushBounded at hx
    split_ifs at hx
    · exact Or.inl hx
    · exact ((List.mem_orderedInsert _).1 hx).symm
    · split at hx
      · split_ifs at hx
        · rcases (List.mem_orderedInsert _).1 hx with hx | hx
          · exact Or.inr hx
          · exact Or.inl (List.mem_of_mem_dropLast hx)
        · exact Or.inl hx
      · exact Or.inl hx
  induction items generalizing heap with
  | nil => exact Or.inl h
  | cons item items ih =>
    rcases ih h with hx | hx
    · rcases hpush hx with hx | rfl
      · exact Or.inl hx
      · exact Or.inr List.mem_cons_self
    · exact Or.inr (List.mem_cons_of_mem _ hx)

/-- What a sorted scan keeps is stored. -/
theorem wp_fastSorted_stored [FloatText] (params : GetParams) (specs : List Json) (db : Db) :
    wp (fastSorted params specs) (fun top _ => ∀ d ∈ top, db.Stored params.colName d)
      (fun _ _ => True) db := by
  have hgeneral : ∀ (predicate : Predicate) cmp cap,
      wp (Db.scanTopN params.colName predicate cmp cap)
        (fun top _ => ∀ d ∈ top, db.Stored params.colName d) (fun _ _ => True) db := by
    intro predicate cmp cap
    simp only [Db.scanTopN, wp_bind, wp_get]
    cases hcol : db.col params.colName with
    | none => exact fun d hd => absurd hd List.not_mem_nil
    | some col =>
      simp only [wp_bind]
      refine wp_walk fun ks n _ => Decoded.stored (fun d hd => ?_) hcol
      have hmem := (mem_foldl_pushBounded hd).resolve_left List.not_mem_nil
      obtain ⟨e, he, hv⟩ := List.mem_filterMap.1 hmem
      obtain ⟨v, hdec, rfl⟩ := Option.map_eq_some_iff.1 hv
      exact ⟨e.2, (Map.mem_inOrder.1 (List.mem_filter.1 he).1).2, hdec⟩
  unfold fastSorted
  dsimp only
  split
  · split_ifs
    · exact hgeneral _ _ _
    · simp only [Db.scanTopNRawCoalesced, wp_bind, wp_get]
      cases hcol : db.col params.colName with
      | none => exact fun d hd => absurd hd List.not_mem_nil
      | some col =>
        simp only [wp_bind]
        exact wp_walk fun ks n _ => Decoded.stored (decoded_decodeKey _ _) hcol
  · exact hgeneral _ _ _

section

variable [FloatText] {maxBodySize maxKeysPerRequest : ℕ}

/-- The elements of the response are stored documents with their joins. -/
def Listed (db : Db) (c : String) (joins : List Json) (r : Response) : Prop :=
  ∀ elems, r = (200, .arr elems) → ∀ e ∈ elems, db.Lists c joins e

omit [Lowercase] [FloatText] in
theorem listed_of_error {c : String} {joins : List Json} {r : Response} (h : r.1 ≠ 200) :
    Listed db c joins r := by
  rintro elems rfl
  exact absurd rfl h

omit [Lowercase] [FloatText] in
theorem listed_documentsResponse {c : String} {joins : List Json} {docs : List Json}
    (h : ∀ e ∈ docs, db.Lists c joins e) : Listed db c joins (documentsResponse docs) := by
  intro elems heq
  unfold documentsResponse at heq
  split_ifs at heq
  · cases heq
  · cases heq
    exact h

omit [Lowercase] in
theorem listed_shapeAndReturn (h : db.AllDocs Versioned) {c : String} {joins : List Json}
    {results : List Found} (hresults : ∀ r ∈ results, ∃ d, db.Stored c d ∧
      r = (d.1, applyJoins db d.2 joins)) : Listed db c joins (shapeAndReturn params results) := by
  unfold shapeAndReturn
  split
  · -- a document alone is an object
    next r rest hkeys =>
    obtain ⟨d, hd, rfl⟩ := hresults r List.mem_cons_self
    have hkey := (shape_genuine_iff h hd params joins).1
    intro elems heq
    cases hshape : params.shape (d.1, applyJoins db d.2 joins) with
    | obj out =>
      rw [hshape] at heq
      cases heq
    | _ => simp [hshape, Json.get, Json.asObject] at hkey
  · next results _ _ _ =>
    refine listed_documentsResponse fun e he => ?_
    obtain ⟨r, hr, rfl⟩ := List.mem_map.1 he
    have hmem : r ∈ results := by
      have hpage := List.mem_of_mem_take (List.mem_of_mem_drop hr)
      cases hsort : params.sortSpecs with
      | none =>
        rw [hsort] at hpage
        exact hpage
      | some specs =>
        rw [hsort] at hpage
        exact (List.perm_insertionSort _ _).mem_iff.1 hpage
    obtain ⟨d, hd, rfl⟩ := hresults r hmem
    exact ⟨d, hd, params, rfl⟩

omit [Crates] [Lowercase] [FloatText] in
theorem parseGetParams_fields {now : UInt64} {payload : Json}
    (h : parseGetParams db now payload = .ok params) :
    params.colName = (namedCollection payload).getD "default" ∧
      params.joinsReq = (payload.field .joins).bind Json.asArray := by
  unfold parseGetParams at h
  dsimp only at h
  split_ifs at h
  cases h
  exact ⟨rfl, rfl⟩

theorem wp_runGeneralPath_listed (h : db.AllDocs Versioned) (params : GetParams) :
    wp (runGeneralPath params) (fun r _ => Listed db params.colName (params.joinsReq.getD []) r)
      (fun _ _ => True) db := by
  rw [runGeneralPath, wp_bind]
  have hdrew : wp (fetchDocuments params) (fun _ db' => ∃ n, db' = { db with tick := n })
      (fun _ db' => ∃ n, db' = { db with tick := n }) db := by
    refine (drew_fetchDocuments params).keeps (fun db₁ db₂ hd h₁ => ?_) ⟨db.tick, rfl⟩
    obtain ⟨n, rfl⟩ := hd
    obtain ⟨m, rfl⟩ := h₁
    exact ⟨n, rfl⟩
  refine wp_mono (wp_and (wp_fetchDocuments_fetched params db) hdrew) (fun raw db' h' => ?_)
    fun _ _ _ => trivial
  obtain ⟨hraw, n, rfl⟩ := h'
  rw [wp_bind, wp_get]
  cases hresults : filterAndJoinDocs { db with tick := n } params raw with
  | error r => exact listed_of_error fun hr => absurd (hr.symm.trans (filterAndJoinDocs_error hresults)) (by decide)
  | ok results =>
    cases results with
    | nil => exact listed_of_error (show 404 ≠ 200 by decide)
    | cons r results =>
      refine listed_shapeAndReturn h fun r' hr' => ?_
      obtain ⟨d, hd, heq⟩ := mem_filterAndJoinDocs hresults hr'
      exact ⟨d, (hraw d hd).1, heq⟩

theorem wp_processGet_listed (h : db.AllDocs Versioned) (payload : Json) :
    wp (processGet payload maxBodySize maxKeysPerRequest)
      (fun r _ => Listed db ((namedCollection payload).getD "default")
        (((payload.field .joins).bind Json.asArray).getD []) r) (fun _ _ => True) db := by
  rw [processGet]
  cases hvalid : validateGetRequest payload maxBodySize maxKeysPerRequest with
  | error r =>
    have hstatus := validateGetRequest_error hvalid
    exact listed_of_error fun hr => absurd (hr.symm.trans hstatus) (by decide)
  | ok u =>
    rw [wp_bind]
    refine wp_nowMs fun now n => ?_
    rw [wp_bind, wp_get]
    have htick : Db.AllDocs Versioned { db with tick := n } := ⟨h.bytes, h.log⟩
    cases hparse : parseGetParams { db with tick := n } now payload with
    | error r =>
      refine listed_of_error fun hr => ?_
      have hstatus : r.1 = 400 ∨ r.1 = 404 := by
        unfold parseGetParams at hparse
        dsimp only at hparse
        split_ifs at hparse
        · exact Or.inl (Except.error.inj hparse ▸ rfl)
        · exact Or.inr (Except.error.inj hparse ▸ rfl)
      omega
    | ok params =>
      obtain ⟨hcol, hjoins⟩ := parseGetParams_fields hparse
      have hgeneral := wp_runGeneralPath_listed htick params
      rw [hcol, hjoins] at hgeneral
      dsimp only
      cases hsort : params.sortSpecs with
      | none => exact hgeneral
      | some specs =>
        dsimp only
        split_ifs with hfast
        · -- there is nothing to join
          have hnone : ((payload.field .joins).bind Json.asArray).getD [] = [] := by
            rw [← hjoins]
            simp only [GetParams.hasJoins, Bool.and_eq_true] at hfast
            cases hreq : params.joinsReq with
            | none => rfl
            | some joins => simpa [hreq] using hfast.1.2
          rw [runFastSortPath, wp_bind]
          refine wp_mono (wp_fastSorted_stored params specs _) (fun top _ htop => ?_)
            fun _ _ h => h
          rw [hnone]
          refine listed_documentsResponse fun e he => ?_
          obtain ⟨d, hd, rfl⟩ := List.mem_map.1 he
          exact ⟨d, hcol ▸ htop d (List.mem_of_mem_drop hd), params, rfl⟩
        · exact hgeneral

end

end

/-! ## The claim -/

section

variable [Crates] [Lowercase] [FloatText] {maxBodySize maxKeysPerRequest : ℕ}

/-- **The key and the version in a response are the stored ones**, in a state that any requests
    have led to that set objects: each element has the key of a stored document, and its version
    exactly if no join with the alias `_v` finds a document for it. -/
theorem returned_versions_iff {db₀ : Db} {rs : List ClientRequest} (hdb : db₀.NoDocs)
    (hrun : Runs.Along (ClientRequest.next maxBodySize maxKeysPerRequest) ClientRequest.SetsObjects
      db₀ rs) {payload : Json} {elems : List Json} :
    let db := Runs.after (ClientRequest.next maxBodySize maxKeysPerRequest) db₀ rs
    let c := (namedCollection payload).getD "default"
    let joins := ((payload.field .joins).bind Json.asArray).getD []
    (processGet payload maxBodySize maxKeysPerRequest db).1 = .ok (200, .arr elems) →
      ∀ e ∈ elems, ∃ d, db.Stored c d ∧ e.get KEY = some (.str d.1) ∧
        (db.Genuine c e ↔ ¬ VersionJoined db d.2 (joins.filterMap joinOf)) := by
  intro db c joins hok e he
  have hall : db.AllDocs Versioned := hrun.keeps
    (fun _ _ h hr => ClientRequest.versioned_next h hr) (hdb.allDocs _)
  obtain ⟨d, hd, params, rfl⟩ := wp_of_ok (wp_processGet_listed hall payload)
    (Prod.ext hok rfl) elems rfl e he
  exact ⟨d, hd, shape_genuine_iff hall hd params joins⟩

end

/-! ## A join as the version -/

section

/-- A client sets two documents, the first of which refers to the second. -/
def setPair : List ClientRequest :=
  [.set (.obj [("collection", .str "c"),
    ("data", .obj [("a", .obj [("u", .str "b")]), ("b", .obj [])])])]

/-- A query that embeds the documents that others refer to. -/
def pairQuery (name : String) : Json :=
  .obj [("collection", .str "c"),
    ("joins", .arr [.obj [(name, .obj [("from", .str "c"), ("on", .str "u")])]])]

theorem setPair_objects :
    letI := Crates.plain
    letI := Lowercase.ascii
    letI := FloatText.plain
    Runs.Along (ClientRequest.next 1000 10) ClientRequest.SetsObjects
      (Db.blank (World.plain 1000 []) 0) setPair := by
  let _ := Crates.plain
  let _ := Lowercase.ascii
  let _ := FloatText.plain
  have hdocs : ∀ payload, ClientRequest.set (.obj [("collection", .str "c"),
      ("data", .obj [("a", .obj [("u", .str "b")]), ("b", .obj [])])]) = .set payload →
        ∀ doc ∈ setDocs payload, doc = .obj [("u", .str "b")] ∨ doc = .obj [] := by
    rintro payload hset doc hdoc
    obtain rfl := ClientRequest.set.inj hset
    have hall : setDocs (.obj [("collection", .str "c"),
        ("data", .obj [("a", .obj [("u", .str "b")]), ("b", .obj [])])]) =
          [.obj [("u", .str "b")], .obj []] := by decide
    rw [hall] at hdoc
    simpa using hdoc
  refine ⟨⟨fun doc hdoc => ?_, fun payload hset doc hdoc => ?_⟩, trivial⟩
  · rcases hdocs _ rfl doc hdoc with rfl | rfl
    all_goals
      refine ⟨by decide, fun fs hfs => ?_⟩
      rw [← Json.obj.inj hfs]
      decide
  · rcases hdocs payload hset doc hdoc with rfl | rfl
    · exact ⟨_, rfl, List.pairwise_singleton _ _⟩
    · exact ⟨_, rfl, List.Pairwise.nil⟩

theorem returned_versions_iff_peer :
    letI := Crates.plain
    letI := Lowercase.ascii
    letI := FloatText.plain
    let db := Runs.after (ClientRequest.next 1000 10) (Db.blank (World.plain 1000 []) 0) setPair
    ∃ elems, (processGet (pairQuery "peer") 1000 10 db).1 = .ok (200, .arr elems) ∧
      elems.length = 2 ∧ ∀ e ∈ elems, db.Genuine "c" e := by
  let _ := Crates.plain
  let _ := Lowercase.ascii
  let _ := FloatText.plain
  intro db
  have hempty : (Db.blank (World.plain 1000 []) 0).NoDocs :=
    ⟨fun c k => by simp [Db.blank, Db.bytes], by simp [Db.blank]⟩
  have hok : (processGet (pairQuery "peer") 1000 10 db).1 = .ok (200, .arr [
      .obj [("_key", .str "b"), ("_v", .ofU64 1)],
      .obj [("_key", .str "a"), ("_v", .ofU64 1), ("peer", .obj [("_createdAt", .ofU64 1006),
        ("_modifiedAt", .ofU64 1006), ("_seq", .ofU64 1), ("_v", .ofU64 1)]),
        ("u", .str "b")]]) := by
    decide +kernel
  refine ⟨_, hok, rfl, fun e he => ?_⟩
  obtain ⟨d, -, -, hiff⟩ := returned_versions_iff hempty setPair_objects hok e he
  refine hiff.2 fun hjoined => ?_
  rcases hjoined with ⟨hname, -⟩ | hrest
  · exact absurd hname (by decide)
  · exact hrest

/-- **A document that is embedded as `_v` hides the version.** -/
theorem pairQuery_hides_version :
    letI := Crates.plain
    letI := Lowercase.ascii
    letI := FloatText.plain
    let db := Runs.after (ClientRequest.next 1000 10) (Db.blank (World.plain 1000 []) 0) setPair
    Runs.Along (ClientRequest.next 1000 10) ClientRequest.SetsObjects
        (Db.blank (World.plain 1000 []) 0) setPair ∧
      ∃ elems, (processGet (pairQuery "_v") 1000 10 db).1 = .ok (200, .arr elems) ∧
        ∃ e ∈ elems, ¬ db.Genuine "c" e := by
  let _ := Crates.plain
  let _ := Lowercase.ascii
  let _ := FloatText.plain
  intro db
  have hok : (processGet (pairQuery "_v") 1000 10 db).1 = .ok (200, .arr [
      .obj [("_key", .str "b"), ("_v", .ofU64 1)],
      .obj [("_key", .str "a"), ("_v", .obj [("_createdAt", .ofU64 1006),
        ("_modifiedAt", .ofU64 1006), ("_seq", .ofU64 1), ("_v", .ofU64 1)]),
        ("u", .str "b")]]) := by
    decide +kernel
  refine ⟨setPair_objects, _, hok, _, List.mem_cons_of_mem _ (List.mem_singleton.2 rfl), ?_⟩
  rintro ⟨k, b, -, -, hversion⟩
  -- the version of the element is a document
  cases hversion

end

end MoltenDB
