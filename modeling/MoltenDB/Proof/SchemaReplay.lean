/-
  Replaying a schema.

  A schema is written like a document, so it is read back with the internal names of
  system fields.  The registered schema comes back exactly if it has none of their public
  names, at any depth (`schema_replayed_iff`).
-/
import MoltenDB.Proof.SnapshotFormat
import MoltenDB.Common.Aliases
import MoltenDB.Engine.Steps
import MoltenDB.Engine.Db

namespace MoltenDB

open Wire Prog Prog.Eff LogCommand

/-- Only a value without the public names of system fields is read back as it is. -/
theorem Json.plainNames_of_canon {v : Json} (h : v.canon = v) : v.PlainNames := by
  induction v with
  | null | bool | num | str => rfl
  | arr xs ih =>
    rw [canon_arr, arr.injEq] at h
    rw [PlainNames, every_arr]
    refine ⟨rfl, fun x hx => ih x hx ?_⟩
    obtain ⟨i, hi, rfl⟩ := List.mem_iff_getElem.1 hx
    rw [← List.getElem_map canon (h := by simpa using hi)]
    exact List.getElem_of_eq h _
  | obj fs ih =>
    rw [canon_obj, obj.injEq] at h
    -- every field comes from a decoded one
    have hfields : ∀ p ∈ fs, p.1 ∉ publicNames ∧ p.2.canon = p.2 := by
      intro p hp
      rw [← h] at hp
      obtain ⟨q, -, rfl⟩ := Json.exists_internalName hp
      exact ⟨Json.internalName_not_public q.1, canon_canon q.2⟩
    rw [PlainNames, every_obj]
    refine ⟨?_, fun p hp => ih p hp (hfields p hp).2⟩
    rw [plainHere, List.all_eq_true]
    exact fun p hp => decide_eq_true (hfields p hp).1

theorem fits_schemaEntry {c : String} {v : Json} {t : UInt64} :
    (LogEntry.mk SCHEMA c "" v t).Fits ↔ (utf8 c).length < 2 ^ 32 ∧ v.Fits := by
  have hcmd : (utf8 SCHEMA).length < 2 ^ 32 := by decide
  have hkey : (utf8 "").length < 2 ^ 32 := by decide
  exact ⟨fun h => ⟨h.collection, h.value⟩, fun h => ⟨hcmd, h.1, hkey, h.2⟩⟩

variable [Crates]

/-- The bytes decode to an entry that registers the schema `x` for the collection `c`, at
    whatever time and over whatever state it is applied. -/
def Restores (bytes : Bytes) (c : String) (x : Schema) : Prop :=
  ∃ e, logEntryFromMsgpack bytes = some e ∧ ∀ now s, (applyEntry now s e).schemas[c]? = some x

/-- An entry of a schema as it is read back registers the decoded value. -/
theorem schemas_applyEntry {c : String} {v : Json} {t : UInt64} (now : UInt64) (s : Recovered) :
    (applyEntry now s (LogEntry.mk SCHEMA c "" v t).canon).schemas[c]? =
      ((Crates.validatorFor v.canon).toOption.map fun isValid => ⟨v.canon, isValid⟩).or
        s.schemas[c]? := by
  have hcmd : (LogEntry.mk SCHEMA c "" v t).canon = ⟨IKEY_SCHEMA, c, "", v.canon, t⟩ := rfl
  have h₁ : IKEY_SCHEMA ≠ IKEY_INSERT := by decide
  have h₂ : IKEY_SCHEMA ≠ IKEY_DELETE := by decide
  have h₃ : IKEY_SCHEMA ≠ IKEY_DROP := by decide
  have h₄ : IKEY_SCHEMA ≠ "TTL_EXPIRY" := by decide
  rw [hcmd, applyEntry, if_neg h₁, if_neg h₂, if_neg h₃, if_neg h₄, if_pos rfl]
  dsimp only
  cases Crates.validatorFor v.canon with
  | error err => rfl
  | ok isValid => simp [Except.toOption]

/-- Over an empty state, a registered schema can only come from the entry. -/
theorem registers_of_applyEntry {e : LogEntry} {now : UInt64} {c : String} {x : Schema}
    (h : (applyEntry now .empty e).schemas[c]? = some x) :
    e.collection = c ∧ e.value = x.value := by
  have hnone : Recovered.empty.schemas[c]? = none := Map.get?_empty c
  unfold applyEntry at h
  split_ifs at h
  · simp [hnone] at h
  · simp [hnone] at h
  · simp [hnone] at h
  · cases hp : parseU64 e.key with
    | none => simp [hp, hnone] at h
    | some expiresAt =>
      simp only [hp] at h
      split_ifs at h <;> simp [hnone] at h
  · cases hval : Crates.validatorFor e.value with
    | error err => simp [hval, hnone] at h
    | ok isValid =>
      simp only [hval, Map.get?_insert] at h
      split_ifs at h with hc
      · obtain rfl := Option.some.inj h
        exact ⟨hc.symm, rfl⟩
      · simp [hnone] at h
  · simp [hnone] at h

/-- **The entry of a schema restores it** exactly if its lengths can be written and it has no
    public name of a system field. -/
theorem restores_iff {c : String} {schema : Json} {isValid : Json → Bool} {t : UInt64}
    (ho : schema.Ordered) (hv : Crates.validatorFor schema = .ok isValid) :
    Restores (logEntryToMsgpack ⟨SCHEMA, c, "", schema, t⟩) c ⟨schema, isValid⟩ ↔
      (utf8 c).length < 2 ^ 32 ∧ schema.Fits ∧ schema.PlainNames := by
  constructor
  · rintro ⟨e, he, happ⟩
    obtain ⟨hfits, hcol⟩ := logEntryFromMsgpack_fits he
    obtain ⟨rfl, rfl⟩ := registers_of_applyEntry (happ 0 .empty)
    rw [logEntryFromMsgpack_logEntryToMsgpack (fits_schemaEntry.2 ⟨hcol, hfits⟩)] at he
    exact ⟨hcol, hfits, Json.plainNames_of_canon (congrArg LogEntry.value (Option.some.inj he))⟩
  · rintro ⟨hcol, hfits, hnames⟩
    refine ⟨_, logEntryFromMsgpack_logEntryToMsgpack (fits_schemaEntry.2 ⟨hcol, hfits⟩),
      fun now s => ?_⟩
    rw [schemas_applyEntry, Json.canon_of_plainNames ho hnames, hv]
    rfl

/-- What a successful `setSchema` registers and logs. -/
theorem wp_setSchema_logged (c : String) (schema : Json) (db : Db) :
    wp (Db.setSchema c schema)
      (fun _ db' => ∃ isValid begin t commit, Crates.validatorFor schema = .ok isValid ∧
        db'.schemas[c]? = some ⟨schema, isValid⟩ ∧
        db'.log = db.log ++ [begin, ⟨SCHEMA, c, "", schema, t⟩, commit])
      (fun _ _ => True) db := by
  unfold Db.setSchema Operations.setSchema
  cases Crates.validatorFor schema with
  | error err => exact trivial
  | ok isValid =>
    simp only [wp_bind, wp_modify, wp_send]
    refine wp_newUuid fun id n => ?_
    refine wp_writeNew (fun t₁ n₁ => ?_) fun _ _ => trivial
    refine wp_writeNew (fun t₂ n₂ => ?_) fun _ _ => trivial
    refine wp_writeNew (fun t₃ n₃ => ?_) fun _ _ => trivial
    refine ⟨isValid, ⟨IKEY_TX_BEGIN, c, id, .null, t₁⟩, t₂, ⟨IKEY_TX_COMMIT, c, id, .null, t₃⟩,
      rfl, ?_, ?_⟩
    · simp
    · simp

/-- **A schema survives replay** exactly if it has no public name of a system field.  The
    schema that `setSchema` registers is restored from the entry it logs, and from the entry
    a snapshot has for it, under one condition. -/
theorem schema_replayed_iff {c : String} {schema : Json} {db db' : Db} (ho : schema.Ordered)
    (h : Db.setSchema c schema db = (.ok (), db')) :
    ∃ x begin e commit, db'.schemas[c]? = some x ∧ x.value = schema ∧
      db'.log = db.log ++ [begin, e, commit] ∧
      (Restores (logEntryToMsgpack e) c x ↔
        (utf8 c).length < 2 ^ 32 ∧ schema.Fits ∧ schema.PlainNames) ∧
      (Restores (logEntryToMsgpack (schemaEntry (c, x))) c x ↔
        (utf8 c).length < 2 ^ 32 ∧ schema.Fits ∧ schema.PlainNames) := by
  obtain ⟨isValid, begin, t, commit, hv, hreg, hlog⟩ := wp_of_ok (wp_setSchema_logged c schema db) h
  exact ⟨_, begin, _, commit, hreg, rfl, hlog, restores_iff ho hv, restores_iff ho hv⟩

/-- A schema that restricts the field `_v`. -/
def versionSchema : Json :=
  .obj [("properties", .obj [("_v", .obj [("type", .str "integer")])])]

/-- A schema that names a client's field only. -/
def nameSchema : Json :=
  .obj [("properties", .obj [("name", .obj [("type", .str "string")])])]

omit [Crates] in
theorem setSchema_plain (schema : Json) :
    letI := Crates.plain
    let run := Db.setSchema "c" schema (Db.blank (World.plain 0 []) 0)
    run = (.ok (), run.2) := rfl

omit [Crates] in
/-- The schema of a property `_v` is restored from neither entry. -/
theorem versionSchema_not_replayed :
    letI := Crates.plain
    let run := Db.setSchema "c" versionSchema (Db.blank (World.plain 0 []) 0)
    versionSchema.Ordered ∧ run.1 = .ok () ∧
      ∃ x e, run.2.schemas["c"]? = some x ∧ e ∈ run.2.log ∧ e.cmd = SCHEMA ∧
        ¬ Restores (logEntryToMsgpack e) "c" x ∧
        ¬ Restores (logEntryToMsgpack (schemaEntry ("c", x))) "c" x := by
  let _ := Crates.plain
  have ho : versionSchema.Ordered := by decide
  have hnames : ¬ versionSchema.PlainNames := by decide
  have hrun := setSchema_plain versionSchema
  refine ⟨ho, congrArg Prod.fst hrun, ?_⟩
  obtain ⟨isValid, begin, t, commit, hv, hreg, hlog⟩ := wp_of_ok (wp_setSchema_logged "c"
    versionSchema (Db.blank (World.plain 0 []) 0)) hrun
  refine ⟨_, ⟨SCHEMA, "c", "", versionSchema, t⟩, hreg, ?_, rfl, ?_, ?_⟩
  · have hmem : LogEntry.mk SCHEMA "c" "" versionSchema t ∈
        (Db.blank (World.plain 0 []) 0).log ++
          [begin, ⟨SCHEMA, "c", "", versionSchema, t⟩, commit] := by simp
    exact hlog ▸ hmem
  · rw [restores_iff ho hv]
    exact fun h => hnames h.2.2
  · rw [schemaEntry, restores_iff ho hv]
    exact fun h => hnames h.2.2

omit [Crates] in
/-- The schema of a client's field is restored from both entries. -/
theorem nameSchema_replayed :
    letI := Crates.plain
    let run := Db.setSchema "c" nameSchema (Db.blank (World.plain 0 []) 0)
    ∃ x begin e commit, run.2.schemas["c"]? = some x ∧ x.value = nameSchema ∧
      run.2.log = [begin, e, commit] ∧ Restores (logEntryToMsgpack e) "c" x ∧
      Restores (logEntryToMsgpack (schemaEntry ("c", x))) "c" x := by
  let _ := Crates.plain
  have ho : nameSchema.Ordered := by decide
  have hcond : (utf8 "c").length < 2 ^ 32 ∧ nameSchema.Fits ∧ nameSchema.PlainNames := by decide
  obtain ⟨x, begin, e, commit, hreg, hval, hlog, hentry, hsnap⟩ :=
    schema_replayed_iff ho (setSchema_plain nameSchema)
  exact ⟨x, begin, e, commit, hreg, hval, hlog, hentry.2 hcond, hsnap.2 hcond⟩

end MoltenDB
