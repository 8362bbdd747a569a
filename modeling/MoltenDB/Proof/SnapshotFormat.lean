/-
  The snapshot file holds the maps.

  The header of a snapshot announces an entry for each document and each schema.  All
  of them are written and read back, because every stored document decodes
  (`snapshot_roundTrip`).
-/
import MoltenDB.Proof.Crash
import MoltenDB.Proof.DocumentCodec

namespace MoltenDB

open Wire Prog Prog.Eff LogCommand

/-! ## Values that are read back as they are -/

namespace Json

/-- No field of an object has the public name of a system field. -/
def plainHere : Json → Bool
  | obj fs => fs.all fun p => p.1 ∉ publicNames
  | _ => true

/-- No object in the value has a field with the public name of a system field. -/
def PlainNames (v : Json) : Prop := v.every plainHere = true

instance (v : Json) : Decidable v.PlainNames := inferInstanceAs (Decidable (_ = true))

/-- A value without the public names of system fields is read back as it is. -/
theorem canon_of_plainNames {v : Json} (ho : v.Ordered) (h : v.PlainNames) : v.canon = v := by
  induction v with
  | null | bool | num | str => rfl
  | arr xs ih =>
    rw [Ordered, every_arr] at ho
    rw [PlainNames, every_arr] at h
    rw [canon_arr]
    congr 1
    exact (List.map_congr_left fun x hx => ih x hx (ho.2 x hx) (h.2 x hx)).trans (List.map_id xs)
  | obj fs ih =>
    rw [Ordered, every_obj] at ho
    rw [PlainNames, every_obj] at h
    have hfields : fs.map canonField = fs := by
      refine (List.map_congr_left fun p hp => ?_).trans (List.map_id fs)
      have hkey : p.1 ∉ publicNames := of_decide_eq_true (List.all_eq_true.1 h.1 p hp)
      rw [canonField, internalName_eq_renameKey, renameKey_of_not_public hkey,
        ih p hp (ho.2 p hp) (h.2 p hp)]
      rfl
    rw [canon_obj, hfields, Fields.insertAll_self (of_decide_eq_true ho.1)]

end Json

/-! ## Decoding makes no value longer -/

theorem length_writeMapHeader_mono {m n : ℕ} (h : m ≤ n) :
    (writeMapHeader m).length ≤ (writeMapHeader n).length := by
  unfold writeMapHeader
  split_ifs <;> simp <;> omega

theorem length_writeMapKey_internalName (key : String) :
    (writeMapKey (internalName key)).length = (writeMapKey key).length := by
  have htok := tokenOf_internalName key
  cases ht : tokenOf key with
  | some t => rw [writeMapKey, writeMapKey, htok, ht]
  | none => rw [internalName_of_none ht]

/-- **The decoded form of a value is not longer than the value.** -/
theorem length_writeValue_canon (v : Json) : (writeValue v.canon).length ≤ (writeValue v).length := by
  induction v with
  | null | bool | num | str => exact le_rfl
  | arr xs ih =>
    rw [Json.canon_arr, writeValue, writeValue, writeItems_eq, writeItems_eq, List.length_map,
      List.length_append, List.length_append, List.length_flatMap, List.length_flatMap,
      List.map_map]
    exact Nat.add_le_add_left (List.sum_le_sum fun x hx => ih x hx) _
  | obj fs ih =>
    have hlen := Fields.length_insertAll_le (fs.map Json.canonField) []
    have hsum := Fields.sum_insertAll_le (fun p => (writeField p).length) (fs.map Json.canonField) []
    have hfields : ((fs.map Json.canonField).map fun p => (writeField p).length).sum ≤
        (fs.map fun p => (writeField p).length).sum := by
      rw [List.map_map]
      refine List.sum_le_sum fun p hp => ?_
      have hval := ih p hp
      simp only [Function.comp, Json.canonField, writeField, List.length_append,
        length_writeMapKey_internalName]
      omega
    rw [List.length_map, List.length_nil, Nat.add_zero] at hlen
    rw [List.map_nil, List.sum_nil, Nat.add_zero] at hsum
    rw [Json.canon_obj, writeValue, writeValue, writeFields_eq, writeFields_eq, List.length_append,
      List.length_append, List.length_flatMap, List.length_flatMap]
    exact Nat.add_le_add (length_writeMapHeader_mono hlen) (hsum.trans hfields)

/-! ## What a snapshot holds -/

/-- The documents of all collections. -/
def State.docs (state : State) : List ((String × String) × Bytes) :=
  state.toList.flatMap fun p => p.2.toList.map fun q => ((p.1, q.1), q.2)

/-- The entries hold every document and every schema once, and nothing else. -/
structure HoldsAll (state : State) (schemas : DashMap Schema) (es : List LogEntry) : Prop where
  docs : ((es.filter fun e => e.cmd = IKEY_INSERT).map fun e =>
    ((e.collection, e.key), some e.value)).Perm (state.docs.map fun d => (d.1, msgpackToValue d.2))
  schemas : ((es.filter fun e => e.cmd = IKEY_SCHEMA).map fun e => (e.collection, e.value)).Perm
    (schemas.toList.map fun s => (s.1, s.2.value))
  only : ∀ e ∈ es, e.cmd = IKEY_INSERT ∨ e.cmd = IKEY_SCHEMA

/-- The stored documents were encoded, and the entries of documents and schemas are short. -/
structure Encoded (state : State) (schemas : DashMap Schema) : Prop where
  docs : ∀ c k b, state.bytes c k = some b →
    ∃ v : Json, b = valueToMsgpack v ∧ (LogEntry.mk IKEY_INSERT c k v 0).Short
  schemas : ∀ (c : String) (s : Schema), schemas[c]? = some s → (schemaEntry (c, s)).Short

/-- The entry of a document that was encoded: it is short, and it is read back as it is. -/
theorem Encoded.docEntry {state : State} {schemas : DashMap Schema} (h : Encoded state schemas)
    {c k : String} {b : Bytes} (hb : state.bytes c k = some b) :
    ∃ v, msgpackToValue b = some v ∧ v.canon = v ∧ (LogEntry.mk IKEY_INSERT c k v 0).Short := by
  obtain ⟨v, rfl, hshort⟩ := h.docs c k b hb
  refine ⟨v.canon, msgpackToValue_valueToMsgpack hshort.fits.value, Json.canon_canon v, ?_⟩
  have hlen := LogEntry.short_iff.1 hshort
  have hcanon := length_writeValue_canon v
  rw [LogEntry.short_iff]
  simp only [logEntryToMsgpack, List.length_append] at hlen ⊢
  omega

/-- The entries of the documents, read back, are those of the collections. -/
theorem docs_perm {cols : List (String × DashMap Bytes)} {es : List LogEntry}
    (h : DocEntries cols es)
    (hdec : ∀ (c : String) (col : DashMap Bytes) (k : String) (b : Bytes), (c, col) ∈ cols →
      col[k]? = some b → ∃ v, msgpackToValue b = some v ∧ v.canon = v) :
    ((es.map LogEntry.canon).map fun e => ((e.collection, e.key), some e.value)).Perm
      ((cols.flatMap fun p => p.2.toList.map fun q => ((p.1, q.1), q.2)).map fun d =>
        (d.1, msgpackToValue d.2)) := by
  induction h with
  | nil => exact .refl _
  | @cons c col cols es ks hks _ ih =>
    rw [List.map_append, List.map_append, List.flatMap_cons, List.map_append]
    refine List.Perm.append ?_ (ih fun c' col' k b hcol => hdec c' col' k b
      (List.mem_cons_of_mem _ hcol))
    have hone : ((((col.inOrder ks).filterMap (docEntry c)).map LogEntry.canon).map fun e =>
        ((e.collection, e.key), some e.value)) =
        (col.inOrder ks).map fun q => ((c, q.1), msgpackToValue q.2) := by
      rw [List.map_filterMap, List.map_filterMap, ← List.filterMap_eq_map]
      refine List.filterMap_congr fun q hq => ?_
      obtain ⟨v, hv, hcanon⟩ := hdec c col q.1 q.2 List.mem_cons_self (Map.mem_inOrder.1 hq).2
      simp [MoltenDB.docEntry, hv, LogEntry.canon, hcanon]
    rw [hone, List.map_map]
    exact (Map.inOrder_perm hks).map _

theorem cmd_of_docEntry {c : String} {q : String × Bytes} {e : LogEntry}
    (h : MoltenDB.docEntry c q = some e) : e.cmd = IKEY_INSERT := by
  obtain ⟨v, -, rfl⟩ := Option.map_eq_some_iff.1 h
  rfl

theorem canon_IKEY_INSERT : LogCommand.canon IKEY_INSERT = IKEY_INSERT := by decide

section

variable {state : State} {schemas : DashMap Schema}

theorem Encoded.short (h : Encoded state schemas) {es : List LogEntry}
    (hes : Enumerates state schemas es) : ∀ e ∈ es, e.Short := by
  intro e he
  rcases (mem_enumerates hes).1 he with ⟨c, k, b, hb, hdoc⟩ | ⟨c, s, hs, rfl⟩
  · obtain ⟨v, hv, -, hv'⟩ := h.docEntry hb
    simp only [MoltenDB.docEntry, hv, Option.map_some, Option.some.injEq] at hdoc
    exact hdoc ▸ hv'
  · exact h.schemas c s hs

/-- The entries of the documents, read back, are those of the database. -/
theorem Encoded.docs_perm (h : Encoded state schemas) {cs : List String} {docs : List LogEntry}
    (hcs : cs.Perm state.keys) (hdocs : DocEntries (state.inOrder cs) docs) :
    ((docs.map LogEntry.canon).map fun e => ((e.collection, e.key), some e.value)).Perm
      (state.docs.map fun d => (d.1, msgpackToValue d.2)) := by
  refine (MoltenDB.docs_perm hdocs fun c col k b hcol hk => ?_).trans
    (((Map.inOrder_perm hcs).flatMap_right _).map _)
  have hb : state.bytes c k = some b := by
    rw [State.bytes, (Map.mem_inOrder.1 hcol).2]
    exact hk
  obtain ⟨v, hv, hcanon, -⟩ := h.docEntry hb
  exact ⟨v, hv, hcanon⟩

/-- Every announced entry is written. -/
theorem Encoded.length_enumerates (h : Encoded state schemas) {es : List LogEntry}
    (hes : Enumerates state schemas es) : es.length = entryCount state schemas := by
  refine (MoltenDB.length_enumerates hes).antisymm ?_
  obtain ⟨cs, docs, ss, hcs, hdocs, hss, rfl⟩ := hes
  have hlen := (h.docs_perm hcs hdocs).length_eq
  rw [List.length_map, List.length_map, List.length_map, State.docs, List.length_flatMap] at hlen
  simp only [List.length_map, Std.ExtTreeMap.length_toList] at hlen
  rw [List.length_append, List.length_map, Map.length_inOrder hss, hlen, entryCount]

/-- The entries, read back, hold the maps. -/
theorem Encoded.holdsAll (h : Encoded state schemas)
    (hplain : ∀ (c : String) (s : Schema), schemas[c]? = some s →
      s.value.Ordered ∧ s.value.PlainNames) {es : List LogEntry}
    (hes : Enumerates state schemas es) : HoldsAll state schemas (es.map LogEntry.canon) := by
  obtain ⟨cs, docs, ss, hcs, hdocs, hss, rfl⟩ := hes
  have hdocsCmd : ∀ e ∈ docs.map LogEntry.canon, e.cmd = IKEY_INSERT := by
    intro e he
    obtain ⟨e', he', rfl⟩ := List.mem_map.1 he
    obtain ⟨c, col, k, b, -, -, hdoc⟩ := (mem_docEntries hdocs).1 he'
    rw [LogEntry.canon, cmd_of_docEntry hdoc]
    exact canon_IKEY_INSERT
  have hschemas : ((schemas.inOrder ss).map schemaEntry).map LogEntry.canon =
      (schemas.inOrder ss).map fun s => ⟨IKEY_SCHEMA, s.1, "", s.2.value, 0⟩ := by
    rw [List.map_map]
    refine List.map_congr_left fun s hs => ?_
    obtain ⟨hordered, hnames⟩ := hplain s.1 s.2 (Map.mem_inOrder.1 hs).2
    rw [Function.comp, schemaEntry, LogEntry.canon, Json.canon_of_plainNames hordered hnames]
    rfl
  have hschemasCmd : ∀ e ∈ (schemas.inOrder ss).map fun s =>
      LogEntry.mk IKEY_SCHEMA s.1 "" s.2.value 0, e.cmd = IKEY_SCHEMA := by
    intro e he
    obtain ⟨s, -, rfl⟩ := List.mem_map.1 he
    rfl
  have hne : IKEY_SCHEMA ≠ IKEY_INSERT := by decide
  rw [List.map_append, hschemas]
  constructor
  · rw [List.filter_append, List.filter_eq_self.2 fun e he => decide_eq_true (hdocsCmd e he),
      List.filter_eq_nil_iff.2 fun e he => by simp [hschemasCmd e he, hne], List.append_nil]
    exact h.docs_perm hcs hdocs
  · rw [List.filter_append, List.filter_eq_nil_iff.2 fun e he => by simp [hdocsCmd e he, hne.symm],
      List.nil_append, List.filter_eq_self.2 fun e he => decide_eq_true (hschemasCmd e he),
      List.map_map]
    exact (Map.inOrder_perm hss).map _
  · intro e he
    rcases List.mem_append.1 he with he | he
    · exact Or.inl (hdocsCmd e he)
    · exact Or.inr (hschemasCmd e he)

end

variable [Crates]

/-- **A snapshot is read back whole**: the number given at writing time, one `INSERT` for each
    document and one `SCHEMA` for each schema, with their values unchanged. -/
theorem snapshot_roundTrip {state : State} {schemas : DashMap Schema} (h : Encoded state schemas)
    (hplain : ∀ (c : String) (s : Schema), schemas[c]? = some s →
      s.value.Ordered ∧ s.value.PlainNames)
    (hcount : entryCount state schemas < 2 ^ 64) (seq : UInt64) (d : Disk) (w : World)
    (tick : ℕ) :
    wp (writeSnapshotFromMaps state schemas seq.toNat)
      (fun _ fs' => ∃ es, loadSnapshot fs'.disk.snapshot = (es, some seq.toNat) ∧
        HoldsAll state schemas es)
      (fun _ _ => ¬ w.Calm) ⟨d, w, tick, []⟩ := by
  have hquiet : Fs.Quiet w d ⟨d, w, tick, []⟩ := ⟨rfl, rfl, rfl, by simp⟩
  refine wp_mono (hquiet.wp_writeSnapshotFromMaps state schemas seq.toNat) (fun _ fs' h' => ?_)
    (fun _ _ h => h.2)
  obtain ⟨es, hes, hinst⟩ := h'
  have hlength := h.length_enumerates hes
  have hload : loadSnapshot fs'.disk.snapshot = (es.map LogEntry.canon, some seq.toNat) := by
    rw [hinst.snapshot, loadSnapshot_snapshotFile (h.short hes) seq.toNat_lt hcount,
      if_pos hlength.ge, ← hlength, List.take_length]
  exact ⟨_, hload, h.holdsAll hplain hes⟩

/-- One document and one schema, of different collections. -/
def smallState : State := (∅ : State).insert "c" ((∅ : DashMap Bytes).insert "a"
  (valueToMsgpack (.obj [("_v", .num (.posInt 1)), ("x", .str "y")])))

def smallSchemas : DashMap Schema := (∅ : DashMap Schema).insert "s"
  ⟨.obj [("type", .str "object")], fun _ => true⟩

omit [Crates] in
theorem smallState_encoded : Encoded smallState smallSchemas := by
  constructor
  · intro c k b hb
    obtain ⟨col, hcol, hk⟩ := Option.bind_eq_some_iff.1 hb
    rw [smallState, Map.get?_insert] at hcol
    split_ifs at hcol with hc
    · obtain rfl := Option.some.inj hcol
      rw [Map.get?_insert] at hk
      split_ifs at hk with ha
      · subst hc ha
        exact ⟨_, (Option.some.inj hk).symm, by decide +kernel⟩
      · simp at hk
    · simp at hcol
  · intro c s hs
    rw [smallSchemas, Map.get?_insert] at hs
    split_ifs at hs with hc
    · obtain rfl := Option.some.inj hs
      subst hc
      decide +kernel
    · simp at hs

omit [Crates] in
theorem snapshot_roundTrip_small :
    wp (@writeSnapshotFromMaps Crates.plain smallState smallSchemas (UInt64.toNat 7))
      (fun _ fs' => ∃ es, @loadSnapshot Crates.plain fs'.disk.snapshot =
        (es, some (UInt64.toNat 7)) ∧ HoldsAll smallState smallSchemas es)
      (fun _ _ => ¬ (World.plain 0 []).Calm) ⟨⟨none, none, none, none⟩, World.plain 0 [], 0, []⟩ := by
  refine @snapshot_roundTrip Crates.plain smallState smallSchemas smallState_encoded ?_
    (by decide +kernel) 7 _ _ 0
  intro c s hs
  rw [smallSchemas, Map.get?_insert] at hs
  split_ifs at hs with hc
  · obtain rfl := Option.some.inj hs
    decide +kernel
  · simp at hs

end MoltenDB
