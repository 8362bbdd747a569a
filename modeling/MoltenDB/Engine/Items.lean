/-
  What storing one item of a batch does (`wp_insertItem`).

  The value is stamped on top of the document it replaces, if there is one that decodes, and
  checked; a value that is no object and replaces none is stored as it is (`Prepares`).
-/
import MoltenDB.Common.SystemViews
import MoltenDB.Engine.Steps

namespace MoltenDB

open Wire Prog Prog.Eff SystemFields LogCommand Operations

/-- A value with the system fields that stamping sets. -/
def stampWith (value : Json) (ver created now seq : UInt64) : Json :=
  (((value.set IKEY_VERSION (.ofU64 ver)).set IKEY_CREATED_AT (.ofU64 created)).set
    IKEY_MODIFIED_AT (.ofU64 now)).set IKEY_SEQ (.ofU64 seq)

theorem fits_stampWith {v : Json} (h : v.Fits) (hlen : ∀ fs, v = .obj fs → fs.length + 4 < 2 ^ 32)
    (ver created now seq : UInt64) : (stampWith v ver created now seq).Fits := by
  have hver := Json.length_set (n := 3) hlen IKEY_VERSION (.ofU64 ver)
  have hcreated := Json.length_set (n := 2) hver IKEY_CREATED_AT (.ofU64 created)
  have hnow := Json.length_set (n := 1) hcreated IKEY_MODIFIED_AT (.ofU64 now)
  refine Json.fits_set (Json.fits_set (Json.fits_set (Json.fits_set h ?_ rfl ver) ?_ rfl created)
    ?_ rfl now) hnow rfl seq
  · exact fun fs hfs => (Nat.add_le_add_left (by omega) _).trans_lt (hlen fs hfs)
  · exact fun fs hfs => (Nat.add_le_add_left (by omega) _).trans_lt (hver fs hfs)
  · exact fun fs hfs => (Nat.add_le_add_left (by omega) _).trans_lt (hcreated fs hfs)

/-- What an item is stored as: its stamped value, or the value itself. -/
inductive Prepares (db : Db) (c : String) (item : String × Json) (now seq : UInt64) : Json → Prop
  | overwrite (old : Json) (h : (db.bytes c item.1).bind msgpackToValue = some old) :
    Prepares db c item now seq (stampOverwrite old item.2 now seq)
  | new (h : (db.bytes c item.1).bind msgpackToValue = none) (hobj : item.2.isObject = true) :
    Prepares db c item now seq (stampNew item.2 now seq)
  | other (h : (db.bytes c item.1).bind msgpackToValue = none) (hobj : item.2.isObject = false) :
    Prepares db c item now seq item.2

/-- An object is stored with its stamps. -/
theorem Prepares.stamped {db : Db} {c : String} {item : String × Json} {now seq : UInt64}
    {value : Json} (h : Prepares db c item now seq value) (hobj : item.2.isObject = true) :
    ∃ ver created seq', value = stampWith item.2 ver created now seq' := by
  cases h with
  | overwrite old => exact ⟨_, _, _, rfl⟩
  | new => exact ⟨_, _, _, rfl⟩
  | other _ hother =>
    rw [hobj] at hother
    cases hother

/-- The item drew the next sequence number, and its value was stored and perhaps logged. -/
structure Db.ItemStored (c : String) (item : String × Json) (value : Json) (db db' : Db) :
    Prop where
  state : db'.state =
    db.state.alter c fun col => some ((col.getD ∅).insert item.1 (valueToMsgpack value))
  seqCounters : db'.seqCounters = db.seqCounters.insert c (db.seqCounters[c]?.getD 0 + 1)
  seqIndex : db'.seqIndex = db.seqIndex.alter c fun idx => some ((idx.getD ∅).insert
    ((fieldU64 value IKEY_SEQ).getD (db.seqCounters[c]?.getD 0)) item.1)
  schemas : db'.schemas = db.schemas
  maxSizes : db'.maxSizes = db.maxSizes
  ttlDefaults : db'.ttlDefaults = db.ttlDefaults
  ttlExpiry : db'.ttlExpiry = db.ttlExpiry
  log : db'.log = db.log ∨ ∃ t, db'.log = db.log ++ [⟨IKEY_INSERT, c, item.1, value, t⟩]

/-- The item drew the next sequence number, and its value was rejected. -/
structure Db.ItemRejected (c : String) (db db' : Db) : Prop where
  state : db'.state = db.state
  seqCounters : db'.seqCounters = db.seqCounters.insert c (db.seqCounters[c]?.getD 0 + 1)
  seqIndex : db'.seqIndex = db.seqIndex
  log : db'.log = db.log

/-- **An item is stored, or rejected.** -/
theorem wp_insertItem (c : String) (item : String × Json) (db : Db) :
    wp (insertItem c item)
      (fun _ db' => ∃ now value, Prepares db c item now (db.seqCounters[c]?.getD 0) value ∧
        db.ItemStored c item value db')
      (fun _ db' => db.ItemRejected c db' ∨
        ∃ now value, Prepares db c item now (db.seqCounters[c]?.getD 0) value ∧
          db.ItemStored c item value db') db := by
  simp only [insertItem, nextSeq, wp_bind, wp_get, wp_modify, wp_pure]
  refine wp_nowMs fun now n => ?_
  generalize hdb₁ : Db.mk _ _ _ _ _ _ _ _ _ _ _ _ _ = db₁
  have hprep : wp (prepare c ((db₁.bytes c item.1).bind msgpackToValue) item.2 now
      (db.seqCounters[c]?.getD 0))
      (fun value db₂ => db₂ = db₁ ∧ Prepares db c item now (db.seqCounters[c]?.getD 0) value)
      (fun _ db₂ => db₂ = db₁) db₁ := by
    have hbytes : db₁.bytes c item.1 = db.bytes c item.1 := by
      subst hdb₁
      rfl
    rw [hbytes]
    exact wp_prepare (fun old h => ⟨rfl, .overwrite old h⟩) (fun h hobj => ⟨rfl, .new h hobj⟩)
      (fun h hobj => ⟨rfl, .other h hobj⟩) rfl
  refine wp_mono hprep (fun value db₂ h₂ => ?_) fun _ db₂ h₂ => Or.inl ?_
  · obtain ⟨rfl, hvalue⟩ := h₂
    simp only [storeDoc, indexInsert, wp_modify, wp_send]
    refine wp_writeNew (fun t m => ⟨now, value, hvalue, ?_⟩) fun _ m =>
      Or.inr ⟨now, value, hvalue, ?_⟩
    · subst hdb₁
      exact ⟨rfl, rfl, rfl, rfl, rfl, rfl, rfl, Or.inr ⟨t, rfl⟩⟩
    · subst hdb₁
      exact ⟨rfl, rfl, rfl, rfl, rfl, rfl, rfl, Or.inl rfl⟩
  · subst h₂
    subst hdb₁
    exact ⟨rfl, rfl, rfl, rfl⟩

end MoltenDB
