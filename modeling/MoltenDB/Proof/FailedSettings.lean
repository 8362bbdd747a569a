/-
  What a failed set or schema request leaves of the settings.

  The parts of a request are applied one after the other: a schema, a TTL, a maximal size, and
  the documents of a set.  Nothing is rolled back, so a request that fails after a part has
  changed something leaves it changed (`settings_kept_iff`).
-/
import MoltenDB.Engine.Clock
import MoltenDB.Engine.Settings
import MoltenDB.Handlers.Rules
import MoltenDB.Proof.FailedInsert

namespace MoltenDB

open Wire Prog Prog.Eff Operations LogCommand

/-! ## Batches that are refused -/

/-- What the storing of a batch in a collection depends on, besides its schema and the world. -/
structure Batch where
  documents : String → Option Bytes
  seq : UInt64
  tick : ℕ

namespace Batch

variable (accepts : Json → Bool) (world : World) (b : Batch) (item : String × Json)

/-- The document that the item is stored over. -/
def existing : Option Json := (b.documents item.1).bind msgpackToValue

def value : Json := stamped (b.existing item) item.2 (world.clock b.tick) b.seq

/-- The schema rejects the item; a value that is no object is not checked if it is new. -/
def rejected : Bool :=
  ((b.existing item).isSome || item.2.isObject) && !accepts (b.value world item)

/-- The item is stored and logged. -/
def next : Batch where
  documents k := if k = item.1 then some (valueToMsgpack (b.value world item)) else b.documents k
  seq := b.seq + 1
  tick := b.tick + 3

/-- An item is rejected, or the storage refuses its entry or the `TX_COMMIT` after the last one. -/
def refuses : Batch → List (String × Json) → Bool
  | b, [] => (world.fault (b.tick + 1)).isSome
  | b, item :: items =>
    b.rejected accepts world item || (world.fault (b.tick + 2)).isSome ||
      refuses (b.next world item) items

end Batch

namespace Db

def batch (db : Db) (c : String) : Batch where
  documents := db.bytes c
  seq := db.seqCounters[c]?.getD 0
  tick := db.tick

/-- A batch is refused, at its `TX_BEGIN` or later. -/
def refuses (db : Db) (c : String) (items : List (String × Json)) : Bool :=
  (db.storageAnswer 0).isSome ||
    Batch.refuses (db.accepts c) db.world { db.batch c with tick := db.tick + 3 } items

/-- What the rest of a batch depends on is `b`, and is otherwise as in `db`. -/
structure Batching (db : Db) (c : String) (b : Batch) (db' : Db) : Prop where
  batch : db'.batch c = b
  accepts : db'.accepts c = db.accepts c
  world : db'.world = db.world

end Db

section

variable {c : String}

/-- **One item** is stored, or refused. -/
theorem wp_insertItem_refuses {db : Db} {b : Batch} {db₁ : Db} (h : db.Batching c b db₁)
    (item : String × Json) :
    wp (insertItem c item)
      (fun _ db' => b.rejected (db.accepts c) db.world item = false ∧
        db.world.fault (b.tick + 2) = none ∧ db.Batching c (b.next db.world item) db')
      (fun _ _ => (b.rejected (db.accepts c) db.world item ||
        (db.world.fault (b.tick + 2)).isSome) = true) db₁ := by
  obtain ⟨rfl, haccepts, hworld⟩ := h
  simp only [insertItem, nextSeq, wp_bind, wp_get, wp_modify, wp_pure, storeDoc, indexInsert,
    wp_send]
  change wp (prepare c _ _ (db₁.world.clock db₁.tick) _) _ _ _
  have hvalue : stamped ((db₁.bytes c item.1).bind msgpackToValue) item.2
      (db₁.world.clock db₁.tick) (db₁.seqCounters[c]?.getD 0) =
        (db₁.batch c).value db.world item := by
    rw [hworld]
    rfl
  have haccepts' : ∀ db₂ : Db, db₂.schemas = db₁.schemas → db₂.accepts c = db.accepts c := by
    intro db₂ h
    rw [← haccepts]
    funext doc
    rw [Db.accepts, Db.accepts, h]
  have hnext : ∀ (db₂ : Db) (v : Json), v = (db₁.batch c).value db.world item →
      db₂.state = (db₁.state.alter c fun col =>
        some ((col.getD ∅).insert item.1 (valueToMsgpack v))) →
      db₂.seqCounters = db₁.seqCounters.insert c (db₁.seqCounters[c]?.getD 0 + 1) →
      db₂.tick = db₁.tick + 3 → db₂.batch c = (db₁.batch c).next db.world item := by
    rintro db₂ v rfl hstate hseq htick
    rw [Db.batch, Batch.next, hseq, htick]
    congr 1
    · funext k
      refine (congrArg (fun s => State.bytes s c k) hstate).trans ?_
      rw [bytes_put]
      simp only [true_and]
      rfl
    · rw [Map.get?_insert, if_pos rfl]
      rfl
  refine wp_prepare_checked (fun hok => ?_) fun hrej _ => ?_
  · refine wp_writeNew_fault (fun hfault t => ?_) fun e hfault => ?_
    · refine ⟨?_, ?_, hnext _ _ hvalue rfl rfl rfl, haccepts' _ rfl, hworld⟩
      · rw [Batch.rejected, ← hvalue, ← haccepts' _ rfl]
        exact hok
      · rw [← hworld]
        exact hfault
    · rw [show db.world.fault ((db₁.batch c).tick + 2) = some e by rw [← hworld]; exact hfault,
        Option.isSome_some, Bool.or_true]
  · rw [Batch.rejected, ← hvalue, ← haccepts' _ rfl]
    exact Bool.or_eq_true_iff.2 (.inl hrej)

/-- **The items of a batch** and its `TX_COMMIT` are stored and logged, or refused. -/
theorem wp_insertItems_refuses {db : Db} {b : Batch} {db₁ : Db} (h : db.Batching c b db₁)
    (items : List (String × Json)) (id : String) :
    wp (do forEach (insertItem c) items; writeNew IKEY_TX_COMMIT c id .null)
      (fun _ _ => Batch.refuses (db.accepts c) db.world b items = false)
      (fun _ _ => Batch.refuses (db.accepts c) db.world b items = true) db₁ := by
  rw [wp_bind]
  induction items generalizing b db₁ with
  | nil =>
    obtain ⟨rfl, -, hworld⟩ := h
    refine wp_writeNew_fault (fun hfault _ => ?_) fun e hfault => ?_
    · rw [hworld] at hfault
      rw [Batch.refuses, Option.isSome_eq_false_iff, Option.isNone_iff_eq_none]
      exact hfault
    · rw [hworld] at hfault
      rw [Batch.refuses, Option.isSome_iff_exists]
      exact ⟨e, hfault⟩
  | cons item items ih =>
    rw [forEach, wp_bind]
    refine wp_mono (wp_insertItem_refuses h item) (fun _ db₂ h₂ => ?_) fun _ _ h₂ => ?_
    · obtain ⟨hrej, hfault, h₂⟩ := h₂
      have hcons : Batch.refuses (db.accepts c) db.world b (item :: items) =
          Batch.refuses (db.accepts c) db.world (b.next db.world item) items := by
        rw [Batch.refuses, hrej, hfault, Option.isSome_none, Bool.false_or, Bool.false_or]
      rw [hcons]
      exact ih h₂
    · rw [Batch.refuses, h₂, Bool.true_or]

/-- **A batch** is stored, or refused. -/
theorem wp_insert_refuses (items : List (String × Json)) (db : Db) :
    wp (Operations.insert c items) (fun _ _ => db.refuses c items = false)
      (fun _ _ => db.refuses c items = true) db := by
  simp only [Operations.insert, wp_bind, wp_modify]
  change wp (writeNew IKEY_TX_BEGIN c _ .null) _ _ { db with
    state := db.state.alter c fun col => some (col.getD ∅), tick := db.tick + 1 }
  refine wp_writeNew_fault (fun hfault t => ?_) fun e hfault => ?_
  · have hnone : (db.storageAnswer 0).isSome = false := by
      rw [Option.isSome_eq_false_iff, Option.isNone_iff_eq_none]
      exact hfault
    have hbatch : db.Batching c { db.batch c with tick := db.tick + 3 } { db with
        state := db.state.alter c fun col => some (col.getD ∅),
        log := db.log ++ [⟨IKEY_TX_BEGIN, c, db.world.uuid db.tick, .null, t⟩],
        tick := db.tick + 1 + 2 } := by
      refine ⟨?_, rfl, rfl⟩
      rw [Db.batch, Db.batch]
      congr 1
      exact funext fun k => bytes_touch db.state c c k
    rw [Db.refuses, hnone, Bool.false_or, ← wp_bind]
    exact wp_insertItems_refuses hbatch items (db.world.uuid db.tick)
  · have hsome : (db.storageAnswer 0).isSome = true := Option.isSome_iff_exists.2 ⟨e, hfault⟩
    rw [Db.refuses, hsome, Bool.true_or]

end

/-! ## The settings of a database -/

/-- The settings of all collections, the expiries that follow from them, and the schemas. -/
@[ext] structure Settings where
  ttlDefaults : DashMap UInt64
  ttlExpiry : DashMap UInt64
  maxSizes : DashMap ℕ
  schemas : DashMap Schema

namespace Settings

variable (s : Settings) (c : String)

/-- A schema is registered, if there is one. -/
def withSchema (schema : Option Schema) : Settings :=
  { s with schemas := schema.elim s.schemas (s.schemas.insert c) }

/-- A TTL is registered, if there is one; `0` removes the expiry too. -/
def withTtl (ttl : Option UInt64) : Settings :=
  { s with
    ttlDefaults := ttl.elim s.ttlDefaults fun secs =>
      if secs = 0 then s.ttlDefaults.erase c else s.ttlDefaults.insert c secs
    ttlExpiry := ttl.elim s.ttlExpiry fun secs =>
      if secs = 0 then s.ttlExpiry.erase c else s.ttlExpiry }

/-- A maximal size is registered, if there is one. -/
def withMaxSize (max : Option ℕ) : Settings :=
  { s with maxSizes := max.elim s.maxSizes (s.maxSizes.insert c) }

/-- An expiry that has lapsed is gone. -/
def evict (lapsed : Bool) : Settings :=
  { s with ttlExpiry := if lapsed then s.ttlExpiry.erase c else s.ttlExpiry }

/-- The schema is registered already. -/
def HasSchema (schema : Option Schema) : Prop := ∀ v, schema = some v → s.schemas[c]? = some v

/-- The TTL is registered already; without a TTL there is no expiry either. -/
def HasTtl (ttl : Option UInt64) : Prop := ∀ secs, ttl = some secs →
  if secs = 0 then s.ttlDefaults[c]? = none ∧ s.ttlExpiry[c]? = none
  else s.ttlDefaults[c]? = some secs

/-- The maximal size is registered already. -/
def HasMaxSize (max : Option ℕ) : Prop := ∀ n, max = some n → s.maxSizes[c]? = some n

variable {s c}

theorem withSchema_eq_iff {schema : Option Schema} :
    (s.withSchema c schema).schemas = s.schemas ↔ s.HasSchema c schema := by
  cases schema with
  | none => exact iff_of_true rfl fun _ h => by cases h
  | some v =>
    refine Map.insert_eq_self_iff.trans ⟨fun h v' hv => ?_, fun h => h v rfl⟩
    rw [← Option.some.inj hv, h]

theorem withTtl_eq_iff {ttl : Option UInt64} :
    (s.withTtl c ttl).ttlDefaults = s.ttlDefaults ∧ (s.withTtl c ttl).ttlExpiry = s.ttlExpiry ↔
      s.HasTtl c ttl := by
  cases ttl with
  | none => exact iff_of_true ⟨rfl, rfl⟩ fun _ h => by cases h
  | some secs =>
    have hsecs : s.HasTtl c (some secs) ↔
        if secs = 0 then s.ttlDefaults[c]? = none ∧ s.ttlExpiry[c]? = none
        else s.ttlDefaults[c]? = some secs :=
      ⟨fun h => h secs rfl, fun h n hn => Option.some.inj hn ▸ h⟩
    rw [hsecs]
    simp only [withTtl, Option.elim_some]
    split_ifs
    · exact and_congr Map.erase_eq_self_iff Map.erase_eq_self_iff
    · exact (and_iff_left rfl).trans Map.insert_eq_self_iff

theorem withMaxSize_eq_iff {max : Option ℕ} :
    (s.withMaxSize c max).maxSizes = s.maxSizes ↔ s.HasMaxSize c max := by
  cases max with
  | none => exact iff_of_true rfl fun _ h => by cases h
  | some n =>
    refine Map.insert_eq_self_iff.trans ⟨fun h m hm => ?_, fun h => h n rfl⟩
    rw [← Option.some.inj hm, h]

/-- A TTL only removes expiries. -/
theorem ttlExpiry_withTtl {ttl : Option UInt64} (h : ((s.withTtl c ttl).ttlExpiry[c]?).isSome) :
    (s.ttlExpiry[c]?).isSome := by
  cases ttl with
  | none => exact h
  | some secs =>
    simp only [withTtl, Option.elim_some] at h
    split_ifs at h
    · rw [Map.get?_erase, if_pos rfl] at h
      cases h
    · exact h

/-- **What a request has applied changes nothing** if all of it was there before and no expiry
    had lapsed. -/
theorem applied_eq_iff (schema : Option Schema) (ttl : Option UInt64) (max : Option ℕ)
    (lapsed : Bool) (hlapsed : lapsed = true → ((s.withTtl c ttl).ttlExpiry[c]?).isSome) :
    (((s.withSchema c schema).withTtl c ttl).withMaxSize c max).evict c lapsed = s ↔
      s.HasSchema c schema ∧ s.HasTtl c ttl ∧ s.HasMaxSize c max ∧ lapsed = false := by
  rw [← withSchema_eq_iff, ← withTtl_eq_iff, ← withMaxSize_eq_iff]
  constructor
  · intro h
    have hkept : lapsed = false := by
      cases hl : lapsed with
      | false => rfl
      | true =>
        rw [hl] at h hlapsed
        have hgone : (s.withTtl c ttl).ttlExpiry.erase c = s.ttlExpiry := congrArg ttlExpiry h
        have hsome := ttlExpiry_withTtl (hlapsed rfl)
        rw [← hgone, Map.get?_erase, if_pos rfl] at hsome
        cases hsome
    subst hkept
    have hfields := Settings.ext_iff.1 h
    exact ⟨hfields.2.2.2, ⟨hfields.1, hfields.2.1⟩, hfields.2.2.1, rfl⟩
  · rintro ⟨hschemas, ⟨hdefaults, hexpiry⟩, hsizes, rfl⟩
    exact Settings.ext hdefaults hexpiry hsizes hschemas

/-- A schema and a TTL are applied. -/
theorem withSchema_withTtl_eq_iff (schema : Option Schema) (ttl : Option UInt64) :
    (s.withSchema c schema).withTtl c ttl = s ↔ s.HasSchema c schema ∧ s.HasTtl c ttl := by
  have happlied := applied_eq_iff (s := s) (c := c) schema ttl none false fun h => by cases h
  have hnone : s.HasMaxSize c none := fun _ h => by cases h
  refine happlied.trans ⟨fun h => ⟨h.1, h.2.1⟩, fun h => ⟨h.1, h.2, hnone, rfl⟩⟩

end Settings

def Db.settings (db : Db) : Settings := ⟨db.ttlDefaults, db.ttlExpiry, db.maxSizes, db.schemas⟩

/-- The TTL of a collection has lapsed at the next reading of the clock. -/
def Db.lapsed (db : Db) (c : String) : Bool :=
  db.ttlExpiry[c]?.any fun exp => collectionIsExpired exp (db.world.clock db.tick)

section

variable {α : Type} {c : String}

theorem Move.sameSettings {db db' : Db} (h : Move c db db') : db'.settings = db.settings := by
  cases h <;> rfl

theorem wp_sameSettings {m : Op α} (h : Within c m) (db : Db) :
    wp m (fun _ db' => db'.settings = db.settings) (fun _ db' => db'.settings = db.settings) db := by
  have hmoves : ∀ db', Moves c db db' → db'.settings = db.settings := by
    intro db' h
    induction h with
    | refl => rfl
    | tail _ h ih => exact h.sameSettings.trans ih
  exact wp_mono (h db) (fun _ => hmoves) fun _ => hmoves

theorem wp_evictExpired_settings (db : Db) :
    wp (Db.evictExpired c) (fun _ db' => db'.settings = db.settings.evict c (db.lapsed c))
      (fun _ _ => False) db := by
  rw [Db.evictExpired, wp_bind, wp_get]
  cases hexp : db.ttlExpiry[c]? with
  | none =>
    have hlapsed : db.lapsed c = false := by
      rw [Db.lapsed, hexp]
      rfl
    rw [hlapsed]
    rfl
  | some exp =>
    dsimp only
    rw [wp_bind]
    change wp (if collectionIsExpired exp (db.world.clock db.tick) = true then _ else _) _ _ _
    have hlapsed : db.lapsed c = collectionIsExpired exp (db.world.clock db.tick) := by
      rw [Db.lapsed, hexp]
      rfl
    split_ifs with hdue
    · rw [wp_bind, wp_outcome]
      have hend : ∀ db₁ : Db, db₁.settings = db.settings →
          Db.settings { db₁ with ttlExpiry := db₁.ttlExpiry.erase c } =
            db.settings.evict c (db.lapsed c) := by
        intro db₁ h
        rw [hlapsed, hdue, ← h]
        rfl
      exact wp_mono (wp_sameSettings within_deleteCollection _) (fun _ db₁ h => hend db₁ h)
        fun _ db₁ h => hend db₁ h
    · rw [hlapsed, Bool.eq_false_iff.2 hdue]
      rfl

variable [Crates]

/-- What follows on a stored batch does not fail. -/
theorem wp_endInsert_ok (db : Db) :
    wp (do Db.evictOverflow c; Db.resetExpiry c) (fun _ _ => True) (fun _ _ => False) db := by
  have hreset : ∀ db₁ : Db, wp (Db.resetExpiry c) (fun _ _ => True) (fun _ _ => False) db₁ := by
    intro db₁
    rw [Db.resetExpiry, wp_bind, wp_get]
    cases db₁.ttlDefaults[c]? with
    | none => trivial
    | some secs =>
      simp only [wp_bind, wp_modify, wp_outcome, wp_send]
      exact wp_nowMs fun _ _ => wp_writeNew (fun _ _ => trivial) fun _ _ => trivial
  rw [wp_bind, Db.evictOverflow, wp_bind, wp_get]
  cases db.maxSizes[c]? with
  | none => exact hreset db
  | some max =>
    dsimp only
    split_ifs
    · rw [evictOldest, wp_bind, wp_get]
      cases db.col c with
      | none => exact hreset db
      | some col =>
        simp only [wp_bind]
        refine wp_walk fun ks n _ => ?_
        split_ifs
        · exact hreset _
        · rw [wp_bind, wp_outcome]
          exact wp_intro (fun _ db₁ _ => hreset db₁) fun _ db₁ _ => hreset db₁
    · exact hreset db

/-- The batch is stored when its turn comes. -/
def Db.inserts (db : Db) (c : String) (items : List (String × Json)) : Bool :=
  !db.ioFault && !(Db.evictExpired c db).2.refuses c items

/-- **An insert** stores its batch or fails, and an expiry that has lapsed is gone either way. -/
theorem wp_dbInsert_settings (items : List (String × Json)) (db : Db) :
    wp (Db.insert c items) (fun _ _ => db.inserts c items = true)
      (fun _ db' => db.inserts c items = false ∧
        db'.settings = db.settings.evict c (!db.ioFault && db.lapsed c)) db := by
  rw [Db.insert, wp_bind]
  refine wp_checkFault_mode (fun hmode => ?_) fun hmode _ => ?_
  · have hevict := wp_evictExpired_settings (c := c) db
    rw [wp_bind]
    refine wp_intro (fun u db₁ hrun => ?_) fun e db₁ hrun => (wp_of_error hevict hrun).elim
    have hevicted := wp_of_ok hevict hrun
    have hinserts : db.inserts c items = !db₁.refuses c items := by
      rw [Db.inserts, hmode, hrun]
      rfl
    rw [wp_bind]
    refine wp_mono (wp_and (wp_insert_refuses items db₁)
      (wp_sameSettings (withinDocs_insert items).within db₁)) (fun _ db₂ h₂ => ?_) fun _ db₂ h₂ => ?_
    · refine wp_mono (wp_endInsert_ok db₂) (fun _ _ _ => ?_) fun _ _ h => h.elim
      rw [hinserts, h₂.1]
      rfl
    · rw [hinserts, h₂.1, h₂.2, hevicted, hmode]
      exact ⟨rfl, rfl⟩
  · rw [Db.inserts, hmode]
    exact ⟨rfl, rfl⟩

/-! ## The documents of a set -/

namespace Db

/-- The data of a set are stored when their turn comes. -/
def sets (db : Db) (c : String) (data : Option Json) : Bool :=
  (db.dataItems data).any ((db.drawn data).inserts c)

/-- The TTL has lapsed when the data of a set are to be stored. -/
def setLapsed (db : Db) (c : String) (data : Option Json) : Bool :=
  (db.dataItems data).isSome && (!db.ioFault && (db.drawn data).lapsed c)

end Db

/-- **The data of a set** are stored, or fail and leave the settings but for a TTL that has
    lapsed. -/
theorem wp_setData_settings (data : Option Json) (db : Db) :
    wp (setData c data)
      (fun r db' => (r.1 = 200 ↔ db.sets c data = true) ∧
        (r.1 ≠ 200 → db'.settings = db.settings.evict c (db.setLapsed c data)))
      (fun _ _ => False) db := by
  have hrejected : ∀ (n : ℕ) (e : SetError), db.dataItems data = none →
      (e.intoResponse.1 = 200 ↔ db.sets c data = true) ∧ (e.intoResponse.1 ≠ 200 →
        Db.settings { db with tick := n } = db.settings.evict c (db.setLapsed c data)) := by
    intro n e hnone
    rw [Db.sets, Db.setLapsed, hnone]
    exact ⟨iff_of_false (ne_ok_of_setError e) Bool.false_ne_true, fun _ => rfl⟩
  have hinsert : ∀ items success, db.dataItems data = some items →
      wp (insertItems c items success)
        (fun r db' => (r.1 = 200 ↔ db.sets c data = true) ∧
          (r.1 ≠ 200 → db'.settings = db.settings.evict c (db.setLapsed c data)))
        (fun _ _ => False) (db.drawn data) := by
    intro items success hitems
    have hsame : (db.drawn data).settings = db.settings ∧ (db.drawn data).ioFault = db.ioFault := by
      unfold Db.drawn
      split <;> exact ⟨rfl, rfl⟩
    have hsets : db.sets c data = (db.drawn data).inserts c items := by
      rw [Db.sets, hitems, Option.any_some]
    have hlapsed : db.setLapsed c data = (!db.ioFault && (db.drawn data).lapsed c) := by
      rw [Db.setLapsed, hitems, Option.isSome_some, Bool.true_and]
    rw [hsets, hlapsed, ← hsame.1, ← hsame.2]
    refine wp_insertItems (wp_mono (wp_dbInsert_settings items (db.drawn data))
      (fun _ db' h => ?_) fun e db' h => ?_)
    · exact ⟨iff_of_true rfl h, fun hne => absurd rfl hne⟩
    · refine ⟨iff_of_false (ne_ok_of_setError _) ?_, fun _ => h.2⟩
      rw [h.1]
      exact Bool.false_ne_true
  exact wp_setData (fun hnone e n => hrejected n e hnone) hinsert

end

/-! ## Requests -/

section

/-- The TTL that a request registers. -/
def ttlSet (payload : Json) : Option UInt64 := (payload.field .ttl).bind Json.asU64

/-- The maximal size that a request registers. -/
def maxSizeSet (payload : Json) : Option ℕ :=
  (((payload.field .maxSize).bind Json.asU64).filter (0 < ·)).map UInt64.toNat

def ttlValid (payload : Json) : Bool := (payload.field .ttl).all fun v => v.asU64.isSome

def maxSizeValid (payload : Json) : Bool :=
  (payload.field .maxSize).all fun v => (v.asU64.filter (0 < ·)).isSome

theorem ttlSet_of_invalid {payload : Json} (h : ttlValid payload = false) : ttlSet payload = none := by
  rw [ttlValid] at h
  rw [ttlSet]
  cases hfield : payload.field .ttl with
  | none => rfl
  | some v =>
    rwa [hfield, Option.all_some, Option.isSome_eq_false_iff, Option.isNone_iff_eq_none] at h

/-- The TTL of a request is registered. -/
def Db.withTtlOf (db : Db) (c : String) (payload : Json) : Db :=
  (ttlSet payload).elim db (db.withTtlDefault c)

/-- The TTL and the maximal size of a request are registered. -/
def Db.configured (db : Db) (c : String) (payload : Json) : Db :=
  (maxSizeSet payload).elim (db.withTtlOf c payload) fun max =>
    { db.withTtlOf c payload with maxSizes := (db.withTtlOf c payload).maxSizes.insert c max }

variable {c : String} {payload : Json} {db : Db}

theorem settings_withTtlOf :
    (db.withTtlOf c payload).settings = db.settings.withTtl c (ttlSet payload) := by
  rw [Db.withTtlOf]
  cases ttlSet payload with
  | none => rfl
  | some secs =>
    simp only [Option.elim_some, Db.withTtlDefault, Settings.withTtl, Db.settings]
    split_ifs <;> rfl

theorem settings_configured : (db.configured c payload).settings =
    (db.settings.withTtl c (ttlSet payload)).withMaxSize c (maxSizeSet payload) := by
  rw [Db.configured, ← settings_withTtlOf]
  cases maxSizeSet payload <;> rfl

variable {Q : Response → Db → Prop} {E : DbError → Db → Prop} {next : Op Response}
  {invalid : Response}

theorem wp_withTtl_of (hinvalid : ttlValid payload = false → Q invalid db)
    (hvalid : ttlValid payload = true → wp next Q E (db.withTtlOf c payload)) :
    wp (withTtl c (payload.field .ttl) invalid next) Q E db := by
  rw [ttlValid] at hinvalid hvalid
  rw [Db.withTtlOf, ttlSet] at hvalid
  cases hfield : payload.field .ttl with
  | none =>
    rw [hfield] at hvalid
    exact hvalid rfl
  | some v =>
    rw [hfield, Option.all_some] at hinvalid hvalid
    rw [Option.bind_some] at hvalid
    rw [withTtl]
    cases hsecs : v.asU64 with
    | none =>
      rw [hsecs] at hinvalid
      exact hinvalid rfl
    | some secs =>
      rw [hsecs] at hvalid
      exact hvalid rfl

theorem wp_withMaxSize_of {db : Db} (hinvalid : maxSizeValid payload = false → Q invalid db)
    (hvalid : maxSizeValid payload = true → wp next Q E ((maxSizeSet payload).elim db fun max =>
      { db with maxSizes := db.maxSizes.insert c max })) :
    wp (withMaxSize c (payload.field .maxSize) invalid next) Q E db := by
  rw [maxSizeValid] at hinvalid hvalid
  rw [maxSizeSet] at hvalid
  cases hfield : payload.field .maxSize with
  | none =>
    rw [hfield] at hvalid
    exact hvalid rfl
  | some v =>
    rw [hfield, Option.all_some] at hinvalid hvalid
    rw [Option.bind_some] at hvalid
    rw [withMaxSize]
    cases hmax : v.asU64.filter (0 < ·) with
    | none =>
      rw [hmax] at hinvalid
      exact hinvalid rfl
    | some max =>
      rw [hmax] at hvalid
      exact hvalid rfl

/-- The TTL that has lapsed is one that the request leaves. -/
theorem ttlExpiry_of_setLapsed {data : Option Json}
    (h : (db.configured c payload).setLapsed c data = true) :
    ((db.settings.withTtl c (ttlSet payload)).ttlExpiry[c]?).isSome := by
  have hdrawn : ∀ db₁ : Db, (db₁.drawn data).ttlExpiry = db₁.ttlExpiry := by
    intro db₁
    unfold Db.drawn
    split <;> rfl
  rw [Db.setLapsed, Bool.and_eq_true, Bool.and_eq_true] at h
  have hlapsed := h.2.2
  rw [Db.lapsed, hdrawn, show (db.configured c payload).ttlExpiry =
    (db.settings.withTtl c (ttlSet payload)).ttlExpiry from
      congrArg Settings.ttlExpiry settings_configured] at hlapsed
  cases hexp : (db.settings.withTtl c (ttlSet payload)).ttlExpiry[c]? with
  | none =>
    rw [hexp] at hlapsed
    cases hlapsed
  | some exp => rfl

variable [Crates]

/-- A schema is valid, and the storage accepts its entries. -/
def Db.registers (db : Db) (schema : Json) : Bool :=
  (Crates.validatorFor schema).toOption.isSome &&
    ((db.storageAnswer 0).or ((db.storageAnswer 1).or (db.storageAnswer 2))).isNone

/-- The schema of a request, compiled. -/
def schemaSet (payload : Json) : Option Schema :=
  (payload.field .schema).bind fun schema =>
    (Crates.validatorFor schema).toOption.map (Schema.mk schema)

/-- **A schema** is registered, or nothing is. -/
theorem wp_setSchema_settings (schema : Json) (db : Db) :
    wp (Db.setSchema c schema)
      (fun _ db' => db.registers schema = true ∧ db'.settings = db.settings.withSchema c
        ((Crates.validatorFor schema).toOption.map (Schema.mk schema)))
      (fun _ db' => db.registers schema = false ∧ db'.settings = db.settings) db := by
  unfold Db.setSchema Operations.setSchema
  rw [Db.registers]
  cases Crates.validatorFor schema with
  | error err => exact ⟨rfl, rfl⟩
  | ok validator =>
    simp only [wp_bind, wp_modify, wp_send]
    change wp (writeNew IKEY_TX_BEGIN c _ .null) _ _ { db with tick := db.tick + 1 }
    refine wp_writeNew_fault (fun h₀ _ => ?_) fun e h₀ => ⟨?_, rfl⟩
    · rw [show db.storageAnswer 0 = none from h₀]
      refine wp_writeNew_fault (fun h₁ _ => ?_) fun e h₁ => ⟨?_, rfl⟩
      · rw [show db.storageAnswer 1 = none from h₁]
        refine wp_writeNew_fault (fun h₂ _ => ⟨?_, rfl⟩) fun e h₂ => ⟨?_, rfl⟩
        · rw [show db.storageAnswer 2 = none from h₂]
          rfl
        · rw [show db.storageAnswer 2 = some e from h₂]
          rfl
      · rw [show db.storageAnswer 1 = some e from h₁]
        rfl
    · rw [show db.storageAnswer 0 = some e from h₀]
      rfl

/-- The schema of a request, if there is one, is registered. -/
def Db.schemaDone (db : Db) (payload : Json) : Bool := (payload.field .schema).all db.registers

theorem wp_withSchema_of {c : String} {db : Db}
    (hfailed : db.schemaDone payload = false → ∀ r db', r.1 ≠ 200 → db'.settings = db.settings →
      Q r db')
    (hdone : db.schemaDone payload = true → ∀ db',
      db'.settings = db.settings.withSchema c (schemaSet payload) → wp next Q E db') :
    wp (withSchema c (payload.field .schema) next) Q E db := by
  rw [Db.schemaDone] at hfailed hdone
  rw [schemaSet] at hdone
  cases hfield : payload.field .schema with
  | none =>
    rw [hfield] at hdone
    exact hdone rfl db rfl
  | some schema =>
    rw [hfield, Option.all_some] at hfailed hdone
    rw [Option.bind_some] at hdone
    rw [withSchema, wp_bind, wp_outcome]
    refine wp_mono (wp_setSchema_settings schema db) (fun _ db' h => ?_) fun e db' h => ?_
    · exact hdone h.1 db' h.2
    · cases e <;> exact hfailed h.1 _ db' (ne_ok_of_schemaError _) h.2

/-- The settings are all as they were, if the request is answered with an error. -/
def KeepsSettings (request : Op Response) (db : Db) : Prop :=
  ∀ r db', request db = (.ok r, db') → r.1 ≠ 200 → db'.settings = db.settings

omit [Crates] in
theorem keepsSettings_iff {request : Op Response} {P : Prop}
    (h : wp request (fun r db' => (r.1 ≠ 200 → db'.settings = db.settings) ↔ P) (fun _ _ => False) db) :
    KeepsSettings request db ↔ P := by
  rcases hrun : request db with ⟨e | r, db'⟩
  · exact (wp_of_error h hrun).elim
  · rw [← wp_of_ok h hrun, KeepsSettings]
    constructor
    · intro hall
      exact hall r db' hrun
    · intro hr r' db'' hrun'
      obtain ⟨hok, rfl⟩ := Prod.mk.inj (hrun.symm.trans hrun')
      rwa [← Except.ok.inj hok]

/-- What a set with a valid TTL and maximal size leaves. -/
theorem wp_setData_configured (c : String) (data : Option Json) :
    wp (setData c data) (fun r db' => (r.1 ≠ 200 → db'.settings = db.settings) ↔
        (db.configured c payload).sets c data = true ∨
          db.settings.HasTtl c (ttlSet payload) ∧ db.settings.HasMaxSize c (maxSizeSet payload) ∧
            (db.configured c payload).setLapsed c data = false)
      (fun _ _ => False) (db.configured c payload) := by
  refine wp_mono (wp_setData_settings data (db.configured c payload)) (fun r db' h => ?_)
    fun _ _ h => h
  have hiff := Settings.applied_eq_iff (s := db.settings) (c := c) none (ttlSet payload)
    (maxSizeSet payload) ((db.configured c payload).setLapsed c data) ttlExpiry_of_setLapsed
  have hnone : db.settings.HasSchema c none := fun _ h => by cases h
  by_cases hok : r.1 = 200
  · exact iff_of_true (fun hne => absurd hok hne) (.inl (h.1.1 hok))
  · have hnot : ¬ (db.configured c payload).sets c data = true := fun hsets => hok (h.1.2 hsets)
    rw [h.2 hok, settings_configured]
    constructor
    · intro heq
      exact .inr (hiff.1 (heq hok)).2
    · rintro (hsets | hhas)
      · exact absurd hsets hnot
      · exact fun _ => hiff.2 ⟨hnone, hhas⟩

variable [FloatText]

/-- The TTL and the maximal size of a set are valid and its documents are stored, or what it
    applies up to the part that fails was there before. -/
def Db.SetHarmless (db : Db) (payload : Json) (maxBodySize maxKeysPerRequest : ℕ) : Prop :=
  validateAllowedProperties payload SET_ALLOWED = .ok () →
    validateRequest payload maxBodySize maxKeysPerRequest = .ok () →
      ttlValid payload = true → ∀ c, (namedCollection payload).getD "default" = c →
        if maxSizeValid payload then
          (db.configured c payload).sets c (payload.field .data) = true ∨
            db.settings.HasTtl c (ttlSet payload) ∧
              db.settings.HasMaxSize c (maxSizeSet payload) ∧
                (db.configured c payload).setLapsed c (payload.field .data) = false
        else db.settings.HasTtl c (ttlSet payload)

/-- A registration fails before or in its schema, or it is valid, or what it applies up to the
    invalid part was there before. -/
def Db.SchemaHarmless (db : Db) (payload : Json) (maxBodySize maxKeysPerRequest : ℕ) : Prop :=
  validateAllowedProperties payload SCHEMA_ALLOWED = .ok () →
    validateRequest payload maxBodySize maxKeysPerRequest = .ok () →
      ∀ c, namedCollection payload = some c → db.schemaDone payload = true →
        ttlValid payload = true ∧ maxSizeValid payload = true ∨
          db.settings.HasSchema c (schemaSet payload) ∧ db.settings.HasTtl c (ttlSet payload)

theorem keepsSettings_processSet (payload : Json) (maxBodySize maxKeysPerRequest : ℕ) (db : Db) :
    KeepsSettings (processSet payload maxBodySize maxKeysPerRequest) db ↔
      db.SetHarmless payload maxBodySize maxKeysPerRequest := by
  refine keepsSettings_iff ?_
  rw [processSet, Db.SetHarmless]
  cases validateAllowedProperties payload SET_ALLOWED with
  | error e => exact iff_of_true (fun _ => rfl) fun h => by cases h
  | ok u =>
    cases validateRequest payload maxBodySize maxKeysPerRequest with
    | error e => exact iff_of_true (fun _ => rfl) fun _ h => by cases h
    | ok u' =>
      simp only [forall_const, forall_eq']
      generalize (namedCollection payload).getD "default" = c
      refine wp_withTtl_of (fun httl => ?_) fun httl => wp_withMaxSize_of (fun hmax => ?_) fun hmax => ?_
      · rw [httl]
        exact iff_of_true (fun _ => rfl) fun h => by cases h
      · have hnone : db.settings.HasSchema c none := fun _ h => by cases h
        have hiff := Settings.withSchema_withTtl_eq_iff (s := db.settings) (c := c) none
          (ttlSet payload)
        rw [hmax, if_neg Bool.false_ne_true, settings_withTtlOf]
        constructor
        · exact fun h _ => (hiff.1 (h (ne_ok_of_setError _))).2
        · exact fun h _ => hiff.2 ⟨hnone, h httl⟩
      · rw [httl, if_pos hmax]
        simp only [forall_const]
        exact wp_setData_configured c (payload.field .data)

theorem keepsSettings_processSchema (payload : Json) (maxBodySize maxKeysPerRequest : ℕ) (db : Db) :
    KeepsSettings (processSchema payload maxBodySize maxKeysPerRequest) db ↔
      db.SchemaHarmless payload maxBodySize maxKeysPerRequest := by
  refine keepsSettings_iff ?_
  rw [processSchema, Db.SchemaHarmless]
  cases validateAllowedProperties payload SCHEMA_ALLOWED with
  | error e => exact iff_of_true (fun _ => rfl) fun h => by cases h
  | ok u =>
    cases validateRequest payload maxBodySize maxKeysPerRequest with
    | error e => exact iff_of_true (fun _ => rfl) fun _ h => by cases h
    | ok u' =>
      cases namedCollection payload with
      | none => exact iff_of_true (fun _ => rfl) fun _ _ _ h => by cases h
      | some c =>
        simp only [forall_const, Option.some.injEq, forall_eq']
        split_ifs with hempty
        · have hvalid : ttlValid payload = true ∧ maxSizeValid payload = true := by
            rw [ttlValid, maxSizeValid, Option.isNone_iff_eq_none.1 hempty.2.1,
              Option.isNone_iff_eq_none.1 hempty.2.2]
            exact ⟨rfl, rfl⟩
          exact iff_of_true (fun _ => rfl) fun _ => .inl hvalid
        · refine wp_withSchema_of (fun hfailed r db' _ hsame => ?_) fun hdone db₁ h₁ => ?_
          · rw [hfailed]
            exact iff_of_true (fun _ => hsame) fun h => by cases h
          have hiff := Settings.withSchema_withTtl_eq_iff (s := db.settings) (c := c)
            (schemaSet payload) (ttlSet payload)
          simp only [hdone, forall_const]
          refine wp_withTtl_of (fun httl => ?_) fun httl =>
            wp_withMaxSize_of (fun hmax => ?_) fun hmax => ?_
          · have hnot : ¬ (ttlValid payload = true ∧ maxSizeValid payload = true) := by
              rw [httl]
              exact fun h => Bool.false_ne_true h.1
            rw [or_iff_right hnot, ← hiff, ttlSet_of_invalid httl, h₁]
            exact ⟨fun h => h (ne_ok_of_schemaError _), fun h _ => h⟩
          · have hnot : ¬ (ttlValid payload = true ∧ maxSizeValid payload = true) := by
              rw [hmax]
              exact fun h => Bool.false_ne_true h.2
            rw [or_iff_right hnot, ← hiff, settings_withTtlOf, h₁]
            exact ⟨fun h => h (ne_ok_of_schemaError _), fun h _ => h⟩
          · exact iff_of_true (fun hne => absurd rfl hne) (.inl ⟨httl, hmax⟩)

/-- **A failed set or schema request changes no settings** exactly if it fails before it changes
    any: it succeeds, it is rejected at once, or what it has applied was there before. -/
theorem settings_kept_iff (payload : Json) (maxBodySize maxKeysPerRequest : ℕ) (db : Db) :
    (KeepsSettings (processSet payload maxBodySize maxKeysPerRequest) db ↔
      db.SetHarmless payload maxBodySize maxKeysPerRequest) ∧
    (KeepsSettings (processSchema payload maxBodySize maxKeysPerRequest) db ↔
      db.SchemaHarmless payload maxBodySize maxKeysPerRequest) :=
  ⟨keepsSettings_processSet payload maxBodySize maxKeysPerRequest db,
    keepsSettings_processSchema payload maxBodySize maxKeysPerRequest db⟩

end

/-- **A TTL is registered by requests that fail**: a set without data, and a registration with a
    maximal size of zero. -/
theorem failed_requests_set_ttl :
    letI := Crates.plain
    letI := FloatText.plain
    let db := Db.blank (World.plain 1000 []) 0
    let set := processSet (.obj [("collection", .str "c"), ("ttl", .ofU64 60)]) 1000 10 db
    let schema := processSchema
      (.obj [("collection", .str "c"), ("maxSize", .ofU64 0), ("ttl", .ofU64 60)]) 1000 10 db
    set.1.toOption.map Prod.fst = some 400 ∧ set.2.ttlDefaults["c"]? = some 60 ∧
      schema.1.toOption.map Prod.fst = some 400 ∧ schema.2.ttlDefaults["c"]? = some 60 ∧
      db.ttlDefaults["c"]? = none := by
  decide +kernel

end MoltenDB
