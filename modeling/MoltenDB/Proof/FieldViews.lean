/-
  The raw and the decoded view of a system field.

  A condition on `_v`, `_seq`, `_createdAt` or `_modifiedAt` is evaluated on the number that the
  token reader finds in the encoded document, or on the field of the decoded one.  Both are the
  same in documents that hold each of the fields under one value (`Stamped`).  Inserts and
  restarts leave only such documents.  An update that merges does not: it writes the new version
  beside the old one, under the other name, and the token reader goes on finding the old one.
-/
import MoltenDB.Common.SystemViews
import MoltenDB.Engine.AllDocs
import MoltenDB.Lib.Runs
import MoltenDB.Query.Msgpack

namespace MoltenDB

open Wire Prog Prog.Eff SystemFields LogCommand Operations

/-- The system fields that conditions are stated on. -/
def viewedFields : List String := [VERSION, SEQ, CREATED_AT, MODIFIED_AT]

def viewedTokens : List UInt8 := [TOK_VERSION, TOK_SEQ, TOK_CREATED_AT, TOK_MODIFIED_AT]

/-- An object that holds each of the fields under one number. -/
structure Stamped (v : Json) : Prop where
  room : v.Room 0
  holds : ∀ t ∈ viewedTokens, ∃ n : UInt64, v.Holds t (.ofU64 n)

theorem Stamped.canon {v : Json} (h : Stamped v) : Stamped v.canon := by
  refine ⟨h.room.canon, fun t ht => ?_⟩
  obtain ⟨n, hn⟩ := h.holds t ht
  exact ⟨n, hn.canon⟩

/-! ## Stamping -/

/-- An object that brings none of the fields under its public name. -/
structure Unstamped (v : Json) : Prop where
  object : v.isObject = true
  names : ∀ field ∈ viewedFields, v.get field = none
  room : v.Room 4

/-- **Stamping an object** that brings none of the fields. -/
theorem Unstamped.stamped {v : Json} (h : Unstamped v) (ver created now seq : UInt64) :
    Stamped (stampWith v ver created now seq) := by
  obtain ⟨hobj, hnames, hroom⟩ := h
  refine ⟨(((hroom.set rfl ver).set rfl created).set rfl now).set rfl seq, fun t ht => ?_⟩
  simp only [viewedTokens, List.mem_cons, List.not_mem_nil, or_false] at ht
  rcases ht with rfl | rfl | rfl | rfl
  · have hset := systemField_version.holds_set hobj (hnames _ (by decide)) (.ofU64 ver)
    exact ⟨ver, ((hset.set (by decide) _).set (by decide) _).set (by decide) _⟩
  · refine ⟨seq, systemField_seq.holds_set (by simp [hobj]) ?_ (.ofU64 seq)⟩
    rw [Json.get_set (by simp [hobj]), Json.get_set (by simp [hobj]), Json.get_set hobj]
    exact hnames _ (by decide)
  · have hget : (v.set IKEY_VERSION (.ofU64 ver)).get CREATED_AT = none := by
      rw [Json.get_set hobj]
      exact hnames _ (by decide)
    have hset := systemField_createdAt.holds_set (by simp [hobj]) hget (.ofU64 created)
    exact ⟨created, (hset.set (by decide) _).set (by decide) _⟩
  · have hget : ((v.set IKEY_VERSION (.ofU64 ver)).set IKEY_CREATED_AT (.ofU64 created)).get
        MODIFIED_AT = none := by
      rw [Json.get_set (by simp [hobj]), Json.get_set hobj]
      exact hnames _ (by decide)
    have hset := systemField_modifiedAt.holds_set (by simp [hobj]) hget (.ofU64 now)
    exact ⟨now, hset.set (by decide) _⟩

variable [Crates]

/-! ## Both views -/

/-- Both views of the field show the same, and so do those of the document that a restart
    stores: the decoded one, encoded anew. -/
def SameViews (bytes : Bytes) (field : String) : Prop :=
  ∃ v, msgpackToValue bytes = some v ∧
    (expandSystemFields v).get field = (readMsgpackSystemFieldU64 bytes field).map Json.ofU64 ∧
    readMsgpackSystemFieldU64 (valueToMsgpack v) field = readMsgpackSystemFieldU64 bytes field

/-- The token under which a field is read. -/
theorem exists_token {field : String} (h : field ∈ viewedFields) :
    ∃ int, ∃ t ∈ viewedTokens, SystemField field int t ∧
      ∀ bytes, readMsgpackSystemFieldU64 bytes field = readTokenU64 bytes t := by
  simp only [viewedFields, List.mem_cons, List.not_mem_nil, or_false] at h
  rcases h with rfl | rfl | rfl | rfl
  · exact ⟨_, _, by decide, systemField_version, fun bytes => rfl⟩
  · exact ⟨_, _, by decide, systemField_seq, fun bytes => rfl⟩
  · exact ⟨_, _, by decide, systemField_createdAt, fun bytes => rfl⟩
  · exact ⟨_, _, by decide, systemField_modifiedAt, fun bytes => rfl⟩

/-- **A stamped document looks the same in both views.** -/
theorem Stamped.sameViews {v : Json} (h : Stamped v) {field : String} (hf : field ∈ viewedFields) :
    SameViews (valueToMsgpack v) field := by
  obtain ⟨int, t, ht, hfield, hread⟩ := exists_token hf
  obtain ⟨n, hn⟩ := h.holds t ht
  have hraw : readMsgpackSystemFieldU64 (valueToMsgpack v) field = some n := by
    rw [hread, hn.readTokenU64 hfield.high h.room.fits h.room.depth, Json.asU64_ofU64]
  have hagain : readMsgpackSystemFieldU64 (valueToMsgpack v.canon) field = some n := by
    rw [hread, hn.canon.readTokenU64 hfield.high h.canon.room.fits h.canon.room.depth]
    rfl
  refine ⟨v.canon, msgpackToValue_valueToMsgpack h.room.fits, ?_, hagain.trans hraw.symm⟩
  rw [hn.canon.get_expand hfield, hraw]
  rfl

/-! ## Runs -/

/-- A write of the claim's kind, or a restart of the database on its log. -/
inductive FieldWrite
  | insert (collection : String) (items : List (String × Json))
  | update (collection key : String) (updates : Json)
  | restart

namespace FieldWrite

def run : FieldWrite → Op Unit
  | insert c items => Db.insert c items
  | update c k updates => do
    let _ ← Db.update c k updates
  | restart => do
    let db ← Eff.get
    Db.openOn (deliver db.log)

/-- The handle after a write, whatever its outcome. -/
def next (db : Db) (w : FieldWrite) : Db := (w.run db).2

/-- The update merges into no stored document: there is none, its guard is not the stored
    version, or the schema rejects what would be stored. -/
def Unmerged (db : Db) (c k : String) (updates : Json) : Prop :=
  ∀ docObj updateObj, (db.bytes c k).bind msgpackToValue = some (.obj docObj) →
    updates = .obj updateObj →
      (∃ guard, fieldU64 updates VERSION = some guard ∧
        guard ≠ (fieldU64 (.obj docObj) IKEY_VERSION).getD 0) ∨
      ∀ now, db.accepts c (merged docObj updateObj now) = false

/-- Inserted values bring none of the fields, updates do not merge, and a restart finds entries
    whose lengths fit their headers. -/
def Apart (db : Db) : FieldWrite → Prop
  | insert _ items => ∀ item ∈ items, Unstamped item.2
  | update c k updates => Unmerged db c k updates
  | restart => ∀ e ∈ db.log, e.Fits

theorem stamped_insert {db : Db} (h : db.AllDocs Stamped) (c : String)
    {items : List (String × Json)} (hitems : ∀ item ∈ items, Unstamped item.2) :
    wp (Db.insert c items) (fun _ => Db.AllDocs Stamped) (fun _ => Db.AllDocs Stamped) db := by
  let J : List (String × Json) → Db → Prop := fun rest db =>
    db.AllDocs Stamped ∧ ∀ item ∈ rest, Unstamped item.2
  refine wp_mono (Db.wp_insert_keeps (J := J) (I := Db.AllDocs Stamped)
    (fun _ _ _ hr h => ⟨h.1.removes hr, h.2⟩) (fun _ _ h => h.1) (fun item rest db h => ?_)
    ⟨h, hitems⟩) (fun _ _ h => h.1) fun _ _ h => h
  have hitem := h.2 item List.mem_cons_self
  refine wp_mono (h.1.wp_item c fun now seq value hprep => ?_) (fun _ _ h' => ⟨h', fun item' hitem' =>
    h.2 item' (List.mem_cons_of_mem _ hitem')⟩) fun _ _ h => h
  obtain ⟨ver, created, seq', rfl⟩ := hprep.stamped hitem.object
  exact hitem.stamped ver created now seq'

omit [Crates] in
/-- **An update that does not merge** stores nothing, or a document as it was decoded. -/
theorem stamped_update {db : Db} (h : db.AllDocs Stamped) {c k : String} {updates : Json}
    (hun : Unmerged db c k updates) :
    wp (Db.update c k updates) (fun _ => Db.AllDocs Stamped) (fun _ => Db.AllDocs Stamped) db := by
  refine Db.wp_update_keeps (fun _ _ hr h => h.removes hr) h fun doc db₁ hdoc hr h₁ => ?_
  obtain ⟨b, hb, hdec⟩ := Option.bind_eq_some_iff.1 hdoc
  obtain ⟨v, rfl, hv⟩ := h.bytes c k b hb
  rw [msgpackToValue_valueToMsgpack hv.room.fits] at hdec
  obtain rfl := Option.some.inj hdec
  cases updates with
  | obj updateObj =>
    obtain ⟨docObj, hobj⟩ : ∃ docObj, v.canon = .obj docObj := by
      obtain ⟨n, fs, rfl, -⟩ := hv.holds TOK_SEQ (by decide)
      exact ⟨_, Json.canon_obj fs⟩
    rw [hobj] at hdoc ⊢
    simp only [mergeUpdate, wp_bind]
    rcases hun docObj updateObj hdoc rfl with ⟨guard, hguard, hne⟩ | hreject
    · simp only [checkGuard, hguard, if_pos hne, wp_throw]
      exact h₁
    · refine wp_checkGuard ?_ h₁
      simp only [mergeInto, wp_bind, wp_pure]
      refine wp_nowMs fun t n id => ?_
      simp only [storeUpdate, wp_bind]
      refine wp_validateDocument_accepts (fun hacc => ?_) fun _ => ⟨h₁.bytes, h₁.log⟩
      have hsame : db.accepts c (merged docObj updateObj t) = true := by
        rw [Db.accepts, ← hr.schemas]
        exact hacc
      rw [hreject t] at hsame
      cases hsame
  | _ => exact fun id => h₁.wp_storeUpdate c k id hv.canon

/-- **Each write keeps the stamps.** -/
theorem stamped_next {db : Db} {w : FieldWrite} (h : db.AllDocs Stamped) (hw : Apart db w) :
    (next db w).AllDocs Stamped := by
  refine wp_final (P := Db.AllDocs Stamped) ?_
  cases w with
  | insert c items => exact stamped_insert h c hw
  | update c k updates =>
    simp only [run, wp_bind, wp_pure]
    exact stamped_update h hw
  | restart =>
    simp only [run, wp_bind, wp_get]
    refine wp_mono (wp_openOn (E := fun _ => Db.AllDocs Stamped)) (fun _ db' hopen => ?_)
      fun _ _ h => h
    obtain ⟨now, hopen⟩ := hopen
    exact h.opened (fun _ hv => hv.canon) hw hopen

end FieldWrite

/-- **Raw and decoded views of system fields agree** in every state that is reached by inserts,
    by updates that do not merge, and by restarts. -/
theorem system_fields_agree {db : Db} {ws : List FieldWrite} (hdb : db.NoDocs)
    (hrun : Runs.Along FieldWrite.next FieldWrite.Apart db ws) {c k : String} {b : Bytes}
    (hb : (Runs.after FieldWrite.next db ws).bytes c k = some b) {field : String}
    (hf : field ∈ viewedFields) : SameViews b field := by
  have hall := hrun.keeps (I := Db.AllDocs Stamped)
    (fun _ _ h hw => FieldWrite.stamped_next h hw) (hdb.allDocs _)
  obtain ⟨v, rfl, hv⟩ := hall.bytes c k b hb
  exact hv.sameViews hf

section

omit [Crates]

/-- A document is inserted, the database restarted, and a document that is not there updated. -/
def insertRestart : List FieldWrite :=
  [.insert "c" [("k", .obj [])], .restart, .update "c" "other" (.obj [])]

theorem system_fields_agree_insert :
    let _ := Crates.plain
    ∀ b, (Runs.after FieldWrite.next (Db.blank (World.plain 1000 []) 0) insertRestart).bytes
      "c" "k" = some b → SameViews b VERSION := by
  intro _ b hb
  let _ := Crates.plain
  have hrun : Runs.Along FieldWrite.next FieldWrite.Apart (Db.blank (World.plain 1000 []) 0)
      insertRestart := by
    refine ⟨?_, ?_, ?_, trivial⟩
    · intro item hitem
      rw [List.mem_singleton.1 hitem]
      refine ⟨rfl, by decide, by decide, by decide, ?_⟩
      rintro fs hfs
      rw [← Json.obj.inj hfs]
      decide
    · change ∀ e ∈ _, _
      decide +kernel
    · intro docObj updateObj hdoc
      have hnone : ((FieldWrite.next (FieldWrite.next (Db.blank (World.plain 1000 []) 0)
          (.insert "c" [("k", .obj [])])) .restart).bytes "c" "other") = none := by decide +kernel
      rw [hnone] at hdoc
      cases hdoc
  have hempty : (Db.blank (World.plain 1000 []) 0).NoDocs :=
    ⟨fun c k => by simp [Db.blank, Db.bytes], by simp [Db.blank]⟩
  exact @system_fields_agree Crates.plain _ _ hempty hrun "c" "k" b hb VERSION (by decide)

/-- A document is inserted and updated. -/
def insertUpdate : List FieldWrite :=
  [.insert "c" [("k", .obj [])], .update "c" "k" (.obj [])]

/-- **After an update the raw view is the version before**, until a restart. -/
theorem raw_view_stale :
    let _ := Crates.plain
    let db := Runs.after FieldWrite.next (Db.blank (World.plain 1000 []) 0) insertUpdate
    (db.bytes "c" "k").map (fun b => readMsgpackSystemFieldU64 b VERSION) = some (some 1) ∧
      ((db.bytes "c" "k").bind msgpackToValue).map (fun v => (expandSystemFields v).get VERSION) =
        some (some (.ofU64 2)) ∧
      ((FieldWrite.next db .restart).bytes "c" "k").map
        (fun b => readMsgpackSystemFieldU64 b VERSION) = some (some 2) := by
  let _ := Crates.plain
  decide +kernel

end

end MoltenDB
