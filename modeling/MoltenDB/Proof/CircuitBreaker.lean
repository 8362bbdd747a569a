/-
  The circuit breaker: in read-only mode, which writes are refused and change nothing.

  The methods of the handle that check the flag are.  Dropping a collection and registering a
  schema do not check it: they are refused only if the storage refuses the entries that they
  log, and by then the collection may be gone (`breaker_covers_iff`).
-/
import MoltenDB.Engine.Clock
import MoltenDB.Proof.Durability

namespace MoltenDB

open Wire Prog Prog.Eff LogCommand

/-- A write operation of the database handle. -/
inductive Mutation
  | call (call : Call)
  | setSchema (collection : String) (schema : Json)

/-- The documents, indexes, counters, schemas and TTL maps are the same. -/
structure Db.SameData (db db' : Db) : Prop where
  state : db'.state = db.state
  seqIndex : db'.seqIndex = db.seqIndex
  seqCounters : db'.seqCounters = db.seqCounters
  schemas : db'.schemas = db.schemas
  ttlDefaults : db'.ttlDefaults = db.ttlDefaults
  ttlExpiry : db'.ttlExpiry = db.ttlExpiry

theorem Db.SameData.refl (db : Db) : db.SameData db := ⟨rfl, rfl, rfl, rfl, rfl, rfl⟩

/-- A storage fault. -/
def IsStorageFault (e : Option DbError) : Prop := ∃ msg, e = some (.storageFault msg)

namespace Mutation

section

variable [Crates]

def run : Mutation → Op Unit
  | call c => c.run
  | setSchema c schema => Db.setSchema c schema

/-- The operation is refused with a storage fault and changes nothing. -/
def Refused (m : Mutation) (db : Db) : Prop :=
  (∃ msg, (m.run db).1 = .error (.storageFault msg)) ∧ db.SameData (m.run db).2

/-- The operation checks the flag, or the first entry that the storage does not take is refused
    with a storage fault: of a drop, the first one, unless there is nothing to drop; of a schema
    that can be registered, any. -/
def Covered (m : Mutation) (db : Db) : Prop :=
  match m with
  | call (.deleteCollection c) =>
    IsStorageFault (db.storageAnswer 0) ∨ db.storageAnswer 0 = none ∧
      IsStorageFault ((db.storageAnswer 1).or (db.storageAnswer 2)) ∧
        db.state[c]? = none ∧ db.seqIndex[c]? = none
  | setSchema _ schema => (Crates.validatorFor schema).toOption.isSome ∧
    IsStorageFault ((db.storageAnswer 0).or ((db.storageAnswer 1).or (db.storageAnswer 2)))
  | _ => True

end

end Mutation

/-! ## Operations that check the flag -/

section

variable {α : Type} {db : Db}

theorem checkFault_bind (h : db.ioFault = true) (f : Unit → Op α) : (checkFault >>= f) db =
    (.error (.storageFault "Background disk I/O failed. System is in read-only mode."), db) := by
  have hcheck : checkFault db =
      (.error (.storageFault "Background disk I/O failed. System is in read-only mode."), db) := by
    change (if db.ioFault = true then Eff.throw _ else pure ()) db = _
    rw [if_pos h]
    rfl
  change Eff.bind checkFault f db = _
  rw [Eff.bind, hcheck]

end

/-! ## Drops and schemas -/

section

variable {c : String} {db : Db}

/-- A drop that fails has dropped nothing, or the documents and the index are gone. -/
theorem wp_deleteCollection_faults (c : String) (db : Db) :
    wp (Db.deleteCollection c)
      (fun _ _ => db.storageAnswer 0 = none ∧ (db.storageAnswer 1).or (db.storageAnswer 2) = none)
      (fun e db' => db.storageAnswer 0 = some e ∧ db.SameData db' ∨
        db.storageAnswer 0 = none ∧ (db.storageAnswer 1).or (db.storageAnswer 2) = some e ∧
          Db.SameData { db with state := db.state.erase c, seqIndex := db.seqIndex.erase c } db')
      db := by
  simp only [Db.deleteCollection, Operations.deleteCollection, wp_bind, wp_modify, wp_send]
  change wp (writeNew IKEY_TX_BEGIN c _ .null) _ _ { db with tick := db.tick + 1 }
  refine wp_writeNew_fault (fun h₀ _ => ?_) fun e h₀ => Or.inl ⟨h₀, ⟨rfl, rfl, rfl, rfl, rfl, rfl⟩⟩
  refine wp_writeNew_fault (fun h₁ _ => ?_) fun e h₁ => Or.inr ⟨h₀, ?_, ⟨rfl, rfl, rfl, rfl, rfl, rfl⟩⟩
  · refine wp_writeNew_fault (fun h₂ _ => ⟨h₀, ?_⟩) fun e h₂ => Or.inr ⟨h₀, ?_, ⟨rfl, rfl, rfl, rfl, rfl, rfl⟩⟩
    · rw [show db.storageAnswer 1 = none from h₁]
      exact h₂
    · rw [show db.storageAnswer 1 = none from h₁]
      exact h₂
  · rw [show db.storageAnswer 1 = some e from h₁]
    rfl

/-- A schema is registered only after all its entries were logged. -/
theorem wp_setSchema_faults [Crates] (c : String) (schema : Json) (db : Db) :
    wp (Db.setSchema c schema)
      (fun _ _ => (db.storageAnswer 0).or ((db.storageAnswer 1).or (db.storageAnswer 2)) = none)
      (fun e db' => db.SameData db' ∧
        ((Crates.validatorFor schema).toOption = none ∧ ¬ IsStorageFault (some e) ∨
          (Crates.validatorFor schema).toOption.isSome ∧
            (db.storageAnswer 0).or ((db.storageAnswer 1).or (db.storageAnswer 2)) = some e))
      db := by
  unfold Db.setSchema Operations.setSchema
  cases Crates.validatorFor schema with
  | error err =>
    refine ⟨.refl db, Or.inl ⟨rfl, ?_⟩⟩
    rintro ⟨msg, hmsg⟩
    cases hmsg
  | ok validator =>
    simp only [wp_bind, wp_modify, wp_send]
    change wp (writeNew IKEY_TX_BEGIN c _ .null) _ _ { db with tick := db.tick + 1 }
    refine wp_writeNew_fault (fun h₀ _ => ?_) fun e h₀ =>
      ⟨⟨rfl, rfl, rfl, rfl, rfl, rfl⟩, Or.inr ⟨rfl, ?_⟩⟩
    · rw [show db.storageAnswer 0 = none from h₀]
      refine wp_writeNew_fault (fun h₁ _ => ?_) fun e h₁ =>
        ⟨⟨rfl, rfl, rfl, rfl, rfl, rfl⟩, Or.inr ⟨rfl, ?_⟩⟩
      · rw [show db.storageAnswer 1 = none from h₁]
        exact wp_writeNew_fault (fun h₂ _ => h₂) fun e h₂ =>
          ⟨⟨rfl, rfl, rfl, rfl, rfl, rfl⟩, Or.inr ⟨rfl, h₂⟩⟩
      · rw [show db.storageAnswer 1 = some e from h₁]
        rfl
    · rw [show db.storageAnswer 0 = some e from h₀]
      rfl

end

section

variable [Crates]

namespace Mutation

theorem refused_deleteCollection_iff (c : String) (db : Db) :
    (call (.deleteCollection c)).Refused db ↔ (call (.deleteCollection c)).Covered db := by
  have hwp := wp_deleteCollection_faults c db
  change (∃ msg, (Db.deleteCollection c db).1 = .error (.storageFault msg)) ∧
    db.SameData (Db.deleteCollection c db).2 ↔ _
  rcases hrun : Db.deleteCollection c db with ⟨e | u, db'⟩
  · have herase : Db.SameData { db with state := db.state.erase c, seqIndex := db.seqIndex.erase c }
        db' → (db.SameData db' ↔ db.state[c]? = none ∧ db.seqIndex[c]? = none) := by
      intro herased
      constructor
      · intro h
        refine ⟨?_, ?_⟩
        · rw [← h.state, herased.state, Map.get?_erase, if_pos rfl]
        · rw [← h.seqIndex, herased.seqIndex, Map.get?_erase, if_pos rfl]
      · rintro ⟨hstate, hindex⟩
        exact ⟨herased.state.trans (Map.erase_eq_self hstate),
          herased.seqIndex.trans (Map.erase_eq_self hindex), herased.seqCounters, herased.schemas,
          herased.ttlDefaults, herased.ttlExpiry⟩
    rcases wp_of_error hwp hrun with ⟨h₀, hsame⟩ | ⟨h₀, h₁, herased⟩
    · constructor
      · rintro ⟨⟨msg, hmsg⟩, -⟩
        exact Or.inl ⟨msg, h₀.trans (congrArg some (Except.error.inj hmsg))⟩
      · rintro (⟨msg, hmsg⟩ | ⟨hnone, -⟩)
        · exact ⟨⟨msg, congrArg Except.error (Option.some.inj (h₀.symm.trans hmsg))⟩, hsame⟩
        · rw [h₀] at hnone
          cases hnone
    · constructor
      · rintro ⟨⟨msg, hmsg⟩, hsame⟩
        exact Or.inr ⟨h₀, ⟨msg, h₁.trans (congrArg some (Except.error.inj hmsg))⟩,
          (herase herased).1 hsame⟩
      · rintro (⟨msg, hmsg⟩ | ⟨-, ⟨msg, hmsg⟩, hnone⟩)
        · rw [h₀] at hmsg
          cases hmsg
        · exact ⟨⟨msg, congrArg Except.error (Option.some.inj (h₁.symm.trans hmsg))⟩,
            (herase herased).2 hnone⟩
  · obtain ⟨h₀, h₁⟩ := wp_of_ok hwp hrun
    constructor
    · rintro ⟨⟨msg, hmsg⟩, -⟩
      cases hmsg
    · rintro (⟨msg, hmsg⟩ | ⟨-, ⟨msg, hmsg⟩, -⟩)
      · rw [h₀] at hmsg
        cases hmsg
      · rw [h₁] at hmsg
        cases hmsg

theorem refused_setSchema_iff (c : String) (schema : Json) (db : Db) :
    (setSchema c schema).Refused db ↔ (setSchema c schema).Covered db := by
  have hwp := wp_setSchema_faults c schema db
  change (∃ msg, (Db.setSchema c schema db).1 = .error (.storageFault msg)) ∧
    db.SameData (Db.setSchema c schema db).2 ↔ _
  rcases hrun : Db.setSchema c schema db with ⟨e | u, db'⟩
  · obtain ⟨hsame, ⟨hnone, hother⟩ | ⟨hsome, hanswer⟩⟩ := wp_of_error hwp hrun
    · constructor
      · rintro ⟨⟨msg, hmsg⟩, -⟩
        exact absurd ⟨msg, congrArg some (Except.error.inj hmsg)⟩ hother
      · rintro ⟨hsome, -⟩
        rw [hnone] at hsome
        cases hsome
    · constructor
      · rintro ⟨⟨msg, hmsg⟩, -⟩
        exact ⟨hsome, msg, hanswer.trans (congrArg some (Except.error.inj hmsg))⟩
      · rintro ⟨-, msg, hmsg⟩
        exact ⟨⟨msg, congrArg Except.error (Option.some.inj (hanswer.symm.trans hmsg))⟩, hsame⟩
  · have hnone := wp_of_ok hwp hrun
    constructor
    · rintro ⟨⟨msg, hmsg⟩, -⟩
      cases hmsg
    · rintro ⟨-, msg, hmsg⟩
      rw [hnone] at hmsg
      cases hmsg

/-- **In read-only mode** a write is refused and changes nothing, exactly if it checks the mode or
    the storage stops it in time. -/
theorem breaker_covers_iff {db : Db} (hfault : db.ioFault = true) (m : Mutation) :
    m.Refused db ↔ m.Covered db := by
  have hchecked : ∀ {α : Type} (f : Unit → Op α) (g : α → Op Unit), m.run = (checkFault >>= f) >>= g →
      m.Refused db := by
    intro α f g hrun
    have heq := checkFault_bind hfault fun u => f u >>= g
    rw [← bind_assoc, ← hrun] at heq
    rw [Refused, heq]
    exact ⟨⟨_, rfl⟩, .refl db⟩
  cases m with
  | setSchema c schema => exact refused_setSchema_iff c schema db
  | call call =>
    cases call with
    | deleteCollection c => exact refused_deleteCollection_iff c db
    | insert c items => exact iff_of_true (hchecked _ (fun u => pure u) (bind_pure _).symm) trivial
    | update c k updates => exact iff_of_true (hchecked _ _ rfl) trivial
    | delete c keys => exact iff_of_true (hchecked _ (fun u => pure u) (bind_pure _).symm) trivial
    | deleteFiltered c p limit asc => exact iff_of_true (hchecked _ _ rfl) trivial
    | deleteN c n asc => exact iff_of_true (hchecked _ _ rfl) trivial

end Mutation

end

namespace Mutation

/-- A database in read-only mode with one document, whose storage takes every entry. -/
def readOnlyDb : Db :=
  { Db.blank (World.plain 1000 []) 0 with
    state := (∅ : State).insert "c" ((∅ : DashMap Bytes).insert "k" [192]), ioFault := true }

theorem breaker_covers_iff_insert :
    letI := Crates.plain
    (call (.insert "c" [("k", .obj [])])).Refused readOnlyDb := by
  let _ := Crates.plain
  exact (breaker_covers_iff rfl _).2 trivial

/-- **A drop in read-only mode succeeds.** -/
theorem drop_not_covered :
    letI := Crates.plain
    let drop : Mutation := call (.deleteCollection "c")
    readOnlyDb.ioFault = true ∧ (drop.run readOnlyDb).1 = .ok () ∧
      readOnlyDb.bytes "c" "k" = some [192] ∧ (drop.run readOnlyDb).2.bytes "c" "k" = none := by
  decide +kernel

end Mutation

end MoltenDB
