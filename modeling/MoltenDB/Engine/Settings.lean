/-
  What the operations on documents do to the settings of collections: nothing.

  The default TTLs and maximal sizes change only where they are registered, where a collection
  is dropped, and where a database is opened.  And a bound on the number of documents of a
  collection, by a list of the keys that it can have.
-/
import MoltenDB.Engine.Moves
import MoltenDB.Engine.Removals

namespace MoltenDB

open Wire Prog Prog.Eff LogCommand Relation

/-- The settings of all collections are the same. -/
structure Db.SameSettings (db db' : Db) : Prop where
  ttlDefaults : db'.ttlDefaults = db.ttlDefaults
  maxSizes : db'.maxSizes = db.maxSizes

theorem Db.SameSettings.refl (db : Db) : db.SameSettings db := ⟨rfl, rfl⟩

theorem Db.SameSettings.trans {db₁ db₂ db₃ : Db} (h : db₁.SameSettings db₂)
    (h' : db₂.SameSettings db₃) : db₁.SameSettings db₃ :=
  ⟨h'.ttlDefaults.trans h.ttlDefaults, h'.maxSizes.trans h.maxSizes⟩

section

variable {α : Type} {c : String}

theorem wp_settings {m : Op α} (h : Steps Db.SameSettings m) (db : Db) :
    wp m (fun _ => db.SameSettings) (fun _ => db.SameSettings) db :=
  h.keeps (fun _ _ hstep hr => hr.trans hstep) (.refl db)

theorem Move.settings {db db' : Db} (h : Move c db db') : db.SameSettings db' := by
  cases h <;> exact ⟨rfl, rfl⟩

theorem Within.settings {m : Op α} (h : Within c m) : Steps Db.SameSettings m := fun db =>
  wp_mono (h db) (fun _ _ => ReflTransGen.mono (fun _ _ => Move.settings) _ _)
    fun _ _ => ReflTransGen.mono (fun _ _ => Move.settings) _ _

theorem settings_checkFault : Steps Db.SameSettings checkFault := fun _ =>
  wp_checkFault (fun _ => .refl) fun _ => .refl

namespace Db

theorem settings_evictExpired : Steps SameSettings (evictExpired c) := by
  refine steps_get.bind fun db => ?_
  cases db.ttlExpiry[c]? with
  | none => exact steps_pure _
  | some exp =>
    refine (withinDocs_nowMs (c := c)).within.settings.bind fun now => ?_
    split_ifs
    · exact (within_deleteCollection (c := c)).settings.outcome.bind fun _ =>
        steps_modify fun _ => ⟨rfl, rfl⟩
    · exact steps_pure _

theorem settings_resetExpiry : Steps SameSettings (resetExpiry c) := by
  refine steps_get.bind fun db => ?_
  cases db.ttlDefaults[c]? with
  | none => exact steps_pure _
  | some secs =>
    have hlog : ∀ k, Steps SameSettings (writeNew "TTL_EXPIRY" c k .null) := fun k _ =>
      wp_writeNew (fun _ _ => .single ⟨rfl, rfl⟩) fun _ _ => .single ⟨rfl, rfl⟩
    exact (withinDocs_nowMs (c := c)).within.settings.bind fun now =>
      (steps_modify fun _ => ⟨rfl, rfl⟩).bind fun _ => (hlog _).outcome.bind fun _ =>
        (withinDocs_send (c := c) _).within.settings

variable [Crates]

theorem settings_evictOverflow : Steps SameSettings (evictOverflow c) := by
  refine steps_get.bind fun db => ?_
  cases db.maxSizes[c]? with
  | none => exact steps_pure _
  | some max =>
    dsimp only
    split_ifs
    · exact (withinDocs_evictOldest (c := c) _).within.settings
    · exact steps_pure _

theorem settings_insert (items : List (String × Json)) : Steps SameSettings (Db.insert c items) :=
  settings_checkFault.bind fun _ => settings_evictExpired.bind fun _ =>
    (withinDocs_insert items).within.settings.bind fun _ => settings_evictOverflow.bind fun _ =>
      settings_resetExpiry

omit [Crates] in
theorem settings_update (k : String) (updates : Json) :
    Steps SameSettings (Db.update c k updates) :=
  settings_checkFault.bind fun _ => (withinDocs_update k updates).within.settings

theorem settings_delete (keys : List String) : Steps SameSettings (Db.delete c keys) :=
  settings_checkFault.bind fun _ => (withinDocs_delete keys).within.settings

theorem settings_deleteFiltered (p : String → Bytes → Bool) (limit : Option ℕ) (asc : Bool) :
    Steps SameSettings (Db.deleteFiltered c p limit asc) :=
  settings_checkFault.bind fun _ => (withinDocs_deleteFiltered p limit asc).within.settings

theorem settings_deleteN (n : ℕ) (asc : Bool) : Steps SameSettings (Db.deleteN c n asc) :=
  settings_checkFault.bind fun _ => (withinDocs_deleteN n asc).within.settings

end Db

end

/-! ## Sizes -/

/-- The number of documents of a collection. -/
def Db.count (db : Db) (c : String) : ℕ := ((db.col c).map fun col => col.size).getD 0

/-- The keys of a collection. -/
def Db.keys (db : Db) (c : String) : List String := ((db.col c).map fun col => col.keys).getD []

variable {db : Db} {c : String}

theorem Db.mem_keys {k : String} : k ∈ db.keys c ↔ ∃ b, db.bytes c k = some b := by
  rw [Db.keys, Db.bytes, Db.col]
  cases db.state[c]? with
  | none => simp
  | some col => simpa using Map.mem_keys (m := col) (k := k)

theorem Db.length_keys : (db.keys c).length = db.count c := by
  rw [Db.keys, Db.count]
  cases db.col c with
  | none => rfl
  | some col => exact Std.ExtTreeMap.length_keys

theorem Db.nodup_keys : (db.keys c).Nodup := by
  rw [Db.keys]
  cases db.col c with
  | none => simp
  | some col => exact Map.nodup_keys (K := String) col

/-- **A collection has at most as many documents as keys.** -/
theorem Db.count_le {L : List String} (h : ∀ k b, db.bytes c k = some b → k ∈ L) :
    db.count c ≤ L.length := by
  have hsub : db.keys c ⊆ L := by
    intro k hk
    obtain ⟨b, hb⟩ := Db.mem_keys.1 hk
    exact h k b hb
  rw [← Db.length_keys]
  exact (Db.nodup_keys.subperm hsub).length_le

theorem Db.Removes.count_le {db' : Db} (h : db.Removes db') : db'.count c ≤ db.count c := by
  rw [← db.length_keys]
  exact Db.count_le fun k b hb => Db.mem_keys.2 ⟨b, h.bytes c k b hb⟩

end MoltenDB
