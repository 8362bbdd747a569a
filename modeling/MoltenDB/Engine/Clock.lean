/-
  Time goes on: what the operations draw from the world they draw in order.

  So the readings of the clock that an operation uses are among those that were still to come
  when it began (`Db.GoesOn.readings`).
-/
import MoltenDB.Engine.Steps

namespace MoltenDB

open Wire Prog Prog.Eff Operations LogCommand Relation

/-- The readings of the clock that are still to come. -/
def Db.readings (db : Db) : Set UInt64 := {now | ∃ i, db.tick ≤ i ∧ now = db.world.clock i}

/-- What the storage answers to the `i`-th entry of a transaction that draws an identifier and
    logs entries, the first of them at `i = 0`. -/
def Db.storageAnswer (db : Db) (i : ℕ) : Option DbError := db.world.fault (db.tick + 2 * (i + 1))

/-- Time goes on, and failures are counted. -/
structure Db.GoesOn (db db' : Db) : Prop where
  world : db'.world = db.world
  tick : db.tick ≤ db'.tick
  failedWrites : db.failedWrites ≤ db'.failedWrites

theorem Db.GoesOn.refl (db : Db) : db.GoesOn db := ⟨rfl, le_refl _, le_refl _⟩

theorem Db.GoesOn.trans {db₁ db₂ db₃ : Db} (h : db₁.GoesOn db₂) (h' : db₂.GoesOn db₃) :
    db₁.GoesOn db₃ :=
  ⟨h'.world.trans h.world, h.tick.trans h'.tick, h.failedWrites.trans h'.failedWrites⟩

theorem Db.GoesOn.readings {db db' : Db} (h : db.GoesOn db') : db'.readings ⊆ db.readings := by
  rintro now ⟨i, hi, hnow⟩
  exact ⟨i, h.tick.trans hi, by rw [hnow, h.world]⟩

section

variable {db : Db} {c : String} {α : Type}

/-- An entry is logged, or the write fails as the world answers. -/
theorem wp_writeNew_fault {cmd k : String} {v : Json} {Q : Unit → Db → Prop}
    {E : DbError → Db → Prop} (ok : db.world.fault (db.tick + 1) = none → ∀ t,
      Q () { db with log := db.log ++ [⟨cmd, c, k, v, t⟩], tick := db.tick + 2 })
    (error : ∀ e, db.world.fault (db.tick + 1) = some e →
      E e { db with failedWrites := db.failedWrites + 1, tick := db.tick + 2 }) :
    wp (writeNew cmd c k v) Q E db := by
  rw [writeNew, wp_bind]
  change wp (writeEntry _) Q E { db with tick := db.tick + 1 }
  unfold wp writeEntry
  dsimp only
  cases hfault : db.world.fault (db.tick + 1) with
  | none => exact ok hfault _
  | some e => exact error e hfault

theorem wp_writeNew_at {cmd k : String} {v : Json} {Q : Unit → Db → Prop} {E : DbError → Db → Prop}
    (ok : ∀ t, Q () { db with log := db.log ++ [⟨cmd, c, k, v, t⟩], tick := db.tick + 2 })
    (error : ∀ e, E e { db with failedWrites := db.failedWrites + 1, tick := db.tick + 2 }) :
    wp (writeNew cmd c k v) Q E db :=
  wp_writeNew_fault (fun _ => ok) fun e _ => error e

theorem wp_goesOn {m : Op α} (h : Steps Db.GoesOn m) (db : Db) :
    wp m (fun _ => db.GoesOn) (fun _ => db.GoesOn) db :=
  h.keeps (fun _ _ hstep hr => hr.trans hstep) (.refl db)

theorem goesOn_nowMs : Steps Db.GoesOn nowMs := fun _ =>
  .single ⟨rfl, Nat.le_succ _, le_refl _⟩

theorem goesOn_newUuid : Steps Db.GoesOn newUuid := fun _ =>
  .single ⟨rfl, Nat.le_succ _, le_refl _⟩

theorem goesOn_walk (m : DashMap α) : Steps Db.GoesOn (walk m) := fun _ =>
  .single ⟨rfl, Nat.le_succ _, le_refl _⟩

theorem goesOn_writeNew (cmd c k : String) (v : Json) : Steps Db.GoesOn (writeNew cmd c k v) := by
  intro db
  refine wp_writeNew_at (fun t => .single ?_) fun _ => .single ?_
  · exact ⟨rfl, Nat.le_add_right _ _, le_refl _⟩
  · exact ⟨rfl, Nat.le_add_right _ _, Nat.le_succ _⟩

theorem goesOn_send (e : Json) : Steps Db.GoesOn (send e) :=
  steps_modify fun _ => ⟨rfl, le_refl _, le_refl _⟩

theorem goesOn_checkFault : Steps Db.GoesOn checkFault := fun _ =>
  wp_checkFault (fun _ => .refl) fun _ => .refl

theorem goesOn_validateDocument (doc : Json) : Steps Db.GoesOn (validateDocument c doc) :=
  fun _ => wp_validateDocument (fun _ => .refl) .refl

end

/-! ## The operations on documents -/

namespace Operations

variable {c : String}

theorem goesOn_deleteCollection : Steps Db.GoesOn (deleteCollection c) :=
  goesOn_newUuid.bind fun _ => (goesOn_writeNew _ _ _ _).bind fun _ =>
    (steps_modify fun _ => ⟨rfl, le_refl _, le_refl _⟩).bind fun _ =>
      (goesOn_writeNew _ _ _ _).bind fun _ => (goesOn_writeNew _ _ _ _).bind fun _ => goesOn_send _

theorem goesOn_storeUpdate (k id : String) (v : Json) : Steps Db.GoesOn (storeUpdate c k id v) :=
  (goesOn_validateDocument v).bind fun _ =>
    (steps_modify fun _ => ⟨rfl, le_refl _, le_refl _⟩).bind fun _ =>
      (goesOn_writeNew _ _ _ _).bind fun _ => (goesOn_writeNew _ _ _ _).bind fun _ => goesOn_send _

variable [Crates]

omit [Crates] in
theorem goesOn_insertItem (item : String × Json) : Steps Db.GoesOn (insertItem c item) := by
  have hprepare : ∀ existing now seq, Steps Db.GoesOn (prepare c existing item.2 now seq) :=
    fun existing now seq db => wp_prepare (fun _ _ => .refl) (fun _ _ => .refl) (fun _ _ => .refl)
      .refl
  refine goesOn_nowMs.bind fun now => Steps.bind ?_ fun seq => steps_get.bind fun db => ?_
  · exact steps_get.bind fun db => (steps_modify fun _ => ⟨rfl, le_refl _, le_refl _⟩).bind
      fun _ => steps_pure _
  · exact (hprepare _ _ _).bind fun value =>
      (steps_modify fun _ => ⟨rfl, le_refl _, le_refl _⟩).bind fun _ =>
        (steps_modify fun _ => ⟨rfl, le_refl _, le_refl _⟩).bind fun _ =>
          (goesOn_writeNew _ _ _ _).bind fun _ => goesOn_send _

omit [Crates] in
theorem goesOn_insert (items : List (String × Json)) : Steps Db.GoesOn (Operations.insert c items) :=
  (steps_modify fun _ => ⟨rfl, le_refl _, le_refl _⟩).bind fun _ => goesOn_newUuid.bind fun _ =>
    (goesOn_writeNew _ _ _ _).bind fun _ => (Steps.forEach goesOn_insertItem items).bind fun _ =>
      goesOn_writeNew _ _ _ _

theorem goesOn_deleteItem (k : String) : Steps Db.GoesOn (deleteItem c k) := by
  have hrest : Steps Db.GoesOn (do
      removeDoc c k
      writeNew IKEY_DELETE c k .null
      send (json [("event", .str "change"), ("collection", .str c), ("key", .str k),
        ("new_v", .null)])) :=
    (steps_modify fun _ => ⟨rfl, le_refl _, le_refl _⟩).bind fun _ =>
      (goesOn_writeNew _ _ _ _).bind fun _ => goesOn_send _
  refine steps_get.bind fun db => ?_
  cases db.bytes c k with
  | none => exact hrest
  | some bytes =>
    exact (steps_modify fun _ => ⟨rfl, le_refl _, le_refl _⟩).bind fun _ => hrest

theorem goesOn_delete (keys : List String) : Steps Db.GoesOn (delete c keys) := by
  refine goesOn_newUuid.bind fun _ => (goesOn_writeNew _ _ _ _).bind fun _ => steps_get.bind fun _ => ?_
  split_ifs
  · exact (Steps.forEach goesOn_deleteItem keys).bind fun _ => goesOn_writeNew _ _ _ _
  · exact goesOn_writeNew _ _ _ _

theorem goesOn_evictOldest (n : ℕ) : Steps Db.GoesOn (evictOldest c n) := by
  refine steps_get.bind fun db => ?_
  cases db.col c with
  | none => exact steps_pure _
  | some col =>
    refine (goesOn_walk col).bind fun _ => ?_
    dsimp only
    split_ifs
    · exact steps_pure _
    · exact (goesOn_delete _).outcome.bind fun _ => steps_pure _

end Operations

/-! ## The database handle -/

namespace Db

variable {c : String}

theorem goesOn_evictExpired : Steps GoesOn (evictExpired c) := by
  refine steps_get.bind fun db => ?_
  cases db.ttlExpiry[c]? with
  | none => exact steps_pure _
  | some exp =>
    refine goesOn_nowMs.bind fun now => ?_
    split_ifs
    · exact goesOn_deleteCollection.outcome.bind fun _ =>
        steps_modify fun _ => ⟨rfl, le_refl _, le_refl _⟩
    · exact steps_pure _

theorem goesOn_resetExpiry : Steps GoesOn (resetExpiry c) := by
  refine steps_get.bind fun db => ?_
  cases db.ttlDefaults[c]? with
  | none => exact steps_pure _
  | some secs =>
    exact goesOn_nowMs.bind fun now =>
      (steps_modify fun _ => ⟨rfl, le_refl _, le_refl _⟩).bind fun _ =>
        (goesOn_writeNew _ _ _ _).outcome.bind fun _ => goesOn_send _

variable [Crates]

theorem goesOn_evictOverflow : Steps GoesOn (evictOverflow c) := by
  refine steps_get.bind fun db => ?_
  cases db.maxSizes[c]? with
  | none => exact steps_pure _
  | some max =>
    dsimp only
    split_ifs
    · exact goesOn_evictOldest _
    · exact steps_pure _

theorem goesOn_insert (items : List (String × Json)) : Steps GoesOn (Db.insert c items) :=
  goesOn_checkFault.bind fun _ => goesOn_evictExpired.bind fun _ =>
    (Operations.goesOn_insert items).bind fun _ => goesOn_evictOverflow.bind fun _ =>
      goesOn_resetExpiry

omit [Crates] in
theorem goesOn_deleteCollection : Steps GoesOn (Db.deleteCollection c) :=
  Operations.goesOn_deleteCollection.bind fun _ =>
    steps_modify fun _ => ⟨rfl, le_refl _, le_refl _⟩

end Db

end MoltenDB
