/-
  What a failed update request leaves behind.

  The documents of a request are updated one after the other, and nothing is rolled back: what
  was stored before the entry that failed stays, and so does the document of that entry if only
  the log refused it (`failed_update_iff`).
-/
import MoltenDB.Engine.Clock
import MoltenDB.Handlers.Rules
import MoltenDB.Proof.Locking

namespace MoltenDB

open Wire Prog Prog.Eff Operations SystemFields LogCommand

/-- What becomes of one entry of an update request. -/
inductive Fate
  /-- It fails before it stores anything. -/
  | refused
  /-- There is no document to update. -/
  | absent
  /-- These bytes are stored; it succeeds if they are `logged` as well. -/
  | stored (bytes : Bytes) (logged : Bool)
  deriving DecidableEq

def Fate.Succeeds : Fate → Prop
  | refused => False
  | absent => True
  | stored _ logged => logged = true

/-- The bytes that are stored, whether they are logged or not. -/
def Fate.bytes : Fate → Option Bytes
  | stored bytes _ => some bytes
  | _ => none

/-- The clock is read for the time of a merge. -/
def mergeTicks (bytes : Option Bytes) (value : Json) : ℕ :=
  if ((bytes.bind msgpackToValue).any Json.isObject) && value.isObject then 1 else 0

namespace Db

/-- The fate of an entry: it depends on the document, the schema and the mode of the database, and
    on what the world answers. -/
def fate (db : Db) (c : String) (item : String × Json) : Fate :=
  if hasReserved ["_v"] item.2 || db.ioFault || (db.storageAnswer 0).isSome then .refused
  else
    match (db.bytes c item.1).map fun bytes =>
      lookUp (db.accepts c) bytes item.2 (db.world.clock (db.tick + 3)) with
    | some (.error _) => .refused
    | some (.ok (some v)) =>
      let n := db.tick + mergeTicks (db.bytes c item.1) item.2
      .stored (valueToMsgpack v) ((db.world.fault (n + 4)).isNone && (db.world.fault (n + 6)).isNone)
    | _ => if (db.storageAnswer 1).isSome then .refused else .absent

/-- The ticks that an entry takes if it succeeds. -/
def ticks (db : Db) (c : String) (item : String × Json) : ℕ :=
  match db.fate c item with
  | .stored _ _ => 7 + mergeTicks (db.bytes c item.1) item.2
  | _ => 5

/-- The entries of a request with their fates, up to the first that fails. -/
def fates (c : String) : Db → List (String × Json) → List ((String × Json) × Fate)
  | _, [] => []
  | db, item :: items =>
    (item, db.fate c item) ::
      match db.fate c item with
      | .absent | .stored _ true => fates c { db with tick := db.tick + db.ticks c item } items
      | .refused | .stored _ false => []

/-- All entries succeed, or what is stored up to the first that fails is what was there. -/
def Harmless (db : Db) (c : String) (items : List (String × Json)) : Prop :=
  (∀ p ∈ fates c db items, p.2.Succeeds) ∨
    ∀ p ∈ fates c db items, ∀ bytes, p.2.bytes = some bytes → db.bytes c p.1.1 = some bytes

/-- What the fate of an entry depends on is the same. -/
structure SameFor (c k : String) (db db' : Db) : Prop where
  schemas : db'.schemas = db.schemas
  ioFault : db'.ioFault = db.ioFault
  world : db'.world = db.world
  bytes : db'.bytes c k = db.bytes c k

theorem SameFor.fate {db db' : Db} {c : String} {item : String × Json} (h : SameFor c item.1 db db')
    (htick : db'.tick = db.tick) : db'.fate c item = db.fate c item := by
  have haccepts : db'.accepts c = db.accepts c := by
    funext doc
    rw [accepts, accepts, h.schemas]
  rw [Db.fate, Db.fate, storageAnswer, storageAnswer, storageAnswer, storageAnswer, h.world, htick,
    h.ioFault, h.bytes, haccepts]

theorem fates_congr {db db' : Db} {c : String} {items : List (String × Json)}
    (htick : db'.tick = db.tick) (h : ∀ item ∈ items, SameFor c item.1 db db') :
    fates c db' items = fates c db items := by
  induction items generalizing db db' with
  | nil => rfl
  | cons item items ih =>
    have hitem := h item List.mem_cons_self
    have hfate := hitem.fate htick
    have hticks : db'.ticks c item = db.ticks c item := by
      rw [ticks, ticks, hfate, hitem.bytes]
    have hrest : fates c { db' with tick := db'.tick + db'.ticks c item } items =
        fates c { db with tick := db.tick + db.ticks c item } items := by
      refine ih (by rw [htick, hticks]) fun item' hitem' => ?_
      obtain ⟨hschemas, hfault, hworld, hbytes⟩ := h item' (List.mem_cons_of_mem _ hitem')
      exact ⟨hschemas, hfault, hworld, hbytes⟩
    rw [fates, fates, hfate, hrest]

end Db

/-! ## One entry -/

/-- What an entry leaves whose fate is `f`. -/
structure Db.Met (c : String) (item : String × Json) (f : Fate) (db db' : Db) : Prop where
  schemas : db'.schemas = db.schemas
  ioFault : db'.ioFault = db.ioFault
  world : db'.world = db.world
  others : ∀ c' k', ¬(c' = c ∧ k' = item.1) → db'.bytes c' k' = db.bytes c' k'
  here : db'.bytes c item.1 = f.bytes.or (db.bytes c item.1)

section

variable {c : String} {item : String × Json}

/-- The value is stored under the key, and nothing else changes but the log. -/
structure Db.Stores (c k : String) (v : Json) (db db' : Db) : Prop where
  schemas : db'.schemas = db.schemas
  ioFault : db'.ioFault = db.ioFault
  world : db'.world = db.world
  bytes : ∀ c' k', db'.bytes c' k' =
    if c' = c ∧ k' = k then some (valueToMsgpack v) else db.bytes c' k'

/-- The second half of an update: a value that is accepted is stored, whether its entries are
    logged or not. -/
theorem wp_storeUpdate_faults (c k id : String) (v : Json) (db : Db) :
    wp (storeUpdate c k id v)
      (fun _ db' => db.accepts c v = true ∧ db.Stores c k v db' ∧
        db.world.fault (db.tick + 1) = none ∧ db.world.fault (db.tick + 3) = none ∧
          db'.tick = db.tick + 4)
      (fun _ db' => db.accepts c v = false ∧ db' = db ∨ db.accepts c v = true ∧
        db.Stores c k v db' ∧
          ¬(db.world.fault (db.tick + 1) = none ∧ db.world.fault (db.tick + 3) = none)) db := by
  have hput : ∀ c' k', State.bytes (db.state.alter c fun col =>
      some ((col.getD ∅).insert k (valueToMsgpack v))) c' k' =
        if c' = c ∧ k' = k then some (valueToMsgpack v) else db.bytes c' k' := fun c' k' =>
    bytes_put db.state c k c' k' (valueToMsgpack v)
  simp only [storeUpdate, storeDoc, wp_bind, wp_modify, wp_send]
  refine wp_validateDocument_accepts (fun hvalid => ?_) fun hvalid => Or.inl ⟨hvalid, rfl⟩
  refine wp_writeNew_fault (fun hinsert _ => ?_) fun e hinsert =>
    Or.inr ⟨hvalid, ⟨rfl, rfl, rfl, hput⟩, ?_⟩
  · refine wp_writeNew_fault (fun hcommit _ => ⟨hvalid, ⟨rfl, rfl, rfl, hput⟩, hinsert, hcommit, rfl⟩)
      fun e hcommit => Or.inr ⟨hvalid, ⟨rfl, rfl, rfl, hput⟩, ?_⟩
    rintro ⟨-, hnone⟩
    exact absurd (hcommit.symm.trans hnone) (Option.some_ne_none e)
  · rintro ⟨hnone, -⟩
    exact absurd (hinsert.symm.trans hnone) (Option.some_ne_none e)

/-- The transaction of an update has begun. -/
structure Db.Begun (db d : Db) : Prop where
  state : d.state = db.state
  schemas : d.schemas = db.schemas
  ioFault : d.ioFault = db.ioFault
  world : d.world = db.world
  tick : d.tick = db.tick + 3

theorem Db.Begun.bytes {db d : Db} (h : db.Begun d) (c k : String) : d.bytes c k = db.bytes c k := by
  rw [Db.bytes, h.state, Db.bytes]

theorem Db.Begun.accepts {db d : Db} (h : db.Begun d) : d.accepts c = db.accepts c := by
  funext doc
  rw [Db.accepts, h.schemas, Db.accepts]

/-- An entry that is refused leaves the documents alone. -/
theorem Db.met_refused {db db' : Db} (hfate : db.fate c item = .refused)
    (hschemas : db'.schemas = db.schemas) (hmode : db'.ioFault = db.ioFault)
    (hworld : db'.world = db.world) (hstate : db'.state = db.state) :
    ¬ (db.fate c item).Succeeds ∧ db.Met c item (db.fate c item) db' := by
  rw [hfate]
  refine ⟨id, hschemas, hmode, hworld, fun c' k' _ => ?_, ?_⟩
  · rw [Db.bytes, hstate, Db.bytes]
  · rw [Db.bytes, hstate]
    rfl

/-- The end of an update that finds no document. -/
theorem Db.Begun.wp_absent {db d : Db} (h : db.Begun d) {id : String}
    (hfate : db.fate c item = if (db.storageAnswer 1).isSome then .refused else .absent) :
    wp (do
        writeNew IKEY_TX_COMMIT c id .null
        return false)
      (fun _ db' => (db.fate c item).Succeeds ∧ db.Met c item (db.fate c item) db' ∧
        db'.tick = db.tick + db.ticks c item)
      (fun _ db' => ¬ (db.fate c item).Succeeds ∧ db.Met c item (db.fate c item) db') d := by
  have hcommit : db.storageAnswer 1 = d.world.fault (d.tick + 1) := by
    rw [Db.storageAnswer, h.world, h.tick]
  simp only [wp_bind, wp_pure]
  refine wp_writeNew_fault (fun hok t => ?_) fun e herror => ?_
  · rw [hcommit, hok] at hfate
    rw [hfate]
    refine ⟨trivial, ⟨h.schemas, h.ioFault, h.world, fun c' k' _ => h.bytes c' k', h.bytes c item.1⟩, ?_⟩
    rw [Db.ticks, hfate]
    change d.tick + 2 = _
    rw [h.tick]
    rfl
  · rw [hcommit, herror] at hfate
    exact Db.met_refused hfate h.schemas h.ioFault h.world h.state

/-- The end of an update that has merged the document, `n` clock readings later. -/
theorem Db.wp_storeMerged {db d : Db} (hstate : d.state = db.state) (hschemas : d.schemas = db.schemas)
    (hmode : d.ioFault = db.ioFault) (hworld : d.world = db.world) {bytes : Bytes}
    (hbytes : db.bytes c item.1 = some bytes)
    (htick : d.tick = db.tick + 3 + mergeTicks (some bytes) item.2) {id : String} {v : Json}
    (hfate : db.fate c item =
      let n := db.tick + mergeTicks (some bytes) item.2
      if db.accepts c v then
        .stored (valueToMsgpack v) ((db.world.fault (n + 4)).isNone && (db.world.fault (n + 6)).isNone)
      else .refused) :
    wp (storeUpdate c item.1 id v)
      (fun _ db' => (db.fate c item).Succeeds ∧ db.Met c item (db.fate c item) db' ∧
        db'.tick = db.tick + db.ticks c item)
      (fun _ db' => ¬ (db.fate c item).Succeeds ∧ db.Met c item (db.fate c item) db') d := by
  dsimp only at hfate
  have haccepts : d.accepts c v = db.accepts c v := by rw [Db.accepts, hschemas, Db.accepts]
  have hmet : ∀ db' logged, db.fate c item = .stored (valueToMsgpack v) logged →
      d.Stores c item.1 v db' → db.Met c item (db.fate c item) db' := by
    intro db' logged hstored hs
    have hb : ∀ c' k', d.bytes c' k' = db.bytes c' k' := fun c' k' => by
      rw [Db.bytes, hstate, Db.bytes]
    refine ⟨hs.schemas.trans hschemas, hs.ioFault.trans hmode, hs.world.trans hworld,
      fun c' k' hne => ?_, ?_⟩
    · rw [hs.bytes, if_neg hne, hb]
    · rw [hs.bytes, if_pos ⟨rfl, rfl⟩, hstored]
      rfl
  have hinsert : d.world.fault (d.tick + 1) =
      db.world.fault (db.tick + mergeTicks (some bytes) item.2 + 4) := by
    rw [hworld, htick]
    congr 1
    omega
  have hcommit : d.world.fault (d.tick + 3) =
      db.world.fault (db.tick + mergeTicks (some bytes) item.2 + 6) := by
    rw [hworld, htick]
    congr 1
    omega
  refine wp_mono (wp_storeUpdate_faults c item.1 id v d) (fun _ db' h => ?_) fun _ db' h => ?_
  · obtain ⟨hvalid, hstores, hi, hc, hend⟩ := h
    rw [haccepts] at hvalid
    rw [hinsert] at hi
    rw [hcommit] at hc
    rw [if_pos hvalid] at hfate
    simp only [hi, hc, Option.isNone_none, Bool.and_self] at hfate
    refine ⟨by rw [hfate, Fate.Succeeds], hmet db' true hfate hstores, ?_⟩
    rw [Db.ticks, hfate, hbytes, hend, htick]
    dsimp only
    omega
  · rcases h with ⟨hvalid, rfl⟩ | ⟨hvalid, hstores, hfault⟩
    · rw [haccepts] at hvalid
      rw [if_neg (by simp [hvalid])] at hfate
      exact Db.met_refused hfate hschemas hmode hworld hstate
    · rw [haccepts] at hvalid
      rw [hinsert, hcommit] at hfault
      rw [if_pos hvalid] at hfate
      refine ⟨?_, hmet db' _ hfate hstores⟩
      rw [hfate, Fate.Succeeds, Bool.and_eq_true, Option.isNone_iff_eq_none,
        Option.isNone_iff_eq_none]
      exact hfault

/-- The end of an update that finds a document. -/
theorem Db.Begun.wp_found {db d : Db} (h : db.Begun d) {id : String} {bytes : Bytes} {doc : Json}
    (hbytes : db.bytes c item.1 = some bytes) (hdoc : msgpackToValue bytes = some doc)
    (hfate : db.fate c item =
      match lookUp (db.accepts c) bytes item.2 (db.world.clock (db.tick + 3)) with
      | .error _ => .refused
      | .ok (some v) =>
        let n := db.tick + mergeTicks (some bytes) item.2
        .stored (valueToMsgpack v) ((db.world.fault (n + 4)).isNone && (db.world.fault (n + 6)).isNone)
      | .ok none => .absent) :
    wp (do
        let newValue ← mergeUpdate doc item.2
        storeUpdate c item.1 id newValue
        return true)
      (fun _ db' => (db.fate c item).Succeeds ∧ db.Met c item (db.fate c item) db' ∧
        db'.tick = db.tick + db.ticks c item)
      (fun _ db' => ¬ (db.fate c item).Succeeds ∧ db.Met c item (db.fate c item) db') d := by
  have hticks : mergeTicks (some bytes) item.2 = if doc.isObject && item.2.isObject then 1 else 0 := by
    rw [mergeTicks, Option.bind_some, hdoc, Option.any_some]
  have hlook : ∀ valid : Json → Bool, lookUp valid bytes item.2 (db.world.clock (db.tick + 3)) =
      if guardHolds doc item.2 then
        if valid (mergeAt doc item.2 (db.world.clock (db.tick + 3))) then
          .ok (some (mergeAt doc item.2 (db.world.clock (db.tick + 3))))
        else .error (.schemaValidationError "Document does not conform to schema")
      else .error .conflict := by
    intro valid
    rw [lookUp, hdoc]
  rw [hlook] at hfate
  simp only [wp_bind, wp_pure]
  refine wp_mergeAt_tick (fun hholds => ?_) fun hholds => ?_
  · rw [h.world, h.tick, ← hticks]
    rw [if_pos hholds] at hfate
    generalize mergeAt doc item.2 (db.world.clock (db.tick + 3)) = v at hfate ⊢
    refine Db.wp_storeMerged ?_ ?_ ?_ ?_ hbytes ?_ ?_
    · exact h.state
    · exact h.schemas
    · exact h.ioFault
    · rfl
    · rfl
    · rw [hfate]
      cases db.accepts c v <;> rfl
  · rw [if_neg (by simp [hholds])] at hfate
    exact Db.met_refused hfate h.schemas h.ioFault h.world h.state

/-- **One update** does what its fate says. -/
theorem wp_update_met (db : Db) (hres : hasReserved ["_v"] item.2 = false) :
    wp (Db.update c item.1 item.2)
      (fun _ db' => (db.fate c item).Succeeds ∧ db.Met c item (db.fate c item) db' ∧
        db'.tick = db.tick + db.ticks c item)
      (fun _ db' => ¬ (db.fate c item).Succeeds ∧ db.Met c item (db.fate c item) db') db := by
  simp only [Db.update, Operations.update, wp_bind, wp_get]
  refine wp_checkFault_mode (fun hmode => ?_) fun hmode _ =>
    Db.met_refused (by simp [Db.fate, hmode]) rfl rfl rfl rfl
  change wp (writeNew _ _ _ _) _ _ { db with tick := db.tick + 1 }
  refine wp_writeNew_fault (fun hbegin t => ?_) fun e hbegin =>
    Db.met_refused (by simp [Db.fate, show db.storageAnswer 0 = some e from hbegin]) rfl rfl rfl rfl
  have hfate := Db.fate.eq_def db c item
  rw [hres, hmode, show db.storageAnswer 0 = none from hbegin, if_neg (by decide)] at hfate
  -- the database after `TX_BEGIN`
  generalize hd : Db.mk _ _ _ _ _ _ _ _ _ _ _ _ _ = d
  have h : db.Begun d := by
    subst hd
    exact ⟨rfl, rfl, rfl, rfl, rfl⟩
  rw [h.bytes]
  cases hbytes : db.bytes c item.1 with
  | none =>
    rw [hbytes] at hfate
    exact h.wp_absent hfate
  | some bytes =>
    rw [hbytes] at hfate
    rw [Option.bind_some]
    cases hdoc : msgpackToValue bytes with
    | none =>
      refine h.wp_absent (hfate.trans ?_)
      simp [lookUp, hdoc]
    | some doc =>
      refine h.wp_found hbytes hdoc (hfate.trans ?_)
      simp only [Option.map_some, lookUp, hdoc]
      split_ifs <;> rfl

/-! ## Requests -/

/-- What a request leaves whose entries have the given fates. -/
structure Db.Answered (c : String) (fates : List ((String × Json) × Fate)) (r : Response)
    (db db' : Db) : Prop where
  status : r.1 = 200 ↔ ∀ p ∈ fates, p.2.Succeeds
  stored : ∀ p ∈ fates, ∀ bytes, p.2.bytes = some bytes → db'.bytes c p.1.1 = some bytes
  others : ∀ c' k', (∀ p ∈ fates, c' = c ∧ k' = p.1.1 → p.2.bytes = none) →
    db'.bytes c' k' = db.bytes c' k'

/-- The fates of a request are of its own entries. -/
theorem Db.mem_fates {db : Db} {items : List (String × Json)} {p : (String × Json) × Fate}
    (h : p ∈ Db.fates c db items) : p.1 ∈ items := by
  induction items generalizing db with
  | nil => cases h
  | cons item items ih =>
    rw [Db.fates] at h
    rcases List.mem_cons.1 h with rfl | h
    · exact List.mem_cons_self
    · refine List.mem_cons_of_mem _ ?_
      split at h
      · exact ih h
      · exact ih h
      · cases h
      · cases h

/-- The fates of a request whose first entry succeeds. -/
theorem Db.fates_cons {db : Db} {items : List (String × Json)} (h : (db.fate c item).Succeeds) :
    Db.fates c db (item :: items) = (item, db.fate c item) ::
      Db.fates c { db with tick := db.tick + db.ticks c item } items := by
  rw [Db.fates]
  congr 1
  cases hfate : db.fate c item with
  | refused =>
    rw [hfate] at h
    exact h.elim
  | absent => rfl
  | stored bytes logged =>
    rw [hfate] at h
    rw [show logged = true from h]

theorem Db.fates_cons_failed {db : Db} {items : List (String × Json)}
    (h : ¬ (db.fate c item).Succeeds) : Db.fates c db (item :: items) = [(item, db.fate c item)] := by
  rw [Db.fates]
  congr 1
  cases hfate : db.fate c item with
  | refused => rfl
  | absent =>
    rw [hfate] at h
    exact absurd trivial h
  | stored bytes logged =>
    rw [hfate, Fate.Succeeds, Bool.not_eq_true] at h
    rw [h]

theorem wp_updateItems_fates {items : List (String × Json)} (hnodup : (items.map Prod.fst).Nodup)
    (n : ℕ) (db : Db) :
    wp (updateItems c n items) (fun r => db.Answered c (Db.fates c db items) r) (fun _ _ => False)
      db := by
  induction items generalizing n db with
  | nil => exact ⟨iff_of_true rfl (List.forall_mem_nil _), List.forall_mem_nil _, fun _ _ _ => rfl⟩
  | cons item items ih =>
    rw [List.map_cons, List.nodup_cons] at hnodup
    have hfailed : ∀ (r : Response) (db' : Db), r.1 ≠ 200 → ¬ (db.fate c item).Succeeds →
        db.Met c item (db.fate c item) db' →
        db.Answered c (Db.fates c db (item :: items)) r db' := by
      intro r db' hr hfate hmet
      rw [Db.fates_cons_failed hfate]
      refine ⟨iff_of_false hr fun h => hfate (h _ (List.mem_singleton.2 rfl)), ?_, ?_⟩
      · intro p hp bytes hbytes
        obtain rfl := List.mem_singleton.1 hp
        rw [hmet.here, hbytes, Option.some_or]
      · intro c' k' hout
        by_cases hk : c' = c ∧ k' = item.1
        · rw [hk.1, hk.2, hmet.here, hout _ (List.mem_singleton.2 rfl) hk, Option.none_or]
        · exact hmet.others c' k' hk
    refine wp_updateItems_cons (fun hres r hr => ?_) fun hplain => ?_
    · have hfate : db.fate c item = .refused := by
        rw [Db.fate, hres]
        rfl
      obtain ⟨hnot, hmet⟩ := Db.met_refused hfate rfl rfl rfl rfl
      exact hfailed _ db hr hnot hmet
    refine wp_mono (wp_update_met db hplain) (fun _ db₁ h₁ n => ?_)
      fun _ db₁ h₁ _ hr => hfailed _ db₁ hr h₁.1 h₁.2
    obtain ⟨hfate, hmet, htick⟩ := h₁
    have hne : ∀ p ∈ items, p.1 ≠ item.1 := fun p hp heq =>
      hnodup.1 (List.mem_map.2 ⟨p, hp, heq⟩)
    have hsame : Db.fates c db₁ items =
        Db.fates c { db with tick := db.tick + db.ticks c item } items := by
      refine Db.fates_congr htick fun p hp => ⟨hmet.schemas, hmet.ioFault, hmet.world, ?_⟩
      exact hmet.others c p.1 fun h => hne p hp h.2
    refine wp_mono (ih hnodup.2 n db₁) (fun r db₂ h₂ => ?_) fun _ _ h => h
    rw [hsame] at h₂
    rw [Db.fates_cons hfate]
    obtain ⟨hstatus, hstored, hothers⟩ := h₂
    have hkept : db₂.bytes c item.1 = db₁.bytes c item.1 :=
      hothers c item.1 fun p hp h => absurd h.2.symm (hne p.1 (Db.mem_fates hp))
    refine ⟨?_, fun p hp bytes hbytes => ?_, fun c' k' hout => ?_⟩
    · rw [List.forall_mem_cons, hstatus]
      exact (and_iff_right hfate).symm
    · rcases List.mem_cons.1 hp with rfl | hp
      · rw [hkept, hmet.here, hbytes, Option.some_or]
      · exact hstored p hp bytes hbytes
    · rw [List.forall_mem_cons] at hout
      rw [hothers c' k' hout.2]
      by_cases hk : c' = c ∧ k' = item.1
      · rw [hk.1, hk.2, hmet.here, hout.1 hk, Option.none_or]
      · exact hmet.others c' k' hk

end

section

variable [FloatText]

/-- The documents are all as they were, if the request is answered with an error. -/
def UpdateHarmless (payload : Json) (maxBodySize maxKeysPerRequest : ℕ) (db : Db) : Prop :=
  ∀ r db', processUpdate payload maxBodySize maxKeysPerRequest db = (.ok r, db') → r.1 ≠ 200 →
    ∀ c k, db'.bytes c k = db.bytes c k

/-- **A failed update request changes nothing**, exactly if all its entries succeed or none, up
    to the first that fails, stores anything else than what was there. -/
theorem failed_update_iff {payload : Json} {maxBodySize maxKeysPerRequest : ℕ} {db : Db}
    (hnodup : ∀ data, (payload.field .data).bind Json.asObject = some data →
      (data.map Prod.fst).Nodup) :
    UpdateHarmless payload maxBodySize maxKeysPerRequest db ↔
      (validateAllowedProperties payload UPDATE_ALLOWED = .ok () →
        validateRequest payload maxBodySize maxKeysPerRequest = .ok () →
          ∀ data, (payload.field .data).bind Json.asObject = some data →
            db.Harmless ((namedCollection payload).getD "default") data) := by
  have hrun : wp (processUpdate payload maxBodySize maxKeysPerRequest)
      (fun r db' => (r.1 ≠ 200 → ∀ c k, db'.bytes c k = db.bytes c k) ↔
        (validateAllowedProperties payload UPDATE_ALLOWED = .ok () →
          validateRequest payload maxBodySize maxKeysPerRequest = .ok () →
            ∀ data, (payload.field .data).bind Json.asObject = some data →
              db.Harmless ((namedCollection payload).getD "default") data))
      (fun _ _ => False) db := by
    rw [processUpdate]
    cases hallowed : validateAllowedProperties payload UPDATE_ALLOWED with
    | error e => exact iff_of_true (fun _ _ _ => rfl) fun h => by cases h
    | ok u =>
      cases hvalid : validateRequest payload maxBodySize maxKeysPerRequest with
      | error e => exact iff_of_true (fun _ _ _ => rfl) fun _ h => by cases h
      | ok u' =>
        cases hdata : (payload.field .data).bind Json.asObject with
        | none => exact iff_of_true (fun _ _ _ => rfl) fun _ _ _ h => by cases h
        | some data =>
          refine wp_mono (wp_updateItems_fates (hnodup data hdata) 0 db) (fun r db' h => ?_)
            fun _ _ h => h
          obtain ⟨hstatus, hstored, hothers⟩ := h
          constructor
          · rintro hsame - - data' hdata'
            obtain rfl := Option.some.inj hdata'
            by_cases hok : r.1 = 200
            · exact Or.inl (hstatus.1 hok)
            · refine Or.inr fun p hp bytes hbytes => ?_
              rw [← hsame hok]
              exact hstored p hp bytes hbytes
          · rintro hharmless hfailed c k
            rcases hharmless rfl rfl data rfl with hall | hkept
            · exact absurd (hstatus.2 hall) hfailed
            · by_cases hk : ∃ p ∈ Db.fates ((namedCollection payload).getD "default") db data,
                  (c = (namedCollection payload).getD "default" ∧ k = p.1.1) ∧ p.2.bytes ≠ none
              · obtain ⟨p, hp, ⟨rfl, rfl⟩, hsome⟩ := hk
                obtain ⟨bytes, hbytes⟩ := Option.ne_none_iff_exists'.1 hsome
                rw [hstored p hp bytes hbytes, hkept p hp bytes hbytes]
              · push Not at hk
                exact hothers c k hk
  constructor
  · intro h
    cases hout : processUpdate payload maxBodySize maxKeysPerRequest db with
    | mk out db' =>
      cases out with
      | error e => exact (wp_of_error hrun hout).elim
      | ok r => exact (wp_of_ok hrun hout).1 (h r db' hout)
  · intro h r db' hout
    exact (wp_of_ok hrun hout).2 h

end

/-- A database whose collection `c` holds the document `a`. -/
def oneKeyDb : Db :=
  { Db.blank (World.plain 1000 []) 0 with
    state := (∅ : State).insert "c" ((∅ : DashMap Bytes).insert "a" (valueToMsgpack (.obj []))) }

/-- An update of the document `a` and then of `b`. -/
def updateTwo (a b : Json) : Json :=
  .obj [("collection", .str "c"), ("data", .obj [("a", a), ("b", b)])]

/-- The document `a` is not at the version that the update asks for. -/
theorem failed_update_iff_conflict :
    letI := FloatText.plain
    UpdateHarmless (updateTwo (.obj [("_v", .ofU64 7)]) (.obj [("x", .ofU64 1)])) 1000 10 oneKeyDb := by
  let _ := FloatText.plain
  have hdata : ((updateTwo (.obj [("_v", .ofU64 7)]) (.obj [("x", .ofU64 1)])).field .data).bind
      Json.asObject = some [("a", .obj [("_v", .ofU64 7)]), ("b", .obj [("x", .ofU64 1)])] := rfl
  refine (failed_update_iff fun data h => ?_).2 fun _ _ data h => Or.inr fun p hp bytes hbytes => ?_
  · obtain rfl := Option.some.inj (hdata.symm.trans h)
    decide
  · obtain rfl := Option.some.inj (hdata.symm.trans h)
    have hfates : Db.fates "c" oneKeyDb [("a", .obj [("_v", .ofU64 7)]), ("b", .obj [("x", .ofU64 1)])] =
        [(("a", .obj [("_v", .ofU64 7)]), .refused)] := by
      decide +kernel
    have hcol : (namedCollection (updateTwo (.obj [("_v", .ofU64 7)])
        (.obj [("x", .ofU64 1)]))).getD "default" = "c" := rfl
    rw [hcol, hfates] at hp
    rw [List.mem_singleton.1 hp] at hbytes
    cases hbytes

/-- **What was updated before the entry that fails stays updated**: here the second entry has a
    reserved field. -/
theorem first_entry_stays :
    letI := FloatText.plain
    let r := processUpdate (updateTwo (.obj [("x", .ofU64 1)]) (.obj [("_x", .ofU64 1)])) 1000 10 oneKeyDb
    r.1.toOption.map Prod.fst = some 400 ∧ r.2.bytes "c" "a" ≠ oneKeyDb.bytes "c" "a" := by
  decide +kernel

end MoltenDB
