/-
  The change feed mirrors the database.

  A subscriber that folds the change events keeps the version of each key (`Feed`).  As long
  as no write fails these are the versions of the stored documents (`Db.Mirrored`), if the
  calls meet a condition (`Reported`): no key is `*`, which in an event stands for all keys,
  no inserted document brings a version of its own, and an update is an object.
-/
import MoltenDB.Common.SystemViews
import MoltenDB.Lib.Runs
import MoltenDB.Proof.Durability

namespace MoltenDB

open Wire Prog Prog.Eff SystemFields LogCommand Operations

/-! ## Subscribers -/

/-- The versions that a subscriber keeps, by collection and key. -/
abbrev Feed := String → String → Option UInt64

namespace Feed

/-- A change of one key to a version or to nothing, or of all keys to nothing. -/
def change (feed : Feed) (collection key : String) (newV : Json) : Feed := fun c k =>
  if c = collection then
    if key = "*" then none else if k = key then newV.asU64 else feed c k
  else feed c k

/-- What a subscriber makes of an event. -/
def apply (feed : Feed) (event : Json) : Feed :=
  if event.get "event" = some (.str "change") then
    match (event.get "collection").bind Json.asStr, (event.get "key").bind Json.asStr,
      event.get "new_v" with
    | some collection, some key, some newV => feed.change collection key newV
    | _, _, _ => feed
  else feed

end Feed

/-- What a subscriber from the start keeps. -/
def Db.feed (db : Db) : Feed := db.events.foldl Feed.apply fun _ _ => none

/-- The version of what is stored under a key: 0 if it has none. -/
def Held.version (held : Option Json) : UInt64 :=
  (held.bind fun doc => fieldU64 doc IKEY_VERSION).getD 0

def storedVersion (bytes : Bytes) : UInt64 := Held.version (msgpackToValue bytes)

/-- What is stored under a key, decoded. -/
def Db.held (db : Db) (c k : String) : Held := (db.bytes c k).map msgpackToValue

/-- No entry of the index stands for the key `*`. -/
def Db.StarFree (db : Db) : Prop :=
  ∀ (c : String) (idx : Map UInt64 String) (seq : UInt64) (k : String),
    db.seqIndex[c]? = some idx → idx[seq]? = some k → k ≠ "*"

/-- The feed shows the stored versions, and nothing is kept under the key `*`. -/
structure Db.Mirror (db : Db) : Prop where
  feed : ∀ c k, db.feed c k = (db.held c k).map Held.version
  star : ∀ c, db.held c "*" = none
  canon : ∀ c k v, db.held c k = some (some v) → v.canon = v
  index : db.StarFree

/-- If no write failed and all lengths fit, the feed mirrors the database. -/
def Db.Mirrored (db : Db) : Prop := db.Clean → db.Mirror

/-! ## Events -/

theorem changeEvent_apply (feed : Feed) (c k : String) (newV : Json) :
    feed.apply (json [("event", .str "change"), ("collection", .str c), ("key", .str k),
      ("new_v", newV)]) = feed.change c k newV := by
  simp [Feed.apply, json, Fields.lookup_insertAll, List.lookup_cons, Json.asStr]

theorem insertEvent_apply (feed : Feed) (c k : String) (value : Json) :
    feed.apply (insertEvent c k value) =
      feed.change c k (.ofU64 ((fieldU64 value IKEY_VERSION).getD 0)) := by
  unfold insertEvent
  cases fieldU64 value IKEY_EXPIRES_AT with
  | none => exact changeEvent_apply ..
  | some exp =>
    simp [Feed.apply, json, Fields.lookup_insertAll, Fields.lookup_insert, List.lookup_cons,
      Json.asStr]

/-! ## One change at a time -/

theorem Db.Clean.of_grown {db db' : Db} {es : List LogEntry} (h : db'.Clean)
    (hlog : db'.log = db.log ++ es) (hf : db'.failedWrites = db.failedWrites) :
    db.Clean ∧ ∀ e ∈ es, e.Fits := by
  have hall : ∀ e ∈ db.log ++ es, e.Fits := hlog ▸ h.2
  exact ⟨⟨hf ▸ h.1, fun e he => hall e (List.mem_append_left _ he)⟩,
    fun e he => hall e (List.mem_append_right _ he)⟩

/-- What changes neither documents nor the feed keeps the mirror. -/
theorem Db.Mirrored.silent {db db' : Db} (h : db.Mirrored) {es : List LogEntry}
    (hlog : db'.log = db.log ++ es) (hf : db'.failedWrites = db.failedWrites)
    (hstate : ∀ c k, db'.bytes c k = db.bytes c k) (hfeed : db'.feed = db.feed)
    (hindex : db.StarFree → db'.StarFree) : db'.Mirrored := by
  intro hclean
  have hm := h (hclean.of_grown hlog hf).1
  have hheld : ∀ c k, db'.held c k = db.held c k := fun c k => by rw [Db.held, hstate, Db.held]
  refine ⟨fun c k => ?_, fun c => ?_, fun c k v hv => ?_, hindex hm.index⟩
  · rw [hheld, ← hm.feed, hfeed]
  · rw [hheld, hm.star]
  · exact hm.canon c k v (hheld c k ▸ hv)

/-- The event says what the change does to the versions. -/
def Change.AnnouncedBy (ch : Change) (event : Json) : Prop :=
  ∀ feed c k, Feed.apply feed event c k =
    ((ch.writes (.doc c k)).map fun held => held.map Held.version).getD (feed c k)

theorem announced_put {c k : String} {v newV : Json} (hk : k ≠ "*")
    (hv : newV.asU64 = some (Held.version (some v.canon))) {event : Json}
    (hevent : ∀ feed, Feed.apply feed event = feed.change c k newV) :
    (Change.put c k v).AnnouncedBy event := by
  intro feed c' k'
  rw [hevent, Feed.change, Change.writes, if_neg hk, hv]
  by_cases hc : c' = c <;> by_cases hk' : k' = k <;> simp [hc, hk']

theorem announced_remove {c k : String} (hk : k ≠ "*") {event : Json}
    (hevent : ∀ feed, Feed.apply feed event = feed.change c k .null) :
    (Change.remove c k).AnnouncedBy event := by
  intro feed c' k'
  rw [hevent, Feed.change, Change.writes, if_neg hk]
  by_cases hc : c' = c <;> by_cases hk' : k' = k <;> simp [hc, hk', Json.asU64]

theorem announced_drop {c : String} {event : Json}
    (hevent : ∀ feed, Feed.apply feed event = feed.change c "*" .null) :
    (Change.drop c).AnnouncedBy event := by
  intro feed c' k'
  rw [hevent, Feed.change, Change.writes, if_pos rfl]
  by_cases hc : c' = c <;> simp [hc]

/-- **A change that is logged and announced** keeps the mirror. -/
theorem Db.Mirrored.change {db db' : Db} (h : db.Mirrored) (ch : Change) (event : Json)
    {es : List LogEntry} (hlog : db'.log = db.log ++ es)
    (hf : db'.failedWrites = db.failedWrites)
    (hstate : db'.state = (Recovered.apply ⟨db.state, ∅, ∅⟩ ch).state)
    (hevents : db'.events = db.events ++ [event]) (hannounced : ch.AnnouncedBy event)
    (hfits : (∀ e ∈ es, e.Fits) → ch.Fits)
    (hstar : ∀ c held, ch.writes (.doc c "*") = some held → held = none)
    (hindex : db.StarFree → db'.StarFree) : db'.Mirrored := by
  intro hclean
  obtain ⟨hdb, hes⟩ := hclean.of_grown hlog hf
  have hm := h hdb
  have hheld : ∀ c k, db'.held c k = (ch.writes (.doc c k)).getD (db.held c k) := by
    intro c k
    have hview := congrFun (view_apply ⟨db.state, ∅, ∅⟩ (hfits hes)) (.doc c k)
    simp only [Recovered.view, Overwrite.apply, ← hstate] at hview
    exact hview
  refine ⟨fun c k => ?_, fun c => ?_, fun c k v hv => ?_, hindex hm.index⟩
  · rw [Db.feed, hevents, List.foldl_append, List.foldl_cons, List.foldl_nil, hannounced, hheld]
    cases ch.writes (.doc c k) with
    | none => exact hm.feed c k
    | some held => rfl
  · rw [hheld]
    cases hw : ch.writes (.doc c "*") with
    | none => exact hm.star c
    | some held => rw [hstar c held hw]; rfl
  · rw [hheld] at hv
    cases hw : ch.writes (.doc c k) with
    | none =>
      rw [hw] at hv
      exact hm.canon c k v hv
    | some held =>
      rw [hw, Option.getD_some] at hv
      subst hv
      -- only a put writes a document, in its decoded form
      cases ch <;> simp [Change.writes] at hw
      obtain ⟨-, rfl⟩ := hw
      exact Json.canon_canon _

/-! ## The operations -/

theorem mirrored_of_failed {db : Db} {n tick : ℕ} :
    Db.Mirrored { db with failedWrites := n + 1, tick := tick } := fun hc =>
  absurd hc not_clean_of_failed

theorem Db.Mirrored.tick {db : Db} (h : db.Mirrored) (n : ℕ) :
    Db.Mirrored { db with tick := n } :=
  h.silent (List.append_nil _).symm rfl (fun _ _ => rfl) rfl id

/-- Entries that are logged alone are silent. -/
theorem Db.Mirrored.wp_logged {db : Db} (h : db.Mirrored) (cmd c k : String) (v : Json) :
    wp (writeNew cmd c k v) (fun _ => Db.Mirrored) (fun _ => Db.Mirrored) db := by
  refine wp_writeNew (fun t n => ?_) (fun _ _ => mirrored_of_failed)
  have hlog : db.log ++ [⟨cmd, c, k, v, t⟩] = db.log ++ [⟨cmd, c, k, v, t⟩] := rfl
  exact h.silent hlog rfl (fun _ _ => rfl) rfl id

theorem Db.StarFree.insert {db db' : Db} {c k : String} {seq : UInt64} (h : db.StarFree)
    (hk : k ≠ "*")
    (hindex : db'.seqIndex = db.seqIndex.alter c fun idx => some ((idx.getD ∅).insert seq k)) :
    db'.StarFree := by
  intro c' idx seq' k' hidx hk'
  rw [hindex, Map.get?_alter] at hidx
  split_ifs at hidx with hc
  · obtain rfl := Option.some.inj hidx
    rw [Map.get?_insert] at hk'
    split_ifs at hk' with hseq
    · obtain rfl := Option.some.inj hk'
      exact hk
    · cases hold : db.seqIndex[c]? with
      | none => simp [hold] at hk'
      | some idx => exact h c idx seq' k' hold (by simpa [hold] using hk')
  · exact h c' idx seq' k' hidx hk'

theorem Db.StarFree.erase {db db' : Db} {c : String} {seq : UInt64} (h : db.StarFree)
    (hindex : db'.seqIndex = db.seqIndex.alter c fun idx => idx.map fun idx => idx.erase seq) :
    db'.StarFree := by
  intro c' idx seq' k' hidx hk'
  rw [hindex, Map.get?_alter] at hidx
  split_ifs at hidx with hc
  · obtain ⟨idx', hold, rfl⟩ := Option.map_eq_some_iff.1 hidx
    rw [Map.get?_erase] at hk'
    split_ifs at hk'
    exact h c idx' seq' k' hold hk'
  · exact h c' idx seq' k' hidx hk'

theorem Db.StarFree.drop {db db' : Db} {c : String} (h : db.StarFree)
    (hindex : db'.seqIndex = db.seqIndex.erase c) : db'.StarFree := by
  intro c' idx seq k hidx hk
  rw [hindex, Map.get?_erase] at hidx
  split_ifs at hidx
  exact h c' idx seq k hidx hk

/-- The version that is announced of a value is the one it is decoded with. -/
def Json.SameVersion (value : Json) : Prop :=
  (fieldU64 value IKEY_VERSION).getD 0 = Held.version (some value.canon)

/-- A value that is no object has no version. -/
theorem Json.sameVersion_of_not_object {value : Json} (h : value.isObject = false) :
    value.SameVersion := by
  cases value with
  | obj fs => cases h
  | arr xs => simp [SameVersion, Held.version, fieldU64, Json.get, canon_arr, asObject]
  | _ => rfl

/-- A value whose version is under one name is announced with it. -/
theorem Json.Holds.sameVersion {value : Json} {ver : UInt64}
    (h : value.Holds TOK_VERSION (.ofU64 ver)) (hget : value.get IKEY_VERSION = some (.ofU64 ver)) :
    value.SameVersion := by
  have hcanon := h.get_canon systemField_version
  rw [SameVersion, Held.version, Option.bind_some, fieldU64, fieldU64, hcanon, hget]
  rfl

/-- Stamping announces the version it sets, unless the value brings one. -/
theorem sameVersion_stamps {value : Json} (h : value.get VERSION = none) (ver created now seq : UInt64) :
    Json.SameVersion ((((value.set IKEY_VERSION (.ofU64 ver)).set IKEY_CREATED_AT
      (.ofU64 created)).set IKEY_MODIFIED_AT (.ofU64 now)).set IKEY_SEQ (.ofU64 seq)) := by
  cases hobj : value.isObject with
  | false => exact Json.sameVersion_of_not_object (by simp [hobj])
  | true =>
    refine Json.Holds.sameVersion (?_ : Json.Holds TOK_VERSION _ (.ofU64 ver)) ?_
    · have hset := systemField_version.holds_set hobj h (.ofU64 ver)
      exact ((hset.set (by decide) _).set (by decide) _).set (by decide) _
    · rw [Json.get_set (by simp [hobj]), Json.get_set (by simp [hobj]), Json.get_set (by simp [hobj]),
        Json.get_set hobj]
      rfl

/-- **Preparing a document** changes no state, and its version is announced. -/
theorem wp_prepare_sameVersion {db : Db} {c : String} {existing : Option Json} {value : Json}
    {now seq : UInt64} (h : value.get VERSION = none) :
    wp (prepare c existing value now seq) (fun value' db' => db' = db ∧ value'.SameVersion)
      (fun _ db' => db' = db) db := by
  refine wp_prepare (fun old _ => ⟨rfl, ?_⟩) (fun _ _ => ⟨rfl, ?_⟩) (fun _ hobj => ⟨rfl, ?_⟩) rfl
  · exact sameVersion_stamps h ..
  · exact sameVersion_stamps h ..
  · exact Json.sameVersion_of_not_object hobj

/-- An item whose key does not stand for all keys, and that brings no version. -/
def Reported.Item (item : String × Json) : Prop := item.1 ≠ "*" ∧ item.2.get VERSION = none

theorem Db.Mirrored.wp_insertItem {db : Db} (h : db.Mirrored) (c : String) {item : String × Json}
    (hitem : Reported.Item item) :
    wp (insertItem c item) (fun _ => Db.Mirrored) (fun _ => Db.Mirrored) db := by
  simp only [insertItem, nextSeq, wp_bind, wp_get, wp_modify, wp_pure]
  refine wp_nowMs fun now n => ?_
  generalize hdb₁ : Db.mk _ _ _ _ _ _ _ _ _ _ _ _ _ = db₁
  have h₁ : db₁.Mirrored := by
    subst hdb₁
    exact h.silent (List.append_nil _).symm rfl (fun _ _ => rfl) rfl id
  refine wp_mono (wp_prepare_sameVersion hitem.2) (fun value db₂ h₂ => ?_) (fun _ db₂ h₂ => h₂ ▸ h₁)
  obtain ⟨rfl, hver⟩ := h₂
  simp only [storeDoc, indexInsert, wp_modify, wp_send]
  refine wp_writeNew (fun t n => ?_) (fun _ _ => mirrored_of_failed)
  refine h₁.change (.put c item.1 value) (insertEvent c item.1 value) rfl rfl rfl rfl
    (announced_put hitem.1 ?_ fun feed => insertEvent_apply feed c item.1 value)
    (fun hes => (hes _ (List.mem_singleton.2 rfl)).value) ?_ ?_
  · rw [Json.asU64_ofU64, hver]
  · intro c' held hw
    simp [Change.writes, hitem.1.symm] at hw
  · exact fun hfree => hfree.insert hitem.1 rfl

/-- **An insert is announced**, item by item. -/
theorem Db.Mirrored.wp_insert {db : Db} (h : db.Mirrored) (c : String)
    {items : List (String × Json)} (hitems : ∀ item ∈ items, Reported.Item item) :
    wp (Operations.insert c items) (fun _ => Db.Mirrored) (fun _ => Db.Mirrored) db := by
  simp only [Operations.insert, wp_bind, wp_modify]
  refine wp_newUuid fun id n => ?_
  have h₁ : Db.Mirrored { db with
      state := db.state.alter c fun col => some (col.getD ∅), tick := n } :=
    h.silent (List.append_nil _).symm rfl (fun c' k' => bytes_touch db.state c c' k') rfl fun hf => hf
  refine wp_mono (h₁.wp_logged _ _ _ _) (fun _ db₂ h₂ => ?_) (fun _ _ h => h)
  have hloop := wp_forEach (f := insertItem c) (E := fun _ => Db.Mirrored)
    (fun rest db => db.Mirrored ∧ ∀ item ∈ rest, Reported.Item item)
    (fun item rest db hI => wp_mono (hI.1.wp_insertItem c (hI.2 item List.mem_cons_self))
      (fun _ _ h => ⟨h, fun i hi => hI.2 i (List.mem_cons_of_mem _ hi)⟩) (fun _ _ h => h))
    items db₂ ⟨h₂, hitems⟩
  exact wp_mono hloop (fun _ db₃ h₃ => h₃.1.wp_logged _ _ _ _) (fun _ _ h => h)

variable [Crates]

theorem Db.Mirrored.wp_deleteItem {db : Db} (h : db.Mirrored) (c : String) {k : String}
    (hk : k ≠ "*") :
    wp (deleteItem c k) (fun _ => Db.Mirrored) (fun _ => Db.Mirrored) db := by
  have hrest : ∀ db₁ : Db, db₁.Mirrored →
      wp (do
        removeDoc c k
        writeNew IKEY_DELETE c k .null
        send (json [("event", .str "change"), ("collection", .str c), ("key", .str k),
          ("new_v", .null)])) (fun _ => Db.Mirrored) (fun _ => Db.Mirrored) db₁ := by
    intro db₁ h₁
    simp only [removeDoc, wp_bind, wp_modify, wp_send]
    refine wp_writeNew (fun t n => ?_) (fun _ _ => mirrored_of_failed)
    refine h₁.change (.remove c k) _ rfl rfl rfl rfl
      (announced_remove hk fun feed => changeEvent_apply feed c k .null) (fun _ => trivial) ?_
      fun hf => hf
    intro c' held hw
    simp only [Change.writes] at hw
    split_ifs at hw
    exact (Option.some.inj hw).symm
  simp only [deleteItem, wp_bind, wp_get]
  cases db.bytes c k with
  | none => simpa only [wp_bind, wp_pure] using hrest db h
  | some bytes =>
    have h₁ : Db.Mirrored { db with
        seqIndex := db.seqIndex.alter c fun idx => idx.map fun idx =>
          idx.erase (readMsgpackSeqToken bytes) } :=
      h.silent (List.append_nil _).symm rfl (fun _ _ => rfl) rfl fun hf => hf.erase rfl
    simpa only [wp_bind, indexRemove, wp_modify] using hrest _ h₁

/-- **A delete is announced**, key by key. -/
theorem Db.Mirrored.wp_delete {db : Db} (h : db.Mirrored) {c : String} {keys : List String}
    (hkeys : (db.col c).isSome → "*" ∉ keys) :
    wp (Operations.delete c keys) (fun _ => Db.Mirrored) (fun _ => Db.Mirrored) db := by
  simp only [Operations.delete, wp_bind, wp_get]
  refine wp_newUuid fun id n => ?_
  refine wp_writeNew (fun t m => ?_) (fun _ _ => mirrored_of_failed)
  have h₁ : Db.Mirrored { db with log := db.log ++ [⟨IKEY_TX_BEGIN, c, id, .null, t⟩], tick := m } :=
    h.silent rfl rfl (fun _ _ => rfl) rfl fun hf => hf
  split_ifs with hcol
  · rw [wp_bind]
    have hloop := wp_forEach (f := deleteItem c) (E := fun _ => Db.Mirrored)
      (fun rest db => db.Mirrored ∧ "*" ∉ rest)
      (fun k rest db hI => wp_mono
        (hI.1.wp_deleteItem c (fun hk => hI.2 (hk ▸ List.mem_cons_self)))
        (fun _ _ h => ⟨h, fun hk => hI.2 (List.mem_cons_of_mem _ hk)⟩) (fun _ _ h => h))
      keys _ ⟨h₁, hkeys hcol⟩
    exact wp_mono hloop (fun _ db₃ h₃ => h₃.1.wp_logged _ _ _ _) (fun _ _ h => h)
  · exact h₁.wp_logged _ _ _ _

omit [Crates] in
/-- The documents of a mirrored collection do not stand for all keys. -/
theorem Db.Mirror.ne_star {db : Db} (h : db.Mirror) {c : String} {col : DashMap Bytes}
    (hcol : db.col c = some col) {ks : List String} {e : String × Bytes} (he : e ∈ col.inOrder ks) :
    e.1 ≠ "*" := by
  obtain ⟨k, bytes⟩ := e
  obtain ⟨-, hk⟩ := Map.mem_inOrder.1 he
  rintro rfl
  have hnone := h.star c
  rw [Db.held, Option.map_eq_none_iff, Db.bytes] at hnone
  rw [Db.col] at hcol
  simp [hcol, hk] at hnone

omit [Crates] in
/-- Failures and long entries stay. -/
theorem not_clean_of_moves {c : String} {db db' : Db} (h : ¬ db.Clean) (hm : Moves c db db') :
    ¬ db'.Clean := by
  induction hm with
  | refl => exact h
  | tail _ hstep ih =>
    cases hstep with
    | log e hc hcmd => exact fun hclean => ih (hclean.of_append rfl rfl).1
    | failed => exact fun hclean => absurd hclean.1 (Nat.succ_ne_zero _)
    | _ => exact ih

omit [Crates] in
/-- After a failure there is nothing to mirror. -/
theorem WithinDocs.wp_mirrored {α : Type} {c : String} {m : Op α} (hm : WithinDocs c m) {db : Db}
    (h : ¬ db.Clean) : wp m (fun _ => Db.Mirrored) (fun _ => Db.Mirrored) db :=
  wp_mono (hm.within db) (fun _ _ hm hc => absurd hc (not_clean_of_moves h hm))
    (fun _ _ hm hc => absurd hc (not_clean_of_moves h hm))

theorem Db.Mirrored.wp_deleteKeys {db : Db} (h : db.Mirrored) {c : String} {keys : List String}
    (hkeys : "*" ∉ keys) :
    wp (deleteKeys c keys) (fun _ => Db.Mirrored) (fun _ => Db.Mirrored) db := by
  unfold deleteKeys
  split_ifs
  · exact h
  · simp only [wp_bind, wp_pure]
    exact h.wp_delete fun _ => hkeys

theorem Db.Mirrored.wp_deleteFiltered {db : Db} (h : db.Mirrored) (c : String)
    (p : String → Bytes → Bool) (limit : Option ℕ) (asc : Bool) :
    wp (Operations.deleteFiltered c p limit asc) (fun _ => Db.Mirrored) (fun _ => Db.Mirrored)
      db := by
  by_cases hclean : db.Clean
  · simp only [Operations.deleteFiltered, wp_bind, wp_get]
    cases hcol : db.col c with
    | none => exact h
    | some col =>
      simp only [wp_bind]
      refine wp_walk fun ks n _ => (h.tick n).wp_deleteKeys fun hstar => ?_
      obtain ⟨q, hq, hkey⟩ := List.mem_map.1 (mem_truncate hstar)
      obtain ⟨e, he, rfl⟩ := List.mem_map.1 ((sortBySeq_perm _ _).mem_iff.1 hq)
      exact (h hclean).ne_star hcol (List.mem_of_mem_filter he) hkey
  · exact (withinDocs_deleteFiltered p limit asc).wp_mirrored hclean

theorem Db.Mirrored.wp_deleteN {db : Db} (h : db.Mirrored) (c : String) (n : ℕ) (asc : Bool) :
    wp (Operations.deleteN c n asc) (fun _ => Db.Mirrored) (fun _ => Db.Mirrored) db := by
  by_cases hclean : db.Clean
  · unfold Operations.deleteN
    split_ifs
    · exact h
    · simp only [wp_bind, wp_get]
      cases hcol : db.col c with
      | none => exact h
      | some col =>
        simp only [endKeys, wp_bind, wp_get]
        cases hidx : db.seqIndex[c]? with
        | some idx =>
          refine h.wp_deleteKeys fun hstar => ?_
          obtain ⟨q, hq, hkey⟩ := List.mem_map.1 hstar
          have hmem : q ∈ idx.toList := by
            have hq := List.mem_of_mem_take hq
            split_ifs at hq
            · exact hq
            · exact List.mem_reverse.1 hq
          exact (h hclean).index c idx q.1 q.2 hidx (Map.mem_toList.1 hmem) hkey
        | none =>
          simp only [wp_bind]
          refine wp_walk fun ks m _ => (h.tick m).wp_deleteKeys fun hstar => ?_
          obtain ⟨q, hq, hkey⟩ := List.mem_map.1 hstar
          obtain ⟨e, he, rfl⟩ := List.mem_map.1
            ((sortBySeq_perm _ _).mem_iff.1 (List.mem_of_mem_take hq))
          exact (h hclean).ne_star hcol he hkey
  · exact (withinDocs_deleteN n asc).wp_mirrored hclean

omit [Crates] in
/-- **The drop of a collection is announced** under the key `*`. -/
theorem Db.Mirrored.wp_deleteCollection {db : Db} (h : db.Mirrored) (c : String) :
    wp (Operations.deleteCollection c) (fun _ => Db.Mirrored) (fun _ => Db.Mirrored) db := by
  simp only [Operations.deleteCollection, wp_bind, wp_modify, wp_send]
  refine wp_newUuid fun id n => ?_
  refine wp_writeNew (fun t n => ?_) (fun _ _ => mirrored_of_failed)
  refine wp_writeNew (fun t' n' => ?_) (fun _ _ => mirrored_of_failed)
  refine wp_writeNew (fun t'' n'' => ?_) (fun _ _ => mirrored_of_failed)
  have hlog : db.log ++ [⟨IKEY_TX_BEGIN, c, id, .null, t⟩] ++ [⟨IKEY_DROP, c, "*", .null, t'⟩] ++
      [⟨IKEY_TX_COMMIT, c, id, .null, t''⟩] = db.log ++ [⟨IKEY_TX_BEGIN, c, id, .null, t⟩,
        ⟨IKEY_DROP, c, "*", .null, t'⟩, ⟨IKEY_TX_COMMIT, c, id, .null, t''⟩] := by simp
  refine h.change (.drop c) _ hlog rfl rfl rfl
    (announced_drop fun feed => changeEvent_apply feed c "*" .null) (fun _ => trivial) ?_
    fun hf => hf.drop rfl
  intro c' held hw
  simp only [Change.writes] at hw
  split_ifs at hw
  exact (Option.some.inj hw).symm

theorem Db.Mirrored.wp_evictOldest {db : Db} (h : db.Mirrored) (c : String) (n : ℕ) :
    wp (evictOldest c n) (fun _ => Db.Mirrored) (fun _ => Db.Mirrored) db := by
  by_cases hclean : db.Clean
  · simp only [evictOldest, wp_bind, wp_get]
    cases hcol : db.col c with
    | none => exact h
    | some col =>
      simp only [wp_bind]
      refine wp_walk fun ks m _ => ?_
      split_ifs
      · exact h.tick m
      · simp only [wp_bind, wp_outcome, wp_pure]
        refine (h.tick m).wp_delete fun _ hstar => ?_
        obtain ⟨q, hq, hkey⟩ := List.mem_map.1 hstar
        obtain ⟨e, he, hpair⟩ := List.mem_filterMap.1
          ((sortBySeq_perm _ _).mem_iff.1 (List.mem_of_mem_take hq))
        obtain ⟨v, -, rfl⟩ := Option.map_eq_some_iff.1 hpair
        exact (h hclean).ne_star hcol he hkey
  · exact (withinDocs_evictOldest n).wp_mirrored hclean

/-! ### Updates -/

section

omit [Crates]

/-- A decoded object has its fields in order, and none under the public name of the version. -/
theorem Json.decoded_obj {fs : List (String × Json)} (h : (Json.obj fs).canon = .obj fs) :
    Fields.Sorted fs ∧ fs.lookup VERSION = none := by
  rw [canon_obj, obj.injEq] at h
  refine ⟨h ▸ sorted_insertAll_nil _, ?_⟩
  rw [List.lookup_eq_none_iff]
  intro p hp
  rw [← h] at hp
  obtain ⟨q, -, rfl⟩ := List.mem_map.1 ((Fields.mem_of_mem_insertAll hp).resolve_right (by simp))
  rw [bne_iff_ne]
  intro heq
  have htok := tokenOf_internalName q.1
  have hname : internalName q.1 = IKEY_VERSION := by
    rw [← internalName_internalName, show internalName q.1 = VERSION from heq.symm]
    rfl
  exact absurd (hname.symm.trans heq.symm) (by decide)

/-- The version that an update announces is the one the document is decoded with. -/
def Json.UpdatedVersion (value : Json) : Prop :=
  (fieldU64 value VERSION).getD 0 = Held.version (some value.canon)

/-- A merged document has the version that is set. -/
theorem updatedVersion_merged {docObj : List (String × Json)} (h : (Json.obj docObj).canon = .obj docObj)
    (updateObj : List (String × Json)) (t : UInt64) : (merged docObj updateObj t).UpdatedVersion := by
  have hsorted : Fields.Sorted (mergeFields docObj updateObj) :=
    (Json.decoded_obj h).1.insertAll _
  unfold merged
  generalize (fieldU64 (Json.obj docObj) IKEY_VERSION).getD 0 + 1 = ver
  have hlookup : (Fields.insert MODIFIED_AT (.ofU64 t)
      (Fields.insert VERSION (.ofU64 ver) (mergeFields docObj updateObj))).lookup VERSION =
        some (.ofU64 ver) := by
    rw [Fields.lookup_insert, if_neg (by decide), Fields.lookup_insert, if_pos rfl]
  have hcanon := systemField_version.get_canon ((hsorted.insert VERSION (.ofU64 ver)).insert
    MODIFIED_AT (.ofU64 t))
  rw [hlookup] at hcanon
  rw [Json.UpdatedVersion, Held.version, Option.bind_some, fieldU64, fieldU64, Json.set_obj,
    Json.set_obj, hcanon, Json.get_obj, hlookup]
  rfl

/-- A decoded document without a version announces 0. -/
theorem updatedVersion_decoded {doc : Json} (h : doc.canon = doc) (hv : Held.version (some doc) = 0) :
    doc.UpdatedVersion := by
  rw [Json.UpdatedVersion, h, hv]
  cases doc with
  | obj fs => rw [fieldU64, Json.get_obj, (Json.decoded_obj h).2]; rfl
  | _ => rfl

/-- An update of a stored document is by an object, or the document has no version, or it does
    not conform to the schema. -/
def Reported.Update (db : Db) (c k : String) (updates : Json) : Prop :=
  ∀ doc, (db.bytes c k).bind msgpackToValue = some doc →
    updates.isObject ∨ Held.version (some doc) = 0 ∨ db.accepts c doc = false

theorem Db.Mirrored.wp_storeUpdate {db : Db} (h : db.Mirrored) {c k id : String} {newValue : Json}
    (hk : k ≠ "*") (hver : db.accepts c newValue = true → newValue.UpdatedVersion) :
    wp (storeUpdate c k id newValue) (fun _ => Db.Mirrored) (fun _ => Db.Mirrored) db := by
  simp only [storeUpdate, wp_bind, storeDoc, wp_modify, wp_send]
  refine wp_validateDocument_accepts (fun hacc => ?_) (fun _ => h)
  refine wp_writeNew (fun t n => ?_) (fun _ _ => mirrored_of_failed)
  refine wp_writeNew (fun t' n' => ?_) (fun _ _ => mirrored_of_failed)
  have hlog : db.log ++ [⟨IKEY_INSERT, c, k, newValue, t⟩] ++ [⟨IKEY_TX_COMMIT, c, id, .null, t'⟩] =
      db.log ++ [⟨IKEY_INSERT, c, k, newValue, t⟩, ⟨IKEY_TX_COMMIT, c, id, .null, t'⟩] := by simp
  refine h.change (.put c k newValue) _ hlog rfl rfl rfl
    (announced_put hk ?_ fun feed => changeEvent_apply feed c k _)
    (fun hes => (hes _ List.mem_cons_self).value) ?_ fun hf => hf
  · rw [Json.asU64_ofU64, hver hacc]
  · intro c' held hw
    simp [Change.writes, hk.symm] at hw

/-- **An update is announced**, if it is one. -/
theorem Db.Mirrored.wp_update {db : Db} (h : db.Mirrored) {c k : String} {updates : Json}
    (hupd : Reported.Update db c k updates) :
    wp (Operations.update c k updates) (fun _ => Db.Mirrored) (fun _ => Db.Mirrored) db := by
  by_cases hclean : db.Clean
  · simp only [Operations.update, wp_bind, wp_get]
    refine wp_newUuid fun id n => wp_writeNew (fun t m => ?_) (fun _ _ => mirrored_of_failed)
    have h₁ : Db.Mirrored { db with log := db.log ++ [⟨IKEY_TX_BEGIN, c, id, .null, t⟩], tick := m } :=
      h.silent rfl rfl (fun _ _ => rfl) rfl fun hf => hf
    have hbytes : ∀ log tick, Db.bytes { db with log := log, tick := tick } c k = db.bytes c k :=
      fun _ _ => rfl
    rw [hbytes]
    cases hdoc : (db.bytes c k).bind msgpackToValue with
    | none =>
      simp only [wp_bind, wp_pure]
      exact h₁.wp_logged _ _ _ _
    | some doc =>
      have hheld : db.held c k = some (some doc) := by
        obtain ⟨bytes, hb, hd⟩ := Option.bind_eq_some_iff.1 hdoc
        rw [Db.held, hb, Option.map_some, hd]
      have hk : k ≠ "*" := by
        rintro rfl
        rw [(h hclean).star] at hheld
        cases hheld
      have hcanon := (h hclean).canon c k doc hheld
      simp only [wp_bind, wp_pure]
      refine wp_mergeUpdate (fun hother => ?_) (fun docObj updateObj hd hu t' n' => ?_) h₁
      · refine h₁.wp_storeUpdate hk fun hacc => updatedVersion_decoded hcanon ?_
        rcases hother with hother | hother
        · rcases hupd doc hdoc with hobj | hzero | hrej
          · rw [hobj] at hother
            cases hother
          · exact hzero
          · exact absurd (hacc.symm.trans hrej) (by simp)
        · cases doc <;> first | rfl | cases hother
      · subst hd
        exact (h₁.tick n').wp_storeUpdate hk fun _ => updatedVersion_merged hcanon updateObj t'
  · exact (withinDocs_update k updates).wp_mirrored hclean

end

/-! ### The database handle -/

section

omit [Crates]

/-- Other events do not concern the feed. -/
theorem Db.feed_send {db : Db} {event : Json} (h : event.get "event" ≠ some (.str "change")) :
    Db.feed { db with events := db.events ++ [event] } = db.feed := by
  rw [Db.feed, List.foldl_append, List.foldl_cons, List.foldl_nil, Feed.apply, if_neg h]
  rfl

theorem Db.Mirrored.wp_evictExpired {db : Db} (h : db.Mirrored) (c : String) :
    wp (Db.evictExpired c) (fun _ => Db.Mirrored) (fun _ => Db.Mirrored) db := by
  simp only [Db.evictExpired, wp_bind, wp_get]
  cases db.ttlExpiry[c]? with
  | none => exact h
  | some exp =>
    simp only [wp_bind]
    refine wp_nowMs fun now n => ?_
    split_ifs
    · simp only [wp_bind, wp_outcome, wp_modify]
      have hdrop : ∀ db₁ : Db, db₁.Mirrored →
          Db.Mirrored { db₁ with ttlExpiry := db₁.ttlExpiry.erase c } := fun db₁ h₁ =>
        h₁.silent (List.append_nil _).symm rfl (fun _ _ => rfl) rfl fun hf => hf
      exact wp_mono ((h.tick n).wp_deleteCollection c) (fun _ db₁ h₁ => hdrop db₁ h₁)
        fun _ db₁ h₁ => hdrop db₁ h₁
    · exact h.tick n

theorem Db.Mirrored.wp_resetExpiry {db : Db} (h : db.Mirrored) (c : String) :
    wp (Db.resetExpiry c) (fun _ => Db.Mirrored) (fun _ => Db.Mirrored) db := by
  simp only [Db.resetExpiry, wp_bind, wp_get]
  cases db.ttlDefaults[c]? with
  | none => exact h
  | some secs =>
    simp only [wp_bind, wp_modify, wp_outcome, wp_send]
    refine wp_nowMs fun now n => wp_writeNew (fun t m => ?_) fun _ _ => ?_
    · refine h.silent rfl rfl (fun _ _ => rfl) (Db.feed_send ?_) fun hf => hf
      simp [json, Fields.lookup_insertAll, List.lookup_cons]
    · exact fun hclean => absurd hclean.1 (Nat.succ_ne_zero _)

end

theorem Db.Mirrored.wp_evictOverflow {db : Db} (h : db.Mirrored) (c : String) :
    wp (Db.evictOverflow c) (fun _ => Db.Mirrored) (fun _ => Db.Mirrored) db := by
  simp only [Db.evictOverflow, wp_bind, wp_get]
  cases db.maxSizes[c]? with
  | none => exact h
  | some max =>
    dsimp only
    split_ifs
    · exact h.wp_evictOldest c _
    · exact h

theorem Db.Mirrored.wp_dbInsert {db : Db} (h : db.Mirrored) (c : String)
    {items : List (String × Json)} (hitems : ∀ item ∈ items, Reported.Item item) :
    wp (Db.insert c items) (fun _ => Db.Mirrored) (fun _ => Db.Mirrored) db := by
  simp only [Db.insert, wp_bind]
  refine wp_checkFault (fun _ => ?_) fun _ => h
  refine wp_mono (h.wp_evictExpired c) (fun _ db₁ h₁ => ?_) fun _ _ h => h
  refine wp_mono (h₁.wp_insert c hitems) (fun _ db₂ h₂ => ?_) fun _ _ h => h
  refine wp_mono (h₂.wp_evictOverflow c) (fun _ db₃ h₃ => ?_) fun _ _ h => h
  exact h₃.wp_resetExpiry c

theorem Db.Mirrored.wp_setSchema {db : Db} (h : db.Mirrored) (c : String) (schema : Json) :
    wp (Operations.setSchema c schema) (fun _ => Db.Mirrored) (fun _ => Db.Mirrored) db := by
  unfold Operations.setSchema
  cases Crates.validatorFor schema with
  | error err => exact h
  | ok validator =>
    simp only [wp_bind, wp_modify, wp_send]
    refine wp_newUuid fun id n => ?_
    refine wp_mono ((h.tick n).wp_logged _ _ _ _) (fun _ db₁ h₁ => ?_) fun _ _ h => h
    refine wp_mono (h₁.wp_logged _ _ _ _) (fun _ db₂ h₂ => ?_) fun _ _ h => h
    refine wp_mono (h₂.wp_logged _ _ _ _) (fun _ db₃ h₃ => ?_) fun _ _ h => h
    refine h₃.silent (List.append_nil _).symm rfl (fun _ _ => rfl) (Db.feed_send ?_) fun hf => hf
    simp [json, Fields.lookup_insertAll, List.lookup_cons]

/-! ## Runs -/

/-- A call of the database handle that writes, or that changes a setting of a collection. -/
inductive FeedRequest
  | call (call : Call)
  | setSchema (collection : String) (schema : Json)
  | setMaxSize (collection : String) (max : ℕ)
  | setTtlDefault (collection : String) (ttlSecs : UInt64)

namespace FeedRequest

def run : FeedRequest → Op Unit
  | call c => c.run
  | setSchema c schema => Db.setSchema c schema
  | setMaxSize c max => Db.setMaxSize c max
  | setTtlDefault c secs => Db.setTtlDefault c secs

/-- The handle after a request, whatever its outcome. -/
def next (db : Db) (r : FeedRequest) : Db := (r.run db).2

omit [Crates] in
/-- The request says in its events what it does. -/
def Reported (db : Db) : FeedRequest → Prop
  | call (.insert _ items) => ∀ item ∈ items, Reported.Item item
  | call (.update c k updates) => Reported.Update db c k updates
  | call (.delete c keys) => (db.col c).isSome → "*" ∉ keys
  | _ => True

theorem mirrored_next {db : Db} {r : FeedRequest} (h : db.Mirrored) (hr : Reported db r) :
    (next db r).Mirrored := by
  refine wp_final (P := Db.Mirrored) ?_
  cases r with
  | call call =>
    cases call with
    | insert c items => exact h.wp_dbInsert c hr
    | update c k updates =>
      simp only [run, Call.run, Db.update, wp_bind, wp_pure]
      exact wp_checkFault (fun _ => h.wp_update hr) fun _ => h
    | delete c keys =>
      simp only [run, Call.run, Db.delete, wp_bind]
      exact wp_checkFault (fun _ => h.wp_delete hr) fun _ => h
    | deleteFiltered c p limit asc =>
      simp only [run, Call.run, Db.deleteFiltered, wp_bind, wp_pure]
      exact wp_checkFault (fun _ => h.wp_deleteFiltered c p limit asc) fun _ => h
    | deleteN c n asc =>
      simp only [run, Call.run, Db.deleteN, wp_bind, wp_pure]
      exact wp_checkFault (fun _ => h.wp_deleteN c n asc) fun _ => h
    | deleteCollection c =>
      simp only [run, Call.run, Db.deleteCollection, wp_bind, wp_modify]
      refine wp_mono (h.wp_deleteCollection c) (fun _ db₁ h₁ => ?_) fun _ _ h => h
      exact h₁.silent (List.append_nil _).symm rfl (fun _ _ => rfl) rfl fun hf => hf
  | setSchema c schema => exact h.wp_setSchema c schema
  | setMaxSize c max => exact h.silent (List.append_nil _).symm rfl (fun _ _ => rfl) rfl fun hf => hf
  | setTtlDefault c secs =>
    simp only [run, Db.setTtlDefault, wp_modify]
    split_ifs <;> exact h.silent (List.append_nil _).symm rfl (fun _ _ => rfl) rfl fun hf => hf

end FeedRequest

/-- An empty database without events; settings may be registered. -/
structure Db.Silent (db : Db) : Prop where
  state : db.state = ∅
  seqIndex : db.seqIndex = ∅
  events : db.events = []

omit [Crates] in
theorem Db.Silent.mirrored {db : Db} (h : db.Silent) : db.Mirrored := by
  have hheld : ∀ c k, db.held c k = none := fun c k => by simp [Db.held, Db.bytes, h.state]
  refine fun _ => ⟨fun c k => ?_, fun c => hheld c "*", fun c k v hv => ?_, fun c idx seq k hidx _ => ?_⟩
  · rw [hheld, Db.feed, h.events]
    rfl
  · rw [hheld] at hv
    cases hv
  · rw [h.seqIndex, Map.get?_empty] at hidx
    cases hidx

/-- **The change feed mirrors the database** after every run whose requests say in their events
    what they do, as long as no write fails and all lengths fit. -/
theorem change_feed_mirrors {db : Db} {rs : List FeedRequest} (hdb : db.Silent)
    (hrun : Runs.Along FeedRequest.next FeedRequest.Reported db rs)
    (hclean : (Runs.after FeedRequest.next db rs).Clean) (c k : String) :
    (Runs.after FeedRequest.next db rs).feed c k =
      ((Runs.after FeedRequest.next db rs).bytes c k).map storedVersion := by
  have hkept := hrun.keeps (I := Db.Mirrored) (fun _ _ h hr => FeedRequest.mirrored_next h hr)
    hdb.mirrored
  rw [(hkept hclean).feed, Db.held, Option.map_map]
  rfl

section

omit [Crates]

/-- A document is inserted, then updated with an object. -/
def patchedRun : List FeedRequest :=
  [.call (.insert "c" [("k", .obj [])]), .call (.update "c" "k" (.obj [("a", .ofU64 1)]))]

/-- A document is inserted, then updated with a number. -/
def numberUpdateRun : List FeedRequest :=
  [.call (.insert "c" [("k", .obj [])]), .call (.update "c" "k" (.ofU64 5))]

theorem change_feed_mirrors_patched :
    let _ := Crates.plain
    (Runs.after FeedRequest.next (Db.blank (World.plain 1000 []) 0) patchedRun).feed "c" "k" =
      ((Runs.after FeedRequest.next (Db.blank (World.plain 1000 []) 0) patchedRun).bytes
        "c" "k").map storedVersion := by
  let _ := Crates.plain
  have hrun : Runs.Along FeedRequest.next FeedRequest.Reported
      (Db.blank (World.plain 1000 []) 0) patchedRun := by
    refine ⟨?_, fun _ _ => Or.inl rfl, trivial⟩
    intro item hitem
    rw [List.mem_singleton.1 hitem]
    exact ⟨by decide, rfl⟩
  exact @change_feed_mirrors Crates.plain _ _ ⟨rfl, rfl, rfl⟩ hrun (by decide +kernel) "c" "k"

/-- **An update that is no object** announces the version 0, and the stored one stays 1. -/
theorem change_feed_off :
    let _ := Crates.plain
    let db := Runs.after FeedRequest.next (Db.blank (World.plain 1000 []) 0) numberUpdateRun
    db.Clean ∧ db.feed "c" "k" = some 0 ∧ (db.bytes "c" "k").map storedVersion = some 1 := by
  let _ := Crates.plain
  decide +kernel

end

end MoltenDB
