/-
  The number of documents that a request writes.

  What a request has written is in the entries that it has logged (`Db.written`).  An update and
  a set of a map write at most as many documents as the map has keys, and these are counted when
  the request is checked.  The documents of an array are not counted: a set of an array stays
  within the limit exactly if the array does (`writes_within_limit_iff`).
-/
import MoltenDB.Handlers.Requests
import MoltenDB.Proof.FailedSettings

namespace MoltenDB

open Wire Prog Prog.Eff Operations LogCommand

/-! ## What is written -/

instance (e : LogEntry) : Decidable e.Puts :=
  inferInstanceAs (Decidable (LogCommand.canon e.cmd = IKEY_INSERT))

/-- The collections and keys of the documents that the entries insert. -/
def puts (es : List LogEntry) : List (String × String) :=
  (es.filter fun e => decide e.Puts).map fun e => (e.collection, e.key)

/-- The documents that were inserted or changed: those of the entries that were logged. -/
def Db.written (db db' : Db) : Finset (String × String) :=
  (puts (db'.log.drop db.log.length)).toFinset

/-- The documents `keys` were written in this order, and no others; some may be gone. -/
structure Db.Wrote (db : Db) (keys : List (String × String)) (db' : Db) : Prop where
  log : ∃ es, db'.log = db.log ++ es ∧ puts es = keys
  bytes : ∀ c k b, db'.bytes c k = some b → db.bytes c k = some b ∨ (c, k) ∈ keys

variable {db db' : Db} {keys : List (String × String)} {c : String}

theorem Db.Wrote.written (h : db.Wrote keys db') : db.written db' = keys.toFinset := by
  obtain ⟨es, hlog, hputs⟩ := h.log
  rw [Db.written, hlog, List.drop_left, hputs]

/-- **What is new or changed was written.** -/
theorem Db.Wrote.changed (h : db.Wrote keys db') {c k : String} {b : Bytes}
    (hb : db'.bytes c k = some b) (hchanged : db.bytes c k ≠ some b) : (c, k) ∈ db.written db' := by
  rw [h.written, List.mem_toFinset]
  exact (h.bytes c k b hb).resolve_left hchanged

theorem Db.Wrote.trans {db₁ db₂ db₃ : Db} {keys keys' : List (String × String)}
    (h : db₁.Wrote keys db₂) (h' : db₂.Wrote keys' db₃) : db₁.Wrote (keys ++ keys') db₃ := by
  obtain ⟨es, hlog, rfl⟩ := h.log
  obtain ⟨es', hlog', rfl⟩ := h'.log
  refine ⟨⟨es ++ es', by rw [hlog', hlog, List.append_assoc], ?_⟩, fun c k b hb => ?_⟩
  · rw [puts, List.filter_append, List.map_append]
    rfl
  · rw [List.mem_append]
    rcases h'.bytes c k b hb with hb | hmem
    · exact (h.bytes c k b hb).imp_right Or.inl
    · exact Or.inr (Or.inr hmem)

theorem Db.Removes.wrote (h : db.Removes db') : db.Wrote [] db' := by
  obtain ⟨es, hlog, hes⟩ := h.log
  refine ⟨⟨es, hlog, ?_⟩, fun c k b hb => Or.inl (h.bytes c k b hb)⟩
  rw [puts, List.filter_eq_nil_iff.2 fun e he => by simpa using hes e he, List.map_nil]

/-- One document is stored and logged. -/
theorem Db.wrote_one {k : String} {v : Json} {t : UInt64}
    (hstate : db'.state =
      db.state.alter c fun col => some ((col.getD ∅).insert k (valueToMsgpack v)))
    (hlog : db'.log = db.log ++ [⟨IKEY_INSERT, c, k, v, t⟩]) : db.Wrote [(c, k)] db' := by
  refine ⟨⟨_, hlog, rfl⟩, fun c' k' b hb => ?_⟩
  have hput : State.bytes db'.state c' k' = some b := hb
  rw [hstate, bytes_put] at hput
  split_ifs at hput with hck
  · exact Or.inr (by rw [hck.1, hck.2]; exact List.mem_singleton.2 rfl)
  · exact Or.inl hput

/-! ## Inserts and updates -/

theorem wp_storeUpdate_wrote (k id : String) (v : Json) (db : Db) :
    wp (storeUpdate c k id v) (fun _ => db.Wrote [(c, k)]) (fun _ _ => True) db := by
  simp only [storeUpdate, storeDoc, wp_bind, wp_modify, wp_send]
  refine wp_validateDocument (fun _ => ?_) trivial
  refine wp_writeNew (fun t n => ?_) fun _ _ => trivial
  generalize hdb₁ : Db.mk _ _ _ _ _ _ _ _ _ _ _ _ _ = db₁
  have h₁ : db.Wrote [(c, k)] db₁ := by
    subst hdb₁
    exact Db.wrote_one rfl rfl
  refine wp_mono (wp_removes (removes_commit (c := c) id) db₁) (fun _ db₂ h₂ => ?_) fun _ _ _ => trivial
  have h₂' := h₁.trans h₂.wrote
  rw [List.append_nil] at h₂'
  exact ⟨h₂'.log, h₂'.bytes⟩

/-- An update writes its document, or nothing if there is none. -/
theorem wp_update_wrote (k : String) (updates : Json) (db : Db) :
    wp (Db.update c k updates) (fun _ db' => ∃ keys, db.Wrote keys db' ∧ keys.length ≤ 1)
      (fun _ _ => True) db := by
  simp only [Db.update, Operations.update, wp_bind, wp_get]
  refine wp_checkFault (fun _ => wp_newUuid fun id n => ?_) fun _ => trivial
  refine wp_writeNew (fun t m => ?_) fun _ _ => trivial
  generalize hdb₁ : Db.mk _ _ _ _ _ _ _ _ _ _ _ _ _ = db₁
  have h₁ : db.Wrote [] db₁ := by
    subst hdb₁
    exact ⟨⟨_, rfl, rfl⟩, fun _ _ _ hb => Or.inl hb⟩
  cases (db₁.bytes c k).bind msgpackToValue with
  | none =>
    simp only [wp_bind, wp_pure]
    refine wp_mono (wp_removes (removes_commit (c := c) id) db₁) (fun _ db₂ h₂ => ?_)
      fun _ _ _ => trivial
    exact ⟨[], h₁.trans h₂.wrote, Nat.zero_le 1⟩
  | some doc =>
    simp only [wp_bind, wp_pure]
    refine wp_mono (wp_removes (removes_mergeUpdate doc updates) db₁) (fun v db₂ h₂ => ?_)
      fun _ _ _ => trivial
    refine wp_mono (wp_storeUpdate_wrote k id v db₂) (fun _ db₃ h₃ => ?_) fun _ _ _ => trivial
    exact ⟨_, (h₁.trans h₂.wrote).trans h₃, le_refl 1⟩

theorem wp_updateItems_wrote (items : List (String × Json)) (n : ℕ) (db : Db) :
    wp (updateItems c n items)
      (fun r db' => r.1 = 200 → ∃ keys, db.Wrote keys db' ∧ keys.length ≤ items.length)
      (fun _ _ => True) db := by
  induction items generalizing n db with
  | nil => exact fun _ => ⟨[], (Db.Removes.refl db).wrote, le_refl 0⟩
  | cons item items ih =>
    refine wp_updateItems_cons (fun _ _ hr hok => absurd hok hr) fun _ => ?_
    refine wp_mono (wp_update_wrote item.1 item.2 db) (fun _ db₁ h₁ n => ?_)
      fun _ _ _ _ hr hok => absurd hok hr
    obtain ⟨keys, h₁, hlen⟩ := h₁
    refine wp_mono (ih n db₁) (fun r db₂ h₂ hok => ?_) fun _ _ h => h
    obtain ⟨keys', h₂, hlen'⟩ := h₂ hok
    refine ⟨keys ++ keys', h₁.trans h₂, ?_⟩
    rw [List.length_append, List.length_cons]
    omega

theorem wp_insertItem_wrote (item : String × Json) (db : Db) :
    wp (insertItem c item) (fun _ => db.Wrote [(c, item.1)]) (fun _ _ => True) db := by
  simp only [insertItem, nextSeq, wp_bind, wp_get, wp_modify, wp_pure]
  refine wp_nowMs fun now n => ?_
  generalize hdb₁ : Db.mk _ _ _ _ _ _ _ _ _ _ _ _ _ = db₁
  have hprep : wp (prepare c ((db₁.bytes c item.1).bind msgpackToValue) item.2 now
      (db.seqCounters[c]?.getD 0)) (fun _ db₂ => db₂ = db₁) (fun _ _ => True) db₁ :=
    wp_prepare (fun _ _ => rfl) (fun _ _ => rfl) (fun _ _ => rfl) trivial
  refine wp_mono hprep (fun value db₂ h₂ => ?_) fun _ _ h => h
  subst h₂
  simp only [storeDoc, indexInsert, wp_modify, wp_send]
  refine wp_writeNew (fun t m => ?_) fun _ _ => trivial
  subst hdb₁
  exact Db.wrote_one rfl rfl

section

variable [Crates]

/-- **An insert writes its items.** -/
theorem wp_insert_wrote (items : List (String × Json)) (db : Db) :
    wp (Db.insert c items) (fun _ => db.Wrote (items.map fun p => (c, p.1))) (fun _ _ => True)
      db := by
  -- the items that are written already
  let J : List (String × Json) → Db → Prop := fun rest db' =>
    ∃ done, done ++ rest = items ∧ db.Wrote (done.map fun p => (c, p.1)) db'
  refine wp_mono (Db.wp_insert_keeps (I := fun _ => True) (J := J) (fun rest db₁ db₂ hr h₁ => ?_)
    (fun _ _ _ => trivial) (fun item rest db₁ h₁ => ?_) ⟨[], rfl, (Db.Removes.refl db).wrote⟩)
    (fun _ db' h => ?_) fun _ _ h => h
  · obtain ⟨done, heq, h₁⟩ := h₁
    have h₂ := h₁.trans hr.wrote
    rw [List.append_nil] at h₂
    exact ⟨done, heq, h₂⟩
  · obtain ⟨done, heq, h₁⟩ := h₁
    refine wp_mono (wp_insertItem_wrote item db₁) (fun _ db₂ h₂ => ?_) fun _ _ h => h
    refine ⟨done ++ [item], by rw [List.append_assoc, List.singleton_append, heq], ?_⟩
    rw [List.map_append]
    exact h₁.trans h₂
  · obtain ⟨done, heq, h⟩ := h
    rw [List.append_nil] at heq
    exact heq ▸ h

end

/-! ## Sets -/

/-- The keys of the documents of a set: those of the map, or identifiers that are drawn one after
    another. -/
inductive SetKeys (w : World) : Option Json → List String → Prop
  | map (m : List (String × Json)) : SetKeys w (some (.obj m)) (m.map Prod.fst)
  | array (arr : List Json) (n : ℕ) :
    SetKeys w (some (.arr arr)) ((List.range' n arr.length).map w.uuid)

theorem map_fst_freshItems {n : ℕ} {docs : List Json} {items : List (String × Json)}
    (h : freshItems db n docs = some items) :
    items.map Prod.fst = (List.range' n docs.length).map db.world.uuid := by
  induction docs generalizing n items with
  | nil =>
    cases h
    rfl
  | cons doc docs ih =>
    rw [freshItems] at h
    split_ifs at h
    obtain ⟨rest, hrest, rfl⟩ := Option.map_eq_some_iff.1 h
    rw [List.map_cons, ih hrest, List.length_cons, List.range'_succ, List.map_cons]

theorem setKeys_of_dataItems {data : Option Json} {items : List (String × Json)}
    (h : db.dataItems data = some items) : SetKeys db.world data (items.map Prod.fst) := by
  cases data with
  | none => cases h
  | some v =>
    cases v with
    | obj m =>
      simp only [Db.dataItems] at h
      split_ifs at h
      obtain rfl := Option.some.inj h
      rw [List.map_map]
      exact .map m
    | arr arr =>
      rw [map_fst_freshItems h]
      exact .array arr db.tick
    | _ => cases h

section

variable [Crates]

/-- The data of a set were written under its keys. -/
def Db.SetWrote (db : Db) (c : String) (data : Option Json) (r : Response) (db' : Db) : Prop :=
  r.1 = 200 → ∃ keys, SetKeys db.world data keys ∧ db.Wrote (keys.map fun k => (c, k)) db'

omit [Crates] in
theorem Db.Removes.setWrote {data : Option Json} {r : Response} {db₁ : Db} (hr : db.Removes db₁)
    (hworld : db₁.world = db.world) (h : db₁.SetWrote c data r db') : db.SetWrote c data r db' := by
  intro hok
  obtain ⟨keys, hkeys, hwrote⟩ := h hok
  exact ⟨keys, hworld ▸ hkeys, hr.wrote.trans hwrote⟩

theorem wp_setData_wrote (data : Option Json) (db : Db) :
    wp (setData c data) (db.SetWrote c data) (fun _ _ => True) db := by
  refine wp_setData (fun _ e _ hok => absurd hok (ne_ok_of_setError e)) fun items success hitems => ?_
  refine wp_insertItems (wp_mono (wp_insert_wrote items (db.drawn data)) (fun _ db₂ h₂ _ => ?_)
    fun e _ _ hok => absurd hok (ne_ok_of_setError _))
  refine ⟨_, setKeys_of_dataItems hitems, ?_⟩
  rw [List.map_map]
  exact (db.removes_drawn data).wrote.trans h₂

end

/-! ## Requests -/

section

variable [Crates] [FloatText] {payload : Json} {maxBodySize maxKeysPerRequest : ℕ}

/-- **A set writes its documents**, and is counted if they are in a map. -/
theorem wp_processSet_wrote (hcol : (namedCollection payload).getD "default" = c) (db : Db) :
    wp (processSet payload maxBodySize maxKeysPerRequest)
      (fun r db' => r.1 = 200 → RequestAccepted payload maxBodySize maxKeysPerRequest ∧
        db.SetWrote c (payload.field .data) r db') (fun _ _ => True) db := by
  refine wp_processSet hcol (fun _ _ hr _ hok => absurd hok hr) fun hvalid db₁ hlim => ?_
  refine wp_mono (wp_setData_wrote _ db₁) (fun r db' h' _ => ?_) fun _ _ h => h
  exact ⟨requestAccepted_of_ok hvalid, hlim.removes.setWrote hlim.world h'⟩

omit [Crates] in
theorem wp_processUpdate_wrote (db : Db) :
    wp (processUpdate payload maxBodySize maxKeysPerRequest)
      (fun r db' => r.1 = 200 → ∃ keys, db.Wrote keys db' ∧ keys.length ≤ maxKeysPerRequest)
      (fun _ _ => True) db := by
  refine wp_processUpdate rfl (fun _ hr hok => absurd hok hr) fun hvalid data hdata => ?_
  have hlen := (requestAccepted_of_ok hvalid).length_data hdata
  refine wp_mono (wp_updateItems_wrote data 0 db) (fun r db' h' hok => ?_) fun _ _ h => h
  obtain ⟨keys, hwrote, hkeys⟩ := h' hok
  exact ⟨keys, hwrote, hkeys.trans hlen⟩

/-- **An update stays within the limit** of documents that a request may write, and a set does
    exactly unless its data are an array that is longer. -/
theorem writes_within_limit_iff (hfresh : Function.Injective db.world.uuid) {resp : Json} :
    ((processSet payload maxBodySize maxKeysPerRequest db).1 = .ok (200, resp) →
      ((db.written (processSet payload maxBodySize maxKeysPerRequest db).2).card ≤
          maxKeysPerRequest ↔
        ∀ arr, payload.field .data = some (.arr arr) → arr.length ≤ maxKeysPerRequest)) ∧
    ((processUpdate payload maxBodySize maxKeysPerRequest db).1 = .ok (200, resp) →
      (db.written (processUpdate payload maxBodySize maxKeysPerRequest db).2).card ≤
        maxKeysPerRequest) := by
  refine ⟨fun hok => ?_, fun hok => ?_⟩
  · have hrun : wp (processSet payload maxBodySize maxKeysPerRequest) _ _ db :=
      wp_processSet_wrote rfl db
    obtain ⟨haccepted, hset⟩ := wp_of_ok hrun (Prod.ext hok rfl) rfl
    obtain ⟨keys, hkeys, hwrote⟩ := hset rfl
    rw [hwrote.written]
    generalize hdata : payload.field .data = data at hkeys
    cases hkeys with
    | map m =>
      refine iff_of_true ?_ fun arr harr => ?_
      · calc _ ≤ ((m.map Prod.fst).map fun k =>
              ((namedCollection payload).getD "default", k)).length := List.toFinset_card_le _
          _ = m.length := by rw [List.length_map, List.length_map]
          _ ≤ maxKeysPerRequest := haccepted.length_data hdata
      · cases harr
    | array arr n =>
      have hpair : Function.Injective fun k : String =>
          ((namedCollection payload).getD "default", k) := fun k k' heq => congrArg Prod.snd heq
      have hnodup := ((List.nodup_range' (n := arr.length) (s := n)).map hfresh).map hpair
      rw [List.toFinset_card_of_nodup hnodup, List.length_map, List.length_map, List.length_range']
      refine ⟨fun hle arr' harr' => ?_, fun h => h arr rfl⟩
      cases harr'
      exact hle
  · obtain ⟨keys, hwrote, hlen⟩ := wp_of_ok (wp_processUpdate_wrote db) (Prod.ext hok rfl) rfl
    rw [hwrote.written]
    exact (List.toFinset_card_le _).trans hlen

end

/-! ## Arrays that are too long -/

section

theorem plain_uuid_injective (start : UInt64) (faults : List ℕ) :
    Function.Injective (World.plain start faults).uuid := by
  intro n m h
  have hchars : ("tx" ++ toString n).toList = ("tx" ++ toString m).toList :=
    congrArg String.toList h
  rw [String.toList_append, String.toList_append, List.append_cancel_left_eq] at hchars
  have hdigits : Nat.toDigits 10 n = Nat.toDigits 10 m := by
    rw [← Nat.toList_repr, ← Nat.toList_repr]
    exact hchars
  rw [← Nat.ofDigitChars_ten_toDigits (n := n), hdigits, Nat.ofDigitChars_ten_toDigits]

/-- A document `a` in a collection. -/
def ofOneStored : Db :=
  { Db.blank (World.plain 1000 []) 0 with
    state := (∅ : State).insert "c" ((∅ : DashMap Bytes).insert "a" (valueToMsgpack (.obj []))) }

/-- A request with documents. -/
def dataPayload (data : Json) : Json := .obj [("collection", .str "c"), ("data", data)]

theorem writes_within_limit_iff_one :
    letI := Crates.plain
    letI := FloatText.plain
    (ofOneStored.written (processSet (dataPayload (.arr [.obj []])) 1000 1 ofOneStored).2).card ≤
        1 ∧
      (ofOneStored.written
        (processUpdate (dataPayload (.obj [("a", .obj [])])) 1000 1 ofOneStored).2).card ≤ 1 := by
  let _ := Crates.plain
  let _ := FloatText.plain
  have hset : (processSet (dataPayload (.arr [.obj []])) 1000 1 ofOneStored).1 =
      .ok (200, json [("status", .str "ok"), ("count", jsonCount 1), ("ids", .arr [.str "tx0"])]) :=
    by decide +kernel
  have hupdate : (processUpdate (dataPayload (.obj [("a", .obj [])])) 1000 1 ofOneStored).1 =
      .ok (200, json [("status", .str "ok"), ("updated", jsonCount 1)]) := by decide +kernel
  have hfresh : Function.Injective ofOneStored.world.uuid := plain_uuid_injective 1000 []
  refine ⟨((writes_within_limit_iff hfresh).1 hset).2 fun arr harr => ?_,
    (writes_within_limit_iff hfresh).2 hupdate⟩
  obtain rfl : [.obj []] = arr := Json.arr.inj (Option.some.inj harr)
  exact le_refl 1

/-- **An array is not counted**: it is written although it is longer than the limit. -/
theorem array_exceeds_limit :
    letI := Crates.plain
    letI := FloatText.plain
    let run := processSet (dataPayload (.arr [.obj [], .obj []])) 1000 1 ofOneStored
    run.1 = .ok (200, json [("status", .str "ok"), ("count", jsonCount 2),
      ("ids", .arr [.str "tx0", .str "tx1"])]) ∧
      1 < (ofOneStored.written run.2).card := by
  let _ := Crates.plain
  let _ := FloatText.plain
  decide +kernel

end

end MoltenDB
