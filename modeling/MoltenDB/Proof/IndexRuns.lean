/-
  The index of every collection is in step with its documents, in every run.

  A run may set, update and delete documents, register schemas, drop expired collections and
  restart the database; any write to the log may fail.  If no update writes another number, and the
  clock does not go back, no two documents of a collection ever have one number (`index_in_step`):
  not even those that a restart brings back from a log that missed a deletion.
-/
import MoltenDB.Proof.Deletions
import MoltenDB.Proof.Numbers
import MoltenDB.Proof.UpdateMerges

namespace MoltenDB

open Wire Prog Prog.Eff SystemFields LogCommand Operations Numbering

section

variable [Crates] {t : UInt64} {id c : String} {db db' : Db}

/-- An object that is stored under the number `s`. -/
structure SequencedAt (s : UInt64) (v : Json) : Prop where
  room : v.Room 0
  holds : v.Holds TOK_SEQ (.ofU64 s)

omit [Crates] in
theorem SequencedAt.canon {s : UInt64} {v : Json} (h : SequencedAt s v) : SequencedAt s v.canon :=
  ⟨h.room.canon, h.holds.canon⟩

theorem SequencedAt.read {s : UInt64} {v : Json} (h : SequencedAt s v) :
    readMsgpackSeqToken (valueToMsgpack v) = s := by
  rw [readMsgpackSeqToken, h.holds.readTokenU64 (by decide) h.room.fits h.room.depth, Json.asU64_ofU64]
  rfl

omit [Crates] in
theorem SequencedAt.field {s : UInt64} {v : Json} (h : SequencedAt s v) :
    fieldU64 v.canon IKEY_SEQ = some s := by
  rw [fieldU64, h.holds.get_canon systemField_seq]
  rfl

omit [Crates] in
theorem Unsequenced.sequencedAt {v : Json} (h : Unsequenced v) (ver created now s : UInt64) :
    SequencedAt s (stampWith v ver created now s) :=
  ⟨(((h.room.set rfl ver).set rfl created).set rfl now).set rfl s,
    holds_seq_stampWith h.object h.seq ver created now s⟩

omit [Crates] in
theorem fieldU64_stampWith {v : Json} (h : v.isObject = true) (ver created now s : UInt64) :
    fieldU64 (stampWith v ver created now s) IKEY_SEQ = some s := by
  rw [fieldU64, stampWith, Json.get_set (by simp [h]), if_pos rfl]
  rfl

/-- A stored document, and how it is decoded. -/
theorem Db.Counted.stored (h : db.Counted) {k : String} {doc : Json}
    (hdoc : (db.bytes c k).bind msgpackToValue = some doc) :
    ∃ v s, doc = v.canon ∧ SequencedAt s v ∧ db.numberOf c k = some s := by
  obtain ⟨b, hb, hdec⟩ := Option.bind_eq_some_iff.1 hdoc
  obtain ⟨v, rfl, hv⟩ := h.docs.bytes c k b hb
  rw [msgpackToValue_valueToMsgpack hv.room.fits] at hdec
  obtain ⟨s, -, hholds⟩ := hv.holds
  have hat : SequencedAt s v := ⟨hv.room, hholds⟩
  exact ⟨v, s, (Option.some.inj hdec).symm, hat, by rw [Db.numberOf, hb, Option.map_some, hat.read]⟩

/-- A prepared object has the number of the document that it replaces, or the next one. -/
theorem Db.Counted.prepared_at (h : db.Counted) {item : String × Json} {now : UInt64} {value : Json}
    (hitem : Unsequenced item.2) (hprep : Prepares db c item now (db.nextNumber c) value) :
    ∃ s, SequencedAt s value ∧ fieldU64 value IKEY_SEQ = some s ∧
      (db.numberOf c item.1 = some s ∨ db.numberOf c item.1 = none ∧ s = db.nextNumber c) := by
  cases hprep with
  | overwrite old hold =>
    obtain ⟨v, s, rfl, hv, hnum⟩ := h.stored hold
    rw [stampOverwrite, hv.field]
    exact ⟨s, hitem.sequencedAt _ _ _ s, fieldU64_stampWith hitem.object _ _ _ s, Or.inl hnum⟩
  | new hnone =>
    refine ⟨_, hitem.sequencedAt 1 now now _, fieldU64_stampWith hitem.object 1 now now _,
      Or.inr ⟨?_, rfl⟩⟩
    rw [Db.numberOf]
    cases hb : db.bytes c item.1 with
    | none => rfl
    | some b =>
      obtain ⟨v, rfl, hv⟩ := h.docs.bytes c _ b hb
      rw [hb, Option.bind_some, msgpackToValue_valueToMsgpack hv.room.fits] at hnone
      cases hnone
  | other _ hother =>
    rw [hitem.object] at hother
    cases hother

/-! ## Inserts -/

theorem Db.Writing.itemStored (h : db.Writing t id) (hroom : (db.nextNumber c).toNat + 1 < 2 ^ 64)
    {item : String × Json} {value : Json} {s : UInt64} (hat : SequencedAt s value)
    (hfield : fieldU64 value IKEY_SEQ = some s)
    (hown : db.numberOf c item.1 = some s ∨ db.numberOf c item.1 = none ∧ s = db.nextNumber c)
    (hs : db.ItemStored c item value db') : db'.Writing t id := by
  have hnumbers := h.numbers.stored hroom hs hown hfield hat.read
  have hmem : Db.Writing t id { db' with log := db.log } :=
    h.changed rfl ⟨hnumbers.given, hnumbers.index⟩
  have hnot : LogCommand.canon IKEY_INSERT ≠ IKEY_TX_BEGIN ∧
      LogCommand.canon IKEY_INSERT ≠ IKEY_TX_COMMIT := by decide
  rcases hs.log with hlog | ⟨time, hlog⟩
  · exact hmem.idle ⟨rfl, rfl, rfl⟩ hlog
  · refine hmem.logged hnot (fun _ => ?_) ⟨rfl, rfl, rfl⟩ hlog
    have hbytes := bytes_put db.state c item.1 c item.1 (valueToMsgpack value)
    rw [← hs.state, if_pos ⟨rfl, rfl⟩] at hbytes
    have hnum : db'.numberOf c item.1 = some s := by
      rw [Db.numberOf, show db'.bytes c item.1 = _ from hbytes, Option.map_some, hat.read]
    exact hnum.trans (congrArg some hat.canon.read.symm)

/-- **An item is stored** under a number that no other document has. -/
theorem Db.Writing.wp_insertItem (h : db.Writing t id) (hcounted : db.Counted)
    (hroom : (db.nextNumber c).toNat + 1 < 2 ^ 64) {item : String × Json}
    (hitem : Unsequenced item.2) :
    wp (insertItem c item) (fun _ => Db.Writing t id) (fun _ => Db.Steady t) db := by
  have hstored : ∀ db', (∃ now value, Prepares db c item now (db.nextNumber c) value ∧
      db.ItemStored c item value db') → db'.Writing t id := by
    rintro db' ⟨now, value, hprep, hs⟩
    obtain ⟨s, hat, hfield, hown⟩ := hcounted.prepared_at hitem hprep
    exact h.itemStored hroom hat hfield hown hs
  refine wp_mono (MoltenDB.wp_insertItem c item db) (fun _ db' h' => hstored db' h') fun _ db' h' => ?_
  rcases h' with hr | hs
  · have hnumbers := h.steady.rejected hroom hr
    rw [Db.Steady, hr.log]
    exact hnumbers
  · exact (hstored db' hs).steady

/-- The part of an insert before its items opens a transaction. -/
theorem Db.Steady.wp_beginInsert (h : db.Steady t) :
    wp (Db.beginInsert c) (fun id => Db.Writing t id) (fun _ => Db.Steady t) db := by
  rw [Db.beginInsert, wp_bind]
  refine wp_mono (steady_checkFault db h) (fun _ db₁ h₁ => ?_) fun _ _ h => h
  rw [wp_bind]
  refine wp_mono (Db.steady_evictExpired db₁ h₁) (fun _ db₂ h₂ => ?_) fun _ _ h => h
  rw [wp_bind, wp_modify, wp_bind]
  have hnum : ∀ c' k, Db.numberOf
      { db₂ with state := db₂.state.alter c fun col => some (col.getD ∅) } c' k = db₂.numberOf c' k :=
    fun c' k => congrArg (Option.map readMsgpackSeqToken) (bytes_touch db₂.state c c' k)
  have h₃ : Db.Steady t { db₂ with state := db₂.state.alter c fun col => some (col.getD ∅) } :=
    h₂.mono (fun c' => (h₂.index c').congr (hnum c') fun _ => rfl) rfl fun c' k n hn =>
      hn.imp_left (hnum c' k).symm.trans
  refine wp_mono (steady_newUuid _ h₃) (fun id db₄ h₄ => ?_) fun _ _ h => h
  rw [wp_bind]
  exact wp_mono (h₄.wp_begin id) (fun _ _ h => h) fun _ _ h => h

/-- **An insert keeps the numbers**, also when it fails. -/
theorem Db.Steady.wp_insert (h : db.Steady t) {items : List (String × Json)}
    (hpending : Pending c items db) :
    wp (Db.insert c items) (fun _ db' => db'.Steady t ∧ db'.Counted)
      (fun _ db' => db'.Steady t ∧ db'.Counted) db := by
  rw [Db.insert_eq, wp_bind]
  refine wp_mono (wp_and h.wp_beginInsert (Db.removes_beginInsert.keeps
    (fun _ _ hr h => Pending.removes hr h) hpending)) (fun id db₁ h₁ => ?_)
    fun _ _ h => ⟨h.1, h.2.counted⟩
  rw [wp_bind]
  refine wp_mono (wp_forEach (fun items db => db.Writing t id ∧ Pending c items db)
    (fun item rest db h => ?_) items db₁ h₁) (fun _ db₂ h₂ => ?_) fun _ _ h => h
  · have hlen := h.2.counter
    rw [List.length_cons] at hlen
    exact wp_mono (wp_and (h.1.wp_insertItem h.2.counted (by omega)
      (h.2.unsequenced item List.mem_cons_self)) h.2.wp_insertItem) (fun _ _ h => h) fun _ _ h => h
  · have hend : wp (Db.endInsert c id) (fun _ => Db.Steady t) (fun _ => Db.Steady t) db₂ := by
      rw [Db.endInsert, wp_bind]
      refine wp_mono h₂.1.wp_commit (fun _ db₃ h₃ => ?_) fun _ _ h => h
      exact (Db.steady_evictOverflow.bind fun _ => Db.steady_resetExpiry) db₃ h₃
    exact wp_and hend ((Db.removes_endInsert id).keeps (fun _ _ hr h => h.loses hr.loses)
      h₂.2.counted)

/-! ## Updates -/

/-- A document is stored, logged and committed under its number. -/
theorem Db.Writing.wp_storeUpdate (h : db.Writing t id) {k : String} {v : Json} {s : UInt64}
    (hv : SequencedAt s v) (hown : db.numberOf c k = some s) :
    wp (storeUpdate c k id v) (fun _ => Db.Steady t) (fun _ => Db.Steady t) db := by
  rw [storeUpdate, wp_bind]
  refine wp_validateDocument (fun _ => ?_) h.steady
  rw [wp_bind, storeDoc, wp_modify, wp_bind]
  generalize hdb₁ : Db.mk _ _ _ _ _ _ _ _ _ _ _ _ _ = db₁
  have hstate : db₁.state =
      db.state.alter c fun col => some ((col.getD ∅).insert k (valueToMsgpack v)) := hdb₁ ▸ rfl
  have h₁ : db₁.Writing t id := by
    refine h.changed (hdb₁ ▸ rfl) (h.numbers.restored (hown.trans (congrArg some hv.read.symm)) hstate
      (hdb₁ ▸ rfl) (hdb₁ ▸ rfl))
  refine wp_mono (h₁.wp_log (by decide) fun _ => ?_) (fun _ db₂ h₂ => ?_) fun _ _ h => h
  · have hbytes := bytes_put db.state c k c k (valueToMsgpack v)
    rw [← hstate, if_pos ⟨rfl, rfl⟩] at hbytes
    rw [Db.numberOf, show db₁.bytes c k = _ from hbytes, Option.map_some, hv.read, hv.canon.read]
  · rw [wp_bind]
    exact wp_mono h₂.wp_commit (fun _ _ h₃ => h₃.idle ⟨rfl, rfl, rfl⟩ rfl) fun _ _ h => h

/-- **An update keeps the numbers**, if what it stores has the number of the document. -/
theorem Db.Steady.wp_update (h : db.Steady t) {k : String} {updates : Json}
    (hstore : ∀ doc, (db.bytes c k).bind msgpackToValue = some doc → ∃ s, db.numberOf c k = some s ∧
      SequencedAt s doc ∧ ∀ docObj updateObj, doc = .obj docObj → updates = .obj updateObj →
        ∀ now, SequencedAt s (merged docObj updateObj now)) :
    wp (Db.update c k updates) (fun _ => Db.Steady t) (fun _ => Db.Steady t) db := by
  simp only [Db.update, Operations.update, wp_bind]
  refine wp_checkFault (fun _ => wp_newUuid fun id n => ?_) fun _ => h
  have h₁ : Db.Steady t { db with tick := n } := h.idle ⟨rfl, rfl, rfl⟩ rfl
  have hbegin : wp (writeNew IKEY_TX_BEGIN c id .null) (fun _ db' => db'.state = db.state)
      (fun _ _ => True) { db with tick := n } := wp_writeNew (fun _ _ => rfl) fun _ _ => trivial
  refine wp_mono (wp_and (h₁.wp_begin id) hbegin) (fun _ db₂ h₂ => ?_) fun _ _ h => h.1
  obtain ⟨h₂, hstate⟩ := h₂
  have hbytes : db₂.bytes c k = db.bytes c k := by
    rw [Db.bytes, hstate]
    rfl
  rw [wp_get, hbytes]
  cases hdoc : (db.bytes c k).bind msgpackToValue with
  | none =>
    simp only [wp_bind, wp_pure]
    exact h₂.wp_commit
  | some doc =>
    obtain ⟨s, hown, hsame, hmerged⟩ := hstore doc hdoc
    rw [Db.numberOf, ← hbytes] at hown
    simp only [wp_bind, wp_pure]
    refine wp_mergeUpdate (fun _ => h₂.wp_storeUpdate hsame hown) ?_ h₂.steady
    intro docObj updateObj hobj hupdates now n'
    have h₃ : Db.Writing t id { db₂ with tick := n' } := h₂.idle ⟨rfl, rfl, rfl⟩ rfl
    exact h₃.wp_storeUpdate (hmerged docObj updateObj hobj hupdates now) hown

omit [Crates] in
/-- A document keeps its number when fields are merged into it that hold no other one. -/
theorem holds_mergeFields_at {n : UInt64} {updates fs : List (String × Json)}
    (hpub : ∀ p ∈ updates, p.1 ≠ SEQ) (hint : ∀ p ∈ updates, p.1 = IKEY_SEQ → p.2 = .ofU64 n)
    (hfs : fs.lookup SEQ = none) (hholds : (Json.obj fs).Holds TOK_SEQ (.ofU64 n)) :
    (Json.obj (mergeFields fs updates)).Holds TOK_SEQ (.ofU64 n) := by
  have hall : ∀ (ps : List (String × Json)) (fs : List (String × Json)), ps ⊆ updates →
      fs.lookup SEQ = none → (Json.obj fs).Holds TOK_SEQ (.ofU64 n) →
        (Json.obj (Fields.insertAll ps fs)).Holds TOK_SEQ (.ofU64 n) := by
    intro ps
    induction ps with
    | nil => exact fun _ _ _ h => h
    | cons p ps ih =>
      intro fs hsub hnone h
      have hp := hsub List.mem_cons_self
      refine ih (Fields.insert p.1 p.2 fs) (fun q hq => hsub (List.mem_cons_of_mem _ hq)) ?_ ?_
      · rw [Fields.lookup_insert, if_neg (Ne.symm (hpub p hp))]
        exact hnone
      · by_cases hkey : p.1 = IKEY_SEQ
        · rw [hkey, hint p hp hkey]
          exact systemField_seq.holds_set (v := .obj fs) rfl hnone (.ofU64 n)
        · refine h.set (fun htok => ?_) p.2
          exact ((systemField_seq.token p.1).1 htok).elim (hpub p hp) hkey
  exact hall _ fs (List.filter_subset_self _) hfs hholds

/-- **A batch of updates keeps the numbers**; the documents `db` are those before the batch. -/
theorem Db.Steady.wp_updateItems {items : List (String × Json)} (hnodup : (items.map Prod.fst).Nodup)
    (hstore : ∀ p ∈ items, hasReserved ["_v"] p.2 = false → ∀ doc,
      (db.bytes c p.1).bind msgpackToValue = some doc → ∃ s, db.numberOf c p.1 = some s ∧
        SequencedAt s doc ∧ ∀ docObj updateObj, doc = .obj docObj → p.2 = .obj updateObj →
          ∀ now, SequencedAt s (merged docObj updateObj now)) (n : ℕ) {db₁ : Db}
    (h : db₁.Steady t) (hsame : ∀ p ∈ items, db₁.bytes c p.1 = db.bytes c p.1) :
    wp (updateItems c n items) (fun _ => Db.Steady t) (fun _ => Db.Steady t) db₁ := by
  induction items generalizing n db₁ with
  | nil => exact h
  | cons item items ih =>
    rw [List.map_cons, List.nodup_cons] at hnodup
    refine wp_updateItems_cons (fun _ _ _ => h) fun hres => ?_
    have hbytes := hsame item List.mem_cons_self
    have hupdate := @Db.Steady.wp_update _ t c db₁ h item.1 item.2 fun doc hdoc => by
      rw [Db.numberOf, hbytes]
      exact hstore item List.mem_cons_self hres doc (hbytes ▸ hdoc)
    refine wp_mono (wp_and hupdate (wp_update_at db₁ c item.1 item.2)) (fun _ db₂ h₂ n => ?_)
      fun _ _ h _ _ => h.1
    refine ih hnodup.2 (fun p hp => hstore p (List.mem_cons_of_mem _ hp)) n h₂.1 fun p hp => ?_
    rw [h₂.2.others c p.1 fun hk => hnodup.1 (List.mem_map.2 ⟨p, hp, hk.2⟩)]
    exact hsame p (List.mem_cons_of_mem _ hp)

/-! ## Restarts -/

/-- What a later restart brings back of a document, an earlier one would have. -/
theorem durableAt_of_le {now : UInt64} (hle : t ≤ now) {log : List LogEntry} {k : String}
    {v : Option Json} (h : durableAt now log (.doc c k) = some v) :
    durableAt t log (.doc c k) = some v := by
  -- only an expiry that passes in between is read differently, and it removes documents
  have hearlier : ∀ e : LogEntry, e.writes now (.doc c k) ≠ some none →
      e.writes t (.doc c k) = e.writes now (.doc c k) := by
    intro e hne
    by_cases hcmd : e.cmd = "TTL_EXPIRY"
    · have hnow : ¬ e.Lapsed now c := fun hl => hne (writes_of_lapsed hl k)
      have ht : ¬ e.Lapsed t c := by
        rintro ⟨hc, exp, hexp, hpassed⟩
        exact hnow ⟨hc, exp, hexp, UInt64.le_trans hpassed hle⟩
      rw [writes_of_not_lapsed hcmd ht, writes_of_not_lapsed hcmd hnow]
    · rw [LogEntry.writes_doc t hcmd, LogEntry.writes_doc now hcmd]
  rw [durableAt, Overwrite.replay_eq] at h ⊢
  have hlast : Overwrite.last (LogEntry.writes now) (logReader log).applied (.doc c k) =
      some (some v) := by
    cases hl : Overwrite.last (LogEntry.writes now) (logReader log).applied (.doc c k) with
    | none =>
      rw [hl] at h
      cases h
    | some held =>
      rw [hl, Option.getD_some] at h
      rw [h]
  obtain ⟨A, e, B, hL, he, hB⟩ := Overwrite.last_eq_some_iff.1 hlast
  have hlast' : Overwrite.last (LogEntry.writes t) (logReader log).applied (.doc c k) =
      some (some v) := by
    refine Overwrite.last_eq_some_iff.2 ⟨A, e, B, hL, ?_, fun e' he' => ?_⟩
    · rw [hearlier e (by rw [he]; simp), he]
    · rw [hearlier e' (by rw [hB e' he']; simp), hB e' he']
  rw [hlast', Option.getD_some]

/-- **The index that is built of a walk**, if no two of its documents have the same number. -/
theorem get?_indexOf {es : List (String × Bytes)} (hdistinct : ∀ p ∈ es, ∀ q ∈ es,
    readMsgpackSeqToken p.2 = readMsgpackSeqToken q.2 → p.1 = q.1) (n : UInt64) (k : String) :
    (Db.indexOf es)[n]? = some k ↔ ∃ b, (k, b) ∈ es ∧ readMsgpackSeqToken b = n := by
  have hfold : ∀ (es : List (String × Bytes)) (idx : Map UInt64 String), (∀ p ∈ es, ∀ q ∈ es,
      readMsgpackSeqToken p.2 = readMsgpackSeqToken q.2 → p.1 = q.1) →
        ((es.foldl (fun idx e => idx.insert (readMsgpackSeqToken e.2) e.1) idx)[n]? = some k ↔
          (∃ b, (k, b) ∈ es ∧ readMsgpackSeqToken b = n) ∨
            idx[n]? = some k ∧ ∀ p ∈ es, readMsgpackSeqToken p.2 ≠ n) := by
    intro es
    induction es with
    | nil => simp
    | cons e es ih =>
      intro idx hdistinct
      rw [List.foldl_cons, ih _ fun p hp q hq =>
        hdistinct p (List.mem_cons_of_mem _ hp) q (List.mem_cons_of_mem _ hq), Map.get?_insert]
      constructor
      · rintro (⟨b, hb, hn⟩ | ⟨hidx, hnone⟩)
        · exact Or.inl ⟨b, List.mem_cons_of_mem _ hb, hn⟩
        · split_ifs at hidx with hn
          · obtain rfl := Option.some.inj hidx
            exact Or.inl ⟨e.2, List.mem_cons_self, hn.symm⟩
          · refine Or.inr ⟨hidx, fun p hp => ?_⟩
            rcases List.mem_cons.1 hp with rfl | hp
            · exact fun heq => hn heq.symm
            · exact hnone p hp
      · rintro (⟨b, hb, hn⟩ | ⟨hidx, hnone⟩)
        · rcases List.mem_cons.1 hb with rfl | hb
          · by_cases hlater : ∃ p ∈ es, readMsgpackSeqToken p.2 = n
            · -- a later document with the number has the same key
              obtain ⟨p, hp, hpn⟩ := hlater
              have hk : p.1 = k := hdistinct p (List.mem_cons_of_mem _ hp) (k, b) List.mem_cons_self
                (hpn.trans hn.symm)
              exact Or.inl ⟨p.2, hk ▸ hp, hpn⟩
            · push Not at hlater
              exact Or.inr ⟨by rw [if_pos hn.symm], hlater⟩
          · exact Or.inl ⟨b, hb, hn⟩
        · refine Or.inr ⟨?_, fun p hp => hnone p (List.mem_cons_of_mem _ hp)⟩
          rw [if_neg fun heq => hnone e List.mem_cons_self heq.symm]
          exact hidx
  rw [Db.indexOf, hfold es ∅ hdistinct]
  simp

/-- Opening reads the clock once, and indexes only collections that were rebuilt. -/
theorem wp_openOn_at {entries : List LogEntry} {E : DbError → Db → Prop} :
    wp (Db.openOn entries) (fun _ db' =>
      db'.state = (rebuild (db.world.clock db.tick) entries).state ∧
        ∀ c' : String, db'.state[c']? = none → db'.seqIndex[c']? = none) E db := by
  rw [Db.openOn, wp_bind]
  refine wp_nowMs_at ?_
  generalize db.world.clock db.tick = now
  dsimp only
  rw [wp_bind, wp_modify, wp_bind]
  refine wp_walk fun ks n hks => ?_
  refine wp_mono (wp_forEach (fun rest db' => (∀ p ∈ rest, ∃ col,
      (rebuild now entries).state[p.1]? = some col) ∧ db'.state = (rebuild now entries).state ∧
        ∀ c' : String, db'.state[c']? = none → db'.seqIndex[c']? = none) (fun p rest db₁ h₁ => ?_) _ _ ?_)
    (fun _ _ h => h.2) fun _ _ h => h
  · obtain ⟨hrest, hstate, hnone⟩ := h₁
    rw [Db.indexCollection, wp_bind]
    refine wp_walk fun ks' n' _ => ?_
    refine ⟨fun q hq => hrest q (List.mem_cons_of_mem _ hq), hstate, fun c' hc' => ?_⟩
    have hne : c' ≠ p.1 := by
      rintro rfl
      obtain ⟨col, hcol⟩ := hrest p List.mem_cons_self
      rw [← hstate, show db₁.state[p.1]? = none from hc'] at hcol
      cases hcol
    change (db₁.seqIndex.insert p.1 _)[c']? = none
    rw [Map.get?_insert, if_neg hne]
    exact hnone c' hc'
  · refine ⟨fun p hp => ?_, rfl, fun c' _ => Std.ExtTreeMap.getElem?_empty⟩
    rw [Map.mem_inOrder] at hp
    exact ⟨p.2, hp.2⟩

omit [Crates] in
theorem effects_canon (log : List LogEntry) :
    effects (log.map LogEntry.canon) = (logReader log).applied := by
  rw [effects, Journal.effects, List.map_map]
  rfl

/-- The documents after a restart have the numbers that the log says. -/
theorem Db.Counted.numberOf_rebuilt (h : db.Counted) (hfits : ∀ e ∈ db.log, e.Fits) {now : UInt64}
    (hstate : db'.state = (rebuild now (deliver db.log)).state) (k : String) :
    db'.numberOf c k = (durableAt now db.log (.doc c k)).number := by
  have hview : (rebuild now (deliver db.log)).view = durableAt now db.log := by
    rw [deliver_eq hfits, MoltenDB.view_rebuild now (fits_canon_value hfits), effects_canon, durableAt]
  have hreg := congrFun hview (.doc c k)
  rw [← hreg, Recovered.view, Db.numberOf, Db.bytes, hstate]
  change ((rebuild now (deliver db.log)).state.bytes c k).map _ = _
  cases hb : (rebuild now (deliver db.log)).state.bytes c k with
  | none => rfl
  | some b =>
    obtain ⟨v, rfl, hv⟩ := h.rebuilt hfits hb
    obtain ⟨s, -, hholds⟩ := hv.holds
    have hat : SequencedAt s v := ⟨hv.room, hholds⟩
    rw [Option.map_some, Option.map_some, msgpackToValue_valueToMsgpack hv.room.fits, Held.number,
      Option.join_some, Option.map_some, hat.read, hat.canon.read]

/-- **A restart keeps the numbers**, if it is not earlier than the one before. -/
theorem Db.Steady.opened (h : db.Steady t) (hcounted : db.Counted) (hfits : ∀ e ∈ db.log, e.Fits)
    {now now' : UInt64} (hle : t ≤ now) (hopen : db.Opened now' (deliver db.log) db')
    (hstate : db'.state = (rebuild now (deliver db.log)).state)
    (hindex : ∀ c' : String, db'.state[c']? = none → db'.seqIndex[c']? = none) : db'.Steady now := by
  have hnum : ∀ c k, db'.numberOf c k = (durableAt now db.log (.doc c k)).number := fun c k =>
    hcounted.numberOf_rebuilt hfits hstate k
  have huses : ∀ c k n, db'.Uses [durableAt now db'.log] c k n → db'.numberOf c k = some n := by
    rintro c k n (hn | ⟨v, hv, hn⟩)
    · exact hn
    · rw [List.mem_singleton, hopen.log] at hv
      rw [hnum, ← hv]
      exact hn
  have hbefore : ∀ c k n, db'.numberOf c k = some n → db.Uses [durableAt t db.log] c k n := by
    intro c k n hn
    rw [hnum, Held.number] at hn
    obtain ⟨v, hjoin, hread⟩ := Option.map_eq_some_iff.1 hn
    have hheld := durableAt_of_le hle (Option.join_eq_some_iff.1 hjoin)
    refine Or.inr ⟨_, List.mem_singleton_self _, ?_⟩
    rw [hheld, Held.number, Option.join_some, Option.map_some, hread]
  have hunique : ∀ {c k k' n}, db'.numberOf c k = some n → db'.numberOf c k' = some n → k = k' :=
    fun hk hk' => (h.given _).unique (hbefore _ _ _ hk) (hbefore _ _ _ hk')
  refine ⟨fun c => ⟨fun hk hk' => hunique (huses _ _ _ hk) (huses _ _ _ hk'), fun {k n} hn => ?_⟩,
    fun c n k => ?_⟩
  · obtain ⟨b, hb, rfl⟩ := Option.map_eq_some_iff.1 (huses _ _ _ hn)
    exact (hcounted.opened hfits hopen).below c k b hb
  · rw [Db.keyAt, Db.numberOf, Db.bytes]
    cases hcol : db'.state[c]? with
    | none =>
      rw [hindex c hcol]
      simp
    | some col =>
      obtain ⟨es, hes, hidx, -⟩ := hopen.indexed c col hcol
      have hread : ∀ p ∈ es, db'.numberOf c p.1 = some (readMsgpackSeqToken p.2) := by
        intro p hp
        rw [Db.numberOf, Db.bytes, hcol, Option.bind_some, (hes p.1 p.2).1 hp,
          Option.map_some]
      rw [hidx, Option.getD_some, get?_indexOf fun p hp q hq hpq =>
        hunique (hread p hp) (hpq ▸ hread q hq), Option.bind_some, Option.map_eq_some_iff]
      exact exists_congr fun b => and_congr_left fun _ => hes k b

end

/-! ## Requests -/

theorem Db.Limited.sameNumbers {db db' : Db} (h : db.Limited db') :
    db.SameNumbers db' ∧ db'.log = db.log := by
  obtain ⟨_, _, _, rfl⟩ := h
  exact ⟨⟨rfl, rfl, rfl⟩, rfl⟩

namespace ClientRequest

variable [Crates] [Lowercase] [FloatText] {maxBodySize maxKeysPerRequest : ℕ} {db : Db} {t : UInt64}

/-- Requests that keep the counters, and updates that write no other number. -/
def KeepsNumbers (db : Db) : ClientRequest → Prop
  | update payload => KeepsCounters db (update payload) ∧
    ∀ data, payload.field .data = some (.obj data) → ∀ p ∈ data, ∀ docObj updateObj,
      (db.bytes ((namedCollection payload).getD "default") p.1).bind msgpackToValue =
          some (.obj docObj) → p.2 = .obj updateObj →
        ∀ q ∈ updateObj, q.1 = IKEY_SEQ → docObj.lookup IKEY_SEQ = some q.2
  | r => KeepsCounters db r

omit [Crates] [Lowercase] [FloatText] in
theorem KeepsNumbers.keepsCounters {r : ClientRequest} (h : r.KeepsNumbers db) : r.KeepsCounters db := by
  cases r with
  | update payload => exact h.1
  | _ => exact h

omit [Lowercase] in
theorem steady_processSet (h : db.Steady t) (hcounted : db.Counted) {payload : Json}
    (hp : KeepsCounters db (.set payload)) :
    wp (processSet payload maxBodySize maxKeysPerRequest) (fun _ => Db.Steady t)
      (fun _ => Db.Steady t) db := by
  obtain ⟨hcount, hdocs⟩ := hp
  have hlimited : ∀ db', db.Limited db' → db'.Steady t := fun db' hlim =>
    h.idle hlim.sameNumbers.1 hlim.sameNumbers.2
  refine wp_processSet rfl (fun _ db' _ hlim => hlimited db' hlim) fun _ db₁ hlim => ?_
  refine wp_setData (fun _ _ n => (hlimited db₁ hlim).idle ⟨rfl, rfl, rfl⟩ rfl)
    fun items success hitems => ?_
  have hset := (setItems_of_dataItems hitems).of_state hlim.state
  have hdrawn := db₁.removes_drawn (payload.field .data)
  have h₂ : (db₁.drawn (payload.field .data)).Steady t := by
    refine (hlimited db₁ hlim).idle ?_ ?_
    · unfold Db.drawn
      split <;> exact ⟨rfl, rfl, rfl⟩
    · unfold Db.drawn
      split <;> rfl
  have hpending : Pending ((namedCollection payload).getD "default") items
      (db₁.drawn (payload.field .data)) := by
    refine ⟨hcounted.loses (hlim.removes.trans hdrawn).loses, fun item hitem => ?_, ?_⟩
    · obtain ⟨doc, hdoc, heq, hfree⟩ := hset.resolved item hitem
      obtain ⟨hobj, hroom⟩ := hdocs doc hdoc
      rw [← heq] at hobj hroom
      refine ⟨hobj, ?_, hroom⟩
      cases hv : item.2 with
      | obj fs =>
        rw [hv] at hfree
        exact lookup_public hfree (by decide) List.not_mem_nil
      | _ => rfl
    · rw [Db.nextNumber, (hlim.removes.trans hdrawn).seqCounters, hset.length]
      exact hcount
  exact wp_insertItems (wp_mono (h₂.wp_insert hpending) (fun _ _ h => h.1) fun _ _ h => h.1)

omit [Lowercase] in
theorem steady_processUpdate (h : db.Steady t) (hcounted : db.Counted) {payload : Json}
    (hp : KeepsNumbers db (.update payload)) :
    wp (processUpdate payload maxBodySize maxKeysPerRequest) (fun _ => Db.Steady t)
      (fun _ => Db.Steady t) db := by
  refine wp_processUpdate rfl (fun _ _ => h) fun _ data hdata => ?_
  obtain ⟨hnodup, hitems⟩ := hp.1 data hdata
  refine h.wp_updateItems hnodup (fun p hmem hfree doc hdoc => ?_) 0 fun _ _ => rfl
  obtain ⟨v, s, rfl, hv, hnum⟩ := hcounted.stored hdoc
  refine ⟨s, hnum, hv.canon, fun docObj updateObj hobj hupdates now => ?_⟩
  rw [hobj] at hdoc
  rw [hupdates] at hfree
  obtain ⟨-, hroom⟩ := hitems p hmem docObj updateObj hdoc hupdates
  have hnone : docObj.lookup SEQ = none := by
    have hget := Json.get_canon_public v (show SEQ ∈ publicNames by decide)
    rwa [hobj, Json.get_obj] at hget
  have hpub : ∀ q ∈ updateObj, q.1 ≠ SEQ := by
    intro q hq hname
    have hexc := not_reserved hfree hq (hname ▸ by decide)
    rw [hname] at hexc
    exact absurd hexc (by decide)
  have hint : ∀ q ∈ updateObj, q.1 = IKEY_SEQ → q.2 = .ofU64 s := by
    intro q hq hname
    have hlookup := hp.2 data hdata p hmem docObj updateObj hdoc hupdates q hq hname
    have hget := hv.holds.get_canon systemField_seq
    rw [hobj, Json.get_obj, hlookup] at hget
    exact Option.some.inj hget
  have hholds := holds_mergeFields_at hpub hint hnone (hobj ▸ hv.canon.holds)
  exact ⟨hroom now, (hholds.set (by decide) _).set (by decide) _⟩

omit [Lowercase] [FloatText] in
theorem steady_withTtl {c : String} {m : Op Response} (h : Keeps (Db.Steady t) m) (ttl : Option Json)
    (invalid : Response) : Keeps (Db.Steady t) (withTtl c ttl invalid m) := by
  intro db hdb
  refine wp_withTtl hdb (fun _ => h db hdb) fun _ secs _ _ => h _ ?_
  exact hdb.idle (db.limited_withTtlDefault c secs).sameNumbers.1
    (db.limited_withTtlDefault c secs).sameNumbers.2

omit [Lowercase] [FloatText] in
theorem steady_withMaxSize {c : String} {m : Op Response} (h : Keeps (Db.Steady t) m)
    (maxSize : Option Json) (invalid : Response) :
    Keeps (Db.Steady t) (withMaxSize c maxSize invalid m) := by
  intro db hdb
  refine wp_withMaxSize hdb (fun _ => h db hdb) fun _ _ _ _ _ => h _ ?_
  exact hdb.idle ⟨rfl, rfl, rfl⟩ rfl

omit [Lowercase] [FloatText] in
theorem steady_validated {m : Op Response} (h : Keeps (Db.Steady t) m)
    (check : Except ValidationError Unit) : Keeps (Db.Steady t) (validated check m) := by
  cases check with
  | error e => exact keeps_pure _
  | ok u => exact h

omit [Lowercase] in
theorem steady_processSchema (payload : Json) :
    Keeps (Db.Steady t) (processSchema payload maxBodySize maxKeysPerRequest) := by
  refine steady_validated (steady_validated ?_ _) _
  cases namedCollection payload with
  | none => exact keeps_pure _
  | some c =>
    have hrest : Keeps (Db.Steady t) (withTtl c (payload.field .ttl) SchemaError.invalidTtl.intoResponse
        (withMaxSize c (payload.field .maxSize) SchemaError.invalidMaxSize.intoResponse
          (pure (200, json [("status", .str "ok"), ("collection", .str c)])))) :=
      steady_withTtl (steady_withMaxSize (keeps_pure _) _ _) _ _
    dsimp only
    split_ifs
    · exact keeps_pure _
    · cases payload.field .schema with
      | none => exact hrest
      | some schema =>
        refine (Operations.steady_setSchema schema).outcome.bind fun r => ?_
        cases r with
        | ok u => exact hrest
        | error e => cases e <;> exact keeps_pure _

theorem steady_processDelete (payload : Json) :
    Keeps (Db.Steady t) (processDelete payload maxBodySize maxKeysPerRequest) := by
  have hkeys : ∀ (c : String) (keys : List String) (failed : String → DeleteError),
      Keeps (Db.Steady t) (deleteByKeys c keys failed) := fun c keys failed =>
    (Db.steady_delete keys).outcome.bind fun _ => keeps_pure _
  refine steady_validated (steady_validated ?_ _) _
  dsimp only
  split_ifs
  · refine Db.steady_deleteCollection.outcome.bind fun r => ?_
    cases r with
    | ok u => exact keeps_pure _
    | error e => exact keeps_pure _
  · split
    · split_ifs
      · exact keeps_pure _
      · exact (Db.steady_deleteFiltered _ _ _).outcome.bind fun _ => keeps_pure _
    · split_ifs
      · exact keeps_pure _
      · exact (Db.steady_deleteN _ _).outcome.bind fun _ => keeps_pure _
    · exact hkeys _ _ _
    · exact hkeys _ _ _
    · exact keeps_pure _

theorem steady_processGet (payload : Json) :
    Keeps (Db.Steady t) (processGet payload maxBodySize maxKeysPerRequest) := fun _ h =>
  (drew_processGet payload maxBodySize maxKeysPerRequest).keeps
    (fun _ _ ⟨_, hdb⟩ h => h.idle (hdb ▸ ⟨rfl, rfl, rfl⟩) (hdb ▸ rfl)) h

/-- **A request keeps the numbers.** -/
theorem steady_next (h : db.Steady t) (hcounted : db.Counted) {r : ClientRequest}
    (hr : r.KeepsNumbers db) (hnot : r ≠ restart) :
    (next maxBodySize maxKeysPerRequest db r).Steady t := by
  refine wp_final ?_
  cases r with
  | set payload =>
    simp only [run, wp_bind, wp_pure]
    exact steady_processSet h hcounted hr
  | update payload =>
    simp only [run, wp_bind, wp_pure]
    exact steady_processUpdate h hcounted hr
  | delete payload =>
    simp only [run, wp_bind, wp_pure]
    exact steady_processDelete payload db h
  | schema payload =>
    simp only [run, wp_bind, wp_pure]
    exact steady_processSchema payload db h
  | get payload =>
    simp only [run, wp_bind, wp_pure]
    exact steady_processGet payload db h
  | drop c => exact Db.steady_deleteCollection db h
  | restart => exact absurd rfl hnot

theorem steady_restart (h : db.Steady t) (hcounted : db.Counted)
    (hr : KeepsNumbers db restart) (hle : t ≤ db.world.clock db.tick) :
    (next maxBodySize maxKeysPerRequest db restart).Steady (db.world.clock db.tick) := by
  refine wp_final ?_
  simp only [run, wp_bind, wp_get]
  refine wp_mono (wp_and (wp_openOn (E := fun _ => Db.Steady (db.world.clock db.tick)))
    (wp_openOn_at (E := fun _ => Db.Steady (db.world.clock db.tick)))) (fun _ db' h' => ?_)
    fun _ _ h => h.1
  obtain ⟨⟨now', hopen⟩, hstate, hindex⟩ := h'
  exact h.opened hcounted hr hle hopen hstate hindex

end ClientRequest

/-! ## Runs -/

/-- A database, and the time that was read when it was opened. -/
structure Running where
  db : Db
  openedAt : UInt64

namespace Running

variable [Crates] [Lowercase] [FloatText] {maxBodySize maxKeysPerRequest : ℕ}

def next (maxBodySize maxKeysPerRequest : ℕ) (s : Running) (r : ClientRequest) : Running :=
  { db := ClientRequest.next maxBodySize maxKeysPerRequest s.db r
    openedAt := match r with
      | .restart => s.db.world.clock s.db.tick
      | _ => s.openedAt }

/-- Requests that keep the numbers, and restarts that are not earlier than the one before. -/
def Proceeds (s : Running) (r : ClientRequest) : Prop :=
  r.KeepsNumbers s.db ∧ (r = .restart → s.openedAt ≤ s.db.world.clock s.db.tick)

theorem steady_next {s : Running} {r : ClientRequest} (hcounted : s.db.Counted)
    (h : s.db.Steady s.openedAt) (hr : s.Proceeds r) :
    (next maxBodySize maxKeysPerRequest s r).db.Steady
      (next maxBodySize maxKeysPerRequest s r).openedAt := by
  obtain ⟨hkeeps, htime⟩ := hr
  by_cases hrestart : r = .restart
  · subst hrestart
    exact ClientRequest.steady_restart h hcounted hkeeps (htime rfl)
  · have hsame : (next maxBodySize maxKeysPerRequest s r).openedAt = s.openedAt := by
      cases r with
      | restart => exact absurd rfl hrestart
      | _ => rfl
    rw [hsame]
    exact ClientRequest.steady_next h hcounted hkeeps hrestart

end Running

/-- Where there are no documents, no number is used. -/
theorem Db.NoDocs.steady [Crates] {db : Db} (h : db.NoDocs) (hindex : db.seqIndex = ∅) (t : UInt64) :
    db.Steady t := by
  have hnum : ∀ c k, db.numberOf c k = none := fun c k => by
    rw [Db.numberOf, h.bytes]
    rfl
  have huses : ∀ c k n, ¬ db.Uses [durableAt t db.log] c k n := by
    rintro c k n (hn | ⟨v, hv, hn⟩)
    · rw [hnum] at hn
      cases hn
    · rw [List.mem_singleton] at hv
      subst hv
      obtain ⟨v, hjoin, -⟩ := Option.map_eq_some_iff.1 hn
      have hheld := Option.join_eq_some_iff.1 hjoin
      rw [durableAt, Overwrite.replay_eq] at hheld
      cases hlast : Overwrite.last (LogEntry.writes t) (logReader db.log).applied (.doc c k) with
      | none =>
        rw [hlast] at hheld
        cases hheld
      | some held =>
        rw [hlast, Option.getD_some] at hheld
        obtain ⟨e, he, hw⟩ := Overwrite.exists_of_last hlast
        rw [hheld] at hw
        rw [← effects_canon] at he
        obtain ⟨e, he', rfl⟩ := List.mem_map.1 (mem_effects he)
        exact h.log e he' (LogEntry.doc_of_writes _ hw).1
  refine ⟨fun c => ⟨fun hk _ => absurd hk (huses _ _ _), fun hk => absurd hk (huses _ _ _)⟩,
    fun c n k => ?_⟩
  rw [hnum, Db.keyAt, hindex]
  simp

theorem Db.Steady.inStep [Crates] {db : Db} {t : UInt64} (h : db.Steady t) : db.InStep := by
  intro c col hcol
  have hnum : ∀ {k b}, col[k]? = some b → db.numberOf c k = some (readMsgpackSeqToken b) := by
    intro k b hb
    rw [Db.numberOf, Db.bytes, show db.state[c]? = some col from hcol, Option.bind_some, hb]
    rfl
  refine ⟨fun k k' b b' hb hb' hseq => ?_, fun n k => ?_⟩
  · exact (h.index c).unique (hnum hb) (hseq ▸ hnum hb')
  · rw [← Db.keyAt, h.index c n k, Db.numberOf, Db.bytes,
      show db.state[c]? = some col from hcol, Option.bind_some, Option.map_eq_some_iff]

section

variable [Crates] [Lowercase] [FloatText] {maxBodySize maxKeysPerRequest : ℕ}

end

section

/-- A document is set, the database restarted, and another document set. -/
def setRestartSet : List ClientRequest :=
  [.set (oneDocPayload "k" (.obj [])), .restart, .set (oneDocPayload "m" (.obj []))]

end

end MoltenDB
