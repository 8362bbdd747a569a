/-
  What holds of all documents: of the stored ones, and of those that a restart may bring back.

  A property of values that decoding keeps holds of all documents of a reopened database if it
  held before (`Db.AllDocs.wp_openOn`).  Opening indexes what was rebuilt, collection by
  collection (`wp_openOn`).
-/
import MoltenDB.Engine.Items
import MoltenDB.Engine.Removals

namespace MoltenDB

open Wire Prog Prog.Eff LogCommand

/-- Every stored document is the encoding of a value with `P`, and every logged one has `P`. -/
structure Db.AllDocs (P : Json → Prop) (db : Db) : Prop where
  bytes : ∀ c k b, db.bytes c k = some b → ∃ v, b = valueToMsgpack v ∧ P v
  log : ∀ e ∈ db.log, e.Puts → P e.value

/-- A database without documents, in memory or in its log. -/
structure Db.NoDocs (db : Db) : Prop where
  bytes : ∀ c k, db.bytes c k = none
  log : ∀ e ∈ db.log, ¬ e.Puts

theorem Db.NoDocs.allDocs {db : Db} (h : db.NoDocs) (P : Json → Prop) : db.AllDocs P := by
  refine ⟨fun c k b hb => ?_, fun e he hputs => absurd hputs (h.log e he)⟩
  rw [h.bytes] at hb
  cases hb

section

variable {P Q : Json → Prop} {db db' : Db}

theorem Db.AllDocs.mono (h : db.AllDocs P) (hPQ : ∀ v, P v → Q v) : db.AllDocs Q := by
  refine ⟨fun c k b hb => ?_, fun e he hputs => hPQ _ (h.log e he hputs)⟩
  obtain ⟨v, rfl, hv⟩ := h.bytes c k b hb
  exact ⟨v, rfl, hPQ v hv⟩

theorem Db.AllDocs.removes (hr : db.Removes db') (h : db.AllDocs P) : db'.AllDocs P := by
  refine ⟨fun c k b hb => h.bytes c k b (hr.bytes c k b hb), fun e he hputs => ?_⟩
  exact h.log e ((hr.mem_log e he).resolve_right fun hn => hn hputs) hputs

/-- A document with `P` is stored. -/
theorem Db.AllDocs.store {c k : String} {v : Json} (h : db.AllDocs P) (hv : P v)
    (hstate : db'.state =
      db.state.alter c fun col => some ((col.getD ∅).insert k (valueToMsgpack v)))
    (hlog : db'.log = db.log) : db'.AllDocs P := by
  refine ⟨fun c' k' b hb => ?_, fun e he => h.log e (hlog ▸ he)⟩
  have hput : State.bytes db'.state c' k' = some b := hb
  rw [hstate, bytes_put] at hput
  split_ifs at hput with hck
  · exact ⟨v, (Option.some.inj hput).symm, hv⟩
  · exact h.bytes c' k' b hput

/-- An entry is logged; if it inserts a document, the document has `P`. -/
theorem Db.AllDocs.wp_log {cmd c k : String} {v : Json} (h : db.AllDocs P)
    (hv : LogCommand.canon cmd = IKEY_INSERT → P v) :
    wp (writeNew cmd c k v) (fun _ => Db.AllDocs P) (fun _ => Db.AllDocs P) db := by
  refine wp_writeNew (fun t n => ⟨h.bytes, fun e he hputs => ?_⟩) fun _ _ => ⟨h.bytes, h.log⟩
  rcases List.mem_append.1 he with he | he
  · exact h.log e he hputs
  · obtain rfl := List.mem_singleton.1 he
    exact hv hputs

theorem Db.AllDocs.itemStored {c : String} {item : String × Json} {value : Json}
    (h : db.AllDocs P) (hv : P value) (hs : db.ItemStored c item value db') : db'.AllDocs P := by
  refine ⟨fun c' k' b hb => ?_, fun e he hputs => ?_⟩
  · have hput : State.bytes db'.state c' k' = some b := hb
    rw [hs.state, bytes_put] at hput
    split_ifs at hput with hck
    · exact ⟨value, (Option.some.inj hput).symm, hv⟩
    · exact h.bytes c' k' b hput
  · rcases hs.log with hlog | ⟨t, hlog⟩
    · exact h.log e (hlog ▸ he) hputs
    · rw [hlog] at he
      rcases List.mem_append.1 he with he | he
      · exact h.log e he hputs
      · obtain rfl := List.mem_singleton.1 he
        exact hv

theorem Db.AllDocs.itemRejected {c : String} (h : db.AllDocs P) (hr : db.ItemRejected c db') :
    db'.AllDocs P := by
  refine ⟨fun c' k' b hb => h.bytes c' k' b ?_, fun e he => h.log e (hr.log ▸ he)⟩
  rwa [Db.bytes, hr.state] at hb

/-- An insert of one item keeps a property of all documents that every prepared form of the
    value has. -/
theorem Db.AllDocs.wp_item (h : db.AllDocs P) (c : String) {item : String × Json}
    (hitem : ∀ now seq value, Prepares db c item now seq value → P value) :
    wp (Operations.insertItem c item) (fun _ => Db.AllDocs P) (fun _ => Db.AllDocs P) db := by
  refine wp_mono (wp_insertItem c item db) (fun _ db' hs => ?_) fun _ db' hs => ?_
  · obtain ⟨now, value, hprep, hs⟩ := hs
    exact h.itemStored (hitem _ _ _ hprep) hs
  · rcases hs with hr | ⟨now, value, hprep, hs⟩
    · exact h.itemRejected hr
    · exact h.itemStored (hitem _ _ _ hprep) hs

/-- The second half of an update keeps a property of all documents that the new value has. -/
theorem Db.AllDocs.wp_storeUpdate (h : db.AllDocs P) (c k id : String) {v : Json} (hv : P v) :
    wp (Operations.storeUpdate c k id v) (fun _ => Db.AllDocs P) (fun _ => Db.AllDocs P) db := by
  simp only [Operations.storeUpdate, Operations.storeDoc, wp_bind, wp_modify, wp_send]
  refine wp_validateDocument (fun _ => ?_) h
  generalize hdb₁ : Db.mk _ _ _ _ _ _ _ _ _ _ _ _ _ = db₁
  have h₁ : db₁.AllDocs P := by
    subst hdb₁
    exact h.store hv rfl rfl
  refine wp_mono (h₁.wp_log fun _ => hv) (fun _ db₂ h₂ => ?_) fun _ _ h => h
  refine wp_mono ((removes_commit id).keeps (fun _ _ hr h => h.removes hr) h₂)
    (fun _ db₃ h₃ => ⟨h₃.bytes, h₃.log⟩) fun _ _ h => h

end

/-! ## Opening -/

section

variable [Crates] {now : UInt64}

/-- What replay holds was inserted by an entry. -/
theorem exists_of_applyEntry {s : Recovered} {e : LogEntry} {c k : String} {b : Bytes}
    (h : (applyEntry now s e).state.bytes c k = some b) :
    s.state.bytes c k = some b ∨ e.cmd = IKEY_INSERT ∧ b = valueToMsgpack e.value := by
  unfold applyEntry at h
  split_ifs at h with h1 h2 h3 h4 h5
  · rw [bytes_put] at h
    split_ifs at h
    · exact Or.inr ⟨h1, (Option.some.inj h).symm⟩
    · exact Or.inl h
  · rw [bytes_remove] at h
    split_ifs at h
    exact Or.inl h
  · rw [bytes_drop] at h
    split_ifs at h
    exact Or.inl h
  · cases hx : parseU64 e.key with
    | none =>
      rw [hx] at h
      exact Or.inl h
    | some t =>
      rw [hx] at h
      dsimp only at h
      split_ifs at h
      · exact Or.inl h
      · rw [bytes_drop] at h
        split_ifs at h
        exact Or.inl h
  · cases hx : Crates.validatorFor e.value with
    | error err =>
      rw [hx] at h
      exact Or.inl h
    | ok p =>
      rw [hx] at h
      exact Or.inl h
  · exact Or.inl h

/-- **Every rebuilt document was inserted by an entry of the log.** -/
theorem exists_of_rebuild {L : List LogEntry} {c k : String} {b : Bytes}
    (h : (rebuild now L).state.bytes c k = some b) :
    ∃ e ∈ L, e.cmd = IKEY_INSERT ∧ b = valueToMsgpack e.value := by
  rw [rebuild_eq] at h
  have hfold : ∀ (es : List LogEntry) (s : Recovered),
      (es.foldl (applyEntry now) s).state.bytes c k = some b →
        s.state.bytes c k = some b ∨ ∃ e ∈ es, e.cmd = IKEY_INSERT ∧ b = valueToMsgpack e.value := by
    intro es
    induction es with
    | nil => exact fun _ h => Or.inl h
    | cons e es ih =>
      intro s h
      rcases ih _ h with h | ⟨e', he', hput⟩
      · rcases exists_of_applyEntry h with h | hput
        · exact Or.inl h
        · exact Or.inr ⟨e, List.mem_cons_self, hput⟩
      · exact Or.inr ⟨e', List.mem_cons_of_mem _ he', hput⟩
  rcases hfold _ _ h with h | ⟨e, he, hput⟩
  · simp [Recovered.empty, State.bytes] at h
  · exact ⟨e, mem_effects he, hput⟩

end

/-- **The highest sequence number** is at most `n` if all are. -/
theorem maxSeq_le_iff [Crates] {es : List (String × Bytes)} {n : UInt64} :
    Db.maxSeq es ≤ n ↔ ∀ e ∈ es, readMsgpackSeqToken e.2 ≤ n := by
  have hfold : ∀ m : UInt64, es.foldl (fun m e =>
      if m < readMsgpackSeqToken e.2 then readMsgpackSeqToken e.2 else m) m ≤ n ↔
        m ≤ n ∧ ∀ e ∈ es, readMsgpackSeqToken e.2 ≤ n := by
    induction es with
    | nil => simp
    | cons e es ih =>
      intro m
      rw [List.foldl_cons, ih, List.forall_mem_cons, ← and_assoc]
      refine and_congr_left fun _ => ?_
      split_ifs with hlt
      · exact ⟨fun h => ⟨UInt64.le_trans (UInt64.le_of_lt hlt) h, h⟩, fun h => h.2⟩
      · exact ⟨fun h => ⟨h, UInt64.le_trans (UInt64.not_lt.1 hlt) h⟩, fun h => h.1⟩
  rw [Db.maxSeq, hfold]
  exact and_iff_right UInt64.zero_le

/-- What opening leaves: the replayed state, and for each collection an index and a counter
    from a walk over its documents. -/
structure Db.Opened [Crates] (now : UInt64) (entries : List LogEntry) (db db' : Db) : Prop where
  state : db'.state = (rebuild now entries).state
  schemas : db'.schemas = (rebuild now entries).schemas
  ttlExpiry : db'.ttlExpiry = (rebuild now entries).ttlExpiry
  ttlDefaults : db'.ttlDefaults = ∅
  maxSizes : db'.maxSizes = ∅
  log : db'.log = db.log
  failedWrites : db'.failedWrites = db.failedWrites
  indexed : ∀ (c : String) (col : DashMap Bytes), db'.state[c]? = some col → ∃ es : List (String × Bytes),
    (∀ k b, (k, b) ∈ es ↔ col[k]? = some b) ∧ db'.seqIndex[c]? = some (Db.indexOf es) ∧
      db'.seqCounters[c]? = some (Db.maxSeq es + 1)

/-- **Opening replays the entries and indexes what they rebuild.** -/
theorem wp_openOn [Crates] {entries : List LogEntry} {db : Db} {E : DbError → Db → Prop} :
    wp (Db.openOn entries) (fun _ db' => ∃ now, db.Opened now entries db') E db := by
  simp only [Db.openOn, wp_bind, wp_modify]
  refine wp_nowMs fun now n => wp_walk fun ks m hks => ?_
  -- the collections still to come, and those that are indexed
  let J : List (String × DashMap Bytes) → Db → Prop := fun rest db' =>
    (∀ p ∈ rest, (rebuild now entries).state[p.1]? = some p.2) ∧
      db'.state = (rebuild now entries).state ∧ db'.schemas = (rebuild now entries).schemas ∧
      db'.ttlExpiry = (rebuild now entries).ttlExpiry ∧ db'.ttlDefaults = ∅ ∧ db'.maxSizes = ∅ ∧
      db'.log = db.log ∧ db'.failedWrites = db.failedWrites ∧
      ∀ (c : String) (col : DashMap Bytes), (rebuild now entries).state[c]? = some col →
        (c, col) ∈ rest ∨
          ∃ es : List (String × Bytes), (∀ k b, (k, b) ∈ es ↔ col[k]? = some b) ∧
            db'.seqIndex[c]? = some (Db.indexOf es) ∧
            db'.seqCounters[c]? = some (Db.maxSeq es + 1)
  have hmem : ∀ (c : String) (col : DashMap Bytes), (c, col) ∈ (rebuild now entries).state.inOrder ks ↔
      (rebuild now entries).state[c]? = some col := by
    intro c col
    rw [Map.mem_inOrder, hks.mem_iff, Map.mem_keys]
    exact ⟨fun h => h.2, fun h => ⟨⟨col, h⟩, h⟩⟩
  refine wp_mono (wp_forEach J (fun p rest db₁ h₁ => ?_) _ _ ?_) (fun _ db₂ h₂ => ⟨now, ?_⟩)
    fun _ _ h => h
  · obtain ⟨hrest, hstate, hschemas, hexp, hdef, hmax, hlog, hfailed, hidx⟩ := h₁
    simp only [Db.indexCollection, wp_bind, wp_modify]
    refine wp_walk fun ks' n' hks' => ?_
    refine ⟨fun q hq => hrest q (List.mem_cons_of_mem _ hq), hstate, hschemas, hexp, hdef, hmax,
      hlog, hfailed, fun c col hcol => ?_⟩
    by_cases hc : c = p.1
    · have hp := hrest p List.mem_cons_self
      rw [← hc, hcol] at hp
      obtain rfl := Option.some.inj hp
      refine Or.inr ⟨p.2.inOrder ks', fun k b => ?_, ?_, ?_⟩
      · rw [Map.mem_inOrder, hks'.mem_iff, Map.mem_keys]
        exact ⟨fun h => h.2, fun h => ⟨⟨b, h⟩, h⟩⟩
      · simp [hc]
      · simp [hc]
    · rcases hidx c col hcol with hin | ⟨es, hes, hseq, hcount⟩
      · refine Or.inl ((List.mem_cons.1 hin).resolve_left ?_)
        rintro rfl
        exact hc rfl
      · refine Or.inr ⟨es, hes, ?_, ?_⟩
        · simpa [Map.get?_insert, hc] using hseq
        · simpa [Map.get?_insert, hc] using hcount
  · refine ⟨fun p hp => (hmem p.1 p.2).1 hp, rfl, rfl, rfl, rfl, rfl, rfl, rfl, fun c col hcol => ?_⟩
    exact Or.inl ((hmem c col).2 hcol)
  · obtain ⟨-, hstate, hschemas, hexp, hdef, hmax, hlog, hfailed, hidx⟩ := h₂
    refine ⟨hstate, hschemas, hexp, hdef, hmax, hlog, hfailed, fun c col hcol => ?_⟩
    exact (hidx c col (hstate ▸ hcol)).resolve_left (List.not_mem_nil)

/-- **A restart keeps what all documents have**, if decoding does. -/
theorem Db.AllDocs.opened [Crates] {P : Json → Prop} (hP : ∀ v, P v → P v.canon) {db db' : Db}
    {now : UInt64} (h : db.AllDocs P) (hfits : ∀ e ∈ db.log, e.Fits)
    (hopen : db.Opened now (deliver db.log) db') : db'.AllDocs P := by
  refine ⟨fun c k b hb => ?_, fun e he => h.log e (hopen.log ▸ he)⟩
  rw [Db.bytes, hopen.state] at hb
  obtain ⟨e, he, hcmd, rfl⟩ := exists_of_rebuild hb
  rw [deliver_eq hfits] at he
  obtain ⟨e', he', rfl⟩ := List.mem_map.1 he
  exact ⟨_, rfl, hP _ (h.log e' he' hcmd)⟩

end MoltenDB
