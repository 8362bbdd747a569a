/-
  The counter of a collection is above the sequence numbers of its documents, in runs in which
  every document that is set is an object, no update writes another number, and the counter does
  not run out.
-/
import MoltenDB.Common.Aliases
import MoltenDB.Handlers.Requests

namespace MoltenDB

open Wire Prog Prog.Eff Operations SystemFields

/-- The number that stands for none is the last one. -/
def MAX_SEQ : UInt64 := UInt64.ofNat (2 ^ 64 - 1)

/-- The sequence number that the next new document of a collection gets. -/
def Db.nextNumber (db : Db) (c : String) : UInt64 := db.seqCounters[c]?.getD 0

/-- An object that holds its sequence number, which is below `n`. -/
structure Sequenced (n : UInt64) (v : Json) : Prop where
  room : v.Room 0
  holds : ∃ s < n, v.Holds TOK_SEQ (.ofU64 s)

theorem Sequenced.mono {n m : UInt64} {v : Json} (h : Sequenced n v) (hnm : n ≤ m) : Sequenced m v := by
  obtain ⟨s, hs, hholds⟩ := h.holds
  exact ⟨h.room, s, UInt64.lt_of_lt_of_le hs hnm, hholds⟩

theorem Sequenced.canon {n : UInt64} {v : Json} (h : Sequenced n v) : Sequenced n v.canon := by
  obtain ⟨s, hs, hholds⟩ := h.holds
  exact ⟨h.room.canon, s, hs, hholds.canon⟩

theorem lt_max_seq {n m : UInt64} (h : n < m) : n < MAX_SEQ := by
  have hm := m.toNat_lt
  rw [UInt64.lt_iff_toNat_lt] at h ⊢
  have hmax : MAX_SEQ.toNat = 2 ^ 64 - 1 := by decide
  omega

section

variable [Crates]

/-- The number that is read of a document. -/
theorem Sequenced.read_lt {n : UInt64} {v : Json} (h : Sequenced n v) :
    readMsgpackSeqToken (valueToMsgpack v) < n := by
  obtain ⟨s, hs, hholds⟩ := h.holds
  rw [readMsgpackSeqToken, hholds.readTokenU64 (by decide) h.room.fits h.room.depth,
    Json.asU64_ofU64]
  exact hs

theorem Sequenced.of_read_lt {n m : UInt64} {v : Json} (h : Sequenced n v)
    (hread : readMsgpackSeqToken (valueToMsgpack v) < m) : Sequenced m v := by
  obtain ⟨s, hs, hholds⟩ := h.holds
  rw [readMsgpackSeqToken, hholds.readTokenU64 (by decide) h.room.fits h.room.depth,
    Json.asU64_ofU64] at hread
  exact ⟨h.room, s, hread, hholds⟩

/-- **The invariant**: every document holds a number, and that is below the counter of its
    collection. -/
structure Db.Counted (db : Db) : Prop where
  docs : db.AllDocs (Sequenced MAX_SEQ)
  below : ∀ c k b, db.bytes c k = some b → readMsgpackSeqToken b < db.nextNumber c

/-- A document of the invariant, as it is decoded. -/
theorem Db.Counted.decoded {db : Db} (h : db.Counted) {c k : String} {doc : Json}
    (hdoc : (db.bytes c k).bind msgpackToValue = some doc) :
    ∃ v, doc = v.canon ∧ Sequenced (db.nextNumber c) v := by
  obtain ⟨b, hb, hdec⟩ := Option.bind_eq_some_iff.1 hdoc
  obtain ⟨v, rfl, hv⟩ := h.docs.bytes c k b hb
  rw [msgpackToValue_valueToMsgpack hv.room.fits] at hdec
  exact ⟨v, (Option.some.inj hdec).symm, hv.of_read_lt (h.below c k _ hb)⟩

theorem Db.Counted.loses {db db' : Db} (hl : db.Loses db') (h : db.Counted) : db'.Counted := by
  refine ⟨h.docs.loses hl, fun c k b hb => ?_⟩
  rcases hl.seqCounters c with hsame | hnone
  · rw [Db.nextNumber, hsame]
    exact h.below c k b (hl.bytes c k b hb)
  · rw [hnone k] at hb
    cases hb

/-! ## Sets -/

/-- An object that brings no sequence number of its own. -/
structure Unsequenced (v : Json) : Prop where
  object : v.isObject = true
  seq : v.get SEQ = none
  room : v.Room 4

omit [Crates] in
/-- A stamped value has the sequence number, if it brings none under the public name. -/
theorem holds_seq_stampWith {v : Json} (hobj : v.isObject = true) (hnone : v.get SEQ = none)
    (ver created now seq : UInt64) :
    (stampWith v ver created now seq).Holds TOK_SEQ (.ofU64 seq) := by
  refine systemField_seq.holds_set (by simp [hobj]) ?_ (.ofU64 seq)
  rw [Json.get_set (by simp [hobj]), Json.get_set (by simp [hobj]), Json.get_set hobj]
  exact hnone

omit [Crates] in
theorem Unsequenced.sequenced {v : Json} (h : Unsequenced v) {seq n : UInt64} (hseq : seq < n)
    (ver created now : UInt64) : Sequenced n (stampWith v ver created now seq) := by
  obtain ⟨hobj, hnone, hroom⟩ := h
  exact ⟨(((hroom.set rfl ver).set rfl created).set rfl now).set rfl seq, seq, hseq,
    holds_seq_stampWith hobj hnone ver created now seq⟩

/-- A prepared object has its old number, or the next one. -/
theorem Db.Counted.prepared {db : Db} (h : db.Counted) {c : String} {item : String × Json}
    {now : UInt64} {value : Json} (hitem : Unsequenced item.2)
    (hroom : (db.nextNumber c).toNat + 1 < 2 ^ 64)
    (hprep : Prepares db c item now (db.nextNumber c) value) :
    Sequenced (db.nextNumber c + 1) value := by
  have hnext : db.nextNumber c < db.nextNumber c + 1 := by
    rw [UInt64.lt_iff_toNat_lt, UInt64.toNat_add]
    simp only [UInt64.toNat_one]
    omega
  cases hprep with
  | overwrite old hold =>
    obtain ⟨v, rfl, hv⟩ := h.decoded hold
    obtain ⟨s, hs, hholds⟩ := hv.holds
    have hseq : fieldU64 v.canon IKEY_SEQ = some s := by
      rw [fieldU64, hholds.get_canon systemField_seq]
      rfl
    rw [stampOverwrite, hseq]
    exact hitem.sequenced (UInt64.lt_trans hs hnext) _ _ _
  | new => exact hitem.sequenced hnext _ _ _
  | other _ hother =>
    rw [hitem.object] at hother
    cases hother

/-- Items can be stored: objects without numbers, and the counter does not run out. -/
structure Pending (c : String) (items : List (String × Json)) (db : Db) : Prop where
  counted : db.Counted
  unsequenced : ∀ item ∈ items, Unsequenced item.2
  counter : (db.nextNumber c).toNat + items.length < 2 ^ 64

theorem Pending.removes {c : String} {items : List (String × Json)} {db db' : Db}
    (hr : db.Removes db') (h : Pending c items db) : Pending c items db' := by
  refine ⟨h.counted.loses hr.loses, h.unsequenced, ?_⟩
  rw [Db.nextNumber, hr.seqCounters]
  exact h.counter

theorem Pending.wp_insertItem {c : String} {item : String × Json} {items : List (String × Json)}
    {db : Db} (h : Pending c (item :: items) db) :
    wp (insertItem c item) (fun _ => Pending c items) (fun _ => Db.Counted) db := by
  have hlen := h.counter
  rw [List.length_cons] at hlen
  have hcount : (db.nextNumber c + 1).toNat = (db.nextNumber c).toNat + 1 := by
    rw [UInt64.toNat_add, UInt64.toNat_one]
    exact Nat.mod_eq_of_lt (by omega)
  have hnext : ∀ db' : Db, db'.seqCounters = db.seqCounters.insert c (db.nextNumber c + 1) →
      ∀ c', db'.nextNumber c' = if c' = c then db.nextNumber c + 1 else db.nextNumber c' := by
    intro db' heq c'
    rw [Db.nextNumber, heq, Map.get?_insert]
    split_ifs
    · rfl
    · rfl
  have hgrow : ∀ db' : Db, db'.seqCounters = db.seqCounters.insert c (db.nextNumber c + 1) →
      ∀ c', db.nextNumber c' ≤ db'.nextNumber c' := by
    intro db' heq c'
    rw [hnext db' heq c']
    split_ifs with hc
    · rw [hc, UInt64.le_iff_toNat_le, hcount]
      omega
    · exact UInt64.le_refl _
  have hstored : ∀ db' now value, Prepares db c item now (db.nextNumber c) value →
      db.ItemStored c item value db' → db'.Counted := by
    intro db' now value hprep hs
    have hnum := h.counted.prepared (h.unsequenced item List.mem_cons_self) (by omega) hprep
    have hmax : db.nextNumber c + 1 ≤ MAX_SEQ := by
      rw [UInt64.le_iff_toNat_le, hcount]
      have hmax : MAX_SEQ.toNat = 2 ^ 64 - 1 := by decide
      omega
    refine ⟨h.counted.docs.itemStored (hnum.mono hmax) hs, fun c' k' b hb => ?_⟩
    have hput := bytes_put db.state c item.1 c' k' (valueToMsgpack value)
    rw [← hs.state] at hput
    have hb := hput.symm.trans hb
    split_ifs at hb with hck
    · rw [hnext db' hs.seqCounters, if_pos hck.1, ← Option.some.inj hb]
      exact hnum.read_lt
    · exact UInt64.lt_of_lt_of_le (h.counted.below c' k' b hb) (hgrow db' hs.seqCounters c')
  refine wp_mono (MoltenDB.wp_insertItem c item db) (fun _ db' h' => ?_) fun _ db' h' => ?_
  · obtain ⟨now, value, hprep, hs⟩ := h'
    refine ⟨hstored db' now value hprep hs,
      fun item' hitem' => h.unsequenced item' (List.mem_cons_of_mem _ hitem'), ?_⟩
    rw [hnext db' hs.seqCounters, if_pos rfl, hcount]
    omega
  · rcases h' with hr | ⟨now, value, hprep, hs⟩
    · refine ⟨h.counted.docs.itemRejected hr, fun c' k b hb => ?_⟩
      rw [Db.bytes, hr.state] at hb
      exact UInt64.lt_of_lt_of_le (h.counted.below c' k b hb) (hgrow db' hr.seqCounters c')
    · exact hstored db' now value hprep hs

end

/-! ## Updates -/

/-- A document after its fields were set to values of which none is another number. -/
theorem holds_mergeFields {n : UInt64} {updates fs : List (String × Json)}
    (hpub : ∀ p ∈ updates, p.1 ≠ SEQ) (hint : ∀ p ∈ updates, p.1 = IKEY_SEQ → ∃ s < n, p.2 = .ofU64 s)
    (hfs : fs.lookup SEQ = none) (hholds : ∃ s < n, (Json.obj fs).Holds TOK_SEQ (.ofU64 s)) :
    ∃ s < n, (Json.obj (mergeFields fs updates)).Holds TOK_SEQ (.ofU64 s) := by
  have hall : ∀ (ps : List (String × Json)) (fs : List (String × Json)), ps ⊆ updates →
      fs.lookup SEQ = none → (∃ s < n, (Json.obj fs).Holds TOK_SEQ (.ofU64 s)) →
        ∃ s < n, (Json.obj (Fields.insertAll ps fs)).Holds TOK_SEQ (.ofU64 s) := by
    intro ps
    induction ps with
    | nil => exact fun _ _ _ h => h
    | cons p ps ih =>
      intro fs hsub hnone h
      have hp := hsub List.mem_cons_self
      refine ih (Fields.insert p.1 p.2 fs) (fun q hq => hsub (List.mem_cons_of_mem _ hq)) ?_ ?_
      · rw [Fields.lookup_insert, if_neg (Ne.symm (hpub p hp))]
        exact hnone
      · by_cases hkey : p.1 = IKEY_SEQ
        · obtain ⟨s, hs, hval⟩ := hint p hp hkey
          refine ⟨s, hs, ?_⟩
          rw [hkey, hval]
          exact systemField_seq.holds_set (v := .obj fs) rfl hnone (.ofU64 s)
        · obtain ⟨s, hs, hold⟩ := h
          refine ⟨s, hs, hold.set (fun htok => ?_) p.2⟩
          exact ((systemField_seq.token p.1).1 htok).elim (hpub p hp) hkey
  exact hall _ fs (List.filter_subset_self _) hfs hholds

section

variable [Crates]

theorem Db.Counted.wp_storeUpdate {db : Db} (h : db.Counted) {c : String} (k id : String) {v : Json}
    (hv : Sequenced (db.nextNumber c) v) :
    wp (storeUpdate c k id v) (fun _ => Db.Counted) (fun _ => Db.Counted) db := by
  have hmax : Sequenced MAX_SEQ v := by
    obtain ⟨s, hs, hholds⟩ := hv.holds
    exact ⟨hv.room, s, lt_max_seq hs, hholds⟩
  refine wp_mono (wp_and (h.docs.wp_storeUpdate c k id hmax) (wp_storeUpdate_mayStore c k id v db))
    ?_ ?_
  all_goals
    rintro _ db' ⟨hdocs, hstore⟩
    refine ⟨hdocs, fun c' k' b hb => ?_⟩
    rw [Db.nextNumber, hstore.seqCounters]
    rcases hstore.bytes c' k' with hsame | ⟨⟨rfl, rfl⟩, hput⟩
    · exact h.below c' k' b (hsame ▸ hb)
    · rw [hput] at hb
      rw [← Option.some.inj hb]
      exact hv.read_lt

end

/-! ## Runs -/

namespace ClientRequest

variable [Crates]

/-- A set of objects for which the counter has numbers left; an update that writes no number
    into a document that is not below the counter; a restart whose entries have lengths that fit
    their headers. -/
def KeepsCounters (db : Db) : ClientRequest → Prop
  | set payload =>
    (db.nextNumber ((namedCollection payload).getD "default")).toNat +
        (setDocs payload).length < 2 ^ 64 ∧
      ∀ doc ∈ setDocs payload, (resolveExtends db doc).isObject = true ∧ (resolveExtends db doc).Room 4
  | update payload => ∀ data, payload.field .data = some (.obj data) →
    (data.map Prod.fst).Nodup ∧ ∀ p ∈ data, ∀ docObj updateObj,
      (db.bytes ((namedCollection payload).getD "default") p.1).bind msgpackToValue =
          some (.obj docObj) → p.2 = .obj updateObj →
        (∀ q ∈ updateObj, q.1 = IKEY_SEQ →
          ∃ s < db.nextNumber ((namedCollection payload).getD "default"), q.2 = .ofU64 s) ∧
        ∀ now, (merged docObj updateObj now).Room 0
  | restart => ∀ e ∈ db.log, e.Fits
  | _ => True

variable [Lowercase] [FloatText] {maxBodySize maxKeysPerRequest : ℕ} {db : Db}

omit [Lowercase] in
theorem counted_set (h : db.Counted) {payload : Json} (hp : KeepsCounters db (.set payload)) :
    wp (processSet payload maxBodySize maxKeysPerRequest) (fun _ => Db.Counted)
      (fun _ => Db.Counted) db := by
  refine wp_processSet_keeps (J := Pending ((namedCollection payload).getD "default")) rfl
    (fun _ _ hr h => h.loses hr.loses) (fun _ _ _ hr h => h.removes hr) (fun _ _ h => h.counted)
    (fun _ _ _ h => h.wp_insertItem) h fun _ items db₁ hr h₁ hitems => ?_
  obtain ⟨hcount, hdocs⟩ := hp
  refine ⟨h₁, fun item hitem => ?_, ?_⟩
  · obtain ⟨doc, hdoc, heq, hfree⟩ := hitems.resolved item hitem
    obtain ⟨hobj, hroom⟩ := hdocs doc hdoc
    rw [← heq] at hobj hroom
    refine ⟨hobj, ?_, hroom⟩
    cases hv : item.2 with
    | obj fs =>
      rw [hv] at hfree
      exact lookup_public hfree (by decide) List.not_mem_nil
    | _ => rfl
  · rw [Db.nextNumber, hr.seqCounters, hitems.length]
    exact hcount

omit [Lowercase] in
theorem counted_update (h : db.Counted) {payload : Json} (hp : KeepsCounters db (.update payload)) :
    wp (processUpdate payload maxBodySize maxKeysPerRequest) (fun _ => Db.Counted)
      (fun _ => Db.Counted) db := by
  refine wp_mono (wp_processUpdate_keeps (I := fun db' => db'.Counted ∧ db'.seqCounters = db.seqCounters)
    rfl (fun _ _ hr h => ⟨h.1.loses hr.loses, hr.seqCounters.trans h.2⟩) ⟨h, rfl⟩
    fun _ data hdata => ?_) (fun _ _ h => h.1) fun _ _ h => h.1
  obtain ⟨hnodup, hitems⟩ := hp data hdata
  refine ⟨hnodup, fun p hmem hfree doc db₁ hdoc h₁ => ?_⟩
  generalize (namedCollection payload).getD "default" = c at *
  obtain ⟨v, rfl, hv⟩ := h.decoded hdoc
  have hstore : ∀ (value : Json) (db₂ : Db), Sequenced (db.nextNumber c) value → db₂.Counted →
      db₂.seqCounters = db.seqCounters → ∀ id, wp (storeUpdate c p.1 id value)
        (fun _ db' => db'.Counted ∧ db'.seqCounters = db.seqCounters)
        (fun _ db' => db'.Counted ∧ db'.seqCounters = db.seqCounters) db₂ := by
    intro value db₂ hvalue h₂ hcounters id
    have hnum : Sequenced (db₂.nextNumber c) value := by
      rw [Db.nextNumber, hcounters]
      exact hvalue
    exact wp_mono (wp_and (h₂.wp_storeUpdate p.1 id hnum) (wp_storeUpdate_mayStore c p.1 id value db₂))
      (fun _ _ h => ⟨h.1, h.2.seqCounters.trans hcounters⟩)
      fun _ _ h => ⟨h.1, h.2.seqCounters.trans hcounters⟩
  refine wp_mergeUpdate (fun _ => hstore _ db₁ hv.canon h₁.1 h₁.2) ?_ h₁
  intro docObj updateObj hobj hupdates now n
  refine hstore _ _ ?_ (h₁.1.loses (Db.Drew.removes ⟨n, rfl⟩).loses) h₁.2
  rw [hupdates] at hfree
  rw [hobj] at hdoc
  obtain ⟨hseq, hroom⟩ := hitems p hmem docObj updateObj hdoc hupdates
  have hnone : docObj.lookup SEQ = none := by
    have hpublic : SEQ ∈ publicNames := by decide
    have hget := Json.get_canon_public v hpublic
    rwa [hobj, Json.get_obj] at hget
  have hdoc' : ∃ s < db.nextNumber c, (Json.obj docObj).Holds TOK_SEQ (.ofU64 s) := by
    rw [← hobj]
    exact hv.canon.holds
  have hpub : ∀ q ∈ updateObj, q.1 ≠ SEQ := by
    intro q hq hname
    have hexc := not_reserved hfree hq (hname ▸ by decide)
    rw [hname] at hexc
    exact absurd hexc (by decide)
  obtain ⟨s, hs, hholds⟩ := holds_mergeFields hpub hseq hnone hdoc'
  exact ⟨hroom now, s, hs, (hholds.set (by decide) _).set (by decide) _⟩

end ClientRequest

/-! ### Restarts -/

section

variable [Crates] {db : Db}

/-- What a restart rebuilds has numbers below the last one. -/
theorem Db.Counted.rebuilt (h : db.Counted) (hfits : ∀ e ∈ db.log, e.Fits) {now : UInt64}
    {c k : String} {b : Bytes} (hb : (rebuild now (deliver db.log)).state.bytes c k = some b) :
    ∃ v, b = valueToMsgpack v ∧ Sequenced MAX_SEQ v := by
  obtain ⟨e, he, hcmd, rfl⟩ := exists_of_rebuild hb
  rw [deliver_eq hfits] at he
  obtain ⟨e', he', rfl⟩ := List.mem_map.1 he
  exact ⟨_, rfl, (h.docs.log e' he' hcmd).canon⟩

/-- Whatever order a restart reads the documents of a collection in, there is a number above
    theirs to start its counter from. -/
def Db.SeedFits (db : Db) : Prop :=
  ∀ (now : UInt64) (c : String) (col : DashMap Bytes) (es : List (String × Bytes)),
    (rebuild now (deliver db.log)).state[c]? = some col → (∀ p ∈ es, col[p.1]? = some p.2) →
      (Db.maxSeq es).toNat + 1 < 2 ^ 64

theorem Db.Counted.seedFits (h : db.Counted) (hfits : ∀ e ∈ db.log, e.Fits) : db.SeedFits := by
  intro now c col es hcol hes
  have hle : Db.maxSeq es ≤ MAX_SEQ - 1 := by
    refine maxSeq_le_iff.2 fun p hp => ?_
    have hb : (rebuild now (deliver db.log)).state.bytes c p.1 = some p.2 := by
      rw [State.bytes, hcol]
      exact hes p hp
    obtain ⟨v, hv, hnum⟩ := h.rebuilt hfits hb
    have hread := hnum.read_lt
    rw [← hv, UInt64.lt_iff_toNat_lt] at hread
    rw [UInt64.le_iff_toNat_le]
    have hmax : MAX_SEQ.toNat = 2 ^ 64 - 1 := by decide
    have hpred : (MAX_SEQ - 1).toNat = 2 ^ 64 - 2 := by decide
    omega
  rw [UInt64.le_iff_toNat_le] at hle
  have hpred : (MAX_SEQ - 1).toNat = 2 ^ 64 - 2 := by decide
  omega

theorem Db.Counted.opened (h : db.Counted) (hfits : ∀ e ∈ db.log, e.Fits) {db' : Db} {now : UInt64}
    (hopen : db.Opened now (deliver db.log) db') : db'.Counted := by
  refine ⟨h.docs.opened (fun _ hv => hv.canon) hfits hopen, fun c k b hb => ?_⟩
  cases hcol : db'.state[c]? with
  | none =>
    rw [Db.bytes, hcol] at hb
    cases hb
  | some col =>
    obtain ⟨es, hes, -, hcounter⟩ := hopen.indexed c col hcol
    have hbcol : col[k]? = some b := by
      rw [Db.bytes, hcol] at hb
      exact hb
    have hseed := h.seedFits hfits now c col es (hopen.state ▸ hcol) fun p hp => (hes p.1 p.2).1 hp
    have hle := maxSeq_le_iff.1 (UInt64.le_refl (Db.maxSeq es)) (k, b) ((hes k b).2 hbcol)
    rw [Db.nextNumber, hcounter, Option.getD_some, UInt64.lt_iff_toNat_lt, UInt64.toNat_add,
      UInt64.toNat_one, Nat.mod_eq_of_lt hseed]
    rw [UInt64.le_iff_toNat_le] at hle
    exact Nat.lt_succ_of_le hle

end

/-! ### The counter -/

section

variable [Crates] [Lowercase] [FloatText] {maxBodySize maxKeysPerRequest : ℕ}

omit [Lowercase] [FloatText] in
/-- A new object is stored under the number that it drew. -/
theorem Unsequenced.read_stampNew {v : Json} (h : Unsequenced v) (now seq : UInt64) :
    readMsgpackSeqToken (valueToMsgpack (stampNew v now seq)) = seq := by
  have hroom : (stampNew v now seq).Room 0 :=
    (((h.room.set rfl 1).set rfl now).set rfl now).set rfl seq
  have hholds : (stampNew v now seq).Holds TOK_SEQ (.ofU64 seq) := by
    refine systemField_seq.holds_set (by simp [h.object]) ?_ (.ofU64 seq)
    rw [Json.get_set (by simp [h.object]), Json.get_set (by simp [h.object]), Json.get_set h.object]
    exact h.seq
  rw [readMsgpackSeqToken, hholds.readTokenU64 (by decide) hroom.fits hroom.depth, Json.asU64_ofU64]
  rfl

theorem ClientRequest.counted_next {db : Db} {r : ClientRequest} (h : db.Counted)
    (hr : r.KeepsCounters db) : (next maxBodySize maxKeysPerRequest db r).Counted := by
  refine next_keeps _ _ (fun _ _ hl h => h.loses hl) h r ?_ ?_ ?_
  · rintro payload rfl
    exact counted_set h hr
  · rintro payload rfl
    exact counted_update h hr
  · rintro rfl
    refine wp_mono (wp_openOn (E := fun _ => Db.Counted)) (fun _ db' hopen => ?_) fun _ _ h => h
    obtain ⟨now, hopen⟩ := hopen
    exact h.opened hr hopen

/-- **The counter of every collection stays above the numbers of its documents**, so that of a
    new document is above them all, and every restart finds a number to start it from. -/
theorem counter_above_documents {db : Db} {rs : List ClientRequest} (hdb : db.NoDocs)
    (hrun : Runs.Along (ClientRequest.next maxBodySize maxKeysPerRequest)
      ClientRequest.KeepsCounters db rs) :
    let db' := Runs.after (ClientRequest.next maxBodySize maxKeysPerRequest) db rs
    (∀ c k b, db'.bytes c k = some b → readMsgpackSeqToken b < db'.nextNumber c) ∧
      (∀ c k b, db'.bytes c k = some b → ∀ v now, Unsequenced v → readMsgpackSeqToken b <
        readMsgpackSeqToken (valueToMsgpack (stampNew v now (db'.nextNumber c)))) ∧
      ((∀ e ∈ db'.log, e.Fits) → db'.SeedFits) := by
  have hall := hrun.keeps (I := Db.Counted) (fun _ _ h hr => ClientRequest.counted_next h hr)
    ⟨hdb.allDocs _, fun c k b hb => by rw [hdb.bytes] at hb; cases hb⟩
  refine ⟨hall.below, fun c k b hb v now hv => ?_, hall.seedFits⟩
  rw [hv.read_stampNew]
  exact hall.below c k b hb

end

section

/-- A document is set, another one updated, and the database restarted. -/
def setUpdateRestart : List ClientRequest :=
  [.set (oneDocPayload "k" (.obj [])), .update (oneDocPayload "other" (.obj [("-3", .str "x")])), .restart]

theorem counter_above_documents_set :
    letI := Crates.plain
    letI := Lowercase.ascii
    letI := FloatText.plain
    let db' := Runs.after (ClientRequest.next 1000 10) (Db.blank (World.plain 1000 []) 0)
      setUpdateRestart
    ∀ b, db'.bytes "c" "k" = some b → readMsgpackSeqToken b < db'.nextNumber "c" := by
  let _ := Crates.plain
  let _ := Lowercase.ascii
  let _ := FloatText.plain
  intro db' b hb
  have hrun : Runs.Along (ClientRequest.next 1000 10) ClientRequest.KeepsCounters
      (Db.blank (World.plain 1000 []) 0) setUpdateRestart := by
    refine ⟨⟨by decide, fun doc hdoc => ?_⟩, fun data hdata => ?_, ?_, trivial⟩
    · rw [List.mem_singleton.1 hdoc]
      refine ⟨rfl, by decide, by decide, ?_⟩
      rintro fs hfs
      rw [← Json.obj.inj hfs]
      decide
    · obtain rfl := Json.obj.inj (Option.some.inj hdata)
      refine ⟨by decide, fun p hp docObj updateObj hdoc => ?_⟩
      rw [List.mem_singleton.1 hp] at hdoc
      have hnone : ((ClientRequest.next 1000 10 (Db.blank (World.plain 1000 []) 0)
          (.set (oneDocPayload "k" (.obj [])))).bytes "c" "other") = none := by decide +kernel
      have hcol : (namedCollection (oneDocPayload "other" (.obj [("-3", .str "x")]))).getD "default" =
          "c" := rfl
      rw [hcol, hnone] at hdoc
      cases hdoc
    · change ∀ e ∈ _, _
      decide +kernel
  have hempty : (Db.blank (World.plain 1000 []) 0).NoDocs :=
    ⟨fun c k => by simp [Db.blank, Db.bytes], by simp [Db.blank]⟩
  exact (counter_above_documents hempty hrun).1 "c" "k" b hb

/-- **An update can write another number**, and text in its place reads as the last one; then a
    restart has no number to start from. -/
theorem counter_passed :
    letI := Crates.plain
    letI := Lowercase.ascii
    letI := FloatText.plain
    let set := processSet (oneDocPayload "k" (.obj [])) 1000 10 (Db.blank (World.plain 1000 []) 0)
    let update := processUpdate (oneDocPayload "k" (.obj [("-3", .str "x")])) 1000 10 set.2
    set.1.toOption.map Prod.fst = some 200 ∧ update.1.toOption.map Prod.fst = some 200 ∧
      (update.2.bytes "c" "k").map readMsgpackSeqToken = some MAX_SEQ ∧
      update.2.nextNumber "c" = 1 ∧
      (ClientRequest.next 1000 10 update.2 .restart).nextNumber "c" = 0 := by
  decide +kernel

end

end MoltenDB
