/-
  A collection with a maximal size keeps its newest documents.

  Where nothing fails, an insert first numbers the keys that are new to the collection
  (`wp_insertItems_numbers`), and then evicts the documents with the lowest numbers
  (`wp_evictOldest_kept`).  A document that is overwritten keeps its number.
-/
import MoltenDB.Proof.Counters
import MoltenDB.Proof.Deletions

namespace MoltenDB

open Wire Prog Prog.Eff SystemFields LogCommand Operations

/-- The collection has a maximal size, but neither a schema nor a TTL, and nothing fails. -/
structure Db.Capped (c : String) (max : ℕ) (db : Db) : Prop where
  calm : db.world.Calm
  writes : db.ioFault = false
  maxSize : db.maxSizes[c]? = some max
  schema : db.schemas[c]? = none
  noTtl : db.ttlDefaults[c]? = none
  noExpiry : db.ttlExpiry[c]? = none

/-- An object that brings no sequence number, and that can be stored with its system fields. -/
structure Storable (v : Json) : Prop where
  object : v.isObject = true
  seq : v.get SEQ = none
  fits : v.Fits
  length : ∀ fs, v = .obj fs → fs.length + 4 < 2 ^ 32

/-- A number from which the documents of a batch are numbered. -/
def numberFrom (next : UInt64) (batch : List (String × Json)) (k : String) : Option UInt64 :=
  if k ∈ batch.map Prod.fst then some (next + UInt64.ofNat ((batch.map Prod.fst).idxOf k)) else none

/-- The sequence number of a document, as it is decoded. -/
def Db.number (db : Db) (c k : String) : Option UInt64 :=
  ((db.bytes c k).bind msgpackToValue).bind fun v => fieldU64 v IKEY_SEQ

/-- The sequence numbers after a batch was applied: a document keeps its number, and a key that
    is new gets the number that the counter has at its first place in the batch. -/
def Db.numberAfter (db : Db) (c : String) (batch : List (String × Json)) (k : String) :
    Option UInt64 :=
  (db.number c k).or (numberFrom (db.nextNumber c) batch k)

/-- The keys of the documents that are present after a batch was applied. -/
def Db.present (db : Db) (c : String) (batch : List (String × Json)) : List String :=
  (db.keys c ++ batch.map Prod.fst).dedup

section

variable {c : String} {max : ℕ} {db : Db}

/-! ## Nothing fails -/

theorem Db.Capped.of_same {db' : Db} (h : db.Capped c max) (hworld : db'.world = db.world)
    (hfault : db'.ioFault = db.ioFault) (hmax : db'.maxSizes = db.maxSizes)
    (hschemas : db'.schemas = db.schemas) (httl : db'.ttlDefaults = db.ttlDefaults)
    (hexp : db'.ttlExpiry = db.ttlExpiry) : db'.Capped c max :=
  ⟨hworld ▸ h.calm, hfault ▸ h.writes, hmax ▸ h.maxSize, hschemas ▸ h.schema, httl ▸ h.noTtl,
    hexp ▸ h.noExpiry⟩

theorem safe_writeNew (cmd k : String) (v : Json) :
    Safe (Db.Capped c max) (writeNew cmd c k v) := fun _ h =>
  wp_writeNew_calm h.calm fun _ _ => h.of_same rfl rfl rfl rfl rfl rfl

theorem safe_nowMs : Safe (Db.Capped c max) nowMs := fun _ h =>
  wp_nowMs fun _ _ => h.of_same rfl rfl rfl rfl rfl rfl

theorem safe_newUuid : Safe (Db.Capped c max) newUuid := fun _ h =>
  wp_newUuid fun _ _ => h.of_same rfl rfl rfl rfl rfl rfl

theorem safe_walk {α : Type} (m : DashMap α) : Safe (Db.Capped c max) (walk m) := fun _ h =>
  wp_walk fun _ _ _ => h.of_same rfl rfl rfl rfl rfl rfl

theorem safe_send (e : Json) : Safe (Db.Capped c max) (send e) :=
  safe_modify fun _ h => h.of_same rfl rfl rfl rfl rfl rfl

theorem safe_validateDocument (doc : Json) : Safe (Db.Capped c max) (validateDocument c doc) := by
  intro db h
  refine wp_validateDocument_accepts (fun _ => h) fun hrejects => ?_
  rw [Db.accepts, h.schema] at hrejects
  cases hrejects

theorem safe_prepare (existing : Option Json) (value : Json) (now seq : UInt64) :
    Safe (Db.Capped c max) (prepare c existing value now seq) := by
  cases existing with
  | some old => exact (safe_validateDocument _).bind fun _ => safe_pure _
  | none =>
    unfold prepare
    dsimp only
    split_ifs
    · exact (safe_validateDocument _).bind fun _ => safe_pure _
    · exact safe_pure _

theorem safe_insertItem (item : String × Json) : Safe (Db.Capped c max) (insertItem c item) := by
  have hseq : Safe (Db.Capped c max) (nextSeq c) :=
    safe_get.bind fun _ => (safe_modify fun _ h => h.of_same rfl rfl rfl rfl rfl rfl).bind fun _ =>
      safe_pure _
  exact safe_nowMs.bind fun _ => hseq.bind fun _ => safe_get.bind fun _ =>
    (safe_prepare _ _ _ _).bind fun _ =>
      (safe_modify fun _ h => h.of_same rfl rfl rfl rfl rfl rfl).bind fun _ =>
        (safe_modify fun _ h => h.of_same rfl rfl rfl rfl rfl rfl).bind fun _ =>
          (safe_writeNew _ _ _).bind fun _ => safe_send _

variable [Crates]

theorem safe_delete (keys : List String) : Safe (Db.Capped c max) (Operations.delete c keys) := by
  have hitem : ∀ k, Safe (Db.Capped c max) (deleteItem c k) := by
    intro k
    have hrest : Safe (Db.Capped c max) (do
        removeDoc c k
        writeNew IKEY_DELETE c k .null
        send (json [("event", .str "change"), ("collection", .str c), ("key", .str k),
          ("new_v", .null)])) :=
      (safe_modify fun _ h => h.of_same rfl rfl rfl rfl rfl rfl).bind fun _ =>
        (safe_writeNew _ _ _).bind fun _ => safe_send _
    refine safe_get.bind fun db => ?_
    cases db.bytes c k with
    | none => exact hrest
    | some bytes =>
      exact (safe_modify fun _ h => h.of_same rfl rfl rfl rfl rfl rfl).bind fun _ => hrest
  refine safe_newUuid.bind fun _ => (safe_writeNew _ _ _).bind fun _ => safe_get.bind fun _ => ?_
  split_ifs
  · exact (Safe.forEach hitem keys).bind fun _ => safe_writeNew _ _ _
  · exact safe_writeNew _ _ _

theorem safe_evictOldest (n : ℕ) : Safe (Db.Capped c max) (evictOldest c n) := by
  refine safe_get.bind fun db => ?_
  cases db.col c with
  | none => exact safe_pure _
  | some col =>
    refine (safe_walk col).bind fun _ => ?_
    dsimp only
    split_ifs
    · exact safe_pure _
    · exact (safe_delete _).outcome.bind fun _ => safe_pure _

end

/-! ## Numbers -/

section

variable {c : String} {max : ℕ} {db : Db}

/-- Every document of the collection is stored with its number. -/
def Db.Stamped (c : String) (db : Db) : Prop :=
  ∀ k b, db.bytes c k = some b →
    ∃ v n, b = valueToMsgpack v ∧ v.Fits ∧ v.Holds TOK_SEQ (.ofU64 n)

/-- The number of a stored document. -/
theorem fieldU64_canon {v : Json} {n : UInt64} (hholds : v.Holds TOK_SEQ (.ofU64 n)) :
    fieldU64 v.canon IKEY_SEQ = some n := by
  rw [fieldU64, hholds.get_canon systemField_seq]
  rfl

theorem Db.number_eq {k : String} {v : Json} {n : UInt64}
    (hb : db.bytes c k = some (valueToMsgpack v)) (hfits : v.Fits)
    (hholds : v.Holds TOK_SEQ (.ofU64 n)) : db.number c k = some n := by
  rw [Db.number, hb, Option.bind_some, msgpackToValue_valueToMsgpack hfits, Option.bind_some,
    fieldU64_canon hholds]

/-- The documents are those with a number. -/
theorem Db.Stamped.mem_keys (h : db.Stamped c) {k : String} :
    k ∈ db.keys c ↔ ∃ n, db.number c k = some n := by
  rw [Db.mem_keys]
  constructor
  · rintro ⟨b, hb⟩
    obtain ⟨v, n, rfl, hfits, hholds⟩ := h k b hb
    exact ⟨n, Db.number_eq hb hfits hholds⟩
  · rintro ⟨n, hn⟩
    obtain ⟨v, hv, -⟩ := Option.bind_eq_some_iff.1 hn
    obtain ⟨b, hb, -⟩ := Option.bind_eq_some_iff.1 hv
    exact ⟨b, hb⟩

theorem Storable.stamped {v : Json} (h : Storable v) (ver created now n : UInt64) :
    (stampWith v ver created now n).Fits ∧
      (stampWith v ver created now n).Holds TOK_SEQ (.ofU64 n) :=
  ⟨fits_stampWith h.fits h.length _ _ _ _, holds_seq_stampWith h.object h.seq ver created now n⟩

/-- An object is stored with the number of the document it replaces, or with the next one. -/
theorem Prepares.number {item : String × Json} (hitem : Storable item.2) {now : UInt64} {value : Json}
    (h : db.Stamped c) (hprep : Prepares db c item now (db.nextNumber c) value) :
    value.Fits ∧ value.Holds TOK_SEQ (.ofU64 ((db.number c item.1).getD (db.nextNumber c))) := by
  cases hprep with
  | overwrite old hold =>
    obtain ⟨b, hb, hdec⟩ := Option.bind_eq_some_iff.1 hold
    obtain ⟨v, n, rfl, hfits, hholds⟩ := h item.1 b hb
    rw [msgpackToValue_valueToMsgpack hfits] at hdec
    obtain rfl := Option.some.inj hdec
    rw [Db.number_eq hb hfits hholds, stampOverwrite, fieldU64_canon hholds]
    exact hitem.stamped _ _ _ n
  | new hnone =>
    rw [Db.number, hnone]
    exact hitem.stamped _ _ _ (db.nextNumber c)
  | other _ hother =>
    rw [hitem.object] at hother
    cases hother

/-- The documents after one more item: a key that is new gets the next number. -/
structure Db.Numbers (c key : String) (db db' : Db) : Prop where
  stamped : db'.Stamped c
  number : ∀ k, db'.number c k =
    if k = key then some ((db.number c k).getD (db.nextNumber c)) else db.number c k
  nextNumber : db'.nextNumber c = db.nextNumber c + 1

theorem wp_insertItem_numbers {item : String × Json} (hitem : Storable item.2)
    (h : db.Stamped c) (hcapped : db.Capped c max) :
    wp (insertItem c item) (fun _ db' => db.Numbers c item.1 db' ∧ db'.Capped c max)
      (fun _ _ => False) db := by
  refine (safe_insertItem item).and hcapped ?_
  refine wp_mono (wp_insertItem c item db) (fun _ db' hdb' => ?_) fun _ _ _ => trivial
  obtain ⟨now, value, hprep, hs⟩ := hdb'
  obtain ⟨hfits, hholds⟩ := hprep.number hitem h
  have hbytes : ∀ k, db'.bytes c k =
      if k = item.1 then some (valueToMsgpack value) else db.bytes c k := by
    intro k
    have hput := bytes_put db.state c item.1 c k (valueToMsgpack value)
    rw [← hs.state] at hput
    simp only [true_and] at hput
    exact hput
  refine ⟨fun k b hb => ?_, fun k => ?_, ?_⟩
  · rw [hbytes] at hb
    split_ifs at hb
    · exact ⟨value, _, (Option.some.inj hb).symm, hfits, hholds⟩
    · exact h k b hb
  · split_ifs with hk
    · rw [hk]
      exact Db.number_eq (by rw [hbytes, if_pos rfl]) hfits hholds
    · rw [Db.number, hbytes, if_neg hk]
      rfl
  · rw [Db.nextNumber, hs.seqCounters, Map.get?_insert, if_pos rfl]
    rfl

/-- **The numbers after a batch.** -/
theorem wp_insertItems_numbers {items : List (String × Json)} (hitems : ∀ item ∈ items, Storable item.2)
    (h : db.Stamped c) (hcapped : db.Capped c max) :
    wp (Eff.forEach (insertItem c) items)
      (fun _ db' => db'.Stamped c ∧ (∀ k, db'.number c k = db.numberAfter c items k) ∧
        db'.nextNumber c = db.nextNumber c + UInt64.ofNat items.length ∧ db'.Capped c max)
      (fun _ _ => False) db := by
  induction items generalizing db with
  | nil =>
    refine ⟨h, fun k => ?_, (UInt64.add_zero _).symm, hcapped⟩
    exact (Option.or_none).symm
  | cons item items ih =>
    rw [Eff.forEach, wp_bind]
    refine wp_mono (wp_insertItem_numbers (hitems item List.mem_cons_self) h hcapped)
      (fun _ db₁ h₁ => ?_) fun _ _ h => h
    obtain ⟨hnum, hcapped₁⟩ := h₁
    refine wp_mono (ih (fun item' hitem' => hitems item' (List.mem_cons_of_mem _ hitem'))
      hnum.stamped hcapped₁) (fun _ db₂ h₂ => ?_) fun _ _ h => h
    obtain ⟨hstamped, hnumber, hnext, hcapped₂⟩ := h₂
    refine ⟨hstamped, fun k => ?_, ?_, hcapped₂⟩
    · rw [hnumber, Db.numberAfter, Db.numberAfter, hnum.number, hnum.nextNumber, numberFrom, numberFrom,
        List.map_cons]
      by_cases hk : k = item.1
      · subst hk
        cases db.number c item.1 with
        | none => simp
        | some n => simp
      · have hadd : ∀ i : ℕ, db.nextNumber c + 1 + UInt64.ofNat i =
            db.nextNumber c + UInt64.ofNat (i + 1) := by
          intro i
          rw [UInt64.ofNat_add, UInt64.add_assoc, UInt64.add_comm 1]
          rfl
        rw [if_neg hk, List.idxOf_cons_ne _ (Ne.symm hk), hadd]
        simp only [List.mem_cons, hk, false_or]
    · rw [hnext, hnum.nextNumber, List.length_cons, UInt64.ofNat_add, UInt64.add_assoc,
        UInt64.add_comm 1]
      rfl

/-! ## Evictions -/

/-- The `n` documents with the lowest numbers are gone. -/
structure Db.Evicted (c : String) (n : ℕ) (db db' : Db) : Prop where
  bytes : ∀ k b, db'.bytes c k = some b → db.bytes c k = some b
  count : db'.count c = db.count c - n
  newest : ∀ k k' m m', db'.number c k = some m → db.number c k' = some m' →
    db'.number c k' = none → m' ≤ m
  nextNumber : db'.nextNumber c = db.nextNumber c

theorem Db.Evicted.number {n : ℕ} {db' : Db} (h : db.Evicted c n db') {k : String} {m : UInt64}
    (hm : db'.number c k = some m) : db.number c k = some m := by
  obtain ⟨v, hv, hseq⟩ := Option.bind_eq_some_iff.1 hm
  obtain ⟨b, hb, hdec⟩ := Option.bind_eq_some_iff.1 hv
  rw [Db.number, h.bytes k b hb, Option.bind_some, hdec]
  exact hseq

/-- Nothing is evicted. -/
theorem Db.Evicted.refl {n : ℕ} {db' : Db} (hbytes : ∀ k, db'.bytes c k = db.bytes c k)
    (hcount : db'.count c = db.count c - n) (hnext : db'.nextNumber c = db.nextNumber c) :
    db.Evicted c n db' := by
  refine ⟨fun k b hb => hbytes k ▸ hb, hcount, fun k k' m m' _ hm' hnone => ?_, hnext⟩
  rw [Db.number, hbytes] at hnone
  rw [Db.number, hnone] at hm'
  cases hm'

/-- The numbers and keys of all documents, in order. -/
structure Db.ByNumber (db : Db) (c : String) (pairs : List (UInt64 × String)) : Prop where
  mem : ∀ p, p ∈ pairs ↔ db.number c p.2 = some p.1
  nodup : (pairs.map Prod.snd).Nodup
  sorted : pairs.Pairwise fun a b => a.1 ≤ b.1

section

variable {pairs : List (UInt64 × String)} {n : ℕ} {db' : Db}

theorem Db.ByNumber.keys_perm (hp : db.ByNumber c pairs) (h : db.Stamped c) :
    (pairs.map Prod.snd).Perm (db.keys c) := by
  refine (List.perm_ext_iff_of_nodup hp.nodup Db.nodup_keys).2 fun k => ?_
  rw [h.mem_keys, List.mem_map]
  constructor
  · rintro ⟨p, hmem, rfl⟩
    exact ⟨p.1, (hp.mem p).1 hmem⟩
  · rintro ⟨m, hm⟩
    exact ⟨(m, k), (hp.mem (m, k)).2 hm, rfl⟩

/-- The keys that are left are those of the other pairs. -/
theorem Db.ByNumber.keys_left (hp : db.ByNumber c pairs) (h : db.Stamped c)
    (hbytes : ∀ k, db'.bytes c k =
      if k ∈ (pairs.take n).map Prod.snd then none else db.bytes c k) :
    (db'.keys c).Perm ((pairs.drop n).map Prod.snd) := by
  have hsplit : (pairs.take n).map Prod.snd ++ (pairs.drop n).map Prod.snd = pairs.map Prod.snd := by
    rw [← List.map_append, List.take_append_drop]
  have hnodup := hp.nodup
  rw [← hsplit] at hnodup
  refine (List.perm_ext_iff_of_nodup Db.nodup_keys hnodup.of_append_right).2 fun k => ?_
  have hk := (hp.keys_perm h).mem_iff (a := k)
  rw [← hsplit, List.mem_append, Db.mem_keys] at hk
  rw [Db.mem_keys, hbytes]
  split_ifs with hgone
  · exact iff_of_false (fun ⟨_, hb⟩ => by cases hb) fun hd =>
      List.disjoint_of_nodup_append hnodup hgone hd
  · rw [← hk]
    exact ⟨fun hd => hd.resolve_left hgone, Or.inr⟩

/-- A number that is left is above one that is gone. -/
theorem Db.ByNumber.newest (hp : db.ByNumber c pairs)
    (hbytes : ∀ k, db'.bytes c k =
      if k ∈ (pairs.take n).map Prod.snd then none else db.bytes c k) {k k' : String}
    {m m' : UInt64} (hm : db'.number c k = some m) (hm' : db.number c k' = some m')
    (hnone : db'.number c k' = none) : m' ≤ m := by
  have hk' : k' ∈ (pairs.take n).map Prod.snd := by
    by_contra hkept
    rw [Db.number, hbytes, if_neg hkept] at hnone
    rw [Db.number, hnone] at hm'
    cases hm'
  have hk : k ∉ (pairs.take n).map Prod.snd := by
    intro hgone
    rw [Db.number, hbytes, if_pos hgone] at hm
    cases hm
  have hold : db.number c k = some m := by
    rw [Db.number, hbytes, if_neg hk] at hm
    exact hm
  have hsorted := hp.sorted
  rw [← List.take_append_drop n pairs, List.pairwise_append] at hsorted
  obtain ⟨p', hp', rfl⟩ := List.mem_map.1 hk'
  have hleft : (m, k) ∈ pairs.drop n := by
    have hmk := (hp.mem (m, k)).2 hold
    rw [← List.take_append_drop n pairs, List.mem_append] at hmk
    exact hmk.resolve_left fun htake => hk (List.mem_map_of_mem htake)
  have hfirst := (hp.mem p').1 (List.mem_of_mem_take hp')
  rw [hm'] at hfirst
  rw [Option.some.inj hfirst]
  exact hsorted.2.2 p' hp' (m, k) hleft

/-- The documents of the first pairs are gone. -/
theorem Db.ByNumber.evicted (hp : db.ByNumber c pairs) (h : db.Stamped c)
    (hbytes : ∀ k, db'.bytes c k =
      if k ∈ (pairs.take n).map Prod.snd then none else db.bytes c k)
    (hnext : db'.nextNumber c = db.nextNumber c) : db.Evicted c n db' := by
  refine ⟨fun k b hb => ?_, ?_, fun k k' m m' hm hm' hnone => hp.newest hbytes hm hm' hnone, hnext⟩
  · rw [hbytes] at hb
    split_ifs at hb
    exact hb
  · rw [← Db.length_keys, ← Db.length_keys, (hp.keys_left h hbytes).length_eq,
      ← (hp.keys_perm h).length_eq, List.length_map, List.length_map, List.length_drop]

end

/-- A walk of the collection, its pairs sorted. -/
theorem Db.Stamped.byNumber (h : db.Stamped c) {col : DashMap Bytes} (hcol : db.col c = some col)
    {ks : List String} (hks : ks.Perm col.keys) :
    db.ByNumber c (sortBySeq true
      ((col.inOrder ks).map fun e => ((db.number c e.1).getD 0, e.1))) := by
  have hbytes : ∀ k, db.bytes c k = col[k]? := by
    intro k
    rw [← Db.get?_stored, Db.stored, hcol]
    rfl
  have hperm := sortBySeq_perm true
    ((col.inOrder ks).map fun e => ((db.number c e.1).getD 0, e.1))
  constructor
  · intro p
    rw [hperm.mem_iff, List.mem_map]
    constructor
    · rintro ⟨e, he, rfl⟩
      have hb : db.bytes c e.1 = some e.2 := (hbytes e.1).trans (Map.mem_inOrder.1 he).2
      obtain ⟨n', hn'⟩ := h.mem_keys.1 (Db.mem_keys.2 ⟨_, hb⟩)
      rw [hn', Option.getD_some]
    · intro hp
      obtain ⟨b, hb⟩ := Db.mem_keys.1 (h.mem_keys.2 ⟨_, hp⟩)
      rw [hbytes] at hb
      refine ⟨(p.2, b), Map.mem_inOrder.2 ⟨hks.mem_iff.2 (Map.mem_keys.2 ⟨b, hb⟩), hb⟩, ?_⟩
      rw [hp]
      rfl
  · rw [(hperm.map Prod.snd).nodup_iff, List.map_map]
    change ((col.inOrder ks).map Prod.fst).Nodup
    rw [Map.map_fst_inOrder_perm hks]
    exact hks.nodup_iff.2 (Map.nodup_keys col)
  · rw [sortBySeq_eq]
    exact List.pairwise_insertionSort (InSeqOrder true) _

variable [Crates]

/-- **The documents with the lowest numbers are evicted.** -/
theorem wp_evictOldest_kept (h : db.Stamped c) (hcapped : db.Capped c max) (n : ℕ) :
    wp (evictOldest c n) (fun _ db' => db.Evicted c n db' ∧ db'.Capped c max)
      (fun _ _ => False) db := by
  refine (safe_evictOldest n).and hcapped ?_
  rw [evictOldest, wp_bind, wp_get]
  cases hcol : db.col c with
  | none =>
    have hcount : db.count c = 0 := by rw [Db.count, hcol, Option.map_none, Option.getD_none]
    exact .refl (fun _ => rfl) (by rw [hcount, Nat.zero_sub]) rfl
  | some col =>
    simp only [wp_bind]
    refine wp_walk fun ks m hks => ?_
    have hbytes : ∀ k, db.bytes c k = col[k]? := by
      intro k
      rw [← Db.get?_stored, Db.stored, hcol]
      rfl
    -- every document is decoded, and has its number
    have hpairs : ((col.inOrder ks).filterMap fun e => (msgpackToValue e.2).map fun v =>
        ((fieldU64 v IKEY_SEQ).getD (UInt64.ofNat (2 ^ 64 - 1)), e.1)) =
        (col.inOrder ks).map fun e => ((db.number c e.1).getD 0, e.1) := by
      rw [← List.filterMap_eq_map]
      refine List.filterMap_congr fun e he => ?_
      have hb : db.bytes c e.1 = some e.2 := (hbytes e.1).trans (Map.mem_inOrder.1 he).2
      obtain ⟨v, n', heq, hfits, hholds⟩ := h e.1 e.2 hb
      rw [heq] at hb
      rw [heq, msgpackToValue_valueToMsgpack hfits, Option.map_some, fieldU64_canon hholds,
        Function.comp_apply, Db.number_eq hb hfits hholds]
      rfl
    rw [hpairs]
    have hp := h.byNumber hcol hks
    generalize sortBySeq true ((col.inOrder ks).map fun e => ((db.number c e.1).getD 0, e.1)) =
      pairs at hp
    split_ifs with hnil
    · refine hp.evicted h (fun k => ?_) rfl
      rw [hnil, if_neg List.not_mem_nil]
      rfl
    · rw [wp_bind, wp_outcome]
      have hcapped' : Db.Capped c max { db with tick := m } :=
        hcapped.of_same rfl rfl rfl rfl rfl rfl
      have hsafe := safe_delete ((pairs.take n).map Prod.snd) _ hcapped'
      refine wp_mono (wp_and (wp_and (wp_delete_bytes c _ _) (wp_removes (removes_delete _) _)) hsafe)
        (fun _ db' hdb' => ?_) fun _ _ h => h.2.elim
      refine hp.evicted h hdb'.1.1 ?_
      rw [Db.nextNumber, hdb'.1.2.seqCounters]
      rfl

/-! ## Inserts -/

/-- What an insert leaves: of the documents that are present after the batch was applied, the
    `max` ones with the highest numbers. -/
structure Db.KeepsNewest (c : String) (max : ℕ) (batch : List (String × Json)) (db db' : Db) :
    Prop where
  count : db'.count c = min max (db.present c batch).length
  numbered : ∀ k ∈ db'.keys c, ∃ n, db'.number c k = some n
  kept : ∀ k n, db'.number c k = some n → db.numberAfter c batch k = some n
  newest : ∀ k k' n n', db'.number c k = some n → db.numberAfter c batch k' = some n' →
    db'.number c k' = none → n' ≤ n

omit [Crates] in
theorem wp_beginInsert_capped (hcapped : db.Capped c max) :
    wp (Db.beginInsert c) (fun _ db' => (∀ k, db'.bytes c k = db.bytes c k) ∧
      db'.nextNumber c = db.nextNumber c ∧ db'.Capped c max) (fun _ _ => False) db := by
  rw [Db.beginInsert, wp_bind]
  refine wp_checkFault_mode (fun _ => ?_) fun hfault => ?_
  · simp only [Db.evictExpired, wp_bind, wp_get, hcapped.noExpiry, wp_pure, wp_modify]
    refine wp_newUuid fun id n => wp_writeNew_calm (by exact hcapped.calm) fun t m => ?_
    refine ⟨fun k => ?_, rfl, hcapped.of_same rfl rfl rfl rfl rfl rfl⟩
    exact bytes_touch db.state c c k
  · rw [hcapped.writes] at hfault
    cases hfault

/-- After the batch, documents are evicted down to the maximal size. -/
theorem wp_endInsert_capped (h : db.Stamped c) (hcapped : db.Capped c max) (id : String) :
    wp (Db.endInsert c id) (fun _ db' => db.Evicted c (db.count c - max) db' ∧ db'.Capped c max)
      (fun _ _ => False) db := by
  rw [Db.endInsert, wp_bind]
  refine wp_writeNew_calm hcapped.calm fun t n => ?_
  generalize hdb₁ : Db.mk _ _ _ _ _ _ _ _ _ _ _ _ _ = db₁
  have hsame : db.Evicted c 0 db₁ ∧ db₁.Stamped c ∧ db₁.Capped c max ∧ db₁.count c = db.count c ∧
      ∀ k, db₁.number c k = db.number c k := by
    subst hdb₁
    exact ⟨.refl (fun _ => rfl) rfl rfl, h, hcapped.of_same rfl rfl rfl rfl rfl rfl, rfl, fun _ => rfl⟩
  obtain ⟨hsame, h₁, hcapped₁, hcount, hnumber⟩ := hsame
  have hreset : ∀ db₂ : Db, db₁.Evicted c (db₁.count c - max) db₂ → db₂.Capped c max →
      wp (Db.resetExpiry c) (fun _ db' => db.Evicted c (db.count c - max) db' ∧ db'.Capped c max)
        (fun _ _ => False) db₂ := by
    intro db₂ h₂ hcapped₂
    simp only [Db.resetExpiry, wp_bind, wp_get, hcapped₂.noTtl, wp_pure]
    refine ⟨⟨fun k b hb => hsame.bytes k b (h₂.bytes k b hb), ?_, fun k k' m m' hm hm' => ?_,
      h₂.nextNumber.trans hsame.nextNumber⟩, hcapped₂⟩
    · rw [h₂.count, hcount]
    · exact h₂.newest k k' m m' hm (by rw [hnumber]; exact hm')
  rw [wp_bind, Db.evictOverflow, wp_bind, wp_get, hcapped₁.maxSize]
  dsimp only
  split_ifs with hover
  · exact wp_mono (wp_evictOldest_kept h₁ hcapped₁ _) (fun _ db₂ h₂ => hreset db₂ h₂.1 h₂.2)
      fun _ _ h => h
  · have hle : db₁.count c - max = 0 := Nat.sub_eq_zero_of_le (not_lt.1 hover)
    refine hreset db₁ (.refl (fun _ => rfl) ?_ rfl) hcapped₁
    rw [hle]
    rfl

omit [Crates] in
/-- The documents that are present after a batch. -/
theorem Db.Stamped.length_present (h : db.Stamped c) {batch : List (String × Json)} {db' : Db}
    (h' : db'.Stamped c) (hnumber : ∀ k, db'.number c k = db.numberAfter c batch k) :
    (db.present c batch).length = db'.count c := by
  rw [← Db.length_keys]
  refine List.Perm.length_eq ((List.perm_ext_iff_of_nodup (List.nodup_dedup _) ?_).2 fun k => ?_)
  · exact Db.nodup_keys
  · rw [List.mem_dedup, List.mem_append, h.mem_keys, h'.mem_keys, hnumber, Db.numberAfter, numberFrom]
    cases db.number c k with
    | some n => simp
    | none =>
      split_ifs with hk
      · exact iff_of_true (Or.inr hk) ⟨_, rfl⟩
      · simp [hk]

/-- **An insert into a capped collection.** -/
theorem wp_insert_capped (h : db.Stamped c) (hcapped : db.Capped c max)
    {batch : List (String × Json)} (hbatch : ∀ item ∈ batch, Storable item.2) :
    wp (Db.insert c batch) (fun _ db' => db.KeepsNewest c max batch db' ∧ db'.Stamped c ∧
      db'.nextNumber c = db.nextNumber c + UInt64.ofNat batch.length ∧ db'.Capped c max)
      (fun _ _ => False) db := by
  rw [Db.insert_eq, wp_bind]
  refine wp_mono (wp_beginInsert_capped hcapped) (fun id db₁ h₁ => ?_) fun _ _ h => h
  obtain ⟨hbytes, hnext₁, hcapped₁⟩ := h₁
  have hstamped₁ : db₁.Stamped c := fun k b hb => h k b (hbytes k ▸ hb)
  have hnumber₁ : ∀ k, db₁.numberAfter c batch k = db.numberAfter c batch k := by
    intro k
    rw [Db.numberAfter, Db.numberAfter, Db.number, Db.number, hbytes, hnext₁]
  rw [wp_bind]
  refine wp_mono (wp_insertItems_numbers hbatch hstamped₁ hcapped₁) (fun _ db₂ h₂ => ?_)
    fun _ _ h => h
  obtain ⟨hstamped₂, hnumber₂, hnext₂, hcapped₂⟩ := h₂
  refine wp_mono (wp_endInsert_capped hstamped₂ hcapped₂ id) (fun _ db₃ h₃ => ?_) fun _ _ h => h
  obtain ⟨hevicted, hcapped₃⟩ := h₃
  have hnumber : ∀ k, db₂.number c k = db.numberAfter c batch k := fun k =>
    (hnumber₂ k).trans (hnumber₁ k)
  have hstamped₃ : db₃.Stamped c := fun k b hb => hstamped₂ k b (hevicted.bytes k b hb)
  refine ⟨⟨?_, fun k hk => hstamped₃.mem_keys.1 hk, fun k n hn => ?_, fun k k' n n' hn hn' hnone => ?_⟩,
    hstamped₃, ?_, hcapped₃⟩
  · rw [hevicted.count, h.length_present hstamped₂ hnumber]
    omega
  · rw [← hnumber]
    exact hevicted.number hn
  · exact hevicted.newest k k' n n' hn (by rw [hnumber, hn']) hnone
  · rw [hevicted.nextNumber, hnext₂, hnext₁]

/-! ## Runs -/

/-- The numbers are different, and among the first `drawn` ones from `start` on. -/
structure Draws (number : String → Option UInt64) (start : UInt64) (drawn : ℕ) : Prop where
  among : ∀ k n, number k = some n → ∃ j < drawn, n = start + UInt64.ofNat j
  distinct : ∀ k k' n, number k = some n → number k' = some n → k = k'

/-- Documents have different numbers, and those that the batch brings come after the others. -/
structure Db.InTurn (c : String) (batch : List (String × Json)) (db : Db) : Prop where
  distinct : ∀ k k' n, db.numberAfter c batch k = some n → db.numberAfter c batch k' = some n → k = k'
  later : ∀ k k' n n', db.number c k = some n → db.number c k' = none →
    db.numberAfter c batch k' = some n' → n < n'

omit [Crates] in
theorem toNat_start_add {start : UInt64} {j : ℕ} (h : start.toNat + j < 2 ^ 64) :
    (start + UInt64.ofNat j).toNat = start.toNat + j := by
  rw [UInt64.toNat_add, UInt64.toNat_ofNat', Nat.mod_eq_of_lt (by omega : j < 2 ^ 64),
    Nat.mod_eq_of_lt h]

omit [Crates] in
/-- The new numbers of a batch. -/
theorem numberFrom_eq {start n : UInt64} {drawn : ℕ} {batch : List (String × Json)} {k : String}
    (h : numberFrom (start + UInt64.ofNat drawn) batch k = some n) :
    ∃ i < batch.length, n = start + UInt64.ofNat (drawn + i) ∧ k ∈ batch.map Prod.fst ∧
      (batch.map Prod.fst).idxOf k = i := by
  unfold numberFrom at h
  split_ifs at h with hk
  have hlt := List.idxOf_lt_length_of_mem hk
  rw [List.length_map] at hlt
  refine ⟨_, hlt, ?_, hk, rfl⟩
  rw [← Option.some.inj h, UInt64.ofNat_add, UInt64.add_assoc]

omit [Crates] in
/-- A batch draws the next numbers. -/
theorem Draws.insert {start : UInt64} {drawn : ℕ} {batch : List (String × Json)}
    (h : Draws (db.number c) start drawn) (hnext : db.nextNumber c = start + UInt64.ofNat drawn)
    (hroom : start.toNat + (drawn + batch.length) ≤ 2 ^ 64) :
    Draws (db.numberAfter c batch) start (drawn + batch.length) ∧ db.InTurn c batch := by
  have hcases : ∀ {k n}, db.numberAfter c batch k = some n → db.number c k = some n ∨
      db.number c k = none ∧ numberFrom (start + UInt64.ofNat drawn) batch k = some n := by
    intro k n hn
    rw [Db.numberAfter, hnext] at hn
    cases hold : db.number c k with
    | some m =>
      rw [hold] at hn
      exact Or.inl hn
    | none =>
      rw [hold] at hn
      exact Or.inr ⟨rfl, hn⟩
  have hlater : ∀ {k k' n n'}, db.number c k = some n →
      numberFrom (start + UInt64.ofNat drawn) batch k' = some n' → n < n' := by
    intro k k' n n' hn hn'
    obtain ⟨j, hj, rfl⟩ := h.among k n hn
    obtain ⟨i, hi, rfl, -⟩ := numberFrom_eq hn'
    rw [UInt64.lt_iff_toNat_lt, toNat_start_add (by omega), toNat_start_add (by omega)]
    omega
  have hdistinct : ∀ k k' n, db.numberAfter c batch k = some n →
      db.numberAfter c batch k' = some n → k = k' := by
    intro k k' n hn hn'
    rcases hcases hn with hold | ⟨-, hnew⟩ <;> rcases hcases hn' with hold' | ⟨-, hnew'⟩
    · exact h.distinct k k' n hold hold'
    · exact absurd (hlater hold hnew') (UInt64.lt_irrefl n)
    · exact absurd (hlater hold' hnew) (UInt64.lt_irrefl n)
    · obtain ⟨i, hi, heq, hk, hidx⟩ := numberFrom_eq hnew
      obtain ⟨i', hi', heq', -, hidx'⟩ := numberFrom_eq hnew'
      have hsame := congrArg UInt64.toNat (heq.symm.trans heq')
      rw [toNat_start_add (by omega), toNat_start_add (by omega)] at hsame
      have hii : i = i' := by omega
      exact (List.idxOf_inj hk).1 (hidx.trans (hii.trans hidx'.symm))
  refine ⟨⟨fun k n hn => ?_, hdistinct⟩, hdistinct, fun k k' n n' hn hnone hn' => ?_⟩
  · rcases hcases hn with hold | ⟨-, hnew⟩
    · obtain ⟨j, hj, rfl⟩ := h.among k n hold
      exact ⟨j, by omega, rfl⟩
    · obtain ⟨i, hi, rfl, -⟩ := numberFrom_eq hnew
      exact ⟨drawn + i, by omega, rfl⟩
  · rcases hcases hn' with hold | ⟨-, hnew⟩
    · rw [hnone] at hold
      cases hold
    · exact hlater hn hnew

/-- What a run of inserts keeps, in which `drawn` items were inserted. -/
structure Db.CappedRun (c : String) (max : ℕ) (start : UInt64) (drawn : ℕ) (db : Db) : Prop where
  stamped : db.Stamped c
  capped : db.Capped c max
  nextNumber : db.nextNumber c = start + UInt64.ofNat drawn
  draws : start.toNat + drawn ≤ 2 ^ 64 → Draws (db.number c) start drawn

theorem Db.CappedRun.wp_insert {start : UInt64} {drawn : ℕ} (h : db.CappedRun c max start drawn)
    {batch : List (String × Json)} (hbatch : ∀ item ∈ batch, Storable item.2) :
    wp (Db.insert c batch) (fun _ db' => db.KeepsNewest c max batch db' ∧
      db'.CappedRun c max start (drawn + batch.length)) (fun _ _ => False) db := by
  refine wp_mono (wp_insert_capped h.stamped h.capped hbatch) (fun _ db' hdb' => ?_) fun _ _ h => h
  obtain ⟨hkeeps, hstamped, hnext, hcapped⟩ := hdb'
  refine ⟨hkeeps, hstamped, hcapped, ?_, fun hroom => ?_⟩
  · rw [hnext, h.nextNumber, UInt64.ofNat_add, UInt64.add_assoc]
  · obtain ⟨hdraws, -⟩ := (h.draws (by omega)).insert h.nextNumber hroom
    exact ⟨fun k n hn => hdraws.among k n (hkeeps.kept k n hn), fun k k' n hn hn' =>
      hdraws.distinct k k' n (hkeeps.kept k n hn) (hkeeps.kept k' n hn')⟩

theorem Db.CappedRun.wp_inserts {start : UInt64} {drawn : ℕ} (h : db.CappedRun c max start drawn)
    {batches : List (List (String × Json))}
    (hbatches : ∀ batch ∈ batches, ∀ item ∈ batch, Storable item.2) :
    wp (Eff.forEach (Db.insert c) batches)
      (fun _ db' => db'.CappedRun c max start (drawn + batches.flatten.length)) (fun _ _ => False)
      db := by
  induction batches generalizing db drawn with
  | nil => exact h
  | cons batch batches ih =>
    rw [Eff.forEach, wp_bind]
    refine wp_mono (h.wp_insert (hbatches batch List.mem_cons_self)) (fun _ db₁ h₁ => ?_) fun _ _ h => h
    have hrest := ih h₁.2 fun batch' hbatch' => hbatches batch' (List.mem_cons_of_mem _ hbatch')
    rwa [Nat.add_assoc, ← List.length_append, ← List.flatten_cons] at hrest

end

end MoltenDB
