/-
  Both builds answer queries alike.

  What the scans of a build have to find is a function of the documents (`Build.Meets`); the
  scans of both builds find it if the sequence numbers differ and the index is in sync, and
  sizes fit into 32 bits.  Two builds that meet it answer alike (`Build.Meets.processGet_eq`).
  A size that does not fit is cut off by the build for wasm32 only.
-/
import MoltenDB.Handlers.Builds
import MoltenDB.Proof.Coalescing
import MoltenDB.Proof.SortOrder

namespace MoltenDB

open Wire Prog Prog.Eff Firsts SystemFields

section

variable [Crates]

/-- The collection holds documents, has their sequence numbers in its index if it has one, and
    these numbers differ. -/
structure Orderly (db : Db) (c : String) : Prop extends Synced db c where
  decodes : ∀ col, db.col c = some col → ∀ (k : String) (b : Bytes), col[k]? = some b →
    (msgpackToValue b).isSome

/-! ## What scans find -/

/-- The numbers and keys of the documents that pass the test, in order. -/
def seqPairs (col : DashMap Bytes) (predicate : Predicate) (asc : Bool) : List (UInt64 × String) :=
  Operations.sortBySeq asc (matchingPairs predicate col.toList)

/-- The documents of numbers and keys. -/
def decodeAll (col : DashMap Bytes) (pairs : List (UInt64 × String)) : List (String × Json) :=
  pairs.filterMap fun p => decodeKey col p.2

theorem pairOf_seqPairs {col : DashMap Bytes} {predicate : Predicate} {asc : Bool}
    {p : UInt64 × String} (h : p ∈ seqPairs col predicate asc) : PairOf col p := by
  rw [seqPairs, sortBySeq_eq] at h
  exact pairOf_matchingPairs (.refl _) p ((List.mem_insertionSort _).1 h)

/-- Every document is decoded. -/
theorem decodeAll_eq_map {col : DashMap Bytes}
    (hdec : ∀ (k : String) (b : Bytes), col[k]? = some b → (msgpackToValue b).isSome)
    {pairs : List (UInt64 × String)} (hpairs : ∀ p ∈ pairs, PairOf col p) :
    decodeAll col pairs = pairs.map fun p => (p.2, (col[p.2]?.bind msgpackToValue).getD .null) := by
  rw [decodeAll, ← List.filterMap_eq_map]
  refine List.filterMap_congr fun p hp => ?_
  obtain ⟨b, hb, -⟩ := hpairs p hp
  obtain ⟨v, hv⟩ := Option.isSome_iff_exists.1 (hdec p.2 b hb)
  simp [decodeKey, hb, hv]

/-- Every document is decoded, so the first ones are those of the first pairs. -/
theorem take_decodeAll {col : DashMap Bytes}
    (hdec : ∀ (k : String) (b : Bytes), col[k]? = some b → (msgpackToValue b).isSome)
    {pairs : List (UInt64 × String)} (hpairs : ∀ p ∈ pairs, PairOf col p) (n : ℕ) :
    (decodeAll col pairs).take n = decodeAll col (pairs.take n) := by
  rw [decodeAll_eq_map hdec hpairs,
    decodeAll_eq_map hdec fun p hp => hpairs p (List.mem_of_mem_take hp), List.map_take]

theorem drop_decodeAll {col : DashMap Bytes}
    (hdec : ∀ (k : String) (b : Bytes), col[k]? = some b → (msgpackToValue b).isSome)
    {pairs : List (UInt64 × String)} (hpairs : ∀ p ∈ pairs, PairOf col p) (n : ℕ) :
    (decodeAll col pairs).drop n = decodeAll col (pairs.drop n) := by
  rw [decodeAll_eq_map hdec hpairs,
    decodeAll_eq_map hdec fun p hp => hpairs p (List.mem_of_mem_drop hp), List.map_drop]

/-! ### By the index -/

/-- The pair is that of a document that passes the test. -/
def pairPasses (col : DashMap Bytes) (predicate : Predicate) (p : UInt64 × String) : Bool :=
  col[p.2]?.any (predicate p.2)

theorem nodup_matchingPairs (predicate : Predicate) (col : DashMap Bytes) :
    (matchingPairs predicate col.toList).Nodup := by
  refine List.Nodup.of_map Prod.snd ?_
  rw [matchingPairs, List.map_map]
  refine ((List.filter_sublist (l := col.toList)).map _).nodup ?_
  rw [show (Prod.snd ∘ fun e : String × Bytes => (readMsgpackSeqToken e.2, e.1)) = Prod.fst from
    rfl, Std.ExtTreeMap.map_fst_toList_eq_keys]
  exact Map.nodup_keys col

theorem Indexes.filter_pairPasses {idx : Map UInt64 String} {col : DashMap Bytes}
    (h : Indexes idx col) (hnum : Numbered col) (predicate : Predicate) (asc : Bool) :
    (if asc then idx.toList else idx.toList.reverse).filter (pairPasses col predicate) =
      seqPairs col predicate asc := by
  have hnodup : idx.toList.Nodup := by
    refine List.Nodup.of_map Prod.fst ?_
    rw [Std.ExtTreeMap.map_fst_toList_eq_keys]
    exact Map.nodup_keys idx
  have hperm : (idx.toList.filter (pairPasses col predicate)).Perm
      (matchingPairs predicate col.toList) := by
    refine (List.perm_ext_iff_of_nodup (hnodup.filter _) (nodup_matchingPairs _ _)).2
      fun ⟨seq, k⟩ => ?_
    rw [List.mem_filter, Map.mem_toList, h seq k, matchingPairs, List.mem_map]
    constructor
    · rintro ⟨⟨b, hb, rfl⟩, hp⟩
      rw [pairPasses, hb] at hp
      exact ⟨(k, b), List.mem_filter.2 ⟨Map.mem_toList.2 hb, hp⟩, rfl⟩
    · rintro ⟨⟨k', b⟩, he, heq⟩
      obtain ⟨rfl, rfl⟩ := Prod.mk.inj heq
      obtain ⟨hmem, hp⟩ := List.mem_filter.1 he
      have hb : col[k']? = some b := Map.mem_toList.1 hmem
      exact ⟨⟨b, hb, rfl⟩, by rw [pairPasses, hb]; exact hp⟩
  have hsorted : (if asc then idx.toList else idx.toList.reverse).Pairwise (InSeqOrder asc) := by
    have hasc : idx.toList.Pairwise fun a b => a.1 ≤ b.1 := by
      refine (Std.ExtTreeMap.ordered_keys_toList (t := idx)).imp fun {a b} hab => ?_
      exact UInt64.le_of_lt (Std.compare_eq_lt.1 hab)
    cases asc with
    | true => exact hasc
    | false => exact List.pairwise_reverse.2 hasc
  rw [seqPairs, sortBySeq_eq]
  refine eq_insertionSort (hnum.pair_ext asc) (pairOf_matchingPairs (.refl _)) ?_ (hsorted.filter _)
  cases asc with
  | true => exact hperm
  | false =>
    rw [if_neg (by decide), List.filter_reverse]
    exact (List.reverse_perm _).trans hperm

omit [Crates] in
/-- A scan of the index that stops when enough documents are found. -/
theorem take_scanIndex {col : DashMap Bytes} (predicate : Predicate) (need : ℕ)
    (hdec : ∀ (k : String) (b : Bytes), col[k]? = some b → (msgpackToValue b).isSome) (n : ℕ)
    (pairs : List (UInt64 × String)) :
    (Db.scanIndex col predicate need n pairs).take (need - n) =
      decodeAll col ((pairs.filter (pairPasses col predicate)).take (need - n)) := by
  induction pairs generalizing n with
  | nil => simp [Db.scanIndex, decodeAll]
  | cons p pairs ih =>
    obtain ⟨seq, k⟩ := p
    rw [Db.scanIndex]
    by_cases hp : pairPasses col predicate (seq, k) = true
    · obtain ⟨b, hb, hpb⟩ := (Option.any_eq_true _ _).1 hp
      obtain ⟨v, hv⟩ := Option.isSome_iff_exists.1 (hdec k b hb)
      have hdoc : decodeKey col k = some (k, v) := by simp [decodeKey, hb, hv]
      have hread : (col[k]?.filter (predicate k)).bind msgpackToValue = some v := by
        rw [show col[k]? = some b from hb, Option.filter_some, if_pos hpb]
        exact hv
      rw [hread, List.filter_cons_of_pos hp]
      cases hleft : need - n with
      | zero => simp [decodeAll]
      | succ d =>
        dsimp only
        rw [List.take_succ_cons, List.take_succ_cons, decodeAll, List.filterMap_cons, hdoc]
        dsimp only
        congr 1
        split_ifs with hdone
        · obtain rfl : d = 0 := by omega
          simp
        · obtain rfl : d = need - (n + 1) := by omega
          exact ih (n + 1)
    · have hread : (col[k]?.filter (predicate k)).bind msgpackToValue = none := by
        cases hb : col[k]? with
        | none => rfl
        | some b =>
          have hpb : predicate k b = false := by
            simpa [pairPasses, show col[k]? = some b from hb] using hp
          simp [Option.filter_some, hpb]
      rw [hread, List.filter_cons_of_neg hp]
      exact ih n

/-- A scan of a collection without an index. -/
theorem map_sortBySeq {col : DashMap Bytes} (hnum : Numbered col)
    (hdec : ∀ (k : String) (b : Bytes), col[k]? = some b → (msgpackToValue b).isSome)
    (predicate : Predicate) (asc : Bool) {es : List (String × Bytes)} (hes : es.Perm col.toList) :
    (Operations.sortBySeq asc ((es.filter fun e => predicate e.1 e.2).filterMap fun e =>
      (msgpackToValue e.2).map fun v => (readMsgpackSeqToken e.2, e.1, v))).map Prod.snd =
      decodeAll col (seqPairs col predicate asc) := by
  let pair (x : UInt64 × String × Json) : UInt64 × String := (x.1, x.2.1)
  generalize hraw : ((es.filter fun e => predicate e.1 e.2).filterMap fun e =>
    (msgpackToValue e.2).map fun v => (readMsgpackSeqToken e.2, e.1, v)) = raw
  have hdoc : ∀ x ∈ raw, decodeKey col (pair x).2 = some x.2 := by
    intro x hx
    rw [← hraw] at hx
    obtain ⟨e, he, hxe⟩ := List.mem_filterMap.1 hx
    obtain ⟨v, hv, rfl⟩ := Option.map_eq_some_iff.1 hxe
    have hb : col[e.1]? = some e.2 := Map.mem_toList.1 (hes.mem_iff.1 (List.mem_of_mem_filter he))
    simp [decodeKey, pair, hb, hv]
  have hpairs : raw.map pair = matchingPairs predicate es := by
    rw [← hraw, List.map_filterMap, matchingPairs, ← List.filterMap_eq_map]
    refine List.filterMap_congr fun e he => ?_
    have hb : col[e.1]? = some e.2 := Map.mem_toList.1 (hes.mem_iff.1 (List.mem_of_mem_filter he))
    obtain ⟨v, hv⟩ := Option.isSome_iff_exists.1 (hdec e.1 e.2 hb)
    simp [hv, pair]
  have hsort : (Operations.sortBySeq asc raw).map pair = seqPairs col predicate asc := by
    rw [seqPairs, ← hnum.sortBySeq_perm_eq asc predicate hes (.refl _), ← hpairs, sortBySeq_eq,
      sortBySeq_eq]
    exact List.map_insertionSort _ _ pair raw fun _ _ _ _ => Iff.rfl
  rw [decodeAll, ← hsort, List.filterMap_map, ← List.filterMap_eq_map]
  refine (List.filterMap_congr fun x hx => ?_).symm
  refine (hdoc x ?_).trans rfl
  rw [sortBySeq_eq] at hx
  exact (List.mem_insertionSort _).1 hx

/-! ### By numbers -/

omit [Crates] in
/-- A number stands for its document. -/
theorem foldl_insert_seqs {seqs : List UInt64} {seq : UInt64} {k : String} (hseq : seq ∈ seqs)
    (pairs : List (UInt64 × String)) (hone : ∀ p ∈ pairs, p.1 = seq → p.2 = k)
    (m : Map UInt64 String) (h : (seq, k) ∈ pairs ∨ m[seq]? = some k) :
    (pairs.foldl (fun m p => if p.1 ∈ seqs then m.insert p.1 p.2 else m) m)[seq]? = some k := by
  induction pairs generalizing m with
  | nil =>
    rcases h with h | h
    · cases h
    · exact h
  | cons p pairs ih =>
    rw [List.foldl_cons]
    refine ih (fun q hq => hone q (List.mem_cons_of_mem _ hq)) _ ?_
    by_cases hp : p.1 = seq
    · have hk := hone p List.mem_cons_self hp
      right
      rw [hp, if_pos hseq, Map.get?_insert, if_pos rfl, hk]
    · rcases h with h | h
      · rcases List.mem_cons.1 h with rfl | h
        · exact absurd rfl hp
        · exact Or.inl h
      · right
        split_ifs
        · rw [Map.get?_insert, if_neg (Ne.symm hp), h]
        · exact h

/-- All matches, found once more by their numbers. -/
theorem wp_hydrate {col : DashMap Bytes} (hnum : Numbered col) (predicate : Predicate) (offset : ℕ)
    (db : Db) :
    wp (Db.hydrate col predicate offset) (fun docs db' =>
      docs = decodeAll col ((seqPairs col predicate true).drop offset) ∧
        ∃ n, db' = { db with tick := n }) (fun _ _ => False) db := by
  simp only [Db.hydrate, wp_bind]
  refine wp_walk fun ks n hks => ?_
  rw [hnum.sortBySeq_perm_eq true predicate (Map.inOrder_perm hks) (.refl _),
    show Operations.sortBySeq true (matchingPairs predicate col.toList) = seqPairs col predicate true
      from rfl, ← List.map_drop]
  split_ifs with hnone
  · rw [List.map_eq_nil_iff] at hnone
    rw [hnone]
    exact ⟨rfl, n, rfl⟩
  · simp only [wp_bind]
    refine wp_walk fun ks' n' hks' => ⟨?_, n', rfl⟩
    rw [decodeAll, List.filterMap_map]
    refine List.filterMap_congr fun p hp => ?_
    have hpair := pairOf_seqPairs (List.mem_of_mem_drop hp)
    have hmem : p.1 ∈ ((seqPairs col predicate true).drop offset).map Prod.fst :=
      List.mem_map_of_mem hp
    have hkey := foldl_insert_seqs (k := p.2) hmem
      (matchingPairs (fun _ _ => true) (col.inOrder ks')) (fun q hq hqp => ?_) ∅ (Or.inl ?_)
    · rw [Function.comp_apply, hkey]
      rfl
    · obtain ⟨b, hb, hq1⟩ := pairOf_matchingPairs (Map.inOrder_perm hks') q hq
      obtain ⟨b', hb', hp1⟩ := hpair
      exact hnum _ _ b b' hb hb' (by rw [hq1, hp1, hqp])
    · obtain ⟨b, hb, hp1⟩ := hpair
      refine List.mem_map.2 ⟨(p.2, b), List.mem_filter.2 ⟨?_, rfl⟩, Prod.ext hp1 rfl⟩
      exact Map.mem_inOrder.2 ⟨hks'.mem_iff.2 (Map.mem_keys.2 ⟨b, hb⟩), hb⟩

/-! ## What the scans of a build have to find -/

omit [Crates] in
theorem Db.col_elsewhere (db : Db) (world : World) (n : ℕ) (c : String) :
    Db.col { db with world, tick := n } c = db.col c := rfl

/-- In every world, the operation returns `v` and leaves the data as it is. -/
def Yields {α : Type} (db : Db) (m : Op α) (v : α) : Prop :=
  ∀ (world : World) (n : ℕ), wp m (fun a db' => a = v ∧ ∃ n', db' = { db with world, tick := n' })
    (fun _ _ => False) { db with world, tick := n }

omit [Crates] in
theorem yields_pure {α : Type} {db : Db} (v : α) : Yields db (pure v) v :=
  fun _ n => ⟨rfl, n, rfl⟩

omit [Crates] in
theorem Yields.bind {α β : Type} {db : Db} {m : Op α} {f : α → Op β} {v : α} {u : β}
    (hm : Yields db m v) (hf : Yields db (f v) u) : Yields db (m >>= f) u := by
  intro world n
  rw [wp_bind]
  refine wp_mono (hm world n) (fun a db' h => ?_) fun _ _ h => h
  obtain ⟨rfl, n', rfl⟩ := h
  exact hf world n'

omit [Crates] in
theorem Yields.map {α β : Type} {db : Db} {m : Op α} {v : α} (f : α → β) (hm : Yields db m v) :
    Yields db (f <$> m) (f v) := hm.bind (yields_pure (f v))

omit [Crates] in
/-- An operation that looks at the data. -/
theorem yields_get_bind {α : Type} {db : Db} {f : Db → Op α} {v : α}
    (h : ∀ (world : World) (n : ℕ), Yields db (f { db with world, tick := n }) v) :
    Yields db (Eff.get >>= f) v := by
  intro world n
  rw [wp_bind, wp_get]
  exact h world n world n

omit [Crates] in
theorem yields_walk {α β : Type} {db : Db} {m : DashMap α} {f : List (String × α) → Op β} {v : β}
    (h : ∀ es, es.Perm m.toList → Yields db (f es) v) : Yields db (walk m >>= f) v := by
  intro world n
  rw [wp_bind]
  exact wp_walk fun ks n' hks => h _ (Map.inOrder_perm hks) world n'

omit [Crates] in
theorem Yields.ok {α : Type} {db : Db} {m : Op α} {v : α} (h : Yields db m v) (world : World)
    (n : ℕ) : (m { db with world, tick := n }).1 = .ok v :=
  ok_of_wp (wp_mono (h world n) (fun _ _ h => h.1) fun _ _ h => h)

/-- The first `need` documents that pass the test, or all of them, in order. -/
def Db.inSeq (db : Db) (c : String) (predicate : Predicate) (asc : Bool) (need : Option ℕ) :
    List (String × Json) :=
  match db.col c with
  | none => []
  | some col =>
    let pairs := seqPairs col predicate asc
    expandAll (decodeAll col (need.elim pairs pairs.take))

/-- The documents with the smallest numbers at a path. -/
def Db.smallest (db : Db) (c : String) (predicate : Predicate) (sortField : String)
    (isDescending : Bool) (cap : ℕ) : List (String × Json) :=
  match db.col c with
  | none => []
  | some col =>
    expandAll (ScanRequest.expected col ⟨predicate, .sortedTopN sortField isDescending cap⟩)

/-- The first documents by a comparison. -/
def Db.firstBy (db : Db) (c : String) (predicate : Predicate) (cmp : Json → Json → Ordering)
    (cap : ℕ) : List (String × Json) :=
  match db.col c with
  | none => []
  | some col => expandAll (firsts (atMost (cmpDocs cmp)) cap (col.toList.filterMap (docItem predicate)))

/-- The scans of the build find in the collection what they have to, and its sizes are exact up
    to 32 bits. -/
structure Build.Meets (b : Build) (db : Db) (c : String) : Prop where
  asUsize : ∀ n : UInt64, n.toNat < 2 ^ 32 → b.asUsize n = n.toNat
  usizeAdd : ∀ m n : ℕ, m + n < 2 ^ 32 → b.usizeAdd m n = m + n
  scanWhere : ∀ predicate need asc, need < 2 ^ 32 →
    Yields db (b.scanWhere c predicate (some need) asc) (db.inSeq c predicate asc (some need))
  getFiltered : ∀ p : Db.GetFilteredParams, p.collection = c → p.offset = 0 →
    (∀ n, p.count = some n → n < 2 ^ 32) → Yields db (b.getFiltered p)
      (db.inSeq c p.predicate (p.count.isNone || p.defaultOrderAsc) p.count)
  scanTopNRaw : ∀ predicate field descending cap,
    Yields db (b.scanTopNRaw c predicate field descending cap)
      (db.smallest c predicate field descending cap)
  scanTopN : ∀ predicate cmp cap, Std.TransCmp cmp →
    Yields db (b.scanTopN c predicate cmp cap) (db.firstBy c predicate cmp cap)

/-! ### The native build -/

theorem Synced.yields_coalesced {db : Db} {c : String} (h : Synced db c) (w : Workers)
    (before after : List ScanRequest) (r : ScanRequest) :
    Yields db (coalesced w before after c r)
      (expandAll (((db.col c).map fun col => r.expected col).getD [])) := by
  intro world n
  simp only [coalesced, wp_bind]
  refine wp_mono (wp_runBatch w c _ (h.elsewhere world n)) (fun answers db' hdb => ?_)
    fun _ _ h => h
  obtain ⟨⟨n', rfl⟩, rfl⟩ := hdb
  refine ⟨congrArg expandAll ?_, n', rfl⟩
  rw [List.map_append, List.map_cons, List.getD_eq_getElem?_getD,
    List.getElem?_append_right (by simp)]
  simp
  rfl

theorem Numbered.yields_hydrate {db : Db} {col : DashMap Bytes} (hnum : Numbered col)
    (predicate : Predicate) (offset : ℕ) :
    Yields db (Db.hydrate col predicate offset)
      (decodeAll col ((seqPairs col predicate true).drop offset)) := by
  intro world n
  exact wp_hydrate hnum predicate offset _

/-- The index, or a scan, gives the documents in order. -/
theorem Orderly.yields_findInOrder {db : Db} {p : Db.GetFilteredParams}
    (h : Orderly db p.collection) {col : DashMap Bytes} (hcol : db.col p.collection = some col)
    {lim : ℕ} (hlim : p.offset + lim < 2 ^ 64) :
    Yields db ((fun docs => (docs.drop p.offset).take lim) <$> Db.findInOrder col p lim)
      (decodeAll col (((seqPairs col p.predicate p.defaultOrderAsc).drop p.offset).take lim)) := by
  have hnum := h.numbered col hcol
  have hdec := h.decodes col hcol
  have hneed : usizeAdd p.offset lim = p.offset + lim := by
    rw [usizeAdd, Nat.mod_eq_of_lt hlim]
  have hpair : ∀ q ∈ seqPairs col p.predicate p.defaultOrderAsc, PairOf col q := fun q hq =>
    pairOf_seqPairs hq
  -- a page is cut from the first `offset + lim` documents
  have hpage : ∀ docs : List (String × Json), (docs.drop p.offset).take lim =
      (docs.take (p.offset + lim)).drop p.offset := by
    intro docs
    rw [List.drop_take, Nat.add_sub_cancel_left]
  have hdocs : ∀ docs : List (String × Json), docs.take (p.offset + lim) =
      decodeAll col ((seqPairs col p.predicate p.defaultOrderAsc).take (p.offset + lim)) →
      (docs.drop p.offset).take lim =
        decodeAll col (((seqPairs col p.predicate p.defaultOrderAsc).drop p.offset).take lim) := by
    intro docs hfirst
    rw [hpage, hfirst, drop_decodeAll hdec fun q hq => hpair q (List.mem_of_mem_take hq),
      List.drop_take, Nat.add_sub_cancel_left]
  cases hidx : db.seqIndex[p.collection]? with
  | some idx =>
    have hfind : Yields db (Db.findInOrder col p lim) (Db.scanIndex col p.predicate (p.offset + lim) 0
        (if p.defaultOrderAsc then idx.toList else idx.toList.reverse)) := by
      refine yields_get_bind fun world n => ?_
      dsimp only
      rw [hidx, hneed]
      exact yields_pure _
    have hmap := hfind.map fun docs => (docs.drop p.offset).take lim
    have htake := take_scanIndex p.predicate (p.offset + lim) hdec 0
      (if p.defaultOrderAsc then idx.toList else idx.toList.reverse)
    rw [Nat.sub_zero, (h.indexes col idx hcol hidx).filter_pairPasses hnum] at htake
    rwa [hdocs _ htake] at hmap
  | none =>
    have hfind : Yields db (Db.findInOrder col p lim)
        (decodeAll col (seqPairs col p.predicate p.defaultOrderAsc)) := by
      refine yields_get_bind fun world n => ?_
      dsimp only
      rw [hidx]
      refine yields_walk fun es hes => ?_
      rw [map_sortBySeq hnum hdec p.predicate p.defaultOrderAsc hes]
      exact yields_pure _
    have hmap := hfind.map fun docs => (docs.drop p.offset).take lim
    rwa [hdocs _ (take_decodeAll hdec hpair _)] at hmap

/-- The matches on the page that is asked for, in order; without a count these are all but the
    first ones, the oldest first. -/
def Db.filteredPage (db : Db) (p : Db.GetFilteredParams) : List (String × Json) :=
  match db.col p.collection with
  | none => []
  | some col =>
    let pairs := (seqPairs col p.predicate (p.count.isNone || p.defaultOrderAsc)).drop p.offset
    decodeAll col (p.count.elim pairs pairs.take)

theorem Db.expandAll_filteredPage (db : Db) {p : Db.GetFilteredParams} (hp : p.offset = 0) :
    expandAll (db.filteredPage p) =
      db.inSeq p.collection p.predicate (p.count.isNone || p.defaultOrderAsc) p.count := by
  rw [Db.filteredPage, Db.inSeq, hp]
  cases db.col p.collection <;> rfl

/-- A filtered scan, with a WHERE clause or without one. -/
theorem Orderly.yields_filterCollection {db : Db} {p : Db.GetFilteredParams}
    (h : Orderly db p.collection) {col : DashMap Bytes} (hcol : db.col p.collection = some col)
    (hlim : ∀ n, p.count = some n → p.offset + n < 2 ^ 64) :
    Yields db (Db.filterCollection col p) (db.filteredPage p) := by
  have hnum := h.numbered col hcol
  rw [Db.filteredPage, hcol]
  unfold Db.filterCollection
  cases hcount : p.count with
  | none => exact hnum.yields_hydrate p.predicate p.offset
  | some lim =>
    dsimp only
    split_ifs with hwhere
    · refine yields_walk fun es hes => ?_
      rw [hnum.sortBySeq_perm_eq p.defaultOrderAsc p.predicate hes (.refl _)]
      exact yields_pure _
    · exact h.yields_findInOrder hcol (hlim lim hcount)

/-- A filtered scan from the first match on. -/
theorem Orderly.yields_getFiltered {db : Db} {p : Db.GetFilteredParams}
    (h : Orderly db p.collection) (hp : p.offset = 0) (hlim : ∀ n, p.count = some n → n < 2 ^ 64) :
    Yields db (Db.getFiltered p)
      (db.inSeq p.collection p.predicate (p.count.isNone || p.defaultOrderAsc) p.count) := by
  rw [← Db.expandAll_filteredPage db hp]
  refine yields_get_bind fun world n => ?_
  rw [Db.col_elsewhere]
  cases hcol : db.col p.collection with
  | none =>
    rw [Db.filteredPage, hcol]
    exact yields_pure _
  | some col =>
    refine (h.yields_filterCollection hcol fun n hn => ?_).map expandAll
    rw [hp, Nat.zero_add]
    exact hlim n hn

/-! ### Sorted scans -/

omit [Crates] in
/-- Documents that no comparison tells apart have the same key. -/
theorem fold_docs (w : Workers) {cmp : Json → Json → Ordering} (hcmp : Std.TransCmp cmp)
    (cap : ℕ) (predicate : Predicate) {col : DashMap Bytes} {es : List (String × Bytes)}
    (hes : es.Perm col.toList) :
    (w.split es).fold [] (fun heap e => pushItem (cmpDocs cmp) cap heap (docItem predicate e))
        (Operations.mergeHeaps w (cmpDocs cmp) cap) =
      firsts (atMost (cmpDocs cmp)) cap (col.toList.filterMap (docItem predicate)) := by
  have := transCmp_cmpDocs hcmp
  have hP : ∀ d ∈ col.toList.filterMap (docItem predicate),
      col[d.1]?.bind msgpackToValue = some d.2 := by
    intro d hd
    obtain ⟨e, he, hde⟩ := List.mem_filterMap.1 hd
    have hb : col[e.1]? = some e.2 := Map.mem_toList.1 he
    unfold docItem at hde
    split_ifs at hde
    obtain ⟨v, hv, rfl⟩ := Option.map_eq_some_iff.1 hde
    simp [hb, hv]
  have hanti : ∀ a b : String × Json, col[a.1]?.bind msgpackToValue = some a.2 →
      col[b.1]?.bind msgpackToValue = some b.2 → cmpDocs cmp a b = .eq → a = b := by
    intro a b ha hb hab
    have hkey : a.1 = b.1 := Std.LawfulEqOrd.compare_eq_iff_eq.1 (Ordering.then_eq_eq.1 hab).2
    refine Prod.ext hkey (Option.some.inj ?_)
    rw [← ha, ← hb, hkey]
  have hperm := hes.filterMap (docItem predicate)
  rw [fold_pushBounded hanti w cap (docItem predicate) fun d hd => hP d (hperm.mem_iff.1 hd),
    firsts_perm (atMost_antisymm hanti) cap hP hperm]

omit [Crates] in
theorem yields_scanTopN (db : Db) (w : Workers) (c : String) (predicate : Predicate)
    {cmp : Json → Json → Ordering} (hcmp : Std.TransCmp cmp) (cap : ℕ) :
    Yields db (expandAll <$> Operations.scanTopN w c predicate cmp cap)
      (db.firstBy c predicate cmp cap) := by
  unfold Operations.scanTopN Db.firstBy
  split_ifs with hcap
  · subst hcap
    cases db.col c with
    | none => exact (yields_pure []).map expandAll
    | some col =>
      dsimp only
      rw [firsts_zero]
      exact (yields_pure []).map expandAll
  · cases hcol : db.col c with
    | none =>
      refine Yields.map expandAll (v := []) (yields_get_bind fun world n => ?_)
      rw [Db.col_elsewhere, hcol]
      exact yields_pure _
    | some col =>
      refine Yields.map expandAll (yields_get_bind fun world n => ?_)
      rw [Db.col_elsewhere, hcol]
      refine yields_walk fun es hes => ?_
      rw [← fold_docs w hcmp cap predicate hes]
      exact yields_pure _

/-! ### The builds -/

/-- **The native build** finds what it has to, whatever its batches and workers. -/
theorem Orderly.native_meets {db : Db} {c : String} (h : Orderly db c) (w : Workers)
    (before after : List ScanRequest) : (Build.native w before after).Meets db c where
  asUsize _ _ := rfl
  usizeAdd m n hmn := Nat.mod_eq_of_lt (hmn.trans (by decide))
  scanWhere predicate need asc _ := by
    have hscan := h.toSynced.yields_coalesced w before after ⟨predicate, .filtered (some need) asc⟩
    have hdocs : expandAll (((db.col c).map fun col => ScanRequest.expected col
        ⟨predicate, .filtered (some need) asc⟩).getD []) = db.inSeq c predicate asc (some need) := by
      rw [Db.inSeq]
      cases db.col c <;> rfl
    rwa [hdocs] at hscan
  getFiltered p hc hp hlim := by
    subst hc
    exact h.yields_getFiltered hp fun n hn => (hlim n hn).trans (by decide)
  scanTopNRaw predicate field descending cap := by
    have hscan := h.toSynced.yields_coalesced w before after
      ⟨predicate, .sortedTopN field descending cap⟩
    have hdocs : expandAll (((db.col c).map fun col => ScanRequest.expected col
        ⟨predicate, .sortedTopN field descending cap⟩).getD []) =
        db.smallest c predicate field descending cap := by
      rw [Db.smallest]
      cases db.col c <;> rfl
    rwa [hdocs] at hscan
  scanTopN predicate cmp cap hcmp := yields_scanTopN db w c predicate hcmp cap

theorem Wasm.findInOrder_eq (col : DashMap Bytes) {p : Db.GetFilteredParams} {lim : ℕ}
    (hlim : p.offset + lim < 2 ^ 32) : Wasm.findInOrder col p lim = Db.findInOrder col p lim := by
  have hsum : Wasm.usizeAdd p.offset lim = MoltenDB.usizeAdd p.offset lim := by
    rw [Wasm.usizeAdd, MoltenDB.usizeAdd, Nat.mod_eq_of_lt hlim,
      Nat.mod_eq_of_lt (hlim.trans (by decide))]
  unfold Wasm.findInOrder Db.findInOrder
  generalize Wasm.usizeAdd p.offset lim = need at hsum ⊢
  subst hsum
  rfl

/-- A filtered scan of the build for wasm32, with a count. -/
theorem Orderly.yields_wasm_findInOrder {db : Db} {p : Db.GetFilteredParams}
    (h : Orderly db p.collection) {col : DashMap Bytes} (hcol : db.col p.collection = some col)
    {lim : ℕ} (hcount : p.count = some lim) (hlim : p.offset + lim < 2 ^ 32) :
    Yields db ((fun docs => (docs.drop p.offset).take lim) <$> Wasm.findInOrder col p lim)
      (db.filteredPage p) := by
  rw [Db.filteredPage, hcol, hcount, Wasm.findInOrder_eq col hlim]
  exact h.yields_findInOrder hcol (hlim.trans (by decide))

theorem Orderly.yields_wasm_getFiltered {db : Db} {p : Db.GetFilteredParams}
    (h : Orderly db p.collection) (hp : p.offset = 0) (hlim : ∀ n, p.count = some n → n < 2 ^ 32) :
    Yields db (expandAll <$> Wasm.getFiltered p)
      (db.inSeq p.collection p.predicate (p.count.isNone || p.defaultOrderAsc) p.count) := by
  rw [← Db.expandAll_filteredPage db hp]
  refine Yields.map expandAll (yields_get_bind fun world n => ?_)
  rw [Db.col_elsewhere]
  cases hcol : db.col p.collection with
  | none =>
    rw [Db.filteredPage, hcol]
    exact yields_pure _
  | some col =>
    cases hcount : p.count with
    | none =>
      rw [Db.filteredPage, hcol, hcount]
      exact (h.numbered col hcol).yields_hydrate p.predicate p.offset
    | some lim =>
      refine h.yields_wasm_findInOrder hcol hcount ?_
      rw [hp, Nat.zero_add]
      exact hlim lim hcount

theorem yields_wasm_scanTopNRaw (db : Db) (c : String) (predicate : Predicate) (field : String)
    (descending : Bool) (cap : ℕ) :
    Yields db (expandAll <$> Wasm.scanTopNRaw c predicate field descending cap)
      (db.smallest c predicate field descending cap) := by
  unfold Wasm.scanTopNRaw Db.smallest
  split_ifs with hcap
  · subst hcap
    cases db.col c with
    | none => exact (yields_pure []).map expandAll
    | some col =>
      dsimp only
      rw [expected_sortedTopN 0 (.refl _), firsts_zero]
      exact (yields_pure []).map expandAll
  · cases hcol : db.col c with
    | none =>
      refine Yields.map expandAll (v := []) (yields_get_bind fun world n => ?_)
      rw [Db.col_elsewhere, hcol]
      exact yields_pure _
    | some col =>
      refine Yields.map expandAll (yields_get_bind fun world n => ?_)
      rw [Db.col_elsewhere, hcol]
      refine yields_walk fun es hes => ?_
      rw [expected_sortedTopN cap (hes.filterMap _), ← fold_pushBounded_items .one cap _ es]
      exact yields_pure _

/-- **The build for wasm32** finds what it has to. -/
theorem Orderly.wasm_meets {db : Db} {c : String} (h : Orderly db c) : Build.wasm.Meets db c where
  asUsize n hn := Nat.mod_eq_of_lt hn
  usizeAdd m n hmn := Nat.mod_eq_of_lt hmn
  scanWhere predicate need asc hneed := by
    exact Orderly.yields_wasm_getFiltered
      (p := ⟨c, predicate, 0, some need, asc, true⟩) h rfl fun n hn => by cases hn; exact hneed
  getFiltered p hc hp hlim := by
    subst hc
    exact h.yields_wasm_getFiltered hp hlim
  scanTopNRaw := yields_wasm_scanTopNRaw db c
  scanTopN predicate cmp cap hcmp := yields_scanTopN db .one c predicate hcmp cap

/-! ### One worker -/

/-- The native build with one worker, whose coalesced scans come alone. -/
def Build.single : Build where
  asUsize := UInt64.toNat
  usizeAdd := MoltenDB.usizeAdd
  scanWhere := Db.getFilteredCoalesced
  getFiltered := Db.getFiltered
  scanTopNRaw := Db.scanTopNRawCoalesced
  scanTopN := Db.scanTopN

theorem Orderly.yields_getFilteredCoalesced {db : Db} {c : String} (h : Orderly db c)
    (predicate : Predicate) (need : ℕ) (asc : Bool) :
    Yields db (Db.getFilteredCoalesced c predicate (some need) asc)
      (db.inSeq c predicate asc (some need)) := by
  refine yields_get_bind fun world n => ?_
  rw [Db.col_elsewhere, Db.inSeq]
  cases hcol : db.col c with
  | none => exact yields_pure _
  | some col =>
    refine yields_walk fun es hes => ?_
    rw [(h.numbered col hcol).sortBySeq_perm_eq asc predicate hes (.refl _)]
    exact yields_pure _

theorem yields_scanTopNRawCoalesced (db : Db) (c : String) (predicate : Predicate)
    (field : String) (descending : Bool) (cap : ℕ) :
    Yields db (Db.scanTopNRawCoalesced c predicate field descending cap)
      (db.smallest c predicate field descending cap) := by
  refine yields_get_bind fun world n => ?_
  rw [Db.col_elsewhere, Db.smallest]
  cases hcol : db.col c with
  | none => exact yields_pure _
  | some col =>
    refine yields_walk fun es hes => ?_
    dsimp only
    rw [expected_sortedTopN cap (hes.filterMap _)]
    have hfold := foldl_pushBounded_items cap []
      (es.filterMap (sortItem predicate (splitDots field) descending))
    rw [firsts_nil, List.nil_append] at hfold
    rw [← hfold]
    simp only [List.filterMap_filter]
    exact yields_pure _

omit [Crates] in
theorem yields_scanTopN_single (db : Db) (c : String) (predicate : Predicate)
    {cmp : Json → Json → Ordering} (hcmp : Std.TransCmp cmp) (cap : ℕ) :
    Yields db (Db.scanTopN c predicate cmp cap) (db.firstBy c predicate cmp cap) := by
  refine yields_get_bind fun world n => ?_
  rw [Db.col_elsewhere, Db.firstBy]
  cases hcol : db.col c with
  | none => exact yields_pure _
  | some col =>
    refine yields_walk fun es hes => ?_
    have hitems : ((es.filter fun e => predicate e.1 e.2).filterMap fun e =>
        (msgpackToValue e.2).map fun v => (e.1, v)) = es.filterMap (docItem predicate) :=
      List.filterMap_filter
    dsimp only
    rw [hitems, ← fold_docs .one hcmp cap predicate hes, foldl_filterMap_push]
    exact yields_pure _

/-- **One worker** finds what the other builds find. -/
theorem Orderly.single_meets {db : Db} {c : String} (h : Orderly db c) :
    Build.single.Meets db c where
  asUsize _ _ := rfl
  usizeAdd m n hmn := Nat.mod_eq_of_lt (hmn.trans (by decide))
  scanWhere predicate need asc _ := h.yields_getFilteredCoalesced predicate need asc
  getFiltered p hc hp hlim := by
    subst hc
    exact h.yields_getFiltered hp fun n hn => (hlim n hn).trans (by decide)
  scanTopNRaw := yields_scanTopNRawCoalesced db c
  scanTopN predicate cmp cap hcmp := yields_scanTopN_single db c predicate hcmp cap

end

/-! ## Two builds -/

/-- The `offset` of a query, before it becomes a size. -/
def queryOffset (payload : Json) : ℕ :=
  (((payload.field .offset).bind Json.asU64).map UInt64.toNat).getD 0

/-- The `count` of a query. -/
def queryCount (payload : Json) : ℕ :=
  (((payload.field .count).bind Json.asU64).map UInt64.toNat).getD DEFAULT_COUNT

section

variable [Crates] [Lowercase] [FloatText] {b b' : Build} {db : Db}

omit [Crates] [Lowercase] [FloatText] in
/-- Sizes that fit are parsed as they are. -/
theorem Build.Meets.parseGetParams_eq [Crates] {c : String} (h : b.Meets db c) (now : UInt64)
    (payload : Json) (hfits : queryOffset payload + queryCount payload < 2 ^ 32) :
    b.parseGetParams db now payload = MoltenDB.parseGetParams db now payload := by
  have hcount : ∀ n, (payload.field .count).bind Json.asU64 = some n → b.asUsize n = n.toNat := by
    intro n hn
    refine h.asUsize n ?_
    rw [queryCount, hn, Option.map_some, Option.getD_some] at hfits
    omega
  have hoffset : ∀ n, (payload.field .offset).bind Json.asU64 = some n →
      b.asUsize n = n.toNat := by
    intro n hn
    refine h.asUsize n ?_
    rw [queryOffset, hn, Option.map_some, Option.getD_some] at hfits
    omega
  have hcountMap : ((payload.field .count).bind Json.asU64).map b.asUsize =
      ((payload.field .count).bind Json.asU64).map UInt64.toNat :=
    Option.map_congr fun n hn => hcount n hn
  have hoffsetMap : ((payload.field .offset).bind Json.asU64).map b.asUsize =
      ((payload.field .offset).bind Json.asU64).map UInt64.toNat :=
    Option.map_congr fun n hn => hoffset n hn
  have hany : (((payload.field .count).bind Json.asU64).any fun n =>
      decide (MAX_COUNT < b.asUsize n)) =
      ((payload.field .count).bind Json.asU64).any fun n => decide (MAX_COUNT < n.toNat) := by
    cases hn : (payload.field .count).bind Json.asU64 with
    | none => rfl
    | some n => rw [Option.any_some, Option.any_some, hcount n hn]
  unfold Build.parseGetParams MoltenDB.parseGetParams
  dsimp only
  rw [hany, hcountMap, hoffsetMap]

omit [Crates] [Lowercase] [FloatText] in
/-- The parameters of a query that fits. -/
theorem parseGetParams_fits {now : UInt64} {payload : Json} {params : GetParams}
    (h : parseGetParams db now payload = .ok params) :
    params.keys = payload.field .keys ∧ params.colName = (namedCollection payload).getD "default" ∧
      params.offset = queryOffset payload ∧ params.countLimit = queryCount payload := by
  unfold parseGetParams at h
  dsimp only at h
  split_ifs at h
  cases h
  exact ⟨rfl, rfl, rfl, rfl⟩

omit [FloatText] in
/-- The scans of a query find the same; without joins and prefixes it has no sort specs. -/
theorem Build.Meets.scanDocuments_same {params : GetParams} (h : b.Meets db params.colName)
    (h' : b'.Meets db params.colName) (hfits : params.offset + params.countLimit < 2 ^ 32)
    (hpath : params.sortSpecs.isSome → params.hasJoins = true ∨ params.hasPrefix = true) :
    ∃ raw, Yields db (b.scanDocuments params) raw ∧ Yields db (b'.scanDocuments params) raw := by
  have hfiltered : ∀ predicate hasWhere, ∃ raw,
      Yields db (b.scanFiltered params predicate hasWhere) raw ∧
        Yields db (b'.scanFiltered params predicate hasWhere) raw := by
    intro predicate hasWhere
    have hlim : ∀ n, (if params.sortSpecs.isSome then none
        else some (params.offset + params.countLimit)) = some n → n < 2 ^ 32 := by
      intro n hn
      split_ifs at hn
      exact Option.some.inj hn ▸ hfits
    unfold Build.scanFiltered
    rw [h.usizeAdd _ _ hfits, h'.usizeAdd _ _ hfits]
    exact ⟨_, h.getFiltered _ rfl rfl hlim, h'.getFiltered _ rfl rfl hlim⟩
  unfold Build.scanDocuments
  dsimp only
  split
  · next clause hclause hprefix =>
    have hjoins : params.hasJoins = false := by
      cases hj : params.hasJoins with
      | false => rfl
      | true =>
        rw [hj] at hclause
        cases hclause
    have hsort : params.sortSpecs.isSome = false := by
      cases hs : params.sortSpecs.isSome with
      | false => rfl
      | true => simpa [hjoins, hprefix] using hpath hs
    rw [hsort, h.usizeAdd _ _ hfits, h'.usizeAdd _ _ hfits]
    exact ⟨_, h.scanWhere _ _ _ hfits, h'.scanWhere _ _ _ hfits⟩
  · exact hfiltered _ _
  · exact hfiltered _ _
  · exact hfiltered _ _

/-- The response to the documents that are kept. -/
def Build.generalAnswer (b : Build) (params : GetParams) :
    Except Response (List Found) → Response
  | .error e => e
  | .ok [] => GetError.noDocumentsFound.intoResponse
  | .ok (d :: results) => b.shapeAndReturn params (d :: results)

theorem Build.runGeneralPath_eq (b : Build) (params : GetParams) :
    b.runGeneralPath params = (do
      let raw ← b.fetchDocuments params
      let db ← Eff.get
      return b.generalAnswer params (filterAndJoinDocs db params raw)) := by
  unfold Build.runGeneralPath
  congr 1
  funext raw
  congr 1
  funext db
  rcases filterAndJoinDocs db params raw with e | (_ | ⟨d, results⟩) <;> rfl

/-- **The general path** answers from what the scan finds. -/
theorem yields_runGeneralPath {params : GetParams} {raw : List (String × Json)}
    (hraw : Yields db (b.fetchDocuments params) raw) :
    Yields db (b.runGeneralPath params) (b.generalAnswer params (filterAndJoinDocs db params raw)) := by
  rw [b.runGeneralPath_eq]
  refine hraw.bind (yields_get_bind fun world n => ?_)
  have hjoin : filterAndJoinDocs { db with world, tick := n } params raw =
      filterAndJoinDocs db params raw := filterAndJoinDocs_congr fun _ _ => rfl
  rw [hjoin]
  exact yields_pure _

theorem Build.Meets.runGeneralPath_same {params : GetParams} (h : b.Meets db params.colName)
    (h' : b'.Meets db params.colName) (hkeys : params.keys = none)
    (hfits : params.offset + params.countLimit < 2 ^ 32)
    (hpath : params.sortSpecs.isSome → params.hasJoins = true ∨ params.hasPrefix = true) :
    ∃ r, Yields db (b.runGeneralPath params) r ∧ Yields db (b'.runGeneralPath params) r := by
  obtain ⟨raw, hraw, hraw'⟩ := h.scanDocuments_same h' hfits hpath
  have hshape : ∀ results, b.shapeAndReturn params results = b'.shapeAndReturn params results := by
    intro results
    unfold Build.shapeAndReturn
    rw [h.usizeAdd _ _ hfits, h'.usizeAdd _ _ hfits]
  have hanswer : ∀ docs, b.generalAnswer params docs = b'.generalAnswer params docs := by
    rintro (e | (_ | ⟨d, results⟩))
    · rfl
    · rfl
    · exact hshape _
  have hfetch : ∀ b : Build, b.fetchDocuments params = b.scanDocuments params := by
    intro b
    rw [Build.fetchDocuments, hkeys]
  refine ⟨b.generalAnswer params (filterAndJoinDocs db params raw),
    yields_runGeneralPath (by rwa [hfetch]), ?_⟩
  rw [hanswer]
  exact yields_runGeneralPath (by rwa [hfetch])

theorem Build.Meets.runFastSortPath_same {params : GetParams} (h : b.Meets db params.colName)
    (h' : b'.Meets db params.colName) (hfloat : FloatText.Numeric)
    (hfits : params.offset + params.countLimit < 2 ^ 32) (specs : List Json) :
    ∃ r, Yields db (b.runFastSortPath params specs) r ∧
      Yields db (b'.runFastSortPath params specs) r := by
  have htop : ∃ top, Yields db (b.fastSorted params specs) top ∧
      Yields db (b'.fastSorted params specs) top := by
    have hcmp := transCmp_makeComparator hfloat specs
    unfold Build.fastSorted
    rw [h.usizeAdd _ _ hfits, h'.usizeAdd _ _ hfits]
    dsimp only
    split
    · split_ifs
      · exact ⟨_, h.scanTopN _ _ _ hcmp, h'.scanTopN _ _ _ hcmp⟩
      · exact ⟨_, h.scanTopNRaw _ _ _ _, h'.scanTopNRaw _ _ _ _⟩
    · exact ⟨_, h.scanTopN _ _ _ hcmp, h'.scanTopN _ _ _ hcmp⟩
  obtain ⟨top, hb, hb'⟩ := htop
  exact ⟨_, hb.bind (yields_pure _), hb'.bind (yields_pure _)⟩

/-- **Builds that meet the same answer alike**, in any two worlds with the same time. -/
theorem Build.Meets.processGet_eq (payload : Json) (maxBodySize maxKeysPerRequest : ℕ)
    (h : b.Meets db ((namedCollection payload).getD "default"))
    (h' : b'.Meets db ((namedCollection payload).getD "default")) (hfloat : FloatText.Numeric)
    (hkeys : payload.field .keys = none)
    (hfits : queryOffset payload + queryCount payload < 2 ^ 32) {world : World} {tick : ℕ}
    (hclock : world.clock tick = db.world.clock db.tick) :
    (b.processGet payload maxBodySize maxKeysPerRequest db).1 =
      (b'.processGet payload maxBodySize maxKeysPerRequest { db with world, tick }).1 := by
  unfold Build.processGet
  cases validateGetRequest payload maxBodySize maxKeysPerRequest with
  | error e => rfl
  | ok u =>
    dsimp only
    generalize hnow : db.world.clock db.tick = now at hclock
    rw [nowMs_get_bind, nowMs_get_bind]
    dsimp only
    rw [hnow, hclock]
    have hparse : ∀ (world : World) (n : ℕ),
        b.parseGetParams { db with world, tick := n } now payload =
          MoltenDB.parseGetParams db now payload ∧
        b'.parseGetParams { db with world, tick := n } now payload =
          MoltenDB.parseGetParams db now payload :=
      fun _ _ => ⟨h.parseGetParams_eq now payload hfits, h'.parseGetParams_eq now payload hfits⟩
    rw [(hparse db.world (db.tick + 1)).1, (hparse world (tick + 1)).2]
    cases hparams : MoltenDB.parseGetParams db now payload with
    | error e => rfl
    | ok params =>
      obtain ⟨hpkeys, hcol, hoffset, hcount⟩ := parseGetParams_fits hparams
      rw [← hcol] at h h'
      rw [hkeys] at hpkeys
      rw [← hoffset, ← hcount] at hfits
      have hdone : ∀ {m m' : Op Response}, (∃ r, Yields db m r ∧ Yields db m' r) →
          (m { db with tick := db.tick + 1 }).1 = (m' { db with world, tick := tick + 1 }).1 := by
        rintro m m' ⟨r, hm, hm'⟩
        exact (hm.ok db.world (db.tick + 1)).trans (hm'.ok world (tick + 1)).symm
      dsimp only
      cases hsort : params.sortSpecs with
      | none => exact hdone (h.runGeneralPath_same h' hpkeys hfits fun hs => by simp [hsort] at hs)
      | some specs =>
        dsimp only
        split_ifs with hfast
        · exact hdone (h.runFastSortPath_same h' hfloat hfits specs)
        · refine hdone (h.runGeneralPath_same h' hpkeys hfits fun _ => ?_)
          cases hj : params.hasJoins <;> cases hp : params.hasPrefix <;> simp_all

/-- The handler that goes by one worker and by one list for each scan is a build. -/
theorem single_processGet (payload : Json) (maxBodySize maxKeysPerRequest : ℕ) :
    Build.single.processGet payload maxBodySize maxKeysPerRequest =
      MoltenDB.processGet payload maxBodySize maxKeysPerRequest := rfl

/-- **One worker suffices**: the native build answers like the handler with one worker. -/
theorem native_processGet (payload : Json) (maxBodySize maxKeysPerRequest : ℕ) (w : Workers)
    (before after : List ScanRequest)
    (h : Orderly db ((namedCollection payload).getD "default")) (hfloat : FloatText.Numeric)
    (hkeys : payload.field .keys = none)
    (hfits : queryOffset payload + queryCount payload < 2 ^ 32) :
    ((Build.native w before after).processGet payload maxBodySize maxKeysPerRequest db).1 =
      (MoltenDB.processGet payload maxBodySize maxKeysPerRequest db).1 := by
  rw [← single_processGet]
  exact (h.native_meets w before after).processGet_eq payload maxBodySize maxKeysPerRequest
    h.single_meets hfloat hkeys hfits rfl

end

/-! ## Two documents in both builds -/

section

/-- A world that walks over hash maps backwards. -/
def World.backwards : World :=
  { World.plain 0 [] with
    order := fun _ ks => ks.reverse
    order_perm := fun _ ks => ks.reverse_perm }

theorem ofTwoDocuments_orderly : @Orderly Crates.plain ofTwoDocuments "c" := by
  let _ := Crates.plain
  refine ⟨ofTwoDocuments_synced, fun col hcol k b hb => ?_⟩
  rw [col_ofTwoDocuments] at hcol
  obtain rfl := Option.some.inj hcol
  rw [get_twoDocuments] at hb
  split_ifs at hb
  · obtain rfl := Option.some.inj hb
    decide +kernel
  · obtain rfl := Option.some.inj hb
    decide +kernel

/-- A query of the collection, sorted by two fields. -/
def sortedQuery : Json :=
  .obj [("collection", .str "c"), ("offset", .ofU64 1), ("sort", .arr [.str "n", .str "m"])]

def countQuery (n : UInt64) : Json := .obj [("collection", .str "c"), ("count", .ofU64 n)]

end

end MoltenDB
