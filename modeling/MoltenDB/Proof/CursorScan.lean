/-
  The scan of one page below a cursor.

  The clause of a page is that of the client with the condition `_seq < cursor` in it.  On
  documents with numbers below `2 ^ 53` both evaluators read this condition exactly, so the
  scan finds the documents that the client's clause selects, as far as they are below the
  cursor.
-/
import MoltenDB.Handlers.Flatten
import MoltenDB.Proof.Builds
import MoltenDB.Proof.Counters
import MoltenDB.Query.Clauses

namespace MoltenDB

open Wire Firsts SystemFields WhereOperator

/-! ## The clause of a page -/

/-- The condition on the documents below a cursor. -/
def belowCursor (n : UInt64) : Json := .obj [(asStr .lt, .ofU64 n)]

/-- The clause of the page after the cursor. -/
def cursorClause (q : Json) : Option UInt64 → Json
  | none => q
  | some n => q.set SEQ (belowCursor n)

section

variable [Lowercase]

/-- An entry that holds decides nothing. -/
theorem evaluateEntries_append {doc : Json} {e : String × Json} (h : evaluateEntry doc e.1 e.2 = .ok true)
    (A B : List (String × Json)) :
    evaluateEntries doc (A ++ e :: B) = evaluateEntries doc (A ++ B) := by
  induction A with
  | nil =>
    rw [List.nil_append, List.nil_append, evaluateEntries, h]
    rfl
  | cons a A ih => rw [List.cons_append, List.cons_append, evaluateEntries, evaluateEntries, ih]

/-- Where the condition of the cursor holds, the clause of the page says what that of the client
    says. -/
theorem evaluateWhere_cursorClause {doc : Json} {entries : List (String × Json)}
    (hsorted : Fields.Sorted entries) (hseq : entries.lookup SEQ = none) {cursor : Option UInt64}
    (h : ∀ n ∈ cursor, evaluateEntry doc SEQ (belowCursor n) = .ok true) :
    evaluateWhere doc (cursorClause (.obj entries) cursor) = evaluateWhere doc (.obj entries) := by
  cases cursor with
  | none => rfl
  | some n =>
    have hentry := evaluateEntries_append (e := (SEQ, belowCursor n)) (h n rfl)
      (entries.filter fun p => compare p.1 SEQ == .lt)
      (entries.filter fun p => compare SEQ p.1 == .lt)
    rw [hsorted.filter_append hseq] at hentry
    rw [cursorClause, Json.set_obj, evaluateWhere, evaluateWhere]
    exact hentry

variable [Crates]

/-- The evaluation of an encoded document looks at the entries one by one. -/
theorem rawMatches_obj (entries : List (String × Json)) (bytes : Bytes) :
    rawMatches (.obj entries) bytes =
      entries.all fun e => (evaluateEntryMsgpack bytes e.1 e.2).getD false := by
  rw [rawMatches, evaluateWhereMsgpack]
  induction entries with
  | nil => rfl
  | cons e entries ih =>
    obtain ⟨key, condition⟩ := e
    rw [evaluateEntriesMsgpack, List.all_cons, ← ih]
    rcases evaluateEntryMsgpack bytes key condition with _ | (_ | _)
    · rfl
    · rfl
    · exact (Bool.true_and _).symm

theorem rawMatches_set {entries : List (String × Json)} (hsorted : Fields.Sorted entries)
    (hseq : entries.lookup SEQ = none) (condition : Json) (bytes : Bytes) :
    rawMatches ((Json.obj entries).set SEQ condition) bytes =
      (rawMatches (.obj entries) bytes &&
        (evaluateEntryMsgpack bytes SEQ condition).getD false) := by
  rw [Json.set_obj, rawMatches_obj, rawMatches_obj, Fields.insert, List.all_append, List.all_cons]
  conv_rhs => rw [← hsorted.filter_append hseq, List.all_append, Bool.and_assoc]
  rw [Bool.and_comm ((evaluateEntryMsgpack bytes SEQ condition).getD false)]

end

/-! ## Documents below a cursor -/

/-- The first number that is not below those of the documents. -/
def SEQ_END : UInt64 := UInt64.ofNat (2 ^ 53)

/-- Numbers up to `2 ^ 53` are read as they are. -/
theorem truncate_ofU64 {n : UInt64} (h : n < SEQ_END) :
    (Json.ofU64 n).asF64 = some (n.toNat : ℚ) ∧ Binary64.truncate (n.toNat : ℚ) = n := by
  have hn : n.toNat < 2 ^ 53 := by
    have hlt := UInt64.lt_iff_toNat_lt.1 h
    rwa [show SEQ_END.toNat = 2 ^ 53 by decide] at hlt
  constructor
  · change some (Binary64.roundNat n.toNat : ℚ) = _
    rw [Binary64.roundNat_eq hn.le]
  · have hneg : ¬ (n.toNat : ℚ) < 0 := not_lt.2 (Nat.cast_nonneg _)
    have hbig : ¬ (2 : ℚ) ^ 64 ≤ (n.toNat : ℚ) := by
      rw [not_le]
      exact_mod_cast n.toNat_lt
    have hfloor : (n.toNat : ℚ).floor = n.toNat := by
      rw [← Rat.floor_intCast n.toNat, Int.cast_natCast]
    rw [Binary64.truncate, if_neg hneg, if_neg hbig, hfloor]
    simp

section

variable [Crates]

theorem Sequenced.readTokenU64 {m : UInt64} {v : Json} (h : Sequenced m v) :
    ∃ s < m, v.Holds TOK_SEQ (.ofU64 s) ∧ MoltenDB.readTokenU64 (valueToMsgpack v) TOK_SEQ = some s ∧
      readMsgpackSeqToken (valueToMsgpack v) = s := by
  obtain ⟨s, hs, hholds⟩ := h.holds
  have hread : MoltenDB.readTokenU64 (valueToMsgpack v) TOK_SEQ = some s := by
    rw [hholds.readTokenU64 (by decide) h.room.fits h.room.depth, Json.asU64_ofU64]
  refine ⟨s, hs, hholds, hread, ?_⟩
  rw [readMsgpackSeqToken, hread]
  rfl

variable [Lowercase]

/-- **The condition of the cursor on an encoded document.** -/
theorem evaluateEntryMsgpack_belowCursor {v : Json} (h : Sequenced SEQ_END v) {n : UInt64}
    (hn : n < SEQ_END) :
    (evaluateEntryMsgpack (valueToMsgpack v) SEQ (belowCursor n)).getD false =
      decide (readMsgpackSeqToken (valueToMsgpack v) < n) := by
  obtain ⟨s, -, -, hread, hseq⟩ := h.readTokenU64
  obtain ⟨hfloat, htrunc⟩ := truncate_ofU64 hn
  have hsys : readMsgpackSystemFieldU64 (valueToMsgpack v) SEQ = some s := hread
  have hpred : evaluatePredicateMsgpack (valueToMsgpack v) SEQ (asStr .lt) (.ofU64 n) =
      some (decide (s < n)) := by
    have hop : fromStr (asStr .lt) = some .lt := by decide
    rw [evaluatePredicateMsgpack, hsys]
    simp only [evaluateSystemField, hfloat, hop, Option.bind_eq_bind, Option.bind_some, htrunc]
  have hkey : ¬ combines SEQ := by decide
  rw [belowCursor, evaluateEntryMsgpack_field _ hkey, hseq, Option.getD_some, evaluateFieldMsgpack,
    List.all_cons, List.all_nil, Bool.and_true, hpred, Option.getD_some]

omit [Crates] in
/-- **The condition of the cursor on a decoded document** below it. -/
theorem evaluateEntry_belowCursor {v : Json} {s n : UInt64} (h : v.Holds TOK_SEQ (.ofU64 s))
    (hs : s < SEQ_END) (hn : n < SEQ_END) (hlt : s < n) :
    evaluateEntry (expandSystemFields v.canon) SEQ (belowCursor n) = .ok true := by
  have hkey : ¬ combines SEQ := by decide
  have hpath : splitDots SEQ = [SEQ] := by decide
  have hget : (expandSystemFields v.canon).getNestedValue [SEQ] = some (.ofU64 s) := by
    rw [Json.getNestedValue, h.canon.get_expand systemField_seq]
    rfl
  have hop : fromStr (asStr .lt) = some .lt := by decide
  have hless : (s.toNat : ℚ) < n.toNat := by exact_mod_cast UInt64.lt_iff_toNat_lt.1 hlt
  have hcond : evaluateCondition (.ofU64 s) (asStr .lt) (.ofU64 n) = .ok true := by
    simp [evaluateCondition, hop, compareNumbers, (truncate_ofU64 hs).1, (truncate_ofU64 hn).1,
      hless]
  rw [belowCursor, evaluateEntry_field _ hkey, evaluateField, hpath, hget, Option.getD_some,
    evaluateConditions, hcond]
  rfl

end

/-! ## Scans below a cursor -/

section

variable [Crates] {col : DashMap Bytes}

/-- A scan depends on what its test says about the documents. -/
theorem seqPairs_congr {P Q : Predicate} (h : ∀ k b, col[k]? = some b → P k b = Q k b)
    (asc : Bool) : seqPairs col P asc = seqPairs col Q asc := by
  have hfilter : col.toList.filter (fun e => P e.1 e.2) = col.toList.filter fun e => Q e.1 e.2 :=
    List.filter_congr fun e he => h e.1 e.2 (Map.mem_toList.1 he)
  rw [seqPairs, seqPairs, matchingPairs, matchingPairs, hfilter]

/-- **The matches of a second test** among those of a first one, in their order. -/
theorem Numbered.filter_seqPairs (h : Numbered col) (P Q : Predicate) (asc : Bool) :
    (seqPairs col P asc).filter (pairPasses col Q) =
      seqPairs col (fun k b => P k b && Q k b) asc := by
  rw [seqPairs, seqPairs, sortBySeq_eq, sortBySeq_eq]
  refine eq_insertionSort (h.pair_ext asc) (pairOf_matchingPairs (.refl _)) ?_
    ((List.pairwise_insertionSort _ _).filter _)
  refine ((List.perm_insertionSort _ _).filter _).trans (.of_eq ?_)
  rw [matchingPairs, matchingPairs, List.filter_map, List.filter_filter]
  refine congrArg _ (List.filter_congr fun e he => ?_)
  have hb : col[e.1]? = some e.2 := Map.mem_toList.1 he
  simp [pairPasses, hb, Bool.and_comm]

theorem length_seqPairs_le (P : Predicate) (asc : Bool) : (seqPairs col P asc).length ≤ col.size := by
  rw [seqPairs, sortBySeq_eq, List.length_insertionSort, matchingPairs, List.length_map,
    ← Std.ExtTreeMap.length_toList]
  exact List.length_filter_le _ _

theorem mem_seqPairs {P : Predicate} {asc : Bool} {p : UInt64 × String} :
    p ∈ seqPairs col P asc ↔
      ∃ b, col[p.2]? = some b ∧ P p.2 b = true ∧ readMsgpackSeqToken b = p.1 := by
  rw [seqPairs, sortBySeq_eq, List.mem_insertionSort, matchingPairs, List.mem_map]
  constructor
  · rintro ⟨e, he, rfl⟩
    obtain ⟨hmem, hpass⟩ := List.mem_filter.1 he
    exact ⟨e.2, Map.mem_toList.1 hmem, hpass, rfl⟩
  · rintro ⟨b, hb, hpass, hp1⟩
    exact ⟨(p.2, b), List.mem_filter.2 ⟨Map.mem_toList.2 hb, hpass⟩, Prod.ext hp1 rfl⟩

/-- The numbers come in this order. -/
def Earlier (asc : Bool) (a b : UInt64) : Prop := if asc then a < b else b < a

omit [Crates] in
theorem InSeqOrder.earlier {asc : Bool} {a b : UInt64 × String} (h : InSeqOrder asc a b)
    (hne : a.1 ≠ b.1) : Earlier asc a.1 b.1 := by
  cases asc
  · exact UInt64.lt_of_le_of_ne h hne.symm
  · exact UInt64.lt_of_le_of_ne h hne

/-- The documents come in the order of their numbers, and no two have the same number. -/
theorem Numbered.earlier (h : Numbered col) (P : Predicate) (asc : Bool) :
    (seqPairs col P asc).Pairwise fun a b => Earlier asc a.1 b.1 := by
  have hpair : ∀ a ∈ seqPairs col P asc, PairOf col a := fun a ha => pairOf_seqPairs ha
  rw [seqPairs, sortBySeq_eq] at hpair ⊢
  have hnodup := (List.perm_insertionSort (InSeqOrder asc) (matchingPairs P col.toList)).nodup_iff.2
    (nodup_matchingPairs P col)
  refine ((List.pairwise_insertionSort (InSeqOrder asc) _).and hnodup).imp_of_mem
    fun {a b} ha hb hab => hab.1.earlier fun heq => hab.2 ?_
  obtain ⟨b₁, hb₁, hseq₁⟩ := hpair a ha
  obtain ⟨b₂, hb₂, hseq₂⟩ := hpair b hb
  exact Prod.ext heq (h _ _ b₁ b₂ hb₁ hb₂ (by rw [hseq₁, hseq₂, heq]))

/-- **The newest documents are first**, and no two have the same number. -/
theorem Numbered.descending (h : Numbered col) (P : Predicate) :
    (seqPairs col P false).Pairwise fun a b => b.1 < a.1 :=
  h.earlier P false

omit [Crates] in
/-- In a descending list, below an item is what follows it. -/
theorem filter_below {A R : List (UInt64 × String)} {a : UInt64 × String}
    (h : (A ++ a :: R).Pairwise fun a b => b.1 < a.1) :
    (A ++ a :: R).filter (fun p => p.1 < a.1) = R := by
  obtain ⟨-, hR, hA⟩ := List.pairwise_append.1 h
  rw [List.pairwise_cons] at hR
  rw [List.filter_append, List.filter_eq_nil_iff.2, List.nil_append, List.filter_cons_of_neg,
    List.filter_eq_self.2]
  · exact fun p hp => decide_eq_true (hR.1 p hp)
  · simp [UInt64.lt_irrefl]
  · intro p hp
    have hlt := hA p hp a List.mem_cons_self
    simpa using UInt64.le_of_lt hlt

end

/-! ## The documents of a collection -/

/-- The documents of a collection; there are none in one that does not exist. -/
def Db.stored (db : Db) (c : String) : DashMap Bytes := (db.col c).getD ∅

theorem Db.get?_stored (db : Db) (c k : String) : (db.stored c)[k]? = db.bytes c k := by
  rw [Db.stored, Db.bytes, Db.col]
  cases db.state[c]? with
  | none => exact Map.get?_empty k
  | some col => rfl

/-- The collection can be paged through: its documents are stored with different numbers below
    `2 ^ 53`, its index is that of these documents, and it does not expire on the way. -/
structure Pageable [Crates] (db : Db) (c : String) : Prop extends Synced db c where
  sequenced : ∀ k b, db.bytes c k = some b → ∃ v, b = valueToMsgpack v ∧ Sequenced SEQ_END v
  unexpired : ∀ n, ¬ Db.Expired { db with tick := n } c

section

variable [Crates] {db : Db} {c : String}

theorem Synced.numbered_stored (h : Synced db c) : Numbered (db.stored c) := by
  unfold Db.stored
  cases hcol : db.col c with
  | some col => exact h.numbered col hcol
  | none =>
    intro k k' b b' hb
    rw [Option.getD_none, Map.get?_empty] at hb
    cases hb

theorem Db.inSeq_eq (db : Db) (c : String) (P : Predicate) (asc : Bool) (need : Option ℕ) :
    db.inSeq c P asc need = expandAll (decodeAll (db.stored c)
      (need.elim (seqPairs (db.stored c) P asc) (seqPairs (db.stored c) P asc).take)) := by
  unfold Db.inSeq Db.stored
  cases db.col c with
  | some col => rfl
  | none =>
    have hnil : seqPairs (∅ : DashMap Bytes) P asc = [] := by cases asc <;> rfl
    rw [Option.getD_none, hnil]
    cases need with
    | none => rfl
    | some n =>
      rw [Option.elim_some, List.take_nil]
      rfl

theorem Pageable.orderly (h : Pageable db c) : Orderly db c := by
  refine ⟨h.toSynced, fun col hcol k b hb => ?_⟩
  have hbytes : db.bytes c k = some b := by
    rw [← Db.get?_stored, Db.stored, hcol]
    exact hb
  obtain ⟨v, rfl, hv⟩ := h.sequenced k b hbytes
  rw [msgpackToValue_valueToMsgpack hv.room.fits]
  rfl

end

end MoltenDB
