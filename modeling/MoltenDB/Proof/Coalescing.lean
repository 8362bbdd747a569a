/-
  Coalesced scans: every request of a batch gets what it gets alone.

  A bounded heap holds the first items of what it was given, however the pass was split among
  workers (`fold_pushBounded`); so an accumulator depends on its own task and the documents
  only (`fold_tasks`), and the answer to a request not on the rest of its batch
  (`batch_alone`).
-/
import MoltenDB.Engine.Coalesce
import MoltenDB.Engine.Steps

namespace MoltenDB

open Wire Prog Prog.Eff Firsts SystemFields

/-! ## Bounded heaps -/

section Heaps

variable {α : Type} {cmp : α → α → Ordering} [Std.TransCmp cmp]

/-- The first item is at most the second one. -/
abbrev atMost (cmp : α → α → Ordering) (a b : α) : Prop := (cmp a b).isLE = true

instance : Std.Total (atMost cmp) where
  total a b := by
    by_cases h : (cmp a b).isLE = true
    · exact Or.inl h
    · refine Or.inr (Std.OrientedCmp.isLE_of_isGE ?_)
      cases hab : cmp a b <;> simp_all

instance : IsTrans α (atMost cmp) := ⟨fun _ _ _ => Std.TransCmp.isLE_trans⟩

omit [Std.TransCmp cmp] in
/-- Items are pushed as they are found. -/
theorem foldl_filterMap_push {ε : Type} (cap : ℕ) (heap : List α) (item : ε → Option α)
    (es : List ε) :
    (es.filterMap item).foldl (pushBounded cmp cap) heap =
      es.foldl (fun heap e => pushItem cmp cap heap (item e)) heap := by
  rw [List.foldl_filterMap]
  congr 1
  ext heap e : 2
  cases item e <;> rfl

variable {P : α → Prop} (anti : ∀ a b, P a → P b → cmp a b = .eq → a = b)

include anti

theorem atMost_antisymm (a b : α) (ha : P a) (hb : P b) (h : atMost cmp a b)
    (h' : atMost cmp b a) : a = b :=
  anti a b ha hb (Std.OrientedCmp.isLE_antisymm h h')

/-- A push keeps the first items. -/
theorem pushBounded_firsts (cap : ℕ) {xs : List α} {x : α} (hP : ∀ a ∈ x :: xs, P a) :
    pushBounded cmp cap (firsts (atMost cmp) cap xs) x = firsts (atMost cmp) cap (x :: xs) := by
  have hheap : (firsts (atMost cmp) cap xs).Pairwise (atMost cmp) :=
    (List.pairwise_insertionSort _ xs).take
  have hlen : (firsts (atMost cmp) cap xs).length ≤ cap := by
    rw [length_firsts]
    exact Nat.min_le_left _ _
  have hPheap : ∀ a ∈ x :: firsts (atMost cmp) cap xs, P a := by
    intro a ha
    rcases List.mem_cons.1 ha with rfl | ha
    · exact hP a List.mem_cons_self
    · exact hP a (List.mem_cons_of_mem _ (mem_of_mem_firsts ha))
  rw [firsts_cons]
  generalize firsts (atMost cmp) cap xs = heap at hheap hlen hPheap ⊢
  -- a sorted list of the heap and the new item is the list with the item inserted
  have hinsert : ∀ ys : List α, ys.Perm (x :: heap) → ys.Pairwise (atMost cmp) →
      heap.orderedInsert (atMost cmp) x = ys := by
    intro ys hperm hsorted
    rw [eq_insertionSort (atMost_antisymm anti) hPheap hperm hsorted, List.insertionSort_cons,
      hheap.insertionSort_eq]
  unfold pushBounded
  split_ifs with hcap hroom
  · subst hcap
    simpa using hlen
  · rw [List.take_of_length_le]
    rw [List.orderedInsert_length]
    exact hroom
  · obtain rfl | ⟨rest, worst, rfl⟩ := heap.eq_nil_or_concat
    · simp at hroom
      omega
    · rw [List.concat_eq_append] at *
      have hfull : rest.length + 1 = cap := by
        rw [List.length_append, List.length_singleton] at hlen hroom
        omega
      have hworst : ∀ a ∈ rest, atMost cmp a worst := fun a ha =>
        (List.pairwise_append.1 hheap).2.2 a ha worst List.mem_cons_self
      rw [List.getLast?_concat, List.dropLast_concat]
      dsimp only
      split_ifs with hlt
      · rw [hinsert (rest.orderedInsert (atMost cmp) x ++ [worst])]
        · rw [List.take_left' (by rw [List.orderedInsert_length, hfull])]
        · exact ((List.perm_orderedInsert _ x rest).append_right [worst]).trans (.refl _)
        · refine List.pairwise_append.2 ⟨?_, List.pairwise_singleton _ _, ?_⟩
          · exact (List.pairwise_append.1 hheap).1.orderedInsert x rest
          · intro a ha b hb
            obtain rfl := List.mem_singleton.1 hb
            rcases (List.mem_orderedInsert _).1 ha with rfl | ha
            · simp [atMost, hlt]
            · exact hworst a ha
      · have hx : atMost cmp worst x := by
          refine Std.OrientedCmp.isLE_of_isGE ?_
          cases h : cmp x worst <;> simp_all
        rw [hinsert ((rest ++ [worst]) ++ [x])]
        · rw [List.take_left' (by simp [hfull])]
        · exact List.perm_append_singleton x _
        · refine List.pairwise_append.2 ⟨hheap, List.pairwise_singleton _ _, ?_⟩
          intro a ha b hb
          obtain rfl := List.mem_singleton.1 hb
          rcases List.mem_append.1 ha with ha | ha
          · exact Std.TransCmp.isLE_trans (hworst a ha) hx
          · obtain rfl := List.mem_singleton.1 ha
            exact hx

theorem foldl_pushBounded (cap : ℕ) {xs ys : List α} (hP : ∀ a ∈ xs ++ ys, P a) :
    ys.foldl (pushBounded cmp cap) (firsts (atMost cmp) cap xs) =
      firsts (atMost cmp) cap (xs ++ ys) := by
  induction ys generalizing xs with
  | nil => rw [List.append_nil, List.foldl_nil]
  | cons y ys ih =>
    have hperm : (y :: xs ++ ys).Perm (xs ++ y :: ys) := List.perm_middle.symm
    have hP' : ∀ a ∈ y :: xs ++ ys, P a := fun a ha => hP a (hperm.mem_iff.1 ha)
    rw [List.foldl_cons, pushBounded_firsts anti cap fun a ha => hP' a (List.mem_append_left _ ha),
      ih hP', firsts_perm (atMost_antisymm anti) cap hP hperm]

/-- A heap emptied into another one, in any order, leaves the first items of what both were
    given. -/
theorem foldl_drained (cap : ℕ) {xs ys drained : List α} (hP : ∀ a ∈ xs ++ ys, P a)
    (hdrained : drained.Perm (firsts (atMost cmp) cap ys)) :
    drained.foldl (pushBounded cmp cap) (firsts (atMost cmp) cap xs) =
      firsts (atMost cmp) cap (xs ++ ys) := by
  have hdrain := hdrained.append_left xs
  have hPf : ∀ a ∈ xs ++ firsts (atMost cmp) cap ys, P a := by
    intro a ha
    rcases List.mem_append.1 ha with ha | ha
    · exact hP a (List.mem_append_left _ ha)
    · exact hP a (List.mem_append_right _ (mem_of_mem_firsts ha))
  rw [foldl_pushBounded anti cap fun a ha => hPf a (hdrain.mem_iff.1 ha),
    firsts_perm (atMost_antisymm anti) cap hPf hdrain, firsts_append (atMost_antisymm anti) cap hP]

/-- Two heaps merged hold the first items of what both were given. -/
theorem mergeHeaps_firsts (w : Workers) (cap : ℕ) {xs ys : List α} (hP : ∀ a ∈ xs ++ ys, P a) :
    Operations.mergeHeaps w cmp cap (firsts (atMost cmp) cap xs) (firsts (atMost cmp) cap ys) =
      firsts (atMost cmp) cap (xs ++ ys) :=
  foldl_drained anti cap hP (w.drain_perm _)

/-- **A bounded heap** holds the first items of a pass, however the pass is split. -/
theorem fold_pushBounded {ε : Type} (w : Workers) (cap : ℕ) (item : ε → Option α) {es : List ε}
    (hP : ∀ a ∈ es.filterMap item, P a) :
    (w.split es).fold [] (fun heap e => pushItem cmp cap heap (item e))
        (Operations.mergeHeaps w cmp cap) =
      firsts (atMost cmp) cap (es.filterMap item) := by
  let Holds (es : List ε) (heap : List α) : Prop :=
    (∀ a ∈ es.filterMap item, P a) → heap = firsts (atMost cmp) cap (es.filterMap item)
  have hfold : Holds (w.split es).toList ((w.split es).fold []
      (fun heap e => pushItem cmp cap heap (item e)) (Operations.mergeHeaps w cmp cap)) := by
    refine Split.fold_spec (fun _ => by simp) (fun xs heap e h hPe => ?_) ?_ _
    · rw [List.filterMap_append] at hPe ⊢
      rw [h fun a ha => hPe a (List.mem_append_left _ ha)]
      cases he : item e with
      | none => simp [he, pushItem]
      | some a =>
        rw [List.filterMap_cons_some he, List.filterMap_nil] at hPe ⊢
        exact foldl_pushBounded anti cap hPe
    · intro xs ys a b ha hb hPe
      rw [List.filterMap_append] at hPe ⊢
      rw [ha fun x hx => hPe x (List.mem_append_left _ hx),
        hb fun x hx => hPe x (List.mem_append_right _ hx)]
      exact mergeHeaps_firsts anti w cap hPe
  rw [w.toList_split] at hfold
  exact hfold hP

end Heaps

/-! ## The accumulators of a pass -/

instance SortItem.transCmp : Std.TransCmp SortItem.cmp :=
  inferInstanceAs (Std.TransCmp (compareLex
    (compareLex (compareOn fun i : SortItem => i.sortValue.value)
      (fun a b => compareOn (fun i : SortItem => i.sortValue.negativeZero) b a))
    (compareOn SortItem.key)))

theorem SortItem.eq_of_cmp {a b : SortItem} (h : SortItem.cmp a b = .eq) : a = b := by
  obtain ⟨ka, va, za⟩ := a
  obtain ⟨kb, vb, zb⟩ := b
  simp only [SortItem.cmp, SortValue.totalCmp, Ordering.then_eq_eq,
    Std.LawfulEqOrd.compare_eq_iff_eq] at h
  obtain ⟨⟨rfl, rfl⟩, rfl⟩ := h
  rfl

/-! The order of sort items tells all of them apart. -/

theorem firsts_items_perm (cap : ℕ) {xs ys : List SortItem} (h : ys.Perm xs) :
    firsts (atMost SortItem.cmp) cap ys = firsts (atMost SortItem.cmp) cap xs :=
  firsts_perm (P := fun _ => True) (atMost_antisymm fun _ _ _ _ => SortItem.eq_of_cmp) cap
    (fun _ _ => trivial) h

theorem foldl_pushBounded_items (cap : ℕ) (xs ys : List SortItem) :
    ys.foldl (pushBounded SortItem.cmp cap) (firsts (atMost SortItem.cmp) cap xs) =
      firsts (atMost SortItem.cmp) cap (xs ++ ys) :=
  foldl_pushBounded (P := fun _ => True) (fun _ _ _ _ => SortItem.eq_of_cmp) cap
    fun _ _ => trivial

theorem fold_pushBounded_items {ε : Type} (w : Workers) (cap : ℕ) (item : ε → Option SortItem)
    (es : List ε) :
    (w.split es).fold [] (fun heap e => pushItem SortItem.cmp cap heap (item e))
        (Operations.mergeHeaps w SortItem.cmp cap) =
      firsts (atMost SortItem.cmp) cap (es.filterMap item) :=
  fold_pushBounded (P := fun _ => True) (fun _ _ _ _ => SortItem.eq_of_cmp) w cap item
    fun _ _ => trivial

section Batch

variable [Crates]

/-- What a pass over the documents finds for a task. -/
def Task.result (task : Task) (es : List (String × Bytes)) : Accum :=
  match task.kind with
  | .filtered => .filtered (matchingPairs task.predicate es)
  | .sorted pathParts isDescending cap =>
    .sorted (firsts (atMost SortItem.cmp) cap
      (es.filterMap (sortItem task.predicate pathParts isDescending)))

/-- The sequence number of a document is kept as it was read. -/
theorem Task.visit_result (task : Task) (key : String) (bytes : Bytes)
    (es : List (String × Bytes)) {seq : Option UInt64}
    (hseq : ∀ s, seq = some s → s = readMsgpackSeqToken bytes) :
    (task.visit key bytes seq (task.result es)).2 = task.result (es ++ [(key, bytes)]) ∧
      ∀ s, (task.visit key bytes seq (task.result es)).1 = some s →
        s = readMsgpackSeqToken bytes := by
  obtain ⟨predicate, kind⟩ := task
  have hread : seq.getD (readMsgpackSeqToken bytes) = readMsgpackSeqToken bytes := by
    cases hs : seq with
    | none => rfl
    | some s => exact hseq s hs
  cases kind with
  | filtered =>
    simp only [Task.visit, Task.result, hread, matchingPairs, List.filter_append, List.map_append]
    by_cases hp : predicate key bytes = true
    · rw [if_pos hp]
      exact ⟨by simp [hp], fun s hs => (Option.some.inj hs).symm⟩
    · rw [if_neg hp]
      exact ⟨by simp [hp], hseq⟩
  | sorted pathParts isDescending cap =>
    have hitem : ∀ a, firsts (atMost SortItem.cmp) cap
        (es.filterMap (sortItem predicate pathParts isDescending) ++ [a]) =
        pushBounded SortItem.cmp cap (firsts (atMost SortItem.cmp) cap
          (es.filterMap (sortItem predicate pathParts isDescending))) a :=
      fun a => (foldl_pushBounded_items cap _ [a]).symm
    simp only [Task.visit, Task.result, List.filterMap_append, List.filterMap_cons,
      List.filterMap_nil, sortItem]
    by_cases hp : predicate key bytes = true
    · rw [if_pos hp, if_pos hp]
      cases sortValueAt pathParts isDescending bytes with
      | none => exact ⟨by simp, hseq⟩
      | some v => exact ⟨congrArg Accum.sorted (hitem ⟨key, v⟩).symm, hseq⟩
    · rw [if_neg hp, if_neg hp]
      exact ⟨by simp, hseq⟩

theorem visitAll_result (key : String) (bytes : Bytes) (es : List (String × Bytes))
    (tasks : List Task) {seq : Option UInt64}
    (hseq : ∀ s, seq = some s → s = readMsgpackSeqToken bytes) :
    visitAll key bytes seq tasks (tasks.map fun t => t.result es) =
      tasks.map fun t => t.result (es ++ [(key, bytes)]) := by
  induction tasks generalizing seq with
  | nil => simp [visitAll]
  | cons task tasks ih =>
    obtain ⟨hacc, hseq'⟩ := task.visit_result key bytes es hseq
    rw [List.map_cons, List.map_cons, visitAll]
    exact congrArg₂ List.cons hacc (ih hseq')

theorem Task.merge_result (w : Workers) (task : Task) (xs ys : List (String × Bytes)) :
    task.merge w (task.result xs) (task.result ys) = task.result (xs ++ ys) := by
  obtain ⟨predicate, kind⟩ := task
  cases kind with
  | filtered => simp [Task.merge, Task.result, matchingPairs]
  | sorted pathParts isDescending cap =>
    refine congrArg Accum.sorted ?_
    rw [List.filterMap_append]
    exact mergeHeaps_firsts (P := fun _ => True) (fun _ _ _ _ => SortItem.eq_of_cmp) w cap
      fun _ _ => trivial

theorem mergeAll_result (w : Workers) (tasks : List Task) (xs ys : List (String × Bytes)) :
    mergeAll w tasks (tasks.map fun t => t.result xs) (tasks.map fun t => t.result ys) =
      tasks.map fun t => t.result (xs ++ ys) := by
  induction tasks with
  | nil => simp [mergeAll]
  | cons task tasks ih =>
    rw [List.map_cons, List.map_cons, List.map_cons, mergeAll, ih, task.merge_result]

/-- **A shared pass** finds for each task what a pass for this task alone finds. -/
theorem fold_tasks (w : Workers) (tasks : List Task) (es : List (String × Bytes)) :
    (w.split es).fold (newAccumulators tasks) (fun accs e => visitAll e.1 e.2 none tasks accs)
      (mergeAll w tasks) = tasks.map fun t => t.result es := by
  let Found (es : List (String × Bytes)) (accs : List Accum) : Prop :=
    accs = tasks.map fun t => t.result es
  have hfold : Found (w.split es).toList ((w.split es).fold (newAccumulators tasks)
      (fun accs e => visitAll e.1 e.2 none tasks accs) (mergeAll w tasks)) := by
    refine Split.fold_spec ?_ (fun xs accs e h => ?_) (fun xs ys a b ha hb => ?_) _
    · refine List.map_congr_left fun t _ => ?_
      obtain ⟨predicate, kind⟩ := t
      cases kind <;> simp [Task.result, matchingPairs]
    · rw [show accs = _ from h]
      exact visitAll_result e.1 e.2 xs tasks fun s hs => by cases hs
    · rw [show a = _ from ha, show b = _ from hb]
      exact mergeAll_result w tasks xs ys
  rw [w.toList_split] at hfold
  exact hfold

end Batch

/-! ## Documents in the order of their numbers -/

section Order

variable {α : Type}

/-- The order that `sortBySeq` sorts in. -/
def InSeqOrder (asc : Bool) (a b : UInt64 × α) : Prop := if asc then a.1 ≤ b.1 else b.1 ≤ a.1

instance (asc : Bool) : DecidableRel (InSeqOrder (α := α) asc) := fun a b =>
  inferInstanceAs (Decidable (if asc then a.1 ≤ b.1 else b.1 ≤ a.1))

instance (asc : Bool) : Std.Total (InSeqOrder (α := α) asc) where
  total a b := by
    cases asc
    · exact UInt64.le_total b.1 a.1
    · exact UInt64.le_total a.1 b.1

instance (asc : Bool) : IsTrans (UInt64 × α) (InSeqOrder asc) where
  trans a b c hab hbc := by
    cases asc
    · exact UInt64.le_trans hbc hab
    · exact UInt64.le_trans hab hbc

theorem InSeqOrder.antisymm {asc : Bool} {a b : UInt64 × α} (h : InSeqOrder asc a b)
    (h' : InSeqOrder asc b a) : a.1 = b.1 := by
  cases asc
  · exact UInt64.le_antisymm h' h
  · exact UInt64.le_antisymm h h'

theorem sortBySeq_eq (asc : Bool) (xs : List (UInt64 × α)) :
    Operations.sortBySeq asc xs = xs.insertionSort (InSeqOrder asc) := by
  cases asc <;> rfl

end Order

section Synced

variable [Crates]

/-- Documents have different sequence numbers. -/
def Numbered (col : DashMap Bytes) : Prop :=
  ∀ (k k' : String) (b b' : Bytes), col[k]? = some b → col[k']? = some b' →
    readMsgpackSeqToken b = readMsgpackSeqToken b' → k = k'

/-- The index has the numbers and keys of the documents, and no others. -/
def Indexes (idx : Map UInt64 String) (col : DashMap Bytes) : Prop :=
  ∀ (seq : UInt64) (k : String),
    idx[seq]? = some k ↔ ∃ b, col[k]? = some b ∧ readMsgpackSeqToken b = seq

/-- The documents of the collection have different sequence numbers, and its index, if it has
    one, is that of these documents. -/
structure Synced (db : Db) (c : String) : Prop where
  numbered : ∀ col, db.col c = some col → Numbered col
  indexes : ∀ col idx, db.col c = some col → db.seqIndex[c]? = some idx → Indexes idx col

/-- The pair is that of a document. -/
def PairOf (col : DashMap Bytes) (p : UInt64 × String) : Prop :=
  ∃ b, col[p.2]? = some b ∧ readMsgpackSeqToken b = p.1

theorem Numbered.pair_ext {col : DashMap Bytes} (h : Numbered col) (asc : Bool)
    (p q : UInt64 × String) (hp : PairOf col p) (hq : PairOf col q) (hpq : InSeqOrder asc p q)
    (hqp : InSeqOrder asc q p) : p = q := by
  obtain ⟨b, hb, hseq⟩ := hp
  obtain ⟨b', hb', hseq'⟩ := hq
  have hnum : p.1 = q.1 := hpq.antisymm hqp
  exact Prod.ext hnum (h _ _ b b' hb hb' (by rw [hseq, hseq', hnum]))

theorem pairOf_matchingPairs {col : DashMap Bytes} {predicate : Predicate}
    {es : List (String × Bytes)} (hes : es.Perm col.toList) :
    ∀ p ∈ matchingPairs predicate es, PairOf col p := by
  intro p hp
  obtain ⟨e, he, rfl⟩ := List.mem_map.1 hp
  exact ⟨e.2, Map.mem_toList.1 (hes.mem_iff.1 (List.mem_of_mem_filter he)), rfl⟩

/-- The matches have one order, whatever the order of the walk. -/
theorem Numbered.sortBySeq_perm_eq {col : DashMap Bytes} (h : Numbered col) (asc : Bool)
    (predicate : Predicate) {es es' : List (String × Bytes)} (hes : es.Perm col.toList)
    (hes' : es'.Perm col.toList) :
    Operations.sortBySeq asc (matchingPairs predicate es) =
      Operations.sortBySeq asc (matchingPairs predicate es') := by
  have hperm : (matchingPairs predicate es).Perm (matchingPairs predicate es') :=
    ((hes.trans hes'.symm).filter _).map _
  rw [sortBySeq_eq, sortBySeq_eq]
  exact eq_insertionSort (h.pair_ext asc) (pairOf_matchingPairs hes')
    ((List.perm_insertionSort _ _).trans hperm) (List.pairwise_insertionSort _ _)

/-! ## A batch -/

/-- The answer to a request depends neither on the order of the walk. -/
theorem Numbered.answer_perm {col : DashMap Bytes} (h : Numbered col) (r : ScanRequest)
    {es es' : List (String × Bytes)} (hes : es.Perm col.toList) (hes' : es'.Perm col.toList) :
    r.answer col (r.task.result es) = r.answer col (r.task.result es') := by
  obtain ⟨predicate, kind⟩ := r
  cases kind with
  | filtered need asc =>
    simp only [ScanRequest.answer, ScanRequest.task, Task.result,
      h.sortBySeq_perm_eq asc predicate hes hes']
  | sortedTopN field descending cap =>
    have hitems := (hes.trans hes'.symm).filterMap
      (sortItem predicate (splitDots field) descending)
    simp only [ScanRequest.answer, ScanRequest.task, Task.result]
    rw [firsts_items_perm cap hitems]

/-- What a request gets from the documents of a collection. -/
def ScanRequest.expected (col : DashMap Bytes) (r : ScanRequest) : List (String × Json) :=
  r.answer col (r.task.result col.toList)

/-- A sorted request gets the documents of the first items. -/
theorem expected_sortedTopN {col : DashMap Bytes} {predicate : Predicate} {field : String}
    {descending : Bool} {items : List SortItem} (cap : ℕ)
    (h : items.Perm (col.toList.filterMap (sortItem predicate (splitDots field) descending))) :
    ScanRequest.expected col ⟨predicate, .sortedTopN field descending cap⟩ =
      (firsts (atMost SortItem.cmp) cap items).filterMap fun item => decodeKey col item.key := by
  rw [firsts_items_perm cap h]
  rfl

theorem zipWith_answer (col : DashMap Bytes) (requests : List ScanRequest)
    (es : List (String × Bytes)) :
    List.zipWith (ScanRequest.answer col) requests
      ((requests.map ScanRequest.task).map fun t => t.result es) =
      requests.map fun r => r.answer col (r.task.result es) := by
  induction requests with
  | nil => rfl
  | cons r requests ih => simp only [List.map_cons, List.zipWith_cons_cons, ih]

/-- The answers to a batch. -/
theorem wp_runBatch (w : Workers) (c : String) (requests : List ScanRequest) {db : Db}
    (h : Synced db c) :
    wp (runBatchForCollection w c requests)
      (fun answers db' => (∃ n, db' = { db with tick := n }) ∧ answers = requests.map fun r =>
        ((db.col c).map fun col => r.expected col).getD []) (fun _ _ => False) db := by
  simp only [runBatchForCollection, wp_bind, wp_get]
  cases hcol : db.col c with
  | none => exact ⟨⟨db.tick, rfl⟩, rfl⟩
  | some col =>
    simp only [wp_bind]
    refine wp_walk fun ks n hks => ⟨⟨n, rfl⟩, ?_⟩
    rw [fold_tasks, zipWith_answer]
    exact List.map_congr_left fun r _ =>
      (h.numbered col hcol).answer_perm r (Map.inOrder_perm hks) (.refl _)

/-! ## A request alone -/

theorem Indexes.keys_perm {idx : Map UInt64 String} {col : DashMap Bytes} (h : Indexes idx col) :
    (idx.toList.map Prod.snd).Perm col.keys := by
  refine (List.perm_ext_iff_of_nodup ?_ (Map.nodup_keys col)).2 fun k => ?_
  · refine List.Nodup.map_on ?_ (List.Nodup.of_map Prod.fst ?_)
    · rintro ⟨seq, k⟩ hp ⟨seq', k'⟩ hp' (rfl : k = k')
      obtain ⟨b, hb, rfl⟩ := (h seq k).1 (Map.mem_toList.1 hp)
      obtain ⟨b', hb', rfl⟩ := (h seq' k).1 (Map.mem_toList.1 hp')
      rw [Option.some.inj (hb.symm.trans hb')]
    · rw [Std.ExtTreeMap.map_fst_toList_eq_keys]
      exact Map.nodup_keys idx
  · rw [List.mem_map, Map.mem_keys]
    constructor
    · rintro ⟨⟨seq, k⟩, hp, rfl⟩
      obtain ⟨b, hb, -⟩ := (h seq k).1 (Map.mem_toList.1 hp)
      exact ⟨b, hb⟩
    · rintro ⟨b, hb⟩
      exact ⟨(readMsgpackSeqToken b, k), Map.mem_toList.2 ((h _ k).2 ⟨b, hb, rfl⟩), rfl⟩

theorem wp_scanKeys {c : String} {col : DashMap Bytes} {db : Db} (hcol : db.col c = some col)
    (h : Synced db c) :
    wp (Operations.scanKeys c col) (fun keys _ => keys.Perm col.keys) (fun _ _ => False) db := by
  simp only [Operations.scanKeys, wp_bind, wp_get]
  cases hidx : db.seqIndex[c]? with
  | some idx => exact (h.indexes col idx hcol hidx).keys_perm
  | none =>
    simp only [wp_bind]
    refine wp_walk fun ks n hks => ?_
    show (col.inOrder ks |>.map Prod.fst).Perm col.keys
    rw [Map.map_fst_inOrder_perm hks]
    exact hks

omit [Crates] in
/-- A sorted scan that goes by keys finds the items of the documents. -/
theorem filterMap_keys {α : Type} {col : DashMap Bytes} (item : String × Bytes → Option α)
    {keys : List String} (h : keys.Perm col.keys) :
    (keys.filterMap fun key => col[key]?.bind fun bytes => item (key, bytes)).Perm
      (col.toList.filterMap item) := by
  refine (h.filterMap _).trans (.of_eq ?_)
  rw [← Std.ExtTreeMap.map_fst_toList_eq_keys, List.filterMap_map]
  refine List.filterMap_congr fun e he => ?_
  have hbytes : col[e.1]? = some e.2 := Map.mem_toList.1 he
  rw [Function.comp_apply, hbytes]
  rfl

theorem wp_alone (w : Workers) {c : String} {r : ScanRequest} {db : Db} (h : Synced db c)
    (hneed : ∀ asc, r.kind ≠ .filtered none asc) :
    wp (r.alone w c) (fun docs _ => docs = ((db.col c).map fun col => r.expected col).getD [])
      (fun _ _ => False) db := by
  obtain ⟨predicate, kind⟩ := r
  cases kind with
  | filtered need asc =>
    cases need with
    | none => exact absurd rfl (hneed asc)
    | some need =>
      simp only [ScanRequest.alone, Operations.getFiltered, wp_bind, wp_get]
      cases hcol : db.col c with
      | none => rfl
      | some col =>
        simp only [Db.filterCollection, if_true, wp_bind]
        refine wp_walk fun ks n hks => ?_
        show _ = ScanRequest.expected col _
        simp only [ScanRequest.expected, ScanRequest.answer, ScanRequest.task, Task.result,
          List.drop_zero, Option.getD_some,
          (h.numbered col hcol).sortBySeq_perm_eq asc predicate (Map.inOrder_perm hks) (.refl _)]
  | sortedTopN field descending cap =>
    simp only [ScanRequest.alone, Operations.scanTopNRaw]
    split_ifs with hcap
    · subst hcap
      cases db.col c with
      | none => rfl
      | some col =>
        rw [Option.map_some, Option.getD_some, expected_sortedTopN 0 (.refl _), firsts_zero]
        rfl
    · simp only [wp_bind, wp_get]
      cases hcol : db.col c with
      | none => rfl
      | some col =>
        simp only [wp_bind]
        refine wp_mono (wp_scanKeys hcol h) (fun keys _ hkeys => ?_) fun _ _ h => h
        simp only [wp_pure, Option.map_some, Option.getD_some, fold_pushBounded_items,
          expected_sortedTopN cap (filterMap_keys _ hkeys)]

theorem Synced.elsewhere {db : Db} {c : String} (h : Synced db c) (world : World) (tick : ℕ) :
    Synced { db with world, tick } c := ⟨h.numbered, h.indexes⟩

end Synced

/-! ## Two documents -/

section

/-- Two documents with a number each, which is not their sequence number. -/
def twoDocuments : DashMap Bytes :=
  ((∅ : DashMap Bytes).insert "a"
    (valueToMsgpack (.obj [(IKEY_SEQ, .ofU64 1), ("n", .ofU64 7)]))).insert "b"
    (valueToMsgpack (.obj [(IKEY_SEQ, .ofU64 2), ("n", .ofU64 5)]))

/-- The two documents in a collection with an index. -/
def ofTwoDocuments : Db :=
  { Db.blank (World.plain 0 []) 0 with
    state := (∅ : State).insert "c" twoDocuments
    seqIndex := (∅ : DashMap (Map UInt64 String)).insert "c"
      (((∅ : Map UInt64 String).insert 1 "a").insert 2 "b") }

theorem get_twoDocuments (k : String) :
    twoDocuments[k]? =
      if k = "b" then some (valueToMsgpack (.obj [(IKEY_SEQ, .ofU64 2), ("n", .ofU64 5)]))
      else if k = "a" then some (valueToMsgpack (.obj [(IKEY_SEQ, .ofU64 1), ("n", .ofU64 7)]))
      else none := by
  rw [twoDocuments, Map.get?_insert, Map.get?_insert, Map.get?_empty]

theorem col_ofTwoDocuments : ofTwoDocuments.col "c" = some twoDocuments := by
  rw [Db.col, ofTwoDocuments, Map.get?_insert, if_pos rfl]

theorem bytes_ofTwoDocuments (k : String) : ofTwoDocuments.bytes "c" k = twoDocuments[k]? :=
  congrArg (fun col : Option (DashMap Bytes) => col.bind fun col => col[k]?) col_ofTwoDocuments

theorem twoDocuments_numbers :
    letI := Crates.plain
    readMsgpackSeqToken (valueToMsgpack (.obj [(IKEY_SEQ, .ofU64 2), ("n", .ofU64 5)])) = 2 ∧
      readMsgpackSeqToken (valueToMsgpack (.obj [(IKEY_SEQ, .ofU64 1), ("n", .ofU64 7)])) = 1 := by
  decide +kernel

theorem ofTwoDocuments_synced : @Synced Crates.plain ofTwoDocuments "c" := by
  let _ := Crates.plain
  obtain ⟨h2, h1⟩ := twoDocuments_numbers
  have hcol : ∀ col, ofTwoDocuments.col "c" = some col → col = twoDocuments := by
    intro col h
    rw [col_ofTwoDocuments] at h
    exact (Option.some.inj h).symm
  constructor
  · intro col h k k' b b' hk hk' hseq
    obtain rfl := hcol col h
    rw [get_twoDocuments] at hk hk'
    split_ifs at hk hk' with hb hb' ha ha' <;> cases hk <;> cases hk' <;> simp_all
  · intro col idx h hidx seq k
    obtain rfl := hcol col h
    rw [ofTwoDocuments, Map.get?_insert, if_pos rfl] at hidx
    obtain rfl := Option.some.inj hidx
    rw [get_twoDocuments, Map.get?_insert, Map.get?_insert, Map.get?_empty]
    generalize valueToMsgpack (.obj [(IKEY_SEQ, .ofU64 2), ("n", .ofU64 5)]) = b₂ at h2 ⊢
    generalize valueToMsgpack (.obj [(IKEY_SEQ, .ofU64 1), ("n", .ofU64 7)]) = b₁ at h1 ⊢
    constructor
    · intro hk
      split_ifs at hk with h h' <;> cases hk
      · exact ⟨b₂, rfl, h2.trans h.symm⟩
      · exact ⟨b₁, rfl, h1.trans h'.symm⟩
    · rintro ⟨b, hb, rfl⟩
      split_ifs at hb with hk hk' <;> cases hb
      · rw [h2, hk]
        rfl
      · rw [h1, hk']
        rfl

end

end MoltenDB
