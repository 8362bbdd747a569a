/-
  Scans that workers share: one pass over a collection for a batch of requests, and the native
  scans for the first documents in an order.

  Every pass is split among workers in some way.  What is reserved for lists and heaps before
  they are filled is not modelled.
-/
import MoltenDB.Engine.Reads
import MoltenDB.Lib.Firsts

namespace MoltenDB

open Wire Prog

/-- How a pass is split among workers, and in which order a heap is emptied. -/
structure Workers where
  split : {α : Type} → List α → Split α
  toList_split : ∀ {α : Type} (xs : List α), (split xs).toList = xs
  drain : {α : Type} → List α → List α
  drain_perm : ∀ {α : Type} (xs : List α), (drain xs).Perm xs

/-- A single worker. -/
def Workers.one : Workers := ⟨.chunk, fun _ => rfl, id, fun _ => .refl _⟩

/-- A worker for each half of a pass, which empties heaps from the largest item on. -/
def Workers.two : Workers where
  split xs := .join (.chunk (xs.take (xs.length / 2))) (.chunk (xs.drop (xs.length / 2)))
  toList_split _ := List.take_append_drop _ _
  drain := List.reverse
  drain_perm := List.reverse_perm

/-! ## A batch of requests -/

/-- What a request wants: the matches in the order of their sequence numbers, or the first
    ones by a number in them. -/
inductive ScanKind
  | filtered (need : Option ℕ) (defaultOrderAsc : Bool)
  | sortedTopN (sortField : String) (isDescending : Bool) (cap : ℕ)

structure ScanRequest where
  predicate : Predicate
  kind : ScanKind

inductive TaskKind
  | filtered
  | sorted (pathParts : List String) (isDescending : Bool) (cap : ℕ)

/-- What a pass does for a request. -/
structure Task where
  predicate : Predicate
  kind : TaskKind

/-- What a worker has found for a request. -/
inductive Accum
  | filtered (pairs : List (UInt64 × String))
  | sorted (heap : List SortItem)

def ScanRequest.task (r : ScanRequest) : Task where
  predicate := r.predicate
  kind := match r.kind with
    | .filtered _ _ => .filtered
    | .sortedTopN sortField isDescending cap => .sorted (splitDots sortField) isDescending cap

def newAccumulators (tasks : List Task) : List Accum :=
  tasks.map fun t =>
    match t.kind with
    | .filtered => .filtered []
    | .sorted _ _ _ => .sorted []

section

variable [Crates]

/-- One document for one task.  Its sequence number is read for the first task that needs it
    and then kept. -/
def Task.visit (task : Task) (key : String) (bytes : Bytes) (seq : Option UInt64) (acc : Accum) :
    Option UInt64 × Accum :=
  match task.kind with
  | .filtered =>
    if task.predicate key bytes then
      let s := seq.getD (readMsgpackSeqToken bytes)
      (some s, match acc with
        | .filtered pairs => .filtered (pairs ++ [(s, key)])
        | acc => acc)
    else (seq, acc)
  | .sorted pathParts isDescending cap =>
    if task.predicate key bytes then
      match sortValueAt pathParts isDescending bytes with
      | some sortValue => (seq, match acc with
        | .sorted heap => .sorted (pushBounded SortItem.cmp cap heap ⟨key, sortValue⟩)
        | acc => acc)
      | none => (seq, acc)
    else (seq, acc)

/-- One document for all tasks, each with the accumulator at its position. -/
def visitAll (key : String) (bytes : Bytes) :
    Option UInt64 → List Task → List Accum → List Accum
  | seq, task :: tasks, acc :: accs =>
    let (seq, acc) := task.visit key bytes seq acc
    acc :: visitAll key bytes seq tasks accs
  | _, _, accs => accs

/-- What two workers have found for one task. -/
def Task.merge (w : Workers) (task : Task) : Accum → Accum → Accum
  | .filtered va, .filtered vb => .filtered (va ++ vb)
  | .sorted ha, .sorted hb =>
    match task.kind with
    | .sorted _ _ cap => .sorted ((w.drain hb).foldl (pushBounded SortItem.cmp cap) ha)
    | .filtered => .sorted ha
  | a, _ => a

def mergeAll (w : Workers) : List Task → List Accum → List Accum → List Accum
  | task :: tasks, a :: as, b :: bs => task.merge w a b :: mergeAll w tasks as bs
  | _, as, _ => as

/-- The documents for a request: in order, no more than wanted, and decoded. -/
def ScanRequest.answer (col : DashMap Bytes) (req : ScanRequest) (acc : Accum) :
    List (String × Json) :=
  match req.kind, acc with
  | .filtered need defaultOrderAsc, .filtered pairs =>
    ((Operations.sortBySeq defaultOrderAsc pairs).take (need.getD (2 ^ 64 - 1))).filterMap
      fun p => decodeKey col p.2
  | .sortedTopN _ _ _, .sorted heap => heap.filterMap fun item => decodeKey col item.key
  | _, _ => []

/-- `run_batch_for_collection`: the answers to the requests, in their order. -/
def runBatchForCollection (w : Workers) (collection : String) (requests : List ScanRequest) :
    Op (List (List (String × Json))) := do
  let db ← Eff.get
  match db.col collection with
  | none => return requests.map fun _ => []
  | some col => do
    let entries ← walk col
    let tasks := requests.map ScanRequest.task
    let merged := (w.split entries).fold (newAccumulators tasks)
      (fun accs e => visitAll e.1 e.2 none tasks accs) (mergeAll w tasks)
    return List.zipWith (ScanRequest.answer col) requests merged

/-! ## Scans of one request -/

namespace Operations

/-- `operations::get_filtered`. -/
def getFiltered (p : Db.GetFilteredParams) : Op (List (String × Json)) := do
  let db ← Eff.get
  match db.col p.collection with
  | none => return []
  | some col => Db.filterCollection col p

/-- The heaps of two workers. -/
def mergeHeaps {α : Type} (w : Workers) (cmp : α → α → Ordering) (cap : ℕ) (a b : List α) :
    List α :=
  (w.drain b).foldl (pushBounded cmp cap) a

/-- The keys of a collection in the order of the index, or of a walk if there is none. -/
def scanKeys (collection : String) (col : DashMap Bytes) : Op (List String) := do
  let db ← Eff.get
  match db.seqIndex[collection]? with
  | some idx => return idx.toList.map Prod.snd
  | none => do
    let entries ← walk col
    return entries.map Prod.fst

/-- `operations::scan_top_n_raw`. -/
def scanTopNRaw (w : Workers) (collection : String) (predicate : Predicate) (sortField : String)
    (isDescending : Bool) (cap : ℕ) : Op (List (String × Json)) := do
  if cap = 0 then return []
  else do
    let db ← Eff.get
    match db.col collection with
    | none => return []
    | some col => do
      let keys ← scanKeys collection col
      let item := fun key => col[key]?.bind fun bytes =>
        sortItem predicate (splitDots sortField) isDescending (key, bytes)
      let heap := (w.split keys).fold [] (fun heap key => pushItem SortItem.cmp cap heap (item key))
        (mergeHeaps w SortItem.cmp cap)
      return heap.filterMap fun item => decodeKey col item.key

/-- `operations::scan_top_n`. -/
def scanTopN (w : Workers) (collection : String) (predicate : Predicate)
    (cmp : Json → Json → Ordering) (cap : ℕ) : Op (List (String × Json)) := do
  if cap = 0 then return []
  else do
    let db ← Eff.get
    match db.col collection with
    | none => return []
    | some col => do
      let entries ← walk col
      return (w.split entries).fold []
        (fun heap e => pushItem (cmpDocs cmp) cap heap (docItem predicate e))
        (mergeHeaps w (cmpDocs cmp) cap)

end Operations

/-- What a request asks for, scanned for it alone. -/
def ScanRequest.alone (w : Workers) (collection : String) (r : ScanRequest) :
    Op (List (String × Json)) :=
  match r.kind with
  | .filtered need defaultOrderAsc =>
    Operations.getFiltered {
      collection
      predicate := r.predicate
      offset := 0
      count := need
      defaultOrderAsc
      hasWhere := true }
  | .sortedTopN sortField isDescending cap =>
    Operations.scanTopNRaw w collection r.predicate sortField isDescending cap

end

end MoltenDB
