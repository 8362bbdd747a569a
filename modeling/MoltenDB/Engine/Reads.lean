/-
  The read operations of the engine.

  A pass over a collection follows a walk over its hash map.  The passes of the source
  are split among workers; here one worker makes them.
-/
import MoltenDB.Engine.Db
import MoltenDB.Query.Msgpack

namespace MoltenDB

open Wire Prog

/-- A sum of 64-bit sizes; the release build wraps around. -/
def usizeAdd (a b : ℕ) : ℕ := (a + b) % 2 ^ 64

/-- A test of a key and the bytes of its document. -/
abbrev Predicate := String → Bytes → Bool

/-- The decoded document of a key. -/
def decodeKey (col : DashMap Bytes) (key : String) : Option (String × Json) :=
  (col[key]?.bind msgpackToValue).map fun v => (key, v)

/-- Decoded documents with the public names of system fields. -/
def expandAll (docs : List (String × Json)) : List (String × Json) :=
  docs.map fun d => (d.1, expandSystemFields d.2)

variable [Crates]

/-- The sequence numbers and keys of the documents that pass the test. -/
def matchingPairs (predicate : Predicate) (entries : List (String × Bytes)) :
    List (UInt64 × String) :=
  (entries.filter fun e => predicate e.1 e.2).map fun e => (readMsgpackSeqToken e.2, e.1)

namespace Db

/-- `Db::get`: the documents with the given keys. -/
def get (db : Db) (collection : String) (keys : List String) : DashMap Json :=
  match db.col collection with
  | none => ∅
  | some col =>
    keys.foldl (fun found key =>
      match decodeKey col key with
      | some d => found.insert key (expandSystemFields d.2)
      | none => found) ∅

structure GetFilteredParams where
  collection : String
  predicate : Predicate
  offset : ℕ
  count : Option ℕ
  defaultOrderAsc : Bool
  hasWhere : Bool

/-- Collect documents from the index, until `need` are found. -/
def scanIndex (col : DashMap Bytes) (predicate : Predicate) (need : ℕ) :
    ℕ → List (UInt64 × String) → List (String × Json)
  | _, [] => []
  | n, (_, key) :: idx =>
    match (col[key]?.filter (predicate key)).bind msgpackToValue with
    | some v => (key, v) :: if need ≤ n + 1 then [] else scanIndex col predicate need (n + 1) idx
    | none => scanIndex col predicate need n idx

/-- All matches by sequence number: each number stands for the last document walked
    over that has it. -/
def hydrate (col : DashMap Bytes) (predicate : Predicate) (offset : ℕ) :
    Op (List (String × Json)) := do
  let entries ← walk col
  let pairs := Operations.sortBySeq true (matchingPairs predicate entries)
  let seqs := (pairs.map Prod.fst).drop offset
  if seqs = [] then return []
  else do
    let entries ← walk col
    let hydrated : Map UInt64 String := (matchingPairs (fun _ _ => true) entries).foldl
      (fun m p => if p.1 ∈ seqs then m.insert p.1 p.2 else m) ∅
    return seqs.filterMap fun seq => hydrated[seq]?.bind (decodeKey col)

/-- The matches in the order of the index, or of a scan if there is none. -/
def findInOrder (col : DashMap Bytes) (p : GetFilteredParams) (lim : ℕ) :
    Op (List (String × Json)) := do
  let db ← Eff.get
  match db.seqIndex[p.collection]? with
  | some idx =>
    let pairs := if p.defaultOrderAsc then idx.toList else idx.toList.reverse
    return scanIndex col p.predicate (usizeAdd p.offset lim) 0 pairs
  | none => do
    let entries ← walk col
    let raw := (entries.filter fun e => p.predicate e.1 e.2).filterMap fun e =>
      (msgpackToValue e.2).map fun v => (readMsgpackSeqToken e.2, e.1, v)
    return (Operations.sortBySeq p.defaultOrderAsc raw).map Prod.snd

/-- `operations::get_filtered` on a collection that exists. -/
def filterCollection (col : DashMap Bytes) (p : GetFilteredParams) : Op (List (String × Json)) :=
  match p.count with
  | none => hydrate col p.predicate p.offset
  | some lim =>
    if p.hasWhere then do
      let entries ← walk col
      let pairs := Operations.sortBySeq p.defaultOrderAsc (matchingPairs p.predicate entries)
      return ((pairs.drop p.offset).take lim).filterMap fun q => decodeKey col q.2
    else do
      let found ← findInOrder col p lim
      return (found.drop p.offset).take lim

/-- `Db::get_filtered`. -/
def getFiltered (p : GetFilteredParams) : Op (List (String × Json)) := do
  let db ← Eff.get
  match db.col p.collection with
  | none => return []
  | some col => expandAll <$> filterCollection col p

/-- `Db::get_filtered_coalesced`: the matches in the order of their sequence numbers, at
    most `need`. -/
def getFilteredCoalesced (collection : String) (predicate : Predicate) (need : Option ℕ)
    (defaultOrderAsc : Bool) : Op (List (String × Json)) := do
  let db ← Eff.get
  match db.col collection with
  | none => return []
  | some col => do
    let entries ← walk col
    let pairs := Operations.sortBySeq defaultOrderAsc (matchingPairs predicate entries)
    let pairs := match need with
      | some need => pairs.take need
      | none => pairs
    return expandAll (pairs.filterMap fun p => decodeKey col p.2)

end Db

/-! ## The first documents in an order -/

section

variable {α : Type} (cmp : α → α → Ordering)

/-- Push into a bounded max-heap, here the list of its items from the smallest on: if
    it is full, the largest makes way for a smaller one. -/
def pushBounded (cap : ℕ) (heap : List α) (item : α) : List α :=
  if cap = 0 then heap
  else if heap.length < cap then heap.orderedInsert (fun a b => (cmp a b).isLE) item
  else
    match heap.getLast? with
    | some worst =>
      if cmp item worst = .lt then heap.dropLast.orderedInsert (fun a b => (cmp a b).isLE) item
      else heap
    | none => heap

/-- Push an item, if there is one. -/
def pushItem (cap : ℕ) (heap : List α) (item : Option α) : List α :=
  item.elim heap (pushBounded cmp cap heap)

end

/-- A double by its value, with the two zeros told apart. -/
structure SortValue where
  value : ℚ
  negativeZero : Bool

namespace SortValue

def neg (d : SortValue) : SortValue := ⟨-d.value, d.value = 0 && !d.negativeZero⟩

/-- `f64::total_cmp`. -/
def totalCmp (a b : SortValue) : Ordering :=
  (compare a.value b.value).then (compare b.negativeZero a.negativeZero)

end SortValue

/-- The value at the front is a negative zero. -/
def readNegativeZero : Bytes → Bool
  | [] => false
  | byte :: buf =>
    match head byte with
    | .float32 => (readBe 4 buf).any fun p => p.1 == 2 ^ 31
    | .float64 => (readBe 8 buf).any fun p => p.1 == 2 ^ 63
    | _ => false

structure SortItem where
  key : String
  sortValue : SortValue

def SortItem.cmp (a b : SortItem) : Ordering :=
  (a.sortValue.totalCmp b.sortValue).then (compare a.key b.key)

/-- The number at a path of a document, to sort by. -/
def sortValueAt (pathParts : List String) (isDescending : Bool) (bytes : Bytes) :
    Option SortValue := do
  let slice ← findMsgpackValue bytes pathParts
  let num : SortValue := ⟨← readMsgpackNumber slice, readNegativeZero slice⟩
  return if isDescending then num.neg else num

/-- The item of a document that passes the test and has a number at the path. -/
def sortItem (predicate : Predicate) (pathParts : List String) (isDescending : Bool)
    (e : String × Bytes) : Option SortItem :=
  if predicate e.1 e.2 then (sortValueAt pathParts isDescending e.2).map (SortItem.mk e.1) else none

/-- The decoded document of an entry that passes the test. -/
def docItem (predicate : Predicate) (e : String × Bytes) : Option (String × Json) :=
  if predicate e.1 e.2 then (msgpackToValue e.2).map fun v => (e.1, v) else none

/-- Documents compared by `cmp`, then by their keys. -/
def cmpDocs (cmp : Json → Json → Ordering) (a b : String × Json) : Ordering :=
  (cmp a.2 b.2).then (compare a.1 b.1)

namespace Db

/-- `Db::scan_top_n_raw_coalesced`: the first `cap` matches by a number in them. -/
def scanTopNRawCoalesced (collection : String) (predicate : Predicate) (sortField : String)
    (isDescending : Bool) (cap : ℕ) : Op (List (String × Json)) := do
  let db ← Eff.get
  match db.col collection with
  | none => return []
  | some col => do
    let entries ← walk col
    let items := (entries.filter fun e => predicate e.1 e.2).filterMap fun e =>
      (sortValueAt (splitDots sortField) isDescending e.2).map fun value => SortItem.mk e.1 value
    let heap := items.foldl (pushBounded SortItem.cmp cap) []
    return expandAll (heap.filterMap fun item => decodeKey col item.key)

/-- `Db::scan_top_n`: the first `cap` matches by a comparison of documents. -/
def scanTopN (collection : String) (predicate : Predicate) (cmp : Json → Json → Ordering)
    (cap : ℕ) : Op (List (String × Json)) := do
  let db ← Eff.get
  match db.col collection with
  | none => return []
  | some col => do
    let entries ← walk col
    let items := (entries.filter fun e => predicate e.1 e.2).filterMap fun e =>
      (msgpackToValue e.2).map fun v => (e.1, v)
    let cmpItem := fun a b : String × Json => (cmp a.2 b.2).then (compare a.1 b.1)
    return expandAll (items.foldl (pushBounded cmpItem cap) [])

end Db

end MoltenDB
