/-
  The read operations as the build for wasm32 has them: a size has 32 bits, one worker makes
  each pass, and a filtered scan goes by the index even if it has a WHERE clause.
-/
import MoltenDB.Engine.Reads

namespace MoltenDB.Wasm

open Wire Prog

/-- A sum of 32-bit sizes; the release build wraps around. -/
def usizeAdd (a b : ℕ) : ℕ := (a + b) % 2 ^ 32

variable [Crates]

/-- The matches in the order of the index, or of a scan if there is none. -/
def findInOrder (col : DashMap Bytes) (p : Db.GetFilteredParams) (lim : ℕ) :
    Op (List (String × Json)) := do
  let db ← Eff.get
  match db.seqIndex[p.collection]? with
  | some idx =>
    let pairs := if p.defaultOrderAsc then idx.toList else idx.toList.reverse
    return Db.scanIndex col p.predicate (usizeAdd p.offset lim) 0 pairs
  | none => do
    let entries ← walk col
    let raw := (entries.filter fun e => p.predicate e.1 e.2).filterMap fun e =>
      (msgpackToValue e.2).map fun v => (readMsgpackSeqToken e.2, e.1, v)
    return (Operations.sortBySeq p.defaultOrderAsc raw).map Prod.snd

/-- `operations::get_filtered`. -/
def getFiltered (p : Db.GetFilteredParams) : Op (List (String × Json)) := do
  let db ← Eff.get
  match db.col p.collection with
  | none => return []
  | some col =>
    match p.count with
    | none => Db.hydrate col p.predicate p.offset
    | some lim => do
      let found ← findInOrder col p lim
      return (found.drop p.offset).take lim

/-- `operations::scan_top_n_raw`. -/
def scanTopNRaw (collection : String) (predicate : Predicate) (sortField : String)
    (isDescending : Bool) (cap : ℕ) : Op (List (String × Json)) := do
  if cap = 0 then return []
  else do
    let db ← Eff.get
    match db.col collection with
    | none => return []
    | some col => do
      let entries ← walk col
      let heap := entries.foldl (fun heap e => pushItem SortItem.cmp cap heap
        (sortItem predicate (splitDots sortField) isDescending e)) []
      return heap.filterMap fun item => decodeKey col item.key

/-- `operations::scan_top_n`. -/
def scanTopN (collection : String) (predicate : Predicate) (cmp : Json → Json → Ordering)
    (cap : ℕ) : Op (List (String × Json)) := do
  if cap = 0 then return []
  else do
    let db ← Eff.get
    match db.col collection with
    | none => return []
    | some col => do
      let entries ← walk col
      return entries.foldl (fun heap e => pushItem (cmpDocs cmp) cap heap (docItem predicate e)) []

end MoltenDB.Wasm
