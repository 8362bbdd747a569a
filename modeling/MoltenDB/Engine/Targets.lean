/-
  The filtered scan as each target compiles it, with the memory it reserves and the partial
  sorting of compact items.

  `Vec::with_capacity` panics for more items than a vector can have; how many these are is a
  parameter, since it depends on the size of an item.  So is what `select_nth_unstable_by`
  makes of a list: all that is known of it is where the items before and behind a position go.
-/
import MoltenDB.Engine.Coalesce
import MoltenDB.Engine.Wasm
import MoltenDB.Lib.Binary64

namespace MoltenDB

open Wire Prog Firsts

/-! ## Compact items -/

structure CompactItem where
  sortValue : SortValue
  seq : UInt64

namespace CompactItem

/-- `CompactItem::cmp`. -/
def cmp (a b : CompactItem) : Ordering :=
  (a.sortValue.totalCmp b.sortValue).then (compare a.seq b.seq)

/-- The item that is sorted by `seq as f64`. -/
def ofSeq (seq : UInt64) : CompactItem := ⟨⟨Binary64.roundNat seq.toNat, false⟩, seq⟩

end CompactItem

/-- What `select_nth_unstable_by` makes of a list. -/
abbrev SelectNth := Selection fun a b : CompactItem => (a.cmp b).isLE = true

/-- The items from a position on, in order: they are selected, then sorted. -/
def pageItems (sel : SelectNth) (start : ℕ) (items : List CompactItem) : List CompactItem :=
  if start < items.length then
    ((sel.select start items).drop start).insertionSort fun a b => (a.cmp b).isLE = true
  else []

/-! ## The scan -/

inductive TargetArch
  | native
  | wasm32

/-- The bits of a size. -/
def TargetArch.usizeBits : TargetArch → ℕ
  | native => 64
  | wasm32 => 32

variable [Crates]

/-- All matches but the first `offset` ones: their sequence numbers are sorted, then looked up
    in a second pass. -/
def hydratePage (sel : SelectNth) (col : DashMap Bytes) (predicate : Predicate) (offset : ℕ) :
    Op (List (String × Json)) := do
  let entries ← walk col
  let items := pageItems sel offset
    ((matchingPairs predicate entries).map fun p => CompactItem.ofSeq p.1)
  if items.isEmpty then return []
  else do
    let entries ← walk col
    let seqSet := items.map CompactItem.seq
    let hydrated : Map UInt64 String := (matchingPairs (fun _ _ => true) entries).foldl
      (fun m p => if p.1 ∈ seqSet then m.insert p.1 p.2 else m) ∅
    return items.filterMap fun item => hydrated[item.seq]?.bind (decodeKey col)

/-- The matches up to `offset + lim`, with a count: by the index or a scan, and natively in one
    sorted pass if there is a WHERE clause. -/
def TargetArch.findPage (col : DashMap Bytes) (p : Db.GetFilteredParams) (lim : ℕ) :
    TargetArch → Op (List (String × Json))
  | native => Db.filterCollection col { p with count := some lim }
  | wasm32 => do
    let found ← Wasm.findInOrder col p lim
    return (found.drop p.offset).take lim

/-- `operations::get_filtered`; `none` if it panics, as `Vec::with_capacity` does beyond the
    capacity `maxCapacity`. -/
def TargetArch.getFiltered (arch : TargetArch) (maxCapacity : ℕ) (sel : SelectNth)
    (p : Db.GetFilteredParams) : Op (Option (List (String × Json))) := do
  let db ← Eff.get
  match db.col p.collection with
  | none => return some []
  | some col =>
    match p.count with
    | none => some <$> hydratePage sel col p.predicate p.offset
    | some lim =>
      let need := (p.offset + lim) % 2 ^ arch.usizeBits
      if maxCapacity < need then return none
      else some <$> arch.findPage col p lim

end MoltenDB
