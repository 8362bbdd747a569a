/-
  Several paths looked up in one pass over an encoded document.

  A path and its output slot are one `Slot`. The pass counts the slots that are still to be filled
  (`remaining`) and stops early at zero; paths that share a segment enter its object together.
-/
import MoltenDB.Query.Lookup

namespace MoltenDB

open Wire

/-- A path, and what was found at it. -/
structure Slot where
  path : List String
  out : Option Bytes

namespace Slot

variable (depth : ℕ) (key : String)

/-- The slot is still to be filled, and its path has a segment at this depth. -/
def isOpen (s : Slot) : Bool := s.out.isNone && decide (depth < s.path.length)

/-- The path ends with the key at this depth. -/
def isLeaf (s : Slot) : Bool :=
  s.isOpen depth && s.path[depth]? == some key && depth + 1 == s.path.length

/-- The path goes on below the key at this depth. -/
def isNested (s : Slot) : Bool :=
  s.isOpen depth && s.path[depth]? == some key && depth + 1 != s.path.length

end Slot

/-- Take `n` off a counter; below zero is a panic. -/
def takeOff (n remaining : ℕ) : Option ℕ := if n ≤ remaining then some (remaining - n) else none

/-- What the nested pass has found, copied to the slots it was made for. -/
def copyBack (nested : Slot → Bool) : List Slot → List Slot → List Slot
  | [], _ => []
  | s :: slots, sub =>
    if nested s then
      match sub with
      | [] => s :: copyBack nested slots []
      | r :: sub =>
        (if r.out.isSome then { s with out := r.out } else s) :: copyBack nested slots sub
    else s :: copyBack nested slots sub

/-- The slots after the key, with its value at `value`, and the slots that remain; `inner` makes
    the nested pass. -/
def resolve (inner : Bytes → List Slot → Option (List Slot)) (depth : ℕ) (key : String)
    (value : Bytes) (slots : List Slot) (remaining : ℕ) : Option (List Slot × ℕ) := do
  let remaining ← takeOff (slots.countP (·.isLeaf depth key)) remaining
  let nested := slots.filter (·.isNested depth key)
  let slots := slots.map fun s => if s.isLeaf depth key then { s with out := some value } else s
  if nested.isEmpty then return (slots, remaining)
  let sub ← inner value (nested.map fun s => { s with out := none })
  let remaining ← takeOff (sub.countP (·.out.isSome)) remaining
  return (copyBack (·.isNested depth key) slots sub, remaining)

variable [Crates]

/-- The loop over the next `n` fields. -/
def fillFields (inner : Bytes → List Slot → Option (List Slot)) (depth : ℕ) :
    ℕ → Bytes → List Slot → ℕ → Option (List Slot)
  | 0, _, slots, _ => some slots
  | n + 1, bytes, slots, remaining =>
    if remaining = 0 then some slots
    else
      match bytes with
      | [] => some slots
      | keyByte :: buf =>
        if 0xe0 ≤ keyByte then fillFields inner depth n (skipValue buf) slots remaining
        else
          match readMsgpackStr (keyByte :: buf) with
          | (none, _) => some slots
          | (some key, buf) => do
            let (slots, remaining) ← resolve inner depth key buf slots remaining
            fillFields inner depth n (skipValue buf) slots remaining

/-- The pass over the object at the front of `doc`, with the nested passes made by `inner`. -/
def fillObject (inner : Bytes → List Slot → Option (List Slot)) (depth : ℕ) (doc : Bytes)
    (slots : List Slot) : Option (List Slot) :=
  match readMapHeader doc with
  | none => some slots
  | some (mapLen, bytes) => do
    let remaining ← takeOff (slots.countP fun s => !s.isOpen depth) slots.length
    fillFields inner depth mapLen bytes slots remaining

/-- `find_msgpack_values_multi_inner`, at most `levels` deep below `depth`. -/
def findMsgpackValuesMultiInner : ℕ → ℕ → Bytes → List Slot → Option (List Slot)
  | 0, depth => fillObject (fun _ _ => none) depth
  | levels + 1, depth => fillObject (findMsgpackValuesMultiInner levels (depth + 1)) depth

/-- `find_msgpack_values_multi`, with all slots empty at the start. -/
def findMsgpackValuesMulti (doc : Bytes) (paths : List (List String)) :
    Option (List (Option Bytes)) :=
  (findMsgpackValuesMultiInner ((paths.map List.length).foldr max 0) 0 doc
    (paths.map fun path => ⟨path, none⟩)).map fun slots => slots.map Slot.out

/-! ## One path at a time -/

/-- What `k` finds below the first of the keys `segment` below which it finds anything. -/
def walkFields (k : Bytes → Option Bytes) (segment : String) : ℕ → Bytes → Option Bytes
  | 0, _ => none
  | _ + 1, [] => none
  | n + 1, keyByte :: buf =>
    if 0xe0 ≤ keyByte then walkFields k segment n (skipValue buf)
    else
      match readMsgpackStr (keyByte :: buf) with
      | (none, _) => none
      | (some key, buf) =>
        if key = segment then (k buf).or (walkFields k segment n (skipValue buf))
        else walkFields k segment n (skipValue buf)

/-- The bytes from the value at a path on, if any of the fields with the names of the path lead
    there. -/
def walkPath : List String → Bytes → Option Bytes
  | [], _ => none
  | segment :: parts, doc => do
    let (mapLen, buf) ← readMapHeader doc
    walkFields (fun value => if parts = [] then some value else walkPath parts value) segment mapLen buf

end MoltenDB
