/-
  Documents on their way into a response: their order, joins, and their shape.
-/
import MoltenDB.Common.Iso
import MoltenDB.Engine.Reads
import MoltenDB.Handlers.Common
import MoltenDB.Query.Projection

namespace MoltenDB

open Wire SystemFields

/-! ## Order -/

/-- Values of a field in order: numbers, text, and else what they are written as; a
    missing value is last. -/
def compareValues [FloatText] (a b : Option Json) : Ordering :=
  match a, b with
  | none, none => .eq
  | none, some _ => .gt
  | some _, none => .lt
  | some va, some vb =>
    match va.asF64, vb.asF64 with
    | some na, some nb => compare na nb
    | _, _ =>
      match va.asStr, vb.asStr with
      | some sa, some sb => compare sa sb
      | _, _ => compare va.toText vb.toText

def eqIgnoreAsciiCase (a b : String) : Bool := a.toList.map Char.toLower == b.toList.map Char.toLower

/-- The field of a sort spec, and whether its order is reversed. -/
def sortField (spec : Json) : Option (String × Bool) :=
  match spec with
  | .str s => some (s, false)
  | .obj _ =>
    some (((spec.get "field").bind Json.asStr).getD "",
      (((spec.get "order").bind Json.asStr).map fun o => eqIgnoreAsciiCase o "desc").getD false)
  | _ => none

/-- `make_comparator`: the first spec that tells two documents apart decides. -/
def makeComparator [FloatText] : List Json → Json → Json → Ordering
  | [], _, _ => .eq
  | spec :: specs, a, b =>
    match sortField spec with
    | none => makeComparator specs a b
    | some (field, descending) =>
      if field = "" then makeComparator specs a b
      else
        let ord := compareValues (a.getNestedValue (splitDots field))
          (b.getNestedValue (splitDots field))
        if ord = .eq then makeComparator specs a b else if descending then ord.swap else ord

/-! ## Joins -/

/-- The alias of a join and what it says: the first field of the spec with a `from`. -/
def joinOf (spec : Json) : Option (String × Json) :=
  (spec.asObject.getD []).find? fun p => (p.2.field .source).isSome

/-- Embed the document that a join refers to, if there is one. -/
def applyJoin [Crates] (db : Db) (doc : Json) (name : String) (inner : Json) : Option Json := do
  let source := ((inner.field .source).bind Json.asStr).getD ""
  let on := ((inner.field .on).bind Json.asStr).getD ""
  let fk ← (doc.getNestedValue (splitDots on)).bind Json.asStr
  let related ← (db.get source [fk])[fk]?
  let embedded := match (inner.field .fields).bind Json.asArray with
    | some jf => project related jf
    | none => related
  return doc.set name embedded

/-- `apply_joins`: the document with the joined ones in it, and their aliases. -/
def applyJoins [Crates] (db : Db) (doc : Json) (joins : List Json) : Json × List String :=
  (joins.filterMap joinOf).foldl (fun (doc, aliases) (name, inner) =>
    match applyJoin db doc name inner with
    | some doc => (doc, aliases ++ [name])
    | none => (doc, aliases)) (doc, [])

/-! ## Shape -/

/-- A time in milliseconds as text; other values stay. -/
def tsToIsoVal (v : Json) : Json :=
  match v.asU64 with
  | some ms => .str (msToIso ms)
  | none => v

/-- Remove the system fields that are only returned on request. -/
def stripMetadata (doc : Json) : Json :=
  match doc with
  | .obj obj =>
    .obj (Fields.erase EXPIRES_AT (Fields.erase MODIFIED_AT (Fields.erase CREATED_AT
      (Fields.erase SEQ obj))))
  | doc => doc

/-- Set a field that has a value, if it is among the requested ones. -/
def setRequested (requested : List String) (field : String) (value : Option Json) (out : Json) :
    Json :=
  match value with
  | some v => if field ∈ requested then out.set field v else out
  | none => out

/-- A document with the requested fields, the joined documents, and the system fields
    that are requested. -/
def projectDoc (doc : Json) (fields : List Json) (joinAliases : List String)
    (expiresVal : Option Json) : Json :=
  let requested := fields.filterMap Json.asStr
  let joined := joinAliases.foldl (fun out name =>
    match doc.get name with
    | some v => out.set name v
    | none => out) (project doc fields)
  setRequested requested EXPIRES_AT expiresVal
    (setRequested requested MODIFIED_AT ((doc.get MODIFIED_AT).map tsToIsoVal)
      (setRequested requested CREATED_AT ((doc.get CREATED_AT).map tsToIsoVal)
        (setRequested requested SEQ (doc.get SEQ) joined)))

/-- `shape_doc`: a document as it is returned; `_v` and `_key` are always in it. -/
def shapeDoc (doc : Json) (key : String) (fields excluded : Option (List Json))
    (joinAliases : List String) (expiresVal : Option Json) : Json :=
  let out := match fields with
    | some f => projectDoc doc f joinAliases expiresVal
    | none =>
      match excluded with
      | some ex => stripMetadata (exclude doc ex)
      | none => stripMetadata doc
  let out := match doc.get VERSION with
    | some v => out.set VERSION v
    | none => out
  out.set KEY (.str key)

end MoltenDB
