/-
  Documents cut down to some fields, or without some fields.
-/
import MoltenDB.Query.Values

namespace MoltenDB

/-- Put a value at a path; a value on the way that is no object stays. -/
def insertNestedValue (value : Json) :
    List String → List (String × Json) → List (String × Json)
  | [], target => target
  | [key], target => Fields.insert key value target
  | key :: parts, target =>
    match (target.lookup key).getD (.obj []) with
    | .obj next => Fields.insert key (.obj (insertNestedValue value parts next)) target
    | _ => target

/-- Remove what is at a path, and the objects on the way that are empty then. -/
def removeNestedValue : List String → List (String × Json) → List (String × Json)
  | [], target => target
  | [key], target => Fields.erase key target
  | key :: parts, target =>
    match target.lookup key with
    | some (.obj child) =>
      let child := removeNestedValue parts child
      if child = [] then Fields.erase key target else Fields.insert key (.obj child) target
    | _ => target

theorem filterMap_asStr (ks : List String) : (ks.map Json.str).filterMap Json.asStr = ks := by
  rw [List.filterMap_map]
  exact List.filterMap_some

/-- A document with the requested fields only. -/
def project (doc : Json) (fields : List Json) : Json :=
  .obj ((fields.filterMap Json.asStr).foldl (fun target path =>
    match doc.getNestedValue (splitDots path) with
    | some val => insertNestedValue val (splitDots path) target
    | none => target) [])

/-- A document without some fields. -/
def exclude (doc : Json) (fields : List Json) : Json :=
  match doc with
  | .obj obj =>
    .obj ((fields.filterMap Json.asStr).foldl (fun target path =>
      removeNestedValue (splitDots path) target) obj)
  | doc => doc

end MoltenDB
