/-
  WHERE clauses evaluated on decoded documents.
-/
import MoltenDB.Common.WhereOperator
import MoltenDB.Engine.Types
import MoltenDB.Query.Values

namespace MoltenDB

open WhereOperator

variable [Lowercase]

/-- The equality of conditions: text without regard to case. -/
def matchesValue (docVal opVal : Json) : Bool :=
  match docVal, opVal with
  | .str a, .str b => toLowercase a == toLowercase b
  | _, _ => docVal.same opVal

/-- Both values are numbers, in the given relation. -/
def compareNumbers (rel : ℚ → ℚ → Bool) (docVal opVal : Json) : Bool :=
  match docVal.asF64, opVal.asF64 with
  | some d, some o => rel d o
  | _, _ => false

/-- The condition `op` of a field; `docVal` is null if the field is missing. -/
def evaluateCondition (docVal : Json) (op : String) (opVal : Json) : Except DbError Bool :=
  match fromStr op with
  | some .eq => .ok (matchesValue docVal opVal)
  | some .notEq => .ok (!matchesValue docVal opVal)
  | some .gt => .ok (compareNumbers (fun d o => o < d) docVal opVal)
  | some .gte => .ok (compareNumbers (fun d o => o ≤ d) docVal opVal)
  | some .lt => .ok (compareNumbers (fun d o => d < o) docVal opVal)
  | some .lte => .ok (compareNumbers (fun d o => d ≤ o) docVal opVal)
  | some .contains =>
    match docVal with
    | .str dStr =>
      match opVal with
      | .str oStr => .ok (strContains (toLowercase dStr) (toLowercase oStr))
      | _ => .ok false
    | .arr items => .ok (items.any fun item => item.same opVal)
    | _ => .ok false
  | some .isIn =>
    match opVal with
    | .arr allowed => .ok (allowed.any fun v => matchesValue docVal v)
    | _ => .error (.invalidQuery s!"{op} expects an array")
  | some .notIn =>
    match opVal with
    | .arr excluded => .ok (!excluded.any fun v => matchesValue docVal v)
    | _ => .error (.invalidQuery s!"{op} expects an array")
  | some .or | some .and | none => .error (.invalidQuery s!"Unknown operator: {op}")

/-- The conditions of a field in order, up to the first that does not hold. -/
def evaluateConditions (docVal : Json) : List (String × Json) → Except DbError Bool
  | [] => .ok true
  | (op, opVal) :: ops => do
    if ← evaluateCondition docVal op opVal then evaluateConditions docVal ops else return false

/-- A field-level condition: the operators of an object, or equality with another value. -/
def evaluateField (doc : Json) (key : String) (condition : Json) : Except DbError Bool :=
  let docValOpt := doc.getNestedValue (splitDots key)
  match condition with
  | .obj ops => evaluateConditions (docValOpt.getD .null) ops
  | condition =>
    match docValOpt with
    | some dv => .ok (matchesValue dv condition)
    | none => .ok false

mutual
/-- `evaluate_where`. -/
def evaluateWhere (doc : Json) : Json → Except DbError Bool
  | .arr items => evaluateAll doc items
  | .obj entries => evaluateEntries doc entries
  | _ => .ok true

/-- All clauses hold. -/
def evaluateAll (doc : Json) : List Json → Except DbError Bool
  | [] => .ok true
  | q :: qs => do if ← evaluateWhere doc q then evaluateAll doc qs else return false

/-- One of the clauses holds. -/
def evaluateAny (doc : Json) : List Json → Except DbError Bool
  | [] => .ok false
  | q :: qs => do if ← evaluateWhere doc q then return true else evaluateAny doc qs

/-- One entry of a clause: `$or`, `$and` or a field. -/
def evaluateEntry (doc : Json) (key : String) : Json → Except DbError Bool
  | .arr subQueries =>
    if key = asStr .or then evaluateAny doc subQueries
    else if key = asStr .and then evaluateAll doc subQueries
    else evaluateField doc key (.arr subQueries)
  | condition =>
    if key = asStr .or ∨ key = asStr .and then .error (.invalidQuery s!"{key} expects an array")
    else evaluateField doc key condition

def evaluateEntries (doc : Json) : List (String × Json) → Except DbError Bool
  | [] => .ok true
  | (key, condition) :: entries => do
    if ← evaluateEntry doc key condition then evaluateEntries doc entries else return false
end

end MoltenDB
