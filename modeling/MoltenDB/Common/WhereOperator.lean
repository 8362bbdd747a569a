/-
  The operators of WHERE clauses and their names.
-/
import Mathlib.Tactic

namespace MoltenDB

inductive WhereOperator
  | eq
  | notEq
  | gt
  | gte
  | lt
  | lte
  | isIn
  | notIn
  | contains
  | or
  | and
  deriving DecidableEq

namespace WhereOperator

def asStr : WhereOperator → String
  | eq => "$eq"
  | notEq => "$ne"
  | gt => "$gt"
  | gte => "$gte"
  | lt => "$lt"
  | lte => "$lte"
  | isIn => "$in"
  | notIn => "$nin"
  | contains => "$ct"
  | or => "$or"
  | and => "$and"

def aliases : WhereOperator → List String
  | eq => ["$eq", "$equals"]
  | notEq => ["$ne", "$notEquals"]
  | gt => ["$gt", "$greaterThan"]
  | gte => ["$gte", "$greaterThanOrEqual"]
  | lt => ["$lt", "$lessThan"]
  | lte => ["$lte", "$lessThanOrEqual"]
  | isIn => ["$in", "$oneOf"]
  | notIn => ["$nin", "$notIn"]
  | contains => ["$ct", "$contains"]
  | or => ["$or"]
  | and => ["$and"]

/-- The operator with the name `s`, under any of its aliases. -/
def fromStr (s : String) : Option WhereOperator :=
  [eq, notEq, gt, gte, lt, lte, isIn, notIn, contains, or, and].find? fun op => s ∈ op.aliases

end WhereOperator

end MoltenDB
