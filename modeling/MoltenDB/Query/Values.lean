/-
  Values as a query compares them: numbers by their values, text without regard to
  case, and fields by dotted paths.
-/
import MoltenDB.Json
import MoltenDB.Lib.Binary64

namespace MoltenDB

/-- `str::to_lowercase`. -/
class Lowercase where
  toLowercase : String → String

export Lowercase (toLowercase)

/-- An instance to evaluate the model with: ASCII letters only. -/
@[reducible] def Lowercase.ascii : Lowercase := ⟨fun s => String.ofList (s.toList.map Char.toLower)⟩

/-- `str::contains`. -/
def strContains (haystack needle : String) : Bool := decide (needle.toList <:+: haystack.toList)

/-- `split('.')`. -/
def splitDots (path : String) : List String := (path.toList.splitOn '.').map String.ofList

theorem splitDots_ne_nil (path : String) : splitDots path ≠ [] := by
  rw [splitDots, ne_eq, List.map_eq_nil_iff]
  exact List.splitOnP_ne_nil _ _

namespace Number

/-- `as_f64`: the double nearest to the number. -/
def asF64 : Number → ℚ
  | posInt u => Binary64.roundNat u.toNat
  | negInt i _ => Binary64.ofInt i
  | float bits _ => Binary64.value bits

/-- Equality of numbers: of the same kind and value. -/
def same : Number → Number → Bool
  | posInt u, posInt w => u == w
  | negInt i _, negInt j _ => i == j
  | float a _, float b _ => Binary64.value a == Binary64.value b
  | _, _ => false

theorem asF64_eq_of_same {n m : Number} (h : n.same m = true) : n.asF64 = m.asF64 := by
  cases n <;> cases m <;> simp_all [same, asF64]

end Number

namespace Json

mutual
/-- Equality of values. -/
def same : Json → Json → Bool
  | null, null => true
  | bool a, bool b => a == b
  | num n, num m => n.same m
  | str a, str b => a == b
  | arr xs, arr ys => sameItems xs ys
  | obj fs, obj gs => sameFields fs gs
  | _, _ => false

def sameItems : List Json → List Json → Bool
  | [], [] => true
  | x :: xs, y :: ys => same x y && sameItems xs ys
  | _, _ => false

def sameFields : List (String × Json) → List (String × Json) → Bool
  | [], [] => true
  | (k, x) :: xs, (k', y) :: ys => k == k' && same x y && sameFields xs ys
  | _, _ => false
end

def asF64 : Json → Option ℚ
  | num n => some n.asF64
  | _ => none

/-- `get_nested_value`: the value at a path. -/
def getNestedValue (doc : Json) : List String → Option Json
  | [] => some doc
  | part :: parts => (doc.get part).bind fun v => getNestedValue v parts

end Json

end MoltenDB
