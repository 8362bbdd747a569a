/-
  Unix milliseconds as ISO 8601 text.
-/
import MoltenDB.Lib.Decimal

namespace MoltenDB

def isLeapYear (y : ℕ) : Bool := (y % 4 == 0 && y % 100 != 0) || y % 400 == 0

def daysOf (y : ℕ) : ℕ := if isLeapYear y then 366 else 365

theorem daysOf_pos (y : ℕ) : 0 < daysOf y := by
  unfold daysOf
  split_ifs <;> omega

/-- The days into a year and the year, `d` days after the start of the year `y`. -/
def yearOf (d y : ℕ) : ℕ × ℕ := if d < daysOf y then (d, y) else yearOf (d - daysOf y) (y + 1)
termination_by d
decreasing_by
  have hpos := daysOf_pos y
  omega

/-- The days into a month and the month, `d` days after the start of the month `mo`. -/
def monthOf : List ℕ → ℕ → ℕ → ℕ × ℕ
  | [], d, mo => (d, mo)
  | x :: md, d, mo => if d < x then (d, mo) else monthOf md (d - x) (mo + 1)

/-- Decimal text with leading zeros up to a width. -/
def padded (width n : ℕ) : String :=
  let digits := Decimal.print n
  String.ofList (List.replicate (width - digits.length) '0') ++ digits

/-- `ms_to_iso`. -/
def msToIso (ms : UInt64) : String :=
  let secs := ms.toNat / 1000
  let (d, y) := yearOf (secs / 86400) 1970
  let (d, mo) := monthOf [31, if isLeapYear y then 29 else 28, 31, 30, 31, 30, 31, 31, 30, 31, 30, 31]
    d 1
  padded 4 y ++ "-" ++ padded 2 mo ++ "-" ++ padded 2 (d + 1) ++ "T" ++
    padded 2 (secs / 3600 % 24) ++ ":" ++ padded 2 (secs / 60 % 60) ++ ":" ++
    padded 2 (secs % 60) ++ "Z"

end MoltenDB
