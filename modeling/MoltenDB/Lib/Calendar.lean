/-
  The proleptic Gregorian calendar.

  A date counts the days since the first day of an epoch year by the leap-year rule, a time of a
  day its seconds. Both counts, and the count of their pairs, order the dates as they follow each
  other (`DateTime.secs_lt_iff`).
-/
import Mathlib.Tactic

namespace Calendar

open Finset

/-! ## Positions in consecutive blocks -/

section

variable {f : ℕ → ℕ} {lo i j d e : ℕ}

/-- What lies inside the block `i` comes before all later blocks. -/
theorem sum_add_lt (hlo : lo ≤ i) (hd : d < f i) (hij : i < j) :
    ∑ k ∈ Ico lo i, f k + d < ∑ k ∈ Ico lo j, f k + e := by
  have hle : ∑ k ∈ Ico lo (i + 1), f k ≤ ∑ k ∈ Ico lo j, f k :=
    sum_le_sum_of_subset (Ico_subset_Ico_right hij)
  rw [sum_Ico_succ_top hlo] at hle
  omega

end

/-! ## Dates -/

/-- The leap-year rule. -/
def Leap (y : ℕ) : Prop := 4 ∣ y ∧ (100 ∣ y → 400 ∣ y)

instance (y : ℕ) : Decidable (Leap y) := inferInstanceAs (Decidable (_ ∧ _))

def yearLength (y : ℕ) : ℕ := if Leap y then 366 else 365

/-- The days of a month of a year; the months are numbered from 1. -/
def monthLength (y : ℕ) : ℕ → ℕ
  | 2 => if Leap y then 29 else 28
  | 4 | 6 | 9 | 11 => 30
  | _ => 31

theorem sum_monthLength (y : ℕ) : ∑ m ∈ Ico 1 13, monthLength y m = yearLength y := by
  simp only [sum_Ico_eq_sum_range, sum_range_succ, sum_range_zero, monthLength, yearLength]
  split_ifs <;> rfl

/-- A day of a month of a year. -/
@[ext] structure Date where
  year : ℕ
  month : ℕ
  day : ℕ
  month_mem : 1 ≤ month ∧ month ≤ 12
  day_mem : 1 ≤ day ∧ day ≤ monthLength year month
  deriving DecidableEq

namespace Date

/-- Whole years, then whole months, then days. -/
def Before (a b : Date) : Prop :=
  a.year < b.year ∨ a.year = b.year ∧ (a.month < b.month ∨ a.month = b.month ∧ a.day < b.day)

instance (a b : Date) : Decidable (a.Before b) := inferInstanceAs (Decidable (_ ∨ _))

theorem before_trichotomy (a b : Date) : a.Before b ∨ a = b ∨ b.Before a := by
  unfold Before
  rw [Date.ext_iff]
  omega

/-- The days of the year before a date. -/
def dayOfYear (a : Date) : ℕ := ∑ m ∈ Ico 1 a.month, monthLength a.year m + (a.day - 1)

/-- The days since the first day of the year `epoch`. -/
def days (epoch : ℕ) (a : Date) : ℕ := ∑ y ∈ Ico epoch a.year, yearLength y + a.dayOfYear

theorem day_sub_lt (a : Date) : a.day - 1 < monthLength a.year a.month := by
  have hday := a.day_mem
  omega

theorem dayOfYear_lt (a : Date) : a.dayOfYear < yearLength a.year := by
  have hmonth : a.month < 13 := Nat.lt_succ_of_le a.month_mem.2
  have hlt : ∑ m ∈ Ico 1 a.month, monthLength a.year m + (a.day - 1) <
      ∑ m ∈ Ico 1 13, monthLength a.year m + 0 := sum_add_lt a.month_mem.1 a.day_sub_lt hmonth
  rw [add_zero] at hlt
  rw [dayOfYear, ← sum_monthLength]
  exact hlt

theorem dayOfYear_lt_of_month_lt {a b : Date} (hyear : a.year = b.year)
    (hmonth : a.month < b.month) : a.dayOfYear < b.dayOfYear := by
  unfold dayOfYear
  rw [← hyear]
  exact sum_add_lt a.month_mem.1 a.day_sub_lt hmonth

/-- **Later dates have more days before them.** -/
theorem days_lt {epoch : ℕ} {a b : Date} (ha : epoch ≤ a.year) (h : a.Before b) :
    a.days epoch < b.days epoch := by
  rcases h with hyear | ⟨hyear, hmonth | ⟨hmonth, hday⟩⟩
  · exact sum_add_lt ha a.dayOfYear_lt hyear
  · unfold days
    rw [hyear]
    exact Nat.add_lt_add_left (dayOfYear_lt_of_month_lt hyear hmonth) _
  · have hone := a.day_mem.1
    unfold days dayOfYear
    rw [hyear, hmonth]
    omega

end Date

/-! ## Times of a day -/

/-- A second of a day. -/
@[ext] structure Time where
  hour : ℕ
  minute : ℕ
  second : ℕ
  hour_lt : hour < 24
  minute_lt : minute < 60
  second_lt : second < 60
  deriving DecidableEq

namespace Time

/-- The seconds since midnight. -/
def secs (t : Time) : ℕ := 3600 * t.hour + 60 * t.minute + t.second

theorem secs_lt (t : Time) : t.secs < 86400 := by
  have hh := t.hour_lt
  have hm := t.minute_lt
  have hs := t.second_lt
  unfold secs
  omega

/-- Whole hours, then whole minutes, then seconds. -/
def Before (s t : Time) : Prop :=
  s.hour < t.hour ∨
    s.hour = t.hour ∧ (s.minute < t.minute ∨ s.minute = t.minute ∧ s.second < t.second)

instance (s t : Time) : Decidable (s.Before t) := inferInstanceAs (Decidable (_ ∨ _))

theorem before_trichotomy (s t : Time) : s.Before t ∨ s = t ∨ t.Before s := by
  unfold Before
  rw [Time.ext_iff]
  omega

theorem secs_lt_secs {s t : Time} (h : s.Before t) : s.secs < t.secs := by
  have hm := s.minute_lt
  have hs := s.second_lt
  unfold Before at h
  unfold secs
  omega

end Time

/-! ## Both -/

/-- A second of a date. -/
@[ext] structure DateTime where
  date : Date
  time : Time
  deriving DecidableEq

namespace DateTime

/-- The earlier date, and on the same date the earlier time. -/
def Before (a b : DateTime) : Prop := a.date.Before b.date ∨ a.date = b.date ∧ a.time.Before b.time

instance (a b : DateTime) : Decidable (a.Before b) := inferInstanceAs (Decidable (_ ∨ _))

/-- The seconds since the start of the year `epoch`. -/
def secs (epoch : ℕ) (a : DateTime) : ℕ := 86400 * a.date.days epoch + a.time.secs

theorem before_trichotomy (a b : DateTime) : a.Before b ∨ a = b ∨ b.Before a := by
  unfold Before
  rw [DateTime.ext_iff]
  rcases a.date.before_trichotomy b.date with hdate | hdate | hdate
  · exact Or.inl (Or.inl hdate)
  · rcases a.time.before_trichotomy b.time with htime | htime | htime
    · exact Or.inl (Or.inr ⟨hdate, htime⟩)
    · exact Or.inr (Or.inl ⟨hdate, htime⟩)
    · exact Or.inr (Or.inr (Or.inr ⟨hdate.symm, htime⟩))
  · exact Or.inr (Or.inr (Or.inl hdate))

variable {epoch : ℕ} {a b : DateTime}

theorem secs_lt (ha : epoch ≤ a.date.year) (h : a.Before b) : a.secs epoch < b.secs epoch := by
  have htime := a.time.secs_lt
  unfold secs
  rcases h with hdate | ⟨hdate, htime⟩
  · have hdays := Date.days_lt ha hdate
    omega
  · have hsecs := Time.secs_lt_secs htime
    rw [hdate]
    omega

/-- **The seconds of dates since the epoch order them.** -/
theorem secs_lt_iff (ha : epoch ≤ a.date.year) (hb : epoch ≤ b.date.year) :
    a.secs epoch < b.secs epoch ↔ a.Before b := by
  constructor
  · intro h
    rcases a.before_trichotomy b with hab | rfl | hba
    · exact hab
    · exact absurd h (lt_irrefl _)
    · exact absurd (secs_lt hb hba) h.not_gt
  · exact secs_lt ha

end DateTime

end Calendar
