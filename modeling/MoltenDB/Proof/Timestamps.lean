/-
  Timestamps as ISO 8601 text.

  The loop over the years and the loop over the months each stop in the block of days that holds
  the day (`yearOf_spec`, `monthOf_spec`), so the text is that of the date and time which are as
  many seconds after 1970 as the timestamp says. Since the text can be read back (`iso_injective`),
  this is a statement about the text.
-/
import MoltenDB.Common.Iso
import MoltenDB.Lib.Calendar

namespace MoltenDB

open Calendar Finset

/-! ## The loops -/

theorem isLeapYear_iff (y : ℕ) : isLeapYear y ↔ Leap y := by
  simp only [isLeapYear, Bool.or_eq_true, Bool.and_eq_true, beq_iff_eq, bne_iff_ne, Leap]
  omega

theorem daysOf_eq_yearLength (y : ℕ) : daysOf y = yearLength y := by
  unfold daysOf yearLength
  simp only [isLeapYear_iff]

/-- The loop over the years ends in the year of the day. -/
theorem yearOf_spec (d y : ℕ) :
    y ≤ (yearOf d y).2 ∧ (yearOf d y).1 < yearLength (yearOf d y).2 ∧
      ∑ i ∈ Ico y (yearOf d y).2, yearLength i + (yearOf d y).1 = d := by
  induction d, y using yearOf.induct with
  | case1 d y h =>
    rw [yearOf, if_pos h]
    exact ⟨le_rfl, daysOf_eq_yearLength y ▸ h, by simp⟩
  | case2 d y h ih =>
    obtain ⟨hle, hlt, hsum⟩ := ih
    rw [yearOf, if_neg h]
    refine ⟨by omega, hlt, ?_⟩
    rw [sum_eq_sum_Ico_succ_bot (by omega), ← daysOf_eq_yearLength y]
    omega

/-- The loop over the months ends in the month of the day. -/
theorem monthOf_spec (f : ℕ → ℕ) (k : ℕ) {d mo : ℕ} (h : d < ∑ m ∈ Ico mo (mo + k), f m) :
    ∃ d' mo', monthOf ((List.range' mo k).map f) d mo = (d', mo') ∧ mo ≤ mo' ∧ mo' < mo + k ∧
      d' < f mo' ∧ ∑ m ∈ Ico mo mo', f m + d' = d := by
  induction k generalizing d mo with
  | zero => simp at h
  | succ k ih =>
    rw [List.range'_succ, List.map_cons, monthOf]
    split_ifs with hd
    · exact ⟨d, mo, rfl, le_rfl, by omega, hd, by simp⟩
    · rw [sum_eq_sum_Ico_succ_bot (by omega)] at h
      have hrest : d - f mo < ∑ m ∈ Ico (mo + 1) (mo + 1 + k), f m := by
        rw [show mo + 1 + k = mo + (k + 1) by omega]
        omega
      obtain ⟨d', mo', heq, hle, hlt, hd', hsum⟩ := ih hrest
      refine ⟨d', mo', heq, by omega, by omega, hd', ?_⟩
      rw [sum_eq_sum_Ico_succ_bot (by omega)]
      omega

/-- The table of the month lengths. -/
theorem months_eq (y : ℕ) :
    [31, if isLeapYear y then 29 else 28, 31, 30, 31, 30, 31, 31, 30, 31, 30, 31] =
      (List.range' 1 12).map (monthLength y) := by
  simp only [isLeapYear_iff]
  rfl

/-! ## The text -/

/-- A date and time in the format of `ms_to_iso`. -/
def iso (a : DateTime) : String :=
  padded 4 a.date.year ++ "-" ++ padded 2 a.date.month ++ "-" ++ padded 2 a.date.day ++ "T" ++
    padded 2 a.time.hour ++ ":" ++ padded 2 a.time.minute ++ ":" ++ padded 2 a.time.second ++ "Z"

/-- The time of the day of a second. -/
def timeOf (secs : ℕ) : Time where
  hour := secs / 3600 % 24
  minute := secs / 60 % 60
  second := secs % 60
  hour_lt := Nat.mod_lt _ (by norm_num)
  minute_lt := Nat.mod_lt _ (by norm_num)
  second_lt := Nat.mod_lt _ (by norm_num)

theorem secs_timeOf (secs : ℕ) : (timeOf secs).secs = secs % 86400 := by
  unfold Time.secs timeOf
  dsimp only
  omega

/-- The text of a timestamp is that of a date, as many seconds after 1970. -/
theorem msToIso_eq (ms : UInt64) :
    ∃ a : DateTime, 1970 ≤ a.date.year ∧ msToIso ms = iso a ∧ a.secs 1970 = ms.toNat / 1000 := by
  obtain ⟨hyear, hlt, hyears⟩ := yearOf_spec (ms.toNat / 1000 / 86400) 1970
  rw [← sum_monthLength] at hlt
  obtain ⟨d, mo, hmonth, hone, htwelve, hday, hmonths⟩ :=
    monthOf_spec (monthLength (yearOf (ms.toNat / 1000 / 86400) 1970).2) 12 hlt
  rw [← months_eq] at hmonth
  refine ⟨⟨⟨(yearOf (ms.toNat / 1000 / 86400) 1970).2, mo, d + 1, ⟨hone, by omega⟩, by omega, hday⟩,
    timeOf (ms.toNat / 1000)⟩, hyear, ?_, ?_⟩
  · rw [msToIso]
    dsimp only
    rw [hmonth]
    rfl
  · rw [DateTime.secs, Date.days, Date.dayOfYear, secs_timeOf]
    dsimp only
    rw [Nat.add_sub_cancel, hmonths, hyears]
    omega

/-! ## The text read back -/

section

variable {width n m : ℕ}

theorem toList_padded (width n : ℕ) :
    (padded width n).toList =
      List.replicate (width - (Decimal.print n).length) '0' ++ (Decimal.print n).toList := by
  rw [padded]
  simp

theorem isDigit_of_mem_padded {c : Char} (h : c ∈ (padded width n).toList) : c.isDigit := by
  rw [toList_padded] at h
  rcases List.mem_append.1 h with hzero | hdigit
  · rw [List.eq_of_mem_replicate hzero]
    rfl
  · exact Decimal.isDigit_of_mem_print hdigit

/-- Leading zeros do not change a number. -/
theorem ofChars_padded (width n : ℕ) : Decimal.ofChars (padded width n).toList = some n := by
  have hzeros : ∀ k, Decimal.ofChars (List.replicate k '0') = some 0 := by
    intro k
    induction k with
    | zero => rfl
    | succ k ih => exact ih
  have hprint := Decimal.ofChars_print n
  unfold Decimal.ofChars at *
  rw [toList_padded, List.foldlM_append, hzeros]
  exact hprint

/-- A number that ends at a separator is read off the text. -/
theorem padded_sep_inj {c : Char} (hc : c.isDigit = false) {r s : List Char}
    (h : (padded width n).toList ++ c :: r = (padded width m).toList ++ c :: s) :
    n = m ∧ r = s := by
  have hdigits : (padded width n).toList = (padded width m).toList := by
    have htake := congrArg (List.takeWhile Char.isDigit) h
    rw [List.takeWhile_append_of_pos fun _ => isDigit_of_mem_padded,
      List.takeWhile_append_of_pos fun _ => isDigit_of_mem_padded] at htake
    simpa [hc] using htake
  refine ⟨?_, by simpa [hdigits] using h⟩
  have hn := ofChars_padded width n
  rw [hdigits, ofChars_padded] at hn
  exact (Option.some.inj hn).symm

end

theorem toList_iso (a : DateTime) :
    (iso a).toList = (padded 4 a.date.year).toList ++ '-' :: ((padded 2 a.date.month).toList ++
      '-' :: ((padded 2 a.date.day).toList ++ 'T' :: ((padded 2 a.time.hour).toList ++
        ':' :: ((padded 2 a.time.minute).toList ++ ':' :: ((padded 2 a.time.second).toList ++
          ['Z'])))))  := by
  simp [iso]

/-- **The text of a date tells the date.** -/
theorem iso_injective : Function.Injective iso := by
  intro a b h
  have htext := congrArg String.toList h
  rw [toList_iso, toList_iso] at htext
  obtain ⟨hyear, htext⟩ := padded_sep_inj rfl htext
  obtain ⟨hmonth, htext⟩ := padded_sep_inj rfl htext
  obtain ⟨hday, htext⟩ := padded_sep_inj rfl htext
  obtain ⟨hhour, htext⟩ := padded_sep_inj rfl htext
  obtain ⟨hminute, htext⟩ := padded_sep_inj rfl htext
  obtain ⟨hsecond, -⟩ := padded_sep_inj rfl htext
  exact DateTime.ext (Date.ext hyear hmonth hday) (Time.ext hhour hminute hsecond)

/-- **`ms_to_iso` gives the date of a timestamp**: its text is that of a date of the calendar; any
    date with that text is as many seconds after 1970 as the timestamp has whole seconds; and the
    dates follow each other as these seconds do. -/
theorem ms_to_iso_date (ms : UInt64) :
    (∃ a : DateTime, iso a = msToIso ms) ∧
    (∀ a : DateTime, iso a = msToIso ms → 1970 ≤ a.date.year ∧
      a.secs 1970 = ms.toNat / 1000) ∧
    ∀ (ms' : UInt64) (a b : DateTime), iso a = msToIso ms → iso b = msToIso ms' →
      (a.Before b ↔ ms.toNat / 1000 < ms'.toNat / 1000) := by
  have hread : ∀ (ms : UInt64) (a : DateTime), iso a = msToIso ms →
      1970 ≤ a.date.year ∧ a.secs 1970 = ms.toNat / 1000 := by
    intro ms a ha
    obtain ⟨b, hyear, hb, hsecs⟩ := msToIso_eq ms
    obtain rfl := iso_injective (ha.trans hb)
    exact ⟨hyear, hsecs⟩
  refine ⟨?_, hread ms, fun ms' a b ha hb => ?_⟩
  · obtain ⟨a, -, ha, -⟩ := msToIso_eq ms
    exact ⟨a, ha.symm⟩
  · obtain ⟨hyear, hsecs⟩ := hread ms a ha
    obtain ⟨hyear', hsecs'⟩ := hread ms' b hb
    rw [← DateTime.secs_lt_iff hyear hyear', hsecs, hsecs']

end MoltenDB
