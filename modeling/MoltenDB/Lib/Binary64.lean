/-
  Finite doubles as rational numbers, and the doubles nearest to integers.
-/
import Mathlib.Tactic

namespace Binary64

/-- The distance from 1 to the next double. -/
def EPSILON : ℚ := 1 / 2 ^ 52

/-- The value of the double with the bits `bits`, if it is finite. -/
def value (bits : UInt64) : ℚ :=
  let n : ℕ := bits.toNat
  let sign : ℚ := if n / 2 ^ 63 = 0 then 1 else -1
  let exp : ℕ := n / 2 ^ 52 % 2 ^ 11
  let frac : ℕ := n % 2 ^ 52
  if exp = 0 then sign * frac / 2 ^ 1074
  else sign * (2 ^ 52 + frac) * 2 ^ exp / 2 ^ 1075

/-- The double nearest to `n`; of two that are as near, the one with an even significand. -/
def roundNat (n : ℕ) : ℕ :=
  if n < 2 ^ 53 then n
  else
    let unit := 2 ^ (Nat.log2 n - 52)
    let low := n / unit
    let rem := n % unit
    if 2 * rem < unit ∨ (2 * rem = unit ∧ low % 2 = 0) then low * unit else (low + 1) * unit

/-- The double nearest to `i`. -/
def ofInt (i : ℤ) : ℚ := if 0 ≤ i then roundNat i.toNat else -roundNat i.natAbs

/-- A double as an unsigned 64-bit integer: truncated, and kept in range. -/
def truncate (q : ℚ) : UInt64 :=
  if q < 0 then 0 else if 2 ^ 64 ≤ q then UInt64.ofNat (2 ^ 64 - 1) else UInt64.ofNat q.floor.toNat

theorem roundNat_eq {n : ℕ} (h : n ≤ 2 ^ 53) : roundNat n = n := by
  rcases Nat.lt_or_eq_of_le h with hlt | rfl
  · exact if_pos hlt
  · decide +kernel

/-! ### Rounding keeps the order -/

/-- The distance between the doubles around `n`. -/
def unit (n : ℕ) : ℕ := 2 ^ (Nat.log2 n - 52)

theorem unit_pos (n : ℕ) : 0 < unit n := Nat.two_pow_pos _

theorem pow_mul_unit {n : ℕ} (h : 2 ^ 53 ≤ n) : 2 ^ 52 * unit n = 2 ^ Nat.log2 n := by
  have hlog : 53 ≤ Nat.log2 n := (Nat.le_log2 (by omega)).2 h
  rw [unit, ← pow_add, Nat.add_sub_cancel' (by omega)]

/-- The significand of a large number has 53 bits. -/
theorem pow_le_div_unit {n : ℕ} (h : 2 ^ 53 ≤ n) : 2 ^ 52 ≤ n / unit n := by
  rw [Nat.le_div_iff_mul_le (unit_pos n), pow_mul_unit h]
  exact Nat.log2_self_le (by omega)

theorem div_unit_lt {n : ℕ} (h : 2 ^ 53 ≤ n) : n / unit n < 2 ^ 53 := by
  rw [Nat.div_lt_iff_lt_mul (unit_pos n), show 2 ^ 53 = 2 * 2 ^ 52 from rfl, mul_assoc,
    pow_mul_unit h, ← pow_succ']
  exact Nat.lt_log2_self

theorem roundNat_of_le {n : ℕ} (h : 2 ^ 53 ≤ n) :
    roundNat n = if 2 * (n % unit n) < unit n ∨
      (2 * (n % unit n) = unit n ∧ n / unit n % 2 = 0) then n / unit n * unit n
      else (n / unit n + 1) * unit n :=
  if_neg (by omega)

/-- A large number is rounded to one of the doubles around it. -/
theorem div_mul_le_roundNat {n : ℕ} (h : 2 ^ 53 ≤ n) : n / unit n * unit n ≤ roundNat n := by
  rw [roundNat_of_le h]
  split_ifs
  · exact le_rfl
  · exact Nat.mul_le_mul_right _ (Nat.le_succ _)

theorem roundNat_le_succ_mul {n : ℕ} (h : 2 ^ 53 ≤ n) :
    roundNat n ≤ (n / unit n + 1) * unit n := by
  rw [roundNat_of_le h]
  split_ifs
  · exact Nat.mul_le_mul_right _ (Nat.le_succ _)
  · exact le_rfl

theorem pow_log2_le_roundNat {n : ℕ} (h : 2 ^ 53 ≤ n) : 2 ^ Nat.log2 n ≤ roundNat n :=
  calc 2 ^ Nat.log2 n = 2 ^ 52 * unit n := (pow_mul_unit h).symm
    _ ≤ n / unit n * unit n := Nat.mul_le_mul_right _ (pow_le_div_unit h)
    _ ≤ roundNat n := div_mul_le_roundNat h

theorem roundNat_le_pow {n : ℕ} (h : 2 ^ 53 ≤ n) : roundNat n ≤ 2 ^ (Nat.log2 n + 1) :=
  calc roundNat n ≤ (n / unit n + 1) * unit n := roundNat_le_succ_mul h
    _ ≤ 2 ^ 53 * unit n := Nat.mul_le_mul_right _ (div_unit_lt h)
    _ = 2 ^ (Nat.log2 n + 1) := by
      rw [pow_succ' 2 (Nat.log2 n), ← pow_mul_unit h, ← mul_assoc]
      rfl

/-- Of two numbers between the same powers of two, the larger one is rounded to no less. -/
theorem roundNat_le_of_unit_eq {a b : ℕ} (ha : 2 ^ 53 ≤ a) (hb : 2 ^ 53 ≤ b) (hab : a ≤ b)
    (hunit : unit a = unit b) : roundNat a ≤ roundNat b := by
  have hdiv : a / unit b ≤ b / unit b := Nat.div_le_div_right hab
  rcases hdiv.lt_or_eq with hlt | heq
  · calc roundNat a ≤ (a / unit a + 1) * unit a := roundNat_le_succ_mul ha
      _ ≤ b / unit b * unit b := by
        rw [hunit]
        exact Nat.mul_le_mul_right _ hlt
      _ ≤ roundNat b := div_mul_le_roundNat hb
  · have hrem : a % unit b ≤ b % unit b := by
      have hda := Nat.div_add_mod a (unit b)
      have hdb := Nat.div_add_mod b (unit b)
      rw [heq] at hda
      omega
    rw [roundNat_of_le ha, roundNat_of_le hb, hunit, heq]
    generalize b / unit b = low
    split_ifs with hdown hdown'
    · exact le_rfl
    · exact Nat.mul_le_mul_right _ (Nat.le_succ _)
    · omega
    · exact le_rfl

theorem roundNat_mono : Monotone roundNat := by
  intro a b hab
  by_cases hb : 2 ^ 53 ≤ b
  swap
  · rw [roundNat_eq (by omega), roundNat_eq (by omega)]
    exact hab
  by_cases ha : 2 ^ 53 ≤ a
  · have hlog : Nat.log2 a ≤ Nat.log2 b := by
      rw [Nat.log2_eq_log_two, Nat.log2_eq_log_two]
      exact Nat.log_mono_right hab
    rcases hlog.lt_or_eq with hlt | heq
    · calc roundNat a ≤ 2 ^ (Nat.log2 a + 1) := roundNat_le_pow ha
        _ ≤ 2 ^ Nat.log2 b := Nat.pow_le_pow_right (by omega) hlt
        _ ≤ roundNat b := pow_log2_le_roundNat hb
    · exact roundNat_le_of_unit_eq ha hb hab (by rw [unit, unit, heq])
  · calc roundNat a = a := roundNat_eq (by omega)
      _ ≤ 2 ^ 53 := by omega
      _ ≤ 2 ^ Nat.log2 b := Nat.pow_le_pow_right (by omega) ((Nat.le_log2 (by omega)).2 hb)
      _ ≤ roundNat b := pow_log2_le_roundNat hb

/-- Integers up to `2 ^ 53` are doubles. -/
theorem ofInt_eq {i : ℤ} (h : |i| ≤ 2 ^ 53) : ofInt i = i := by
  have hle : i.natAbs ≤ 2 ^ 53 := by
    rw [← Int.natCast_natAbs] at h
    exact_mod_cast h
  unfold ofInt
  split_ifs with hi
  · rw [roundNat_eq (by omega)]
    exact_mod_cast Int.toNat_of_nonneg hi
  · rw [roundNat_eq hle]
    rw [Nat.cast_natAbs, abs_of_neg (not_le.1 hi)]
    push_cast
    rw [neg_neg]

/-- Distinct integers up to `2 ^ 53` are further apart than `EPSILON`. -/
theorem eq_or_epsilon_le {i j : ℤ} (hi : |i| ≤ 2 ^ 53) (hj : |j| ≤ 2 ^ 53) :
    i = j ∨ EPSILON ≤ |ofInt i - ofInt j| := by
  rw [ofInt_eq hi, ofInt_eq hj]
  by_cases h : i = j
  · exact Or.inl h
  · refine Or.inr ?_
    have hint : (1 : ℤ) ≤ |i - j| := Int.one_le_abs (sub_ne_zero.2 h)
    have hone : (1 : ℚ) ≤ |(i : ℚ) - j| := by exact_mod_cast hint
    exact le_trans (by norm_num [EPSILON]) hone

end Binary64
