/-
  Slices of text that are measured in bytes: the first `k` bytes of a text are a text exactly when
  no character lies across the cut.
-/
import Mathlib.Data.String.Basic
import Mathlib.Tactic

namespace Slices

open String

/-- The text of the first `k` bytes, if it is there and ends with a whole character. -/
def sliceTo : List Char → ℕ → Option (List Char)
  | _, 0 => some []
  | [], _ + 1 => none
  | c :: cs, k + 1 =>
    if c.utf8Size ≤ k + 1 then (sliceTo cs (k + 1 - c.utf8Size)).map (c :: ·) else none

/-- A character begins before the byte `k` and ends after it. -/
def Straddles (cs : List Char) (k : ℕ) : Prop :=
  ∃ pre c post, cs = pre ++ c :: post ∧ utf8Len pre < k ∧ k < utf8Len pre + c.utf8Size

variable {c : Char} {cs l : List Char} {k : ℕ}

theorem sliceTo_cons (hk : 0 < k) :
    sliceTo (c :: cs) k =
      if c.utf8Size ≤ k then (sliceTo cs (k - c.utf8Size)).map (c :: ·) else none := by
  obtain ⟨k, rfl⟩ := Nat.exists_eq_succ_of_ne_zero hk.ne'
  rfl

theorem straddles_cons :
    Straddles (c :: cs) k ↔
      0 < k ∧ k < c.utf8Size ∨ c.utf8Size < k ∧ Straddles cs (k - c.utf8Size) := by
  constructor
  · rintro ⟨pre, c', post, heq, hlt, hgt⟩
    cases pre with
    | nil =>
      obtain ⟨rfl, -⟩ := List.cons.inj heq
      exact Or.inl ⟨by simpa using hlt, by simpa using hgt⟩
    | cons d pre =>
      obtain ⟨rfl, hcs⟩ := List.cons.inj heq
      rw [utf8Len_cons] at hlt hgt
      exact Or.inr ⟨by omega, pre, c', post, hcs, by omega, by omega⟩
  · rintro (⟨hpos, hlt⟩ | ⟨hlt, pre, c', post, rfl, hpre, hpost⟩)
    · exact ⟨[], c, cs, rfl, by simpa using hpos, by simpa using hlt⟩
    · refine ⟨c :: pre, c', post, rfl, ?_, ?_⟩ <;> rw [utf8Len_cons] <;> omega

/-- A cut past the end is across no character. -/
theorem not_straddles_of_le (h : utf8Len cs ≤ k) : ¬ Straddles cs k := by
  rintro ⟨pre, c, post, rfl, -, hlt⟩
  rw [utf8Len_append, utf8Len_cons] at h
  omega

/-- **A text can be cut where no character lies across the cut.** -/
theorem sliceTo_isSome_iff (cs : List Char) (k : ℕ) :
    (sliceTo cs (min (utf8Len cs) k)).isSome ↔ ¬ Straddles cs k := by
  induction cs generalizing k with
  | nil => exact iff_of_true (by simp [sliceTo]) (not_straddles_of_le (Nat.zero_le k))
  | cons c cs ih =>
    have hpos := c.utf8Size_pos
    rw [straddles_cons]
    rcases Nat.eq_zero_or_pos k with rfl | hk
    · simp [sliceTo]
    · rw [sliceTo_cons (by rw [utf8Len_cons]; omega), utf8Len_cons]
      by_cases hc : c.utf8Size ≤ k
      · have hrest : min (utf8Len cs + c.utf8Size) k - c.utf8Size =
            min (utf8Len cs) (k - c.utf8Size) := by omega
        rw [if_pos (by omega), hrest, Option.isSome_map, ih]
        rcases hc.eq_or_lt with rfl | hlt
        · simp [Straddles]
        · simp [hlt, hlt.not_gt]
      · rw [if_neg (by omega)]
        simp [hk, not_le.1 hc]

end Slices
