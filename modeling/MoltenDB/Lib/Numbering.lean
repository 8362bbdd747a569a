/-
  Numbers that are given to keys, each at most once, and indexes of them.

  A key may use its number in several places: in a store, and in logs from which the store can be
  rebuilt.  No two keys use the same number, and those still to be given are above all of them
  (`Given`).  The index of a store finds the key of a number (`Inverse`).
-/
import Mathlib.Tactic

namespace Numbering

variable {K N : Type}

/-- No number is used by two keys, and all are below the one that is given next. -/
structure Given [LT N] (next : N) (uses : K → N → Prop) : Prop where
  unique : ∀ {k k' n}, uses k n → uses k' n → k = k'
  below : ∀ {k n}, uses k n → n < next

namespace Given

variable [LT N] {next next' : N} {uses uses' : K → N → Prop}

/-- Numbers may go out of use, and others be skipped. -/
theorem mono (h : Given next uses) (huses : ∀ k n, uses' k n → uses k n)
    (hnext : ∀ n, n < next → n < next') : Given next' uses' :=
  ⟨fun hk hk' => h.unique (huses _ _ hk) (huses _ _ hk'), fun hk => hnext _ (h.below (huses _ _ hk))⟩

/-- **A number that is given to a key** is used by no other one. -/
theorem give (h : Given next uses) {k : K} (hirrefl : ¬ next < next) (hnew : next < next')
    (hnext : ∀ n, n < next → n < next')
    (huses : ∀ k' n, uses' k' n → uses k' n ∨ k' = k ∧ n = next) : Given next' uses' := by
  refine ⟨fun {k₁ k₂ n} h₁ h₂ => ?_, fun {k₁ n} h₁ => ?_⟩
  · rcases huses k₁ n h₁ with h₁ | ⟨rfl, rfl⟩
    · rcases huses k₂ n h₂ with h₂ | ⟨-, rfl⟩
      · exact h.unique h₁ h₂
      · exact absurd (h.below h₁) hirrefl
    · rcases huses k₂ _ h₂ with h₂ | ⟨rfl, -⟩
      · exact absurd (h.below h₂) hirrefl
      · rfl
  · rcases huses k₁ n h₁ with h₁ | ⟨-, rfl⟩
    · exact hnext n (h.below h₁)
    · exact hnew

end Given

/-- The index has the keys under their numbers, and no others. -/
def Inverse (num : K → Option N) (idx : N → Option K) : Prop := ∀ n k, idx n = some k ↔ num k = some n

namespace Inverse

variable {num num' : K → Option N} {idx idx' : N → Option K}

theorem congr (h : Inverse num idx) (hnum : ∀ k, num' k = num k) (hidx : ∀ n, idx' n = idx n) :
    Inverse num' idx' := fun n k => by rw [hnum, hidx, h n k]

/-- Keys with the same number are the same. -/
theorem unique (h : Inverse num idx) {k k' : K} {n : N} (hk : num k = some n)
    (hk' : num k' = some n) : k = k' :=
  Option.some.inj (((h n k).2 hk).symm.trans ((h n k').2 hk'))

variable [DecidableEq K] [DecidableEq N]

/-- **A key is stored under a number** that no other key has, and that is its own if it has one. -/
theorem put (h : Inverse num idx) {k : K} {n : N} (hown : ∀ n', num k = some n' → n' = n)
    (hother : ∀ k', num k' = some n → k' = k)
    (hnum : ∀ k', num' k' = if k' = k then some n else num k')
    (hidx : ∀ n', idx' n' = if n' = n then some k else idx n') : Inverse num' idx' := by
  intro n' k'
  rw [hnum, hidx]
  split_ifs with hn hk hk
  · simp [hn, hk]
  · refine iff_of_false (fun heq => hk (Option.some.inj heq).symm) fun hk' => ?_
    exact hk (hother k' (hn ▸ hk'))
  · refine iff_of_false (fun hidx' => ?_) fun heq => hn (Option.some.inj heq).symm
    rw [h n' k', hk] at hidx'
    exact hn (hown n' hidx')
  · exact h n' k'

/-- **A key is removed**, and so is its number. -/
theorem erase (h : Inverse num idx) {k : K}
    (hnum : ∀ k', num' k' = if k' = k then none else num k')
    (hidx : ∀ n, idx' n = if num k = some n then none else idx n) : Inverse num' idx' := by
  intro n k'
  rw [hnum, hidx]
  split_ifs with hn hk hk
  · simp
  · refine iff_of_false (by simp) fun hk' => hk (h.unique hk' hn)
  · refine iff_of_false (fun hidx' => ?_) (by simp)
    rw [h n k', hk] at hidx'
    exact hn hidx'
  · exact h n k'

end Inverse

end Numbering
