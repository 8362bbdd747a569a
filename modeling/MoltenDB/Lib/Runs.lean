/-
  Runs of requests that are handled one after the other, and conditions on their steps.
-/
import Mathlib.Tactic

namespace Runs

variable {σ ρ : Type} (step : σ → ρ → σ)

/-- The state after the requests. -/
def after (s : σ) (rs : List ρ) : σ := rs.foldl step s

/-- `P` holds of each request and the state it is handled in. -/
def Along (P : σ → ρ → Prop) : σ → List ρ → Prop
  | _, [] => True
  | s, r :: rs => P s r ∧ Along P (step s r) rs

variable {step} {P : σ → ρ → Prop} {I : σ → Prop}

instance Along.decidable [∀ s r, Decidable (P s r)] : ∀ s rs, Decidable (Along step P s rs)
  | _, [] => isTrue trivial
  | s, r :: rs => @instDecidableAnd _ _ _ (Along.decidable (step s r) rs)

/-- **What each step keeps, its condition given, is kept by the run.** -/
theorem Along.keeps (hstep : ∀ s r, I s → P s r → I (step s r)) {s : σ} {rs : List ρ}
    (h : Along step P s rs) (hs : I s) : I (after step s rs) := by
  induction rs generalizing s with
  | nil => exact hs
  | cons r rs ih => exact ih h.2 (hstep s r hs h.1)

/-- What the invariant and the condition give of each step holds along the run. -/
theorem Along.along {Q : σ → ρ → Prop} (hstep : ∀ s r, I s → P s r → I (step s r))
    (hgive : ∀ s r, I s → P s r → Q s r) {s : σ} {rs : List ρ} (h : Along step P s rs)
    (hs : I s) : Along step Q s rs := by
  induction rs generalizing s with
  | nil => exact trivial
  | cons r rs ih => exact ⟨hgive s r hs h.1, ih h.2 (hstep s r hs h.1)⟩

theorem along_append {s : σ} {rs rs' : List ρ} :
    Along step P s (rs ++ rs') ↔ Along step P s rs ∧ Along step P (after step s rs) rs' := by
  induction rs generalizing s with
  | nil => simp [Along, after]
  | cons r rs ih => simp [Along, after, ih, and_assoc]

/-- What holds of a task after another one, or it, has been changed. -/
theorem of_update {ι α : Type} [DecidableEq ι] {f : ι → α} {c i : ι} {a : α} {P : α → Prop}
    (h : P (Function.update f c a i)) : (i = c ∧ P a) ∨ (i ≠ c ∧ P (f i)) := by
  rw [Function.update_apply] at h
  split_ifs at h with hi
  · exact Or.inl ⟨hi, h⟩
  · exact Or.inr ⟨hi, h⟩

end Runs
