/-
  What programs do on their way: values collected from the states that a run goes through.

  A run that fails collects nothing after its failure.
-/
import MoltenDB.Lib.Eff

namespace Prog.Eff

variable {ε σ α β γ : Type}

/-- What `f` collects after a result of `m`. -/
def collect (m : Eff ε σ α) (f : α → σ → List γ) (s : σ) : List γ :=
  match m s with
  | (.ok a, s') => f a s'
  | (.error _, _) => []

/-- A run of `m` returns a result with `P`. -/
def Reaches (m : Eff ε σ α) (P : α → σ → Prop) (s : σ) : Prop :=
  ∃ a s', m s = (.ok a, s') ∧ P a s'

variable {m : Eff ε σ α} {f : α → σ → List γ} {P : α → σ → Prop} {s : σ}

/-- Collected values are those after a result. -/
theorem forall_mem_collect {C : γ → Prop} :
    (∀ x ∈ collect m f s, C x) ↔ wp m (fun a s' => ∀ x ∈ f a s', C x) (fun _ _ => True) s := by
  unfold collect wp
  rcases m s with ⟨a | e, s'⟩ <;> simp

theorem not_reaches :
    ¬ Reaches m P s ↔ wp m (fun a s' => ¬ P a s') (fun _ _ => True) s := by
  unfold Reaches wp
  rcases m s with ⟨a | e, s'⟩
  · simp
  · constructor
    · exact fun h hP => h ⟨_, _, rfl, hP⟩
    · rintro h ⟨a', s'', heq, hP⟩
      cases heq
      exact h hP

/-- If results have `P` anyhow, it need not be shown. -/
theorem wp_and_left {Q : α → σ → Prop} (h : wp m P (fun _ _ => True) s) :
    wp m (fun a s' => P a s' ∧ Q a s') (fun _ _ => True) s ↔ wp m Q (fun _ _ => True) s := by
  constructor
  · exact fun hq => wp_mono hq (fun _ _ h => h.2) fun _ _ h => h
  · exact fun hq => wp_mono (wp_and h hq) (fun _ _ h => h) fun _ _ _ => trivial

/-- Postconditions that agree where `P` holds. -/
theorem wp_congr_of {Q Q' : α → σ → Prop} (h : wp m P (fun _ _ => True) s)
    (hQ : ∀ a s', P a s' → (Q a s' ↔ Q' a s')) :
    wp m Q (fun _ _ => True) s ↔ wp m Q' (fun _ _ => True) s := by
  rw [← wp_and_left h, ← wp_and_left (Q := Q') h]
  constructor
  · exact fun hq => wp_mono hq (fun a s' h => ⟨h.1, (hQ a s' h.1).1 h.2⟩) fun _ _ h => h
  · exact fun hq => wp_mono hq (fun a s' h => ⟨h.1, (hQ a s' h.1).2 h.2⟩) fun _ _ h => h

end Prog.Eff
