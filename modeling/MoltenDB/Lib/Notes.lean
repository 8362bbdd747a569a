/-
  Programs that write notes.

  A noted program runs like a program without notes, which is what is left of it when the
  notes are forgotten.  What holds of all notes of a run is found step by step
  (`all_bind`).
-/
import MoltenDB.Lib.Eff

namespace Prog

/-- A program on states `σ` that returns an `α` or fails with an `ε`, and writes notes. -/
def Noted (ν ε σ α : Type) : Type := σ → (Except ε α × σ) × List ν

namespace Noted

variable {ν ε σ α β : Type}

/-- The program without its notes. -/
def forget (t : Noted ν ε σ α) : Eff ε σ α := fun s => (t s).1

/-- The notes of a run from `s`. -/
def notes (t : Noted ν ε σ α) (s : σ) : List ν := (t s).2

/-- Run `t`, then `f` on its result; the notes of both are kept. -/
def bind (t : Noted ν ε σ α) (f : α → Noted ν ε σ β) : Noted ν ε σ β := fun s =>
  match t s with
  | ((.ok a, s'), l) => (((f a) s').1, l ++ ((f a) s').2)
  | ((.error e, s'), l) => ((.error e, s'), l)

instance : Monad (Noted ν ε σ) where
  pure a := fun s => ((.ok a, s), [])
  bind := bind

/-- A program that writes no notes. -/
def lift (m : Eff ε σ α) : Noted ν ε σ α := fun s => (m s, [])

/-- Write some notes. -/
def note (l : List ν) : Noted ν ε σ Unit := fun s => ((.ok (), s), l)

@[simp] theorem forget_pure (a : α) : (pure a : Noted ν ε σ α).forget = pure a := rfl

@[simp] theorem forget_lift (m : Eff ε σ α) : (lift m : Noted ν ε σ α).forget = m := rfl

@[simp] theorem forget_note (l : List ν) : (note l : Noted ν ε σ Unit).forget = pure () := rfl

@[simp] theorem forget_bind (t : Noted ν ε σ α) (f : α → Noted ν ε σ β) :
    (t >>= f).forget = t.forget >>= fun a => (f a).forget := by
  funext s
  change ((bind t f) s).1 = Eff.bind t.forget (fun a => (f a).forget) s
  unfold bind Eff.bind forget
  rcases t s with ⟨⟨e | a, s'⟩, l⟩ <;> rfl

theorem forget_ite (c : Prop) [Decidable c] (t t' : Noted ν ε σ α) :
    (if c then t else t').forget = if c then t.forget else t'.forget := by
  split_ifs <;> rfl

/-- Notes that depend on the state change nothing. -/
theorem forget_get_note (l : σ → List ν) (m : Eff ε σ α) :
    (do
      let s ← lift Eff.get
      note (l s)
      lift m).forget = m := rfl

/-! ## What holds of all notes -/

/-- All notes of a run from `s` have `P`. -/
def All (P : ν → Prop) (t : Noted ν ε σ α) (s : σ) : Prop := ∀ x ∈ t.notes s, P x

variable {P : ν → Prop} {s : σ}

@[simp] theorem all_pure (a : α) : All P (pure a : Noted ν ε σ α) s ↔ True :=
  iff_true_intro fun _ hx => by cases hx

@[simp] theorem all_lift (m : Eff ε σ α) : All P (lift m : Noted ν ε σ α) s ↔ True :=
  iff_true_intro fun _ hx => by cases hx

@[simp] theorem all_note (l : List ν) : All P (note l : Noted ν ε σ Unit) s ↔ ∀ x ∈ l, P x := Iff.rfl

/-- **The notes of a step and of what comes after it.** -/
@[simp] theorem all_bind (t : Noted ν ε σ α) (f : α → Noted ν ε σ β) :
    All P (t >>= f) s ↔
      All P t s ∧ Eff.wp t.forget (fun a s' => All P (f a) s') (fun _ _ => True) s := by
  change (∀ x ∈ (bind t f s).2, P x) ↔ (∀ x ∈ (t s).2, P x) ∧ _
  unfold bind Eff.wp forget All notes
  rcases t s with ⟨⟨e | a, s'⟩, l⟩
  · exact (and_iff_left trivial).symm
  · exact List.forall_mem_append

end Noted

end Prog
