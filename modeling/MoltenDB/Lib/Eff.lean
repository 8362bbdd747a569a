/-
  Programs on a state that may fail, and a calculus of weakest preconditions for
  them.

  A failing program keeps the state it reached: nothing is rolled back.  A
  postcondition comes in two parts, `Q` for a result and `E` for a failure.
-/
import Mathlib.Tactic

namespace Prog

open Relation

/-- A program on states `σ` that returns an `α` or fails with an `ε`. -/
def Eff (ε σ α : Type) : Type := σ → Except ε α × σ

namespace Eff

variable {ε σ α β γ : Type}

/-- Run `m`, then `f` on its result; a failure of `m` is the failure of the whole. -/
def bind (m : Eff ε σ α) (f : α → Eff ε σ β) : Eff ε σ β := fun s =>
  match m s with
  | (.ok a, s') => f a s'
  | (.error e, s') => (.error e, s')

instance : Monad (Eff ε σ) where
  pure a := fun s => (.ok a, s)
  bind := bind

theorem map_id_eq (m : Eff ε σ α) : bind m (fun a s => (.ok a, s)) = m := by
  funext s
  unfold bind
  rcases m s with ⟨a | e, s'⟩ <;> rfl

theorem bind_bind (m : Eff ε σ α) (f : α → Eff ε σ β) (g : β → Eff ε σ γ) :
    bind (bind m f) g = bind m fun a => bind (f a) g := by
  funext s
  unfold bind
  rcases m s with ⟨a | e, s'⟩ <;> rfl

instance : LawfulMonad (Eff ε σ) := .mk' _ map_id_eq (fun _ _ => rfl) bind_bind

def get : Eff ε σ σ := fun s => (.ok s, s)

def modify (f : σ → σ) : Eff ε σ Unit := fun s => (.ok (), f s)

def throw (e : ε) : Eff ε σ α := fun s => (.error e, s)

/-- Run `m` and return its outcome: a failure is not passed on. -/
def outcome (m : Eff ε σ α) : Eff ε σ (Except ε α) := fun s => (.ok (m s).1, (m s).2)

/-- Run `f` on each of `xs` in order, up to the first failure. -/
def forEach (f : β → Eff ε σ Unit) : List β → Eff ε σ Unit
  | [] => pure ()
  | x :: xs => do
    f x
    forEach f xs

/-! ## Weakest preconditions -/

/-- From `s`, `m` returns a result with `Q` or fails with `E`. -/
def wp (m : Eff ε σ α) (Q : α → σ → Prop) (E : ε → σ → Prop) (s : σ) : Prop :=
  match m s with
  | (.ok a, s') => Q a s'
  | (.error e, s') => E e s'

variable {m : Eff ε σ α} {Q Q' : α → σ → Prop} {E E' : ε → σ → Prop} {s s' : σ}

theorem wp_of_ok (h : wp m Q E s) {a : α} (hm : m s = (.ok a, s')) : Q a s' := by
  simpa [wp, hm] using h

theorem wp_of_error (h : wp m Q E s) {e : ε} (hm : m s = (.error e, s')) : E e s' := by
  simpa [wp, hm] using h

theorem wp_intro (ok : ∀ a s', m s = (.ok a, s') → Q a s')
    (error : ∀ e s', m s = (.error e, s') → E e s') : wp m Q E s := by
  unfold wp
  rcases hm : m s with ⟨a | e, s'⟩
  · exact error _ _ hm
  · exact ok _ _ hm

/-- What holds whatever the outcome holds of the final state. -/
theorem wp_final {P : σ → Prop} (h : wp m (fun _ => P) (fun _ => P) s) : P (m s).2 := by
  unfold wp at h
  rcases hm : m s with ⟨a | e, s'⟩ <;> rw [hm] at h <;> exact h

theorem ok_of_wp {v : α} (h : wp m (fun a _ => a = v) (fun _ _ => False) s) : (m s).1 = .ok v := by
  unfold wp at h
  rcases hm : m s with ⟨a | e, s'⟩
  · rw [hm] at h
    exact h.elim
  · rw [hm] at h
    exact congrArg Except.ok h

theorem wp_of_run {a : α} (hm : m s = (.ok a, s')) (h : Q a s') : wp m Q E s := by
  rwa [wp, hm]

/-- A program that cannot fail returns a result. -/
theorem exists_of_wp (h : wp m Q (fun _ _ => False) s) : ∃ a s', m s = (.ok a, s') ∧ Q a s' := by
  unfold wp at h
  rcases hm : m s with ⟨e | a, s'⟩
  · rw [hm] at h
    exact h.elim
  · rw [hm] at h
    exact ⟨a, s', rfl, h⟩

theorem wp_mono (h : wp m Q E s) (hQ : ∀ a s', Q a s' → Q' a s') (hE : ∀ e s', E e s' → E' e s') :
    wp m Q' E' s :=
  wp_intro (fun _ _ hm => hQ _ _ (wp_of_ok h hm)) (fun _ _ hm => hE _ _ (wp_of_error h hm))

/-- Two postconditions established separately hold together. -/
theorem wp_and (h : wp m Q E s) (h' : wp m Q' E' s) :
    wp m (fun a s' => Q a s' ∧ Q' a s') (fun e s' => E e s' ∧ E' e s') s :=
  wp_intro (fun _ _ hm => ⟨wp_of_ok h hm, wp_of_ok h' hm⟩)
    (fun _ _ hm => ⟨wp_of_error h hm, wp_of_error h' hm⟩)

@[simp] theorem wp_pure {a : α} : wp (pure a : Eff ε σ α) Q E s ↔ Q a s := Iff.rfl

@[simp] theorem wp_bind {f : α → Eff ε σ β} {Q : β → σ → Prop} :
    wp (m >>= f) Q E s ↔ wp m (fun a s' => wp (f a) Q E s') E s := by
  change wp (bind m f) Q E s ↔ _
  unfold wp bind
  rcases m s with ⟨a | e, s'⟩ <;> rfl

@[simp] theorem wp_map {f : α → β} {Q : β → σ → Prop} :
    wp (f <$> m) Q E s ↔ wp m (fun a s' => Q (f a) s') E s := wp_bind

@[simp] theorem wp_get {Q : σ → σ → Prop} : wp (get : Eff ε σ σ) Q E s ↔ Q s s := Iff.rfl

@[simp] theorem wp_modify {f : σ → σ} {Q : Unit → σ → Prop} :
    wp (modify f : Eff ε σ Unit) Q E s ↔ Q () (f s) := Iff.rfl

@[simp] theorem wp_throw {e : ε} : wp (throw e : Eff ε σ α) Q E s ↔ E e s := Iff.rfl

@[simp] theorem wp_outcome {Q : Except ε α → σ → Prop} :
    wp (outcome m) Q E s ↔ wp m (fun a s' => Q (.ok a) s') (fun e s' => Q (.error e) s') s := by
  unfold wp outcome
  rcases m s with ⟨a | e, s'⟩ <;> rfl

/-- The loop rule: `I` holds of the items left to do before each of them. -/
theorem wp_forEach {f : β → Eff ε σ Unit} (I : List β → σ → Prop)
    (step : ∀ x xs s, I (x :: xs) s → wp (f x) (fun _ s' => I xs s') E s) (xs : List β) :
    ∀ s, I xs s → wp (forEach f xs) (fun _ s' => I [] s') E s := by
  induction xs with
  | nil => exact fun _ h => h
  | cons x xs ih =>
    intro s h
    rw [forEach, wp_bind]
    exact wp_mono (step x xs s h) (fun _ s' h' => ih s' h') (fun _ _ h' => h')

/-- Programs with the same run satisfy the same. -/
theorem wp_of_eq {m' : Eff ε σ α} (heq : m s = m' s') (h : wp m' Q E s') : wp m Q E s := by
  unfold wp at h ⊢
  rwa [heq]

/-- A program whose outcomes are those of another has the same run. -/
theorem eq_of_wp {m' : Eff ε σ α}
    (h : wp m (fun a t => m' s' = (.ok a, t)) (fun e t => m' s' = (.error e, t)) s) :
    m s = m' s' := by
  rcases hrun : m s with ⟨a | e, t⟩
  · exact (wp_of_error h hrun).symm
  · exact (wp_of_ok h hrun).symm

/-- A loop does the same if its steps do. -/
theorem forEach_congr {f : β → Eff ε σ Unit} {xs ys : List β} (h : ys.map f = xs.map f) :
    forEach f ys = forEach f xs := by
  have hmap : ∀ zs : List β, forEach f zs = forEach id (zs.map f) := by
    intro zs
    induction zs with
    | nil => rfl
    | cons z zs ih => rw [forEach, ih]; rfl
  rw [hmap, hmap, h]

/-! ## Programs that only make certain steps -/

/-- Whatever the outcome, `m` leads to a state that any number of steps of `R` lead to. -/
def Steps (R : σ → σ → Prop) (m : Eff ε σ α) : Prop :=
  ∀ s, wp m (fun _ => ReflTransGen R s) (fun _ => ReflTransGen R s) s

variable {R R' : σ → σ → Prop}

theorem Steps.bind {f : α → Eff ε σ β} (hm : Steps R m) (hf : ∀ a, Steps R (f a)) :
    Steps R (m >>= f) := fun s => by
  rw [wp_bind]
  refine wp_mono (hm s) (fun a s₁ h₁ => ?_) (fun _ _ h => h)
  exact wp_mono (hf a s₁) (fun _ _ h => h₁.trans h) (fun _ _ h => h₁.trans h)

theorem steps_pure (a : α) : Steps R (pure a : Eff ε σ α) := fun _ => .refl

theorem steps_get : Steps R (get : Eff ε σ σ) := fun _ => .refl

theorem steps_modify {f : σ → σ} (h : ∀ s, R s (f s)) : Steps R (modify f : Eff ε σ Unit) :=
  fun s => .single (h s)

theorem Steps.forEach {f : β → Eff ε σ Unit} (h : ∀ x, Steps R (f x)) (xs : List β) :
    Steps R (forEach f xs) := by
  induction xs with
  | nil => exact steps_pure ()
  | cons x xs ih => exact (h x).bind fun _ => ih

theorem Steps.outcome (h : Steps R m) : Steps R (outcome m) := fun s => by
  rw [wp_outcome]; exact h s

theorem Steps.mono (h : Steps R m) (hR : ∀ s s', R s s' → R' s s') : Steps R' m := fun s =>
  wp_mono (h s) (fun _ _ => ReflTransGen.mono hR _ _) (fun _ _ => ReflTransGen.mono hR _ _)

/-- **What every step keeps, the program keeps**, whatever its outcome. -/
theorem Steps.keeps {P : σ → Prop} (hm : Steps R m) (hP : ∀ s s', R s s' → P s → P s') (h : P s) :
    wp m (fun _ => P) (fun _ => P) s := by
  have hrun : ∀ s', ReflTransGen R s s' → P s' := by
    intro s' hs'
    induction hs' with
    | refl => exact h
    | tail _ hstep ih => exact hP _ _ hstep ih
  exact wp_mono (hm s) (fun _ => hrun) fun _ => hrun

/-! ## Programs that do not fail -/

/-- From states with `P`, `m` returns a result, and keeps `P`. -/
def Safe (P : σ → Prop) (m : Eff ε σ α) : Prop :=
  ∀ s, P s → wp m (fun _ => P) (fun _ _ => False) s

section

variable {P : σ → Prop}

theorem Safe.bind {f : α → Eff ε σ β} (hm : Safe P m) (hf : ∀ a, Safe P (f a)) :
    Safe P (m >>= f) := fun s hs => by
  rw [wp_bind]
  exact wp_mono (hm s hs) (fun a s' hs' => hf a s' hs') fun _ _ h => h

theorem safe_pure (a : α) : Safe P (pure a : Eff ε σ α) := fun _ h => h

theorem safe_get : Safe P (get : Eff ε σ σ) := fun _ h => h

theorem safe_modify {f : σ → σ} (h : ∀ s, P s → P (f s)) : Safe P (modify f : Eff ε σ Unit) := h

theorem Safe.outcome (h : Safe P m) : Safe P (outcome m) := fun s hs => by
  rw [wp_outcome]
  exact wp_mono (h s hs) (fun _ _ h => h) fun _ _ h => h.elim

theorem Safe.forEach {f : β → Eff ε σ Unit} (h : ∀ x, Safe P (f x)) (xs : List β) :
    Safe P (forEach f xs) := by
  induction xs with
  | nil => exact safe_pure ()
  | cons x xs ih => exact (h x).bind fun _ => ih

/-- What holds of the results of a program that does not fail. -/
theorem Safe.and (h : Safe P m) (hs : P s) (hQ : wp m Q (fun _ _ => True) s) :
    wp m (fun a s' => Q a s' ∧ P s') (fun _ _ => False) s :=
  wp_mono (wp_and hQ (h s hs)) (fun _ _ h => h) fun _ _ h => h.2

end

/-! ## Two runs -/

/-- Runs from states related by `R` have the same outcome and lead to related states. -/
def Alike (R : σ → σ → Prop) (m : Eff ε σ α) : Prop :=
  ∀ s s', R s s' → (m s).1 = (m s').1 ∧ R (m s).2 (m s').2

theorem alike_pure (a : α) : Alike R (pure a : Eff ε σ α) := fun _ _ h => ⟨rfl, h⟩

/-- The second program need only be alike after results that the first may have. -/
theorem Alike.bind_of {f : α → Eff ε σ β} {P : α → Prop} (hm : Alike R m)
    (hP : ∀ s s', R s s' → wp m (fun a _ => P a) (fun _ _ => True) s)
    (hf : ∀ a, P a → Alike R (f a)) : Alike R (m >>= f) := by
  intro s s' h
  obtain ⟨hout, hend⟩ := hm s s' h
  change (Eff.bind m f s).1 = (Eff.bind m f s').1 ∧ R (Eff.bind m f s).2 (Eff.bind m f s').2
  unfold Eff.bind
  rcases hs : m s with ⟨a | e, s₁⟩ <;> rcases hs' : m s' with ⟨a' | e', s₁'⟩ <;>
    rw [hs, hs'] at hout hend <;> cases hout
  · exact ⟨rfl, hend⟩
  · exact hf _ (wp_of_ok (hP s s' h) hs) _ _ hend

theorem Alike.bind {f : α → Eff ε σ β} (hm : Alike R m) (hf : ∀ a, Alike R (f a)) :
    Alike R (m >>= f) :=
  hm.bind_of (P := fun _ => True)
    (fun _ _ _ => wp_intro (fun _ _ _ => trivial) fun _ _ _ => trivial) fun a _ => hf a

theorem Alike.map {f : α → β} (hm : Alike R m) : Alike R (f <$> m) :=
  hm.bind fun a => alike_pure (f a)

theorem alike_throw (e : ε) : Alike R (throw e : Eff ε σ α) := fun _ _ h => ⟨rfl, h⟩

theorem Alike.outcome (hm : Alike R m) : Alike R (outcome m) := by
  intro s s' h
  obtain ⟨hout, hend⟩ := hm s s' h
  exact ⟨congrArg Except.ok hout, hend⟩

theorem Alike.forEach {f : β → Eff ε σ Unit} (h : ∀ x, Alike R (f x)) (xs : List β) :
    Alike R (forEach f xs) := by
  induction xs with
  | nil => exact alike_pure ()
  | cons x xs ih => exact (h x).bind fun _ => ih

/-- A program that looks at the state does the same if it sees no difference. -/
theorem alike_get_bind {f : σ → Eff ε σ α}
    (h : ∀ s s', R s s' → f s = f s' ∧ Alike R (f s)) : Alike R (get >>= f) := by
  intro s s' hs
  obtain ⟨heq, hf⟩ := h s s' hs
  have hend := hf s s' hs
  change (f s s).1 = (f s' s').1 ∧ R (f s s).2 (f s' s').2
  rw [← heq]
  exact hend

end Eff

end Prog
