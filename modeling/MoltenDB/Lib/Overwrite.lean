/-
  Logs whose entries overwrite registers with constants.

  `act e r` is what the entry `e` writes to the register `r`, if it writes it.
  The register then holds what the last entry to write it wrote.
-/
import Mathlib.Tactic

namespace Overwrite

variable {E R V : Type} (act : E → R → Option V)

/-- The registers after one entry. -/
def apply (σ : R → V) (e : E) : R → V := fun r => (act e r).getD (σ r)

/-- The registers after a log. -/
def replay (σ : R → V) (L : List E) : R → V := L.foldl (apply act) σ

/-- What the last entry to write `r` wrote. -/
def last (L : List E) (r : R) : Option V := L.reverse.findSome? fun e => act e r

variable {act}

@[simp] theorem last_nil (r : R) : last act [] r = none := rfl

theorem last_append (L L' : List E) (r : R) :
    last act (L ++ L') r = (last act L' r).or (last act L r) := by
  rw [last, List.reverse_append, List.findSome?_append]; rfl

@[simp] theorem last_singleton (e : E) (r : R) : last act [e] r = act e r := by
  cases h : act e r <;> simp [last, h]

theorem last_cons (e : E) (L : List E) (r : R) :
    last act (e :: L) r = (last act L r).or (act e r) := by
  rw [← List.singleton_append, last_append, last_singleton]

theorem last_eq_none {L : List E} {r : R} : last act L r = none ↔ ∀ e ∈ L, act e r = none := by
  simp [last]

/-- What was last written was written by an entry. -/
theorem exists_of_last {L : List E} {r : R} {v : V} (h : last act L r = some v) :
    ∃ e ∈ L, act e r = some v := by
  obtain ⟨e, he, hv⟩ := List.exists_of_findSome?_eq_some h
  exact ⟨e, List.mem_reverse.1 he, hv⟩

/-- **A register holds what was last written to it**, or else its first value. -/
theorem replay_eq (σ : R → V) (L : List E) (r : R) :
    replay act σ L r = (last act L r).getD (σ r) := by
  induction L generalizing σ with
  | nil => rfl
  | cons e L ih =>
    rw [replay, List.foldl_cons, ← replay, ih, last_cons]
    cases last act L r <;> simp [apply]

theorem replay_append (σ : R → V) (L L' : List E) :
    replay act σ (L ++ L') = replay act (replay act σ L) L' := List.foldl_append

theorem replay_append_singleton (σ : R → V) (L : List E) (e : E) (r : R) :
    replay act σ (L ++ [e]) r = (act e r).getD (replay act σ L r) := by
  rw [replay_append]; rfl

/-- What was last written, and the entry that wrote it. -/
theorem last_eq_some_iff {L : List E} {r : R} {v : V} : last act L r = some v ↔
    ∃ A e B, L = A ++ e :: B ∧ act e r = some v ∧ ∀ e' ∈ B, act e' r = none := by
  rw [last, List.findSome?_eq_some_iff]
  constructor
  · rintro ⟨B, e, A, hL, he, hB⟩
    refine ⟨A.reverse, e, B.reverse, ?_, he, fun e' he' => hB e' (List.mem_reverse.1 he')⟩
    rw [← List.reverse_reverse L, hL]
    simp
  · rintro ⟨A, e, B, rfl, he, hB⟩
    exact ⟨B.reverse, e, A.reverse, by simp, he, fun e' he' => hB e' (List.mem_reverse.1 he')⟩

/-- Registers that are written through a function hold its values. -/
theorem last_map {R' V' : Type} {act' : E → R' → Option V'} {f : V → V'} {L : List E} {r : R}
    {r' : R'} (h : ∀ e ∈ L, act' e r' = (act e r).map f) :
    last act' L r' = (last act L r).map f := by
  induction L with
  | nil => rfl
  | cons e L ih =>
    rw [last_cons, last_cons, ih fun e' he' => h e' (List.mem_cons_of_mem _ he'),
      h e List.mem_cons_self]
    cases last act L r <;> simp

/-- **A register that is only ever written one value** holds it, if it held or was written it. -/
theorem replay_of_unique {σ : R → V} {L : List E} {r : R} {v : V}
    (hall : ∀ e ∈ L, ∀ w, act e r = some w → w = v) (hsome : v ≠ σ r → ∃ e ∈ L, act e r = some v) :
    replay act σ L r = v := by
  rw [replay_eq]
  cases hlast : last act L r with
  | some w =>
    obtain ⟨e, he, hw⟩ := exists_of_last hlast
    exact hall e he w hw
  | none =>
    by_contra hne
    obtain ⟨e, he, hw⟩ := hsome (Ne.symm hne)
    rw [last_eq_none.1 hlast e he] at hw
    cases hw

/-- A register that each entry writes with one value, if it is the entry's own, holds that value if
    it is one of theirs. -/
theorem replay_map_of_own {E' : Type} [DecidableEq R] {f : E' → E} {own : E' → R} {L : List E'}
    {σ : R → V} {r : R} {v : V} (h : ∀ e ∈ L, act (f e) r = if r = own e then some v else none) :
    replay act σ (L.map f) r = if r ∈ L.map own then v else σ r := by
  split_ifs with hr
  · refine replay_of_unique (fun e he w hw => ?_) fun _ => ?_
    · obtain ⟨e, hmem, rfl⟩ := List.mem_map.1 he
      rw [h e hmem] at hw
      split_ifs at hw
      exact (Option.some.inj hw).symm
    · obtain ⟨e, he, rfl⟩ := List.mem_map.1 hr
      exact ⟨f e, List.mem_map_of_mem he, by rw [h e he, if_pos rfl]⟩
  · have hnone : last act (L.map f) r = none := by
      refine last_eq_none.2 fun e he => ?_
      obtain ⟨e, hmem, rfl⟩ := List.mem_map.1 he
      rw [h e hmem, if_neg]
      rintro rfl
      exact hr (List.mem_map_of_mem hmem)
    rw [replay_eq, hnone, Option.getD_none]

/-- **Replaying a log on its own result changes nothing.** -/
theorem replay_replay (σ : R → V) (L : List E) :
    replay act (replay act σ L) L = replay act σ L := by
  funext r
  rw [replay_eq, replay_eq σ]
  cases last act L r <;> rfl

end Overwrite
