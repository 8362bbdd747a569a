/-
  Schedules: lists of steps, taken one after another.

  Where no step is taken twice, a step splits the schedule in one way only
  (`split_unique`), and what comes before it is what stands on its left.
-/
import Mathlib.Tactic

namespace Schedule

variable {α : Type}

/-- The step `a` is taken before the step `b`. -/
def Before (T : List α) (a b : α) : Prop := [a, b].Sublist T

instance [DecidableEq α] (T : List α) (a b : α) : Decidable (Before T a b) :=
  inferInstanceAs (Decidable ([a, b].Sublist T))

theorem before_iff {T : List α} {a b : α} :
    Before T a b ↔ ∃ A B, T = A ++ B ∧ a ∈ A ∧ b ∈ B := by
  simp only [Before, @List.cons_sublist_iff _ a [b], List.singleton_sublist]

theorem Before.mem {T : List α} {a b : α} (h : Before T a b) : a ∈ T ∧ b ∈ T :=
  ⟨h.subset (by simp), h.subset (by simp)⟩

theorem before_of_left {A B : List α} {a b : α} (h : a ∈ A) : Before (A ++ b :: B) a b :=
  before_iff.2 ⟨A, b :: B, rfl, h, List.mem_cons_self⟩

theorem before_of_right {A B : List α} {a b : α} (h : b ∈ B) : Before (A ++ a :: B) a b :=
  before_iff.2 ⟨A ++ [a], B, by simp, by simp, h⟩

theorem notMem_left {A B : List α} {a : α} (hT : (A ++ a :: B).Nodup) : a ∉ A :=
  fun ha => (List.nodup_append.1 hT).2.2 a ha a List.mem_cons_self rfl

theorem notMem_right {A B : List α} {a : α} (hT : (A ++ a :: B).Nodup) : a ∉ B :=
  (List.nodup_cons.1 (List.nodup_append.1 hT).2.1).1

/-- A step that is taken once splits the schedule in one way. -/
theorem split_unique {T A B A' B' : List α} {a : α} (hT : T.Nodup) (h : T = A ++ a :: B)
    (h' : T = A' ++ a :: B') : A = A' ∧ B = B' := by
  rw [h] at hT
  obtain ⟨hAA, -, hBB⟩ :=
    (List.append_cons_inj_of_notMem (notMem_left hT) (notMem_right hT)).1 (h.symm.trans h')
  exact ⟨hAA, hBB⟩

/-- Of two places in a schedule one comes first. -/
theorem split_cases {A B A' B' : List α} {a b : α} (h : A ++ a :: B = A' ++ b :: B') (hne : a ≠ b) :
    (∃ C, A' = A ++ a :: C) ∨ ∃ C, A = A' ++ b :: C := by
  rcases List.append_eq_append_iff.1 h with ⟨C, rfl, hC⟩ | ⟨C, rfl, hC⟩
  · cases C with
    | nil => exact absurd (List.cons.inj hC).1 hne
    | cons c C =>
      obtain ⟨rfl, -⟩ := List.cons.inj hC
      exact Or.inl ⟨C, rfl⟩
  · cases C with
    | nil => exact absurd (List.cons.inj hC).1.symm hne
    | cons c C =>
      obtain ⟨rfl, -⟩ := List.cons.inj hC
      exact Or.inr ⟨C, rfl⟩

theorem mem_left_of_before {A B : List α} {a b : α} (hT : (A ++ b :: B).Nodup)
    (h : Before (A ++ b :: B) a b) : a ∈ A := by
  obtain ⟨X, Y, heq, ha, hb⟩ := before_iff.1 h
  obtain ⟨Y₁, Y₂, rfl⟩ := List.append_of_mem hb
  obtain ⟨rfl, -⟩ := split_unique hT rfl (heq.trans (List.append_assoc X Y₁ _).symm)
  exact List.mem_append_left _ ha

theorem mem_right_of_before {A B : List α} {a b : α} (hT : (A ++ a :: B).Nodup)
    (h : Before (A ++ a :: B) a b) : b ∈ B := by
  obtain ⟨X, Y, heq, ha, hb⟩ := before_iff.1 h
  obtain ⟨X₁, X₂, rfl⟩ := List.append_of_mem ha
  rw [List.append_assoc, List.cons_append] at heq
  obtain ⟨-, rfl⟩ := split_unique hT rfl heq
  exact List.mem_append_right _ hb

theorem before_or_before {T : List α} {a b : α} (ha : a ∈ T) (hb : b ∈ T) (hne : a ≠ b) :
    Before T a b ∨ Before T b a := by
  obtain ⟨A, B, rfl⟩ := List.append_of_mem ha
  rcases List.mem_append.1 hb with hb | hb
  · exact Or.inr (before_of_left hb)
  · exact Or.inl (before_of_right ((List.mem_cons.1 hb).resolve_left hne.symm))

theorem Before.asymm {T : List α} {a b : α} (hT : T.Nodup) (h : Before T a b) : ¬ Before T b a := by
  intro h'
  obtain ⟨A, B, rfl, ha, hb⟩ := before_iff.1 h
  obtain ⟨B₁, B₂, rfl⟩ := List.append_of_mem hb
  rw [← List.append_assoc] at hT h'
  have ha' := mem_right_of_before hT h'
  rw [List.append_assoc] at hT
  exact (List.nodup_append.1 hT).2.2 a ha a (by simp [ha']) rfl

theorem Before.trans {T : List α} {a b c : α} (hT : T.Nodup) (h : Before T a b)
    (h' : Before T b c) : Before T a c := by
  obtain ⟨A, B, rfl, ha, hb⟩ := before_iff.1 h
  obtain ⟨B₁, B₂, rfl⟩ := List.append_of_mem hb
  rw [← List.append_assoc] at hT h'
  exact before_iff.2 ⟨A, B₁ ++ b :: B₂, rfl, ha,
    List.mem_append_right _ (List.mem_cons_of_mem _ (mem_right_of_before hT h'))⟩

/-- If every party takes each of its steps once, no step is taken twice. -/
theorem nodup_of_parties [DecidableEq α] {β : Type} [DecidableEq β] (party : α → β) {T : List α}
    (h : ∀ p, (T.filter fun a => party a = p).Nodup) : T.Nodup := by
  refine List.nodup_iff_count_le_one.2 fun a => ?_
  rw [← List.count_filter (p := fun x => party x = party a) (by simp)]
  exact List.nodup_iff_count_le_one.1 (h (party a)) a

end Schedule
