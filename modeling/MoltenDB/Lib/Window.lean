/-
  Times in a sliding window.

  If each time has fewer than `max` others in the window before it, no interval that is shorter
  than the window, or half-open and as long, holds more than `max` of them
  (`Sparse.length_filter_le`).
-/
import Mathlib.Tactic

namespace Window

variable {α T : Type} [LinearOrder T] {time : α → T} {c d : T} {l l' : List α} {a : α}

/-- What comes after the time `c`. -/
def since (time : α → T) (c : T) (l : List α) : List α := l.filter fun a => c < time a

theorem since_append : since time c (l ++ l') = since time c l ++ since time c l' :=
  List.filter_append _ _

/-- What was forgotten before an earlier time does not count. -/
theorem since_since (h : c ≤ d) : since time d (since time c l) = since time d l := by
  rw [since, since, List.filter_filter]
  refine List.filter_congr fun a _ => ?_
  by_cases hd : d < time a
  · simp [hd, h.trans_lt hd]
  · simp [hd]

theorem since_congr (h : since time c l = since time c l') (hle : c ≤ d) :
    since time d l = since time d l' := by
  rw [← since_since hle, h, since_since hle]

/-- Of times in order something is forgotten exactly when the first is. -/
theorem length_since_lt (hl : l.Pairwise fun a b => time a ≤ time b) (ha : l.head? = some a) :
    (since time c l).length < l.length ↔ time a ≤ c := by
  obtain ⟨l, rfl⟩ := List.head?_eq_some_iff.1 ha
  constructor
  · intro hlt
    by_contra hc
    -- all of them come after `c`
    have hall : since time c (a :: l) = a :: l := by
      refine List.filter_eq_self.2 fun b hb => decide_eq_true ?_
      rcases List.mem_cons.1 hb with rfl | hb
      · exact not_le.1 hc
      · exact (not_le.1 hc).trans_le ((List.pairwise_cons.1 hl).1 b hb)
    rw [hall] at hlt
    exact lt_irrefl _ hlt
  · intro hc
    rw [since, List.filter_cons_of_neg (by simpa using hc), List.length_cons]
    exact Nat.lt_succ_of_le (List.length_filter_le _ l)

section

variable [AddCommGroup T] {max : ℕ} {width : T}

/-- Each time has fewer than `max` others in the window before it. -/
inductive Sparse (time : α → T) (max : ℕ) (width : T) : List α → Prop
  | nil : Sparse time max width []
  | snoc {l : List α} {a : α} (h : Sparse time max width l)
      (hlt : (since time (time a - width) l).length < max) : Sparse time max width (l ++ [a])

variable [IsOrderedAddMonoid T]

/-- **No interval of the width holds more than `max` times.** -/
theorem Sparse.length_filter_le (h : Sparse time max width l) {p : α → Prop} [DecidablePred p]
    (hp : ∀ a b, p a → p b → time b < time a + width) : (l.filter p).length ≤ max := by
  induction h with
  | nil => exact Nat.zero_le max
  | @snoc l a h hlt ih =>
    rw [List.filter_append]
    by_cases hpa : p a
    · -- the others of the interval are in the window before its last time
      have hsub : (l.filter p).length ≤ (since time (time a - width) l).length := by
        refine (List.monotone_filter_right l fun b hpb => ?_).length_le
        exact decide_eq_true (sub_lt_iff_lt_add.2 (hp b a (of_decide_eq_true hpb) hpa))
      rw [List.filter_cons_of_pos (by simpa using hpa), List.filter_nil, List.length_append]
      exact hsub.trans_lt hlt
    · rw [List.filter_cons_of_neg (by simpa using hpa), List.filter_nil, List.append_nil]
      exact ih

theorem Sparse.length_Ico_le (h : Sparse time max width l) (t : T) :
    (l.filter fun a => t ≤ time a ∧ time a < t + width).length ≤ max :=
  h.length_filter_le fun _ _ ha hb => hb.2.trans_le (add_le_add_left ha.1 width)

theorem Sparse.length_Ioc_le (h : Sparse time max width l) (t : T) :
    (l.filter fun a => t < time a ∧ time a ≤ t + width).length ≤ max :=
  h.length_filter_le fun _ _ ha hb => hb.2.trans_lt (add_lt_add_left ha.1 width)

end

end Window
