/-
  Lists split into groups by a key.

  The groups are collected in a map (`grouped`), and may be taken out of it in any order: they have
  the elements of the list, each in the group of its key (`flatMap_grouped_perm`).
-/
import MoltenDB.Lib.Maps

namespace Groups

variable {K E : Type} [Ord K] [Std.TransOrd K] [Std.LawfulEqOrd K] [DecidableEq K] (key : E → K)

/-- The elements by their keys, in the order of the list. -/
def grouped (xs : List E) : Map K (List E) :=
  xs.foldl (fun groups x => groups.alter (key x) fun group => some (group.getD [] ++ [x])) ∅

variable {key}

theorem get?_grouped (xs : List E) (k : K) :
    (grouped key xs)[k]? = if xs.filter (key · = k) = [] then none else some (xs.filter (key · = k)) := by
  induction xs using List.reverseRecOn with
  | nil => simp [grouped]
  | append_singleton xs x ih =>
    rw [grouped, List.foldl_append, ← grouped, List.foldl_cons, List.foldl_nil, Map.get?_alter,
      List.filter_append]
    by_cases hk : k = key x
    · subst hk
      rw [if_pos rfl, ih]
      split_ifs with hnil <;> simp_all
    · rw [if_neg hk, ih]
      simp [Ne.symm hk]

/-- A group has the elements of the list with its key. -/
theorem eq_of_get? {xs g : List E} {k : K} (h : (grouped key xs)[k]? = some g) :
    g = xs.filter (key · = k) := by
  rw [get?_grouped] at h
  split_ifs at h
  exact (Option.some.inj h).symm

omit [Ord K] [Std.TransOrd K] [Std.LawfulEqOrd K] in
/-- The elements of some keys, key by key. -/
theorem flatMap_filter_perm {ks : List K} (h : ks.Nodup) (xs : List E) :
    (ks.flatMap fun k => xs.filter (key · = k)).Perm (xs.filter (key · ∈ ks)) := by
  induction ks with
  | nil => simp
  | cons k ks ih =>
    rw [List.nodup_cons] at h
    rw [List.flatMap_cons]
    refine ((ih h.2).append_left _).trans ?_
    have hsplit := List.filter_append_perm (key · = k) (xs.filter (key · ∈ k :: ks))
    rw [List.filter_filter, List.filter_filter] at hsplit
    refine .trans (.of_eq ?_) hsplit
    congr 1
    · refine List.filter_congr fun x _ => ?_
      by_cases hx : key x = k <;> simp [hx]
    · refine List.filter_congr fun x _ => ?_
      by_cases hx : key x = k
      · simp [hx, h.1]
      · simp [hx]

/-- **The groups, taken in any order, have the elements of the list.** -/
theorem flatMap_grouped_perm {xs : List E} {ks : List K} (h : ks.Perm (grouped key xs).keys) :
    (((grouped key xs).inOrder ks).flatMap Prod.snd).Perm xs := by
  have hnodup : ks.Nodup := h.nodup_iff.2 (Map.nodup_keys _)
  have hmem : ∀ k, k ∈ ks ↔ ∃ g, (grouped key xs)[k]? = some g := fun k => by
    rw [h.mem_iff, Map.mem_keys]
  have hgroups : ∀ ks : List K, (∀ k ∈ ks, ∃ g, (grouped key xs)[k]? = some g) →
      ((grouped key xs).inOrder ks).flatMap Prod.snd = ks.flatMap fun k => xs.filter (key · = k) := by
    intro ks hks
    induction ks with
    | nil => rfl
    | cons k ks ih =>
      obtain ⟨g, hg⟩ := hks k List.mem_cons_self
      rw [List.flatMap_cons, ← ih fun k' hk' => hks k' (List.mem_cons_of_mem _ hk'), ← eq_of_get? hg]
      simp [Map.inOrder, hg]
  have hall : xs.filter (key · ∈ ks) = xs := by
    refine List.filter_eq_self.2 fun x hx => decide_eq_true ((hmem (key x)).2 ?_)
    rw [get?_grouped]
    split_ifs with hnil
    · exact absurd (List.mem_filter.2 ⟨hx, decide_eq_true rfl⟩) (by rw [hnil]; exact List.not_mem_nil)
    · exact ⟨_, rfl⟩
  rw [hgroups ks fun k hk => (hmem k).1 hk]
  exact (flatMap_filter_perm hnodup xs).trans (.of_eq hall)

end Groups
