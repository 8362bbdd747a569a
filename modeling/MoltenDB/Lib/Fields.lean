/-
  Key-sorted association lists: the contents of an ordered map as a list, for
  types (such as syntax trees) that contain maps of themselves.

  The operations agree with those of an ordered map on sorted lists; the lookup
  laws need no sortedness.
-/
import Mathlib.Tactic

set_option linter.unusedSectionVars false

namespace Fields

variable {K α : Type} [Ord K]

/-- Bind `k` to `v`, in place of any binding of `k`. -/
def insert (k : K) (v : α) (l : List (K × α)) : List (K × α) :=
  l.filter (fun p => compare p.1 k == .lt) ++ (k, v) :: l.filter (fun p => compare k p.1 == .lt)

/-- Remove the binding of `k`. -/
def erase [DecidableEq K] (k : K) (l : List (K × α)) : List (K × α) :=
  l.filter fun p => !(p.1 == k)

/-- The bindings are in strictly increasing order of keys. -/
def Sorted (l : List (K × α)) : Prop := l.Pairwise fun p q => compare p.1 q.1 = .lt

instance (l : List (K × α)) : Decidable (Sorted l) := inferInstanceAs (Decidable (List.Pairwise _ _))

theorem sorted_of_keys {l : List (K × α)}
    (h : (l.map Prod.fst).Pairwise fun a b => compare a b = .lt) : Sorted l :=
  List.pairwise_map.1 h

/-- Insert all of `l` from left to right: the last binding of a key stays. -/
def insertAll (l : List (K × α)) (m : List (K × α)) : List (K × α) :=
  l.foldl (fun m p => insert p.1 p.2 m) m

variable [Std.TransOrd K] [Std.LawfulEqOrd K] [DecidableEq K]

theorem compare_eq_iff {a b : K} : compare a b = .eq ↔ a = b := Std.LawfulEqOrd.compare_eq_iff_eq

theorem ne_of_lt {a b : K} (h : compare a b = .lt) : a ≠ b := by
  rintro rfl; rw [Std.ReflOrd.compare_self] at h; cases h

theorem lt_trichotomy (a b : K) : compare a b = .lt ∨ a = b ∨ compare b a = .lt := by
  cases h : compare a b with
  | lt => exact Or.inl rfl
  | eq => exact Or.inr (Or.inl (compare_eq_iff.1 h))
  | gt => exact Or.inr (Or.inr (Std.OrientedCmp.lt_of_gt h))

theorem lookup_filter (p : K → Bool) (k : K) (l : List (K × α)) :
    (l.filter fun q => p q.1).lookup k = if p k then l.lookup k else none := by
  induction l with
  | nil => simp
  | cons q l ih =>
    obtain ⟨a, v⟩ := q
    by_cases ha : k = a
    · subst ha; cases hp : p k <;> simp [hp, ih]
    · have hb : (k == a) = false := by simpa using ha
      cases hp : p a <;> simp [hp, List.lookup_cons, hb, ih]

theorem lookup_insert (k k' : K) (v : α) (l : List (K × α)) :
    (insert k v l).lookup k' = if k' = k then some v else l.lookup k' := by
  rw [insert, List.lookup_append, List.lookup_cons, lookup_filter (fun a => compare a k == .lt),
    lookup_filter (fun a => compare k a == .lt)]
  rcases lt_trichotomy k' k with h | rfl | h
  · have hne := ne_of_lt h
    have hgt : compare k k' ≠ .lt := by rw [Std.OrientedCmp.gt_of_lt h]; simp
    have hb : (k' == k) = false := by simpa using hne
    cases hl : l.lookup k' <;> simp [h, hne, hgt, hb]
  · simp
  · have hne := (ne_of_lt h).symm
    have hlt : compare k' k ≠ .lt := by rw [Std.OrientedCmp.gt_of_lt h]; simp
    have hb : (k' == k) = false := by simpa using hne
    simp [h, hne, hlt, hb]

theorem lookup_erase (k k' : K) (l : List (K × α)) :
    (erase k l).lookup k' = if k' = k then none else l.lookup k' := by
  rw [erase, lookup_filter (fun a => !(a == k))]
  by_cases h : k' = k <;> simp [h]

theorem mem_of_lookup {k : K} {v : α} {l : List (K × α)} (h : l.lookup k = some v) :
    (k, v) ∈ l := by
  induction l with
  | nil => simp at h
  | cons q l ih =>
    obtain ⟨a, w⟩ := q
    rw [List.lookup_cons] at h
    by_cases hk : k = a
    · subst hk; simp at h; simp [h]
    · rw [show (k == a) = false by simpa using hk] at h
      exact List.mem_cons_of_mem _ (ih h)

/-- A key is inserted once: the other bindings are old ones under other keys. -/
theorem mem_insert {k a : K} {v w : α} {l : List (K × α)} :
    (a, w) ∈ insert k v l ↔ (a = k ∧ w = v) ∨ (a ≠ k ∧ (a, w) ∈ l) := by
  simp only [insert, List.mem_append, List.mem_cons, List.mem_filter, Prod.mk.injEq, beq_iff_eq]
  constructor
  · rintro (⟨h1, h2⟩ | ⟨h1, h2⟩ | ⟨h1, h2⟩)
    · exact Or.inr ⟨ne_of_lt h2, h1⟩
    · exact Or.inl ⟨h1, h2⟩
    · exact Or.inr ⟨(ne_of_lt h2).symm, h1⟩
  · rintro (⟨h1, h2⟩ | ⟨h1, h2⟩)
    · exact Or.inr (Or.inl ⟨h1, h2⟩)
    · rcases lt_trichotomy a k with h | h | h
      · exact Or.inl ⟨h2, h⟩
      · exact absurd h h1
      · exact Or.inr (Or.inr ⟨h2, h⟩)

/-- A binding that is replaced counts no more. -/
theorem sum_insert_le (f : K × α → ℕ) (k : K) (v : α) (l : List (K × α)) :
    ((insert k v l).map f).sum ≤ f (k, v) + (l.map f).sum := by
  have hle : ((l.filter fun p => compare p.1 k == .lt).map f).sum +
      ((l.filter fun p => compare k p.1 == .lt).map f).sum ≤ (l.map f).sum := by
    induction l with
    | nil => simp
    | cons q l ih =>
      have hn : ¬ (compare q.1 k = .lt ∧ compare k q.1 = .lt) := by
        rintro ⟨h1, h2⟩; rw [Std.OrientedCmp.gt_of_lt h1] at h2; cases h2
      simp only [List.filter_cons, beq_iff_eq]
      split_ifs with h1 h2 <;> simp only [List.map_cons, List.sum_cons] <;>
        first | omega | exact absurd ⟨h1, h2⟩ hn
  simp only [insert, List.map_append, List.map_cons, List.sum_append, List.sum_cons]
  omega

theorem sum_insertAll_le (f : K × α → ℕ) (l m : List (K × α)) :
    ((insertAll l m).map f).sum ≤ (l.map f).sum + (m.map f).sum := by
  induction l generalizing m with
  | nil => simp [insertAll]
  | cons p l ih =>
    have h1 := ih (insert p.1 p.2 m)
    have h2 : ((insert p.1 p.2 m).map f).sum ≤ f p + (m.map f).sum := sum_insert_le f p.1 p.2 m
    simp only [insertAll, List.foldl_cons, List.map_cons, List.sum_cons] at h1 ⊢
    omega

theorem length_insertAll_le (l m : List (K × α)) :
    (insertAll l m).length ≤ l.length + m.length := by
  simpa using sum_insertAll_le (fun _ => 1) l m

/-- Inserting bindings adds no others. -/
theorem mem_of_mem_insertAll {p : K × α} {l m : List (K × α)} (h : p ∈ insertAll l m) :
    p ∈ l ∨ p ∈ m := by
  induction l generalizing m with
  | nil => exact Or.inr h
  | cons q l ih =>
    rcases ih h with h | h
    · exact Or.inl (List.mem_cons_of_mem _ h)
    · rcases mem_insert.1 h with ⟨h1, h2⟩ | ⟨-, h⟩
      · exact Or.inl (by rw [show p = q from Prod.ext h1 h2]; exact List.mem_cons_self)
      · exact Or.inr h

theorem Sorted.nodup_keys {l : List (K × α)} (h : Sorted l) : (l.map Prod.fst).Nodup :=
  List.pairwise_map.2 (h.imp fun hlt => ne_of_lt hlt)

theorem Sorted.insert {l : List (K × α)} (h : Sorted l) (k : K) (v : α) :
    Sorted (insert k v l) := by
  refine List.pairwise_append.2 ⟨h.filter _, List.pairwise_cons.2 ⟨?_, h.filter _⟩, ?_⟩
  · rintro q hq; simpa using (List.mem_filter.1 hq).2
  · intro p hp q hq
    have hpk : compare p.1 k = .lt := by simpa using (List.mem_filter.1 hp).2
    rcases List.mem_cons.1 hq with rfl | hq
    · exact hpk
    · exact Std.TransCmp.lt_trans hpk (by simpa using (List.mem_filter.1 hq).2)

theorem Sorted.insertAll {m : List (K × α)} (h : Sorted m) (l : List (K × α)) :
    Sorted (insertAll l m) := by
  induction l generalizing m with
  | nil => exact h
  | cons p l ih => exact ih (h.insert _ _)

/-- Inserting above all keys appends. -/
theorem insert_of_lt {k : K} {v : α} {l : List (K × α)} (h : ∀ p ∈ l, compare p.1 k = .lt) :
    insert k v l = l ++ [(k, v)] := by
  have h1 : l.filter (fun p => compare p.1 k == .lt) = l :=
    List.filter_eq_self.2 fun p hp => by simpa using h p hp
  have h2 : l.filter (fun p => compare k p.1 == .lt) = [] := by
    refine List.filter_eq_nil_iff.2 fun p hp => ?_
    rw [Std.OrientedCmp.gt_of_lt (h p hp)]; simp
  rw [Fields.insert, h1, h2]

/-- A sorted list without a key splits where the key would be. -/
theorem Sorted.filter_append {l : List (K × α)} (h : Sorted l) {k : K} (hk : l.lookup k = none) :
    l.filter (fun p => compare p.1 k == .lt) ++ l.filter (fun p => compare k p.1 == .lt) = l := by
  induction l with
  | nil => rfl
  | cons p l ih =>
    obtain ⟨hp, hl⟩ := List.pairwise_cons.1 h
    have hne : k ≠ p.1 := by
      rintro rfl
      simp at hk
    have hk' : l.lookup k = none := by
      rwa [List.lookup_cons, beq_eq_false_iff_ne.2 hne] at hk
    rcases lt_trichotomy p.1 k with hlt | heq | hgt
    · have hnot : (compare k p.1 == .lt) = false := by rw [Std.OrientedCmp.gt_of_lt hlt]; rfl
      rw [List.filter_cons_of_pos (by simp [hlt]), List.filter_cons_of_neg (by simp [hnot]),
        List.cons_append, ih hl hk']
    · exact absurd heq.symm hne
    · -- all keys are above
      have hall : ∀ q ∈ p :: l, compare k q.1 = .lt := by
        intro q hq
        rcases List.mem_cons.1 hq with rfl | hq
        · exact hgt
        · exact Std.TransCmp.lt_trans hgt (hp q hq)
      have hnone : ∀ q ∈ p :: l, ¬ (compare q.1 k == .lt) = true := by
        intro q hq
        rw [Std.OrientedCmp.gt_of_lt (hall q hq)]
        decide
      have habove : ∀ q ∈ p :: l, (compare k q.1 == .lt) = true := fun q hq => by simp [hall q hq]
      rw [List.filter_eq_nil_iff.2 hnone, List.filter_eq_self.2 habove, List.nil_append]

/-- Inserting the bindings of a sorted list in order rebuilds the list. -/
theorem insertAll_sorted {l m : List (K × α)} (h : Sorted (m ++ l)) : insertAll l m = m ++ l := by
  induction l generalizing m with
  | nil => simp [insertAll]
  | cons p l ih =>
    have hp : ∀ q ∈ m, compare q.1 p.1 = .lt := fun q hq =>
      (List.pairwise_append.1 h).2.2 q hq p (List.mem_cons_self ..)
    rw [show m ++ p :: l = (m ++ [p]) ++ l by simp] at h ⊢
    rw [← ih h, insertAll, List.foldl_cons, insert_of_lt hp]
    rfl

theorem insertAll_self {l : List (K × α)} (h : Sorted l) : insertAll l [] = l := by
  simpa using insertAll_sorted (m := []) (l := l) (by simpa using h)

/-- The last binding of a key in `l` is the one found after inserting `l`. -/
theorem lookup_insertAll (k : K) (l m : List (K × α)) :
    (insertAll l m).lookup k = (l.reverse.lookup k).or (m.lookup k) := by
  induction l generalizing m with
  | nil => simp [insertAll]
  | cons p l ih =>
    rw [show insertAll (p :: l) m = insertAll l (insert p.1 p.2 m) from rfl, ih, lookup_insert,
      List.reverse_cons, List.lookup_append, List.lookup_cons]
    by_cases h : k = p.1
    · subst h; cases l.reverse.lookup p.1 <;> simp
    · rw [show (k == p.1) = false by simpa using h]
      cases l.reverse.lookup k <;> simp [h]

/-! ## Lists in any order -/

/-- The bindings in the order of their keys. -/
def sort (l : List (K × α)) : List (K × α) := l.insertionSort fun p q => (compare p.1 q.1).isLE

/-- Inserting bindings leaves each of their keys bound. -/
theorem exists_mem_insertAll {p : K × α} {l m : List (K × α)} (h : p ∈ l) :
    ∃ v, (p.1, v) ∈ insertAll l m := by
  cases hl : (insertAll l m).lookup p.1 with
  | some v => exact ⟨v, mem_of_lookup hl⟩
  | none =>
    rw [lookup_insertAll, Option.or_eq_none_iff, List.lookup_eq_none_iff] at hl
    exact absurd rfl (bne_iff_ne.1 (hl.1 p (List.mem_reverse.2 h)))

theorem insert_perm {k : K} {v : α} {l : List (K × α)} (h : k ∉ l.map Prod.fst) :
    (insert k v l).Perm ((k, v) :: l) := by
  have hsplit : l.filter (fun p => compare k p.1 == .lt) =
      l.filter fun p => !(compare p.1 k == .lt) := by
    refine List.filter_congr fun p hp => ?_
    rcases lt_trichotomy p.1 k with hlt | heq | hlt
    · simp [hlt, Std.OrientedCmp.gt_of_lt hlt]
    · exact absurd (heq ▸ List.mem_map_of_mem hp) h
    · simp [hlt, Std.OrientedCmp.gt_of_lt hlt]
  rw [insert, hsplit]
  exact List.perm_middle.trans ((List.filter_append_perm _ l).cons _)

/-- Inserting bindings of distinct keys loses none. -/
theorem insertAll_perm {l m : List (K × α)} (h : ((l ++ m).map Prod.fst).Nodup) :
    (insertAll l m).Perm (l ++ m) := by
  induction l generalizing m with
  | nil => exact .refl _
  | cons p l ih =>
    rw [List.cons_append, List.map_cons, List.nodup_cons, List.map_append, List.mem_append,
      not_or] at h
    have hins : (insert p.1 p.2 m).Perm (p :: m) := insert_perm h.1.2
    have hperm : (l ++ insert p.1 p.2 m).Perm (p :: (l ++ m)) :=
      (hins.append_left l).trans List.perm_middle
    refine (ih ?_).trans hperm
    rw [(hperm.map Prod.fst).nodup_iff, List.map_cons, List.nodup_cons, List.map_append,
      List.mem_append, not_or]
    exact h

/-- **Inserting bindings of distinct keys sorts them.** -/
theorem insertAll_eq_sort {l : List (K × α)} (h : (l.map Prod.fst).Nodup) :
    insertAll l [] = sort l := by
  have hperm : (insertAll l []).Perm l := by simpa using insertAll_perm (m := []) (by simpa using h)
  have hsort : (sort l).Perm l := List.perm_insertionSort _ l
  have htotal : ∀ p q : K × α, (compare p.1 q.1).isLE ∨ (compare q.1 p.1).isLE := by
    intro p q
    rcases lt_trichotomy p.1 q.1 with hlt | heq | hlt
    · exact Or.inl (by rw [hlt]; rfl)
    · exact Or.inl (by rw [compare_eq_iff.2 heq]; rfl)
    · exact Or.inr (by rw [hlt]; rfl)
  have : IsTrans (K × α) fun p q => (compare p.1 q.1).isLE := ⟨fun _ _ _ => Std.TransCmp.isLE_trans⟩
  have : Std.Total fun p q : K × α => (compare p.1 q.1).isLE := ⟨htotal⟩
  refine List.Perm.eq_of_pairwise (fun p q hp hq hle hge => ?_) ?_
    (List.pairwise_insertionSort (fun p q : K × α => (compare p.1 q.1).isLE) l)
    (hperm.trans hsort.symm)
  · have hkey : p.1 = q.1 := compare_eq_iff.1 (Std.OrientedCmp.isLE_antisymm hle hge)
    exact List.inj_on_of_nodup_map h (hperm.mem_iff.1 hp) (hsort.mem_iff.1 hq) hkey
  · refine (Sorted.insertAll List.Pairwise.nil l).imp fun {p q} hlt => ?_
    rw [hlt]
    rfl

/-! ## Lists by their lookups -/

theorem lookup_of_mem {k : K} {v : α} {l : List (K × α)} (h : (l.map Prod.fst).Nodup)
    (hmem : (k, v) ∈ l) : l.lookup k = some v := by
  cases hl : l.lookup k with
  | none =>
    rw [List.lookup_eq_none_iff] at hl
    exact absurd rfl (bne_iff_ne.1 (hl _ hmem))
  | some w => exact congrArg some (Prod.ext_iff.1 (List.inj_on_of_nodup_map h (mem_of_lookup hl) hmem rfl)).2

theorem lookup_reverse {k : K} {l : List (K × α)} (h : (l.map Prod.fst).Nodup) :
    l.reverse.lookup k = l.lookup k := by
  cases hl : l.lookup k with
  | none =>
    rw [List.lookup_eq_none_iff] at hl ⊢
    exact fun p hp => hl p (List.mem_reverse.1 hp)
  | some v =>
    refine lookup_of_mem ?_ (List.mem_reverse.2 (mem_of_lookup hl))
    rw [List.map_reverse]
    exact List.nodup_reverse.2 h

/-- **Renaming keys**: a binding is found under its new key, if no other gets that key. -/
theorem lookup_insertAll_map {β : Type} {ρ : K → K} {φ : α → β} {l : List (K × α)}
    (hl : (l.map Prod.fst).Nodup) {k k' : K} (hk : ∀ p ∈ l, ρ p.1 = k ↔ p.1 = k') :
    (insertAll (l.map fun p => (ρ p.1, φ p.2)) []).lookup k = (l.lookup k').map φ := by
  cases hlook : (insertAll (l.map fun p => (ρ p.1, φ p.2)) []).lookup k with
  | none =>
    cases hold : l.lookup k' with
    | none => rfl
    | some v =>
      have hmem := mem_of_lookup hold
      obtain ⟨w, hw⟩ := exists_mem_insertAll (m := [])
        (List.mem_map_of_mem (f := fun p : K × α => (ρ p.1, φ p.2)) hmem)
      rw [(hk _ hmem).2 rfl] at hw
      rw [List.lookup_eq_none_iff] at hlook
      exact absurd rfl (bne_iff_ne.1 (hlook _ hw))
  | some w =>
    obtain ⟨p, hp, heq⟩ :=
      List.mem_map.1 ((mem_of_mem_insertAll (mem_of_lookup hlook)).resolve_right (by simp))
    obtain ⟨hkey, rfl⟩ := Prod.mk.inj heq
    obtain rfl := (hk p hp).1 hkey
    rw [lookup_of_mem hl hp]
    rfl

/-- **A sorted list is determined by its lookups.** -/
theorem Sorted.ext {l m : List (K × α)} (hl : Sorted l) (hm : Sorted m)
    (h : ∀ k, l.lookup k = m.lookup k) : l = m := by
  have hsub : ∀ {l m : List (K × α)}, Sorted l → (∀ k, l.lookup k = m.lookup k) → l ⊆ m := by
    intro l m hl h p hp
    have hlook := lookup_of_mem hl.nodup_keys hp
    rw [h] at hlook
    exact mem_of_lookup hlook
  have hperm : l.Perm m := (List.perm_ext_iff_of_nodup hl.nodup_keys.of_map hm.nodup_keys.of_map).2
    fun p => ⟨fun hp => hsub hl h hp, fun hp => hsub hm (fun k => (h k).symm) hp⟩
  refine List.Perm.eq_of_pairwise (fun p q _ _ hlt hgt => ?_) hl hm hperm
  rw [Std.OrientedCmp.gt_of_lt hlt] at hgt
  cases hgt

end Fields
