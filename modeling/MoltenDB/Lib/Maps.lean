/-
  Finite maps over an ordered key type, seen through their lookups.
-/
import Mathlib.Tactic

set_option linter.unusedSectionVars false

/-- A finite map; maps with the same lookups are equal. -/
abbrev Map (K V : Type) [Ord K] := Std.ExtTreeMap K V compare

namespace Map

variable {K V : Type} [Ord K] [Std.TransOrd K] [Std.LawfulEqOrd K] [DecidableEq K]

theorem compare_eq_iff {a b : K} : compare a b = .eq ↔ a = b := Std.LawfulEqOrd.compare_eq_iff_eq

theorem get?_insert (m : Map K V) (k a : K) (v : V) :
    (m.insert k v)[a]? = if a = k then some v else m[a]? := by
  rw [Std.ExtTreeMap.getElem?_insert]; simp only [compare_eq_iff, eq_comm (a := a)]

theorem get?_erase (m : Map K V) (k a : K) :
    (m.erase k)[a]? = if a = k then none else m[a]? := by
  rw [Std.ExtTreeMap.getElem?_erase]; simp only [compare_eq_iff, eq_comm (a := a)]

theorem get?_alter (m : Map K V) (k a : K) (f : Option V → Option V) :
    (m.alter k f)[a]? = if a = k then f m[k]? else m[a]? := by
  rw [Std.ExtTreeMap.getElem?_alter]; simp only [compare_eq_iff, eq_comm (a := a)]

@[simp] theorem get?_empty (a : K) : (∅ : Map K V)[a]? = none := Std.ExtTreeMap.getElem?_empty

theorem ext_get? {m m' : Map K V} (h : ∀ k : K, m[k]? = m'[k]?) : m = m' :=
  Std.ExtTreeMap.ext_getElem? h

theorem erase_eq_self {m : Map K V} {k : K} (h : m[k]? = none) : m.erase k = m := by
  refine ext_get? fun a => ?_
  rw [get?_erase]
  split_ifs with ha
  · rw [ha, h]
  · rfl

theorem erase_eq_self_iff {m : Map K V} {k : K} : m.erase k = m ↔ m[k]? = none := by
  refine ⟨fun h => ?_, erase_eq_self⟩
  rw [← h, get?_erase, if_pos rfl]

theorem insert_eq_self_iff {m : Map K V} {k : K} {v : V} : m.insert k v = m ↔ m[k]? = some v := by
  constructor
  · intro h
    rw [← h, get?_insert, if_pos rfl]
  · intro h
    refine ext_get? fun a => ?_
    rw [get?_insert]
    split_ifs with ha
    · rw [ha, h]
    · rfl

theorem mem_toList {m : Map K V} {k : K} {v : V} : (k, v) ∈ m.toList ↔ m[k]? = some v :=
  Std.ExtTreeMap.mem_toList_iff_getElem?_eq_some

theorem mem_keys {m : Map K V} {k : K} : k ∈ m.keys ↔ ∃ v, m[k]? = some v := by
  rw [Std.ExtTreeMap.mem_keys, Std.ExtTreeMap.mem_iff_isSome_getElem?, Option.isSome_iff_exists]

theorem nodup_keys (m : Map K V) : m.keys.Nodup :=
  m.distinct_keys.imp fun h => by rwa [compare_eq_iff] at h

/-- The bindings of `m` in the order of `ks`. -/
def inOrder (m : Map K V) (ks : List K) : List (K × V) :=
  ks.filterMap fun k => m[k]?.map fun v => (k, v)

theorem mem_inOrder {m : Map K V} {ks : List K} {k : K} {v : V} :
    (k, v) ∈ m.inOrder ks ↔ k ∈ ks ∧ m[k]? = some v := by
  simp only [inOrder, List.mem_filterMap, Option.map_eq_some_iff, Prod.mk.injEq]
  constructor
  · rintro ⟨_, h, _, h2, rfl, rfl⟩; exact ⟨h, h2⟩
  · rintro ⟨h, h2⟩; exact ⟨k, h, v, h2, rfl, rfl⟩

/-- The keys of the bindings in the order of `ks` are those of `ks` that are bound. -/
theorem map_fst_inOrder (m : Map K V) (ks : List K) :
    (m.inOrder ks).map Prod.fst = ks.filter fun k => m[k]?.isSome := by
  induction ks with
  | nil => rfl
  | cons k ks ih =>
    rw [inOrder] at ih
    rw [inOrder, List.filterMap_cons, List.filter_cons]
    cases h : m[k]? with
    | none => exact ih
    | some v => exact congrArg (k :: ·) ih

theorem map_fst_inOrder_perm {m : Map K V} {ks : List K} (h : ks.Perm m.keys) :
    (m.inOrder ks).map Prod.fst = ks := by
  rw [map_fst_inOrder, List.filter_eq_self]
  intro k hk
  obtain ⟨v, hv⟩ := mem_keys.1 (h.mem_iff.1 hk)
  simp [hv]

theorem lookup_inOrder (m : Map K V) (ks : List K) (k : K) :
    (m.inOrder ks).lookup k = if k ∈ ks then m[k]? else none := by
  induction ks with
  | nil => rfl
  | cons a ks ih =>
    rw [inOrder] at ih
    rw [inOrder, List.filterMap_cons]
    by_cases hk : k = a
    · subst hk
      cases h : m[k]? with
      | none => simp [ih, h]
      | some v => simp
    · have hb : (k == a) = false := by simpa using hk
      cases h : m[a]? with
      | none => simp [ih, hk]
      | some v => simp [List.lookup_cons, hb, ih, hk]

theorem lookup_inOrder_perm {m : Map K V} {ks : List K} (h : ks.Perm m.keys) (k : K) :
    (m.inOrder ks).lookup k = m[k]? := by
  rw [lookup_inOrder]
  split_ifs with hk
  · rfl
  · cases hv : m[k]? with
    | none => rfl
    | some v => exact absurd (h.mem_iff.2 (mem_keys.2 ⟨v, hv⟩)) hk

theorem length_inOrder {m : Map K V} {ks : List K} (h : ks.Perm m.keys) :
    (m.inOrder ks).length = m.size := by
  rw [← List.length_map, map_fst_inOrder_perm h, h.length_eq, Std.ExtTreeMap.length_keys]

theorem inOrder_perm {m : Map K V} {ks : List K} (h : ks.Perm m.keys) :
    (m.inOrder ks).Perm m.toList := by
  have h1 : (m.inOrder ks).Nodup := by
    refine List.Nodup.of_map Prod.fst ?_
    rw [map_fst_inOrder_perm h]
    exact h.nodup_iff.2 (nodup_keys m)
  have h2 : m.toList.Nodup := by
    refine List.Nodup.of_map Prod.fst ?_
    rw [Std.ExtTreeMap.map_fst_toList_eq_keys]
    exact nodup_keys m
  refine (List.perm_ext_iff_of_nodup h1 h2).2 fun ⟨k, v⟩ => ?_
  rw [mem_inOrder, mem_toList, h.mem_iff, mem_keys]
  exact ⟨fun h => h.2, fun h => ⟨⟨v, h⟩, h⟩⟩

end Map
