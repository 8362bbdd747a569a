/-
  What a client sees of a value that was stored: decoded, with the public names of system fields.

  A field is found under the name it was stored under, unless that is an alias of a system field
  (`get_shown`).  A value without aliases comes back as it was (`shown_eq_self`), and nothing a
  client sees has an alias (`aliasFree_shown`).
-/
import MoltenDB.Common.SystemViews

namespace MoltenDB

open Wire SystemFields

namespace Json

/-- A value as a client sees it once it is stored. -/
def shown (v : Json) : Json := expandSystemFields v.canon

/-- No field of an object has the alias of a system field as its name. -/
def aliasFreeHere : Json → Bool
  | obj fs => fs.all fun p => !aliases.contains p.1
  | _ => true

/-- No object in the value has a field with the alias of a system field as its name. -/
def AliasFree (v : Json) : Prop := v.every aliasFreeHere = true

instance (v : Json) : Decidable v.AliasFree := inferInstanceAs (Decidable (_ = true))

theorem aliasFree_arr {xs : List Json} : (arr xs).AliasFree ↔ ∀ x ∈ xs, x.AliasFree := by
  simp [AliasFree, every_arr, aliasFreeHere]

theorem aliasFree_obj {fs : List (String × Json)} :
    (obj fs).AliasFree ↔ ∀ p ∈ fs, p.1 ∉ aliases ∧ p.2.AliasFree := by
  simp only [AliasFree, every_obj, aliasFreeHere, List.all_eq_true, Bool.not_eq_true',
    List.contains_eq_mem, decide_eq_false_iff_not]
  exact ⟨fun h p hp => ⟨h.1 p hp, h.2 p hp⟩, fun h => ⟨fun p hp => (h p hp).1, fun p hp => (h p hp).2⟩⟩

/-! ## Lookups -/

theorem internalName_not_public (key : String) : internalName key ∉ publicNames := by
  rcases name_cases key with h | h
  · rw [internalName_of_none h]
    have hall : ∀ name ∈ publicNames, tokenOf name ≠ none := by decide
    exact fun hmem => hall key hmem h
  · revert key
    decide


theorem sorted_canonFields (fs : List (String × Json)) :
    Fields.Sorted (Fields.insertAll (fs.map canonField) []) :=
  Fields.Sorted.insertAll List.Pairwise.nil _

/-- **A decoded field**: a public name goes before its alias. -/
theorem get_canon {fs : List (String × Json)} (hfs : Fields.Sorted fs) {key : String}
    (hkey : key ∉ aliases) :
    (obj fs).canon.get (internalName key) =
      ((fs.lookup key).or (fs.lookup (internalName key))).map canon := by
  rcases name_cases key with h | h
  · have hname : ∀ p ∈ fs, internalName p.1 = key ↔ p.1 = key := by
      intro p _
      constructor
      · intro heq
        have htok := tokenOf_internalName p.1
        rw [heq, h] at htok
        rwa [internalName_of_none htok.symm] at heq
      · rintro rfl
        exact internalName_of_none h
    have hlook := Fields.lookup_insertAll_map (ρ := internalName) (φ := canon) hfs.nodup_keys hname
    rw [internalName_of_none h, Option.or_self, canon_obj, get_obj]
    exact hlook
  · obtain ⟨t, hfield⟩ := exists_systemField ((List.mem_append.1 h).resolve_right hkey)
    exact hfield.get_canon hfs

/-- The keys of a decoded object are internal names. -/
theorem exists_internalName {fs : List (String × Json)} {q : String × Json}
    (hq : q ∈ Fields.insertAll (fs.map canonField) []) :
    ∃ p ∈ fs, q = (internalName p.1, p.2.canon) := by
  obtain ⟨p, hp, rfl⟩ := List.mem_map.1 ((Fields.mem_of_mem_insertAll hq).resolve_right (by simp))
  exact ⟨p, hp, rfl⟩

/-- A decoded object has no public names. -/
theorem get_canon_public (v : Json) {key : String} (hkey : key ∈ publicNames) :
    v.canon.get key = none := by
  cases v with
  | obj fs =>
    rw [canon_obj, get_obj, List.lookup_eq_none_iff]
    intro q hq
    obtain ⟨p, -, rfl⟩ := exists_internalName hq
    rw [bne_iff_ne]
    rintro rfl
    exact internalName_not_public p.1 hkey
  | _ => rfl

theorem shown_arr (xs : List Json) : (arr xs).shown = arr (xs.map shown) := by
  rw [shown, canon_arr, expandSystemFields_arr, List.map_map]
  rfl

theorem shown_obj (fs : List (String × Json)) :
    (obj fs).shown =
      obj (Fields.insertAll ((Fields.insertAll (fs.map canonField) []).map expandField) []) := by
  rw [shown, canon_obj, expandSystemFields_obj]

/-- **A stored field, as a client sees it.** -/
theorem get_shown {fs : List (String × Json)} (hfs : Fields.Sorted fs) {key : String}
    (hkey : key ∉ aliases) :
    (obj fs).shown.get key = ((fs.lookup key).or (fs.lookup (internalName key))).map shown := by
  have hname : ∀ q ∈ Fields.insertAll (fs.map canonField) [],
      publicName q.1 = key ↔ q.1 = internalName key := by
    intro q hq
    obtain ⟨p, -, rfl⟩ := exists_internalName hq
    rw [publicName_internalName]
    constructor
    · rintro rfl
      rw [internalName_publicName]
    · intro heq
      have hpub : publicName (internalName p.1) = publicName (internalName key) :=
        congrArg publicName heq
      rwa [publicName_internalName, publicName_internalName, publicName_of_not_alias hkey] at hpub
  have hlook := Fields.lookup_insertAll_map (ρ := publicName) (φ := expandSystemFields)
    (sorted_canonFields fs).nodup_keys hname
  have hcanon := get_canon hfs hkey
  rw [canon_obj, get_obj] at hcanon
  rw [hcanon, Option.map_map] at hlook
  rw [shown_obj, get_obj]
  exact hlook

/-- **No alias is ever seen.** -/
theorem aliasFree_expand (v : Json) : (expandSystemFields v).AliasFree := by
  induction v with
  | null | bool | num | str => rfl
  | arr xs ih =>
    rw [expandSystemFields_arr, aliasFree_arr]
    intro x hx
    obtain ⟨y, hy, rfl⟩ := List.mem_map.1 hx
    exact ih y hy
  | obj fs ih =>
    rw [expandSystemFields_obj, aliasFree_obj]
    intro p hp
    obtain ⟨q, hq, rfl⟩ := List.mem_map.1 ((Fields.mem_of_mem_insertAll hp).resolve_right (by simp))
    exact ⟨publicName_not_alias q.1, ih q hq⟩

theorem get_shown_alias (v : Json) {key : String} (hkey : key ∈ aliases) :
    v.shown.get key = none := by
  cases hget : v.shown.get key with
  | none => rfl
  | some x =>
    have hfree : v.shown.AliasFree := aliasFree_expand v.canon
    cases hv : v.shown with
    | obj gs =>
      rw [hv] at hfree hget
      exact absurd hkey (aliasFree_obj.1 hfree _ (Fields.mem_of_lookup hget)).1
    | _ => simp [hv, get, asObject] at hget

/-- **A value without aliases is read back as it was stored.** -/
theorem shown_eq_self {v : Json} (ho : v.Ordered) (ha : v.AliasFree) : v.shown = v := by
  induction v with
  | null | bool | num | str => rfl
  | arr xs ih =>
    rw [ordered_arr] at ho
    rw [aliasFree_arr] at ha
    rw [shown_arr]
    congr 1
    exact (List.map_congr_left fun x hx => ih x hx (ho x hx) (ha x hx)).trans (List.map_id' xs)
  | obj fs ih =>
    rw [ordered_obj] at ho
    rw [aliasFree_obj] at ha
    have hnone : ∀ key ∈ aliases, fs.lookup key = none := by
      intro key hkey
      refine List.lookup_eq_none_iff.2 fun p hp => bne_iff_ne.2 ?_
      rintro rfl
      exact (ha p hp).1 hkey
    rw [shown_obj]
    congr 1
    refine Fields.Sorted.ext (Fields.Sorted.insertAll List.Pairwise.nil _) ho.1 fun key => ?_
    have hget : (obj fs).shown.get key = fs.lookup key := by
      by_cases hkey : key ∈ aliases
      · rw [get_shown_alias _ hkey, hnone key hkey]
      · have hor : (fs.lookup key).or (fs.lookup (internalName key)) = fs.lookup key := by
          by_cases hsame : internalName key = key
          · rw [hsame, Option.or_self]
          · rw [hnone _ (internalName_alias hsame), Option.or_none]
        rw [get_shown ho.1 hkey, hor]
        cases hl : fs.lookup key with
        | none => rfl
        | some x =>
          have hmem := Fields.mem_of_lookup hl
          rw [Option.map_some, ih _ hmem (ho.2 _ hmem) (ha _ hmem).2]
    rw [shown_obj, get_obj] at hget
    exact hget

end Json

end MoltenDB
