/-
  A projection and an exclusion by the same paths share the leaves of a document.

  A leaf is a value that is no object, under its path from the root.  The paths go one by one,
  and each takes what is under it: what is inserted into a projection is the part of the document
  there (`leafAt_insertNestedValue`), and what is removed from the document is as much
  (`leafAt_removeNestedValue`).
-/
import MoltenDB.Query.Projection

namespace MoltenDB

namespace Json

/-- The value at a path, if it is no object. -/
def leafAt (v : Json) (path : List String) : Option Json :=
  (v.getNestedValue path).filter fun w => !w.isObject

@[simp] theorem leafAt_obj_nil (fs : List (String × Json)) : (obj fs).leafAt [] = none := rfl

theorem leafAt_obj_cons (fs : List (String × Json)) (key : String) (path : List String) :
    (obj fs).leafAt (key :: path) = (fs.lookup key).bind fun v => v.leafAt path := by
  rw [leafAt, getNestedValue, get, asObject, Option.bind_some]
  cases fs.lookup key <;> rfl

@[simp] theorem leafAt_empty (path : List String) : (obj []).leafAt path = none := by
  cases path with
  | nil => rfl
  | cons key path => rw [leafAt_obj_cons, List.lookup_nil, Option.bind_none]

/-- There is nothing under a value that is no object. -/
theorem getNestedValue_of_not_object {v : Json} (h : ∀ fs, v ≠ obj fs) (key : String)
    (path : List String) : v.getNestedValue (key :: path) = none := by
  rw [getNestedValue, get]
  cases v with
  | obj fs => exact absurd rfl (h fs)
  | _ => rfl

theorem leafAt_nil_of_not_object {v : Json} (h : ∀ fs, v ≠ obj fs) : v.leafAt [] = some v := by
  cases v with
  | obj fs => exact absurd rfl (h fs)
  | _ => rfl

/-- A path with nothing at it leads to no leaf. -/
theorem leafAt_of_prefix {v : Json} {parts path : List String} (h : v.getNestedValue parts = none)
    (hpre : parts <+: path) : v.leafAt path = none := by
  obtain ⟨rest, rfl⟩ := hpre
  induction parts generalizing v with
  | nil => cases h
  | cons key parts ih =>
    rw [getNestedValue] at h
    rw [List.cons_append, leafAt, getNestedValue]
    cases hget : v.get key with
    | none => rfl
    | some w =>
      rw [hget] at h
      exact ih h

/-- All leaves of one object are leaves of another one. -/
def LeavesIn (target doc : List (String × Json)) : Prop :=
  ∀ path w, (obj target).leafAt path = some w → (obj doc).leafAt path = some w

theorem leavesIn_empty (doc : List (String × Json)) : LeavesIn [] doc := by
  intro path w h
  rw [leafAt_empty] at h
  cases h

theorem LeavesIn.child {target doc next sub : List (String × Json)} (h : LeavesIn target doc)
    {key : String} (ht : target.lookup key = some (obj next)) (hd : doc.lookup key = some (obj sub)) :
    LeavesIn next sub := by
  intro path w hw
  have hleaf := h (key :: path) w
  rw [leafAt_obj_cons, leafAt_obj_cons, ht, hd] at hleaf
  exact hleaf hw

end Json

open Json

variable {doc target : List (String × Json)} {path : List String}

theorem leafAt_insert (key : String) (value : Json) (target : List (String × Json))
    (path : List String) : (obj (Fields.insert key value target)).leafAt path =
      if [key] <+: path then value.leafAt path.tail else (obj target).leafAt path := by
  cases path with
  | nil => rfl
  | cons head path =>
    rw [leafAt_obj_cons, leafAt_obj_cons, Fields.lookup_insert]
    by_cases hkey : head = key
    · simp [hkey]
    · simp [hkey, Ne.symm hkey]

theorem leafAt_erase (key : String) (target : List (String × Json)) (path : List String) :
    (obj (Fields.erase key target)).leafAt path =
      if [key] <+: path then none else (obj target).leafAt path := by
  cases path with
  | nil => rfl
  | cons head path =>
    rw [leafAt_obj_cons, leafAt_obj_cons, Fields.lookup_erase]
    by_cases hkey : head = key
    · simp [hkey]
    · simp [hkey, Ne.symm hkey]

/-- **What is inserted at a path is the part of the document there.** -/
theorem leafAt_insertNestedValue {value : Json} {parts : List String}
    (hin : LeavesIn target doc) (hparts : parts ≠ [])
    (hvalue : (obj doc).getNestedValue parts = some value) :
    (obj (insertNestedValue value parts target)).leafAt path =
      if parts <+: path then (obj doc).leafAt path else (obj target).leafAt path := by
  induction parts generalizing target doc path with
  | nil => exact absurd rfl hparts
  | cons key parts ih =>
    rw [getNestedValue, Json.get, asObject, Option.bind_some] at hvalue
    obtain ⟨v, hv, hrest⟩ := Option.bind_eq_some_iff.1 hvalue
    cases parts with
    | nil =>
      obtain rfl : v = value := Option.some.inj hrest
      rw [insertNestedValue, leafAt_insert]
      cases path with
      | nil => rfl
      | cons head path =>
        by_cases hkey : head = key
        · simp [hkey, leafAt_obj_cons, hv]
        · simp [Ne.symm hkey]
    | cons part parts =>
      -- the value at the key is an object in the document, and so it is in the target
      obtain ⟨sub, rfl⟩ : ∃ sub, v = obj sub := by
        by_contra hno
        rw [getNestedValue_of_not_object fun sub h => hno ⟨sub, h⟩] at hrest
        cases hrest
      have hnext : ∃ next, (target.lookup key).getD (obj []) = obj next ∧ LeavesIn next sub ∧
          ∀ rest, (obj next).leafAt rest = (obj target).leafAt (key :: rest) := by
        cases ht : target.lookup key with
        | none =>
          refine ⟨[], rfl, leavesIn_empty sub, fun rest => ?_⟩
          rw [leafAt_empty, leafAt_obj_cons, ht, Option.bind_none]
        | some w =>
          obtain ⟨next, rfl⟩ : ∃ next, w = obj next := by
            by_contra hno
            have hw : ∀ next, w ≠ obj next := fun next h => hno ⟨next, h⟩
            have hleaf := hin [key] w
            rw [leafAt_obj_cons, leafAt_obj_cons, ht, hv] at hleaf
            have hcontra := hleaf (leafAt_nil_of_not_object hw)
            cases hcontra
          refine ⟨next, rfl, hin.child ht hv, fun rest => ?_⟩
          rw [leafAt_obj_cons, ht, Option.bind_some]
      obtain ⟨next, heq, hin', hrests⟩ := hnext
      rw [insertNestedValue]
      · rw [heq]
        dsimp only
        rw [leafAt_insert]
        cases path with
        | nil => rfl
        | cons head path =>
          by_cases hkey : head = key
          · subst hkey
            rw [if_pos (by simp), List.tail_cons, ih hin' (List.cons_ne_nil _ _) hrest, hrests,
              leafAt_obj_cons doc, hv, Option.bind_some]
            simp only [List.cons_prefix_cons, true_and]
          · simp [Ne.symm hkey]
      · exact List.cons_ne_nil _ _

/-- **What is removed at a path is what is under it.** -/
theorem leafAt_removeNestedValue {parts : List String} (hparts : parts ≠ []) :
    (obj (removeNestedValue parts target)).leafAt path =
      if parts <+: path then none else (obj target).leafAt path := by
  induction parts generalizing target path with
  | nil => exact absurd rfl hparts
  | cons key parts ih =>
    cases parts with
    | nil => exact leafAt_erase key target path
    | cons part parts =>
      rw [removeNestedValue]
      · split
        · rename_i child hchild
          have hrest : ∀ rest, (obj (removeNestedValue (part :: parts) child)).leafAt rest =
              if part :: parts <+: rest then none else (obj target).leafAt (key :: rest) := by
            intro rest
            rw [ih (List.cons_ne_nil _ _), leafAt_obj_cons, hchild, Option.bind_some]
          cases path with
          | nil =>
            dsimp only
            split_ifs <;> rfl
          | cons head path =>
            by_cases hkey : head = key
            · subst hkey
              simp only [List.cons_prefix_cons, true_and]
              rw [← hrest]
              split_ifs with hnil
              · rw [leafAt_erase, if_pos (by simp), hnil, leafAt_empty]
              · rw [leafAt_insert, if_pos (by simp), List.tail_cons]
            · dsimp only
              split_ifs with hnil hpre
              · exact absurd (List.cons_prefix_cons.1 hpre).1.symm hkey
              · rw [leafAt_erase, if_neg (by simp [Ne.symm hkey])]
              · exact absurd (List.cons_prefix_cons.1 ‹_›).1.symm hkey
              · rw [leafAt_insert, if_neg (by simp [Ne.symm hkey])]
        · rename_i hchild
          -- there is nothing at the path
          have hnone : (obj target).getNestedValue (key :: part :: parts) = none := by
            rw [getNestedValue, Json.get, asObject, Option.bind_some]
            cases hw : target.lookup key with
            | none => rfl
            | some w => exact getNestedValue_of_not_object (fun fs h => hchild fs (h ▸ hw)) _ _
          split_ifs with hpre
          · exact leafAt_of_prefix hnone hpre
          · rfl
      · exact List.cons_ne_nil _ _

/-! ## Lists of paths -/

/-- A path is in the list, or continues one that is. -/
def Under (paths : List String) (path : List String) : Prop :=
  ∃ f ∈ paths, splitDots f <+: path

instance (paths : List String) (path : List String) : Decidable (Under paths path) :=
  inferInstanceAs (Decidable (∃ f ∈ paths, splitDots f <+: path))

theorem under_cons {f : String} {paths : List String} :
    Under (f :: paths) path ↔ splitDots f <+: path ∨ Under paths path := by
  simp [Under]

/-- Steps that each take what is under one path take together what is under all of them. -/
theorem leafAt_foldl {step : List (String × Json) → String → List (String × Json)}
    {I : List (String × Json) → Prop} {T : List String → Option Json}
    (hkeep : ∀ target f, I target → I (step target f))
    (hstep : ∀ target f path, I target → (obj (step target f)).leafAt path =
      if splitDots f <+: path then T path else (obj target).leafAt path)
    (h : I target) (paths : List String) :
    (obj (paths.foldl step target)).leafAt path =
      if Under paths path then T path else (obj target).leafAt path := by
  induction paths generalizing target with
  | nil => simp [Under]
  | cons f paths ih =>
    rw [List.foldl_cons, ih (hkeep target f h), hstep target f path h]
    by_cases hunder : Under paths path
    · simp [hunder, under_cons]
    · simp [hunder, under_cons]

theorem leafAt_project (doc : List (String × Json)) (paths : List String) (path : List String) :
    (project (obj doc) (paths.map Json.str)).leafAt path =
      if Under paths path then (obj doc).leafAt path else none := by
  have hstep : ∀ (target : List (String × Json)) f val, LeavesIn target doc →
      (obj doc).getNestedValue (splitDots f) = some val → ∀ path,
        (obj (insertNestedValue val (splitDots f) target)).leafAt path =
          if splitDots f <+: path then (obj doc).leafAt path else (obj target).leafAt path :=
    fun target f val hin hval path => leafAt_insertNestedValue hin (splitDots_ne_nil f) hval
  rw [project, filterMap_asStr, leafAt_foldl (I := fun target => LeavesIn target doc)
    (T := (obj doc).leafAt) ?_ ?_ (leavesIn_empty doc), leafAt_empty]
  · intro target f hin
    cases hval : (obj doc).getNestedValue (splitDots f) with
    | none => exact hin
    | some val =>
      intro path w hw
      rw [hstep target f val hin hval] at hw
      split_ifs at hw
      · exact hw
      · exact hin path w hw
  · intro target f path hin
    cases hval : (obj doc).getNestedValue (splitDots f) with
    | none =>
      dsimp only
      split_ifs with hpre
      · have hnone := leafAt_of_prefix hval hpre
        rw [hnone]
        cases hleaf : (obj target).leafAt path with
        | none => rfl
        | some w => rw [hin path w hleaf] at hnone; cases hnone
      · rfl
    | some val => exact hstep target f val hin hval path

theorem leafAt_exclude (doc : List (String × Json)) (paths : List String) (path : List String) :
    (exclude (obj doc) (paths.map Json.str)).leafAt path =
      if Under paths path then none else (obj doc).leafAt path := by
  rw [exclude, filterMap_asStr]
  exact leafAt_foldl (I := fun _ => True) (fun _ _ _ => trivial)
    (fun _ f _ _ => leafAt_removeNestedValue (splitDots_ne_nil f)) trivial paths

/-- **Projection and exclusion are complementary**: by any paths, in any order and however often
    they are repeated, a leaf of the document is in the one or in the other. -/
theorem project_exclude_leaves (doc : List (String × Json)) (paths : List String) :
    (∀ path, (project (obj doc) (paths.map Json.str)).leafAt path =
      if Under paths path then (obj doc).leafAt path else none) ∧
    (∀ path, (exclude (obj doc) (paths.map Json.str)).leafAt path =
      if Under paths path then none else (obj doc).leafAt path) ∧
    ∀ paths' : List String, (∀ f, f ∈ paths' ↔ f ∈ paths) → ∀ path,
      (project (obj doc) (paths'.map Json.str)).leafAt path =
        (project (obj doc) (paths.map Json.str)).leafAt path ∧
      (exclude (obj doc) (paths'.map Json.str)).leafAt path =
        (exclude (obj doc) (paths.map Json.str)).leafAt path := by
  refine ⟨leafAt_project doc paths, leafAt_exclude doc paths, fun paths' hsame path => ?_⟩
  have hunder : Under paths' path ↔ Under paths path := by
    constructor
    · rintro ⟨f, hf, hpre⟩
      exact ⟨f, (hsame f).1 hf, hpre⟩
    · rintro ⟨f, hf, hpre⟩
      exact ⟨f, (hsame f).2 hf, hpre⟩
  rw [leafAt_project, leafAt_project, leafAt_exclude, leafAt_exclude]
  simp only [hunder, and_self]

end MoltenDB
