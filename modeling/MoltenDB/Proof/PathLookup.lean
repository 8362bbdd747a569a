/-
  Paths followed in encoded documents.

  A segment that is no name of a system field is found in the bytes as in the value, so the lookup
  in the bytes ends at the value that the lookup in the document gives.
-/
import MoltenDB.Proof.DocumentCodec
import MoltenDB.Query.Lookup

namespace MoltenDB

open Wire SystemFields

/-! ## Paths of user names -/

/-- A segment that is neither a public name nor an alias of a system field. -/
def UserSegment (segment : String) : Prop := segment ∉ publicNames ∧ segment ∉ aliases

theorem UserSegment.tokenOf_eq_none {segment : String} (h : UserSegment segment) :
    tokenOf segment = none := by
  rcases name_cases segment with hnone | hname
  · exact hnone
  · exact absurd (List.mem_append.1 hname) (not_or.2 h)

namespace Json

theorem lookup_filter_user {segment : String} (h : tokenOf segment = none)
    (fs : List (String × Json)) :
    (fs.filter fun p => (tokenOf p.1).isNone).lookup segment = fs.lookup segment := by
  induction fs with
  | nil => rfl
  | cons p fs ih =>
    obtain ⟨k, v⟩ := p
    by_cases hk : segment = k
    · subst hk
      simp [h]
    · have hb : (segment == k) = false := by simpa using hk
      cases htok : tokenOf k <;> simp [htok, List.lookup_cons, hb, ih]

theorem storedField_eq_get {v : Json} {segment : String} (h : tokenOf segment = none) :
    v.storedField segment = v.get segment := by
  cases v with
  | obj fs => exact lookup_filter_user h fs
  | _ => rfl

theorem storedValue_eq_getNestedValue {v : Json} {parts : List String} (hne : parts ≠ [])
    (hparts : ∀ segment ∈ parts, tokenOf segment = none) :
    v.storedValue parts = v.getNestedValue parts := by
  induction parts generalizing v with
  | nil => exact absurd rfl hne
  | cons segment parts ih =>
    have hsegment := storedField_eq_get (v := v) (hparts segment List.mem_cons_self)
    cases parts with
    | nil =>
      rw [storedValue, hsegment, getNestedValue]
      cases v.get segment <;> rfl
    | cons part parts =>
      rw [storedValue, hsegment, getNestedValue]
      · exact Option.bind_congr fun w _ => ih (List.cons_ne_nil _ _) fun segment hmem =>
          hparts segment (List.mem_cons_of_mem _ hmem)
      · exact List.cons_ne_nil _ _

/-- What is at a path lies in the value. -/
theorem part_of_storedValue {v w : Json} {parts : List String} (h : v.storedValue parts = some w) :
    w.Part v := by
  induction parts generalizing v with
  | nil => cases h
  | cons segment parts ih =>
    cases parts with
    | nil =>
      obtain ⟨fs, rfl, hmem⟩ := mem_of_storedField h
      exact .field hmem .refl
    | cons part parts =>
      rw [storedValue] at h
      · obtain ⟨x, hx, hrest⟩ := Option.bind_eq_some_iff.1 h
        obtain ⟨fs, rfl, hmem⟩ := mem_of_storedField hx
        exact .field hmem (ih hrest)
      · exact List.cons_ne_nil _ _

end Json

/-- **A path is found in the bytes of a document exactly when it is in the document**, and the
    bytes from there on are decoded as the value, with the system names in it renamed. -/
theorem path_lookup [Crates] {d : Json} (hfits : d.Fits) (ho : d.Ordered) (hu : d.Unambiguous)
    (hskip : d.Skippable) {parts : List String} (hne : parts ≠ [])
    (hparts : ∀ segment ∈ parts, UserSegment segment) :
    (findMsgpackValue (valueToMsgpack d) parts = none ↔ d.getNestedValue parts = none) ∧
      ∀ slice, findMsgpackValue (valueToMsgpack d) parts = some slice →
        ∃ y, d.getNestedValue parts = some y ∧ msgpackToValue slice = some y.rename := by
  have hfinds := findMsgpackValue_of_skippable hfits hskip parts []
  rw [List.append_nil] at hfinds
  have hstored := Json.storedValue_eq_getNestedValue (v := d) hne
    fun segment hmem => (hparts segment hmem).tokenOf_eq_none
  rw [← hstored, valueToMsgpack]
  cases hvalue : d.storedValue parts with
  | none =>
    rw [hvalue] at hfinds
    refine ⟨iff_of_true hfinds rfl, fun slice hslice => ?_⟩
    rw [hfinds] at hslice
    cases hslice
  | some y =>
    rw [hvalue] at hfinds
    obtain ⟨rest, hfound⟩ := hfinds
    rw [hfound]
    refine ⟨by simp, fun slice hslice => ⟨y, rfl, ?_⟩⟩
    obtain rfl := Option.some.inj hslice
    have hpart := Json.part_of_storedValue hvalue
    rw [msgpackToValue, readValue_writeValue (hpart.every hfits) _ (by simp),
      Json.canon_eq_rename (hpart.every ho) (hpart.every hu)]
    rfl

theorem path_lookup_nested :
    letI := Crates.plain
    (findMsgpackValue (valueToMsgpack nestedDoc) ["tags"] = none ↔
      nestedDoc.getNestedValue ["tags"] = none) ∧
      ∀ slice, findMsgpackValue (valueToMsgpack nestedDoc) ["tags"] = some slice →
        ∃ y, nestedDoc.getNestedValue ["tags"] = some y ∧ msgpackToValue slice = some y.rename := by
  let _ := Crates.plain
  exact path_lookup (by decide +kernel) (by decide +kernel) (by decide +kernel)
    (Json.skippable_of_depth_le (by decide +kernel) (by decide +kernel)) (by decide)
    (by unfold UserSegment; decide)

end MoltenDB
