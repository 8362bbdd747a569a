/-
  The document codec: a decoded document is the encoded one with the public names of
  the system fields replaced by their internal ones, and nothing else changed.
-/
import MoltenDB.Common.RoundTrip

namespace MoltenDB

open Wire SystemFields

/-- A public system name is replaced by its alias, any other key is kept. -/
def renameKey (key : String) : String :=
  if key = VERSION then IKEY_VERSION
  else if key = KEY then IKEY_KEY
  else if key = SEQ then IKEY_SEQ
  else if key = CREATED_AT then IKEY_CREATED_AT
  else if key = MODIFIED_AT then IKEY_MODIFIED_AT
  else if key = EXPIRES_AT then IKEY_EXPIRES_AT
  else key

theorem renameKey_of_not_public {key : String} (h : key ∉ publicNames) : renameKey key = key := by
  simp only [publicNames, List.mem_cons, List.not_mem_nil, or_false, not_or] at h
  simp [renameKey, h]

/-- Decoding replaces the public names, and an alias is read back as itself. -/
theorem internalName_eq_renameKey (key : String) : internalName key = renameKey key := by
  by_cases hp : key ∈ publicNames
  · simp only [publicNames, List.mem_cons, List.not_mem_nil, or_false] at hp
    rcases hp with rfl | rfl | rfl | rfl | rfl | rfl <;> rfl
  · rw [renameKey_of_not_public hp]
    by_cases ha : key ∈ aliases
    · simp only [aliases, List.mem_cons, List.not_mem_nil, or_false] at ha
      rcases ha with rfl | rfl | rfl | rfl | rfl | rfl <;> rfl
    · simp only [publicNames, aliases, List.mem_cons, List.not_mem_nil, or_false, not_or] at hp ha
      exact internalName_of_none (by simp [tokenOf, hp, ha])

namespace Json

mutual
/-- The value with the public system names, in every object, replaced by their aliases. -/
def rename : Json → Json
  | arr xs => arr (renameItems xs)
  | obj fs => obj (Fields.sort (renameFields fs))
  | v => v

def renameItems : List Json → List Json
  | [] => []
  | x :: xs => rename x :: renameItems xs

def renameFields : List (String × Json) → List (String × Json)
  | [] => []
  | (k, v) :: fs => (renameKey k, rename v) :: renameFields fs
end

/-- No field of an object has its public name while another has the alias of that name. -/
def unambiguousHere : Json → Bool
  | obj fs => fs.all fun p => renameKey p.1 = p.1 || (fs.lookup (renameKey p.1)).isNone
  | _ => true

/-- No object in the value has a field under its public name and one under its alias. -/
def Unambiguous (v : Json) : Prop := v.every unambiguousHere = true

instance (v : Json) : Decidable v.Unambiguous := inferInstanceAs (Decidable (_ = true))

theorem renameItems_eq (xs : List Json) : renameItems xs = xs.map rename := by
  induction xs with
  | nil => rfl
  | cons x xs ih => rw [renameItems, ih, List.map_cons]

/-- A field under the alias of its name, with its value renamed. -/
def renameField (p : String × Json) : String × Json := (renameKey p.1, p.2.rename)

theorem renameFields_eq (fs : List (String × Json)) : renameFields fs = fs.map renameField := by
  induction fs with
  | nil => rfl
  | cons p fs ih => rw [renameFields, ih, List.map_cons, renameField]

/-- Public names have different aliases. -/
theorem renameKey_inj {k k' : String} (hk : renameKey k ≠ k) (hk' : renameKey k' ≠ k')
    (h : renameKey k = renameKey k') : k = k' := by
  have hpub : ∀ {key}, renameKey key ≠ key → key ∈ publicNames := fun hne => by
    by_contra hp
    exact hne (renameKey_of_not_public hp)
  have hinj : ∀ a ∈ publicNames, ∀ b ∈ publicNames, renameKey a = renameKey b → a = b := by decide
  exact hinj k (hpub hk) k' (hpub hk') h

/-- Unless an alias is taken, the renamed keys of an object are distinct. -/
theorem nodup_renamed {fs : List (String × Json)} (hs : Fields.Sorted fs)
    (hu : unambiguousHere (obj fs) = true) : ((fs.map renameField).map Prod.fst).Nodup := by
  simp only [unambiguousHere, List.all_eq_true, Bool.or_eq_true, decide_eq_true_eq,
    Option.isNone_iff_eq_none] at hu
  have hfree : ∀ p ∈ fs, ∀ q ∈ fs, renameKey p.1 ≠ p.1 → q.1 ≠ renameKey p.1 := by
    intro p hp q hq hne heq
    have hnone := (hu p hp).resolve_left hne
    rw [List.lookup_eq_none_iff] at hnone
    simpa [heq] using hnone q hq
  have hnodup := hs.nodup_keys
  rw [List.map_map]
  refine hnodup.of_map.map_on fun p hp q hq heq => ?_
  have hkey : renameKey p.1 = renameKey q.1 := heq
  refine List.inj_on_of_nodup_map hnodup hp hq ?_
  by_cases hne : renameKey p.1 = p.1 <;> by_cases hne' : renameKey q.1 = q.1
  · rw [← hne, hkey, hne']
  · exact absurd (hne.symm.trans hkey) (hfree q hq p hp hne')
  · exact absurd (hne'.symm.trans hkey.symm) (hfree p hp q hq hne)
  · exact renameKey_inj hne hne' hkey

/-- **A value is decoded as the renamed one**, unless a public name meets its alias. -/
theorem canon_eq_rename {v : Json} (ho : v.Ordered) (hu : v.Unambiguous) : v.canon = v.rename := by
  induction v with
  | null | bool | num | str => rfl
  | arr xs ih =>
    rw [Ordered, every_arr] at ho
    rw [Unambiguous, every_arr] at hu
    rw [canon_arr, rename, renameItems_eq]
    congr 1
    exact List.map_congr_left fun x hx => ih x hx (ho.2 x hx) (hu.2 x hx)
  | obj fs ih =>
    rw [Ordered, every_obj] at ho
    rw [Unambiguous, every_obj] at hu
    have hfields : fs.map canonField = fs.map renameField := by
      refine List.map_congr_left fun p hp => ?_
      rw [canonField, renameField, internalName_eq_renameKey, ih p hp (ho.2 p hp) (hu.2 p hp)]
    have hsorted : Fields.Sorted fs := of_decide_eq_true ho.1
    rw [canon_obj, hfields, Fields.insertAll_eq_sort (nodup_renamed hsorted hu.1), rename,
      renameFields_eq]

end Json

/-- **The document codec round-trips**: a document is read back with its public system names
    replaced by their aliases and nothing else changed, and exactly its bytes are read. -/
theorem document_roundTrip {v : Json} (hfits : v.Fits) (ho : v.Ordered) (hu : v.Unambiguous) :
    msgpackToValue (valueToMsgpack v) = some v.rename ∧
      ∀ rest : Bytes, readValue (valueToMsgpack v ++ rest).length (valueToMsgpack v ++ rest) =
        some (v.rename, rest) := by
  rw [← Json.canon_eq_rename ho hu]
  refine ⟨msgpackToValue_valueToMsgpack hfits, fun rest => ?_⟩
  exact readValue_writeValue hfits _ (by simp [valueToMsgpack]) rest

/-- A document with system fields under public and internal names, at two depths. -/
def nestedDoc : Json :=
  .obj [("-3", .ofU64 7), ("_v", .ofU64 300), ("tags", .arr [.str "x", .null,
    .obj [("_key", .str "k"), ("n", .num (.negInt (-40000) (by decide)))]])]

theorem document_roundTrip_nested :
    msgpackToValue (valueToMsgpack nestedDoc) = some nestedDoc.rename ∧
      ∀ rest : Bytes, readValue (valueToMsgpack nestedDoc ++ rest).length
        (valueToMsgpack nestedDoc ++ rest) = some (nestedDoc.rename, rest) :=
  document_roundTrip (by decide +kernel) (by decide +kernel) (by decide +kernel)

/-! ## Lengths above 32 bits -/

/-- An array of `2 ^ 32` items is written with the header of an empty one. -/
theorem writeValue_long {xs : List Json} (h : xs.length = 2 ^ 32) :
    writeValue (.arr xs) = [0xdd, 0, 0, 0, 0] ++ xs.flatMap writeValue := by
  have hheader : writeArrayHeader (2 ^ 32) = [0xdd, 0, 0, 0, 0] := by decide
  rw [writeValue, h, hheader, writeItems_eq]

/-- `2 ^ 32` nulls. -/
def longNulls : Json := .arr (List.replicate (2 ^ 32) .null)

theorem writeValue_longNulls :
    ∃ rest, writeValue longNulls = [0xdd, 0, 0, 0, 0] ++ ([0xc0, 0xc0] ++ rest) := by
  obtain ⟨n, hn⟩ : ∃ n, 2 ^ 32 = n + 1 + 1 := ⟨2 ^ 32 - 2, rfl⟩
  refine ⟨(List.replicate n Json.null).flatMap writeValue, ?_⟩
  rw [longNulls, writeValue_long List.length_replicate, hn, List.replicate_succ,
    List.replicate_succ]
  rfl

theorem every_longNulls {p : Json → Bool} (harr : p longNulls = true) (hnull : p .null = true) :
    longNulls.every p = true := by
  rw [longNulls, Json.every_arr]
  refine ⟨harr, fun x hx => ?_⟩
  rw [List.eq_of_mem_replicate hx]
  exact hnull

end MoltenDB
