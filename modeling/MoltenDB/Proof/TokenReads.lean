/-
  A system field read from the bytes of a document.

  The scan passes over each key and value that it does not look for, whatever its width, so that it
  looks at leading bytes of keys only: the byte it finds is the key of the field.
-/
import MoltenDB.Common.SystemViews
import MoltenDB.Proof.DocumentCodec

namespace MoltenDB

open Wire SystemFields

/-- The value of a system field of an object, under its public name or its alias. -/
def Json.systemValue (v : Json) (name : String) : Option Json :=
  (v.get name).or (v.get (renameKey name))

/-- **The token reader finds the field** of an object that has at most one spelling of it: its value,
    if it is an unsigned integer, among other fields of any kind that are skipped. -/
theorem token_read [Crates] {fs : List (String × Json)} (hfits : (Json.obj fs).Fits)
    (ho : (Json.obj fs).Ordered) (hskips : ∀ p ∈ fs, p.2.Skips) {name : String}
    (hname : name ∈ publicNames) {token : UInt8} (htoken : tokenOf name = some token)
    (hone : (Json.obj fs).get name = none ∨ (Json.obj fs).get (renameKey name) = none) :
    readTokenU64 (valueToMsgpack (.obj fs)) token =
      ((Json.obj fs).systemValue name).bind Json.asU64 := by
  obtain ⟨t, hfield⟩ := exists_systemField hname
  obtain rfl : t = token := Option.some.inj (((hfield.token name).2 (Or.inl rfl)).symm.trans htoken)
  have hsorted : Fields.Sorted fs := (Json.ordered_obj.1 ho).1
  rw [readTokenU64_of_skips hfits hskips hfield.high, hfield.tokenField_eq hsorted,
    internalName_eq_renameKey, Json.systemValue]
  change ((((Json.obj fs).get (renameKey name)).or ((Json.obj fs).get name)).bind Json.asU64) = _
  rcases hone with hnone | hnone
  · rw [hnone, Option.or_none, Option.none_or]
  · rw [hnone, Option.or_none, Option.none_or]

/-- The fields of a document with a number, a version and a nested version. -/
def versionFields : List (String × Json) :=
  [("-3", .ofU64 7), ("_v", .ofU64 300), ("doc", .obj [("_v", .ofU64 1)])]

theorem token_read_version :
    letI := Crates.plain
    readTokenU64 (valueToMsgpack (.obj versionFields)) TOK_VERSION =
      ((Json.obj versionFields).systemValue VERSION).bind Json.asU64 := by
  let _ := Crates.plain
  refine token_read (by decide +kernel) (by decide +kernel) (fun p hp => ?_) (by decide) rfl
    (by decide +kernel)
  have hvalues : ∀ p ∈ versionFields, p.2.Fits ∧ p.2.depth ≤ 1000 := by decide +kernel
  obtain ⟨hfits, hdepth⟩ := hvalues p hp
  exact Crates.ignoredAny_writeValue p.2 hfits hdepth

/-! ## Lengths above 32 bits -/

/-- A document with an array in front of its version. -/
def longVersioned : Json := .obj [("A", longNulls), ("_v", .ofU64 7)]

/-- **After an array of `2 ^ 32` nulls the version is not found**: the first two nulls are taken for
    the second field. -/
theorem token_read_long :
    letI := Crates.plain
    longVersioned.Ordered ∧ (longVersioned.systemValue VERSION).bind Json.asU64 = some 7 ∧
      readTokenU64 (valueToMsgpack longVersioned) TOK_VERSION = none := by
  let _ := Crates.plain
  refine ⟨?_, ?_, ?_⟩
  · have hkeys : ["A", "_v"].Pairwise fun a b => compare a b = .lt := by decide
    refine Json.ordered_obj.2 ⟨Fields.sorted_of_keys hkeys, fun p hp => ?_⟩
    simp only [List.mem_cons, List.not_mem_nil, or_false] at hp
    rcases hp with rfl | rfl
    · exact every_longNulls rfl rfl
    · rfl
  · rfl
  · obtain ⟨rest, hlong⟩ := writeValue_longNulls
    have hbytes : valueToMsgpack longVersioned = writeMapHeader 2 ++ (0xa1 :: 0x41 ::
        ([0xdd, 0, 0, 0, 0] ++ ([0xc0, 0xc0] ++ (rest ++ writeField ("_v", .ofU64 7))))) := by
      rw [valueToMsgpack, longVersioned, writeValue, writeFields_eq, List.flatMap_cons,
        List.flatMap_singleton, writeField]
      dsimp only
      rw [hlong]
      simp only [List.append_assoc]
      rfl
    rw [hbytes, readTokenU64, readMapHeader_writeMapHeader (by decide)]
    rfl

end MoltenDB
