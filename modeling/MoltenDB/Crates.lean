/-
  The third-party code the program calls, with the documented behaviour that the
  program relies on.
-/
import MoltenDB.Common.RoundTrip

namespace MoltenDB

open Wire

class Crates where
  /-- `IgnoredAny::deserialize` of `rmp_serde`: the bytes after the value at the front. -/
  ignoredAny : Bytes → Option Bytes
  /-- A value is skipped whole, unless it is nested too deep for the deserializer. -/
  ignoredAny_writeValue (v : Json) (hv : v.Fits) (hd : v.depth ≤ 1000) (rest : Bytes) :
    ignoredAny (writeValue v ++ rest) = some rest
  /-- `jsonschema::validator_for`: the validator of a schema, or why it is none. -/
  validatorFor : Json → Except String (Json → Bool)
  /-- What a finished `GzEncoder` of `flate2` wrote for the given bytes. -/
  gzip : Bytes → Bytes
  /-- The bytes that a `GzDecoder` of `flate2` yields before its end or an error. -/
  gunzip : Bytes → Bytes
  gunzip_gzip (bytes : Bytes) : gunzip (gzip bytes) = bytes

/-- An instance to evaluate the model with: values are skipped by reading them, every
    schema accepts everything, and compressed bytes are kept as they are. -/
@[reducible] def Crates.plain : Crates where
  ignoredAny buf := (readValue buf.length buf).map Prod.snd
  ignoredAny_writeValue v hv _ rest := by rw [readValue_writeValue hv _ (by simp)]; rfl
  validatorFor _ := .ok fun _ => true
  gzip bytes := bytes
  gunzip bytes := bytes
  gunzip_gzip _ := rfl

/-! ## Values that are skipped -/

namespace Json

/-- The value is `v`, or an item or a field in it. -/
inductive Part (w : Json) : Json → Prop
  | refl : Part w w
  | item {xs : List Json} {x : Json} (hx : x ∈ xs) (h : Part w x) : Part w (arr xs)
  | field {fs : List (String × Json)} {p : String × Json} (hp : p ∈ fs) (h : Part w p.2) :
      Part w (obj fs)

/-- What holds everywhere in a value holds everywhere in its parts. -/
theorem Part.every {p : Json → Bool} {v w : Json} (h : w.Part v) (hv : v.every p = true) :
    w.every p = true := by
  induction h with
  | refl => exact hv
  | item hx _ ih => exact ih ((every_arr.1 hv).2 _ hx)
  | field hp _ ih => exact ih ((every_obj.1 hv).2 _ hp)

theorem Part.depth_le {v w : Json} (h : w.Part v) : w.depth ≤ v.depth := by
  induction h with
  | refl => exact le_rfl
  | item hx _ ih => exact ih.trans (depth_lt_arr hx).le
  | field hp _ ih => exact ih.trans (depth_lt_obj hp).le

variable [Crates]

/-- The deserializer consumes the value, and nothing after it. -/
def Skips (v : Json) : Prop := ∀ rest, Crates.ignoredAny (writeValue v ++ rest) = some rest

/-- The values in `v`, at every depth, are skipped. -/
def Skippable (v : Json) : Prop := ∀ w : Json, w.Part v → w.Skips

theorem Skippable.item {xs : List Json} (h : (arr xs).Skippable) {x : Json} (hx : x ∈ xs) :
    x.Skippable := fun w hw => h w (.item hx hw)

theorem Skippable.field {fs : List (String × Json)} (h : (obj fs).Skippable) {p : String × Json}
    (hp : p ∈ fs) : p.2.Skippable := fun w hw => h w (.field hp hw)

theorem Skippable.skips {v : Json} (h : v.Skippable) : v.Skips := h v .refl

/-- What is nested no deeper than the deserializer goes is skipped. -/
theorem skippable_of_depth_le {v : Json} (hv : v.Fits) (hd : v.depth ≤ 1000) : v.Skippable :=
  fun w hw rest => Crates.ignoredAny_writeValue w (hw.every hv) (hw.depth_le.trans hd) rest

end Json

end MoltenDB
