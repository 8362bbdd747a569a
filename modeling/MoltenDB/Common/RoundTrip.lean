/-
  Decoding inverts encoding, up to the names of the system fields: a decoded
  document has them under their internal names (`Json.canon`).
-/
import MoltenDB.Common.Msgpack

namespace MoltenDB

open Wire

/-! ## Values whose lengths fit their headers -/

/-- The length of the value itself, and of its keys, is below `2 ^ 32`. -/
def Json.fitsHere : Json → Bool
  | .str s => (utf8 s).length < 2 ^ 32
  | .arr xs => xs.length < 2 ^ 32
  | .obj fs => fs.length < 2 ^ 32 && fs.all fun p => (utf8 p.1).length < 2 ^ 32
  | _ => true

/-- All strings, arrays and objects of the value are shorter than `2 ^ 32`. -/
def Json.Fits (v : Json) : Prop := v.every Json.fitsHere = true

instance (v : Json) : Decidable v.Fits := inferInstanceAs (Decidable (_ = true))

namespace Json

theorem fits_str {s : String} : (str s).Fits ↔ (utf8 s).length < 2 ^ 32 := by
  simp [Fits, every, fitsHere]

theorem fits_arr {xs : List Json} : (arr xs).Fits ↔ xs.length < 2 ^ 32 ∧ ∀ x ∈ xs, x.Fits := by
  simp [Fits, every_arr, fitsHere]

theorem fits_obj {fs : List (String × Json)} : (obj fs).Fits ↔
    fs.length < 2 ^ 32 ∧ ∀ p ∈ fs, (utf8 p.1).length < 2 ^ 32 ∧ p.2.Fits := by
  simp only [Fits, every_obj, fitsHere, Bool.and_eq_true, decide_eq_true_eq, List.all_eq_true]
  exact ⟨fun ⟨⟨h1, h2⟩, h3⟩ => ⟨h1, fun p hp => ⟨h2 p hp, h3 p hp⟩⟩,
    fun ⟨h1, h2⟩ => ⟨⟨h1, fun p hp => (h2 p hp).1⟩, fun p hp => (h2 p hp).2⟩⟩

/-! ## The decoded form of a value -/

mutual
/-- What a value is decoded as: system fields under their internal names, the
    last of several fields with one internal name. -/
def canon : Json → Json
  | arr xs => arr (canonItems xs)
  | obj fs => obj (Fields.insertAll (canonFields fs) [])
  | v => v

def canonItems : List Json → List Json
  | [] => []
  | x :: xs => canon x :: canonItems xs

def canonFields : List (String × Json) → List (String × Json)
  | [] => []
  | (k, v) :: fs => (internalName k, canon v) :: canonFields fs
end

/-- A field under its internal name, with its value decoded. -/
def canonField (p : String × Json) : String × Json := (internalName p.1, p.2.canon)

theorem canonItems_eq (xs : List Json) : canonItems xs = xs.map canon := by
  induction xs with
  | nil => rfl
  | cons x xs ih => rw [canonItems, ih, List.map_cons]

theorem canonFields_eq (fs : List (String × Json)) : canonFields fs = fs.map canonField := by
  induction fs with
  | nil => rfl
  | cons p fs ih => rw [canonFields, ih, List.map_cons, canonField]

theorem canon_arr (xs : List Json) : (arr xs).canon = arr (xs.map canon) := by
  rw [canon, canonItems_eq]

theorem canon_obj (fs : List (String × Json)) :
    (obj fs).canon = obj (Fields.insertAll (fs.map canonField) []) := by
  rw [canon, canonFields_eq]

theorem sorted_insertAll_nil (l : List (String × Json)) : Fields.Sorted (Fields.insertAll l []) :=
  Fields.Sorted.insertAll List.Pairwise.nil l

/-- **Decoding twice is decoding once.** -/
@[simp] theorem canon_canon (v : Json) : v.canon.canon = v.canon := by
  induction v with
  | null | bool | num | str => rfl
  | arr xs ih =>
    simp only [canon_arr, List.map_map, arr.injEq]
    exact List.map_congr_left fun x hx => ih x hx
  | obj fs ih =>
    have hfix : (Fields.insertAll (fs.map canonField) []).map canonField =
        Fields.insertAll (fs.map canonField) [] := by
      refine (List.map_congr_left (g := id) fun p hp => ?_).trans (List.map_id _)
      obtain ⟨q, hq, rfl⟩ := List.mem_map.1 ((Fields.mem_of_mem_insertAll hp).resolve_right (by simp))
      simp only [canonField, internalName_internalName, ih q hq, id_eq]
    simp only [canon_obj, hfix, Fields.insertAll_self (sorted_insertAll_nil _)]

theorem length_utf8_internalName {key : String} (h : (utf8 key).length < 2 ^ 32) :
    (utf8 (internalName key)).length < 2 ^ 32 := by
  rcases tokenOf_cases key with hk | hk
  · rwa [internalName_of_none hk]
  · simp only [List.mem_cons, List.not_mem_nil, or_false] at hk
    rcases hk with hk | hk | hk | hk | hk | hk <;> rw [internalName_of_some hk] <;> decide

theorem Fits.canon {v : Json} (h : v.Fits) : v.canon.Fits := by
  induction v with
  | null | bool | num | str => exact h
  | arr xs ih =>
    rw [fits_arr] at h
    rw [canon_arr, fits_arr, List.length_map]
    refine ⟨h.1, fun y hy => ?_⟩
    obtain ⟨x, hx, rfl⟩ := List.mem_map.1 hy
    exact ih x hx (h.2 x hx)
  | obj fs ih =>
    rw [fits_obj] at h
    have hlen := Fields.length_insertAll_le (fs.map canonField) []
    rw [canon_obj, fits_obj]
    refine ⟨by simp only [List.length_map, List.length_nil] at hlen; omega, fun p hp => ?_⟩
    obtain ⟨q, hq, rfl⟩ := List.mem_map.1 ((Fields.mem_of_mem_insertAll hp).resolve_right (by simp))
    exact ⟨length_utf8_internalName (h.2 q hq).1, ih q hq (h.2 q hq).2⟩

theorem depth_canon_le {v : Json} {n : ℕ} (h : v.depth ≤ n) : v.canon.depth ≤ n := by
  induction v generalizing n with
  | null | bool | num | str => exact h
  | arr xs ih =>
    cases n with
    | zero => simp [depth] at h
    | succ n =>
      rw [depth_arr_le_iff] at h
      rw [canon_arr, depth_arr_le_iff]
      intro y hy
      obtain ⟨x, hx, rfl⟩ := List.mem_map.1 hy
      exact ih x hx (h x hx)
  | obj fs ih =>
    cases n with
    | zero => simp [depth] at h
    | succ n =>
      rw [depth_obj_le_iff] at h
      rw [canon_obj, depth_obj_le_iff]
      intro p hp
      obtain ⟨q, hq, rfl⟩ :=
        List.mem_map.1 ((Fields.mem_of_mem_insertAll hp).resolve_right (by simp))
      exact ih q hq (h q hq)

end Json

/-! ## Headers -/

/-- The header `hd` announces, by `wrap`, a length that is read back as `len`. -/
def Announces (hd : Bytes) (wrap : Len → Head) (len : ℕ) : Prop :=
  ∃ byte tail l, hd = byte :: tail ∧ head byte = wrap l ∧
    ∀ rest, readLen l (tail ++ rest) = some (len, rest)

theorem announces_here {byte : UInt8} {wrap : Len → Head} {len : ℕ}
    (h : head byte = wrap (.here len)) : Announces [byte] wrap len :=
  ⟨byte, [], .here len, rfl, h, fun _ => rfl⟩

theorem announces_next {byte : UInt8} {wrap : Len → Head} {w len : ℕ}
    (h : head byte = wrap (.next w)) (hlen : len < 256 ^ w) :
    Announces (byte :: beBytes w len) wrap len :=
  ⟨byte, _, .next w, rfl, h, fun rest => by
    simp [readLen, Nat.mod_eq_of_lt hlen]⟩

theorem announces_strHeader {len : ℕ} (h : len < 2 ^ 32) :
    Announces (writeStrHeader len) .str len := by
  unfold writeStrHeader
  split_ifs with h1 h2 h3
  · refine announces_here ?_
    have : ∀ n < 32, head (0xa0 ||| UInt8.ofNat n) = .str (.here n) := by decide
    exact this len (by omega)
  · exact announces_next (by decide) (by omega)
  · exact announces_next (by decide) (by omega)
  · exact announces_next (by decide) (by omega)

theorem announces_arrayHeader {len : ℕ} (h : len < 2 ^ 32) :
    Announces (writeArrayHeader len) .array len := by
  unfold writeArrayHeader
  split_ifs with h1 h2
  · refine announces_here ?_
    have : ∀ n < 16, head (0x90 ||| UInt8.ofNat n) = .array (.here n) := by decide
    exact this len (by omega)
  · exact announces_next (by decide) (by omega)
  · exact announces_next (by decide) (by omega)

theorem announces_mapHeader {len : ℕ} (h : len < 2 ^ 32) :
    Announces (writeMapHeader len) .map len := by
  unfold writeMapHeader
  split_ifs with h1 h2
  · refine announces_here ?_
    have : ∀ n < 16, head (0x80 ||| UInt8.ofNat n) = .map (.here n) := by decide
    exact this len (by omega)
  · exact announces_next (by decide) (by omega)
  · exact announces_next (by decide) (by omega)

/-! ## Reading back what was written -/

theorem head_of_le {byte : UInt8} (h : 0xe0 ≤ byte) :
    head byte = .num (.ofI64 (byte.toNat - 256)) := by
  have hall : ∀ n < 32, head (UInt8.ofNat (224 + n)) = .num (.ofI64 ((224 + n : ℕ) - 256)) := by
    decide
  have h' : 0xe0 ≤ byte.toNat := h
  have hlt := byte.toNat_lt
  have hn := hall (byte.toNat - 224) (by omega)
  rwa [show 224 + (byte.toNat - 224) = byte.toNat by omega, UInt8.ofNat_toNat] at hn

theorem readValue_uint {byte : UInt8} {w : ℕ} (hb : head byte = .uint w) {u : UInt64}
    (hu : u.toNat < 256 ^ w) (fuel : ℕ) (rest : Bytes) :
    readValue (fuel + 1) (byte :: beBytes w u.toNat ++ rest) = some (.num (.posInt u), rest) := by
  simp [readValue, hb, Nat.mod_eq_of_lt hu]

theorem readValue_int {byte : UInt8} {w : ℕ} (hb : head byte = .int w) {i : ℤ}
    (h : -2 ^ 63 ≤ i ∧ i < 0) (hi : -256 ^ w ≤ 2 * i) (fuel : ℕ) (rest : Bytes) :
    readValue (fuel + 1) (byte :: beInt w i ++ rest) = some (.num (.negInt i h), rest) := by
  have hpos : (0 : ℤ) < 256 ^ w := by positivity
  simp [readValue, hb, readInt_beInt ⟨hi, by omega⟩, Number.ofI64_of_neg h]

theorem readValue_writeNumber (n : Number) (fuel : ℕ) (rest : Bytes) :
    readValue (fuel + 1) (writeNumber n ++ rest) = some (.num n, rest) := by
  cases n with
  | posInt u =>
    have hu := u.toNat_lt
    simp only [writeNumber]
    split_ifs with h1 h2 h3 h4
    · have : ∀ n < 128, beBytes 1 n = [UInt8.ofNat n] ∧
          head (UInt8.ofNat n) = .num (.posInt (UInt64.ofNat n)) := by decide
      obtain ⟨h5, h6⟩ := this u.toNat (by omega)
      simp only [h5, List.cons_append, List.nil_append, readValue, h6, UInt64.ofNat_toNat]
    · exact readValue_uint (by decide) (by omega) fuel rest
    · exact readValue_uint (by decide) (by omega) fuel rest
    · exact readValue_uint (by decide) (by omega) fuel rest
    · exact readValue_uint (by decide) (by omega) fuel rest
  | negInt i h =>
    simp only [writeNumber]
    split_ifs with h1 h2 h3 h4
    · have : ∀ k < 32, beInt 1 (-1 - (k : ℕ)) = [UInt8.ofNat (255 - k)] ∧
          head (UInt8.ofNat (255 - k)) = .num (.ofI64 (-1 - (k : ℕ))) := by decide
      obtain ⟨h5, h6⟩ := this (-1 - i).toNat (by omega)
      rw [show -1 - (((-1 - i).toNat : ℕ) : ℤ) = i by omega] at h5 h6
      simp [h5, readValue, h6, Number.ofI64_of_neg h]
    · exact readValue_int (by decide) h (by omega) fuel rest
    · exact readValue_int (by decide) h (by omega) fuel rest
    · exact readValue_int (by decide) h (by omega) fuel rest
    · exact readValue_int (by decide) h (by omega) fuel rest
  | float bits h =>
    have hb : head 0xcb = .float64 := by decide
    simp [writeNumber, readValue, hb, Number.fromF64, h]

theorem readValue_writeStr {s : String} (h : (utf8 s).length < 2 ^ 32) (fuel : ℕ) (rest : Bytes) :
    readValue (fuel + 1) (writeStr s ++ rest) = some (.str s, rest) := by
  obtain ⟨byte, tail, l, h1, h2, h3⟩ := announces_strHeader h
  simp [writeStr, h1, readValue, h2, h3, readUtf8_utf8]

theorem readMapKey_writeMapKey {key : String} (h : (utf8 key).length < 2 ^ 32) (fuel : ℕ)
    (rest : Bytes) :
    readMapKey (readValue (fuel + 1)) (writeMapKey key ++ rest) = some (internalName key, rest) := by
  unfold writeMapKey
  cases hk : tokenOf key with
  | some t =>
    have ht : 0xe0 ≤ t := UInt8.le_trans (by decide) (tokenOf_tokenKey hk).1
    simp [readMapKey, ht, internalName_of_some hk]
  | none =>
    obtain ⟨byte, tail, l, h1, h2, h3⟩ := announces_strHeader h
    have hb : ¬ 0xe0 ≤ byte := fun hle => by simp [head_of_le hle] at h2
    have hv := readValue_writeStr h fuel rest
    simp only [writeStr, h1, List.cons_append] at hv ⊢
    simp only [readMapKey, hb, if_false, hv, internalName_of_none hk]

theorem length_writeValue_pos (v : Json) : 0 < (writeValue v).length := by
  cases v with
  | null => simp [writeValue]
  | bool b => cases b <;> simp [writeValue]
  | num n =>
    cases n with
    | posInt u => simp only [writeValue, writeNumber]; split_ifs <;> simp
    | negInt i h => simp only [writeValue, writeNumber]; split_ifs <;> simp
    | float bits h => simp [writeValue, writeNumber]
  | str s =>
    simp only [writeValue, writeStr, writeStrHeader]
    split_ifs <;> simp
  | arr xs =>
    simp only [writeValue, writeArrayHeader]
    split_ifs <;> simp
  | obj fs =>
    simp only [writeValue, writeMapHeader]
    split_ifs <;> simp

theorem length_le_flatMap {α : Type} {f : α → Bytes} {x : α} {xs : List α} (h : x ∈ xs) :
    (f x).length ≤ (xs.flatMap f).length := by
  rw [List.length_flatMap]
  exact List.single_le_sum (by simp) _ (List.mem_map_of_mem h)

/-- **What is written is read back in its decoded form**, and nothing after it is read. -/
theorem readValue_writeValue {v : Json} (hv : v.Fits) (fuel : ℕ)
    (hfuel : (writeValue v).length ≤ fuel) (rest : Bytes) :
    readValue fuel (writeValue v ++ rest) = some (v.canon, rest) := by
  induction v generalizing fuel rest with
  | null =>
    obtain ⟨fuel, rfl⟩ : ∃ n, fuel = n + 1 := ⟨fuel - 1, by simp [writeValue] at hfuel; omega⟩
    rfl
  | bool b =>
    obtain ⟨fuel, rfl⟩ : ∃ n, fuel = n + 1 :=
      ⟨fuel - 1, by cases b <;> simp [writeValue] at hfuel <;> omega⟩
    cases b <;> rfl
  | num n =>
    have hpos := length_writeValue_pos (.num n)
    obtain ⟨fuel, rfl⟩ : ∃ n, fuel = n + 1 := ⟨fuel - 1, by omega⟩
    exact readValue_writeNumber n fuel rest
  | str s =>
    have hpos := length_writeValue_pos (.str s)
    obtain ⟨fuel, rfl⟩ : ∃ n, fuel = n + 1 := ⟨fuel - 1, by omega⟩
    exact readValue_writeStr (Json.fits_str.1 hv) fuel rest
  | arr xs ih =>
    obtain ⟨hlen, hxs⟩ := Json.fits_arr.1 hv
    obtain ⟨byte, tail, l, h1, h2, h3⟩ := announces_arrayHeader hlen
    simp only [writeValue, writeItems_eq, h1, List.cons_append, List.length_cons,
      List.length_append] at hfuel ⊢
    obtain ⟨fuel, rfl⟩ : ∃ n, fuel = n + 1 := ⟨fuel - 1, by omega⟩
    have hitem : ∀ x ∈ xs, ∀ rest, readValue fuel (writeValue x ++ rest) =
        some (x.canon, rest) := by
      intro x hx rest
      have hle := length_le_flatMap (f := writeValue) hx
      exact ih x hx (hxs x hx) fuel (by omega) rest
    have hseq := readSeq_flatMap hitem rest
    simp [readValue, h2, h3, hseq, Json.canon_arr, List.append_assoc]
  | obj fs ih =>
    obtain ⟨hlen, hfs⟩ := Json.fits_obj.1 hv
    obtain ⟨byte, tail, l, h1, h2, h3⟩ := announces_mapHeader hlen
    simp only [writeValue, writeFields_eq, h1, List.cons_append, List.length_cons,
      List.length_append] at hfuel ⊢
    obtain ⟨fuel, rfl⟩ : ∃ n, fuel = n + 1 := ⟨fuel - 1, by omega⟩
    have hfield : ∀ p ∈ fs, ∀ rest, readField (readValue fuel) (writeField p ++ rest) =
        some (Json.canonField p, rest) := by
      intro p hp rest
      have hle := length_le_flatMap (f := writeField) hp
      have hpos := length_writeValue_pos p.2
      simp only [writeField, List.length_append] at hle
      have hval := ih p hp (hfs p hp).2 fuel (by omega) rest
      obtain ⟨fuel, rfl⟩ : ∃ n, fuel = n + 1 := ⟨fuel - 1, by omega⟩
      simp [readField, writeField, List.append_assoc, readMapKey_writeMapKey (hfs p hp).1, hval,
        Json.canonField]
    have hseq := readSeq_flatMap hfield rest
    simp [readValue, h2, h3, hseq, Json.canon_obj, List.append_assoc]

/-- **Decoding an encoded document.** -/
theorem msgpackToValue_valueToMsgpack {v : Json} (hv : v.Fits) :
    msgpackToValue (valueToMsgpack v) = some v.canon := by
  have h := readValue_writeValue hv (writeValue v).length le_rfl []
  rw [List.append_nil] at h
  rw [msgpackToValue, valueToMsgpack, h, Option.map_some]

/-! ## Short encodings -/

theorem length_of_tokenOf {key : String} {t : UInt8} (h : tokenOf key = some t) :
    (utf8 key).length < 2 ^ 32 := by
  unfold tokenOf at h
  split_ifs at h with h1 h2 h3 h4 h5 h6
  · rcases h1 with rfl | rfl <;> decide
  · rcases h2 with rfl | rfl <;> decide
  · rcases h3 with rfl | rfl <;> decide
  · rcases h4 with rfl | rfl <;> decide
  · rcases h5 with rfl | rfl <;> decide
  · rcases h6 with rfl | rfl <;> decide

theorem length_le_writeStr (s : String) : (utf8 s).length ≤ (writeStr s).length := by
  simp [writeStr]

theorem length_le_flatMap_of_pos {α : Type} {f : α → Bytes} (h : ∀ x, 0 < (f x).length)
    (xs : List α) : xs.length ≤ (xs.flatMap f).length := by
  induction xs with
  | nil => exact le_rfl
  | cons x xs ih =>
    have hx := h x
    rw [List.flatMap_cons, List.length_append, List.length_cons]
    omega

/-- **A value whose encoding is short has short parts.** -/
theorem Json.fits_of_length {v : Json} (h : (writeValue v).length < 2 ^ 32) : v.Fits := by
  induction v with
  | null | bool | num => rfl
  | str s =>
    have hle := length_le_writeStr s
    rw [writeValue] at h
    rw [fits_str]
    omega
  | arr xs ih =>
    rw [writeValue, writeItems_eq, List.length_append] at h
    have hlen := length_le_flatMap_of_pos length_writeValue_pos xs
    refine fits_arr.2 ⟨by omega, fun x hx => ih x hx ?_⟩
    have hle := length_le_flatMap (f := writeValue) hx
    omega
  | obj fs ih =>
    rw [writeValue, writeFields_eq, List.length_append] at h
    have hpos : ∀ p, 0 < (writeField p).length := by
      intro p
      have := length_writeValue_pos p.2
      rw [writeField, List.length_append]
      omega
    have hlen := length_le_flatMap_of_pos hpos fs
    refine fits_obj.2 ⟨by omega, fun p hp => ?_⟩
    have hle := length_le_flatMap (f := writeField) hp
    rw [writeField, List.length_append] at hle
    refine ⟨?_, ih p hp (by omega)⟩
    cases ht : tokenOf p.1 with
    | some t => exact length_of_tokenOf ht
    | none =>
      have hkey := length_le_writeStr p.1
      simp only [writeMapKey, ht] at hle
      omega

/-! ## Decoded values can be encoded -/

/-- A length given in this way is below `2 ^ 32`. -/
def Len.small : Len → Bool
  | .here n => n < 2 ^ 32
  | .next w => w ≤ 4

theorem readLen_lt {l : Len} {buf rest : Bytes} {len : ℕ} (hl : l.small)
    (h : readLen l buf = some (len, rest)) : len < 2 ^ 32 := by
  cases l with
  | here n => cases h; simpa [Len.small] using hl
  | next w =>
    obtain ⟨pre, -, hpre, rfl⟩ := readBe_eq_some h
    have hw : (256 : ℕ) ^ w ≤ 256 ^ 4 :=
      Nat.pow_le_pow_right (by norm_num) (by simpa [Len.small] using hl)
    have hlt := ofBe_lt pre
    rw [hpre] at hlt
    norm_num at hw ⊢
    omega

/-- The lengths announced in this way, if any, are below `2 ^ 32`. -/
def Head.small : Head → Bool
  | .str l | .array l | .map l => l.small
  | _ => true

theorem head_small (byte : UInt8) : (head byte).small := by
  refine forall_byte (p := fun byte => (head byte).small) ?_ byte
  decide +kernel

theorem length_tokenKey (byte : UInt8) : (utf8 (tokenKey byte)).length < 2 ^ 32 := by
  have hnum : ∀ n ≤ 256, (utf8 ("-" ++ toString n)).length < 2 ^ 32 := by decide +kernel
  unfold tokenKey
  split_ifs
  all_goals first | decide | exact hnum _ (by omega)

theorem readMapKey_fits {rd : Bytes → Option (Json × Bytes)} {buf rest : Bytes} {k : String}
    (hrd : ∀ buf v rest, rd buf = some (v, rest) → v.Fits)
    (h : readMapKey rd buf = some (k, rest)) : (utf8 k).length < 2 ^ 32 := by
  cases buf with
  | nil => cases h
  | cons byte buf =>
    rw [readMapKey] at h
    split_ifs at h
    · cases h
      exact length_tokenKey byte
    · split at h
      · rename_i heq
        cases h
        exact Json.fits_str.1 (hrd _ _ _ heq)
      · cases h

/-- **A decoded value can be encoded**: its lengths fit their headers. -/
theorem readValue_fits {fuel : ℕ} {buf rest : Bytes} {v : Json}
    (h : readValue fuel buf = some (v, rest)) : v.Fits := by
  induction fuel generalizing buf rest v with
  | zero => cases h
  | succ fuel ih =>
    cases buf with
    | nil => cases h
    | cons byte buf =>
      rw [readValue] at h
      split at h
      · cases h; rfl
      · cases h; rfl
      · cases h; rfl
      · obtain ⟨⟨n, buf'⟩, -, h2⟩ := Option.bind_eq_some_iff.1 h
        cases h2; rfl
      · obtain ⟨⟨n, buf'⟩, -, h2⟩ := Option.bind_eq_some_iff.1 h
        cases h2; rfl
      · obtain ⟨⟨n, buf'⟩, -, h2⟩ := Option.bind_eq_some_iff.1 h
        obtain ⟨x, -, h4⟩ := Option.bind_eq_some_iff.1 h2
        cases h4; rfl
      · obtain ⟨⟨n, buf'⟩, -, h2⟩ := Option.bind_eq_some_iff.1 h
        obtain ⟨x, -, h4⟩ := Option.bind_eq_some_iff.1 h2
        cases h4; rfl
      · -- a string
        rename_i l hl
        obtain ⟨⟨len, buf'⟩, h1, h2⟩ := Option.bind_eq_some_iff.1 h
        obtain ⟨⟨s, buf''⟩, h3, h4⟩ := Option.bind_eq_some_iff.1 h2
        cases h4
        rw [Json.fits_str, readUtf8_eq_some h3]
        have hs := head_small byte
        rw [hl] at hs
        exact readLen_lt hs h1
      · -- an array
        rename_i l hl
        obtain ⟨⟨len, buf'⟩, h1, h2⟩ := Option.bind_eq_some_iff.1 h
        obtain ⟨⟨xs, buf''⟩, h3, h4⟩ := Option.bind_eq_some_iff.1 h2
        cases h4
        obtain ⟨hlen, hxs⟩ := readSeq_eq_some h3
        have hs := head_small byte
        rw [hl] at hs
        rw [Json.fits_arr, hlen]
        refine ⟨readLen_lt hs h1, fun x hx => ?_⟩
        obtain ⟨_, _, hx⟩ := hxs x hx
        exact ih hx
      · -- an object
        rename_i l hl
        obtain ⟨⟨len, buf'⟩, h1, h2⟩ := Option.bind_eq_some_iff.1 h
        obtain ⟨⟨fs, buf''⟩, h3, h4⟩ := Option.bind_eq_some_iff.1 h2
        cases h4
        obtain ⟨hlen, hfs⟩ := readSeq_eq_some h3
        have hs := head_small byte
        rw [hl] at hs
        have hlt := readLen_lt hs h1
        have hle := Fields.length_insertAll_le fs []
        rw [Json.fits_obj]
        refine ⟨by simp only [List.length_nil] at hle; omega, fun p hp => ?_⟩
        have hp := (Fields.mem_of_mem_insertAll hp).resolve_right (by simp)
        obtain ⟨_, _, hp⟩ := hfs p hp
        obtain ⟨⟨k, buf₁⟩, h5, h6⟩ := Option.bind_eq_some_iff.1 hp
        obtain ⟨⟨x, buf₂⟩, h7, h8⟩ := Option.bind_eq_some_iff.1 h6
        cases h8
        exact ⟨readMapKey_fits (fun _ _ _ h => ih h) h5, ih h7⟩
      · obtain ⟨⟨n, buf'⟩, -, h2⟩ := Option.bind_eq_some_iff.1 h
        cases h2; rfl
      · cases h

end MoltenDB
