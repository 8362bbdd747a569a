/-
  The readers of encoded documents on what the encoder writes.
-/
import MoltenDB.Query.Msgpack

namespace MoltenDB

open Wire

/-! ## Values at a position -/

theorem readMsgpackStr_writeStr {s : String} (h : (utf8 s).length < 2 ^ 32) (rest : Bytes) :
    readMsgpackStr (writeStr s ++ rest) = (some s, rest) := by
  obtain ⟨byte, tail, l, h1, h2, h3⟩ := announces_strHeader h
  simp [writeStr, h1, readMsgpackStr, h2, h3]

/-- A number is announced as one. -/
theorem head_writeNumber_cases (n : Number) :
    ∃ byte tail, writeNumber n = byte :: tail ∧
      ((∃ m, head byte = .num m) ∨ (∃ w, head byte = .uint w) ∨ (∃ w, head byte = .int w) ∨
        head byte = .float64) := by
  cases n with
  | float bits h => exact ⟨0xcb, _, rfl, Or.inr (Or.inr (Or.inr (by decide)))⟩
  | negInt i hi =>
    obtain ⟨byte, tail, h1, h2 | ⟨w, h2⟩ | h2⟩ := head_writeNumber (n := .negInt i hi) rfl
    · exact ⟨byte, tail, h1, Or.inl ⟨_, h2⟩⟩
    · exact ⟨byte, tail, h1, Or.inr (Or.inr (Or.inl ⟨w, h2⟩))⟩
    · exact ⟨byte, tail, h1, Or.inr (Or.inr (Or.inr h2))⟩
  | posInt u =>
    simp only [writeNumber]
    split_ifs with h1 h2 h3 h4
    · have hall : ∀ n < 128, beBytes 1 n = [UInt8.ofNat n] ∧
          head (UInt8.ofNat n) = .num (.posInt (UInt64.ofNat n)) := by decide
      obtain ⟨h5, h6⟩ := hall u.toNat (by omega)
      exact ⟨_, _, h5, Or.inl ⟨_, h6⟩⟩
    · exact ⟨0xcc, _, rfl, Or.inr (Or.inl ⟨1, by decide⟩)⟩
    · exact ⟨0xcd, _, rfl, Or.inr (Or.inl ⟨2, by decide⟩)⟩
    · exact ⟨0xce, _, rfl, Or.inr (Or.inl ⟨4, by decide⟩)⟩
    · exact ⟨0xcf, _, rfl, Or.inr (Or.inl ⟨8, by decide⟩)⟩

/-- What the leading byte of a written value announces. -/
inductive Announced : Json → Head → Prop
  | null : Announced .null .null
  | bool (b : Bool) : Announced (.bool b) (.bool b)
  | num (n m : Number) : Announced (.num n) (.num m)
  | uint (n : Number) (w : ℕ) : Announced (.num n) (.uint w)
  | int (n : Number) (w : ℕ) : Announced (.num n) (.int w)
  | float64 (n : Number) : Announced (.num n) .float64
  | str (s : String) (l : Len) : Announced (.str s) (.str l)
  | arr (xs : List Json) (l : Len) : Announced (.arr xs) (.array l)
  | obj (fs : List (String × Json)) (l : Len) : Announced (.obj fs) (.map l)

theorem announced_writeValue {v : Json} (hv : v.Fits) :
    ∃ byte tail, writeValue v = byte :: tail ∧ Announced v (head byte) := by
  cases v with
  | null => exact ⟨0xc0, [], rfl, .null⟩
  | bool b => cases b with
    | true => exact ⟨0xc3, [], rfl, .bool true⟩
    | false => exact ⟨0xc2, [], rfl, .bool false⟩
  | num n =>
    obtain ⟨byte, tail, h1, h2⟩ := head_writeNumber_cases n
    refine ⟨byte, tail, h1, ?_⟩
    rcases h2 with ⟨m, h2⟩ | ⟨w, h2⟩ | ⟨w, h2⟩ | h2 <;> rw [h2]
    · exact .num n m
    · exact .uint n w
    · exact .int n w
    · exact .float64 n
  | str s =>
    obtain ⟨byte, tail, l, h1, h2, -⟩ := announces_strHeader (Json.fits_str.1 hv)
    exact ⟨byte, tail ++ utf8 s, by simp [writeValue, writeStr, h1], by rw [h2]; exact .str s l⟩
  | arr xs =>
    obtain ⟨byte, tail, l, h1, h2, -⟩ := announces_arrayHeader (Json.fits_arr.1 hv).1
    exact ⟨byte, tail ++ writeItems xs, by simp [writeValue, h1], by rw [h2]; exact .arr xs l⟩
  | obj fs =>
    obtain ⟨byte, tail, l, h1, h2, -⟩ := announces_mapHeader (Json.fits_obj.1 hv).1
    exact ⟨byte, tail ++ writeFields fs, by simp [writeValue, h1], by rw [h2]; exact .obj fs l⟩

theorem readMsgpackStr_writeValue {v : Json} (hv : v.Fits) (rest : Bytes) :
    (readMsgpackStr (writeValue v ++ rest)).1 = v.asStr := by
  cases hs : v.asStr with
  | some s =>
    obtain rfl : v = .str s := by cases v <;> simp_all [Json.asStr]
    rw [writeValue, readMsgpackStr_writeStr (Json.fits_str.1 hv)]
  | none =>
    obtain ⟨byte, tail, h1, h2⟩ := announced_writeValue hv
    rw [h1, List.cons_append, readMsgpackStr]
    generalize head byte = hd at h2
    cases h2 <;> first | rfl | cases hs

theorem readMsgpackBool_writeValue {v : Json} (hv : v.Fits) (rest : Bytes) :
    readMsgpackBool (writeValue v ++ rest) = v.asBool := by
  obtain ⟨byte, tail, h1, h2⟩ := announced_writeValue hv
  rw [h1, List.cons_append, readMsgpackBool]
  generalize head byte = hd at h2
  cases h2 <;> rfl

theorem readMsgpackArrayLen_arr {xs : List Json} (hv : (Json.arr xs).Fits) (rest : Bytes) :
    readMsgpackArrayLen (writeValue (.arr xs) ++ rest) =
      some (xs.length, xs.flatMap writeValue ++ rest) := by
  obtain ⟨byte, tail, l, h1, h2, h3⟩ := announces_arrayHeader (Json.fits_arr.1 hv).1
  simp [writeValue, writeItems_eq, h1, readMsgpackArrayLen, h2, h3]

theorem readMsgpackArrayLen_not_array {v : Json} (hv : v.Fits) (h : v.asArray = none)
    (rest : Bytes) : readMsgpackArrayLen (writeValue v ++ rest) = none := by
  obtain ⟨byte, tail, h1, h2⟩ := announced_writeValue hv
  rw [h1, List.cons_append, readMsgpackArrayLen]
  generalize head byte = hd at h2
  cases h2 <;> first | rfl | cases h

theorem readMsgpackNumber_uint {byte : UInt8} {w : ℕ} (hb : head byte = .uint w) {n : ℕ}
    (hn : n < 256 ^ w) (rest : Bytes) :
    readMsgpackNumber (byte :: beBytes w n ++ rest) = some (Binary64.roundNat n : ℚ) := by
  simp [readMsgpackNumber, hb, Nat.mod_eq_of_lt hn]

theorem readMsgpackNumber_int {byte : UInt8} {w : ℕ} (hb : head byte = .int w) {i : ℤ}
    (hi : -256 ^ w ≤ 2 * i ∧ 2 * i < 256 ^ w) (rest : Bytes) :
    readMsgpackNumber (byte :: beInt w i ++ rest) = some (Binary64.ofInt i) := by
  simp [readMsgpackNumber, hb, readInt_beInt hi]

/-- **A number is read as the double nearest to it.** -/
theorem readMsgpackNumber_writeNumber (n : Number) (rest : Bytes) :
    readMsgpackNumber (writeNumber n ++ rest) = some n.asF64 := by
  cases n with
  | posInt u =>
    have hu := u.toNat_lt
    simp only [writeNumber]
    split_ifs with h1 h2 h3 h4
    · have hall : ∀ n < 128, beBytes 1 n = [UInt8.ofNat n] ∧
          head (UInt8.ofNat n) = .num (.posInt (UInt64.ofNat n)) := by decide
      obtain ⟨h5, h6⟩ := hall u.toNat (by omega)
      rw [h5, List.cons_append, readMsgpackNumber, h6, UInt64.ofNat_toNat]
    · exact readMsgpackNumber_uint (by decide) (by omega) rest
    · exact readMsgpackNumber_uint (by decide) (by omega) rest
    · exact readMsgpackNumber_uint (by decide) (by omega) rest
    · exact readMsgpackNumber_uint (by decide) (by omega) rest
  | negInt i h =>
    simp only [writeNumber]
    split_ifs with h1 h2 h3 h4
    · have hall : ∀ k < 32, beInt 1 (-1 - (k : ℕ)) = [UInt8.ofNat (255 - k)] ∧
          head (UInt8.ofNat (255 - k)) = .num (.ofI64 (-1 - (k : ℕ))) := by decide
      obtain ⟨h5, h6⟩ := hall (-1 - i).toNat (by omega)
      rw [show -1 - (((-1 - i).toNat : ℕ) : ℤ) = i by omega] at h5 h6
      rw [h5, List.cons_append, readMsgpackNumber, h6, Number.ofI64_of_neg h]
    · exact readMsgpackNumber_int (by decide) (by norm_num; omega) rest
    · exact readMsgpackNumber_int (by decide) (by norm_num; omega) rest
    · exact readMsgpackNumber_int (by decide) (by norm_num; omega) rest
    · exact readMsgpackNumber_int (by decide) (by norm_num; omega) rest
  | float bits h =>
    have hb : head 0xcb = .float64 := by decide
    simp [writeNumber, readMsgpackNumber, hb, Number.fromF64, h]

theorem readMsgpackNumber_writeValue {v : Json} (hv : v.Fits) (rest : Bytes) :
    readMsgpackNumber (writeValue v ++ rest) = v.asF64 := by
  cases hf : v.asF64 with
  | some q =>
    obtain ⟨n, rfl⟩ : ∃ n, v = .num n := by cases v <;> simp_all [Json.asF64]
    rw [writeValue, readMsgpackNumber_writeNumber, ← hf]
    rfl
  | none =>
    obtain ⟨byte, tail, h1, h2⟩ := announced_writeValue hv
    rw [h1, List.cons_append, readMsgpackNumber]
    generalize head byte = hd at h2
    cases h2 <;> first | rfl | cases hf

/-- What is no object has no map header. -/
theorem readMapHeader_not_object {v : Json} (hv : v.Fits) (h : v.asObject = none) (rest : Bytes) :
    readMapHeader (writeValue v ++ rest) = none := by
  obtain ⟨byte, tail, h1, h2⟩ := announced_writeValue hv
  rw [h1, List.cons_append, readMapHeader]
  generalize head byte = hd at h2
  cases h2 <;> first | rfl | cases h

/-! ## Fields -/

/-- The field `segment` of an object, as it is found by name: not one of the system. -/
def Json.storedField (v : Json) (segment : String) : Option Json :=
  v.asObject.bind fun fs => (fs.filter fun p => (tokenOf p.1).isNone).lookup segment

/-- The value at a path, as it is found by name. -/
def Json.storedValue (v : Json) : List String → Option Json
  | [] => none
  | [segment] => v.storedField segment
  | segment :: parts => (v.storedField segment).bind fun v => storedValue v parts

/-- The bytes found are those of the value, if there is one, and what comes after it. -/
def Finds (found : Option Bytes) (v : Option Json) : Prop :=
  match v with
  | none => found = none
  | some y => ∃ rest, found = some (writeValue y ++ rest)

/-- The value fits its headers and is nested no deeper than values that are skipped. -/
structure Json.Stored (v : Json) : Prop where
  fits : v.Fits
  depth : v.depth ≤ 1000

theorem Json.Stored.field {fs : List (String × Json)} (h : (Json.obj fs).Stored)
    {p : String × Json} (hp : p ∈ fs) : (utf8 p.1).length < 2 ^ 32 ∧ p.2.Stored := by
  obtain ⟨-, hfs⟩ := Json.fits_obj.1 h.fits
  have hlt := Json.depth_lt_obj hp
  have hle := h.depth
  exact ⟨(hfs p hp).1, (hfs p hp).2, by omega⟩

theorem Json.Stored.item {xs : List Json} (h : (Json.arr xs).Stored) {x : Json} (hx : x ∈ xs) :
    x.Stored := by
  have hlt := Json.depth_lt_arr hx
  have hle := h.depth
  exact ⟨(Json.fits_arr.1 h.fits).2 x hx, by omega⟩

variable [Crates]

theorem Json.Stored.skippable {v : Json} (h : v.Stored) : v.Skippable :=
  Json.skippable_of_depth_le h.fits h.depth

theorem Json.Skips.skipValue {v : Json} (hv : v.Skips) (rest : Bytes) :
    skipValue (writeValue v ++ rest) = rest := by
  rw [MoltenDB.skipValue, hv rest]
  rfl

omit [Crates] in
/-- A key that is no name of a system field is read as a string. -/
theorem writeMapKey_user {key : String} (hkey : (utf8 key).length < 2 ^ 32)
    (htok : tokenOf key = none) : ∃ byte tail, writeMapKey key = byte :: tail ∧ ¬ 0xe0 ≤ byte ∧
      ∀ rest, readMsgpackStr (byte :: (tail ++ rest)) = (some key, rest) := by
  obtain ⟨byte, tail, l, h1, h2, -⟩ := announces_strHeader hkey
  refine ⟨byte, tail ++ utf8 key, ?_, ?_, fun rest => ?_⟩
  · simp only [writeMapKey, htok, writeStr, h1, List.cons_append]
  · intro hle
    rw [head_of_le hle] at h2
    cases h2
  · have hread := readMsgpackStr_writeStr hkey rest
    simpa only [writeStr, h1, List.cons_append] using hread

omit [Crates] in
/-- A name of a system field is one byte. -/
theorem writeMapKey_system {key : String} {t : UInt8} (htok : tokenOf key = some t) :
    writeMapKey key = [t] ∧ 0xe0 ≤ t := by
  refine ⟨by rw [writeMapKey, htok], ?_⟩
  exact UInt8.le_trans (by decide : (0xe0 : UInt8) ≤ 0xfa) (tokenOf_tokenKey htok).1

theorem findKey_writeFields (segment : String) {fs : List (String × Json)}
    (hfs : ∀ p ∈ fs, (utf8 p.1).length < 2 ^ 32 ∧ p.2.Skips) (rest : Bytes) :
    Finds (findKey segment fs.length (fs.flatMap writeField ++ rest))
      ((Json.obj fs).storedField segment) := by
  induction fs with
  | nil => rfl
  | cons p fs ih =>
    obtain ⟨k, v⟩ := p
    obtain ⟨hkey, hval⟩ := hfs (k, v) List.mem_cons_self
    have hih := ih fun q hq => hfs q (List.mem_cons_of_mem _ hq)
    have hskip := hval.skipValue (fs.flatMap writeField ++ rest)
    rw [List.flatMap_cons, writeField, List.append_assoc, List.append_assoc, List.length_cons]
    cases htok : tokenOf k with
    | some t =>
      -- a field of the system is skipped
      obtain ⟨hwrite, ht⟩ := writeMapKey_system htok
      simp only [hwrite, List.cons_append, List.nil_append, findKey, if_pos ht, hskip]
      simpa [Json.storedField, Json.asObject, htok] using hih
    | none =>
      obtain ⟨byte, tail, hwrite, hbyte, hread⟩ := writeMapKey_user hkey htok
      simp only [hwrite, List.cons_append, findKey, if_neg hbyte, hread]
      by_cases hk : k = segment
      · subst hk
        simp [Json.storedField, Json.asObject, htok, Finds]
      · have hb : (segment == k) = false := by simpa using Ne.symm hk
        simp only [if_neg hk, hskip]
        simpa [Json.storedField, Json.asObject, htok, List.lookup_cons, hb] using hih

theorem findMsgpackValue_field {v : Json} (hfits : v.Fits) (hskip : v.Skippable)
    (segment : String) (rest : Bytes) :
    Finds ((readMapHeader (writeValue v ++ rest)).bind fun p => findKey segment p.1 p.2)
      (v.storedField segment) := by
  cases ho : v.asObject with
  | some fs =>
    obtain rfl := Json.eq_obj_of_asObject ho
    obtain ⟨hlen, hfs⟩ := Json.fits_obj.1 hfits
    rw [writeValue, writeFields_eq, List.append_assoc, readMapHeader_writeMapHeader hlen]
    exact findKey_writeFields segment
      (fun p hp => ⟨(hfs p hp).1, (hskip.field hp).skips⟩) rest
  | none =>
    rw [readMapHeader_not_object hfits ho, Json.storedField, ho]
    rfl

omit [Crates] in
/-- A field that is found is one of the object. -/
theorem Json.mem_of_storedField {v w : Json} {segment : String}
    (h : v.storedField segment = some w) : ∃ fs, v = .obj fs ∧ (segment, w) ∈ fs := by
  obtain ⟨fs, ho, hlook⟩ := Option.bind_eq_some_iff.1 h
  exact ⟨fs, Json.eq_obj_of_asObject ho, List.mem_of_mem_filter (Fields.mem_of_lookup hlook)⟩

omit [Crates] in
theorem Json.Stored.storedField {v w : Json} (hv : v.Stored) {segment : String}
    (h : v.storedField segment = some w) : w.Stored := by
  obtain ⟨fs, rfl, hmem⟩ := Json.mem_of_storedField h
  exact (hv.field hmem).2

/-- **A path is followed in the bytes as in the value**, past values that are skipped. -/
theorem findMsgpackValue_of_skippable {v : Json} (hfits : v.Fits) (hskip : v.Skippable)
    (parts : List String) (rest : Bytes) :
    Finds (findMsgpackValue (writeValue v ++ rest) parts) (v.storedValue parts) := by
  induction parts generalizing v rest with
  | nil => rfl
  | cons segment parts ih =>
    have hfield := findMsgpackValue_field hfits hskip segment rest
    cases parts with
    | nil => exact hfield
    | cons part parts =>
      have hstep : findMsgpackValue (writeValue v ++ rest) (segment :: part :: parts) =
          ((readMapHeader (writeValue v ++ rest)).bind fun p => findKey segment p.1 p.2).bind
            fun buf => findMsgpackValue buf (part :: parts) := by
        rw [findMsgpackValue, Option.bind_assoc]
        · rfl
        · exact List.cons_ne_nil _ _
      rw [hstep, Json.storedValue]
      · cases hw : v.storedField segment with
        | none =>
          rw [hw] at hfield
          rw [show (readMapHeader (writeValue v ++ rest)).bind
            (fun p => findKey segment p.1 p.2) = none from hfield]
          rfl
        | some w =>
          rw [hw] at hfield
          obtain ⟨rest', hfound⟩ := hfield
          rw [hfound, Option.bind_some, Option.bind_some]
          obtain ⟨fs, rfl, hmem⟩ := Json.mem_of_storedField hw
          exact ih ((Json.fits_obj.1 hfits).2 _ hmem).2 (hskip.field hmem) rest'
      · exact List.cons_ne_nil _ _

theorem findMsgpackValue_writeValue {v : Json} (hv : v.Stored) (parts : List String) (rest : Bytes) :
    Finds (findMsgpackValue (writeValue v ++ rest) parts) (v.storedValue parts) :=
  findMsgpackValue_of_skippable hv.fits hv.skippable parts rest

end MoltenDB
