/-
  Reading one system field of an encoded document without decoding it.
-/
import MoltenDB.Common.LogEntry

namespace MoltenDB

open Wire

/-- The bytes after a map key whose first byte was `keyByte`.  (Past the end of the
    buffer the program stops; here nothing is left.) -/
def skipKey (keyByte : UInt8) (buf : Bytes) : Option Bytes :=
  match head keyByte with
  | .str l => do
    let (len, buf) ← readLen l buf
    return buf.drop len
  | _ => some buf

theorem head_writeMapKey {key : String} (h : (utf8 key).length < 2 ^ 32) :
    ∃ byte tail, writeMapKey key = byte :: tail ∧ (0xe0 ≤ byte → (tokenOf key).isSome) ∧
      ∀ t, tokenOf key = some t → byte = t ∧ tail = [] := by
  unfold writeMapKey
  cases hk : tokenOf key with
  | some t => exact ⟨t, [], rfl, by simp, by simp⟩
  | none =>
    obtain ⟨byte, tail, l, h1, h2, -⟩ := announces_strHeader h
    exact ⟨byte, tail ++ utf8 key, by simp [writeStr, h1],
      fun hle => by simp [head_of_le hle] at h2, by simp⟩

theorem skipKey_writeMapKey {key : String} (h : (utf8 key).length < 2 ^ 32) {byte : UInt8}
    {tail : Bytes} (hk : writeMapKey key = byte :: tail) (rest : Bytes) :
    skipKey byte (tail ++ rest) = some rest := by
  unfold writeMapKey at hk
  cases ht : tokenOf key with
  | some t =>
    simp only [ht, List.cons.injEq] at hk
    obtain ⟨rfl, rfl⟩ := hk
    simp [skipKey, head_of_le (UInt8.le_trans (by decide) (tokenOf_tokenKey ht).1)]
  | none =>
    obtain ⟨byte', tail', l, h1, h2, h3⟩ := announces_strHeader h
    simp only [ht, writeStr, h1, List.cons_append, List.cons.injEq] at hk
    obtain ⟨rfl, rfl⟩ := hk
    simp [skipKey, h2, List.append_assoc, h3]

/-- A number that is not an unsigned integer is not announced as one. -/
theorem head_writeNumber {n : Number} (h : n.asU64 = none) :
    ∃ byte tail, writeNumber n = byte :: tail ∧
      (head byte = .num n ∨ (∃ w, head byte = .int w) ∨ head byte = .float64) := by
  cases n with
  | posInt u => simp [Number.asU64] at h
  | float bits h => exact ⟨0xcb, _, rfl, Or.inr (Or.inr (by decide))⟩
  | negInt i hi =>
    simp only [writeNumber]
    split_ifs with h1 h2 h3 h4
    · have : ∀ k < 32, beInt 1 (-1 - (k : ℕ)) = [UInt8.ofNat (255 - k)] ∧
          head (UInt8.ofNat (255 - k)) = .num (.ofI64 (-1 - (k : ℕ))) := by decide
      obtain ⟨h5, h6⟩ := this (-1 - i).toNat (by omega)
      rw [show -1 - (((-1 - i).toNat : ℕ) : ℤ) = i by omega] at h5 h6
      exact ⟨_, _, h5, Or.inl (by rw [h6, Number.ofI64_of_neg hi])⟩
    · exact ⟨0xd0, _, rfl, Or.inr (Or.inl ⟨1, by decide⟩)⟩
    · exact ⟨0xd1, _, rfl, Or.inr (Or.inl ⟨2, by decide⟩)⟩
    · exact ⟨0xd2, _, rfl, Or.inr (Or.inl ⟨4, by decide⟩)⟩
    · exact ⟨0xd3, _, rfl, Or.inr (Or.inl ⟨8, by decide⟩)⟩

theorem readUintAt_writeValue {v : Json} (hv : v.Fits) (rest : Bytes) :
    (readUintAt (writeValue v ++ rest)).map Prod.fst = v.asU64 := by
  cases v with
  | null => rfl
  | bool b => cases b <;> rfl
  | num n =>
    cases hn : n.asU64 with
    | some u =>
      cases n <;> simp [Number.asU64] at hn
      simp [writeValue, readUintAt_writeNumber, Json.asU64, Number.asU64, hn]
    | none =>
      obtain ⟨byte, tail, h1, h2⟩ := head_writeNumber hn
      rw [writeValue, h1, Json.asU64, hn, Option.map_eq_none_iff]
      rcases h2 with h2 | ⟨w, h2⟩ | h2
      · cases n <;> simp [Number.asU64] at hn <;> simp [readUintAt, h2]
      · simp [readUintAt, h2]
      · simp [readUintAt, h2]
  | str s =>
    obtain ⟨byte, tail, l, h1, h2, -⟩ := announces_strHeader (Json.fits_str.1 hv)
    simp [writeValue, writeStr, h1, readUintAt, h2, Json.asU64]
  | arr xs =>
    obtain ⟨byte, tail, l, h1, h2, -⟩ := announces_arrayHeader (Json.fits_arr.1 hv).1
    simp [writeValue, h1, readUintAt, h2, Json.asU64]
  | obj fs =>
    obtain ⟨byte, tail, l, h1, h2, -⟩ := announces_mapHeader (Json.fits_obj.1 hv).1
    simp [writeValue, h1, readUintAt, h2, Json.asU64]

/-! ## The reader -/

variable [Crates]

/-- Look for the key `token` in the next `n` fields. -/
def scanToken (token : UInt8) : ℕ → Bytes → Option UInt64
  | 0, _ => none
  | _ + 1, [] => none
  | n + 1, keyByte :: buf =>
    if keyByte = token then (readUintAt buf).map Prod.fst
    else do
      let buf ← skipKey keyByte buf
      let buf ← Crates.ignoredAny buf
      scanToken token n buf

/-- The unsigned integer under the one-byte key `token`. -/
def readTokenU64 (bytes : Bytes) (token : UInt8) : Option UInt64 := do
  let (mapLen, buf) ← readMapHeader bytes
  scanToken token mapLen buf

def readMsgpackSeqToken (bytes : Bytes) : UInt64 :=
  (readTokenU64 bytes TOK_SEQ).getD (UInt64.ofNat (2 ^ 64 - 1))

/-! ## The field that is found -/

/-- The first field written under `token`, if it is an unsigned integer. -/
def tokenField (token : UInt8) (fs : List (String × Json)) : Option UInt64 :=
  (fs.find? fun p => tokenOf p.1 == some token).bind fun p => p.2.asU64

theorem scanToken_writeFields {token : UInt8} (ht : 0xe0 ≤ token) {fs : List (String × Json)}
    (hfs : ∀ p ∈ fs, (utf8 p.1).length < 2 ^ 32 ∧ p.2.Fits ∧ p.2.Skips) (rest : Bytes) :
    scanToken token fs.length (fs.flatMap writeField ++ rest) = tokenField token fs := by
  induction fs with
  | nil => rfl
  | cons p fs ih =>
    obtain ⟨hkey, hval, hskips⟩ := hfs p List.mem_cons_self
    obtain ⟨byte, tail, h1, h2, h3⟩ := head_writeMapKey hkey
    have hih := ih fun q hq => hfs q (List.mem_cons_of_mem _ hq)
    simp only [List.flatMap_cons, writeField, h1, List.cons_append, List.append_assoc,
      List.length_cons, scanToken, tokenField, List.find?_cons]
    by_cases hb : byte = token
    · obtain ⟨t, hp⟩ := Option.isSome_iff_exists.1 (h2 (hb ▸ ht))
      obtain ⟨rfl, rfl⟩ := h3 t hp
      subst hb
      simp [hp, readUintAt_writeValue hval]
    · have hp : (tokenOf p.1 == some token) = false := by
        simpa using fun hp => hb (h3 token hp).1
      simp only [hb, if_false, hp, skipKey_writeMapKey hkey h1, Option.bind_eq_bind, Option.bind_some,
        hskips (fs.flatMap writeField ++ rest)]
      exact hih

/-- **The token reader finds the first field written under the token**, among neighbours that are
    skipped. -/
theorem readTokenU64_of_skips {fs : List (String × Json)} (hv : (Json.obj fs).Fits)
    (hskips : ∀ p ∈ fs, p.2.Skips) {token : UInt8} (ht : 0xe0 ≤ token) :
    readTokenU64 (valueToMsgpack (.obj fs)) token = tokenField token fs := by
  obtain ⟨hlen, hfs⟩ := Json.fits_obj.1 hv
  have hscan := scanToken_writeFields ht
    (fun p hp => ⟨(hfs p hp).1, (hfs p hp).2, hskips p hp⟩) []
  rw [List.append_nil] at hscan
  rw [readTokenU64, valueToMsgpack, writeValue, writeFields_eq, readMapHeader_writeMapHeader hlen]
  exact hscan

theorem readTokenU64_obj {fs : List (String × Json)} (hv : (Json.obj fs).Fits)
    (hd : (Json.obj fs).depth ≤ 1001) {token : UInt8} (ht : 0xe0 ≤ token) :
    readTokenU64 (valueToMsgpack (.obj fs)) token = tokenField token fs := by
  refine readTokenU64_of_skips hv (fun p hp => ?_) ht
  have hlt := Json.depth_lt_obj hp
  exact Crates.ignoredAny_writeValue p.2 ((Json.fits_obj.1 hv).2 p hp).2 (by omega)

end MoltenDB
