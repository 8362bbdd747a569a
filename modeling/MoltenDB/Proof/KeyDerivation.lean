/-
  The key of a database from its path.

  The path is cut at 22 bytes, so the derivation panics for a path with a character across that
  cut. For any other path the salt, which has 22 characters or more, is accepted or replaced, and
  the password is hashed unless it is longer than the hashing allows.
-/
import MoltenDB.Engine.Storage.Encrypted

namespace MoltenDB

open Wire Slices

namespace Argon2

/-- The most bytes of a password. -/
def MAX_PWD_LEN : ℕ := 0xFFFFFFFF

/-- How the hashing is documented: it takes passwords up to `MAX_PWD_LEN` with salts of eight bytes
    (eleven characters) or more, its output has 32 bytes or more, and longer passwords are
    refused. The fallback is a salt. -/
structure Documented (argon2 : Argon2) : Prop where
  fallback : ∃ salt, argon2.fromB64 EncryptedStorage.FALLBACK_SALT = some salt
  hashes : ∀ {text salt password}, argon2.fromB64 text = some salt → 11 ≤ text.length →
    password.length ≤ MAX_PWD_LEN →
      ∃ output, argon2.hashPassword password salt = some (some output) ∧ 32 ≤ output.length
  tooLong : ∀ {password}, MAX_PWD_LEN < password.length → ∀ salt,
    argon2.hashPassword password salt = none

end Argon2

namespace EncryptedStorage

variable {argon2 : Argon2} {password saltContext raw : String}

/-- The salt is built unless a character lies across the cut. -/
theorem rawSalt_isSome_iff : (rawSalt saltContext).isSome ↔ ¬ Straddles saltContext.toList 22 := by
  have hsize : saltContext.utf8ByteSize = String.utf8Len saltContext.toList := by
    rw [← String.utf8ByteSize_ofList, String.ofList_toList]
  rw [rawSalt, Option.isSome_map, hsize, sliceTo_isSome_iff]

theorem length_rawSalt (h : rawSalt saltContext = some raw) : 22 ≤ raw.length := by
  obtain ⟨cs, -, rfl⟩ := Option.map_eq_some_iff.1 h
  simp only [String.length_ofList, List.length_append, List.length_replicate]
  omega

/-- A salt that is built is accepted, or replaced by one that is. -/
theorem saltOf_spec (h : argon2.Documented) (hraw : 11 ≤ raw.length) :
    ∃ text salt, saltOf argon2 raw = .ok salt ∧ argon2.fromB64 text = some salt ∧
      11 ≤ text.length := by
  unfold saltOf
  cases haccepted : argon2.fromB64 raw with
  | some salt => exact ⟨raw, salt, rfl, haccepted, hraw⟩
  | none =>
    obtain ⟨salt, hsalt⟩ := h.fallback
    rw [hsalt]
    exact ⟨FALLBACK_SALT, salt, rfl, hsalt, by decide⟩

/-- What is left of a derivation that has a salt. -/
theorem deriveKey_eq (h : argon2.Documented) (password : String)
    (hraw : rawSalt saltContext = some raw) :
    ∃ text salt, argon2.fromB64 text = some salt ∧ 11 ≤ text.length ∧
      deriveKey argon2 password saltContext = hashKey argon2 (utf8 password) salt := by
  have hlen : 11 ≤ raw.length := le_trans (by omega) (length_rawSalt hraw)
  obtain ⟨text, salt, hsalt, htext, hlong⟩ := saltOf_spec h hlen
  refine ⟨text, salt, htext, hlong, ?_⟩
  rw [deriveKey, hraw]
  dsimp only
  rw [hsalt]
  rfl

end EncryptedStorage

namespace Argon2

/-- A character of base64 text. -/
def isB64 (c : Char) : Bool := c.isAlphanum || c == '+' || c == '/'

/-- Salts are texts, and the output of a hash is the password and its salt, cut to 32 bytes. -/
def plain : Argon2 where
  SaltString := String
  fromB64 text :=
    if text.toList.all isB64 ∧ 4 ≤ text.length ∧ text.length ≤ 64 then some text else none
  hashPassword password salt :=
    if password.length ≤ MAX_PWD_LEN then
      some (some ((password ++ utf8 salt ++ List.replicate 32 0).take 32))
    else none

theorem documented_plain : plain.Documented where
  fallback := by
    refine ⟨EncryptedStorage.FALLBACK_SALT, ?_⟩
    dsimp only [plain]
    exact if_pos (by decide +kernel)
  hashes _ _ hlen := ⟨_, if_pos hlen, by simp; omega⟩
  tooLong hlen _ := if_neg (not_le.2 hlen)

end Argon2

end MoltenDB
