/-
  The names of the fields the engine keeps in every document: the public name,
  and the name the field has in memory.
-/
import MoltenDB.Json

namespace MoltenDB

namespace SystemFields

def VERSION := "_v"
def KEY := "_key"
def SEQ := "_seq"
def CREATED_AT := "_createdAt"
def MODIFIED_AT := "_modifiedAt"
def EXPIRES_AT := "_expiresAt"

def IKEY_VERSION := "-1"
def IKEY_KEY := "-2"
def IKEY_SEQ := "-3"
def IKEY_CREATED_AT := "-4"
def IKEY_MODIFIED_AT := "-5"
def IKEY_EXPIRES_AT := "-6"

end SystemFields

open SystemFields

/-- The public system names. -/
def publicNames : List String := [VERSION, KEY, SEQ, CREATED_AT, MODIFIED_AT, EXPIRES_AT]

/-- The aliases of the public system names. -/
def aliases : List String :=
  [IKEY_VERSION, IKEY_KEY, IKEY_SEQ, IKEY_CREATED_AT, IKEY_MODIFIED_AT, IKEY_EXPIRES_AT]

def TOK_VERSION : UInt8 := 0xff
def TOK_KEY : UInt8 := 0xfe
def TOK_SEQ : UInt8 := 0xfd
def TOK_CREATED_AT : UInt8 := 0xfc
def TOK_MODIFIED_AT : UInt8 := 0xfb
def TOK_EXPIRES_AT : UInt8 := 0xfa

/-- The one-byte key written for `key`, under its public or its internal name. -/
def tokenOf (key : String) : Option UInt8 :=
  if key = VERSION ∨ key = IKEY_VERSION then some TOK_VERSION
  else if key = KEY ∨ key = IKEY_KEY then some TOK_KEY
  else if key = SEQ ∨ key = IKEY_SEQ then some TOK_SEQ
  else if key = CREATED_AT ∨ key = IKEY_CREATED_AT then some TOK_CREATED_AT
  else if key = MODIFIED_AT ∨ key = IKEY_MODIFIED_AT then some TOK_MODIFIED_AT
  else if key = EXPIRES_AT ∨ key = IKEY_EXPIRES_AT then some TOK_EXPIRES_AT
  else none

/-- The key that a negative one-byte integer is read as. -/
def tokenKey (byte : UInt8) : String :=
  if byte = TOK_VERSION then IKEY_VERSION
  else if byte = TOK_KEY then IKEY_KEY
  else if byte = TOK_SEQ then IKEY_SEQ
  else if byte = TOK_CREATED_AT then IKEY_CREATED_AT
  else if byte = TOK_MODIFIED_AT then IKEY_MODIFIED_AT
  else if byte = TOK_EXPIRES_AT then IKEY_EXPIRES_AT
  else "-" ++ toString (256 - byte.toNat)

/-- The name `key` has in a decoded document. -/
def internalName (key : String) : String := ((tokenOf key).map tokenKey).getD key

/-- The name `key` has in a document handed to a client. -/
def publicName (key : String) : String :=
  if key = IKEY_VERSION then VERSION
  else if key = IKEY_KEY then KEY
  else if key = IKEY_SEQ then SEQ
  else if key = IKEY_CREATED_AT then CREATED_AT
  else if key = IKEY_MODIFIED_AT then MODIFIED_AT
  else if key = IKEY_EXPIRES_AT then EXPIRES_AT
  else key

theorem tokenOf_cases (key : String) :
    tokenOf key = none ∨
      tokenOf key ∈ [some TOK_VERSION, some TOK_KEY, some TOK_SEQ, some TOK_CREATED_AT,
        some TOK_MODIFIED_AT, some TOK_EXPIRES_AT] := by
  unfold tokenOf; split_ifs <;> simp

theorem tokenOf_tokenKey {key : String} {t : UInt8} (h : tokenOf key = some t) :
    0xfa ≤ t ∧ tokenOf (tokenKey t) = some t := by
  have hc := tokenOf_cases key
  simp only [h, reduceCtorEq, List.mem_cons, Option.some.injEq, List.not_mem_nil, or_false,
    false_or] at hc
  rcases hc with rfl | rfl | rfl | rfl | rfl | rfl <;> decide

theorem tokenOf_internalName (key : String) : tokenOf (internalName key) = tokenOf key := by
  unfold internalName
  cases h : tokenOf key with
  | none => simpa using h
  | some t => simpa using (tokenOf_tokenKey h).2

@[simp] theorem internalName_internalName (key : String) :
    internalName (internalName key) = internalName key := by
  have h := tokenOf_internalName key
  unfold internalName at h ⊢
  rw [h]
  cases tokenOf key <;> rfl

theorem internalName_of_none {key : String} (h : tokenOf key = none) : internalName key = key := by
  simp [internalName, h]

theorem internalName_of_some {key : String} {t : UInt8} (h : tokenOf key = some t) :
    internalName key = tokenKey t := by
  simp [internalName, h]

theorem tokenOf_publicName (key : String) : tokenOf (publicName key) = tokenOf key := by
  unfold publicName
  split_ifs with h1 h2 h3 h4 h5 h6
  · rw [h1]; rfl
  · rw [h2]; rfl
  · rw [h3]; rfl
  · rw [h4]; rfl
  · rw [h5]; rfl
  · rw [h6]; rfl
  · rfl

/-- A key is the name of a system field, or it is written as it is. -/
theorem name_cases (key : String) : tokenOf key = none ∨ key ∈ publicNames ++ aliases := by
  by_cases hname : key ∈ publicNames ++ aliases
  · exact Or.inr hname
  · simp only [publicNames, aliases, List.mem_append, List.mem_cons, List.not_mem_nil, or_false,
      not_or] at hname
    exact Or.inl (by simp [tokenOf, hname])

theorem publicName_of_not_alias {key : String} (h : key ∉ aliases) : publicName key = key := by
  simp only [aliases, List.mem_cons, List.not_mem_nil, or_false, not_or] at h
  simp [publicName, h]

theorem not_alias_of_none {key : String} (h : tokenOf key = none) : key ∉ aliases := by
  have hall : ∀ key ∈ aliases, tokenOf key ≠ none := by decide
  exact fun hmem => hall key hmem h

theorem internalName_alias {key : String} (h : internalName key ≠ key) :
    internalName key ∈ aliases := by
  have hall : ∀ key ∈ publicNames ++ aliases, internalName key ∈ aliases := by decide
  exact hall key ((name_cases key).resolve_left fun hkey => h (internalName_of_none hkey))

/-- No alias is handed to a client. -/
theorem publicName_not_alias (key : String) : publicName key ∉ aliases := by
  by_cases h : key ∈ aliases
  · revert key
    decide
  · rwa [publicName_of_not_alias h]

@[simp] theorem publicName_publicName (key : String) :
    publicName (publicName key) = publicName key :=
  publicName_of_not_alias (publicName_not_alias key)

@[simp] theorem publicName_internalName (key : String) :
    publicName (internalName key) = publicName key := by
  rcases name_cases key with h | h
  · rw [internalName_of_none h]
  · revert key
    decide

@[simp] theorem internalName_publicName (key : String) :
    internalName (publicName key) = internalName key := by
  rcases name_cases key with h | h
  · rw [publicName_of_not_alias (not_alias_of_none h)]
  · revert key
    decide

end MoltenDB
