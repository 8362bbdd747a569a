/-
  The storage that encrypts: each entry that is written is handed on as the text of its
  ciphertext; the maps that are compacted are handed on as they are.
-/
import MoltenDB.Engine.Storage.DiskSteps
import MoltenDB.Lib.Slices

namespace MoltenDB

open Wire LogCommand

/-- An authenticated cipher under one key. -/
structure Cipher where
  /-- Encrypt under a nonce, or fail. -/
  encrypt : Bytes → Bytes → Option Bytes
  decrypt : Bytes → Bytes → Option Bytes
  decrypt_encrypt : ∀ {nonce plain text}, encrypt nonce plain = some text →
    decrypt nonce text = some plain

/-- The standard base64 text of bytes. -/
class Base64 where
  encode : Bytes → String
  decode : String → Option Bytes
  decode_encode (bytes : Bytes) : decode (encode bytes) = some bytes

/-- Password hashing with salts that are given as base64 text. -/
structure Argon2 where
  SaltString : Type
  fromB64 : String → Option SaltString
  /-- The hash of a password, with or without an output; or a failure. -/
  hashPassword : Bytes → SaltString → Option (Option Bytes)

/-- What the storage draws for one call: a nonce and a reading of the clock, and the orders
    in which the hash maps are walked. -/
structure Draw where
  nonce : Bytes
  nonce_length : nonce.length = 24
  now : UInt64
  collections : Walk
  docs : String → Walk
  schemas : Walk

namespace EncryptedStorage

/-! ## The key -/

/-- Where the derivation of a key panics. -/
inductive KeyPanic
  | slice
  | unwrap
  | expect (msg : String)
  deriving DecidableEq

def FALLBACK_SALT : String := "bW9sdGVuZGJkZWZhdWx0"

/-- The first 22 bytes, filled up with zeros to 22 characters. -/
def rawSalt (saltContext : String) : Option String :=
  (Slices.sliceTo saltContext.toList (min saltContext.utf8ByteSize 22)).map fun cs =>
    String.ofList (cs ++ List.replicate (22 - cs.length) '0')

/-- The salt of a text, or else the fallback. -/
def saltOf (argon2 : Argon2) (rawSalt : String) : Except KeyPanic argon2.SaltString :=
  match argon2.fromB64 rawSalt with
  | some salt => .ok salt
  | none =>
    match argon2.fromB64 FALLBACK_SALT with
    | some salt => .ok salt
    | none => .error .unwrap

/-- The key in the output of a hash. -/
def hashKey (argon2 : Argon2) (password : Bytes) (salt : argon2.SaltString) :
    Except KeyPanic Bytes :=
  match argon2.hashPassword password salt with
  | none => .error (.expect "Argon2 key derivation failed")
  | some none => .error (.expect "Argon2 produced no hash output")
  | some (some bytes) => if 32 ≤ bytes.length then .ok (bytes.take 32) else .error .slice

/-- `derive_key`. -/
def deriveKey (argon2 : Argon2) (password saltContext : String) : Except KeyPanic Bytes :=
  match rawSalt saltContext with
  | none => .error .slice
  | some raw => do
    let salt ← saltOf argon2 raw
    hashKey argon2 (utf8 password) salt

/-! ## Entries -/

variable [Base64] (cipher : Cipher)

def encryptEntry (draw : Draw) (entry : LogEntry) : Except DbError LogEntry :=
  match cipher.encrypt draw.nonce (logEntryToMsgpack entry) with
  | none => .error .writeError
  | some cipherText =>
    .ok ⟨IKEY_ENC, "_", "_", .str (Base64.encode (draw.nonce ++ cipherText)), draw.now⟩

variable [Crates] in
def decryptEntry (entry : LogEntry) : Except DbError LogEntry :=
  match Base64.decode (entry.value.asStr.getD "") with
  | none => .error .writeError
  | some payload =>
    if payload.length < 24 then .error .writeError
    else
      match cipher.decrypt (payload.take 24) (payload.drop 24) with
      | none => .error .writeError
      | some plain =>
        match logEntryFromMsgpack plain with
        | none => .error .writeError
        | some entry => .ok entry

/-- A call to the storage. -/
inductive Call
  | writeEntry (entry : LogEntry)
  | compactFromMaps (state : State) (schemas : DashMap Schema)

def Call.IsCompaction : Call → Prop
  | .writeEntry _ => False
  | .compactFromMaps _ _ => True

/-- What the inner backend is given: an entry for the log, or the entries of a snapshot. -/
inductive Handed
  | entry (entry : LogEntry)
  | snapshot (entries : List LogEntry)
  deriving DecidableEq

end EncryptedStorage

/-- The entries that the disk backend writes to a snapshot of the maps. -/
def snapshotEntries (draw : Draw) (state : State) (schemas : DashMap Schema) : List LogEntry :=
  (state.inOrder (draw.collections.order state.keys)).flatMap (fun p =>
      (p.2.inOrder ((draw.docs p.1).order p.2.keys)).filterMap (docEntry p.1)) ++
    (schemas.inOrder (draw.schemas.order schemas.keys)).map schemaEntry

namespace EncryptedStorage

/-- What one call hands on. -/
def hand [Base64] (cipher : Cipher) (draw : Draw) : Call → Option Handed
  | .writeEntry entry => (encryptEntry cipher draw entry).toOption.map .entry
  | .compactFromMaps state schemas => some (.snapshot (snapshotEntries draw state schemas))

/-- What a sequence of calls hands on, in order. -/
def handed [Base64] (cipher : Cipher) (calls : List (Draw × Call)) : List Handed :=
  calls.filterMap fun p => hand cipher p.1 p.2

/-- What the cipher returned for one call; a compaction does not call it. -/
def output (cipher : Cipher) (draw : Draw) : Call → Option (Option Bytes)
  | .writeEntry entry => some (cipher.encrypt draw.nonce (logEntryToMsgpack entry))
  | .compactFromMaps _ _ => none

end EncryptedStorage

/-- These are the entries of a snapshot of the maps. -/
theorem enumerates_snapshotEntries (draw : Draw) (state : State) (schemas : DashMap Schema) :
    Enumerates state schemas (snapshotEntries draw state schemas) := by
  refine ⟨_, _, _, draw.collections.perm _, ?_, draw.schemas.perm _, rfl⟩
  induction state.inOrder (draw.collections.order state.keys) with
  | nil => exact .nil
  | cons p cols ih => exact .cons ((draw.docs p.1).perm _) ih

/-- **An entry is decrypted again.** -/
theorem decryptEntry_encryptEntry [Base64] [Crates] {cipher : Cipher} {draw : Draw}
    {entry enc : LogEntry}
    (hfits : entry.Fits) (h : EncryptedStorage.encryptEntry cipher draw entry = .ok enc) :
    EncryptedStorage.decryptEntry cipher enc = .ok entry.canon := by
  unfold EncryptedStorage.encryptEntry at h
  cases htext : cipher.encrypt draw.nonce (logEntryToMsgpack entry) with
  | none =>
    rw [htext] at h
    cases h
  | some text =>
    rw [htext] at h
    cases h
    have hlen : ¬ (draw.nonce ++ text).length < 24 := by
      rw [List.length_append, draw.nonce_length]
      omega
    have htake : (draw.nonce ++ text).take 24 = draw.nonce := List.take_left' draw.nonce_length
    have hdrop : (draw.nonce ++ text).drop 24 = text := List.drop_left' draw.nonce_length
    simp only [EncryptedStorage.decryptEntry, Json.asStr, Option.getD_some,
      Base64.decode_encode, if_neg hlen, htake, hdrop, cipher.decrypt_encrypt htext,
      logEntryFromMsgpack_logEntryToMsgpack hfits]

end MoltenDB
