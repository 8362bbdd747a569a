/-
  Log entries and their MessagePack encoding: a map of five fields.
-/
import MoltenDB.Crates
import MoltenDB.Common.LogCommands

namespace MoltenDB

open Wire

/-- The atomic unit of the append-only log. -/
structure LogEntry where
  cmd : String
  collection : String
  key : String
  value : Json
  _t : UInt64
  deriving DecidableEq

/-! ## Encoding -/

def writeCmd (cmd : String) : Bytes :=
  match LogCommand.token cmd with
  | some t => beInt 1 t
  | none => writeStr cmd

def logEntryToMsgpack (entry : LogEntry) : Bytes :=
  writeMapHeader 5 ++ writeStr "cmd" ++ writeCmd entry.cmd ++
    writeStr "collection" ++ writeStr entry.collection ++ writeStr "key" ++ writeStr entry.key ++
    writeStr "value" ++ writeValue entry.value ++ writeStr "_t" ++ writeNumber (.posInt entry._t)

/-! ## Decoding -/

def readMapHeader (buf : Bytes) : Option (ℕ × Bytes) :=
  match buf with
  | [] => none
  | byte :: buf =>
    match head byte with
    | .map l => readLen l buf
    | _ => none

def readString (buf : Bytes) : Option (String × Bytes) :=
  match buf with
  | [] => none
  | byte :: buf =>
    match head byte with
    | .str l => do
      let (len, buf) ← readLen l buf
      readUtf8 len buf
    | _ => none

/-- An unsigned integer at the front of `buf`. -/
def readUintAt (buf : Bytes) : Option (UInt64 × Bytes) :=
  match buf with
  | [] => none
  | byte :: buf =>
    match head byte with
    | .num (.posInt u) => some (u, buf)
    | .uint w => do
      let (n, buf) ← readBe w buf
      return (UInt64.ofNat n, buf)
    | _ => none

/-- A command at the front of `buf`: a token, or text. -/
def readCmd (buf : Bytes) : Option (String × Bytes) :=
  match buf with
  | byte :: rest =>
    if 0xe0 ≤ byte then some (LogCommand.ofToken (byte.toNat - 256), rest)
    else do
      let (cmd, rest) ← readString (byte :: rest)
      return (LogCommand.normalise cmd, rest)
  | [] => none

namespace LogEntry

/-- All lengths in the entry are below `2 ^ 32`. -/
structure Fits (e : LogEntry) : Prop where
  cmd : (utf8 e.cmd).length < 2 ^ 32
  collection : (utf8 e.collection).length < 2 ^ 32
  key : (utf8 e.key).length < 2 ^ 32
  value : e.value.Fits

instance (e : LogEntry) : Decidable e.Fits :=
  decidable_of_iff ((utf8 e.cmd).length < 2 ^ 32 ∧ (utf8 e.collection).length < 2 ^ 32 ∧
      (utf8 e.key).length < 2 ^ 32 ∧ e.value.Fits)
    ⟨fun ⟨h1, h2, h3, h4⟩ => ⟨h1, h2, h3, h4⟩, fun h => ⟨h.cmd, h.collection, h.key, h.value⟩⟩

/-- What an entry is read back as. -/
def canon (e : LogEntry) : LogEntry :=
  { e with cmd := LogCommand.canon e.cmd, value := e.value.canon }

@[simp] theorem canon_canon (e : LogEntry) : e.canon.canon = e.canon := by simp [canon]

end LogEntry

theorem readString_writeStr {s : String} (h : (utf8 s).length < 2 ^ 32) (rest : Bytes) :
    readString (writeStr s ++ rest) = some (s, rest) := by
  obtain ⟨byte, tail, l, h1, h2, h3⟩ := announces_strHeader h
  simp [writeStr, h1, readString, h2, h3, readUtf8_utf8]

theorem length_of_readString {buf rest : Bytes} {s : String} (h : readString buf = some (s, rest)) :
    (utf8 s).length < 2 ^ 32 := by
  cases buf with
  | nil => cases h
  | cons byte buf =>
    rw [readString] at h
    split at h
    · rename_i l hl
      obtain ⟨⟨len, buf'⟩, h₁, h₂⟩ := Option.bind_eq_some_iff.1 h
      rw [readUtf8_eq_some h₂]
      have hs := head_small byte
      rw [hl] at hs
      exact readLen_lt hs h₁
    · cases h

theorem readMapHeader_writeMapHeader {len : ℕ} (h : len < 2 ^ 32) (rest : Bytes) :
    readMapHeader (writeMapHeader len ++ rest) = some (len, rest) := by
  obtain ⟨byte, tail, l, h1, h2, h3⟩ := announces_mapHeader h
  simp [h1, readMapHeader, h2, h3]

theorem readUintAt_writeNumber (u : UInt64) (rest : Bytes) :
    readUintAt (writeNumber (.posInt u) ++ rest) = some (u, rest) := by
  have hu := u.toNat_lt
  have key : ∀ {byte : UInt8} {w : ℕ}, head byte = .uint w → u.toNat < 256 ^ w →
      readUintAt (byte :: beBytes w u.toNat ++ rest) = some (u, rest) := fun hb hw => by
    simp [readUintAt, hb, Nat.mod_eq_of_lt hw]
  simp only [writeNumber]
  split_ifs with h1 h2 h3 h4
  · have : ∀ n < 128, beBytes 1 n = [UInt8.ofNat n] ∧
        head (UInt8.ofNat n) = .num (.posInt (UInt64.ofNat n)) := by decide
    obtain ⟨h5, h6⟩ := this u.toNat (by omega)
    simp only [h5, List.cons_append, List.nil_append, readUintAt, h6, UInt64.ofNat_toNat]
  · exact key (by decide) (by omega)
  · exact key (by decide) (by omega)
  · exact key (by decide) (by omega)
  · exact key (by decide) (by omega)

theorem readCmd_writeCmd {cmd : String} (h : (utf8 cmd).length < 2 ^ 32) (rest : Bytes) :
    readCmd (writeCmd cmd ++ rest) = some (LogCommand.canon cmd, rest) := by
  unfold writeCmd LogCommand.canon
  cases ht : LogCommand.token cmd with
  | some t =>
    have hmem := LogCommand.token_mem ht
    simp only [List.mem_cons, List.not_mem_nil, or_false] at hmem
    rcases hmem with rfl | rfl | rfl | rfl | rfl | rfl | rfl | rfl <;> rfl
  | none =>
    obtain ⟨byte, tail, l, h1, h2, h3⟩ := announces_strHeader h
    have hb : ¬ 0xe0 ≤ byte := fun hle => by simp [head_of_le hle] at h2
    have hs := readString_writeStr h rest
    simp only [writeStr, h1, List.cons_append, List.append_assoc] at hs ⊢
    simp [readCmd, hb, hs, LogCommand.normalise_of_token_none ht]

variable [Crates]

/-- Read `n` more fields of a log entry into `e`; unknown fields are skipped. -/
def readEntryFields : ℕ → LogEntry → Bytes → Option LogEntry
  | 0, e, _ => some e
  | n + 1, e, buf => do
    let (name, buf) ← readString buf
    if name = "cmd" then
      let (cmd, buf) ← readCmd buf
      readEntryFields n { e with cmd := cmd } buf
    else if name = "collection" then
      let (collection, buf) ← readString buf
      readEntryFields n { e with collection := collection } buf
    else if name = "key" then
      let (key, buf) ← readString buf
      readEntryFields n { e with key := key } buf
    else if name = "value" then
      let (value, buf) ← readValue buf.length buf
      readEntryFields n { e with value := value } buf
    else if name = "_t" then
      let (t, buf) ← readUintAt buf
      readEntryFields n { e with _t := t } buf
    else
      let buf ← Crates.ignoredAny buf
      readEntryFields n e buf

def logEntryFromMsgpack (bytes : Bytes) : Option LogEntry := do
  let (mapLen, buf) ← readMapHeader bytes
  readEntryFields mapLen ⟨"", "", "", .null, 0⟩ buf

section Fields

variable (n : ℕ) (e : LogEntry) (rest : Bytes)

theorem readEntryFields_cmd {cmd : String} (h : (utf8 cmd).length < 2 ^ 32) :
    readEntryFields (n + 1) e (writeStr "cmd" ++ (writeCmd cmd ++ rest)) =
      readEntryFields n { e with cmd := LogCommand.canon cmd } rest := by
  rw [readEntryFields, readString_writeStr (by decide), Option.bind_eq_bind, Option.bind_some]
  dsimp only
  rw [if_pos rfl, readCmd_writeCmd h]
  rfl

theorem readEntryFields_collection {collection : String} (h : (utf8 collection).length < 2 ^ 32) :
    readEntryFields (n + 1) e (writeStr "collection" ++ (writeStr collection ++ rest)) =
      readEntryFields n { e with collection := collection } rest := by
  rw [readEntryFields, readString_writeStr (by decide), Option.bind_eq_bind, Option.bind_some]
  dsimp only
  rw [if_neg (by decide), if_pos rfl, readString_writeStr h]
  rfl

theorem readEntryFields_key {key : String} (h : (utf8 key).length < 2 ^ 32) :
    readEntryFields (n + 1) e (writeStr "key" ++ (writeStr key ++ rest)) =
      readEntryFields n { e with key := key } rest := by
  rw [readEntryFields, readString_writeStr (by decide), Option.bind_eq_bind, Option.bind_some]
  dsimp only
  rw [if_neg (by decide), if_neg (by decide), if_pos rfl, readString_writeStr h]
  rfl

theorem readEntryFields_value {value : Json} (h : value.Fits) :
    readEntryFields (n + 1) e (writeStr "value" ++ (writeValue value ++ rest)) =
      readEntryFields n { e with value := value.canon } rest := by
  rw [readEntryFields, readString_writeStr (by decide), Option.bind_eq_bind, Option.bind_some]
  dsimp only
  rw [if_neg (by decide), if_neg (by decide), if_neg (by decide), if_pos rfl,
    readValue_writeValue h _ (by simp)]
  rfl

theorem readEntryFields_t {t : UInt64} :
    readEntryFields (n + 1) e (writeStr "_t" ++ (writeNumber (.posInt t) ++ rest)) =
      readEntryFields n { e with _t := t } rest := by
  rw [readEntryFields, readString_writeStr (by decide), Option.bind_eq_bind, Option.bind_some]
  dsimp only
  rw [if_neg (by decide), if_neg (by decide), if_neg (by decide), if_neg (by decide), if_pos rfl,
    readUintAt_writeNumber]
  rfl

end Fields

/-- **A written log entry is read back**, with its command and value in decoded form. -/
theorem logEntryFromMsgpack_logEntryToMsgpack {e : LogEntry} (h : e.Fits) :
    logEntryFromMsgpack (logEntryToMsgpack e) = some e.canon := by
  have ht := readEntryFields_t 0 ⟨LogCommand.canon e.cmd, e.collection, e.key, e.value.canon, 0⟩ []
    (t := e._t)
  rw [List.append_nil] at ht
  rw [logEntryFromMsgpack]
  simp only [logEntryToMsgpack, List.append_assoc]
  rw [readMapHeader_writeMapHeader (by decide), Option.bind_eq_bind, Option.bind_some,
    readEntryFields_cmd _ _ _ h.cmd, readEntryFields_collection _ _ _ h.collection,
    readEntryFields_key _ _ _ h.key, readEntryFields_value _ _ _ h.value, ht]
  rfl

/-- The value and the collection of an entry that is read can be encoded. -/
theorem readEntryFields_fits {n : ℕ} {e e' : LogEntry} {buf : Bytes}
    (he : e.value.Fits ∧ (utf8 e.collection).length < 2 ^ 32)
    (h : readEntryFields n e buf = some e') :
    e'.value.Fits ∧ (utf8 e'.collection).length < 2 ^ 32 := by
  induction n generalizing e buf with
  | zero => cases h; exact he
  | succ n ih =>
    rw [readEntryFields] at h
    obtain ⟨⟨name, buf₁⟩, -, h⟩ := Option.bind_eq_some_iff.1 h
    dsimp only at h
    split_ifs at h
    · obtain ⟨⟨cmd, buf₂⟩, -, h⟩ := Option.bind_eq_some_iff.1 h
      exact ih (by exact he) h
    · obtain ⟨⟨collection, buf₂⟩, hc, h⟩ := Option.bind_eq_some_iff.1 h
      exact ih (by exact ⟨he.1, length_of_readString hc⟩) h
    · obtain ⟨⟨key, buf₂⟩, -, h⟩ := Option.bind_eq_some_iff.1 h
      exact ih (by exact he) h
    · obtain ⟨⟨value, buf₂⟩, hv, h⟩ := Option.bind_eq_some_iff.1 h
      exact ih (by exact ⟨readValue_fits hv, he.2⟩) h
    · obtain ⟨⟨t, buf₂⟩, -, h⟩ := Option.bind_eq_some_iff.1 h
      exact ih (by exact he) h
    · obtain ⟨buf₂, -, h⟩ := Option.bind_eq_some_iff.1 h
      exact ih (by exact he) h

theorem logEntryFromMsgpack_fits {bytes : Bytes} {e : LogEntry}
    (h : logEntryFromMsgpack bytes = some e) :
    e.value.Fits ∧ (utf8 e.collection).length < 2 ^ 32 := by
  obtain ⟨⟨n, buf⟩, -, h⟩ := Option.bind_eq_some_iff.1 h
  exact readEntryFields_fits (e := ⟨"", "", "", .null, 0⟩) ⟨rfl, by decide⟩ h

end MoltenDB
