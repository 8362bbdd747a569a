/-
  The decoder of documents and log entries, at positions in its buffer.

  A read outside the buffer and a position that does not fit a machine word are panics here. The
  lengths that the bytes announce are not checked against the buffer before they are used.
-/
import MoltenDB.Lib.Buffer
import MoltenDB.Common.LogEntry

namespace MoltenDB.Decoder

open Wire (Bytes)
open Buffer (Res advance)

variable (buf : Bytes)

/-! ## Values -/

/-- The byte at `pos`, unless that is past the end. -/
def readByte (pos : ℕ) : Res (UInt8 × ℕ) :=
  if buf.length ≤ pos then .none
  else do
    let byte ← Buffer.index buf pos
    let pos ← advance pos 1
    return (byte, pos)

def readLen (l : Len) (pos : ℕ) : Res (ℕ × ℕ) :=
  match l with
  | .here n => .ok (n, pos)
  | .next w => Buffer.readBe buf w pos

def readMapKey (rd : ℕ → Res (Json × ℕ)) (pos : ℕ) : Res (String × ℕ) := do
  let (byte, pos) ← readByte buf pos
  if 0xe0 ≤ byte then return (tokenKey byte, pos)
  else do
    -- the byte that was peeked is read again
    let tmpPos ← Buffer.sub pos 1
    let (val, tmpPos) ← rd tmpPos
    match val with
    | .str s => return (s, tmpPos)
    | _ => .none

/-- One field of an object; `rd` reads the value. -/
def readField (rd : ℕ → Res (Json × ℕ)) (pos : ℕ) : Res ((String × Json) × ℕ) := do
  let (key, pos) ← readMapKey buf rd pos
  let (val, pos) ← rd pos
  return ((key, val), pos)

/-- The value at `pos`; `fuel` bounds the calls that are nested. -/
def readValue : ℕ → ℕ → Res (Json × ℕ)
  | 0, _ => .outOfFuel
  | fuel + 1, pos => do
    let (byte, pos) ← readByte buf pos
    match head byte with
    | .null => return (.null, pos)
    | .bool b => return (.bool b, pos)
    | .num n => return (.num n, pos)
    | .uint w => do
      let (n, pos) ← Buffer.readBe buf w pos
      return (.num (.posInt (UInt64.ofNat n)), pos)
    | .int w => do
      let (n, pos) ← Buffer.readBe buf w pos
      return (.num (.ofI64 ((n : ℤ).bmod (256 ^ w))), pos)
    | .float32 => do
      let (n, pos) ← Buffer.readBe buf 4 pos
      let x ← Res.ofOption (Number.fromF64 (F64.ofF32 n))
      return (.num x, pos)
    | .float64 => do
      let (n, pos) ← Buffer.readBe buf 8 pos
      let x ← Res.ofOption (Number.fromF64 (UInt64.ofNat n))
      return (.num x, pos)
    | .str l => do
      let (len, pos) ← readLen buf l pos
      let (s, pos) ← Buffer.readUtf8 buf len pos
      return (.str s, pos)
    | .array l => do
      let (len, pos) ← readLen buf l pos
      let (xs, pos) ← Buffer.readSeq (readValue fuel) len pos
      return (.arr xs, pos)
    | .map l => do
      let (len, pos) ← readLen buf l pos
      let (fs, pos) ← Buffer.readSeq (readField buf (readValue fuel)) len pos
      return (.obj (Fields.insertAll fs []), pos)
    | .bin w => do
      -- skipped, without a look at how much is left
      let (len, pos) ← Buffer.readBe buf w pos
      let pos ← advance pos len
      return (.null, pos)
    | .reserved => .none

/-! ## Log entries -/

def readMapHeader (pos : ℕ) : Res (ℕ × ℕ) := do
  let (byte, pos) ← readByte buf pos
  match head byte with
  | .map l => readLen buf l pos
  | _ => .none

def readString (pos : ℕ) : Res (String × ℕ) := do
  let (byte, pos) ← readByte buf pos
  match head byte with
  | .str l => do
    let (len, pos) ← readLen buf l pos
    Buffer.readUtf8 buf len pos
  | _ => .none

def readUintAt (pos : ℕ) : Res (UInt64 × ℕ) := do
  let byte ← Buffer.get buf pos
  let pos ← advance pos 1
  match head byte with
  | .num (.posInt u) => return (u, pos)
  | .uint w => do
    let (n, pos) ← Buffer.readBe buf w pos
    return (UInt64.ofNat n, pos)
  | _ => .none

def skipMsgpackValue [Crates] (pos : ℕ) : Res (Unit × ℕ) := do
  let slice ← Buffer.slice buf pos buf.length
  let rest ← Res.ofOption (Crates.ignoredAny slice)
  let pos ← Buffer.sub buf.length rest.length
  return ((), pos)

/-- Whether the byte at `pos`, if there is one, is a token. -/
def atToken (pos : ℕ) : Res Bool :=
  if pos < buf.length then do
    let byte ← Buffer.index buf pos
    return decide (0xe0 ≤ byte)
  else .ok false

/-- The command of a log entry: a token, or text. -/
def readCmd (pos : ℕ) : Res (String × ℕ) := do
  let token ← atToken buf pos
  if token then do
    let byte ← Buffer.index buf pos
    let pos ← advance pos 1
    return (LogCommand.ofToken (byte.toNat - 256), pos)
  else do
    let (cmd, pos) ← readString buf pos
    return (LogCommand.normalise cmd, pos)

/-- Read `n` more fields of a log entry into `e`. -/
def readEntryFields [Crates] : ℕ → LogEntry → ℕ → Res LogEntry
  | 0, e, _ => .ok e
  | n + 1, e, pos => do
    let (name, pos) ← readString buf pos
    if name = "cmd" then
      let (cmd, pos) ← readCmd buf pos
      readEntryFields n { e with cmd := cmd } pos
    else if name = "collection" then
      let (collection, pos) ← readString buf pos
      readEntryFields n { e with collection := collection } pos
    else if name = "key" then
      let (key, pos) ← readString buf pos
      readEntryFields n { e with key := key } pos
    else if name = "value" then
      let (value, pos) ← readValue buf (buf.length + 1) pos
      readEntryFields n { e with value := value } pos
    else if name = "_t" then
      let (t, pos) ← readUintAt buf pos
      readEntryFields n { e with _t := t } pos
    else
      let (_, pos) ← skipMsgpackValue buf pos
      readEntryFields n e pos

def logEntryFromMsgpack [Crates] : Res LogEntry := do
  let (mapLen, pos) ← readMapHeader buf 0
  readEntryFields buf mapLen ⟨"", "", "", .null, 0⟩ pos

end MoltenDB.Decoder
