/-
  The MessagePack encoding of documents.  System field names are written as
  one-byte negative integers, and read back under their internal names.
-/
import MoltenDB.Lib.Bytes
import MoltenDB.Common.SystemFields

namespace MoltenDB

open Wire

/-! ## Encoding -/

def writeNumber : Number → Bytes
  | .posInt u =>
    if u.toNat ≤ 0x7f then beBytes 1 u.toNat
    else if u.toNat ≤ 0xff then 0xcc :: beBytes 1 u.toNat
    else if u.toNat ≤ 0xffff then 0xcd :: beBytes 2 u.toNat
    else if u.toNat ≤ 0xffffffff then 0xce :: beBytes 4 u.toNat
    else 0xcf :: beBytes 8 u.toNat
  | .negInt i _ =>
    if -32 ≤ i then beInt 1 i
    else if -2 ^ 7 ≤ i then 0xd0 :: beInt 1 i
    else if -2 ^ 15 ≤ i then 0xd1 :: beInt 2 i
    else if -2 ^ 31 ≤ i then 0xd2 :: beInt 4 i
    else 0xd3 :: beInt 8 i
  | .float bits _ => 0xcb :: beBytes 8 bits.toNat

/-- The header of a string; a length above 32 bits is cut to its low bits. -/
def writeStrHeader (len : ℕ) : Bytes :=
  if len ≤ 31 then [0xa0 ||| UInt8.ofNat len]
  else if len ≤ 0xff then 0xd9 :: beBytes 1 len
  else if len ≤ 0xffff then 0xda :: beBytes 2 len
  else 0xdb :: beBytes 4 len

def writeStr (s : String) : Bytes := writeStrHeader (utf8 s).length ++ utf8 s

def writeArrayHeader (len : ℕ) : Bytes :=
  if len ≤ 15 then [0x90 ||| UInt8.ofNat len]
  else if len ≤ 0xffff then 0xdc :: beBytes 2 len
  else 0xdd :: beBytes 4 len

def writeMapHeader (len : ℕ) : Bytes :=
  if len ≤ 15 then [0x80 ||| UInt8.ofNat len]
  else if len ≤ 0xffff then 0xde :: beBytes 2 len
  else 0xdf :: beBytes 4 len

def writeMapKey (key : String) : Bytes :=
  match tokenOf key with
  | some t => [t]
  | none => writeStr key

mutual
def writeValue : Json → Bytes
  | .null => [0xc0]
  | .bool true => [0xc3]
  | .bool false => [0xc2]
  | .num n => writeNumber n
  | .str s => writeStr s
  | .arr xs => writeArrayHeader xs.length ++ writeItems xs
  | .obj fs => writeMapHeader fs.length ++ writeFields fs

def writeItems : List Json → Bytes
  | [] => []
  | x :: xs => writeValue x ++ writeItems xs

def writeFields : List (String × Json) → Bytes
  | [] => []
  | (k, v) :: fs => writeMapKey k ++ writeValue v ++ writeFields fs
end

def valueToMsgpack (v : Json) : Bytes := writeValue v

theorem writeItems_eq (xs : List Json) : writeItems xs = xs.flatMap writeValue := by
  induction xs with
  | nil => rfl
  | cons x xs ih => simp [writeItems, ih]

/-- The bytes of one field of an object. -/
def writeField (p : String × Json) : Bytes := writeMapKey p.1 ++ writeValue p.2

theorem writeFields_eq (fs : List (String × Json)) : writeFields fs = fs.flatMap writeField := by
  induction fs with
  | nil => rfl
  | cons p fs ih => simp [writeFields, writeField, ih]

/-! ## Decoding -/

/-- How the length of a string, array or map is given: in the leading byte, or in
    `w` bytes after it. -/
inductive Len
  | here (n : ℕ)
  | next (w : ℕ)
  deriving DecidableEq

/-- What the leading byte of a value announces. -/
inductive Head
  | null
  | bool (b : Bool)
  | num (n : Number)
  | uint (w : ℕ)
  | int (w : ℕ)
  | float32
  | float64
  | str (l : Len)
  | array (l : Len)
  | map (l : Len)
  | bin (w : ℕ)
  | reserved
  deriving DecidableEq

def head (byte : UInt8) : Head :=
  let b := byte.toNat
  if b ≤ 0x7f then .num (.posInt (UInt64.ofNat b))
  else if b ≤ 0x8f then .map (.here (b % 16))
  else if b ≤ 0x9f then .array (.here (b % 16))
  else if b ≤ 0xbf then .str (.here (b % 32))
  else if b = 0xc0 then .null
  else if b = 0xc2 then .bool false
  else if b = 0xc3 then .bool true
  else if b = 0xc4 then .bin 1
  else if b = 0xc5 then .bin 2
  else if b = 0xc6 then .bin 4
  else if b = 0xca then .float32
  else if b = 0xcb then .float64
  else if b = 0xcc then .uint 1
  else if b = 0xcd then .uint 2
  else if b = 0xce then .uint 4
  else if b = 0xcf then .uint 8
  else if b = 0xd0 then .int 1
  else if b = 0xd1 then .int 2
  else if b = 0xd2 then .int 4
  else if b = 0xd3 then .int 8
  else if b = 0xd9 then .str (.next 1)
  else if b = 0xda then .str (.next 2)
  else if b = 0xdb then .str (.next 4)
  else if b = 0xdc then .array (.next 2)
  else if b = 0xdd then .array (.next 4)
  else if b = 0xde then .map (.next 2)
  else if b = 0xdf then .map (.next 4)
  else if 0xe0 ≤ b then .num (.ofI64 (b - 256))
  else .reserved

/-- The bits of the double with the value of the single `n`. -/
def F64.ofF32 (n : ℕ) : UInt64 :=
  let sign := n / 2 ^ 31
  let exp := n / 2 ^ 23 % 2 ^ 8
  let frac := n % 2 ^ 23
  UInt64.ofNat <| sign * 2 ^ 63 +
    if exp = 0xff then 0x7ff * 2 ^ 52 + frac * 2 ^ 29
    else if exp ≠ 0 then (exp + 896) * 2 ^ 52 + frac * 2 ^ 29
    else if frac = 0 then 0
    else (Nat.log2 frac + 874) * 2 ^ 52 + (frac - 2 ^ Nat.log2 frac) * 2 ^ (52 - Nat.log2 frac)

/-- `Number::from_f64`: there is no JSON number for an infinity or a NaN. -/
def Number.fromF64 (bits : UInt64) : Option Number :=
  if h : F64.Finite bits then some (.float bits h) else none

def readLen (l : Len) (buf : Bytes) : Option (ℕ × Bytes) :=
  match l with
  | .here n => some (n, buf)
  | .next w => readBe w buf

/-- A map key: a negative one-byte integer, or a string read by `rd`. -/
def readMapKey (rd : Bytes → Option (Json × Bytes)) (buf : Bytes) : Option (String × Bytes) :=
  match buf with
  | [] => none
  | byte :: rest =>
    if 0xe0 ≤ byte then some (tokenKey byte, rest)
    else match rd (byte :: rest) with
      | some (.str s, rest) => some (s, rest)
      | _ => none

/-- One field of an object; `rd` reads the value. -/
def readField (rd : Bytes → Option (Json × Bytes)) (buf : Bytes) :
    Option ((String × Json) × Bytes) := do
  let (key, buf) ← readMapKey rd buf
  let (val, buf) ← rd buf
  return ((key, val), buf)

/-- A value at the front of `buf`, nested at most `fuel` deep. -/
def readValue : ℕ → Bytes → Option (Json × Bytes)
  | 0, _ => none
  | _ + 1, [] => none
  | fuel + 1, byte :: buf =>
    match head byte with
    | .null => some (.null, buf)
    | .bool b => some (.bool b, buf)
    | .num n => some (.num n, buf)
    | .uint w => do
      let (n, buf) ← readBe w buf
      return (.num (.posInt (UInt64.ofNat n)), buf)
    | .int w => do
      let (i, buf) ← readInt w buf
      return (.num (.ofI64 i), buf)
    | .float32 => do
      let (n, buf) ← readBe 4 buf
      let x ← Number.fromF64 (F64.ofF32 n)
      return (.num x, buf)
    | .float64 => do
      let (n, buf) ← readBe 8 buf
      let x ← Number.fromF64 (UInt64.ofNat n)
      return (.num x, buf)
    | .str l => do
      let (len, buf) ← readLen l buf
      let (s, buf) ← readUtf8 len buf
      return (.str s, buf)
    | .array l => do
      let (len, buf) ← readLen l buf
      let (xs, buf) ← readSeq (readValue fuel) len buf
      return (.arr xs, buf)
    | .map l => do
      let (len, buf) ← readLen l buf
      let (fs, buf) ← readSeq (readField (readValue fuel)) len buf
      return (.obj (Fields.insertAll fs []), buf)
    | .bin w => do
      let (len, buf) ← readBe w buf
      return (.null, buf.drop len)
    | .reserved => none

def msgpackToValue (bytes : Bytes) : Option Json := (readValue bytes.length bytes).map Prod.fst

/-! ## Names at the API boundary -/

mutual
def expandSystemFields : Json → Json
  | .obj fs => .obj (Fields.insertAll (expandFields fs) [])
  | .arr xs => .arr (expandItems xs)
  | v => v

def expandItems : List Json → List Json
  | [] => []
  | x :: xs => expandSystemFields x :: expandItems xs

def expandFields : List (String × Json) → List (String × Json)
  | [] => []
  | (k, v) :: fs => (publicName k, expandSystemFields v) :: expandFields fs
end

end MoltenDB
