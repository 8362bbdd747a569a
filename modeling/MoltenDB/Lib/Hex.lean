/-
  Bytes as hexadecimal text.
-/
import MoltenDB.Lib.Bytes

open Wire

namespace Hex

/-- The value of a hexadecimal digit, in either case. -/
def nibble (c : Char) : Option ℕ :=
  if c.isDigit then some (c.toNat - 48)
  else if 97 ≤ c.toNat ∧ c.toNat ≤ 102 then some (c.toNat - 87)
  else if 65 ≤ c.toNat ∧ c.toNat ≤ 70 then some (c.toNat - 55)
  else none

/-- `hex::encode`: lowercase digits. -/
def encode (bytes : Bytes) : String :=
  String.ofList
    (bytes.flatMap fun b => [Nat.digitChar (b.toNat / 16), Nat.digitChar (b.toNat % 16)])

def decodeChars : List Char → Option Bytes
  | [] => some []
  | [_] => none
  | a :: b :: cs => do
    let x ← nibble a
    let y ← nibble b
    let bytes ← decodeChars cs
    return UInt8.ofNat (16 * x + y) :: bytes

/-- `hex::decode`. -/
def decode (s : String) : Option Bytes := decodeChars s.toList

theorem decode_encode (bytes : Bytes) : decode (encode bytes) = some bytes := by
  have hnibble : ∀ n < 16, nibble (Nat.digitChar n) = some n := by decide
  rw [decode, encode, String.toList_ofList]
  induction bytes with
  | nil => rfl
  | cons b bytes ih =>
    have hlt := b.toNat_lt
    have hx := hnibble (b.toNat / 16) (by omega)
    have hy := hnibble (b.toNat % 16) (by omega)
    have hb : 16 * (b.toNat / 16) + b.toNat % 16 = b.toNat := Nat.div_add_mod _ _
    rw [List.flatMap_cons, List.cons_append, List.cons_append, List.nil_append, decodeChars]
    simp only [hx, hy, ih, hb, Option.bind_eq_bind, Option.bind_some, UInt8.ofNat_toNat]
    rfl

end Hex
