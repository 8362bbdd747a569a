/-
  WHERE clauses evaluated on encoded documents, without decoding them.

  The readers take the bytes from a position on and return what is left, as the source
  advances a slice.
-/
import MoltenDB.Common.TokenReader
import MoltenDB.Common.WhereOperator
import MoltenDB.Query.Values

namespace MoltenDB

open Wire WhereOperator SystemFields

/-! ## Readers -/

/-- A string at the front, and the bytes after what was read of it: the leading byte is
    read even where no string follows. -/
def readMsgpackStr : Bytes → Option String × Bytes
  | [] => (none, [])
  | byte :: buf =>
    match head byte with
    | .str l =>
      match readLen l buf with
      | none => (none, buf)
      | some (len, buf) =>
        match takeN len buf with
        | none => (none, buf)
        | some (text, rest) =>
          match fromUtf8 text with
          | none => (none, buf)
          | some s => (some s, rest)
    | _ => (none, buf)

def readMsgpackArrayLen : Bytes → Option (ℕ × Bytes)
  | [] => none
  | byte :: buf =>
    match head byte with
    | .array l => readLen l buf
    | _ => none

/-- A number as a double; an infinity or a NaN is never stored. -/
def readMsgpackNumber : Bytes → Option ℚ
  | [] => none
  | byte :: buf =>
    match head byte with
    | .num n => some n.asF64
    | .uint w => (readBe w buf).map fun (n, _) => Binary64.roundNat n
    | .int w => (readInt w buf).map fun (i, _) => Binary64.ofInt i
    | .float32 => (readBe 4 buf).bind fun (n, _) => (Number.fromF64 (F64.ofF32 n)).map Number.asF64
    | .float64 =>
      (readBe 8 buf).bind fun (n, _) => (Number.fromF64 (UInt64.ofNat n)).map Number.asF64
    | _ => none

def readMsgpackBool : Bytes → Option Bool
  | [] => none
  | byte :: _ =>
    match head byte with
    | .bool b => some b
    | _ => none

variable [Crates]

/-- Skip one value; nothing is left if that fails. -/
def skipValue (buf : Bytes) : Bytes := (Crates.ignoredAny buf).getD []

/-- The bytes from the value of the key `segment` on, among the next `n` fields. -/
def findKey (segment : String) : ℕ → Bytes → Option Bytes
  | 0, _ => none
  | _ + 1, [] => none
  | n + 1, keyByte :: buf =>
    -- the fields of the system have one-byte keys and are not found by name
    if 0xe0 ≤ keyByte then findKey segment n (skipValue buf)
    else
      match readMsgpackStr (keyByte :: buf) with
      | (none, _) => none
      | (some key, buf) =>
        if key = segment then some buf else findKey segment n (skipValue buf)

/-- The bytes from the value at a path on. -/
def findMsgpackValue (bytes : Bytes) : List String → Option Bytes
  | [] => none
  | [segment] => do
    let (mapLen, buf) ← readMapHeader bytes
    findKey segment mapLen buf
  | segment :: parts => do
    let (mapLen, buf) ← readMapHeader bytes
    let buf ← findKey segment mapLen buf
    findMsgpackValue buf parts

/-- A system field under its public name, if it is an unsigned integer. -/
def readMsgpackSystemFieldU64 (bytes : Bytes) (field : String) : Option UInt64 :=
  if field = SEQ then readTokenU64 bytes TOK_SEQ
  else if field = CREATED_AT then readTokenU64 bytes TOK_CREATED_AT
  else if field = MODIFIED_AT then readTokenU64 bytes TOK_MODIFIED_AT
  else if field = EXPIRES_AT then readTokenU64 bytes TOK_EXPIRES_AT
  else if field = VERSION then readTokenU64 bytes TOK_VERSION
  else none

/-! ## Conditions -/

variable [Lowercase]

def readStrValue (bytes : Bytes) : Option String := (readMsgpackStr bytes).1.map toLowercase

/-- Whether one of the next `n` elements of an array is a string with `needle` in it.  The
    bytes after an element that is no string are those after its leading byte. -/
def scanElements (needle : String) : ℕ → Bytes → Bool
  | 0, _ => false
  | n + 1, buf =>
    match readMsgpackStr buf with
    | (some elem, buf) =>
      if strContains (toLowercase elem) needle then true else scanElements needle n buf
    | (none, buf) => scanElements needle n (skipValue buf)

/-- The system field `sysVal` compared with a number. -/
def evaluateSystemField (sysVal : UInt64) (operator : String) (opValue : Json) : Option Bool := do
  let threshold := Binary64.truncate (← opValue.asF64)
  match ← fromStr operator with
  | .gt => some (threshold < sysVal)
  | .gte => some (threshold ≤ sysVal)
  | .lt => some (sysVal < threshold)
  | .lte => some (sysVal ≤ threshold)
  | .eq => some (sysVal == threshold)
  | .notEq => some (sysVal != threshold)
  | _ => none

/-- Equality with a string, number or boolean; a value of another type is not compared. -/
def evaluateEq (valueSlice : Bytes) (opValue : Json) : Option Bool :=
  match opValue with
  | .str expected => (readStrValue valueSlice).map fun actual => actual == toLowercase expected
  | .num n =>
    (readMsgpackNumber valueSlice).map fun actual => decide (|actual - n.asF64| < Binary64.EPSILON)
  | .bool b => (readMsgpackBool valueSlice).map fun actual => actual == b
  | _ => none

/-- Whether the value is a string and one of `items`. -/
def oneOf (valueSlice : Bytes) (items : List Json) : Bool :=
  let actual := readStrValue valueSlice
  items.any fun v =>
    match actual, v with
    | some a, .str b => a == toLowercase b
    | _, _ => false

def evaluateNumber (rel : ℚ → ℚ → Bool) (valueSlice : Bytes) (opValue : Json) : Option Bool := do
  let threshold ← opValue.asF64
  let actual ← readMsgpackNumber valueSlice
  return rel actual threshold

def evaluateContains (valueSlice : Bytes) (opValue : Json) : Option Bool := do
  let needle := toLowercase (← opValue.asStr)
  match readStrValue valueSlice with
  | some haystack => return strContains haystack needle
  | none =>
    let (arrLen, arrBytes) ← readMsgpackArrayLen valueSlice
    return scanElements needle arrLen arrBytes

/-- The condition `operator` on the value that starts at `valueSlice`. -/
def evaluateSlice (valueSlice : Bytes) (operator : String) (opValue : Json) : Option Bool := do
  match ← fromStr operator with
  | .eq => evaluateEq valueSlice opValue
  | .notEq => (evaluateEq valueSlice opValue).map (!·)
  | .isIn => return oneOf valueSlice (← opValue.asArray)
  | .notIn => return !oneOf valueSlice (← opValue.asArray)
  | .gt => evaluateNumber (fun d o => o < d) valueSlice opValue
  | .gte => evaluateNumber (fun d o => o ≤ d) valueSlice opValue
  | .lt => evaluateNumber (fun d o => d < o) valueSlice opValue
  | .lte => evaluateNumber (fun d o => d ≤ o) valueSlice opValue
  | .contains => evaluateContains valueSlice opValue
  | .or | .and => none

/-- `evaluate_predicate_msgpack`. -/
def evaluatePredicateMsgpack (bytes : Bytes) (fieldPath operator : String) (opValue : Json) :
    Option Bool :=
  match readMsgpackSystemFieldU64 bytes fieldPath with
  | some sysVal => evaluateSystemField sysVal operator opValue
  | none => do
    let valueSlice ← findMsgpackValue bytes (splitDots fieldPath)
    evaluateSlice valueSlice operator opValue

/-! ## Clauses -/

/-- A field-level condition; one that cannot be evaluated does not hold. -/
def evaluateFieldMsgpack (bytes : Bytes) (key : String) (condition : Json) : Bool :=
  match condition with
  | .obj ops => ops.all fun p => (evaluatePredicateMsgpack bytes key p.1 p.2).getD false
  | condition => (evaluatePredicateMsgpack bytes key (asStr .eq) condition).getD false

mutual
/-- `evaluate_where_msgpack`. -/
def evaluateWhereMsgpack (bytes : Bytes) : Json → Option Bool
  | .arr items => some (evaluateAllMsgpack bytes items)
  | .obj entries => evaluateEntriesMsgpack bytes entries
  | _ => none

/-- All clauses hold. -/
def evaluateAllMsgpack (bytes : Bytes) : List Json → Bool
  | [] => true
  | q :: qs => (evaluateWhereMsgpack bytes q).getD false && evaluateAllMsgpack bytes qs

/-- One of the clauses holds. -/
def evaluateAnyMsgpack (bytes : Bytes) : List Json → Bool
  | [] => false
  | q :: qs => (evaluateWhereMsgpack bytes q).getD false || evaluateAnyMsgpack bytes qs

/-- One entry of a clause: `$or`, `$and` or a field. -/
def evaluateEntryMsgpack (bytes : Bytes) (key : String) : Json → Option Bool
  | .arr subQueries =>
    if key = asStr .or then some (evaluateAnyMsgpack bytes subQueries)
    else if key = asStr .and then some (evaluateAllMsgpack bytes subQueries)
    else some (evaluateFieldMsgpack bytes key (.arr subQueries))
  | condition =>
    if key = asStr .or ∨ key = asStr .and then none
    else some (evaluateFieldMsgpack bytes key condition)

def evaluateEntriesMsgpack (bytes : Bytes) : List (String × Json) → Option Bool
  | [] => some true
  | (key, condition) :: entries => do
    if ← evaluateEntryMsgpack bytes key condition then evaluateEntriesMsgpack bytes entries
    else return false
end

end MoltenDB
