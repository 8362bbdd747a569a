/-
  The third-party code behind the tokens and the revocation file, with the
  documented behaviour that the program relies on.
-/
import MoltenDB.Auth.Types
import MoltenDB.Common.JsonText
import MoltenDB.Lib.Hex

namespace MoltenDB

open Wire JsonText

/-- JSON text without floats and of little depth is read back by `serde_json`. -/
class AuthCrates where
  /-- `serde_json::to_string`, the fields of an object in the order they come. -/
  toString : Json → String
  toString_injective {v w : Json} (hv : Integers v) (hw : Integers w)
    (h : toString v = toString w) : v = w
  /-- `serde_json::from_str` to a `Value`. -/
  fromStr : String → Except String Json
  fromStr_toString {v : Json} (hv : Integers v) (ho : v.Ordered) (hd : v.depth < 128) :
    fromStr (toString v) = .ok v
  /-- Why `serde_json::from_value` makes no map of strings to 64-bit integers of a value. -/
  notEntries : Json → String
  /-- HMAC-SHA256 under `JWT_SECRET`: bytes with the same tag are the same. -/
  hmac : Bytes → Bytes
  hmac_injective : Function.Injective hmac
  /-- `jsonwebtoken::decode` with the default validation, at a Unix time in seconds. -/
  decode : UInt64 → String → Except AuthError Claims
  /-- `jsonwebtoken::encode`. -/
  encode : Claims → Except AuthError String

/-- The fields of an object that is read: later ones replace earlier ones. -/
def JsonText.merge (fs : List (String × Json)) : List (String × Json) := Fields.insertAll fs []

/-- `from_str` of the compact text: one value and nothing after it. -/
def JsonText.fromStr (s : String) : Except String Json :=
  match read merge s.toList.length s.toList with
  | some (v, []) => .ok v
  | _ => .error "expected value"

theorem JsonText.fromStr_write {float : UInt64 → List Char} {v : Json} (hv : Integers v)
    (ho : v.Ordered) : fromStr (String.ofList (write float v)) = .ok v := by
  have hkept : v.every (keptHere merge) = true := by
    induction v with
    | arr xs ih =>
      exact Json.every_arr.2 ⟨rfl, fun x hx =>
        ih x hx ((Json.every_arr.1 hv).2 x hx) ((Json.every_arr.1 ho).2 x hx)⟩
    | obj fs ih =>
      obtain ⟨hsorted, hall⟩ := Json.every_obj.1 ho
      refine Json.every_obj.2 ⟨?_, fun p hp => ih p hp ((Json.every_obj.1 hv).2 p hp) (hall p hp)⟩
      exact decide_eq_true (Fields.insertAll_self (of_decide_eq_true hsorted))
    | null => rfl
    | bool b => rfl
    | num n => rfl
    | str s => rfl
  have hread : read merge (write float v).length (write float v ++ []) = some (v, []) :=
    read_write hv hkept le_rfl (by simp)
  rw [List.append_nil] at hread
  rw [fromStr, String.toList_ofList, hread]

/-- The claims as the payload of a token. -/
def Claims.toJson (claims : Claims) : Json :=
  .obj [("exp", .ofU64 claims.exp), ("jti", .str claims.jti),
    ("scopes", .arr (claims.scopes.map .str)), ("sub", .str claims.sub)]

def Claims.ofJson (v : Json) : Option Claims := do
  let sub ← (← v.get "sub").asStr
  let exp ← (← v.get "exp").asU64
  let scopes ← ((← v.get "scopes").asArray.getD []).mapM Json.asStr
  let jti ← (← v.get "jti").asStr
  return ⟨sub, exp, scopes, jti⟩

/-- An instance to evaluate the model with: bytes are their own tag, and a token is the
    text of its payload, accepted until a minute after its expiry. -/
@[reducible] def AuthCrates.plain : AuthCrates where
  toString v := String.ofList (write (fun _ => ['0', '.', '5']) v)
  toString_injective hv hw h := write_injective hv hw (String.ofList_injective h)
  fromStr := JsonText.fromStr
  fromStr_toString hv ho _ := JsonText.fromStr_write hv ho
  notEntries _ := "invalid type"
  hmac bytes := bytes
  hmac_injective _ _ h := h
  decode nowSecs token :=
    match (JsonText.fromStr token).toOption.bind Claims.ofJson with
    | none => .error (.invalidToken "InvalidToken")
    | some claims => if claims.exp + 60 < nowSecs then .error .tokenExpired else .ok claims
  encode claims := .ok (String.ofList (write (fun _ => ['0', '.', '5']) claims.toJson))

/-- A token is read as the claims that it was made for, and as the same at all times. -/
class SignedTokens extends AuthCrates where
  decode_time {now now' : UInt64} {token : String} {claims claims' : Claims}
    (h : decode now token = .ok claims) (h' : decode now' token = .ok claims') : claims = claims'
  decode_encode {now : UInt64} {claims read : Claims} {token : String}
    (hencode : encode claims = .ok token) (hdecode : decode now token = .ok read) : read = claims

theorem Claims.every_toJson {p : Json → Bool} {claims : Claims} (hobj : p claims.toJson = true)
    (hexp : p (.ofU64 claims.exp) = true) (hstr : ∀ s, p (.str s) = true)
    (harr : ∀ xs, p (.arr xs) = true) : claims.toJson.every p = true := by
  refine Json.every_obj.2 ⟨hobj, fun f hf => ?_⟩
  simp only [List.mem_cons, List.not_mem_nil, or_false] at hf
  rcases hf with rfl | rfl | rfl | rfl
  · exact hexp
  · exact hstr _
  · refine Json.every_arr.2 ⟨harr _, fun x hx => ?_⟩
    obtain ⟨scope, -, rfl⟩ := List.mem_map.1 hx
    exact hstr scope
  · exact hstr _

theorem Claims.ofJson_toJson (claims : Claims) : Claims.ofJson claims.toJson = some claims := by
  have hscopes : (claims.scopes.map Json.str).mapM Json.asStr = some claims.scopes := by
    induction claims.scopes with
    | nil => rfl
    | cons scope scopes ih => simp [ih, Json.asStr]
  obtain ⟨sub, exp, scopes, jti⟩ := claims
  change (do
    let ss ← (scopes.map Json.str).mapM Json.asStr
    some (⟨sub, exp, ss, jti⟩ : Claims)) = _
  rw [hscopes]
  rfl

theorem AuthCrates.decode_plain {now : UInt64} {token : String} {claims : Claims}
    (h : plain.decode now token = .ok claims) :
    (JsonText.fromStr token).toOption.bind Claims.ofJson = some claims := by
  change (match (JsonText.fromStr token).toOption.bind Claims.ofJson with
    | none => _
    | some claims => if claims.exp + 60 < now then _ else Except.ok claims) = _ at h
  split at h
  · cases h
  · next claims' hread =>
    split_ifs at h
    cases h
    exact hread

@[reducible] def SignedTokens.plain : SignedTokens where
  toAuthCrates := .plain
  decode_time h h' := Option.some.inj ((AuthCrates.decode_plain h).symm.trans (AuthCrates.decode_plain h'))
  decode_encode {now claims read token} hencode hdecode := by
    have hkeys : ["exp", "jti", "scopes", "sub"].Pairwise (compare · · = .lt) := by decide
    have hsorted : Fields.Sorted [("exp", Json.ofU64 claims.exp), ("jti", .str claims.jti),
        ("scopes", .arr (claims.scopes.map .str)), ("sub", .str claims.sub)] :=
      List.pairwise_map (l := [("exp", Json.ofU64 claims.exp), ("jti", .str claims.jti),
        ("scopes", .arr (claims.scopes.map .str)), ("sub", .str claims.sub)]) (f := Prod.fst) |>.1 hkeys
    have hfrom : JsonText.fromStr token = .ok claims.toJson := by
      rw [← Except.ok.inj hencode]
      exact JsonText.fromStr_write (Claims.every_toJson rfl rfl (fun _ => rfl) fun _ => rfl)
        (Claims.every_toJson (decide_eq_true hsorted) rfl (fun _ => rfl) fun _ => rfl)
    have hread := AuthCrates.decode_plain hdecode
    rw [hfrom, Except.toOption, Option.bind_some, Claims.ofJson_toJson] at hread
    exact (Option.some.inj hread).symm

end MoltenDB
