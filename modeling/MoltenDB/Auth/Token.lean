/-
  Making, checking and exchanging tokens.
-/
import MoltenDB.Auth.Store

namespace MoltenDB

variable [AuthCrates]

def verifyToken (now : Instant) (token : String) : Except AuthError Claims :=
  AuthCrates.decode now.unixSecs token

/-- A token and its identifier, the fresh `uuid`. -/
def createScopedToken (now : Instant) (uuid username : String) (scopes : List String)
    (ttlSecs : UInt64) : Except AuthError (String × String) :=
  let claims : Claims := ⟨username, now.unixSecs + ttlSecs, scopes, uuid⟩
  match AuthCrates.encode claims with
  | .error e => .error e
  | .ok token => .ok (token, uuid)

/-- Exchange a token for one with a fresh expiry; the old one is revoked. -/
def refreshScopedToken (now : Instant) (uuid oldToken : String) (newTtlSecs : UInt64)
    (store : RevocationStore) : Except AuthError (String × String) × RevocationStore :=
  match verifyToken now oldToken with
  | .error e => (.error e, store)
  | .ok claims =>
    if claims.jti = "" then (.error (.invalidToken "InvalidToken"), store)
    else if claims.isAdmin then (.error .refreshNotAllowed, store)
    else if store.isRevoked claims.jti then (.error .tokenRevoked, store)
    else
      match createScopedToken now uuid claims.sub claims.scopes newTtlSecs with
      | .error e => (.error e, store)
      | .ok (newToken, newJti) =>
        match now.addSecs newTtlSecs with
        | none => (.error (.panicked Instant.OVERFLOW), store)
        | some pruneAfter => (.ok (newToken, newJti), store.revoke claims.jti pruneAfter)

/-- What an exchange does to the store: nothing, or the old token is revoked until the new
    lifetime has passed. -/
theorem refreshScopedToken_cases (now : Instant) (uuid oldToken : String) (newTtlSecs : UInt64)
    (store : RevocationStore) :
    ((∃ e, (refreshScopedToken now uuid oldToken newTtlSecs store).1 = .error e) ∧
        (refreshScopedToken now uuid oldToken newTtlSecs store).2 = store) ∨
      ∃ claims pruneAfter r, verifyToken now oldToken = .ok claims ∧
        now.addSecs newTtlSecs = some pruneAfter ∧
        refreshScopedToken now uuid oldToken newTtlSecs store =
          (.ok r, store.revoke claims.jti pruneAfter) := by
  unfold refreshScopedToken
  cases hverify : verifyToken now oldToken with
  | error e => exact Or.inl ⟨⟨e, rfl⟩, rfl⟩
  | ok claims =>
    dsimp only
    split_ifs with hjti hadmin hrevoked
    · exact Or.inl ⟨⟨_, rfl⟩, rfl⟩
    · exact Or.inl ⟨⟨_, rfl⟩, rfl⟩
    · exact Or.inl ⟨⟨_, rfl⟩, rfl⟩
    · cases hcreate : createScopedToken now uuid claims.sub claims.scopes newTtlSecs with
      | error e => exact Or.inl ⟨⟨e, rfl⟩, rfl⟩
      | ok r =>
        obtain ⟨newToken, newJti⟩ := r
        cases hadd : now.addSecs newTtlSecs with
        | none => exact Or.inl ⟨⟨_, rfl⟩, rfl⟩
        | some pruneAfter => exact Or.inr ⟨claims, pruneAfter, _, rfl, rfl, rfl⟩

end MoltenDB
