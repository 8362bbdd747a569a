/-
  The endpoints that mint and revoke tokens, behind the middleware that checks the token of a
  request.

  A server records the tokens that it has minted, and how; none of its answers depends on that.
-/
import MoltenDB.Server.Revocations

namespace MoltenDB

open RevocationStore

def ADMIN_SCOPE : String := "*:*:*"

def DEFAULT_DELEGATE_TTL_SECS : UInt64 := 3600

def AuthError.display : AuthError → String
  | invalidToken e => "Invalid token: " ++ e
  | tokenExpired => "Token has expired"
  | tokenRevoked => "Token has been revoked"
  | refreshNotAllowed =>
    "Admin tokens (*:*:*) cannot be refreshed via this endpoint — re-delegate via POST /auth/delegate"
  | panicked msg => msg

/-- A body with one error text. -/
def errorBody (text : String) : Json := json [("error", .str text)]

/-! ## Users -/

/-- `bcrypt::verify` of a password against a hash, which may fail. -/
class Bcrypt where
  verify : String → String → Option Bool

/-- The users, with the hashes of their passwords. -/
structure UserStore where
  users : DashMap String

def UserStore.verifyUser [Bcrypt] (store : UserStore) (username password : String) : Bool :=
  match store.users[username]? with
  | some hash => (Bcrypt.verify password hash).getD false
  | none => false

/-! ## Minting -/

/-- A token that was minted for these claims. -/
structure Minted where
  token : String
  claims : Claims

/-- How a token was minted: for whom who logged in, or for which caller. -/
inductive Origin
  | login (username password : String)
  | delegate (caller : Claims)
  | refresh (caller : Claims)

structure Issue where
  minted : Minted
  origin : Origin

structure DelegateRequest where
  clientId : String
  scopes : List String
  ttlSecs : Option UInt64

variable [AuthCrates]

/-- `create_scoped_token`, with the claims that it signs. -/
def mint (now : Instant) (uuid username : String) (scopes : List String) (ttlSecs : UInt64) :
    Except AuthError Minted :=
  (createScopedToken now uuid username scopes ttlSecs).map fun r =>
    ⟨r.1, ⟨username, now.unixSecs + ttlSecs, scopes, uuid⟩⟩

/-- `POST /login`. -/
def handleLogin [Bcrypt] (users : UserStore) (rootTokenTtl : UInt64) (now : Instant)
    (uuid username password : String) : (ℕ × Json) × Option Issue :=
  if users.verifyUser username password then
    match mint now uuid username [ADMIN_SCOPE] rootTokenTtl with
    | .ok m => ((200, json [("token", .str m.token)]), some ⟨m, .login username password⟩)
    | .error _ => ((500, errorBody "Failed to create token"), none)
  else ((401, errorBody "Invalid credentials"), none)

/-- `POST /auth/delegate`, for a caller with these claims. -/
def handleDelegate (rootUsername : String) (claims : Claims) (now : Instant) (uuid : String)
    (payload : DelegateRequest) : (ℕ × Json) × Option Issue :=
  if !claims.isAdmin then ((403, errorBody "Admin access required to delegate tokens"), none)
  else if payload.scopes.any (· == ADMIN_SCOPE) && claims.sub != rootUsername then
    ((403, errorBody "Only the root user can mint '*:*:*' (admin) tokens"), none)
  else
    match payload.scopes.find? fun scope => scope != ADMIN_SCOPE && (splitScope scope).isNone with
    | some scope => ((400, errorBody ("Invalid scope '" ++ scope ++
        "'. Expected format: 'action:collection:key'")), none)
    | none =>
      match mint now uuid payload.clientId payload.scopes
          (payload.ttlSecs.getD DEFAULT_DELEGATE_TTL_SECS) with
      | .error e => ((500, errorBody ("Token creation failed: " ++ e.display)), none)
      | .ok m =>
        ((200, json [("token", .str m.token), ("client_id", .str payload.clientId),
          ("scopes", .arr (payload.scopes.map .str)), ("jti", .str m.claims.jti)]),
          some ⟨m, .delegate claims⟩)

/-! ## The middleware -/

/-- The token of an `Authorization` header. -/
def bearerToken (header : Option String) : Option String :=
  match header with
  | some h =>
    if "Bearer ".toList.isPrefixOf h.toList then some (String.ofList (h.toList.drop 7)) else none
  | none => none

/-- `auth_middleware`: the claims of the caller, or the refusal of the request. -/
def authMiddleware (store : RevocationStore) (now : Instant) (header : Option String) :
    Except (ℕ × Json) Claims :=
  match bearerToken header with
  | none => .error (401, errorBody "Missing or invalid Authorization header")
  | some token =>
    match verifyToken now token with
    | .error _ => .error (401, errorBody "Invalid or expired token")
    | .ok claims =>
      if claims.jti = "" then .error (401, errorBody "Token missing required jti claim")
      else if store.isRevoked claims.jti then .error (401, errorBody "Token has been revoked")
      else .ok claims

/-! ## Exchanging -/

/-- The answer to a refresh that fails. -/
def refreshError : AuthError → ℕ × Json
  | .refreshNotAllowed =>
    (403, errorBody "Admin tokens cannot be refreshed — re-delegate via POST /auth/delegate")
  | .tokenRevoked => (401, errorBody "Token has been revoked")
  | .tokenExpired => (401, errorBody "Token has expired — re-authenticate via POST /auth/login")
  | .invalidToken _ => (401, errorBody "Invalid token — re-authenticate via POST /auth/login")
  | e => (500, errorBody ("Unexpected error: " ++ e.display))

/-- `POST /auth/refresh`; `ttl_secs` is that of the body. -/
def handleRefresh (s : Revocations) (now : Instant) (walk : Walk) (uuid : String)
    (header : Option String) (ttlSecs : Option UInt64) : (ℕ × Json) × Option Issue × Revocations :=
  match bearerToken header with
  | none => ((401, errorBody "Missing or invalid Authorization header"), none, s)
  | some token =>
    let ttl := ttlSecs.getD DEFAULT_DELEGATE_TTL_SECS
    match refreshScopedToken now uuid token ttl s.store with
    | (.error e, store) => (refreshError e, none, { s with store := store })
    | (.ok (newToken, newJti), store) =>
      ((200, json [("token", .str newToken), ("jti", .str newJti), ("expires_in", .ofU64 ttl)]),
        (verifyToken now token).toOption.map fun old =>
          ⟨⟨newToken, ⟨old.sub, now.unixSecs + ttl, old.scopes, uuid⟩⟩, .refresh old⟩,
        { s with store := store }.save now walk)

/-! ## The server -/

structure ServerConfig where
  users : UserStore
  rootUsername : String
  rootTokenTtl : UInt64

/-- The revocations, and the tokens minted so far, the last one first. -/
structure TokenServer where
  revocations : Revocations
  issued : List Issue

def TokenServer.start : TokenServer := ⟨.start, []⟩

inductive TokenCall
  | login (username password : String)
  | delegate (header : Option String) (payload : DelegateRequest)
  | refresh (header : Option String) (ttlSecs : Option UInt64)
  | revoke (header : Option String) (jti : String) (payload : Json)

/-- A call with what the server draws for it: the times at which the middleware and the handler
    run, a fresh identifier, and the order in which the revocations are saved. -/
structure TokenRequest where
  seen : Instant
  now : Instant
  uuid : String
  walk : Walk
  call : TokenCall

namespace TokenServer

/-- Add what was minted. -/
def issue (s : TokenServer) (i : Option Issue) : TokenServer := { s with issued := i.toList ++ s.issued }

/-- Run a handler on the claims of the caller, if the middleware lets the request through. -/
def withClaims (s : TokenServer) (r : TokenRequest) (header : Option String)
    (handle : Claims → Option (ℕ × Json) × TokenServer) : Option (ℕ × Json) × TokenServer :=
  match authMiddleware s.revocations.store r.seen header with
  | .error refusal => (some refusal, s)
  | .ok claims => handle claims

/-- The response to a request, and the server after it; no response if the handler panics. -/
def handle [Bcrypt] (cfg : ServerConfig) (s : TokenServer) (r : TokenRequest) :
    Option (ℕ × Json) × TokenServer :=
  match r.call with
  | .login username password =>
    let (response, i) := handleLogin cfg.users cfg.rootTokenTtl r.now r.uuid username password
    (some response, s.issue i)
  | .delegate header payload => s.withClaims r header fun claims =>
    let (response, i) := handleDelegate cfg.rootUsername claims r.now r.uuid payload
    (some response, s.issue i)
  | .refresh header ttlSecs => s.withClaims r header fun _ =>
    let (response, i, revocations) := handleRefresh s.revocations r.now r.walk r.uuid header ttlSecs
    (some response, { s with revocations := revocations }.issue i)
  | .revoke header jti payload => s.withClaims r header fun claims =>
    let (response, revocations) := s.revocations.handleRevoke r.now r.walk claims jti payload
    (response, { s with revocations := revocations })

def next [Bcrypt] (cfg : ServerConfig) (s : TokenServer) (r : TokenRequest) : TokenServer :=
  (s.handle cfg r).2

end TokenServer

end MoltenDB
