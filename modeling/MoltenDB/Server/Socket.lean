/-
  The feed of changes over a WebSocket: the first message authenticates the connection, the
  events that its token may read are forwarded, and at intervals the revocation of the token is
  looked up.
-/
import MoltenDB.Server.Revocations

namespace MoltenDB

/-- The text of a message that ends a connection. -/
def closingText (error detail : String) : String :=
  "\x7b\"error\":\"" ++ error ++ "\",\"detail\":\"" ++ detail ++ "\"\x7d"

variable [AuthCrates]

/-- The first step of `handle_socket`, with the text of the first message if it is a text: the
    claims of the connection, or the message with which it is closed. -/
def authenticate (store : RevocationStore) (now : Instant) (first : Option String) :
    Except String Claims :=
  match first with
  | none => .error (closingText "invalid_message" ("First message must be a text frame containing " ++
      "\x7b\\\"action\\\":\\\"AUTH\\\",\\\"token\\\":\\\"<jwt>\\\"\x7d"))
  | some text =>
    match AuthCrates.fromStr text with
    | .error _ => .error (closingText "invalid_message" ("Could not parse JSON. Expected " ++
        "\x7b\\\"action\\\":\\\"AUTH\\\",\\\"token\\\":\\\"<jwt>\\\"\x7d"))
    | .ok payload =>
      if (payload.get "action").bind Json.asStr ≠ some "AUTH" then
        .error (closingText "invalid_action" ("First message must have \\\"action\\\":\\\"AUTH\\\". " ++
          "Use HTTP endpoints for CRUD operations."))
      else
        match (payload.get "token").bind Json.asStr with
        | none => .error (closingText "missing_token" ("AUTH message is missing the \\\"token\\\" " ++
            "field. Expected \x7b\\\"action\\\":\\\"AUTH\\\",\\\"token\\\":\\\"<jwt>\\\"\x7d"))
        | some token =>
          match verifyToken now token with
          | .error _ => .error (closingText "invalid_token" ("JWT verification failed. The token " ++
              "may be expired, malformed, or signed with the wrong secret."))
          | .ok claims =>
            if store.isRevoked claims.jti then
              .error (closingText "token_revoked" ("This token has been revoked. Mint a new token " ++
                "via POST /auth/tokens."))
            else .ok claims

/-- What the channel of events gives a connection. -/
inductive RecvResult
  | ok (msg : String)
  /-- Some events were missed. -/
  | lagged (n : UInt64)
  | closed

/-- A message to the client. -/
inductive Frame
  | event (msg : String)
  | tokenRevoked

/-- The state of the `send_task` of a connection, with what it has sent, the last message first. -/
structure SendTask where
  claims : Claims
  isOpen : Bool
  sent : List (Instant × Frame)

namespace SendTask

/-- Whether the token may read the collection that an event is about. -/
def allowed (claims : Claims) (msg : String) : Bool :=
  match AuthCrates.fromStr msg with
  | .error _ => false
  | .ok event =>
    match (event.get "collection").bind Json.asStr with
    | some collection => claims.hasCollectionAccess "read" collection
    | none => false

/-- An event, or the end of the channel; `taken` if the client can still be reached. -/
def recv (task : SendTask) (now : Instant) (result : RecvResult) (taken : Bool) : SendTask :=
  if !task.isOpen then task
  else
    match result with
    | .ok msg =>
      if allowed task.claims msg then
        if taken then { task with sent := (now, .event msg) :: task.sent }
        else { task with isOpen := false }
      else task
    | .lagged _ => task
    | .closed => { task with isOpen := false }

omit [AuthCrates] in
/-- The look at the store every 30 seconds. -/
def check (task : SendTask) (store : RevocationStore) (now : Instant) : SendTask :=
  if !task.isOpen then task
  else if store.isRevoked task.claims.jti then
    { task with isOpen := false, sent := (now, .tokenRevoked) :: task.sent }
  else task

end SendTask

/-- A connection, and the revocations of the server.  Nothing depends on the last two: whether
    the token was revoked since the connection was made, and whether a look at the store came
    after that. -/
structure Socket where
  revocations : Revocations
  task : SendTask
  revoked : Bool
  noticed : Bool

inductive SocketStep
  | recv (result : RecvResult) (taken : Bool)
  | check
  | revoke (walk : Walk) (caller : Claims) (jti : String) (payload : Json)
  /-- A round of the task that prunes the store. -/
  | prune (walk : Walk)
  | disconnect

namespace Socket

/-- A connection that has just been authenticated. -/
def connect (revocations : Revocations) (now : Instant) (first : Option String) :
    Except String Socket :=
  (authenticate revocations.store now first).map fun claims =>
    ⟨revocations, ⟨claims, true, []⟩, false, false⟩

def step (s : Socket) (e : Instant × SocketStep) : Socket :=
  match e.2 with
  | .recv result taken => { s with task := s.task.recv e.1 result taken }
  | .check =>
    { s with task := s.task.check s.revocations.store e.1, noticed := s.noticed || s.revoked }
  | .revoke walk caller jti payload =>
    let (response, revocations) := s.revocations.handleRevoke e.1 walk caller jti payload
    { s with revocations := revocations,
             revoked := s.revoked || (jti == s.task.claims.jti && response.any (·.1 == 200)) }
  | .prune walk =>
    { s with revocations :=
        { s.revocations with store := s.revocations.store.prune e.1 }.save e.1 walk }
  | .disconnect => { s with task := { s.task with isOpen := false } }

end Socket

end MoltenDB
