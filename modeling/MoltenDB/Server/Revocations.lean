/-
  Revocation as the server runs it: tokens are exchanged and revoked, old entries are
  pruned, and the list is saved to its file and loaded again at a restart.
-/
import MoltenDB.Auth.Token

namespace MoltenDB

open RevocationStore

/-- The revocation store and its file.  `unsaved` are the tokens revoked since the file
    was last written; nothing depends on them. -/
structure Revocations where
  store : RevocationStore
  file : ReadResult
  unsaved : List String

namespace Revocations

/-- A server that was never started before. -/
def start : Revocations := ⟨.new, .notFound, []⟩

variable [AuthCrates]

def save (s : Revocations) (now : Instant) (walk : Walk) : Revocations :=
  { s with file := .contents (s.store.saveToFile now (walk.order s.store.revoked.keys)),
           unsaved := [] }

def DEFAULT_REVOKE_TTL_SECS : UInt64 := 86400

/-- The time until which a revoked token is kept in the store, from the `exp` of the
    request if there is one. -/
def pruneAfter (now : Instant) (payload : Json) : Option Instant :=
  match (payload.get "exp").bind Json.asU64 with
  | some expSecs =>
    now.addSecs (if expSecs < now.unixSecs then 0 else expSecs - now.unixSecs)
  | none => now.addSecs DEFAULT_REVOKE_TTL_SECS

/-- `DELETE /auth/tokens/:jti`: the status, the body and the state after it; `none` if the
    handler panics. -/
def handleRevoke (s : Revocations) (now : Instant) (walk : Walk) (claims : Claims) (jti : String)
    (payload : Json) : Option (ℕ × Json) × Revocations :=
  if !claims.isAdmin then
    (some (403, json [("error", .str "Admin access required to revoke tokens")]), s)
  else if jti = "" then (some (400, json [("error", .str "jti must not be empty")]), s)
  else
    match pruneAfter now payload with
    | none => (none, s)
    | some deadline =>
      (some (200, json [("revoked", .str jti),
        ("message", .str "Token has been revoked successfully")]),
        { s with store := s.store.revoke jti deadline }.save now walk)

/-- What a request to revoke does: nothing, or the token is revoked and the store saved. -/
theorem handleRevoke_cases (s : Revocations) (now : Instant) (walk : Walk) (claims : Claims)
    (jti : String) (payload : Json) :
    ((∀ body, (s.handleRevoke now walk claims jti payload).1 ≠ some (200, body)) ∧
        (s.handleRevoke now walk claims jti payload).2 = s) ∨
      ∃ deadline body, pruneAfter now payload = some deadline ∧
        s.handleRevoke now walk claims jti payload =
          (some (200, body), { s with store := s.store.revoke jti deadline }.save now walk) := by
  unfold handleRevoke
  split_ifs with hadmin hempty
  · exact Or.inl ⟨fun body heq => by simp at heq, rfl⟩
  · exact Or.inl ⟨fun body heq => by simp at heq, rfl⟩
  · cases hafter : pruneAfter now payload with
    | none => exact Or.inl ⟨fun body => nofun, rfl⟩
    | some deadline => exact Or.inr ⟨deadline, _, rfl, rfl⟩

/-- What can happen to the revocations. -/
inductive Step
  | refresh (uuid oldToken : String) (newTtlSecs : UInt64)
  | handleRevoke (walk : Walk) (claims : Claims) (jti : String) (payload : Json)
  | prune
  | save (walk : Walk)
  /-- A restart; the server does not start on a file that it refuses. -/
  | load (path : String)

def refresh (s : Revocations) (now : Instant) (uuid oldToken : String) (newTtlSecs : UInt64) :
    Revocations :=
  match refreshScopedToken now uuid oldToken newTtlSecs s.store, verifyToken now oldToken with
  | (.ok _, store), .ok claims => { s with store := store, unsaved := claims.jti :: s.unsaved }
  | _, _ => s

def step (now : Instant) (s : Revocations) : Step → Option Revocations
  | .refresh uuid oldToken newTtlSecs => some (s.refresh now uuid oldToken newTtlSecs)
  | .handleRevoke walk claims jti payload => some (s.handleRevoke now walk claims jti payload).2
  | .prune => some { s with store := s.store.prune now }
  | .save walk => some (s.save now walk)
  | .load path =>
    match loadFromFile path s.file now with
    | .error _ => none
    | .ok store => some { s with store := store, unsaved := [] }

/-- Steps with the times at which they are made. -/
def run : List (Instant × Step) → Revocations → Option Revocations
  | [], s => some s
  | (now, e) :: es, s => (s.step now e).bind (run es)

end Revocations

end MoltenDB
