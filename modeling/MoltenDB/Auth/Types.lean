/-
  Tokens: their claims, the scopes they carry, and the errors of the auth code.

  A scope is text `action:collection:key`, split at its first two colons.
-/
import Mathlib.Tactic

namespace MoltenDB

/-- The parts before and after the first colon. -/
def cutAtColon (cs : List Char) : Option (List Char × List Char) :=
  match cs.dropWhile (· ≠ ':') with
  | [] => none
  | _ :: rest => some (cs.takeWhile (· ≠ ':'), rest)

/-- `splitn(3, ':')` of a scope, when it has three parts. -/
def splitScope (scope : String) : Option (String × String × String) := do
  let (action, rest) ← cutAtColon scope.toList
  let (col, key) ← cutAtColon rest
  return (String.ofList action, String.ofList col, String.ofList key)

/-- Whether a scope's key pattern matches a document key. -/
def keyMatches (pattern key : String) : Bool :=
  if pattern = "*" then true
  else if pattern.toList.getLast? = some '*' then pattern.toList.dropLast.isPrefixOf key.toList
  else pattern == key

structure Claims where
  sub : String
  /-- The expiry, in Unix seconds. -/
  exp : UInt64
  scopes : List String
  jti : String
  deriving DecidableEq

namespace Claims

def isAdmin (claims : Claims) : Bool := claims.scopes.any (· == "*:*:*")

/-- Whether one scope grants `action` on a document. -/
def scopeGrants (action collection docKey scope : String) : Bool :=
  if scope = "*:*:*" then true
  else
    match splitScope scope with
    | none => false
    | some (sAction, sCol, sKey) =>
      sAction == action && (sCol == "*" || sCol == collection) && keyMatches sKey docKey

def hasAccess (claims : Claims) (action collection docKey : String) : Bool :=
  claims.scopes.any (scopeGrants action collection docKey)

def hasCollectionAccess (claims : Claims) (action collection : String) : Bool :=
  claims.hasAccess action collection "*"

end Claims

inductive AuthError
  | invalidToken (err : String)
  | tokenExpired
  | tokenRevoked
  | refreshNotAllowed
  /-- No error that is returned: the call panics. -/
  | panicked (msg : String)
  deriving DecidableEq

end MoltenDB
