/-
  What the scopes of a token say about the keys of one collection.
-/
import MoltenDB.Auth.Types

namespace MoltenDB.Claims

/-- The key patterns of the scopes for an action on a collection. -/
def keyPatterns (claims : Claims) (action collection : String) : List String :=
  claims.scopes.filterMap fun scope =>
    match splitScope scope with
    | some (sAction, sCol, sKey) =>
      if sAction == action && (sCol == "*" || sCol == collection) then some sKey else none
    | none => none

/-- The keys that are named by themselves. -/
def allowedKeys (claims : Claims) (action collection : String) : List String :=
  (claims.keyPatterns action collection).filter fun key => !key.toList.contains '*'

/-- The pattern is a prefix and a wildcard. -/
def isPrefixPattern (key : String) : Bool := key.toList.getLast? == some '*' && key != "*"

/-- The prefixes of patterns, without the stars at their ends. -/
def extractPrefixes (claims : Claims) (action collection : String) : List String :=
  if claims.isAdmin then []
  else
    ((claims.keyPatterns action collection).filter isPrefixPattern).map fun key =>
      String.ofList (key.toList.reverse.dropWhile (· == '*')).reverse

def hasPrefixWildcard (claims : Claims) (action collection : String) : Bool :=
  (claims.keyPatterns action collection).any isPrefixPattern

end MoltenDB.Claims
