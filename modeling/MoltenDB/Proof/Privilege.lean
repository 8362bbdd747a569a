/-
  No token gives more than the token that it was obtained with, and `*:*:*` comes from a password
  or from the root user.
-/
import MoltenDB.Server.Tokens
import MoltenDB.Lib.Runs

namespace MoltenDB

open Runs

section

variable [SignedTokens] [Bcrypt]

omit [SignedTokens] [Bcrypt] in
theorem Claims.isAdmin_iff {claims : Claims} : claims.isAdmin = true ↔ ADMIN_SCOPE ∈ claims.scopes := by
  simp [Claims.isAdmin, ADMIN_SCOPE]

/-! ## What the handlers mint -/

/-- The token of an issue was signed with its claims. -/
def Issue.Signed (i : Issue) : Prop := AuthCrates.encode i.minted.claims = .ok i.minted.token

omit [Bcrypt] in
theorem mint_ok {now : Instant} {uuid username : String} {scopes : List String} {ttlSecs : UInt64}
    {m : Minted} (h : mint now uuid username scopes ttlSecs = .ok m) :
    AuthCrates.encode m.claims = .ok m.token ∧ m.claims.sub = username ∧ m.claims.scopes = scopes := by
  unfold mint createScopedToken at h
  dsimp only at h
  split at h
  · cases h
  · next token hencode =>
    cases h
    exact ⟨hencode, rfl, rfl⟩

theorem handleLogin_issue {users : UserStore} {ttl : UInt64} {now : Instant}
    {uuid username password : String} {i : Issue}
    (h : (handleLogin users ttl now uuid username password).2 = some i) :
    i.origin = .login username password ∧ users.verifyUser username password = true ∧ i.Signed := by
  unfold handleLogin at h
  split_ifs at h with hverify
  split at h
  · next m hm =>
    cases h
    exact ⟨rfl, hverify, (mint_ok hm).1⟩
  · cases h

omit [Bcrypt] in
theorem handleDelegate_issue {root : String} {claims : Claims} {now : Instant} {uuid : String}
    {payload : DelegateRequest} {i : Issue}
    (h : (handleDelegate root claims now uuid payload).2 = some i) :
    i.origin = .delegate claims ∧ claims.isAdmin = true ∧
      (ADMIN_SCOPE ∈ i.minted.claims.scopes → claims.sub = root) ∧ i.Signed := by
  unfold handleDelegate at h
  split_ifs at h with hadmin hroot
  split at h
  · cases h
  · split at h
    · cases h
    · next m hm =>
      cases h
      obtain ⟨hsigned, -, hscopes⟩ := mint_ok hm
      refine ⟨rfl, by simpa using hadmin, fun hmem => ?_, hsigned⟩
      by_contra hne
      apply hroot
      rw [hscopes] at hmem
      simp [hmem, hne]

omit [Bcrypt] in
theorem refreshScopedToken_ok {now : Instant} {uuid oldToken : String} {ttl : UInt64}
    {store : RevocationStore} {r : String × String}
    (h : (refreshScopedToken now uuid oldToken ttl store).1 = .ok r) :
    ∃ old, verifyToken now oldToken = .ok old ∧ old.isAdmin = false ∧
      store.isRevoked old.jti = false ∧
      AuthCrates.encode ⟨old.sub, now.unixSecs + ttl, old.scopes, uuid⟩ = .ok r.1 := by
  unfold refreshScopedToken at h
  split at h
  · cases h
  · next old hold =>
    split_ifs at h with hjti hadmin hrevoked
    split at h
    · cases h
    · next newToken newJti hcreate =>
      split at h
      · cases h
      · cases h
        refine ⟨old, hold, by simpa using hadmin, by simpa using hrevoked, ?_⟩
        unfold createScopedToken at hcreate
        dsimp only at hcreate
        split at hcreate
        · cases hcreate
        · next token hencode =>
          cases hcreate
          exact hencode

omit [Bcrypt] in
theorem handleRefresh_issue {s : Revocations} {now : Instant} {walk : Walk} {uuid : String}
    {header : Option String} {ttlSecs : Option UInt64} {i : Issue}
    (h : (handleRefresh s now walk uuid header ttlSecs).2.1 = some i) :
    ∃ token old, bearerToken header = some token ∧ verifyToken now token = .ok old ∧
      i.origin = .refresh old ∧ i.minted.claims.sub = old.sub ∧
      i.minted.claims.scopes = old.scopes ∧ old.isAdmin = false ∧ i.Signed := by
  unfold handleRefresh at h
  split at h
  · cases h
  · next token hbearer =>
    dsimp only at h
    split at h
    · cases h
    · next newToken newJti store hrefresh =>
      obtain ⟨old, hold, hadmin, -, hencode⟩ := refreshScopedToken_ok (r := (newToken, newJti))
        (by rw [hrefresh])
      rw [hold] at h
      cases h
      exact ⟨token, old, hbearer, hold, rfl, rfl, rfl, hadmin, hencode⟩

omit [Bcrypt] in
theorem authMiddleware_ok {store : RevocationStore} {now : Instant} {header : Option String}
    {claims : Claims} (h : authMiddleware store now header = .ok claims) :
    ∃ token, bearerToken header = some token ∧ verifyToken now token = .ok claims := by
  unfold authMiddleware at h
  split at h
  · cases h
  · next token hbearer =>
    split at h
    · cases h
    · next claims' hverify =>
      split_ifs at h
      cases h
      exact ⟨token, hbearer, hverify⟩

/-! ## What the responses tell -/

/-- The token of a response is the one that was minted. -/
def Tells (response : ℕ × Json) (i : Option Issue) : Prop :=
  response.2.get "token" = i.map fun i => .str i.minted.token

theorem handleLogin_tells (users : UserStore) (ttl : UInt64) (now : Instant)
    (uuid username password : String) :
    Tells (handleLogin users ttl now uuid username password).1
      (handleLogin users ttl now uuid username password).2 := by
  unfold handleLogin
  split_ifs
  · cases mint now uuid username [ADMIN_SCOPE] ttl with
    | ok m => exact get_json _ _
    | error e => exact get_json _ _
  · exact get_json _ _

omit [Bcrypt] in
theorem handleDelegate_tells (root : String) (claims : Claims) (now : Instant) (uuid : String)
    (payload : DelegateRequest) :
    Tells (handleDelegate root claims now uuid payload).1
      (handleDelegate root claims now uuid payload).2 := by
  unfold handleDelegate
  split_ifs
  · exact get_json _ _
  · exact get_json _ _
  · split
    · exact get_json _ _
    · split
      · exact get_json _ _
      · exact get_json _ _

omit [Bcrypt] in
theorem handleRefresh_tells (s : Revocations) (now : Instant) (walk : Walk) (uuid : String)
    (header : Option String) (ttlSecs : Option UInt64) :
    Tells (handleRefresh s now walk uuid header ttlSecs).1
      (handleRefresh s now walk uuid header ttlSecs).2.1 := by
  unfold handleRefresh
  split
  · exact get_json _ _
  · next token hbearer =>
    dsimp only
    split
    · next e store hrefresh =>
      cases e <;> exact get_json _ _
    · next newToken newJti store hrefresh =>
      obtain ⟨old, hold, -⟩ := refreshScopedToken_ok (r := (newToken, newJti)) (by rw [hrefresh])
      rw [hold]
      exact get_json _ _

omit [Bcrypt] in
theorem authMiddleware_tells {store : RevocationStore} {now : Instant} {header : Option String}
    {refusal : ℕ × Json} (h : authMiddleware store now header = .error refusal) :
    Tells refusal none := by
  unfold authMiddleware at h
  split at h
  · cases h
    exact get_json _ _
  · split at h
    · cases h
      exact get_json _ _
    · split_ifs at h
      · cases h
        exact get_json _ _
      · cases h
        exact get_json _ _

omit [Bcrypt] in
theorem handleRevoke_tells {s : Revocations} {now : Instant} {walk : Walk} {claims : Claims}
    {jti : String} {payload : Json} {response : ℕ × Json}
    (h : (s.handleRevoke now walk claims jti payload).1 = some response) : Tells response none := by
  unfold Revocations.handleRevoke at h
  split_ifs at h
  · cases h
    exact get_json _ _
  · cases h
    exact get_json _ _
  · split at h
    · cases h
    · cases h
      exact get_json _ _

/-! ## Runs of the server -/

/-- The token that a call presents. -/
def TokenCall.token : TokenCall → Option String
  | .login _ _ => none
  | .delegate header _ => bearerToken header
  | .refresh header _ => bearerToken header
  | .revoke header _ _ => bearerToken header

/-- Signatures cannot be forged: a token that verifies has been minted here. -/
def Unforged (s : TokenServer) (r : TokenRequest) : Prop :=
  ∀ token ∈ r.call.token, (verifyToken r.seen token).isOk ∨ (verifyToken r.now token).isOk →
    ∃ i ∈ s.issued, i.minted.token = token

/-- The claims of the caller that a token was minted for; nobody is logged in before a login. -/
def Origin.caller : Origin → Option Claims
  | .login _ _ => none
  | .delegate caller => some caller
  | .refresh caller => some caller

/-- Why a token may be minted, after the tokens of `earlier`. -/
structure Issue.Justified (cfg : ServerConfig) (earlier : List Issue) (i : Issue) : Prop where
  /-- The caller holds a token that was minted before. -/
  known : ∀ caller ∈ i.origin.caller, ∃ j ∈ earlier, j.minted.claims = caller
  refreshed : ∀ caller, i.origin = .refresh caller → i.minted.claims.sub = caller.sub ∧
    i.minted.claims.scopes = caller.scopes ∧ ADMIN_SCOPE ∉ i.minted.claims.scopes
  admin : ADMIN_SCOPE ∈ i.minted.claims.scopes →
    (∃ username password, i.origin = .login username password ∧
      cfg.users.verifyUser username password = true) ∨
    ∃ caller, i.origin = .delegate caller ∧ ADMIN_SCOPE ∈ caller.scopes ∧
      caller.sub = cfg.rootUsername
  access : ∀ caller ∈ i.origin.caller, ADMIN_SCOPE ∉ caller.scopes → ∀ action collection key,
    i.minted.claims.hasAccess action collection key = true →
      caller.hasAccess action collection key = true

/-- Each token was justified when it was minted. -/
inductive AllJustified (cfg : ServerConfig) : List Issue → Prop
  | nil : AllJustified cfg []
  | cons {i : Issue} {earlier : List Issue} (hi : i.Justified cfg earlier)
      (h : AllJustified cfg earlier) : AllJustified cfg (i :: earlier)

namespace TokenServer

omit [Bcrypt] in
theorem withClaims_tells {s : TokenServer} {r : TokenRequest} {header : Option String}
    {handle : Claims → Option (ℕ × Json) × TokenServer}
    (hhandle : ∀ claims response, (handle claims).1 = some response →
      ∃ i, (handle claims).2.issued = Option.toList i ++ s.issued ∧ Tells response i)
    {response : ℕ × Json} (h : (s.withClaims r header handle).1 = some response) :
    ∃ i, (s.withClaims r header handle).2.issued = Option.toList i ++ s.issued ∧
      Tells response i := by
  unfold withClaims at h ⊢
  cases hauth : authMiddleware s.revocations.store r.seen header with
  | error refusal =>
    rw [hauth] at h
    cases h
    exact ⟨none, rfl, authMiddleware_tells hauth⟩
  | ok claims =>
    rw [hauth] at h
    exact hhandle claims response h

/-- **The tokens in the responses are the ones that are recorded.** -/
theorem tells {cfg : ServerConfig} {s : TokenServer} {r : TokenRequest} {response : ℕ × Json}
    (h : (s.handle cfg r).1 = some response) :
    ∃ i, (s.next cfg r).issued = Option.toList i ++ s.issued ∧ Tells response i := by
  obtain ⟨seen, now, uuid, walk, call⟩ := r
  cases call with
  | login username password =>
    cases h
    exact ⟨_, rfl, handleLogin_tells ..⟩
  | delegate header payload =>
    refine withClaims_tells (fun claims response hresponse => ?_) h
    cases hresponse
    exact ⟨_, rfl, handleDelegate_tells ..⟩
  | refresh header ttlSecs =>
    refine withClaims_tells (fun _ response hresponse => ?_) h
    cases hresponse
    exact ⟨_, rfl, handleRefresh_tells ..⟩
  | revoke header jti payload =>
    refine withClaims_tells (fun claims response hresponse => ?_) h
    exact ⟨none, rfl, handleRevoke_tells hresponse⟩

/-- All tokens are justified, and read as what they were minted for. -/
structure Sound (cfg : ServerConfig) (s : TokenServer) : Prop where
  justified : AllJustified cfg s.issued
  signed : ∀ i ∈ s.issued, i.Signed

theorem Sound.issue {cfg : ServerConfig} {s : TokenServer} (h : s.Sound cfg) {i : Option Issue}
    (hi : ∀ j ∈ i, j.Justified cfg s.issued ∧ j.Signed) : (s.issue i).Sound cfg := by
  cases i with
  | none => exact h
  | some j =>
    obtain ⟨hjustified, hsigned⟩ := hi j rfl
    exact ⟨.cons hjustified h.justified, List.forall_mem_cons.2 ⟨hsigned, h.signed⟩⟩

/-- The caller of a call holds a token that was minted before. -/
theorem Sound.known {cfg : ServerConfig} {s : TokenServer} (h : s.Sound cfg) {r : TokenRequest}
    (hr : Unforged s r) {token : String} (htoken : r.call.token = some token) {now : Instant}
    (hnow : now = r.seen ∨ now = r.now) {claims : Claims}
    (hverify : verifyToken now token = .ok claims) : ∃ j ∈ s.issued, j.minted.claims = claims := by
  have hok : (verifyToken r.seen token).isOk ∨ (verifyToken r.now token).isOk := by
    rcases hnow with rfl | rfl
    · exact Or.inl (by rw [hverify]; rfl)
    · exact Or.inr (by rw [hverify]; rfl)
  obtain ⟨j, hj, rfl⟩ := hr token htoken hok
  exact ⟨j, hj, (SignedTokens.decode_encode (h.signed j hj) hverify).symm⟩

/-- **A call mints what is justified.** -/
theorem sound_next {cfg : ServerConfig} {s : TokenServer} {r : TokenRequest} (h : s.Sound cfg)
    (hr : Unforged s r) : (s.next cfg r).Sound cfg := by
  obtain ⟨seen, now, uuid, walk, call⟩ := r
  unfold next handle
  cases call with
  | login username password =>
    refine h.issue fun i hi => ?_
    obtain ⟨horigin, hverify, hsigned⟩ := handleLogin_issue hi
    refine ⟨⟨?_, ?_, fun _ => Or.inl ⟨username, password, horigin, hverify⟩, ?_⟩, hsigned⟩
    · simp [horigin, Origin.caller]
    · simp [horigin]
    · simp [horigin, Origin.caller]
  | delegate header payload =>
    dsimp only [withClaims]
    split
    · exact h
    · next claims hclaims =>
      obtain ⟨token, hbearer, hseen⟩ := authMiddleware_ok hclaims
      refine h.issue fun i hi => ?_
      obtain ⟨horigin, hadmin, hroot, hsigned⟩ := handleDelegate_issue hi
      rw [Claims.isAdmin_iff] at hadmin
      refine ⟨⟨?_, ?_, fun hmem => Or.inr ⟨claims, horigin, hadmin, hroot hmem⟩, ?_⟩, hsigned⟩
      · rintro caller hcaller
        rw [horigin] at hcaller
        cases hcaller
        exact h.known hr hbearer (Or.inl rfl) hseen
      · simp [horigin]
      · rintro caller hcaller hnot
        rw [horigin] at hcaller
        cases hcaller
        exact absurd hadmin hnot
  | refresh header ttlSecs =>
    dsimp only [withClaims]
    split
    · exact h
    · have hs : Sound cfg { s with revocations :=
          (handleRefresh s.revocations now walk uuid header ttlSecs).2.2 } := ⟨h.justified, h.signed⟩
      refine hs.issue fun i hi => ?_
      obtain ⟨token, old, hbearer, hold, horigin, hsub, hscopes, hnot, hsigned⟩ :=
        handleRefresh_issue hi
      rw [← Bool.not_eq_true, Claims.isAdmin_iff] at hnot
      refine ⟨⟨?_, ?_, fun hmem => absurd (hscopes ▸ hmem) hnot, ?_⟩, hsigned⟩
      · rintro caller hcaller
        rw [horigin] at hcaller
        cases hcaller
        exact h.known hr hbearer (Or.inr rfl) hold
      · rintro caller hcaller
        rw [horigin] at hcaller
        cases hcaller
        exact ⟨hsub, hscopes, hscopes ▸ hnot⟩
      · rintro caller hcaller - action collection key haccess
        rw [horigin] at hcaller
        cases hcaller
        rwa [Claims.hasAccess, hscopes] at haccess
  | revoke header jti payload =>
    dsimp only [withClaims]
    split
    · exact h
    · exact ⟨h.justified, h.signed⟩

end TokenServer

/-- **Privilege never escalates**, whatever is called with the tokens minted so far. -/
theorem privilege_never_escalates (cfg : ServerConfig) (rs : List TokenRequest)
    (h : Along (TokenServer.next cfg) Unforged .start rs) :
    AllJustified cfg (after (TokenServer.next cfg) .start rs).issued := by
  have hsound := h.keeps (I := TokenServer.Sound cfg) (fun s r hs hr => TokenServer.sound_next hs hr)
    ⟨.nil, by simp [TokenServer.start]⟩
  exact hsound.justified

end

/-- The user `admin`, whose password is its own hash. -/
def adminConfig : ServerConfig :=
  ⟨⟨(∅ : DashMap String).insert "admin" "secret"⟩, "admin", 86400⟩

@[reducible] def Bcrypt.plain : Bcrypt := ⟨fun password hash => some (password == hash)⟩

/-- The header with the token of these claims. -/
def bearer (claims : Claims) : Option String :=
  letI := AuthCrates.plain
  (AuthCrates.encode claims).toOption.map fun token => "Bearer " ++ token

/-- The administrator logs in and delegates, and the token of the client is exchanged. -/
def delegation : List TokenRequest :=
  let request (now : Instant) (uuid : String) (call : TokenCall) : TokenRequest :=
    ⟨now, now, uuid, .plain, call⟩
  [request (.ofSecs 0 (by decide)) "root" (.login "admin" "secret"),
    request (.ofSecs 1 (by decide)) "one"
      (.delegate (bearer ⟨"admin", 86400, ["*:*:*"], "root"⟩) ⟨"app", ["read:c:*"], none⟩),
    request (.ofSecs 2 (by decide)) "two"
      (.refresh (bearer ⟨"app", 3601, ["read:c:*"], "one"⟩) none)]

theorem unforged_delegation :
    letI := SignedTokens.plain
    letI := Bcrypt.plain
    Along (TokenServer.next adminConfig) Unforged .start delegation := by
  unfold delegation Unforged
  refine ⟨?_, ?_, ?_, trivial⟩
  · decide +kernel
  · decide +kernel
  · decide +kernel

theorem privilege_never_escalates_delegation :
    letI := SignedTokens.plain
    letI := Bcrypt.plain
    (after (TokenServer.next adminConfig) .start delegation).issued.length = 3 ∧
      AllJustified adminConfig (after (TokenServer.next adminConfig) .start delegation).issued := by
  refine ⟨by decide +kernel, ?_⟩
  exact @privilege_never_escalates SignedTokens.plain Bcrypt.plain adminConfig delegation
    unforged_delegation

end MoltenDB
