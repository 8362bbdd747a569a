/-
  Calls of `/auth/refresh` that present one token at the same time.

  A call looks in the store whether the token is revoked, and revokes it in a later step.  The
  token is exchanged once if no call looks while another one is between these two steps
  (`exchanged_once`); two calls that overlap so can both succeed (`overlap_succeeds`).
-/
import MoltenDB.Proof.Privilege

namespace MoltenDB

open Runs

namespace Exchange

/-- How far a call has come. -/
inductive Stage
  | arrived
  /-- The middleware has let the call through. -/
  | admitted
  | verified (claims : Claims)
  /-- The token was not revoked. -/
  | checked (claims : Claims)
  | minted (claims : Claims) (new : String × String)
  /-- The middleware has answered. -/
  | refused
  | returned (result : Except AuthError (String × String))

/-- The claims that a call has read from its token, while it needs them. -/
def Stage.claims : Stage → Option Claims
  | verified claims => some claims
  | checked claims => some claims
  | minted claims _ => some claims
  | _ => none

/-- The call is between its look into the store and its revocation. -/
def Stage.pending : Stage → Bool
  | checked _ => true
  | minted _ _ => true
  | _ => false

/-- The next step of the call is its look into the store. -/
def Stage.looks : Stage → Bool
  | verified _ => true
  | _ => false

def Stage.succeeded : Stage → Bool
  | returned (.ok _) => true
  | _ => false

/-- The token that the calls present, and the lifetime that each asks for and the identifier
    that it draws. -/
structure Calls where
  token : String
  ttlSecs : ℕ → UInt64
  uuid : ℕ → String

/-- The store, and the calls by their numbers. -/
structure Shared where
  store : RevocationStore
  stage : ℕ → Stage

/-- A call takes its next step at a time. -/
structure Turn where
  call : ℕ
  now : Instant

def start (store : RevocationStore) : Shared := ⟨store, fun _ => .arrived⟩

section

variable [AuthCrates] (x : Calls)

/-- The next step of a call: the check of the middleware, then those of `refresh_scoped_token`. -/
def advance (store : RevocationStore) (t : Turn) : Stage → Stage × RevocationStore
  | .arrived =>
    match authMiddleware store t.now (some ("Bearer " ++ x.token)) with
    | .error _ => (.refused, store)
    | .ok _ => (.admitted, store)
  | .admitted =>
    match verifyToken t.now x.token with
    | .error e => (.returned (.error e), store)
    | .ok claims =>
      if claims.jti = "" then (.returned (.error (.invalidToken "InvalidToken")), store)
      else if claims.isAdmin then (.returned (.error .refreshNotAllowed), store)
      else (.verified claims, store)
  | .verified claims =>
    if store.isRevoked claims.jti then (.returned (.error .tokenRevoked), store)
    else (.checked claims, store)
  | .checked claims =>
    match createScopedToken t.now (x.uuid t.call) claims.sub claims.scopes (x.ttlSecs t.call) with
    | .error e => (.returned (.error e), store)
    | .ok new => (.minted claims new, store)
  | .minted claims new =>
    match t.now.addSecs (x.ttlSecs t.call) with
    | none => (.returned (.error (.panicked Instant.OVERFLOW)), store)
    | some pruneAfter => (.returned (.ok new), store.revoke claims.jti pruneAfter)
  | .refused => (.refused, store)
  | .returned result => (.returned result, store)

def step (s : Shared) (t : Turn) : Shared :=
  let (stage, store) := advance x s.store t (s.stage t.call)
  ⟨store, Function.update s.stage t.call stage⟩

/-- **A call by itself** is `refresh_scoped_token`: the steps after the middleware, taken one
    after the other. -/
theorem after_turns (s : Shared) (i : ℕ) (now : Instant) (h : s.stage i = .admitted) :
    (after (step x) s (List.replicate 4 ⟨i, now⟩)).stage i =
        .returned (refreshScopedToken now (x.uuid i) x.token (x.ttlSecs i) s.store).1 ∧
      (after (step x) s (List.replicate 4 ⟨i, now⟩)).store =
        (refreshScopedToken now (x.uuid i) x.token (x.ttlSecs i) s.store).2 := by
  simp only [after, List.replicate, List.foldl_cons, List.foldl_nil, step, h,
    Function.update_self]
  unfold refreshScopedToken
  cases hverify : verifyToken now x.token with
  | error e => simp [advance, hverify]
  | ok claims =>
    by_cases hjti : claims.jti = ""
    · simp [advance, hverify, hjti]
    by_cases hadmin : claims.isAdmin = true
    · simp [advance, hverify, hjti, hadmin]
    by_cases hrevoked : s.store.isRevoked claims.jti = true
    · simp [advance, hverify, hjti, hadmin, hrevoked]
    cases hcreate : createScopedToken now (x.uuid i) claims.sub claims.scopes (x.ttlSecs i) with
    | error e => simp [advance, hverify, hjti, hadmin, hrevoked, hcreate]
    | ok new =>
      cases hadd : now.addSecs (x.ttlSecs i) with
      | none => simp [advance, hverify, hjti, hadmin, hrevoked, hcreate, hadd]
      | some pruneAfter => simp [advance, hverify, hjti, hadmin, hrevoked, hcreate, hadd]

/-- No other call is between its look and its revocation when this one looks. -/
def Apart (s : Shared) (t : Turn) : Prop :=
  (s.stage t.call).looks = true → ∀ j, j ≠ t.call → (s.stage j).pending = false

end

/-! ## What one step does -/

section

variable [AuthCrates] {x : Calls}

theorem stage_step_of_ne {s : Shared} {t : Turn} {i : ℕ} (h : i ≠ t.call) :
    (step x s t).stage i = s.stage i :=
  Function.update_of_ne h ..

/-- What a call does with its next step. -/
inductive Advance (x : Calls) (store : RevocationStore) (t : Turn) :
    Stage → Stage × RevocationStore → Prop
  | idle (σ : Stage) : Advance x store t σ (σ, store)
  | other {σ σ' : Stage} (hpending : σ'.pending = false) (hsucceeded : σ'.succeeded = false)
      (hclaims : ∀ claims ∈ σ'.claims, verifyToken t.now x.token = .ok claims) :
      Advance x store t σ (σ', store)
  | look {claims : Claims} (hrevoked : store.isRevoked claims.jti = false) :
      Advance x store t (.verified claims) (.checked claims, store)
  | mint (claims : Claims) (new : String × String) :
      Advance x store t (.checked claims) (.minted claims new, store)
  | revoke (claims : Claims) (new : String × String) {pruneAfter : Instant}
      (hadd : t.now.addSecs (x.ttlSecs t.call) = some pruneAfter) :
      Advance x store t (.minted claims new)
        (.returned (.ok new), store.revoke claims.jti pruneAfter)

theorem advance_cases (store : RevocationStore) (t : Turn) (σ : Stage) :
    Advance x store t σ (advance x store t σ) := by
  have hother : ∀ {σ' : Stage}, σ'.claims = none → σ'.pending = false → σ'.succeeded = false →
      Advance x store t σ (σ', store) := fun hclaims hpending hsucceeded =>
    .other hpending hsucceeded (by simp [hclaims])
  cases σ with
  | arrived =>
    unfold advance
    cases authMiddleware store t.now (some ("Bearer " ++ x.token)) with
    | error e => exact hother rfl rfl rfl
    | ok claims => exact hother rfl rfl rfl
  | admitted =>
    unfold advance
    cases hverify : verifyToken t.now x.token with
    | error e => exact hother rfl rfl rfl
    | ok claims =>
      dsimp only
      split_ifs
      · exact hother rfl rfl rfl
      · exact hother rfl rfl rfl
      · refine .other rfl rfl fun claims' hclaims => ?_
        cases hclaims
        exact hverify
  | verified claims =>
    unfold advance
    dsimp only
    split_ifs with hrevoked
    · exact hother rfl rfl rfl
    · exact .look (by simpa using hrevoked)
  | checked claims =>
    unfold advance
    dsimp only
    cases createScopedToken t.now (x.uuid t.call) claims.sub claims.scopes (x.ttlSecs t.call) with
    | error e => exact hother rfl rfl rfl
    | ok new => exact .mint _ _
  | minted claims new =>
    unfold advance
    dsimp only
    cases hadd : t.now.addSecs (x.ttlSecs t.call) with
    | none => exact hother rfl rfl rfl
    | some pruneAfter => exact .revoke _ _ hadd
  | refused => exact .idle _
  | returned result => exact .idle _

end

/-! ## Runs -/

section

variable [SignedTokens] {x : Calls}

/-- What holds while no call looks between the look and the revocation of another one. -/
structure Inv (x : Calls) (s : Shared) : Prop where
  read : ∀ i, ∀ claims ∈ (s.stage i).claims, ∃ now, verifyToken now x.token = .ok claims
  one : ∀ i j, (s.stage i).pending = true → (s.stage j).pending = true → i = j
  done : ∀ i, (s.stage i).succeeded = true → (∀ j, (s.stage j).pending = false) ∧
    ∀ now claims, verifyToken now x.token = .ok claims → s.store.isRevoked claims.jti = true
  once : ∀ i j, (s.stage i).succeeded = true → (s.stage j).succeeded = true → i = j

theorem inv_start (store : RevocationStore) : Inv x (start store) where
  read i claims hclaims := by cases hclaims
  one i j hi := by cases hi
  done i hi := by cases hi
  once i j hi := by cases hi

/-- A step changes one call. -/
theorem step_of_advance {s : Shared} {t : Turn} {σ' : Stage} {store' : RevocationStore}
    (h : advance x s.store t (s.stage t.call) = (σ', store')) :
    step x s t = ⟨store', Function.update s.stage t.call σ'⟩ := by
  rw [step, h]

/-- The claims that the calls have read are those of the token. -/
theorem read_update {s : Shared} (h : Inv x s) {c : ℕ} {σ' : Stage}
    (hclaims : ∀ claims ∈ σ'.claims, ∃ now, verifyToken now x.token = .ok claims) (i : ℕ) :
    ∀ claims ∈ (Function.update s.stage c σ' i).claims, ∃ now, verifyToken now x.token = .ok claims := by
  rw [Function.update_apply]
  split_ifs
  · exact hclaims
  · exact h.read i

/-! One step of a call, for each kind of step. -/

section

variable {s : Shared} {c : ℕ}

theorem Inv.other (h : Inv x s) {σ' : Stage} (hpending : σ'.pending = false)
    (hsucceeded : σ'.succeeded = false)
    (hclaims : ∀ claims ∈ σ'.claims, ∃ now, verifyToken now x.token = .ok claims) :
    Inv x ⟨s.store, Function.update s.stage c σ'⟩ := by
  have hpend : ∀ {i}, (Function.update s.stage c σ' i).pending = true →
      (s.stage i).pending = true := by
    intro i hi
    rcases of_update (P := fun σ : Stage => σ.pending = true) hi with ⟨-, hi⟩ | ⟨-, hi⟩
    · rw [hpending] at hi
      cases hi
    · exact hi
  have hsucc : ∀ {i}, (Function.update s.stage c σ' i).succeeded = true →
      (s.stage i).succeeded = true := by
    intro i hi
    rcases of_update (P := fun σ : Stage => σ.succeeded = true) hi with ⟨-, hi⟩ | ⟨-, hi⟩
    · rw [hsucceeded] at hi
      cases hi
    · exact hi
  constructor
  · exact read_update h hclaims
  · intro i j hi hj
    exact h.one i j (hpend hi) (hpend hj)
  · intro i hi
    obtain ⟨hnone, hrevoked⟩ := h.done i (hsucc hi)
    refine ⟨fun j => ?_, hrevoked⟩
    rw [← Bool.not_eq_true]
    intro hj
    exact Bool.false_ne_true ((hnone j).symm.trans (hpend hj))
  · intro i j hi hj
    exact h.once i j (hsucc hi) (hsucc hj)

/-- A call that looks finds no call that has succeeded, and so none that has revoked the token. -/
theorem Inv.look (h : Inv x s) {claims : Claims} (hσ : s.stage c = .verified claims)
    (hrevoked : s.store.isRevoked claims.jti = false)
    (hapart : ∀ i, i ≠ c → (s.stage i).pending = false) :
    Inv x ⟨s.store, Function.update s.stage c (.checked claims)⟩ := by
  have hread := h.read c
  rw [hσ] at hread
  obtain ⟨now, hverify⟩ := hread claims rfl
  have hpend : ∀ {i}, (Function.update s.stage c (.checked claims) i).pending = true → i = c := by
    intro i hi
    rcases of_update (P := fun σ : Stage => σ.pending = true) hi with ⟨rfl, -⟩ | ⟨hne, hi⟩
    · rfl
    · rw [hapart i hne] at hi
      cases hi
  have hsucc : ∀ {i}, ¬ (Function.update s.stage c (.checked claims) i).succeeded = true := by
    intro i hi
    rcases of_update (P := fun σ : Stage => σ.succeeded = true) hi with ⟨-, hi⟩ | ⟨-, hi⟩
    · cases hi
    · rw [(h.done i hi).2 now claims hverify] at hrevoked
      cases hrevoked
  constructor
  · exact read_update h hread
  · intro i j hi hj
    rw [hpend hi, hpend hj]
  · intro i hi
    exact absurd hi hsucc
  · intro i j hi
    exact absurd hi hsucc

theorem Inv.mint (h : Inv x s) {claims : Claims} (hσ : s.stage c = .checked claims)
    (new : String × String) :
    Inv x ⟨s.store, Function.update s.stage c (.minted claims new)⟩ := by
  have hread := h.read c
  rw [hσ] at hread
  have hpend : ∀ {i}, (Function.update s.stage c (.minted claims new) i).pending = true →
      (s.stage i).pending = true := by
    intro i hi
    rcases of_update (P := fun σ : Stage => σ.pending = true) hi with ⟨rfl, -⟩ | ⟨-, hi⟩
    · rw [hσ]
      rfl
    · exact hi
  have hsucc : ∀ {i}, ¬ (Function.update s.stage c (.minted claims new) i).succeeded = true := by
    intro i hi
    rcases of_update (P := fun σ : Stage => σ.succeeded = true) hi with ⟨-, hi⟩ | ⟨-, hi⟩
    · cases hi
    · have hnot := (h.done i hi).1 c
      rw [hσ] at hnot
      cases hnot
  constructor
  · exact read_update h hread
  · intro i j hi hj
    exact h.one i j (hpend hi) (hpend hj)
  · intro i hi
    exact absurd hi hsucc
  · intro i j hi
    exact absurd hi hsucc

/-- The call that revokes the token is the only one between its look and its revocation. -/
theorem Inv.revoke (h : Inv x s) {claims : Claims} {new : String × String}
    (hσ : s.stage c = .minted claims new) (pruneAfter : Instant) :
    Inv x ⟨s.store.revoke claims.jti pruneAfter,
      Function.update s.stage c (.returned (.ok new))⟩ := by
  have hread := h.read c
  rw [hσ] at hread
  obtain ⟨now, hverify⟩ := hread claims rfl
  have hpending : (s.stage c).pending = true := by
    rw [hσ]
    rfl
  have hpend : ∀ {i}, ¬ (Function.update s.stage c (.returned (.ok new)) i).pending = true := by
    intro i hi
    rcases of_update (P := fun σ : Stage => σ.pending = true) hi with ⟨-, hi⟩ | ⟨hne, hi⟩
    · cases hi
    · exact hne (h.one i c hi hpending)
  have hsucc : ∀ {i}, (Function.update s.stage c (.returned (.ok new)) i).succeeded = true →
      i = c := by
    intro i hi
    rcases of_update (P := fun σ : Stage => σ.succeeded = true) hi with ⟨rfl, -⟩ | ⟨-, hi⟩
    · rfl
    · rw [(h.done i hi).1 c] at hpending
      cases hpending
  constructor
  · refine read_update h fun claims' hmem => ?_
    cases hmem
  · intro i j hi
    exact absurd hi hpend
  · intro i hi
    refine ⟨fun j => by simpa using hpend (i := j), fun now' claims' hverify' => ?_⟩
    rw [SignedTokens.decode_time hverify' hverify]
    simp [RevocationStore.isRevoked, RevocationStore.revoke]
  · intro i j hi hj
    rw [hsucc hi, hsucc hj]

end

/-- **One step keeps the invariant**, if the call does not look at the wrong time. -/
theorem inv_step {s : Shared} {t : Turn} (h : Inv x s) (ht : Apart s t) : Inv x (step x s t) := by
  have hcases := advance_cases (x := x) s.store t (s.stage t.call)
  generalize hadvance : advance x s.store t (s.stage t.call) = r at hcases
  generalize hσ : s.stage t.call = σ at hcases
  rw [show step x s t = ⟨r.2, Function.update s.stage t.call r.1⟩ from step_of_advance hadvance]
  cases hcases with
  | idle =>
    rw [← hσ, Function.update_eq_self]
    exact h
  | other hpending hsucceeded hclaims =>
    exact h.other hpending hsucceeded fun claims hmem => ⟨t.now, hclaims claims hmem⟩
  | look hrevoked => exact h.look hσ hrevoked (ht (by rw [hσ]; rfl))
  | mint claims new => exact h.mint hσ new
  | revoke claims new hadd => exact h.revoke hσ _

/-- **A token is exchanged at most once**, in every run in which no call looks between the look
    and the revocation of another one. -/
theorem exchanged_once (x : Calls) (store : RevocationStore) (ts : List Turn)
    (h : Along (step x) Apart (start store) ts) (i j : ℕ)
    (hi : ((after (step x) (start store) ts).stage i).succeeded = true)
    (hj : ((after (step x) (start store) ts).stage j).succeeded = true) : i = j :=
  (h.keeps (fun _ _ hs ht => inv_step hs ht) (inv_start store)).once i j hi hj

/-- **Calls that overlap both succeed**, whatever has happened before: one looks while the other
    one is between its look and its revocation, and nothing else goes wrong. -/
theorem overlap_succeeds {s : Shared} {i j : ℕ} {claims claims' : Claims} {now : Instant}
    {new new' : String × String} (hi : s.stage i = .verified claims)
    (hj : s.stage j = .checked claims') (hrevoked : s.store.isRevoked claims.jti = false)
    (hnew : createScopedToken now (x.uuid i) claims.sub claims.scopes (x.ttlSecs i) = .ok new)
    (hnew' : createScopedToken now (x.uuid j) claims'.sub claims'.scopes (x.ttlSecs j) = .ok new')
    (hadd : ∀ k, (now.addSecs (x.ttlSecs k)).isSome = true) :
    ∃ ts, ((after (step x) s ts).stage i).succeeded = true ∧
      ((after (step x) s ts).stage j).succeeded = true := by
  have hne : i ≠ j := by
    rintro rfl
    rw [hi] at hj
    cases hj
  obtain ⟨pruneAfter, hp⟩ := Option.isSome_iff_exists.1 (hadd i)
  obtain ⟨pruneAfter', hp'⟩ := Option.isSome_iff_exists.1 (hadd j)
  have hcalls : after (step x) s [⟨i, now⟩, ⟨i, now⟩, ⟨i, now⟩, ⟨j, now⟩, ⟨j, now⟩] =
      ⟨(s.store.revoke claims.jti pruneAfter).revoke claims'.jti pruneAfter',
        Function.update (Function.update s.stage i (.returned (.ok new))) j
          (.returned (.ok new'))⟩ := by
    simp only [after, List.foldl_cons, List.foldl_nil, step, advance, hi, hj, hrevoked, hnew, hnew',
      hp, hp', Function.update_self, Function.update_idem, Function.update_of_ne hne.symm,
      Bool.false_eq_true, if_false]
  refine ⟨[⟨i, now⟩, ⟨i, now⟩, ⟨i, now⟩, ⟨j, now⟩, ⟨j, now⟩], ?_, ?_⟩
  · rw [hcalls]
    simp [Function.update_of_ne hne, Stage.succeeded]
  · rw [hcalls]
    simp [Stage.succeeded]

end

/-- A token that can be exchanged. -/
def appToken : String :=
  letI := AuthCrates.plain
  (AuthCrates.encode ⟨"app", 3600, ["read:c:*"], "one"⟩).toOption.getD ""

/-- Two calls for it, each with a lifetime of an hour. -/
def twoCalls : Calls := ⟨appToken, fun _ => 3600, fun i => "new" ++ toString i⟩

def turn (i : ℕ) : Turn := ⟨i, .ofSecs 60 (by decide)⟩

/-- Two calls, each step of one followed by the same step of the other one. -/
def inTurn : List Turn :=
  [turn 0, turn 1, turn 0, turn 1, turn 0, turn 1, turn 0, turn 1, turn 0, turn 1]

section

variable [AuthCrates] {x : Calls} {s : Shared} {i : ℕ} {t : Turn}

theorem stage_replicate (n : ℕ) (h : i ≠ t.call) :
    (after (step x) s (List.replicate n t)).stage i = s.stage i := by
  induction n generalizing s with
  | zero => rfl
  | succ n ih => exact (ih (s := step x s t)).trans (stage_step_of_ne h)

/-- The steps of one call, while no other one is between its look and its revocation. -/
theorem along_replicate (n : ℕ) (h : ∀ j, j ≠ t.call → (s.stage j).pending = false) :
    Along (step x) Apart s (List.replicate n t) := by
  induction n generalizing s with
  | zero => exact trivial
  | succ n ih =>
    refine ⟨fun _ => h, ih fun j hj => ?_⟩
    rw [stage_step_of_ne hj]
    exact h j hj

end

/-- Two calls, one after the other. -/
def oneByOne : List Turn := List.replicate 5 (turn 0) ++ List.replicate 5 (turn 1)

theorem along_oneByOne :
    letI := SignedTokens.plain
    Along (step twoCalls) Apart (start .new) oneByOne := by
  let _ := SignedTokens.plain
  refine along_append.2 ⟨along_replicate 5 fun _ _ => rfl, along_replicate 5 fun j hj => ?_⟩
  by_cases h0 : j = 0
  · subst h0
    decide +kernel
  · have hidle : (after (step twoCalls) (start .new) (List.replicate 5 (turn 0))).stage j = .arrived :=
      stage_replicate (t := turn 0) 5 h0
    rw [hidle]
    rfl

end Exchange

open Exchange

/-- Two calls, one after the other: the first one succeeds. -/
theorem exchanged_once_oneByOne :
    letI := SignedTokens.plain
    ((after (step twoCalls) (start .new) oneByOne).stage 0).succeeded = true ∧
      ¬ ((after (step twoCalls) (start .new) oneByOne).stage 1).succeeded = true := by
  have hfirst : letI := SignedTokens.plain
      ((after (step twoCalls) (start .new) oneByOne).stage 0).succeeded = true := by
    decide +kernel
  refine ⟨hfirst, fun h => ?_⟩
  have heq := @exchanged_once SignedTokens.plain twoCalls .new oneByOne along_oneByOne 0 1 hfirst h
  cases heq

theorem exchanged_twice :
    letI := SignedTokens.plain
    ¬ ∀ (x : Calls) (store : RevocationStore) (ts : List Turn) (i j : ℕ),
      ((after (step x) (start store) ts).stage i).succeeded = true →
      ((after (step x) (start store) ts).stage j).succeeded = true → i = j := by
  intro h
  have heq := h twoCalls .new inTurn 0 1 (by decide +kernel) (by decide +kernel)
  cases heq

end MoltenDB
