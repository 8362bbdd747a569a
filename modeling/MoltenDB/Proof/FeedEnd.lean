/-
  The feed of a connection ends with its token, in the runs in which no event comes after the
  expiry and no revocation is pruned before it has been seen.
-/
import MoltenDB.Server.Socket
import MoltenDB.Lib.Runs

namespace MoltenDB

open Runs RevocationStore

namespace Socket

section

variable [AuthCrates] {s : Socket} {e : Instant × SocketStep}

/-- Not later than the expiry of the token. -/
def InTime (claims : Claims) (now : Instant) : Prop := now.nanos ≤ NANOS_PER_SEC * claims.exp.toNat

instance (claims : Claims) (now : Instant) : Decidable (InTime claims now) :=
  inferInstanceAs (Decidable (_ ≤ _))

/-- The step forwards an event. -/
def Forwards (s : Socket) (e : Instant × SocketStep) : Prop :=
  ∃ msg, (s.step e).task.sent = (e.1, .event msg) :: s.task.sent

/-- An event is forwarded before the token expires, and before a look at the store that follows
    its revocation. -/
def Ended (s : Socket) (e : Instant × SocketStep) : Prop :=
  s.Forwards e → InTime s.task.claims e.1 ∧ s.noticed = false

/-- While the connection is open, no event that the token may read comes after the expiry; and no
    round prunes the revocation of the token before it has been seen. -/
def Timely (s : Socket) (e : Instant × SocketStep) : Prop :=
  s.task.isOpen = true →
    match e.2 with
    | .recv (.ok msg) _ => SendTask.allowed s.task.claims msg = true → InTime s.task.claims e.1
    | .prune _ => s.revoked = true →
      ∀ deadline ∈ s.revocations.store.revoked[s.task.claims.jti]?, e.1.nanos < deadline.nanos
    | _ => True

/-- A revocation is in the store until it has been seen, and then the feed is closed. -/
structure Inv (s : Socket) : Prop where
  kept : s.task.isOpen = true → s.revoked = true →
    s.revocations.store.isRevoked s.task.claims.jti = true
  unnoticed : s.task.isOpen = true → s.noticed = false

theorem inv_connect {revocations : Revocations} {now : Instant} {first : Option String}
    (h : connect revocations now first = .ok s) : s.Inv := by
  unfold connect at h
  cases hauth : authenticate revocations.store now first with
  | error msg =>
    rw [hauth] at h
    cases h
  | ok claims =>
    rw [hauth] at h
    cases h
    exact ⟨fun _ hrevoked => (nomatch hrevoked), fun _ => rfl⟩

/-! ## What the steps do to the feed -/

/-- What the feed does with what the channel gives it: nothing, it is closed, or it forwards an
    event that the token may read. -/
theorem recv_cases (task : SendTask) (now : Instant) (result : RecvResult) (taken : Bool) :
    task.recv now result taken = task ∨ task.recv now result taken = { task with isOpen := false } ∨
      (task.isOpen = true ∧ ∃ msg, result = .ok msg ∧ SendTask.allowed task.claims msg = true ∧
        task.recv now result taken = { task with sent := (now, .event msg) :: task.sent }) := by
  by_cases hopen : task.isOpen = true
  · cases result with
    | ok msg =>
      by_cases hallowed : SendTask.allowed task.claims msg = true
      · cases taken
        · exact Or.inr (Or.inl (by simp [SendTask.recv, hopen, hallowed]))
        · exact Or.inr (Or.inr ⟨hopen, msg, rfl, hallowed, by simp [SendTask.recv, hopen, hallowed]⟩)
      · exact Or.inl (by simp [SendTask.recv, hopen, hallowed])
    | lagged n => exact Or.inl (by simp [SendTask.recv, hopen])
    | closed => exact Or.inr (Or.inl (by simp [SendTask.recv, hopen]))
  · exact Or.inl (by simp [SendTask.recv, hopen])

theorem recv_frame (task : SendTask) (now : Instant) (result : RecvResult) (taken : Bool) :
    (task.recv now result taken).claims = task.claims ∧
      ((task.recv now result taken).isOpen = true → task.isOpen = true) := by
  rcases recv_cases task now result taken with heq | heq | ⟨-, msg, -, -, heq⟩ <;> rw [heq]
  · exact ⟨rfl, id⟩
  · exact ⟨rfl, fun h => nomatch h⟩
  · exact ⟨rfl, id⟩

omit [AuthCrates] in
/-- The feed is open after a look if the token was not revoked. -/
theorem isOpen_check {task : SendTask} {store : RevocationStore} {now : Instant} :
    (task.check store now).isOpen = true ↔
      task.isOpen = true ∧ store.isRevoked task.claims.jti = false := by
  unfold SendTask.check
  split_ifs with hclosed hrevoked
  · simp_all
  · simp [hrevoked]
  · simp_all

/-- Only an event that the token may read is forwarded, and only while the feed is open. -/
theorem forwards_cases (h : s.Forwards e) : s.task.isOpen = true ∧
    ∃ msg taken, e.2 = .recv (.ok msg) taken ∧ SendTask.allowed s.task.claims msg = true := by
  obtain ⟨now, step⟩ := e
  obtain ⟨msg, hsent⟩ := h
  have hself : ∀ x : Instant × Frame, s.task.sent ≠ x :: s.task.sent :=
    fun x => (List.cons_ne_self x _).symm
  cases step with
  | recv result taken =>
    simp only [Socket.step] at hsent
    rcases recv_cases s.task now result taken with heq | heq | ⟨hopen, text, rfl, hallowed, -⟩
    · rw [heq] at hsent
      exact absurd hsent (hself _)
    · rw [heq] at hsent
      exact absurd hsent (hself _)
    · exact ⟨hopen, text, taken, rfl, hallowed⟩
  | check =>
    simp only [Socket.step, SendTask.check] at hsent
    split_ifs at hsent
    · exact absurd hsent (hself _)
    · simp at hsent
    · exact absurd hsent (hself _)
  | revoke walk caller jti payload => exact absurd hsent (hself _)
  | prune walk => exact absurd hsent (hself _)
  | disconnect => exact absurd hsent (hself _)

/-! ## Each step -/

omit [AuthCrates] in
theorem isRevoked_revoke (store : RevocationStore) (jti jti' : String) (deadline : Instant) :
    (store.revoke jti' deadline).isRevoked jti = (jti' == jti || store.isRevoked jti) := by
  rw [isRevoked, revoke, Map.get?_insert]
  split_ifs with h
  · simp [h]
  · simp [isRevoked, Ne.symm h]

omit [AuthCrates] in
/-- An entry is pruned at its deadline. -/
theorem isRevoked_prune {store : RevocationStore} {jti : String} {now : Instant} :
    (store.prune now).isRevoked jti = true ↔
      ∃ deadline, store.revoked[jti]? = some deadline ∧ now.nanos < deadline.nanos := by
  rw [isRevoked, prune, Std.ExtTreeMap.getElem?_filter']
  cases store.revoked[jti]? with
  | none => simp
  | some deadline => simp [Option.isSome_filter]

/-- **One step keeps the invariant.** -/
theorem inv_step (h : s.Inv) (he : s.Timely e) : (s.step e).Inv := by
  obtain ⟨now, step⟩ := e
  cases step with
  | recv result taken =>
    obtain ⟨hclaims, hopen⟩ := recv_frame s.task now result taken
    constructor
    · intro hopen' hrevoked
      have hkept := h.kept (hopen hopen') hrevoked
      rwa [← hclaims] at hkept
    · intro hopen'
      exact h.unnoticed (hopen hopen')
  | check =>
    constructor
    · intro hopen hrevoked
      obtain ⟨hopen', hnot⟩ := isOpen_check.1 hopen
      rw [h.kept hopen' hrevoked] at hnot
      cases hnot
    · intro hopen
      obtain ⟨hopen', hnot⟩ := isOpen_check.1 hopen
      have hrevoked : s.revoked = false := by
        rw [← Bool.not_eq_true]
        intro hrevoked
        rw [h.kept hopen' hrevoked] at hnot
        cases hnot
      show (s.noticed || s.revoked) = false
      rw [h.unnoticed hopen', hrevoked]
      rfl
  | revoke walk caller jti payload =>
    refine ⟨fun hopen hrevoked => ?_, h.unnoticed⟩
    simp only [Socket.step] at hopen hrevoked ⊢
    rcases s.revocations.handleRevoke_cases now walk caller jti payload with
      ⟨hno, hsame⟩ | ⟨deadline, body, -, heq⟩
    · rw [hsame]
      refine h.kept hopen ?_
      rw [Bool.or_eq_true, Bool.and_eq_true, Option.any_eq_true] at hrevoked
      rcases hrevoked with hrevoked | ⟨-, ⟨status, body⟩, hresponse, hstatus⟩
      · exact hrevoked
      · obtain rfl : status = 200 := beq_iff_eq.1 hstatus
        exact absurd hresponse (hno body)
    · rw [heq] at hrevoked ⊢
      show (s.revocations.store.revoke jti deadline).isRevoked s.task.claims.jti = true
      rw [isRevoked_revoke, Bool.or_eq_true]
      rw [Bool.or_eq_true, Bool.and_eq_true] at hrevoked
      exact hrevoked.symm.imp And.left (h.kept hopen)
  | prune walk =>
    refine ⟨fun hopen hrevoked => ?_, h.unnoticed⟩
    obtain ⟨deadline, hdeadline⟩ := Option.isSome_iff_exists.1 (h.kept hopen hrevoked)
    exact isRevoked_prune.2 ⟨deadline, hdeadline, he hopen hrevoked deadline hdeadline⟩
  | disconnect => exact ⟨fun hopen => (nomatch hopen), fun hopen => (nomatch hopen)⟩

theorem ended (h : s.Inv) (he : s.Timely e) : s.Ended e := by
  intro hforwards
  obtain ⟨hopen, msg, taken, heq, hallowed⟩ := forwards_cases hforwards
  refine ⟨?_, h.unnoticed hopen⟩
  have htimely := he hopen
  rw [heq] at htimely
  exact htimely hallowed

/-- **A feed ends with its token**, in every run whose steps are timely. -/
theorem feed_ends_with_token {revocations : Revocations} {now : Instant} {first : Option String}
    (hconnect : connect revocations now first = .ok s) (es : List (Instant × SocketStep))
    (h : Along step Timely s es) : Along step Ended s es :=
  h.along (fun _ _ hs he => inv_step hs he) (fun _ _ hs he => ended hs he) (inv_connect hconnect)

end

section

variable [AuthCrates] {s : Socket} {now : Instant}

theorem timely_recv {result : RecvResult} {taken : Bool} (h : InTime s.task.claims now) :
    s.Timely (now, .recv result taken) := by
  intro _
  cases result with
  | ok msg => exact fun _ => h
  | lagged n => trivial
  | closed => trivial

theorem timely_prune {walk : Walk} (h : ∀ deadline ∈ s.revocations.store.revoked[s.task.claims.jti]?,
    now.nanos < deadline.nanos) : s.Timely (now, .prune walk) := fun _ _ => h

end

section

variable [AuthCrates] {s : Socket} {now : Instant} {msg : String}

/-- While the feed is open, an event that the token may read is forwarded. -/
theorem forwards_recv (hopen : s.task.isOpen = true)
    (hallowed : SendTask.allowed s.task.claims msg = true) :
    s.Forwards (now, .recv (.ok msg) true) := by
  refine ⟨msg, ?_⟩
  simp [Socket.step, SendTask.recv, hopen, hallowed]

end

/-- The claims of a token that may read the collection `c` for an hour. -/
def reader : Claims := ⟨"app", 3600, ["read:c:*"], "one"⟩

/-- The first message of a client with this token. -/
def hello : Option String :=
  letI := AuthCrates.plain
  (AuthCrates.encode reader).toOption.map fun token =>
    AuthCrates.toString (json [("action", .str "AUTH"), ("token", .str token)])

/-- A document of `c` was changed. -/
def changed : String :=
  letI := AuthCrates.plain
  AuthCrates.toString (json [("event", .str "change"), ("collection", .str "c"),
    ("key", .str "k"), ("new_v", .ofU64 1)])

def admin : Claims := ⟨"admin", 86400, ["*:*:*"], "root"⟩

/-- The connection of `reader`, made at the start. -/
def readerSocket : Socket := ⟨.start, ⟨reader, true, []⟩, false, false⟩

/-- The token is revoked, pruned after its deadline if it has passed, and looked up. -/
def revokedRun (payload : Json) : List (Instant × SocketStep) :=
  [(.ofSecs 10 (by decide), .recv (.ok changed) true),
    (.ofSecs 20 (by decide), .revoke .plain admin "one" payload),
    (.ofSecs 25 (by decide), .prune .plain), (.ofSecs 30 (by decide), .check),
    (.ofSecs 40 (by decide), .recv (.ok changed) true)]

theorem connect_hello :
    letI := AuthCrates.plain
    connect .start (.ofSecs 0 (by decide)) hello = .ok readerSocket := by
  let _ := AuthCrates.plain
  have hauth : authenticate .new (.ofSecs 0 (by decide)) hello = .ok reader := by decide +kernel
  unfold connect
  rw [show Revocations.start.store = .new from rfl, hauth]
  rfl

theorem timely_revokedRun :
    letI := AuthCrates.plain
    Along step Timely readerSocket (revokedRun (.obj [])) := by
  let _ := AuthCrates.plain
  refine ⟨timely_recv ?_, fun _ => trivial, timely_prune ?_, fun _ => trivial, timely_recv ?_, trivial⟩
  · decide +kernel
  · decide +kernel
  · decide +kernel

/-- An event after the token has expired. -/
def lateRun : List (Instant × SocketStep) :=
  [(.ofSecs 4000 (by decide), .recv (.ok changed) true)]

end Socket

open Socket

/-- A token that is revoked without an `exp`: the feed is closed. -/
theorem feed_ends_with_token_revoked :
    letI := AuthCrates.plain
    (after step readerSocket (revokedRun (.obj []))).task.isOpen = false ∧
      Along step Ended readerSocket (revokedRun (.obj [])) := by
  refine ⟨by decide +kernel, ?_⟩
  exact @feed_ends_with_token AuthCrates.plain _ _ _ _ connect_hello _ timely_revokedRun

/-- An event is forwarded after the expiry; and one after a look at the store, when the token was
    revoked with an `exp` that has passed before this look. -/
theorem feed_outlives_token :
    letI := AuthCrates.plain
    connect .start (.ofSecs 0 (by decide)) hello = .ok readerSocket ∧
      ¬ Along step Ended readerSocket lateRun ∧
      ¬ Along step Ended readerSocket (revokedRun (json [("exp", .ofU64 25)])) := by
  let _ := AuthCrates.plain
  refine ⟨connect_hello, fun h => ?_, fun h => ?_⟩
  · have hlate := (h.1 (forwards_recv (by decide +kernel) (by decide +kernel))).1
    exact absurd hlate (by decide +kernel)
  · obtain ⟨-, -, -, -, hlast, -⟩ := h
    have hnoticed := (hlast (forwards_recv (by decide +kernel) (by decide +kernel))).2
    exact absurd hnoticed (by decide +kernel)

end MoltenDB
