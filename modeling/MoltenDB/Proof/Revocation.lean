/-
  Revoked tokens stay rejected, over runs of exchanges, revocations, prunes, saves and
  restarts.
-/
import MoltenDB.Proof.RevocationFile
import MoltenDB.Server.Revocations

namespace MoltenDB

open RevocationStore

namespace Instant

theorem secs_mono {t t' : Instant} (h : t.nanos ≤ t'.nanos) : t.secs ≤ t'.secs :=
  Nat.div_le_div_right h

theorem le_secs {n : ℕ} {t : Instant} : n ≤ t.secs ↔ NANOS_PER_SEC * n ≤ t.nanos := by
  have hpos : 0 < NANOS_PER_SEC := by decide
  rw [secs, Nat.le_div_iff_mul_le hpos, Nat.mul_comm]

end Instant

namespace Revocations

/-- The token can be forgotten at `t`: it has expired by then. -/
def ExpiredBy (t : Instant) (exp : UInt64) : Prop := exp.toNat ≤ t.secs

/-- The deadline that a file written at `now` has for an entry is not before the expiry. -/
def SavedUntil (now : Instant) (exp : UInt64) (pruneAt : Instant) : Prop :=
  exp.toNat ≤ now.secs + now.secsUntil pruneAt

instance (now : Instant) (exp : UInt64) (pruneAt : Instant) :
    Decidable (SavedUntil now exp pruneAt) := inferInstanceAs (Decidable (_ ≤ _))

/-- The token is kept in the store until it expires. -/
def Kept (store : RevocationStore) (jti : String) (exp : UInt64) : Prop :=
  ∃ pruneAt, store.revoked[jti]? = some pruneAt ∧ ExpiredBy pruneAt exp

/-- The file keeps the token until it expires. -/
def KeptInFile (file : ReadResult) (jti : String) (exp : UInt64) [AuthCrates] : Prop :=
  ∃ (store : RevocationStore) (saved : Instant) (ks : List String) (pruneAt : Instant),
    file = .contents (store.saveToFile saved ks) ∧ ks.Perm store.revoked.keys ∧
      store.revoked[jti]? = some pruneAt ∧ SavedUntil saved exp pruneAt

variable [AuthCrates]

/-- What holds of a revoked token from then on: it has expired, or the store keeps it, and
    so does the file if it was written since. -/
def Inv (jti : String) (exp : UInt64) (now : Instant) (s : Revocations) : Prop :=
  ExpiredBy now exp ∨
    (Kept s.store jti exp ∧ (jti ∉ s.unsaved → KeptInFile s.file jti exp))

/-- The step is none of those that forget the token before it expires.  An exchange asks
    for a lifetime in which it expires, a request revokes it in its last day, a deadline is
    not rounded down below its expiry when it is saved, and it is saved before a restart. -/
def Safe (jti : String) (exp : UInt64) (now : Instant) (s : Revocations) : Step → Prop
  | .refresh _ oldToken newTtlSecs => ∀ claims, verifyToken now oldToken = .ok claims →
      claims.jti = jti → exp.toNat ≤ now.secs + newTtlSecs.toNat
  | .handleRevoke _ _ jti' _ =>
      (jti' = jti → exp.toNat ≤ now.secs + DEFAULT_REVOKE_TTL_SECS.toNat) ∧
        ∀ pruneAt ∈ s.store.revoked[jti]?, SavedUntil now exp pruneAt
  | .prune => True
  | .save _ => ∀ pruneAt ∈ s.store.revoked[jti]?, SavedUntil now exp pruneAt
  | .load _ => jti ∉ s.unsaved

/-- The step revokes the token. -/
def Revokes (jti : String) (now : Instant) (s : Revocations) : Step → Prop
  | .refresh uuid oldToken newTtlSecs =>
      ∃ claims r, verifyToken now oldToken = .ok claims ∧ claims.jti = jti ∧
        (refreshScopedToken now uuid oldToken newTtlSecs s.store).1 = .ok r
  | .handleRevoke walk claims jti' payload => jti' = jti ∧
      ∃ body, (s.handleRevoke now walk claims jti' payload).1 = some (200, body)
  | _ => False

/-- The requests that revoke have no `exp`. -/
def Step.Plain : Step → Prop
  | .handleRevoke _ _ _ payload => payload.get "exp" = none
  | _ => True

variable {jti : String} {exp : UInt64} {now now' : Instant} {s s' : Revocations}

omit [AuthCrates] in
theorem expiredBy_addSecs {secs : UInt64} (h : now.addSecs secs = some now') :
    ExpiredBy now' exp ↔ exp.toNat ≤ now.secs + secs.toNat := by
  have hadd := Instant.addSecs_eq_some.1 h
  rw [ExpiredBy, Instant.secs, Instant.secs, hadd, Nat.add_mul_div_left _ _ (by decide)]

omit [AuthCrates] in
theorem savedUntil_addSecs {secs : UInt64} (h : now.addSecs secs = some now') :
    SavedUntil now exp now' ↔ exp.toNat ≤ now.secs + secs.toNat := by
  have hadd := Instant.addSecs_eq_some.1 h
  rw [SavedUntil, Instant.secsUntil, hadd, Nat.add_sub_cancel_left,
    Nat.mul_div_cancel_left _ (by decide)]

theorem Inv.later (h : Inv jti exp now s) (hle : now.nanos ≤ now'.nanos) : Inv jti exp now' s :=
  h.imp_left fun hpassed => hpassed.trans (Instant.secs_mono hle)

/-- **A rejected token.** -/
theorem Inv.rejected (h : Inv jti exp now s) : exp.toNat ≤ now.secs ∨ s.store.isRevoked jti := by
  rcases h with hpassed | ⟨⟨pruneAt, hjti, -⟩, -⟩
  · exact Or.inl hpassed
  · exact Or.inr (by rw [isRevoked, hjti]; rfl)

/-! ## Each step -/

theorem inv_save (walk : Walk) (hkept : Kept s.store jti exp)
    (hsafe : ∀ pruneAt ∈ s.store.revoked[jti]?, SavedUntil now exp pruneAt) :
    Inv jti exp now (s.save now walk) := by
  obtain ⟨pruneAt, hjti, hout⟩ := hkept
  exact Or.inr ⟨⟨pruneAt, hjti, hout⟩, fun _ =>
    ⟨s.store, now, _, pruneAt, rfl, walk.perm _, hjti, hsafe pruneAt hjti⟩⟩

theorem inv_prune (h : Inv jti exp now s) :
    Inv jti exp now { s with store := s.store.prune now } := by
  rcases h with hpassed | ⟨⟨pruneAt, hjti, hout⟩, hfile⟩
  · exact Or.inl hpassed
  · rcases Nat.lt_or_ge now.nanos pruneAt.nanos with hlt | hge
    · refine Or.inr ⟨⟨pruneAt, ?_, hout⟩, hfile⟩
      rw [prune, Std.ExtTreeMap.getElem?_filter', hjti]
      simp [hlt]
    · exact Or.inl (hout.trans (Instant.secs_mono hge))

theorem inv_load {path : String} {store : RevocationStore}
    (hload : loadFromFile path s.file now = .ok store) (hfile : KeptInFile s.file jti exp)
    (unsaved : List String) : Inv jti exp now { s with store := store, unsaved := unsaved } := by
  have hfile' := hfile
  obtain ⟨saved, t, ks, pruneAt, heq, hks, hjti, hsaved⟩ := hfile
  obtain ⟨restored, hrestored, hlook⟩ := restore_entries t hks now
  rw [heq] at hload
  rcases loadFromFile_saveToFile t hks path now with ⟨-, hok⟩ | ⟨-, e, herr⟩
  · rw [hok, hrestored] at hload
    cases hload
    have hentry := hlook jti
    rw [hjti, Option.map_some, Option.bind_some] at hentry
    have hle : exp.toNat ≤ (pruneUnix t pruneAt).toNat := by rwa [pruneUnix_toNat]
    cases hkept : kept now (pruneUnix t pruneAt) with
    | none =>
      rw [kept_eq_none (pruneUnix_lt _ _)] at hkept
      exact Or.inl (hle.trans hkept)
    | some deadline =>
      rw [hkept] at hentry
      obtain ⟨hlt, hnanos⟩ := kept_eq_some hkept
      have hnow : NANOS_PER_SEC * now.secs ≤ now.nanos := Instant.le_secs.1 le_rfl
      have hout : ExpiredBy deadline exp := by
        refine hle.trans (Instant.le_secs.2 ?_)
        rw [hnanos]
        unfold NANOS_PER_SEC at *
        omega
      exact Or.inr ⟨⟨deadline, hentry, hout⟩, fun _ => hfile'⟩
  · rw [herr] at hload
    cases hload

/-- What an exchange does: nothing, or the old token is revoked and not yet saved. -/
theorem refresh_cases (s : Revocations) (now : Instant) (uuid oldToken : String)
    (newTtlSecs : UInt64) :
    ((∀ r, (refreshScopedToken now uuid oldToken newTtlSecs s.store).1 ≠ .ok r) ∧
        s.refresh now uuid oldToken newTtlSecs = s) ∨
      ∃ claims deadline, verifyToken now oldToken = .ok claims ∧
        now.addSecs newTtlSecs = some deadline ∧
        s.refresh now uuid oldToken newTtlSecs =
          { s with store := s.store.revoke claims.jti deadline,
                   unsaved := claims.jti :: s.unsaved } := by
  rcases refreshScopedToken_cases now uuid oldToken newTtlSecs s.store with
    ⟨⟨e, herr⟩, hstore⟩ | ⟨claims, deadline, r, hverify, hadd, hrefresh⟩
  · refine Or.inl ⟨fun r hok => ?_, ?_⟩
    · rw [herr] at hok
      cases hok
    · have hpair : refreshScopedToken now uuid oldToken newTtlSecs s.store = (.error e, s.store) :=
        Prod.ext herr hstore
      rw [refresh, hpair]
  · refine Or.inr ⟨claims, deadline, hverify, hadd, ?_⟩
    rw [refresh, hrefresh, hverify]

/-- A request to revoke without an `exp` revokes for a day. -/
theorem handleRevoke_plain (s : Revocations) (now : Instant) (walk : Walk) (claims : Claims)
    (jti' : String) {payload : Json} (hplain : payload.get "exp" = none) :
    ((∀ body, (s.handleRevoke now walk claims jti' payload).1 ≠ some (200, body)) ∧
        (s.handleRevoke now walk claims jti' payload).2 = s) ∨
      ∃ deadline, now.addSecs DEFAULT_REVOKE_TTL_SECS = some deadline ∧
        (s.handleRevoke now walk claims jti' payload).2 =
          { s with store := s.store.revoke jti' deadline }.save now walk := by
  have hafter : pruneAfter now payload = now.addSecs DEFAULT_REVOKE_TTL_SECS := by
    rw [pruneAfter, hplain]
    rfl
  refine (s.handleRevoke_cases now walk claims jti' payload).imp_right ?_
  rintro ⟨deadline, body, hdeadline, heq⟩
  exact ⟨deadline, hafter.symm.trans hdeadline, congrArg Prod.snd heq⟩

omit [AuthCrates] in
/-- A token that is revoked for long enough is kept. -/
theorem kept_revoke {deadline : Instant} (h : ExpiredBy deadline exp) (store : RevocationStore) :
    Kept (store.revoke jti deadline) jti exp :=
  ⟨deadline, by rw [revoke, Map.get?_insert, if_pos rfl], h⟩

theorem inv_refreshed {deadline : Instant} (h : ExpiredBy deadline exp) :
    Inv jti exp now
      { s with store := s.store.revoke jti deadline, unsaved := jti :: s.unsaved } :=
  Or.inr ⟨kept_revoke h _, fun hsaved => absurd List.mem_cons_self hsaved⟩

theorem inv_handleRevoked {deadline : Instant} (walk : Walk)
    (hadd : now.addSecs DEFAULT_REVOKE_TTL_SECS = some deadline)
    (hle : exp.toNat ≤ now.secs + DEFAULT_REVOKE_TTL_SECS.toNat) :
    Inv jti exp now ({ s with store := s.store.revoke jti deadline }.save now walk) := by
  refine inv_save walk (kept_revoke ((expiredBy_addSecs hadd).2 hle) _) fun pruneAt hjti => ?_
  have heq : deadline = pruneAt := by
    simpa [revoke, Map.get?_insert] using hjti
  exact heq ▸ (savedUntil_addSecs hadd).2 hle

/-- A token that a step revokes is kept. -/
theorem inv_of_revokes {e : Step} (hplain : e.Plain) (hsafe : Safe jti exp now s e)
    (hrev : Revokes jti now s e) (hstep : s.step now e = some s') : Inv jti exp now s' := by
  cases e with
  | refresh uuid oldToken newTtlSecs =>
    obtain ⟨claims, r, hverify, hjti, hok⟩ := hrev
    obtain rfl := Option.some.inj hstep
    rcases refresh_cases s now uuid oldToken newTtlSecs with
      ⟨hno, -⟩ | ⟨claims', deadline, hverify', hadd, heq⟩
    · exact absurd hok (hno r)
    · rw [hverify] at hverify'
      cases hverify'
      rw [heq, hjti]
      exact inv_refreshed ((expiredBy_addSecs hadd).2 (hsafe claims hverify hjti))
  | handleRevoke walk claims jti' payload =>
    obtain ⟨rfl, body, hok⟩ := hrev
    obtain rfl := Option.some.inj hstep
    rcases handleRevoke_plain s now walk claims jti' hplain with ⟨hno, -⟩ | ⟨deadline, hadd, heq⟩
    · exact absurd hok (hno body)
    · rw [heq]
      exact inv_handleRevoked walk hadd (hsafe.1 rfl)
  | prune => cases hrev
  | save walk => cases hrev
  | load path => cases hrev

/-- **One step keeps the token rejected.** -/
theorem Inv.step {e : Step} (h : Inv jti exp now s) (hplain : e.Plain)
    (hsafe : Safe jti exp now s e) (hstep : s.step now e = some s') : Inv jti exp now s' := by
  rcases h with hpassed | ⟨hkept, hfile⟩
  · exact Or.inl hpassed
  have hother : ∀ jti' deadline, jti' ≠ jti → Kept (s.store.revoke jti' deadline) jti exp := by
    rintro jti' deadline hne
    obtain ⟨pruneAt, hjti, hout⟩ := hkept
    exact ⟨pruneAt, by rw [revoke, Map.get?_insert, if_neg hne.symm, hjti], hout⟩
  cases e with
  | refresh uuid oldToken newTtlSecs =>
    obtain rfl := Option.some.inj hstep
    rcases refresh_cases s now uuid oldToken newTtlSecs with
      ⟨-, heq⟩ | ⟨claims, deadline, hverify, hadd, heq⟩
    · rw [heq]
      exact Or.inr ⟨hkept, hfile⟩
    · rw [heq]
      by_cases hjti : claims.jti = jti
      · rw [hjti]
        exact inv_refreshed ((expiredBy_addSecs hadd).2 (hsafe claims hverify hjti))
      · exact Or.inr ⟨hother _ _ hjti, fun hsaved =>
          hfile fun hmem => hsaved (List.mem_cons_of_mem _ hmem)⟩
  | handleRevoke walk claims jti' payload =>
    obtain rfl := Option.some.inj hstep
    rcases handleRevoke_plain s now walk claims jti' hplain with ⟨-, heq⟩ | ⟨deadline, hadd, heq⟩
    · rw [heq]
      exact Or.inr ⟨hkept, hfile⟩
    · rw [heq]
      by_cases hjti : jti' = jti
      · rw [hjti]
        exact inv_handleRevoked walk hadd (hsafe.1 hjti)
      · refine inv_save walk (hother _ _ hjti) fun pruneAt hmem => hsafe.2 pruneAt ?_
        rwa [revoke, Map.get?_insert, if_neg (Ne.symm hjti)] at hmem
  | prune =>
    obtain rfl := Option.some.inj hstep
    exact inv_prune (Or.inr ⟨hkept, hfile⟩)
  | save walk =>
    obtain rfl := Option.some.inj hstep
    exact inv_save walk hkept hsafe
  | load path =>
    simp only [Revocations.step] at hstep
    cases hload : loadFromFile path s.file now with
    | error e =>
      rw [hload] at hstep
      cases hstep
    | ok store =>
      rw [hload] at hstep
      obtain rfl := Option.some.inj hstep
      exact inv_load hload (hfile hsafe) []

/-- Every step of the run is safe for the token. -/
def SafeRun (jti : String) (exp : UInt64) : List (Instant × Step) → Revocations → Prop
  | [], _ => True
  | (now, e) :: es, s => Safe jti exp now s e ∧ ∀ s', s.step now e = some s' → SafeRun jti exp es s'

/-- The times of the run, from `t` to `now`, do not decrease. -/
def Ascending (t : Instant) (es : List (Instant × Step)) (now : Instant) : Prop :=
  (t :: (es.map Prod.fst ++ [now])).Pairwise fun a b => a.nanos ≤ b.nanos

/-- **A run keeps the token rejected.** -/
theorem Inv.run {es : List (Instant × Step)} {t : Instant} (h : Inv jti exp t s)
    (htimes : Ascending t es now) (hplain : ∀ p ∈ es, p.2.Plain) (hsafe : SafeRun jti exp es s)
    (hrun : run es s = some s') : Inv jti exp now s' := by
  induction es generalizing t s with
  | nil =>
    obtain rfl := Option.some.inj hrun
    exact h.later ((List.pairwise_cons.1 htimes).1 now List.mem_cons_self)
  | cons p es ih =>
    obtain ⟨t', e⟩ := p
    obtain ⟨hfirst, hrest⟩ := List.pairwise_cons.1 htimes
    obtain ⟨s₁, hstep, hrun⟩ := Option.bind_eq_some_iff.1 hrun
    have hle : t.nanos ≤ t'.nanos := hfirst t' List.mem_cons_self
    have hinv := (h.later hle).step (hplain _ List.mem_cons_self) hsafe.1 hstep
    exact ih hinv hrest (fun p hp => hplain p (List.mem_cons_of_mem _ hp)) (hsafe.2 s₁ hstep) hrun

end Revocations

open Revocations

/-- **Revocation is permanent** in every run whose steps forget no token before it expires:
    once a step has revoked a token, it has expired or is revoked at every later time. -/
theorem revocation_permanent [AuthCrates] {jti : String} {exp : UInt64} {t now : Instant}
    {e : Step} {es : List (Instant × Step)} {s s' : Revocations} (hrev : Revokes jti t s e)
    (htimes : Ascending t es now) (hplain : ∀ p ∈ (t, e) :: es, p.2.Plain)
    (hsafe : SafeRun jti exp ((t, e) :: es) s) (hrun : run ((t, e) :: es) s = some s') :
    exp.toNat ≤ now.secs ∨ s'.store.isRevoked jti := by
  obtain ⟨s₁, hstep, hrun⟩ := Option.bind_eq_some_iff.1 hrun
  have hinv := inv_of_revokes (hplain _ List.mem_cons_self) hsafe.1 hrev hstep
  exact (hinv.run htimes (fun p hp => hplain p (List.mem_cons_of_mem _ hp)) (hsafe.2 s₁ hstep)
    hrun).rejected

/-- The claims of the root user. -/
def root : Claims := ⟨"admin", 86400, ["*:*:*"], "root"⟩

/-- The root user revokes the token `a` at the start. -/
def revokeA : Step := .handleRevoke .plain root "a" (.obj [])

theorem revokes_revokeA [AuthCrates] : Revokes "a" (.ofSecs 0 (by decide)) start revokeA :=
  ⟨rfl, _, rfl⟩

/-- A token of an hour, revoked and then pruned. -/
theorem revocation_permanent_hour :
    letI := AuthCrates.plain
    ∃ s', run [(.ofSecs 0 (by decide), revokeA), (.ofSecs 60 (by decide), .prune)] start = some s' ∧
      ((3600 : UInt64).toNat ≤ (Instant.ofSecs 120 (by decide)).secs ∨ s'.store.isRevoked "a") := by
  let _ := AuthCrates.plain
  have hsome : (run [(.ofSecs 0 (by decide), revokeA), (.ofSecs 60 (by decide), .prune)]
      start).isSome := by decide +kernel
  obtain ⟨s', hrun⟩ := Option.isSome_iff_exists.1 hsome
  refine ⟨s', hrun, revocation_permanent revokes_revokeA ?_ ?_ ?_ hrun⟩
  · simp only [Ascending, List.map_cons, List.map_nil, List.cons_append, List.nil_append,
      List.pairwise_cons, List.forall_mem_cons]
    decide
  · simp only [List.forall_mem_cons]
    exact ⟨rfl, trivial, List.forall_mem_nil _⟩
  · refine ⟨⟨fun _ => by decide, fun pruneAt hmem => ?_⟩, fun s₁ _ => ⟨trivial, fun _ _ => trivial⟩⟩
    simp [start, new] at hmem

/-- A token of two days, revoked in its first second: it is forgotten after one day. -/
theorem revocation_forgotten :
    letI := AuthCrates.plain
    Revokes "a" (.ofSecs 0 (by decide)) start revokeA ∧
      ∃ s', run [(.ofSecs 0 (by decide), revokeA), (.ofSecs 86400 (by decide), .prune)] start =
          some s' ∧
        ¬ ((172800 : UInt64).toNat ≤ (Instant.ofSecs 86400 (by decide)).secs ∨
          s'.store.isRevoked "a") := by
  let _ := AuthCrates.plain
  refine ⟨revokes_revokeA, _, rfl, ?_⟩
  decide +kernel

end MoltenDB
