/-
  The rate limiter never admits too many.

  What the limiter has forgotten is older than its window, so it decides like a ledger that
  forgets nothing (`Tracks`); in the ledger each admitted call has fewer than `maxRequests` others
  in the window before it.
-/
import MoltenDB.Lib.Window
import MoltenDB.Server.RateLimit

namespace MoltenDB.RateLimiter

open Window

/-- The time of a clock reading. -/
def time (t : Instant) : ℤ := t.nanos

/-- The window of a limiter. -/
def width (window : UInt64) : ℤ := NANOS_PER_SEC * window.toNat

theorem width_nonneg (window : UInt64) : 0 ≤ width window := by
  unfold width
  positivity

theorem subSecs_eq_some {t c : ℤ} {secs : UInt64} (h : subSecs t secs = some c) :
    c = t - width secs := by
  unfold subSecs at h
  split_ifs at h
  exact (Option.some.inj h).symm

/-! ## The ledger -/

/-- The calls of each address that were admitted, none of them forgotten. -/
structure Ledger where
  history : IpAddr → List Instant
  maxRequests : ℕ
  window : UInt64

namespace Ledger

def new (maxRequests : ℕ) (window : UInt64) : Ledger := ⟨fun _ => [], maxRequests, window⟩

/-- A call, decided by the history of its address. -/
def check (ledger : Ledger) (ip : IpAddr) (now later : Instant) : Decision × Ledger :=
  match subSecs now.nanos ledger.window with
  | none => (.panicked, ledger)
  | some cutoff =>
    let recent := since time cutoff (ledger.history ip)
    if ledger.maxRequests ≤ recent.length then
      ((RateLimiter.new ledger.maxRequests ledger.window).tooMany recent later, ledger)
    else
      (.allowed, { ledger with
        history := Function.update ledger.history ip (ledger.history ip ++ [now]) })

def step (ledger : Ledger) (e : Instant × Call) : Ledger :=
  match e.2 with
  | .check ip later => (ledger.check ip e.1 later).2
  | .cleanup => ledger

def decision (ledger : Ledger) (e : Instant × Call) : Option Decision :=
  match e.2 with
  | .check ip later => some (ledger.check ip e.1 later).1
  | .cleanup => none

def decisions (ledger : Ledger) : List (Instant × Call) → List Decision
  | [] => []
  | e :: es => (ledger.decision e).toList ++ (ledger.step e).decisions es

/-- The ledger does not see the cleanups. -/
theorem decisions_checks (ledger : Ledger) (es : List (Instant × Call)) :
    ledger.decisions es = ledger.decisions (es.filter fun e => e.2.isCheck) := by
  induction es generalizing ledger with
  | nil => rfl
  | cons e es ih =>
    rcases e with ⟨now, ⟨ip, later⟩ | _⟩
    · rw [List.filter_cons_of_pos rfl, decisions, decisions, ih]
    · rw [List.filter_cons_of_neg (by simp [Call.isCheck]), decisions, ih]
      rfl

/-- Each admitted call has fewer than `maxRequests` others in the window before it. -/
def Spaced (ledger : Ledger) : Prop :=
  ∀ ip, Sparse time ledger.maxRequests (width ledger.window) (ledger.history ip)

/-- What a call of an address does to the ledger. -/
theorem check_cases (ledger : Ledger) (ip : IpAddr) (now later : Instant) :
    ((ledger.check ip now later).1 ≠ .allowed ∧ (ledger.check ip now later).2 = ledger) ∨
    ((ledger.check ip now later).1 = .allowed ∧
      (since time (time now - width ledger.window) (ledger.history ip)).length <
        ledger.maxRequests ∧
      (ledger.check ip now later).2 = { ledger with
        history := Function.update ledger.history ip (ledger.history ip ++ [now]) }) := by
  rw [check]
  cases hcut : subSecs now.nanos ledger.window with
  | none => exact Or.inl ⟨Decision.noConfusion, rfl⟩
  | some cutoff =>
    obtain rfl := subSecs_eq_some hcut
    dsimp only
    split_ifs with hfull
    · refine Or.inl ⟨?_, rfl⟩
      dsimp only [tooMany]
      split <;> exact Decision.noConfusion
    · exact Or.inr ⟨rfl, not_le.1 hfull, rfl⟩

theorem Spaced.check {ledger : Ledger} (h : ledger.Spaced) (ip : IpAddr) (now later : Instant) :
    (ledger.check ip now later).2.Spaced := by
  rcases ledger.check_cases ip now later with ⟨-, heq⟩ | ⟨-, hlt, heq⟩
  · rw [heq]
    exact h
  · rw [heq]
    intro ip'
    by_cases hip : ip' = ip
    · subst hip
      simpa using (h ip').snoc hlt
    · simpa [Function.update_of_ne hip] using h ip'

theorem Spaced.step {ledger : Ledger} (h : ledger.Spaced) (e : Instant × Call) :
    (ledger.step e).Spaced := by
  rcases e with ⟨now, ⟨ip, later⟩ | _⟩
  · exact h.check ip now later
  · exact h

end Ledger

/-! ## The limiter and the ledger -/

/-- From the time `t` on, the limiter keeps what the ledger has in the window. -/
structure Tracks (limiter : RateLimiter) (ledger : Ledger) (t : ℤ) : Prop where
  maxRequests : limiter.maxRequests = ledger.maxRequests
  window : limiter.window = ledger.window
  entry : ∀ ip, since time (t - width ledger.window) (limiter.entry ip) =
    since time (t - width ledger.window) (ledger.history ip)

variable {limiter : RateLimiter} {ledger : Ledger} {t : ℤ}

theorem Tracks.mono (h : Tracks limiter ledger t) {t' : ℤ} (hle : t ≤ t') :
    Tracks limiter ledger t' :=
  ⟨h.maxRequests, h.window, fun ip => since_congr (h.entry ip) (sub_le_sub_right hle _)⟩

theorem entry_setEntry (limiter : RateLimiter) (ip ip' : IpAddr) (l : List Instant) :
    (limiter.setEntry ip l).entry ip' = if ip' = ip then l else limiter.entry ip' := by
  rw [entry, setEntry, Map.get?_insert]
  split_ifs <;> rfl

/-- **The limiter decides like the ledger.** -/
theorem Tracks.check (h : Tracks limiter ledger t) (ip : IpAddr) {now : Instant} (later : Instant)
    (hle : t ≤ time now) :
    (limiter.checkRateLimit ip now later).1 = (ledger.check ip now later).1 ∧
      Tracks (limiter.checkRateLimit ip now later).2 (ledger.check ip now later).2 (time now) := by
  have hnow := h.mono hle
  rw [checkRateLimit, Ledger.check, h.window]
  cases hcut : subSecs now.nanos ledger.window with
  | none => exact ⟨rfl, hnow⟩
  | some cutoff =>
    have hcutoff : cutoff = time now - width ledger.window := subSecs_eq_some hcut
    subst hcutoff
    have hentry : (limiter.entry ip).filter
        (fun timestamp => time now - width ledger.window < timestamp.nanos) =
          since time (time now - width ledger.window) (ledger.history ip) := hnow.entry ip
    dsimp only
    rw [hentry, h.maxRequests]
    split_ifs with hfull
    · refine ⟨?_, h.maxRequests, h.window, fun ip' => ?_⟩
      · simp only [tooMany, RateLimiter.new, h.window, h.maxRequests]
      · rw [entry_setEntry]
        split_ifs with hip
        · rw [hip, since_since le_rfl]
        · exact hnow.entry ip'
    · refine ⟨rfl, h.maxRequests, h.window, fun ip' => ?_⟩
      rw [entry_setEntry]
      dsimp only
      split_ifs with hip
      · rw [hip, Function.update_self, since_append, since_append, since_since le_rfl]
      · rw [Function.update_of_ne hip]
        exact hnow.entry ip'

theorem cleanup_settings (limiter : RateLimiter) (now : Instant) :
    (limiter.cleanup now).maxRequests = limiter.maxRequests ∧
      (limiter.cleanup now).window = limiter.window := by
  rw [RateLimiter.cleanup]
  cases (subSecs now.nanos limiter.window).bind fun t => subSecs t 60 <;> exact ⟨rfl, rfl⟩

/-- A cleanup forgets what has come before the window, if it forgets anything. -/
theorem entry_cleanup (limiter : RateLimiter) (now : Instant) (ip : IpAddr) :
    (limiter.cleanup now).entry ip = limiter.entry ip ∨
      ∃ c ≤ time now - width limiter.window,
        (limiter.cleanup now).entry ip = since time c (limiter.entry ip) := by
  rw [RateLimiter.cleanup]
  cases hcut : (subSecs now.nanos limiter.window).bind fun t => subSecs t 60 with
  | none => exact Or.inl rfl
  | some cutoff =>
    obtain ⟨c, hc, hcutoff⟩ := Option.bind_eq_some_iff.1 hcut
    refine Or.inr ⟨cutoff, ?_, ?_⟩
    · rw [subSecs_eq_some hcutoff, subSecs_eq_some hc]
      exact sub_le_self _ (width_nonneg _)
    · rw [entry, entry]
      dsimp only
      rw [Std.ExtTreeMap.getElem?_filterMap']
      cases limiter.requests[ip]? with
      | none => rfl
      | some l =>
        rw [Option.bind_some, Option.getD_some]
        split_ifs with hnil
        · exact hnil.symm
        · rfl

/-- What a cleanup forgets would not count any more. -/
theorem Tracks.cleanup (h : Tracks limiter ledger t) {now : Instant} (hle : t ≤ time now) :
    Tracks (limiter.cleanup now) ledger (time now) := by
  have hnow := h.mono hle
  obtain ⟨hmax, hwindow⟩ := limiter.cleanup_settings now
  refine ⟨hmax.trans h.maxRequests, hwindow.trans h.window, fun ip => ?_⟩
  rw [← hnow.entry ip]
  rcases limiter.entry_cleanup now ip with heq | ⟨c, hc, heq⟩
  · rw [heq]
  · rw [heq, since_since (h.window ▸ hc)]

theorem Tracks.step (h : Tracks limiter ledger t) (e : Instant × Call) (hle : t ≤ time e.1) :
    limiter.decision e = ledger.decision e ∧
      Tracks (limiter.step e) (ledger.step e) (time e.1) := by
  rcases e with ⟨now, ⟨ip, later⟩ | _⟩
  · obtain ⟨heq, htracks⟩ := h.check ip later hle
    exact ⟨congrArg some heq, htracks⟩
  · exact ⟨rfl, h.cleanup hle⟩

/-- The calls of a run come at nondecreasing times. -/
def InOrder (es : List (Instant × Call)) : Prop := es.Pairwise fun e e' => time e.1 ≤ time e'.1

theorem Tracks.decisions {es : List (Instant × Call)} (h : Tracks limiter ledger t)
    (hes : InOrder es) (hle : ∀ e ∈ es, t ≤ time e.1) :
    limiter.decisions es = ledger.decisions es := by
  induction es generalizing limiter ledger t with
  | nil => rfl
  | cons e es ih =>
    obtain ⟨heq, htracks⟩ := h.step e (hle e List.mem_cons_self)
    obtain ⟨hfirst, hrest⟩ := List.pairwise_cons.1 hes
    rw [RateLimiter.decisions, Ledger.decisions, heq, ih htracks hrest hfirst]

/-- The admitted calls of an address are in the ledger, where they are spaced. -/
theorem Tracks.sparse_admitted {es : List (Instant × Call)} (h : Tracks limiter ledger t)
    (hspaced : ledger.Spaced) (hes : InOrder es) (hle : ∀ e ∈ es, t ≤ time e.1) (ip : IpAddr) :
    Sparse time ledger.maxRequests (width ledger.window)
      (ledger.history ip ++ limiter.admitted ip es) := by
  induction es generalizing limiter ledger t with
  | nil =>
    rw [admitted, List.append_nil]
    exact hspaced ip
  | cons e es ih =>
    obtain ⟨heq, htracks⟩ := h.step e (hle e List.mem_cons_self)
    obtain ⟨hfirst, hrest⟩ := List.pairwise_cons.1 hes
    have hsparse := ih htracks (hspaced.step e) hrest hfirst
    rcases e with ⟨now, ⟨ip', later⟩ | _⟩
    · simp only [Ledger.step] at hsparse
      rw [admitted, heq, ← List.append_assoc]
      dsimp only
      rcases ledger.check_cases ip' now later with ⟨hne, hsame⟩ | ⟨hallowed, -, hledger⟩
      · rw [if_neg fun hand => hne (Option.some.inj hand.2), List.append_nil]
        rwa [hsame] at hsparse
      · rw [hledger] at hsparse
        by_cases hip : ip' = ip
        · subst hip
          rw [if_pos ⟨rfl, congrArg some hallowed⟩]
          simpa using hsparse
        · rw [if_neg fun hand => hip hand.1, List.append_nil]
          simpa [Function.update_of_ne (Ne.symm hip)] using hsparse
    · exact hsparse

theorem tracks_new (maxRequests : ℕ) (window : UInt64) (t : ℤ) :
    Tracks (.new maxRequests window) (.new maxRequests window) t :=
  ⟨rfl, rfl, fun ip => by simp [entry, RateLimiter.new, Ledger.new]⟩

end RateLimiter

open RateLimiter in
/-- **The rate limiter admits at most `maxRequests` calls of one address** in every half-open
    interval as long as its window, and cleanups change none of its decisions. -/
theorem rate_limit_window (maxRequests : ℕ) (window : UInt64)
    {es : List (Instant × RateLimiter.Call)} (hes : InOrder es) :
    (∀ (ip : IpAddr) (t : ℤ),
      (((RateLimiter.new maxRequests window).admitted ip es).filter fun a =>
        t ≤ time a ∧ time a < t + width window).length ≤ maxRequests ∧
      (((RateLimiter.new maxRequests window).admitted ip es).filter fun a =>
        t < time a ∧ time a ≤ t + width window).length ≤ maxRequests) ∧
    ∀ es' : List (Instant × RateLimiter.Call), InOrder es' →
      (es'.filter fun e => e.2.isCheck) = (es.filter fun e => e.2.isCheck) →
        (RateLimiter.new maxRequests window).decisions es' =
          (RateLimiter.new maxRequests window).decisions es := by
  have hzero : ∀ (es : List (Instant × RateLimiter.Call)), ∀ e ∈ es, 0 ≤ time e.1 := fun es e he => by
    exact Int.natCast_nonneg e.1.nanos
  have htracks := tracks_new maxRequests window 0
  refine ⟨fun ip t => ?_, fun es' hes' hchecks => ?_⟩
  · have hsparse := htracks.sparse_admitted (fun _ => .nil) hes (hzero es) ip
    exact ⟨hsparse.length_Ico_le t, hsparse.length_Ioc_le t⟩
  · rw [htracks.decisions hes' (hzero es'), htracks.decisions hes (hzero es),
      Ledger.decisions_checks, hchecks, ← Ledger.decisions_checks]

namespace RateLimiter

/-- Three calls of one address and a cleanup. -/
def calls : List (Instant × Call) :=
  [(.ofSecs 400 (by decide), .check (.v4 1) (.ofSecs 400 (by decide))),
    (.ofSecs 401 (by decide), .check (.v4 1) (.ofSecs 401 (by decide))),
    (.ofSecs 459 (by decide), .cleanup),
    (.ofSecs 460 (by decide), .check (.v4 1) (.ofSecs 460 (by decide)))]

example : (new 1 60).decisions calls = [.allowed, .limited ⟨1, 1⟩, .allowed] := by decide +kernel

end RateLimiter

open RateLimiter in
theorem rate_limit_window_calls :
    (((RateLimiter.new 1 60).admitted (.v4 1) calls).filter fun a =>
      time (.ofSecs 400 (by decide)) ≤ time a ∧
        time a < time (.ofSecs 400 (by decide)) + width 60).length ≤ 1 :=
  ((@rate_limit_window 1 60 calls (by unfold InOrder; decide)).1 _ _).1

end MoltenDB
