/-
  The advice of the rate limiter.

  The oldest call in the window has been there for less than the window, so the seconds a rejected
  caller is told to wait come out as `1` whatever is left of the window (`retryAfter_lt`): the
  advice is enough exactly when the oldest call has left the window one second later. What carries
  the proofs is that the calls of an address are kept in order, and never more of them than
  `maxRequests` (`Kept`).
-/
import MoltenDB.Proof.RateLimits

namespace MoltenDB

namespace RateLimiter

open Window

/-! ## What is kept of an address -/

/-- The calls of an address that count at the time `now`. -/
def recent (limiter : RateLimiter) (ip : IpAddr) (now : Instant) : List Instant :=
  since time (time now - width limiter.window) (limiter.entry ip)

/-- The calls of each address are kept in order, none of them later than `t`, and at most
    `maxRequests` of them. -/
def Kept (limiter : RateLimiter) (t : ℤ) : Prop :=
  ∀ ip, (limiter.entry ip).Pairwise (fun a b => time a ≤ time b) ∧
    (∀ a ∈ limiter.entry ip, time a ≤ t) ∧ (limiter.entry ip).length ≤ limiter.maxRequests

/-- The clock can show the start of a window that ends at `now`. -/
def HasStart (window : UInt64) (now : Instant) : Prop :=
  -(2 ^ 63 * NANOS_PER_SEC) ≤ time now - width window

instance (window : UInt64) (now : Instant) : Decidable (HasStart window now) :=
  inferInstanceAs (Decidable (_ ≤ _))

variable {limiter : RateLimiter} {ip : IpAddr} {now later : Instant} {t : ℤ}

/-- What a call of an address does: the clock cannot show the start of the window, the calls in
    the window are enough, or the call is admitted. -/
theorem checkRateLimit_eq (limiter : RateLimiter) (ip : IpAddr) (now later : Instant) :
    limiter.checkRateLimit ip now later =
      if HasStart limiter.window now then
        if limiter.maxRequests ≤ (limiter.recent ip now).length then
          (limiter.tooMany (limiter.recent ip now) later,
            limiter.setEntry ip (limiter.recent ip now))
        else (.allowed, limiter.setEntry ip (limiter.recent ip now ++ [now]))
      else (.panicked, limiter) := by
  by_cases hclock : HasStart limiter.window now
  · have hcut : subSecs now.nanos limiter.window = some (time now - width limiter.window) :=
      if_pos hclock
    rw [checkRateLimit, hcut, if_pos hclock]
    rfl
  · have hcut : subSecs now.nanos limiter.window = none := if_neg hclock
    rw [checkRateLimit, hcut, if_neg hclock]

theorem tooMany_ne_allowed (limiter : RateLimiter) (l : List Instant) (later : Instant) :
    limiter.tooMany l later ≠ .allowed := by
  unfold tooMany
  split <;> exact Decision.noConfusion

/-- When a call is admitted. -/
theorem allowed_iff (limiter : RateLimiter) (ip : IpAddr) (now later : Instant) :
    (limiter.checkRateLimit ip now later).1 = .allowed ↔
      HasStart limiter.window now ∧
        (limiter.recent ip now).length < limiter.maxRequests := by
  rw [checkRateLimit_eq]
  split_ifs with hclock hfull
  · simp [hclock, hfull.not_gt, tooMany_ne_allowed]
  · simp [hclock, not_le.1 hfull]
  · simp [hclock]

theorem HasStart.mono {window : UInt64} (h : HasStart window now) (hle : time now ≤ time later) :
    HasStart window later := le_trans h (sub_le_sub_right hle _)

theorem Kept.mono (h : Kept limiter t) {t' : ℤ} (hle : t ≤ t') : Kept limiter t' :=
  fun ip => ⟨(h ip).1, fun a ha => ((h ip).2.1 a ha).trans hle, (h ip).2.2⟩

/-- Less may be kept of an address. -/
theorem Kept.sublist (h : Kept limiter t) {limiter' : RateLimiter}
    (hmax : limiter'.maxRequests = limiter.maxRequests)
    (hsub : ∀ ip, (limiter'.entry ip).Sublist (limiter.entry ip)) : Kept limiter' t := by
  intro ip
  obtain ⟨hsorted, hle, hlen⟩ := h ip
  exact ⟨hsorted.sublist (hsub ip), fun a ha => hle a ((hsub ip).subset ha),
    hmax ▸ (hsub ip).length_le.trans hlen⟩

theorem recent_sublist (limiter : RateLimiter) (ip : IpAddr) (now : Instant) :
    (limiter.recent ip now).Sublist (limiter.entry ip) := List.filter_sublist

theorem Kept.setRecent (h : Kept limiter t) (ip : IpAddr) (now : Instant) :
    Kept (limiter.setEntry ip (limiter.recent ip now)) t := by
  refine h.sublist rfl fun ip' => ?_
  rw [entry_setEntry]
  split_ifs with hip
  · subst hip
    exact recent_sublist limiter ip' now
  · exact List.Sublist.refl _

theorem Kept.check (h : Kept limiter t) (ip : IpAddr) {now : Instant} (later : Instant)
    (hle : t ≤ time now) : Kept (limiter.checkRateLimit ip now later).2 (time now) := by
  have hnow := h.mono hle
  rw [checkRateLimit_eq]
  split_ifs with hclock hfull
  · exact hnow.setRecent ip now
  · intro ip'
    by_cases hip : ip' = ip
    · subst hip
      obtain ⟨hsorted, hbefore, -⟩ := hnow ip'
      have hsub := recent_sublist limiter ip' now
      rw [entry_setEntry, if_pos rfl]
      refine ⟨List.pairwise_append.2 ⟨hsorted.sublist hsub, List.pairwise_singleton _ _, ?_⟩, ?_, ?_⟩
      · intro a ha b hb
        rw [List.mem_singleton.1 hb]
        exact hbefore a (hsub.subset ha)
      · intro a ha
        rcases List.mem_append.1 ha with ha | ha
        · exact hbefore a (hsub.subset ha)
        · rw [List.mem_singleton.1 ha]
      · rw [List.length_append, List.length_singleton]
        exact not_le.1 hfull
    · have hother := hnow ip'
      rw [entry_setEntry, if_neg hip]
      exact hother
  · exact hnow

theorem checkRateLimit_settings (limiter : RateLimiter) (ip : IpAddr) (now later : Instant) :
    (limiter.checkRateLimit ip now later).2.maxRequests = limiter.maxRequests ∧
      (limiter.checkRateLimit ip now later).2.window = limiter.window := by
  rw [checkRateLimit_eq]
  split_ifs <;> exact ⟨rfl, rfl⟩

theorem Kept.cleanup (h : Kept limiter t) (now : Instant) : Kept (limiter.cleanup now) t := by
  refine h.sublist (limiter.cleanup_settings now).1 fun ip => ?_
  rcases limiter.entry_cleanup now ip with heq | ⟨c, -, heq⟩
  · rw [heq]
  · rw [heq]
    exact List.filter_sublist

theorem Kept.step (h : Kept limiter t) (e : Instant × Call) (hle : t ≤ time e.1) :
    Kept (limiter.step e) (time e.1) := by
  rcases e with ⟨now, ⟨ip, later⟩ | _⟩
  · exact h.check ip later hle
  · exact (h.mono hle).cleanup now

theorem step_settings (limiter : RateLimiter) (e : Instant × Call) :
    (limiter.step e).maxRequests = limiter.maxRequests ∧
      (limiter.step e).window = limiter.window := by
  rcases e with ⟨now, ⟨ip, later⟩ | _⟩
  · exact limiter.checkRateLimit_settings ip now later
  · exact limiter.cleanup_settings now

/-! ## Runs -/

/-- The limiter after a run. -/
def run (limiter : RateLimiter) (es : List (Instant × Call)) : RateLimiter :=
  es.foldl step limiter

theorem Kept.run (h : Kept limiter t) {es : List (Instant × Call)} (hes : InOrder es)
    (hle : ∀ e ∈ es, t ≤ time e.1) {t' : ℤ} (hlast : ∀ e ∈ es, time e.1 ≤ t') (ht : t ≤ t') :
    Kept (limiter.run es) t' := by
  induction es generalizing limiter t with
  | nil => exact h.mono ht
  | cons e es ih =>
    obtain ⟨hfirst, hrest⟩ := List.pairwise_cons.1 hes
    exact ih (h.step e (hle e List.mem_cons_self)) hrest hfirst
      (fun e' he' => hlast e' (List.mem_cons_of_mem e he')) (hlast e List.mem_cons_self)

theorem run_settings (limiter : RateLimiter) (es : List (Instant × Call)) :
    (limiter.run es).maxRequests = limiter.maxRequests ∧
      (limiter.run es).window = limiter.window := by
  induction es generalizing limiter with
  | nil => exact ⟨rfl, rfl⟩
  | cons e es ih =>
    obtain ⟨hmax, hwindow⟩ := limiter.step_settings e
    exact ⟨(ih (limiter.step e)).1.trans hmax, (ih (limiter.step e)).2.trans hwindow⟩

theorem kept_new (maxRequests : ℕ) (window : UInt64) (t : ℤ) : Kept (new maxRequests window) t := by
  intro ip
  simp [entry, new]

/-! ## The advice -/

/-- The seconds an address is told to wait when the oldest call that counts came at `oldest`. -/
def wait (limiter : RateLimiter) (oldest later : Instant) : ℕ :=
  max (oldest.secsUntil later - limiter.window.toNat) 1

theorem tooMany_eq_limited {l : List Instant} {oldest : Instant} (h : l.head? = some oldest) :
    limiter.tooMany l later = .limited ⟨limiter.wait oldest later, limiter.maxRequests⟩ := by
  rw [tooMany, h]
  rfl

/-- As long as the oldest call is in the window, the advice is one second. -/
theorem wait_eq_one {oldest : Instant} (h : time later < time oldest + width limiter.window) :
    limiter.wait oldest later = 1 := by
  unfold time width NANOS_PER_SEC at h
  unfold wait Instant.secsUntil NANOS_PER_SEC
  omega

/-- Nobody is told to wait for no time. -/
theorem one_le_wait (limiter : RateLimiter) (oldest later : Instant) :
    1 ≤ limiter.wait oldest later := le_max_right _ _

/-- After a rejected call the next one is admitted when the oldest call has left the window. -/
theorem allowed_again_iff (h : Kept limiter t) {again answered oldest : Instant}
    (hclock : HasStart limiter.window now)
    (hfull : limiter.maxRequests ≤ (limiter.recent ip now).length)
    (holdest : (limiter.recent ip now).head? = some oldest) (hle : time now ≤ time again) :
    ((limiter.setEntry ip (limiter.recent ip now)).checkRateLimit ip again answered).1 = .allowed ↔
      time oldest + width limiter.window ≤ time again := by
  obtain ⟨hsorted, -, hlen⟩ := h ip
  have hsub := recent_sublist limiter ip now
  have hcount : (limiter.recent ip now).length = limiter.maxRequests :=
    le_antisymm (hsub.length_le.trans hlen) hfull
  have hleft := length_since_lt (c := time again - width limiter.window) (hsorted.sublist hsub)
    holdest
  have hrecent : (limiter.setEntry ip (limiter.recent ip now)).recent ip again =
      since time (time again - width limiter.window) (limiter.recent ip now) := by
    rw [recent, entry_setEntry, if_pos rfl]
    rfl
  rw [allowed_iff, hrecent, ← le_sub_iff_add_le, ← hleft, hcount]
  exact and_iff_right (hclock.mono hle)

/-- A call does not panic, and what a rejected address is told to wait is enough, if `maxRequests`
    lets any call in. -/
def Sufficient (limiter : RateLimiter) (ip : IpAddr) (now later : Instant) : Prop :=
  (limiter.checkRateLimit ip now later).1 ≠ .panicked ∧
    (1 ≤ limiter.maxRequests → ∀ (e : RateLimitError) (again answered : Instant),
      (limiter.checkRateLimit ip now later).1 = .limited e →
      time again = time later + NANOS_PER_SEC * e.retryAfter →
        ((limiter.checkRateLimit ip now later).2.checkRateLimit ip again answered).1 = .allowed)

/-- If the calls of the address are too many, the oldest of them leaves the window in a second. -/
def LeavesSoon (limiter : RateLimiter) (ip : IpAddr) (now later : Instant) : Prop :=
  limiter.maxRequests ≤ (limiter.recent ip now).length → ∀ oldest soon : Instant,
    (limiter.recent ip now).head? = some oldest → later.addSecs 1 = some soon →
      time oldest + width limiter.window ≤ time soon

theorem addSecs_one_iff {soon : Instant} :
    later.addSecs 1 = some soon ↔ time soon = time later + NANOS_PER_SEC := by
  rw [Instant.addSecs_eq_some, UInt64.toNat_one, mul_one]
  unfold time
  omega

/-- The advice is enough if the oldest call leaves the window in a second. -/
theorem Kept.sufficient (h : Kept limiter (time now)) (hle : time now ≤ time later)
    (hmax : 1 ≤ limiter.maxRequests) (hclock : HasStart limiter.window now)
    (hsoon : LeavesSoon limiter ip now later) : Sufficient limiter ip now later := by
  unfold Sufficient
  rw [checkRateLimit_eq, if_pos hclock]
  by_cases hfull : limiter.maxRequests ≤ (limiter.recent ip now).length
  · rw [if_pos hfull]
    obtain ⟨oldest, holdest⟩ : ∃ oldest, (limiter.recent ip now).head? = some oldest :=
      Option.ne_none_iff_exists'.1 fun hnil => by
        rw [List.head?_eq_none_iff.1 hnil] at hfull
        exact absurd (hmax.trans hfull) (by simp)
    rw [tooMany_eq_limited holdest]
    refine ⟨Decision.noConfusion, fun _ e again answered he hagain => ?_⟩
    obtain rfl := Decision.limited.inj he
    have hnow : time now ≤ time again := by
      rw [hagain]
      exact hle.trans (le_add_of_nonneg_right (by positivity))
    refine (allowed_again_iff h hclock hfull holdest hnow).2 ?_
    by_cases hout : time oldest + width limiter.window ≤ time later
    · rw [hagain]
      exact hout.trans (le_add_of_nonneg_right (by positivity))
    · -- the advice is one second
      have hagain' : time again = time later + NANOS_PER_SEC := by
        simpa [wait_eq_one (not_le.1 hout)] using hagain
      exact hsoon hfull oldest again holdest (addSecs_one_iff.2 hagain')
  · rw [if_neg hfull]
    exact ⟨Decision.noConfusion, fun _ e _ _ he => Decision.noConfusion he⟩

/-- A call that does not panic has the start of its window on the clock. -/
theorem Sufficient.hasStart (h : Sufficient limiter ip now later) :
    HasStart limiter.window now := by
  by_contra hclock
  apply h.1
  rw [checkRateLimit_eq, if_neg hclock]

/-- A limiter that lets nobody in keeps nothing, and panics. -/
theorem Sufficient.one_le (hkept : Kept limiter t) (h : Sufficient limiter ip now later) :
    1 ≤ limiter.maxRequests := by
  by_contra hmax
  have hzero : limiter.maxRequests = 0 := by omega
  have hlen := (recent_sublist limiter ip now).length_le.trans (hkept ip).2.2
  have hnil : limiter.recent ip now = [] :=
    List.length_eq_zero_iff.1 (Nat.le_zero.1 (hzero ▸ hlen))
  apply h.1
  rw [checkRateLimit_eq, if_pos h.hasStart, if_pos (hzero ▸ Nat.zero_le _), hnil]
  rfl

/-- The advice is no more than a second while the oldest call is in the window, so a call that is
    admitted then has seen it leave. -/
theorem Sufficient.leavesSoon (hkept : Kept limiter t) (hle : time now ≤ time later)
    (h : Sufficient limiter ip now later) : LeavesSoon limiter ip now later := by
  intro hfull oldest soon holdest hshown
  have hsoon := addSecs_one_iff.1 hshown
  by_contra hin
  have hlater : time later < time oldest + width limiter.window := by
    have hpos : (0 : ℤ) < NANOS_PER_SEC := by decide
    omega
  have hlimited : limiter.checkRateLimit ip now later =
      (.limited ⟨1, limiter.maxRequests⟩, limiter.setEntry ip (limiter.recent ip now)) := by
    rw [checkRateLimit_eq, if_pos h.hasStart, if_pos hfull, tooMany_eq_limited holdest,
      wait_eq_one hlater]
  have hallowed := h.2 (h.one_le hkept) ⟨1, limiter.maxRequests⟩ soon soon
    (congrArg Prod.fst hlimited) (by simpa using hsoon)
  rw [hlimited] at hallowed
  have hnow : time now ≤ time soon := by
    rw [hsoon]
    exact hle.trans (le_add_of_nonneg_right (by positivity))
  exact hin ((allowed_again_iff hkept h.hasStart hfull holdest hnow).1 hallowed)

end RateLimiter

open RateLimiter in
/-- **When the advice of the rate limiter is enough**, after every run: `maxRequests` lets a call
    in, the clock can show the start of the window, and the oldest call that counts leaves the
    window within a second. -/
theorem retry_after_iff (maxRequests : ℕ) (window : UInt64)
    {es : List (Instant × RateLimiter.Call)} {ip : IpAddr} {now later : Instant}
    (hes : InOrder es) (hnow : ∀ e ∈ es, time e.1 ≤ time now) (hlater : time now ≤ time later) :
    Sufficient ((RateLimiter.new maxRequests window).run es) ip now later ↔
      1 ≤ maxRequests ∧ HasStart window now ∧
        LeavesSoon ((RateLimiter.new maxRequests window).run es) ip now later := by
  obtain ⟨hmax, hwindow⟩ := (RateLimiter.new maxRequests window).run_settings es
  have hkept : Kept ((RateLimiter.new maxRequests window).run es) (time now) :=
    (kept_new maxRequests window 0).run hes (fun e _ => Int.natCast_nonneg e.1.nanos) hnow
      (Int.natCast_nonneg now.nanos)
  constructor
  · intro h
    have hone := h.one_le hkept
    have hstart := h.hasStart
    rw [hmax] at hone
    rw [hwindow] at hstart
    exact ⟨hone, hstart, h.leavesSoon hkept hlater⟩
  · rintro ⟨hone, hstart, hsoon⟩
    refine hkept.sufficient hlater ?_ ?_ hsoon
    · rw [hmax]
      exact hone
    · rw [hwindow]
      exact hstart

namespace RateLimiter

/-- One call of an address. -/
def oneCall : List (Instant × Call) := calls.take 1

/-- Three calls of an address. -/
def threeCalls : List (Instant × Call) :=
  calls.take 2 ++ [(.ofSecs 402 (by decide), .check (.v4 1) (.ofSecs 402 (by decide)))]

end RateLimiter

open RateLimiter in
/-- The advice given a second into a window of a minute is one second, and who follows it is
    rejected; a limiter that lets nobody in panics at the first call. -/
theorem retry_after_too_early :
    (RateLimiter.new 1 60).decisions threeCalls = [.allowed, .limited ⟨1, 1⟩, .limited ⟨1, 1⟩] ∧
      (RateLimiter.new 0 60).decisions oneCall = [.panicked] ∧
      ¬ Sufficient ((RateLimiter.new 1 60).run oneCall) (.v4 1) (.ofSecs 401 (by decide))
        (.ofSecs 401 (by decide)) := by
  refine ⟨by decide +kernel, by decide +kernel, fun h => ?_⟩
  have hrejected := h.2 (by decide) ⟨1, 1⟩ (.ofSecs 402 (by decide)) (.ofSecs 402 (by decide))
    (by decide +kernel) (by decide)
  exact absurd hrejected (by decide +kernel)

open RateLimiter in
theorem retry_after_second :
    Sufficient ((RateLimiter.new 1 1).run oneCall) (.v4 1) (.ofSecs 400 (by decide))
      (.ofSecs 400 (by decide)) := by
  refine (retry_after_iff 1 1 (by simp [InOrder, oneCall, calls]) (by decide) le_rfl).2
    ⟨le_rfl, by decide, fun _ oldest soon holdest hshown => ?_⟩
  have hfirst : ((RateLimiter.new 1 1).run oneCall).recent (.v4 1) (.ofSecs 400 (by decide)) =
      [.ofSecs 400 (by decide)] := by decide +kernel
  have hwindow : ((RateLimiter.new 1 1).run oneCall).window = 1 := rfl
  rw [hfirst] at holdest
  obtain rfl := Option.some.inj holdest
  rw [hwindow, addSecs_one_iff.1 hshown]
  decide

end MoltenDB
