/-
  The rate limiter of the server.

  A clock reading is an `Instant`; the monotonic clock of the system holds its seconds in 64 bits
  with a sign, so that a duration can be taken off a time as long as `2 ^ 63` seconds before zero
  are not passed.
-/
import MoltenDB.Auth.Store

namespace MoltenDB

/-- `IpAddr`. -/
inductive IpAddr
  | v4 (octets : UInt32)
  | v6 (octets : BitVec 128)
  deriving DecidableEq

namespace IpAddr

/-- The address as a number. -/
def code : IpAddr → ℕ
  | v4 octets => 2 * octets.toNat
  | v6 octets => 2 * octets.toNat + 1

theorem code_injective {a b : IpAddr} (h : a.code = b.code) : a = b := by
  cases a with
  | v4 x =>
    cases b with
    | v4 y => exact congrArg v4 (UInt32.toNat_inj.1 (by simpa [code] using h))
    | v6 y => simp only [code] at h; omega
  | v6 x =>
    cases b with
    | v4 y => simp only [code] at h; omega
    | v6 y => exact congrArg v6 (BitVec.eq_of_toNat_eq (by simpa [code] using h))

instance ord : Ord IpAddr := ⟨compareOn code⟩

instance transOrd : Std.TransOrd IpAddr := inferInstanceAs (Std.TransCmp (compareOn code))

instance lawfulEqOrd : Std.LawfulEqOrd IpAddr where
  compare_self := Nat.compare_eq_eq.2 rfl
  eq_of_compare h := code_injective (Nat.compare_eq_eq.1 h)

end IpAddr

/-- Take seconds off a time; a time out of range is a panic. -/
def subSecs (nanos : ℤ) (secs : UInt64) : Option ℤ :=
  if -(2 ^ 63 * NANOS_PER_SEC) ≤ nanos - NANOS_PER_SEC * secs.toNat then
    some (nanos - NANOS_PER_SEC * secs.toNat)
  else none

/-- `RateLimiter`. -/
structure RateLimiter where
  requests : Map IpAddr (List Instant)
  maxRequests : ℕ
  /-- In seconds. -/
  window : UInt64

/-- `RateLimitError`. -/
structure RateLimitError where
  retryAfter : ℕ
  limit : ℕ
  deriving DecidableEq

/-- How a call of `check_rate_limit` ends. -/
inductive Decision
  | allowed
  | limited (e : RateLimitError)
  | panicked
  deriving DecidableEq

namespace RateLimiter

def new (maxRequests : ℕ) (windowSecs : UInt64) : RateLimiter := ⟨∅, maxRequests, windowSecs⟩

/-- What is kept of the requests of an address. -/
def entry (limiter : RateLimiter) (ip : IpAddr) : List Instant := limiter.requests[ip]?.getD []

def setEntry (limiter : RateLimiter) (ip : IpAddr) (timestamps : List Instant) : RateLimiter :=
  { limiter with requests := limiter.requests.insert ip timestamps }

/-- The answer to an address with too many requests in the window, at the time `later`. -/
def tooMany (limiter : RateLimiter) (entry : List Instant) (later : Instant) : Decision :=
  match entry.head? with
  | none => .panicked
  | some oldest =>
    .limited ⟨max (oldest.secsUntil later - limiter.window.toNat) 1, limiter.maxRequests⟩

/-- `check_rate_limit` at the time `now`; a rejected call reads the clock again, at `later`. -/
def checkRateLimit (limiter : RateLimiter) (ip : IpAddr) (now later : Instant) :
    Decision × RateLimiter :=
  match subSecs now.nanos limiter.window with
  | none => (.panicked, limiter)
  | some cutoff =>
    let entry := (limiter.entry ip).filter fun timestamp => cutoff < timestamp.nanos
    if limiter.maxRequests ≤ entry.length then
      (limiter.tooMany entry later, limiter.setEntry ip entry)
    else (.allowed, limiter.setEntry ip (entry ++ [now]))

/-- `cleanup`: what is older than the window by a minute or more is forgotten. -/
def cleanup (limiter : RateLimiter) (now : Instant) : RateLimiter :=
  match (subSecs now.nanos limiter.window).bind fun t => subSecs t 60 with
  | none => limiter
  | some cutoff =>
    { limiter with requests := limiter.requests.filterMap fun _ timestamps =>
        let timestamps := timestamps.filter fun ts => cutoff < ts.nanos
        if timestamps = [] then none else some timestamps }

/-! ## Runs -/

/-- A call of one of the two. -/
inductive Call
  | check (ip : IpAddr) (later : Instant)
  | cleanup

def Call.isCheck : Call → Bool
  | check _ _ => true
  | cleanup => false

/-- A call at a time. -/
def step (limiter : RateLimiter) (e : Instant × Call) : RateLimiter :=
  match e.2 with
  | .check ip later => (limiter.checkRateLimit ip e.1 later).2
  | .cleanup => limiter.cleanup e.1

/-- How a call is decided; there is nothing to decide for a cleanup. -/
def decision (limiter : RateLimiter) (e : Instant × Call) : Option Decision :=
  match e.2 with
  | .check ip later => some (limiter.checkRateLimit ip e.1 later).1
  | .cleanup => none

/-- The decisions of a run, in order. -/
def decisions (limiter : RateLimiter) : List (Instant × Call) → List Decision
  | [] => []
  | e :: es => (limiter.decision e).toList ++ (limiter.step e).decisions es

/-- The times of the calls of an address that a run admits. -/
def admitted (ip : IpAddr) (limiter : RateLimiter) : List (Instant × Call) → List Instant
  | [] => []
  | e :: es =>
    (match e.2 with
      | .check ip' _ => if ip' = ip ∧ limiter.decision e = some .allowed then [e.1] else []
      | .cleanup => []) ++ admitted ip (limiter.step e) es

end RateLimiter

end MoltenDB
