/-
  The TTL sweep (`run_sweep`), and the operations on the TTL maps that run beside it, each
  step by step.

  The sweep is a task of its own: between any two of its steps the others may go on
  (`Sys.step`).
-/
import MoltenDB.Engine.Db

namespace MoltenDB.Sweep

open Wire Prog

/-- What the tasks share: the TTL maps, the clock, and the events that the sweep has not
    received. -/
structure Shared where
  ttlDefaults : DashMap UInt64
  ttlExpiry : DashMap UInt64
  clock : UInt64
  inbox : List Json

/-! ## The operations of the database -/

inductive Call
  | insert (collection : String)
  | setTtlDefault (collection : String) (ttlSecs : UInt64)
  | deleteCollection (collection : String)

/-- What a call does next. -/
inductive Task
  | idle
  -- `Db::insert`
  | lookExpiry (collection : String)
  | lookClock (collection : String) (exp : UInt64)
  | evictDocs (collection : String)
  | evictExpiry (collection : String)
  | insertDocs (collection : String)
  | lookDefault (collection : String)
  | stampExpiry (collection : String) (secs : UInt64)
  | storeExpiry (collection : String) (expiresAt : UInt64)
  | sendExpiry (collection : String) (expiresAt : UInt64)
  -- `Db::set_ttl_default`
  | setDefault (collection : String) (secs : UInt64)
  | removeDefault (collection : String)
  | removeExpiry (collection : String)
  -- `Db::delete_collection`
  | dropDocs (collection : String)
  | dropExpiry (collection : String)
  | dropDefault (collection : String)

def Call.start : Call → Task
  | .insert c => .lookExpiry c
  | .setTtlDefault c secs => if secs = 0 then .removeDefault c else .setDefault c secs
  | .deleteCollection c => .dropDocs c

/-- One step of a call.  The operations on documents send `events` and may fail (`ok`); they
    leave the TTL maps alone. -/
def Task.step (s : Shared) (ok : Bool) (events : List Json) : Task → Shared × Task
  | .idle => (s, .idle)
  | .lookExpiry c =>
    (s, match s.ttlExpiry[c]? with
      | some exp => .lookClock c exp
      | none => .insertDocs c)
  | .lookClock c exp => (s, if collectionIsExpired exp s.clock then .evictDocs c else .insertDocs c)
  | .evictDocs c => ({ s with inbox := s.inbox ++ events }, .evictExpiry c)
  | .evictExpiry c => ({ s with ttlExpiry := s.ttlExpiry.erase c }, .insertDocs c)
  | .insertDocs c => ({ s with inbox := s.inbox ++ events }, if ok then .lookDefault c else .idle)
  | .lookDefault c =>
    (s, match s.ttlDefaults[c]? with
      | some secs => .stampExpiry c secs
      | none => .idle)
  | .stampExpiry c secs => (s, .storeExpiry c (s.clock + secs * 1000))
  | .storeExpiry c expiresAt =>
    ({ s with ttlExpiry := s.ttlExpiry.insert c expiresAt }, .sendExpiry c expiresAt)
  | .sendExpiry c expiresAt =>
    ({ s with inbox := s.inbox ++ [json [("event", .str "ttl_expiry"), ("collection", .str c),
      ("expires_at_ms", .ofU64 expiresAt)]] }, .idle)
  | .setDefault c secs => ({ s with ttlDefaults := s.ttlDefaults.insert c secs }, .idle)
  | .removeDefault c => ({ s with ttlDefaults := s.ttlDefaults.erase c }, .removeExpiry c)
  | .removeExpiry c => ({ s with ttlExpiry := s.ttlExpiry.erase c }, .idle)
  | .dropDocs c => ({ s with inbox := s.inbox ++ events }, if ok then .dropExpiry c else .idle)
  | .dropExpiry c => ({ s with ttlExpiry := s.ttlExpiry.erase c }, .dropDefault c)
  | .dropDefault c => ({ s with ttlDefaults := s.ttlDefaults.erase c }, .idle)

/-! ## The sweep -/

/-- An entry of the heap, of which the soonest expiry is at the top. -/
structure ExpiryEntry where
  expiresAtMs : UInt64
  collection : String
  deriving DecidableEq

/-- What the sweep goes back to after it dropped a collection. -/
inductive Next
  | startup (now : UInt64) (rest : List (String × UInt64))
  | evict (now : UInt64)
  deriving DecidableEq

/-- Where the sweep is. -/
inductive Pc
  | start
  /-- Reading the expiry map; `expiries` were read. -/
  | list (now : UInt64) (expiries : List (String × UInt64))
  | startup (now : UInt64) (rest : List (String × UInt64))
  | drain
  | plan
  | sleep
  | wake
  /-- At the head of the loop that drops the collections. -/
  | evict (now : UInt64)
  /-- An entry of the collection was taken off the heap. -/
  | check (now : UInt64) (collection : String)
  /-- About to call `delete_collection`. -/
  | drop (collection : String) (next : Next)
  | dropExpiry (collection : String) (next : Next)
  | dropDefault (collection : String) (next : Next)
  deriving DecidableEq

def Next.pc : Next → Pc
  | .startup now rest => .startup now rest
  | .evict now => .evict now

/-- What is not determined about a step of the sweep. -/
inductive Choice
  | go
  /-- The next collection that the walk over the expiry map comes to. -/
  | visit (collection : String)
  /-- The entry at the top of the heap; entries of one expiry come in any order. -/
  | pop (entry : ExpiryEntry)
  /-- An event comes before the sleep is over. -/
  | recv
  /-- The receiver lags: it has lost `n` events. -/
  | lagged (n : ℕ)
  /-- The storage fails. -/
  | fail

/-- `try_update_heap`: an event about an expiry is put on the heap. -/
def tryUpdateHeap (heap : List ExpiryEntry) (event : Json) : List ExpiryEntry :=
  if (event.get "event").bind Json.asStr = some "ttl_expiry" then
    match (event.get "collection").bind Json.asStr, (event.get "expires_at_ms").bind Json.asU64 with
    | some collection, some expiresAt => ⟨expiresAt, collection⟩ :: heap
    | _, _ => heap
  else heap

/-- The entry can be at the top of the heap. -/
def isTop (heap : List ExpiryEntry) (entry : ExpiryEntry) : Bool :=
  entry ∈ heap ∧ ∀ e ∈ heap, entry.expiresAtMs ≤ e.expiresAtMs

/-- No entry of the heap is due. -/
def noneDue (heap : List ExpiryEntry) (now : UInt64) : Bool := ∀ e ∈ heap, now < e.expiresAtMs

/-- The sweep and what it works on. -/
structure Sweeper where
  shared : Shared
  heap : List ExpiryEntry
  pc : Pc

/-- One step of `run_sweep`; a choice that cannot be made is none. -/
def Sweeper.step (s : Sweeper) (choice : Choice) : Sweeper :=
  match s.pc with
  | .start => { s with pc := .list s.shared.clock [] }
  | .list now expiries =>
    match choice with
    | .visit c =>
      match s.shared.ttlExpiry[c]? with
      | some exp =>
        if c ∈ expiries.map Prod.fst then s else { s with pc := .list now (expiries ++ [(c, exp)]) }
      | none => s
    | _ => { s with pc := .startup now (expiries.insertionSort fun p q => p.2 ≤ q.2) }
  | .startup _ [] => { s with pc := .drain }
  | .startup now ((c, exp) :: rest) =>
    if exp ≤ now then { s with pc := .drop c (.startup now rest) }
    else { s with heap := ⟨exp, c⟩ :: s.heap, pc := .startup now rest }
  | .drain =>
    match choice, s.shared.inbox with
    | .lagged n, inbox => { s with shared := { s.shared with inbox := inbox.drop n }, pc := .plan }
    | _, [] => { s with pc := .plan }
    | _, event :: inbox =>
      { s with shared := { s.shared with inbox := inbox }, heap := tryUpdateHeap s.heap event }
  -- the sweep sleeps until the next entry is due, or a minute if there is none
  | .plan => { s with pc := if noneDue s.heap s.shared.clock then .sleep else .wake }
  | .sleep =>
    match choice, s.shared.inbox with
    | .recv, event :: inbox =>
      { s with
        shared := { s.shared with inbox := inbox }, heap := tryUpdateHeap s.heap event, pc := .drain }
    | .recv, [] => s
    | .lagged n, inbox => { s with shared := { s.shared with inbox := inbox.drop n }, pc := .drain }
    | _, _ => { s with pc := .wake }
  | .wake => { s with pc := .evict s.shared.clock }
  | .evict now =>
    if noneDue s.heap now then { s with pc := .drain }
    else
      match choice with
      | .pop entry =>
        if isTop s.heap entry then
          { s with heap := s.heap.erase entry, pc := .check now entry.collection }
        else s
      | _ => s
  | .check now c =>
    match s.shared.ttlExpiry[c]? with
    | some exp =>
      if now < exp then { s with heap := ⟨exp, c⟩ :: s.heap, pc := .evict now }
      else { s with pc := .drop c (.evict now) }
    | none => { s with pc := .drop c (.evict now) }
  -- `delete_collection`, as the operations call it
  | .drop c next =>
    match choice with
    | .fail => { s with pc := next.pc }
    | _ => { s with pc := .dropExpiry c next }
  | .dropExpiry c next =>
    { s with
      shared := { s.shared with ttlExpiry := s.shared.ttlExpiry.erase c }, pc := .dropDefault c next }
  | .dropDefault c next =>
    { s with
      shared := { s.shared with ttlDefaults := s.shared.ttlDefaults.erase c }, pc := next.pc }

/-! ## All tasks together -/

structure Sys where
  sweep : Sweeper
  tasks : ℕ → Task

inductive Event
  /-- The clock shows another time. -/
  | tick (now : UInt64)
  | call (i : ℕ) (call : Call)
  | task (i : ℕ) (ok : Bool) (events : List Json)
  | sweep (choice : Choice)

def Sys.step (s : Sys) : Event → Sys
  | .tick now => { s with sweep.shared.clock := now }
  | .call i call =>
    match s.tasks i with
    | .idle => { s with tasks := Function.update s.tasks i call.start }
    | _ => s
  | .task i ok events =>
    let (shared, task) := (s.tasks i).step s.sweep.shared ok events
    { s with sweep.shared := shared, tasks := Function.update s.tasks i task }
  | .sweep choice => { s with sweep := s.sweep.step choice }

/-- At the start of the sweep; the operations may be under way. -/
def Sys.Initial (s : Sys) : Prop := s.sweep.pc = .start

/-- The collection that the sweep is about to drop is expired: its expiry is in the map and not
    later than the current time. -/
def Sys.DropsExpired (s : Sys) : Prop :=
  ∀ c next, s.sweep.pc = .drop c next →
    ∃ exp, s.sweep.shared.ttlExpiry[c]? = some exp ∧ exp ≤ s.sweep.shared.clock

end MoltenDB.Sweep
