/-
  Startup replay: rebuilding the state from log entries (`stream_into_state`).

  Replay reads the log as a journal: the entries that take effect are applied in
  order (`replay_eq_effects`).
-/
import MoltenDB.Engine.Types
import MoltenDB.Lib.Journal
import MoltenDB.Lib.Decimal

namespace MoltenDB

open Wire LogCommand

/-- The maps that replay fills. -/
structure Recovered where
  state : State
  schemas : DashMap Schema
  ttlExpiry : DashMap UInt64

def Recovered.empty : Recovered := ⟨∅, ∅, ∅⟩

/-- `str::parse::<u64>`. -/
def parseU64 (s : String) : Option UInt64 := (Decimal.parse (2 ^ 64) s).map UInt64.ofNat

variable [Crates] (now : UInt64)

/-- Apply a single log entry; `now` is the time of the restart. -/
def applyEntry (s : Recovered) (entry : LogEntry) : Recovered :=
  if entry.cmd = IKEY_INSERT then
    { s with
      state := s.state.alter entry.collection fun col =>
        some ((col.getD ∅).insert entry.key (valueToMsgpack entry.value)) }
  else if entry.cmd = IKEY_DELETE then
    { s with
      state := s.state.alter entry.collection fun col => col.map fun col => col.erase entry.key }
  else if entry.cmd = IKEY_DROP then
    { s with
      state := s.state.erase entry.collection
      ttlExpiry := s.ttlExpiry.erase entry.collection }
  else if entry.cmd = "TTL_EXPIRY" then
    match parseU64 entry.key with
    | some expiresAt =>
      if now < expiresAt then { s with ttlExpiry := s.ttlExpiry.insert entry.collection expiresAt }
      else { s with
        state := s.state.erase entry.collection
        ttlExpiry := s.ttlExpiry.erase entry.collection }
    | none => s
  else if entry.cmd = IKEY_SCHEMA then
    match Crates.validatorFor entry.value with
    | .ok validator =>
      { s with schemas := s.schemas.insert entry.collection ⟨entry.value, validator⟩ }
    | .error _ => s
  else s

/-- The variables of the replay loop. -/
structure Replay where
  base : Recovered
  txBuffer : List LogEntry
  activeTx : Option String
  count : ℕ

def Replay.step (r : Replay) (entry : LogEntry) : Replay :=
  let r := { r with count := r.count + 1 }
  if entry.cmd = IKEY_TX_BEGIN then { r with activeTx := some entry.key, txBuffer := [] }
  else if entry.cmd = IKEY_TX_COMMIT then
    if r.activeTx = some entry.key then
      { r with base := r.txBuffer.foldl (applyEntry now) r.base, txBuffer := [], activeTx := none }
    else r
  else if r.activeTx.isSome then { r with txBuffer := r.txBuffer ++ [entry] }
  else { r with base := applyEntry now r.base entry }

/-- `stream_into_state`: replay the entries that storage delivers. -/
def streamIntoState (entries : List LogEntry) (s : Recovered) : Recovered × ℕ :=
  let r := entries.foldl (Replay.step now) ⟨s, [], none, 0⟩
  (r.base, r.count)

/-- The state rebuilt from the entries that storage delivers. -/
def rebuild (entries : List LogEntry) : Recovered := (streamIntoState now entries .empty).1

/-! ## Replay reads a journal -/

/-- An entry as a record of a journal. -/
def LogEntry.toRec (entry : LogEntry) : Journal.Rec String LogEntry :=
  if entry.cmd = IKEY_TX_BEGIN then .opening entry.key
  else if entry.cmd = IKEY_TX_COMMIT then .commit entry.key
  else .op entry

/-- The entries of a log that take effect, in order. -/
def effects (entries : List LogEntry) : List LogEntry :=
  Journal.effects (entries.map LogEntry.toRec)

omit [Crates] in
theorem mem_effects {L : List LogEntry} {e : LogEntry} (h : e ∈ effects L) : e ∈ L := by
  obtain ⟨e', he', heq⟩ := List.mem_map.1 (Journal.mem_effects h)
  unfold LogEntry.toRec at heq
  split_ifs at heq
  cases heq
  exact he'

theorem foldl_step (entries : List LogEntry) (s : Recovered) (rd : Journal.Reader String LogEntry)
    (n : ℕ) :
    let rd' := rd.run (entries.map LogEntry.toRec)
    entries.foldl (Replay.step now)
        ⟨rd.applied.foldl (applyEntry now) s, rd.buffer, rd.active, n⟩ =
      ⟨rd'.applied.foldl (applyEntry now) s, rd'.buffer, rd'.active, n + entries.length⟩ := by
  induction entries generalizing rd n with
  | nil => rfl
  | cons e entries ih =>
    have hstep : Replay.step now
        ⟨rd.applied.foldl (applyEntry now) s, rd.buffer, rd.active, n⟩ e =
        ⟨(rd.step e.toRec).applied.foldl (applyEntry now) s, (rd.step e.toRec).buffer,
          (rd.step e.toRec).active, n + 1⟩ := by
      simp only [Replay.step, LogEntry.toRec]
      by_cases h1 : e.cmd = IKEY_TX_BEGIN
      · simp [h1, Journal.Reader.step]
      by_cases h2 : e.cmd = IKEY_TX_COMMIT
      · by_cases h3 : rd.active = some e.key <;>
          simp [h2, h3, Journal.Reader.step, show IKEY_TX_COMMIT ≠ IKEY_TX_BEGIN by decide]
      · by_cases h3 : rd.active.isSome <;> simp [h1, h2, h3, Journal.Reader.step]
    simp only [List.map_cons, Journal.Reader.run_cons, List.foldl_cons, hstep]
    rw [ih]
    simp [Nat.add_assoc, Nat.add_comm 1]

/-- **Replay applies the effects of the log**, and counts all its entries. -/
theorem streamIntoState_eq (entries : List LogEntry) (s : Recovered) :
    streamIntoState now entries s =
      ((effects entries).foldl (applyEntry now) s, entries.length) := by
  have h := foldl_step now entries s Journal.Reader.start 0
  simp only [Journal.Reader.start, List.foldl_nil] at h
  simp only [streamIntoState, h, effects, Journal.effects, Journal.Reader.start, Nat.zero_add]

theorem rebuild_eq (entries : List LogEntry) :
    rebuild now entries = (effects entries).foldl (applyEntry now) .empty := by
  rw [rebuild, streamIntoState_eq]

end MoltenDB
