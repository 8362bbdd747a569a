/-
  Replay seen as overwriting registers.

  The rebuilt state is a set of registers (`Reg`): the documents, the schemas and
  the expiry times.  A log entry is at most one change (`Change`), and a change
  writes constants into registers (`Change.writes`).  Hence what a register holds
  after a replay is what the last entry to write it wrote (`view_rebuild`).
-/
import MoltenDB.Engine.Storage.Replay
import MoltenDB.Lib.Overwrite

namespace MoltenDB

open Wire LogCommand

/-- The bytes of one document. -/
def State.bytes (s : State) (collection key : String) : Option Bytes :=
  s[collection]?.bind fun col => col[key]?

/-! ## Changes -/

inductive Change
  | put (collection key : String) (value : Json)
  | remove (collection key : String)
  | drop (collection : String)
  | expiry (collection : String) (expiresAt : UInt64)
  | schema (collection : String) (value : Json) (isValid : Json → Bool)

def Recovered.apply (s : Recovered) : Change → Recovered
  | .put c k v =>
    { s with state := s.state.alter c fun col => some ((col.getD ∅).insert k (valueToMsgpack v)) }
  | .remove c k => { s with state := s.state.alter c fun col => col.map fun col => col.erase k }
  | .drop c => { s with state := s.state.erase c, ttlExpiry := s.ttlExpiry.erase c }
  | .expiry c t => { s with ttlExpiry := s.ttlExpiry.insert c t }
  | .schema c v p => { s with schemas := s.schemas.insert c ⟨v, p⟩ }

/-- The expiry time recorded by a `TTL_EXPIRY` entry. -/
def LogEntry.expiresAt (e : LogEntry) : Option UInt64 :=
  if e.cmd = "TTL_EXPIRY" then parseU64 e.key else none

section

variable [Crates] (now : UInt64)

/-- What replaying an entry at time `now` changes. -/
def LogEntry.change (e : LogEntry) : Option Change :=
  if e.cmd = IKEY_INSERT then some (.put e.collection e.key e.value)
  else if e.cmd = IKEY_DELETE then some (.remove e.collection e.key)
  else if e.cmd = IKEY_DROP then some (.drop e.collection)
  else if e.cmd = "TTL_EXPIRY" then
    e.expiresAt.map fun t => if now < t then .expiry e.collection t else .drop e.collection
  else if e.cmd = IKEY_SCHEMA then
    match Crates.validatorFor e.value with
    | .ok validator => some (.schema e.collection e.value validator)
    | .error _ => none
  else none

/-- Replaying an entry makes its change. -/
theorem applyEntry_eq (s : Recovered) (e : LogEntry) :
    applyEntry now s e = ((e.change now).map s.apply).getD s := by
  unfold applyEntry LogEntry.change
  split_ifs with h1 h2 h3 h4 h5
  · rfl
  · rfl
  · rfl
  · rw [LogEntry.expiresAt, if_pos h4]
    cases parseU64 e.key with
    | none => rfl
    | some t => by_cases ht : now < t <;> simp [ht, Recovered.apply]
  · cases Crates.validatorFor e.value <;> rfl
  · rfl

end

/-! ## Registers -/

/-- A part of the rebuilt state that entries overwrite. -/
inductive Reg
  | doc (collection key : String)
  | schema (collection : String)
  | expiry (collection : String)
  deriving DecidableEq

/-- What a register holds: nothing, or a decoded value (`some none` if the bytes of a
    document do not decode). -/
abbrev Held := Option (Option Json)

def Recovered.view (s : Recovered) : Reg → Held
  | .doc c k => (s.state.bytes c k).map msgpackToValue
  | .schema c => s.schemas[c]?.map fun x => some x.value
  | .expiry c => s.ttlExpiry[c]?.map fun t => some (.ofU64 t)

/-- What a change writes into a register, if it does. -/
def Change.writes : Change → Reg → Option Held
  | .put c k v, .doc c' k' => if c' = c ∧ k' = k then some (some (some v.canon)) else none
  | .remove c k, .doc c' k' => if c' = c ∧ k' = k then some none else none
  | .drop c, .doc c' _ | .drop c, .expiry c' => if c' = c then some none else none
  | .expiry c t, .expiry c' => if c' = c then some (some (some (.ofU64 t))) else none
  | .schema c v _, .schema c' => if c' = c then some (some (some v)) else none
  | _, _ => none

/-- The documents put by the change have encodable lengths. -/
def Change.Fits : Change → Prop
  | .put _ _ v => v.Fits
  | _ => True

theorem bytes_put (s : State) (c k c' k' : String) (b : Bytes) :
    State.bytes (s.alter c fun col => some ((col.getD ∅).insert k b)) c' k' =
      if c' = c ∧ k' = k then some b else s.bytes c' k' := by
  unfold State.bytes
  rw [Map.get?_alter]
  by_cases hc : c' = c
  · subst hc
    by_cases hk : k' = k
    · simp [hk]
    · cases h : s[c']? <;> simp [hk, Map.get?_insert]
  · simp [hc]

theorem bytes_remove (s : State) (c k c' k' : String) :
    State.bytes (s.alter c fun col => col.map fun col => col.erase k) c' k' =
      if c' = c ∧ k' = k then none else s.bytes c' k' := by
  unfold State.bytes
  rw [Map.get?_alter]
  by_cases hc : c' = c
  · subst hc
    by_cases hk : k' = k
    · cases h : s[c']? <;> simp [hk]
    · cases h : s[c']? <;> simp [hk, Map.get?_erase]
  · simp [hc]

theorem bytes_drop (s : State) (c c' k' : String) :
    State.bytes (s.erase c) c' k' = if c' = c then none else s.bytes c' k' := by
  unfold State.bytes
  rw [Map.get?_erase]
  by_cases hc : c' = c <;> simp [hc]

/-- **A change overwrites registers.** -/
theorem view_apply (s : Recovered) {ch : Change} (h : ch.Fits) :
    (s.apply ch).view = Overwrite.apply Change.writes s.view ch := by
  funext r
  cases ch with
  | put c k v =>
    have hd := msgpackToValue_valueToMsgpack (v := v) h
    cases r <;> simp only [Recovered.apply, Recovered.view, Overwrite.apply, Change.writes,
      bytes_put, Option.getD_none]
    split_ifs <;> simp [hd]
  | remove c k =>
    cases r <;> simp only [Recovered.apply, Recovered.view, Overwrite.apply, Change.writes,
      bytes_remove, Option.getD_none]
    split_ifs <;> rfl
  | drop c =>
    cases r <;> simp only [Recovered.apply, Recovered.view, Overwrite.apply, Change.writes,
      bytes_drop, Map.get?_erase, Option.getD_none] <;> split_ifs <;> rfl
  | expiry c t =>
    cases r <;> simp only [Recovered.apply, Recovered.view, Overwrite.apply, Change.writes,
      Map.get?_insert, Option.getD_none]
    split_ifs <;> rfl
  | schema c v p =>
    cases r <;> simp only [Recovered.apply, Recovered.view, Overwrite.apply, Change.writes,
      Map.get?_insert, Option.getD_none]
    split_ifs <;> rfl

section

variable [Crates] (now : UInt64)

/-- What replaying an entry writes into a register, if it does. -/
def LogEntry.writes (e : LogEntry) (r : Reg) : Option Held :=
  (e.change now).bind fun ch => ch.writes r

/-- Only an INSERT entry writes a document. -/
theorem LogEntry.doc_of_writes {e : LogEntry} {c k : String} {v : Option Json}
    (h : e.writes now (.doc c k) = some (some v)) :
    e.cmd = IKEY_INSERT ∧ e.collection = c ∧ e.key = k ∧ v = some e.value.canon := by
  obtain ⟨ch, hch, hw⟩ := Option.bind_eq_some_iff.1 h
  cases ch with
  | put c' k' v' =>
    simp only [Change.writes, Option.ite_none_right_eq_some, Option.some.injEq] at hw
    obtain ⟨⟨rfl, rfl⟩, rfl⟩ := hw
    unfold LogEntry.change at hch
    split_ifs at hch with h1 h2 h3 h4 h5
    · cases hch
      exact ⟨h1, rfl, rfl, rfl⟩
    · cases hch
    · cases hch
    · obtain ⟨t, -, ht⟩ := Option.map_eq_some_iff.1 hch
      split_ifs at ht
    · split at hch <;> cases hch
  | remove c' k' | drop c' =>
    simp only [Change.writes] at hw
    split_ifs at hw
    simp at hw
  | expiry c' t | schema c' v' p => simp [Change.writes] at hw

theorem LogEntry.fits_change {e : LogEntry} (h : e.value.Fits) {ch : Change}
    (hch : e.change now = some ch) : ch.Fits := by
  unfold LogEntry.change at hch
  split_ifs at hch
  · cases hch; exact h
  · cases hch; trivial
  · cases hch; trivial
  · obtain ⟨t, -, rfl⟩ := Option.map_eq_some_iff.1 hch
    split_ifs <;> trivial
  · split at hch
    · cases hch; trivial
    · cases hch

theorem view_applyEntry (s : Recovered) {e : LogEntry} (h : e.value.Fits) :
    (applyEntry now s e).view = Overwrite.apply (LogEntry.writes now) s.view e := by
  rw [applyEntry_eq]
  cases hch : e.change now with
  | none => funext r; simp [Overwrite.apply, LogEntry.writes, hch]
  | some ch =>
    rw [Option.map_some, Option.getD_some, view_apply s (LogEntry.fits_change now h hch)]
    funext r
    simp [Overwrite.apply, LogEntry.writes, hch]

/-- **Replaying entries overwrites registers**, in order. -/
theorem view_foldl_applyEntry (s : Recovered) {L : List LogEntry} (h : ∀ e ∈ L, e.value.Fits) :
    (L.foldl (applyEntry now) s).view = Overwrite.replay (LogEntry.writes now) s.view L := by
  induction L generalizing s with
  | nil => rfl
  | cons e L ih =>
    rw [List.foldl_cons, ih _ fun e' he' => h e' (List.mem_cons_of_mem _ he'),
      view_applyEntry now s (h e List.mem_cons_self)]
    rfl

omit [Crates] in
theorem view_empty : Recovered.empty.view = fun _ => none := by
  funext r; cases r <;> simp [Recovered.empty, Recovered.view, State.bytes]

/-- **What a register holds after a restart** is what the last effective entry wrote. -/
theorem view_rebuild {L : List LogEntry} (h : ∀ e ∈ L, e.value.Fits) :
    (rebuild now L).view =
      Overwrite.replay (LogEntry.writes now) (fun _ => none) (effects L) := by
  rw [rebuild_eq, view_foldl_applyEntry now _ fun e he => h e (mem_effects he), view_empty]

end

/-! ## From the bytes of the log to its entries -/

variable [Crates]

/-- The entries read back from a written log; what does not decode is skipped. -/
def deliver (log : List LogEntry) : List LogEntry :=
  log.filterMap fun e => logEntryFromMsgpack (logEntryToMsgpack e)

theorem deliver_eq {log : List LogEntry} (h : ∀ e ∈ log, e.Fits) :
    deliver log = log.map LogEntry.canon := by
  rw [deliver, ← List.filterMap_eq_map]
  exact List.filterMap_congr fun e he => logEntryFromMsgpack_logEntryToMsgpack (h e he)

omit [Crates] in
theorem fits_canon_value {log : List LogEntry} (h : ∀ e ∈ log, e.Fits) :
    ∀ e ∈ log.map LogEntry.canon, e.value.Fits := by
  intro e he
  obtain ⟨e', he', rfl⟩ := List.mem_map.1 he
  exact (h e' he').value.canon

end MoltenDB
