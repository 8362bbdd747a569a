/-
  Replaying a log on its own result.

  Every part of the maps that replay fills (`Cell`) is overwritten with constants, so
  it holds what the last entry to write it wrote, whatever was there before.  Hence
  a second replay of the same log changes nothing (`replay_idempotent`).
-/
import MoltenDB.Engine.Storage.Registers

namespace MoltenDB

open Wire LogCommand

/-- A part of the maps: a document, whether a collection is there, its schema or its expiry. -/
inductive Cell
  | doc (collection key : String)
  | col (collection : String)
  | schema (collection : String)
  | expiry (collection : String)

inductive Content
  | bytes (b : Bytes)
  | present
  | schema (s : Schema)
  | time (t : UInt64)

/-- What the cells hold. -/
def Recovered.cells (s : Recovered) : Cell → Option Content
  | .doc c k => (s.state.bytes c k).map .bytes
  | .col c => s.state[c]?.map fun _ => .present
  | .schema c => s.schemas[c]?.map .schema
  | .expiry c => s.ttlExpiry[c]?.map .time

/-- What a change puts into a cell, if it does. -/
def Change.puts : Change → Cell → Option (Option Content)
  | .put c k v, .doc c' k' =>
    if c' = c ∧ k' = k then some (some (.bytes (valueToMsgpack v))) else none
  | .put c _ _, .col c' => if c' = c then some (some .present) else none
  | .remove c k, .doc c' k' => if c' = c ∧ k' = k then some none else none
  | .drop c, .doc c' _ | .drop c, .col c' | .drop c, .expiry c' =>
    if c' = c then some none else none
  | .expiry c t, .expiry c' => if c' = c then some (some (.time t)) else none
  | .schema c v p, .schema c' => if c' = c then some (some (.schema ⟨v, p⟩)) else none
  | _, _ => none

theorem cells_apply (s : Recovered) (ch : Change) :
    (s.apply ch).cells = Overwrite.apply Change.puts s.cells ch := by
  funext x
  cases ch with
  | put c k v =>
    cases x <;> simp only [Recovered.apply, Recovered.cells, Overwrite.apply, Change.puts, bytes_put,
      Map.get?_alter, Option.getD_none] <;> split_ifs <;> rfl
  | remove c k =>
    cases x with
    | col c' =>
      by_cases hc : c' = c
      · subst hc
        cases h : s.state[c']? <;>
          simp [Recovered.apply, Recovered.cells, Overwrite.apply, Change.puts, h]
      · simp [Recovered.apply, Recovered.cells, Overwrite.apply, Change.puts, Map.get?_alter, hc]
    | doc c' k' =>
      simp only [Recovered.apply, Recovered.cells, Overwrite.apply, Change.puts, bytes_remove]
      split_ifs <;> rfl
    | schema | expiry => rfl
  | drop c =>
    cases x <;> simp only [Recovered.apply, Recovered.cells, Overwrite.apply, Change.puts, bytes_drop,
      Map.get?_erase, Option.getD_none] <;> split_ifs <;> rfl
  | expiry c t =>
    cases x <;> simp only [Recovered.apply, Recovered.cells, Overwrite.apply, Change.puts,
      Map.get?_insert, Option.getD_none]
    split_ifs <;> rfl
  | schema c v p =>
    cases x <;> simp only [Recovered.apply, Recovered.cells, Overwrite.apply, Change.puts,
      Map.get?_insert, Option.getD_none]
    split_ifs <;> rfl

/-- The cells are all that the maps hold. -/
theorem cells_injective {s s' : Recovered} (h : s.cells = s'.cells) : s = s' := by
  have hstate : s.state = s'.state := by
    refine Map.ext_get? fun c => ?_
    have hcol := congrFun h (.col c)
    have hdoc := fun k => congrFun h (.doc c k)
    simp only [Recovered.cells, State.bytes] at hcol hdoc
    cases hs : s.state[c]? with
    | none =>
      rw [hs] at hcol
      cases hs' : s'.state[c]? with
      | none => rfl
      | some m' => rw [hs'] at hcol; cases hcol
    | some m =>
      rw [hs] at hcol hdoc
      cases hs' : s'.state[c]? with
      | none => rw [hs'] at hcol; cases hcol
      | some m' =>
        rw [hs'] at hdoc
        congr 1
        refine Map.ext_get? fun k => ?_
        exact Option.map_injective (fun _ _ heq => by cases heq; rfl) (hdoc k)
  have hschemas : s.schemas = s'.schemas := Map.ext_get? fun c =>
    Option.map_injective (fun _ _ heq => by cases heq; rfl) (congrFun h (.schema c))
  have hexpiry : s.ttlExpiry = s'.ttlExpiry := Map.ext_get? fun c =>
    Option.map_injective (fun _ _ heq => by cases heq; rfl) (congrFun h (.expiry c))
  obtain ⟨st, sc, tt⟩ := s
  obtain ⟨st', sc', tt'⟩ := s'
  cases hstate
  cases hschemas
  cases hexpiry
  rfl

variable [Crates] (now : UInt64)

/-- What replaying an entry puts into a cell, if it does. -/
def LogEntry.puts (e : LogEntry) (x : Cell) : Option (Option Content) :=
  (e.change now).bind fun ch => ch.puts x

theorem cells_applyEntry (s : Recovered) (e : LogEntry) :
    (applyEntry now s e).cells = Overwrite.apply (LogEntry.puts now) s.cells e := by
  rw [applyEntry_eq]
  funext x
  cases hch : e.change now with
  | none => simp [Overwrite.apply, LogEntry.puts, hch]
  | some ch =>
    rw [Option.map_some, Option.getD_some, cells_apply]
    simp [Overwrite.apply, LogEntry.puts, hch]

/-- **Replay overwrites the cells with the effects of the log.** -/
theorem cells_streamIntoState (L : List LogEntry) (s : Recovered) :
    (streamIntoState now L s).1.cells =
      Overwrite.replay (LogEntry.puts now) s.cells (effects L) := by
  rw [streamIntoState_eq]
  dsimp only
  induction effects L generalizing s with
  | nil => rfl
  | cons e es ih =>
    rw [List.foldl_cons, ih, cells_applyEntry]
    rfl

/-- **Replay is idempotent**: replaying a log on the result of replaying it, at the same time,
    leaves the documents, the schemas and the expiry times as they are. -/
theorem replay_idempotent (L : List LogEntry) (s₀ : Recovered) :
    let s := (streamIntoState now L s₀).1
    (streamIntoState now L s).1 = s := by
  intro s
  refine cells_injective ?_
  rw [cells_streamIntoState, cells_streamIntoState, Overwrite.replay_replay]

end MoltenDB
