/-
  The `recover` command: write the recovered entries to a snapshot file.
-/
import MoltenDB.Engine.Storage.Recover

namespace MoltenDB

open Wire Prog LogCommand

/-- One entry of the rebuilt state map; `toVec` is `rmp_serde::to_vec`. -/
def recoverStep (toVec : Json → Option Bytes) (state : State) (entry : LogEntry) : State :=
  if entry.cmd = "INSERT" then
    match toVec entry.value with
    | some bytes =>
      state.alter entry.collection fun col => some ((col.getD ∅).insert entry.key bytes)
    | none => state
  else if entry.cmd = "DELETE" then
    state.alter entry.collection fun col => col.map fun col => col.erase entry.key
  else state

/-- The state map that is rebuilt from the recovered entries. -/
def recoverState (toVec : Json → Option Bytes) (entries : List LogEntry) : State :=
  entries.foldl (recoverStep toVec) ∅

/-- The schemas that are passed with it. -/
def recoverSchemaMap : DashMap Schema := ∅

variable [Crates]

/-- The rest of the branch, on the files of the temporary storage: compact the rebuilt map and
    move the snapshot to the output path. -/
def recoverOutput (toVec : Json → Option Bytes) (entries : List LogEntry) : Io Bytes := do
  compactFromMaps .sync (recoverState toVec entries) recoverSchemaMap
  let fs ← Eff.get
  match fs.disk.snapshot with
  | some out => return out
  | none => Eff.throw (.io "Failed to move snapshot to output path")

end MoltenDB
