/-
  The storage of the build for the browser: one file, which is the log, behind a synchronous
  access handle.

  A compaction truncates the file and writes the documents and schemas into it again, in chunks.
  A size has 32 bits; where the reader computes a position that is not one in what it read, the
  worker panics.
-/
import MoltenDB.Engine.Storage.LogReader
import MoltenDB.Engine.Wasm

namespace MoltenDB

open Wire Prog LogCommand
open Buffer (Res slice)

/-- `OpfsStorage`: the file, and whether its handle is still open. -/
structure OpfsStorage where
  file : Bytes
  isOpen : Bool

namespace OpfsStorage

/-- The window in which the file is read and written. -/
def chunkSize : ℕ := 64 * 1024

/-- A write of the handle at a position in the file. -/
def writeAt (file : Bytes) (offset : ℕ) (data : Bytes) : Bytes :=
  file.take offset ++ data ++ file.drop (offset + data.length)

/-! ## Reading -/

/-- The loop that reads the file window by window. -/
def readLoop (file : Bytes) (size : ℕ) : ℕ → ℕ → Bytes → Res Bytes
  | 0, _, _ => .outOfFuel
  | fuel + 1, offset, linearLog =>
    if offset < size then
      let toRead := min (size - offset) chunkSize
      readLoop file size fuel (Wasm.usizeAdd offset toRead)
        (linearLog ++ (file.drop offset).take toRead)
    else .ok linearLog

section

variable [Crates]

/-- The loop over the records from `cursor` on; the callback never stops it. -/
def streamLoop (linearLog : Bytes) : ℕ → ℕ → Res (List LogEntry)
  | 0, _ => .outOfFuel
  | fuel + 1, cursor =>
    if Wasm.usizeAdd cursor 4 ≤ linearLog.length then do
      let lenBytes ← slice linearLog cursor (Wasm.usizeAdd cursor 4)
      let msgLen := ofLe lenBytes
      if linearLog.length < Wasm.usizeAdd (Wasm.usizeAdd cursor 4) msgLen then return []
      else do
        let entryStart := Wasm.usizeAdd cursor 4
        let entryEnd := Wasm.usizeAdd entryStart msgLen
        let entryData ← slice linearLog entryStart entryEnd
        let rest ← streamLoop linearLog fuel entryEnd
        return (logEntryFromMsgpack entryData).toList ++ rest
    else return []

/-- `stream_log_into`: the entries in the file, handed to a callback that never stops. -/
def streamLogInto (file : Bytes) : Res (List LogEntry) := do
  let size := min file.length (2 ^ 32 - 1)
  if size = 0 then return []
  else do
    let linearLog ← readLoop file size (size + 1) 0 []
    streamLoop linearLog (linearLog.length + 1) 0

end

/-! ## Writing -/

/-- `write_entry`: append one entry, if the handle is open. -/
def writeEntry (s : OpfsStorage) (entry : LogEntry) : Except DbError OpfsStorage :=
  if s.isOpen then .ok { s with file := writeAt s.file s.file.length entry.framed }
  else .error .writeError

/-- `truncate_and_close`: empty the file and close the handle. -/
def truncateAndClose (s : OpfsStorage) : Except DbError OpfsStorage :=
  if s.isOpen then .ok ⟨[], false⟩ else .error .writeError

/-! ## Compaction -/

/-- The entries of the documents of one collection; those that do not decode are left out. -/
def docEntries (collection : String) : List (String × Bytes) → Op (List LogEntry)
  | [] => return []
  | (key, bytes) :: docs =>
    match msgpackToValue bytes with
    | some value => do
      let t ← nowMs
      let es ← docEntries collection docs
      return ⟨IKEY_INSERT, collection, key, value, t⟩ :: es
    | none => docEntries collection docs

def collectionEntries : List (String × DashMap Bytes) → Op (List LogEntry)
  | [] => return []
  | (collection, col) :: cols => do
    let docs ← walk col
    let es ← docEntries collection docs
    let rest ← collectionEntries cols
    return es ++ rest

def schemaEntries : List (String × Schema) → Op (List LogEntry)
  | [] => return []
  | (collection, schema) :: schemas => do
    let t ← nowMs
    let es ← schemaEntries schemas
    return ⟨IKEY_SCHEMA, collection, "", schema.value, t⟩ :: es

/-- The entries that `do_compact` writes, in the order in which it encodes them. -/
def compactEntries (state : State) (schemas : DashMap Schema) : Op (List LogEntry) := do
  let cols ← walk state
  let docs ← collectionEntries cols
  let schemaRefs ← walk schemas
  let rest ← schemaEntries schemaRefs
  return docs ++ rest

/-- What `do_compact` keeps between two writes. -/
structure Writer where
  offset : ℕ
  buffer : Bytes

/-- The closure `write_buffer`, on a file. -/
def writeBuffer (file : Bytes) (w : Writer) : Bytes × Writer :=
  if w.buffer = [] then (file, w)
  else (writeAt file w.offset w.buffer, ⟨w.offset + w.buffer.length, []⟩)

/-- One entry is encoded into the buffer, which is written once it is large enough. -/
def pushEntry (file : Bytes) (w : Writer) (entry : LogEntry) : Bytes × Writer :=
  let buffer := w.buffer ++ entry.framed
  if chunkSize ≤ buffer.length then writeBuffer file ⟨w.offset, buffer⟩
  else (file, ⟨w.offset, buffer⟩)

end OpfsStorage

end MoltenDB
