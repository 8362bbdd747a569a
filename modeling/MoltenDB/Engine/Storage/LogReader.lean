/-
  The reader of the log file, at positions in what was read of it.
-/
import MoltenDB.Common.Decoder
import MoltenDB.Engine.Storage.Log

namespace MoltenDB

open Wire (Bytes)
open Buffer (Res advance)

/-- What a callback says, with the state it leaves. -/
inductive ControlFlow (σ : Type)
  | goOn (s : σ)
  | stop (s : σ)

/-- Go on with the state, unless it stopped. -/
def ControlFlow.andThen {σ : Type} (flow : ControlFlow σ) (next : σ → ControlFlow σ) :
    ControlFlow σ :=
  match flow with
  | goOn s => next s
  | stop s => stop s

/-- Hand the entries to the callback until it stops. -/
def handOver {α σ : Type} (f : σ → α → ControlFlow σ) : List α → σ → ControlFlow σ
  | [], s => .goOn s
  | a :: as, s => (f s a).andThen (handOver f as)

namespace Decoder

/-- The entry in a record, with the bytes it takes in the file. -/
def sized [Crates] (payload : Bytes) : Option (LogEntry × UInt32) :=
  (MoltenDB.logEntryFromMsgpack payload).map (·, UInt32.ofNat (payload.length + 4))

variable [Crates] {σ : Type} (buf : Bytes) (skipLines : ℕ)
  (f : σ → LogEntry × UInt32 → ControlFlow σ)

/-- Hand on the entry in a record of `len` bytes, if there is one. -/
def onRecord (payload : Bytes) (len : ℕ) (s : σ) : Res (ControlFlow σ) := do
  let entry ← (logEntryFromMsgpack payload).attempt
  match entry with
  | none => return .goOn s
  | some entry => do
    let size ← advance len 4
    return f s (entry, UInt32.ofNat size)

/-- The loop over the records from `pos` on; `fuel` bounds how often it is run. -/
def streamLoop : ℕ → ℕ → ℕ → σ → Res (ControlFlow σ)
  | 0, _, _, _ => .outOfFuel
  | fuel + 1, pos, idx, s => do
    let stop ← advance pos 4
    if buf.length < stop then return .goOn s
    else do
      let hdr ← Buffer.indexes buf pos 4
      let len := Wire.ofLe hdr
      let pos ← advance pos 4
      let stop ← advance pos len
      if buf.length < stop then return .goOn s
      else do
        let payload ← Buffer.slice buf pos stop
        let pos ← advance pos len
        if idx < skipLines then do
          let idx ← advance idx 1
          streamLoop fuel pos idx s
        else do
          let flow ← onRecord f payload len s
          match flow with
          | .stop s => return .stop s
          | .goOn s => do
            let idx ← advance idx 1
            streamLoop fuel pos idx s

/-- `stream_log_entries`, of a file with the given contents or of none. -/
def streamLogEntries (file : Option Bytes) (s : σ) : Res (ControlFlow σ) :=
  match file with
  | none => .ok (.goOn s)
  | some buf => if buf = [] then .ok (.goOn s)
    else streamLoop buf skipLines f (buf.length + 1) 0 0 s

end Decoder

end MoltenDB
