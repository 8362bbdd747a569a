/-
  The asynchronous log writer: callers send messages over a channel, and a task behind it
  writes them to the log file through a buffer.

  Each system call of the task is a step of its own and may fail, and between any two steps
  the process may be killed, which leaves the file as it is.  A step that cannot be taken
  changes nothing, so every list of steps is a run.
-/
import MoltenDB.Engine.Storage.Log

namespace MoltenDB

open Wire

/-- A message to the writer task.  Whoever asks for a swap waits for its `done`. -/
inductive WriterMsg
  | write (bytes : Bytes)
  | compact (done : ℕ)
  deriving DecidableEq

/-- Why the buffer is flushed. -/
inductive Flush
  /-- No message came for 50 ms. -/
  | idle
  /-- There is no room in it for these bytes. -/
  | room (bytes : Bytes)
  /-- The log is to be swapped. -/
  | swap (done : ℕ)
  /-- The writer is dropped before the swap, with what could not be flushed. -/
  | drop (done : ℕ)
  /-- The loop has ended. -/
  | last
  /-- The writer is dropped at the end of the task. -/
  | lastDrop
  deriving DecidableEq

/-- Where the writer task is, and the bytes that it still holds. -/
inductive WriterTask
  | opening
  | waiting (buf : Bytes)
  | flushing (buf : Bytes) (why : Flush)
  /-- Bytes that fill the buffer are written past it. -/
  | direct (bytes : Bytes)
  /-- The temporary log is renamed; `lost` could not be flushed before. -/
  | swapping (done : ℕ) (lost : Bytes)
  | removing (done : ℕ)
  | reopening (done : ℕ)
  | ended
  deriving DecidableEq

/-- The writer, its channel, and the files. -/
structure AsyncDiskStorage where
  log : Bytes
  logTmp : Option Bytes
  /-- The sending half of the channel was not dropped. -/
  sender : Bool
  queue : List WriterMsg
  task : WriterTask
  ioFault : Bool
  /-- The swaps whose callers were woken. -/
  finished : List ℕ
  deriving DecidableEq

/-- The capacity of a `BufWriter`. -/
def bufCapacity : ℕ := 8 * 1024

namespace AsyncDiskStorage

/-- `AsyncDiskStorage::new`: a stale temporary log is removed, the log is created if it is
    missing, and the task is spawned. -/
def new (log : Option Bytes) : AsyncDiskStorage :=
  ⟨openAppend log, none, true, [], .opening, false, []⟩

/-! ## The callers -/

/-- `sender.send`: the channel takes messages until the task has ended. -/
def send (s : AsyncDiskStorage) (msg : WriterMsg) : Except DbError Unit × AsyncDiskStorage :=
  if s.task = .ended then (.error .writeError, s)
  else (.ok (), { s with queue := s.queue ++ [msg] })

/-- `write_entry`. -/
def writeEntry (s : AsyncDiskStorage) (entry : LogEntry) :
    Except DbError Unit × AsyncDiskStorage :=
  if s.sender then s.send (.write entry.framed) else (.ok (), s)

/-- The first step of `swap_log`: `write_compacted_log_no_tx` with no entries. -/
def writeCompactedLog (s : AsyncDiskStorage) : AsyncDiskStorage := { s with logTmp := some [] }

/-- The second step of `swap_log`; its caller then waits for `done`. -/
def sendCompact (s : AsyncDiskStorage) (done : ℕ) : Except DbError Unit × AsyncDiskStorage :=
  if s.sender then s.send (.compact done) else (.ok (), s)

/-! ## The task -/

/-- `write_all`: bytes for which there is room are buffered. -/
def writeAll (s : AsyncDiskStorage) (buf bytes : Bytes) : AsyncDiskStorage :=
  if bytes.length < bufCapacity - buf.length then { s with task := .waiting (buf ++ bytes) }
  else if bufCapacity - buf.length < bytes.length then { s with task := .flushing buf (.room bytes) }
  else if bufCapacity ≤ bytes.length then { s with task := .direct bytes }
  else { s with task := .waiting (buf ++ bytes) }

/-- A fatal error: the flag is set and the loop ends. -/
def fault (s : AsyncDiskStorage) (buf : Bytes) : AsyncDiskStorage :=
  { s with ioFault := true, task := .flushing buf .last }

/-- The task returns, and what is left in the channel is lost with the receiver. -/
def finish (s : AsyncDiskStorage) : AsyncDiskStorage := { s with task := .ended, queue := [] }

/-- The flush under way is over, and could not write `left`. -/
def flushed (s : AsyncDiskStorage) (left : Bytes) : Flush → AsyncDiskStorage
  | .idle => if left = [] then { s with task := .waiting [] } else s.fault left
  | .room bytes =>
    if left = [] then
      if bufCapacity ≤ bytes.length then { s with task := .direct bytes }
      else { s with task := .waiting bytes }
    else s.fault left
  -- errors are only logged
  | .swap done => { s with task := .flushing left (.drop done) }
  | .drop done => { s with task := .swapping done left }
  | .last => { s with task := .flushing left .lastDrop }
  | .lastDrop => s.finish

/-- `log_rx.recv` returns a message, or finds the channel empty and closed. -/
def recv (s : AsyncDiskStorage) : AsyncDiskStorage :=
  match s.task, s.queue with
  | .waiting buf, .write bytes :: queue => { s with queue := queue }.writeAll buf bytes
  | .waiting buf, .compact done :: queue => { s with queue := queue, task := .flushing buf (.swap done) }
  | .waiting buf, [] => if s.sender then s else { s with task := .flushing buf .last }
  | _, _ => s

/-- 50 ms pass without a message. -/
def timeout (s : AsyncDiskStorage) : AsyncDiskStorage :=
  match s.task, s.queue with
  | .waiting buf, [] => if s.sender then { s with task := .flushing buf .idle } else s
  | _, _ => s

/-- `write(2)` takes `n` bytes, at least one. -/
def write (s : AsyncDiskStorage) (n : ℕ) : AsyncDiskStorage :=
  match s.task with
  | .flushing buf why => { s with log := s.log ++ buf.take n, task := .flushing (buf.drop n) why }
  | .direct bytes => { s with log := s.log ++ bytes.take n, task := .direct (bytes.drop n) }
  | _ => s

/-- The rename fails: the error is logged, and the temporary log removed. -/
def renameFailed (s : AsyncDiskStorage) (done : ℕ) : AsyncDiskStorage :=
  { s with task := .removing done }

/-- The system calls under way are done. -/
def succeed (s : AsyncDiskStorage) : AsyncDiskStorage :=
  match s.task with
  | .opening => { s with task := .waiting [] }
  | .flushing [] why => s.flushed [] why
  | .direct [] => { s with task := .waiting [] }
  | .swapping done _ =>
    match s.logTmp with
    | some log => { s with log := log, logTmp := none, task := .reopening done }
    | none => s.renameFailed done
  | .removing done => { s with logTmp := none, task := .reopening done }
  | .reopening done => { s with task := .waiting [], finished := s.finished ++ [done] }
  | _ => s

/-- The system call under way fails. -/
def fail (s : AsyncDiskStorage) : AsyncDiskStorage :=
  match s.task with
  | .opening => s.finish
  | .flushing (b :: buf) why => s.flushed (b :: buf) why
  | .direct (_ :: _) => s.fault []
  | .swapping done _ => s.renameFailed done
  | .removing done => { s with task := .reopening done }
  | .reopening _ => s.finish
  | _ => s

/-! ## Steps -/

inductive WriterAct
  | writeEntry (entry : LogEntry)
  | writeCompactedLog
  | sendCompact (done : ℕ)
  /-- The storage is dropped, and with it the sender. -/
  | close
  | recv
  | timeout
  | write (n : ℕ)
  | succeed
  | fail

/-- One step of a caller or of the task. -/
def step (s : AsyncDiskStorage) : WriterAct → AsyncDiskStorage
  | .writeEntry entry => (s.writeEntry entry).2
  | .writeCompactedLog => s.writeCompactedLog
  | .sendCompact done => (s.sendCompact done).2
  | .close => { s with sender := false }
  | .recv => s.recv
  | .timeout => s.timeout
  | .write n => s.write n
  | .succeed => s.succeed
  | .fail => s.fail

end AsyncDiskStorage

end MoltenDB
