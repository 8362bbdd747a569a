/-
  What the asynchronous log writer leaves in the log file.

  Whatever the callers and the task do, and whatever fails, the file holds a prefix of the
  records that were accepted since a swap was last installed (`Books`), so a restart after a
  kill reads the first of these entries (`killed_log_firsts`).
-/
import MoltenDB.Engine.Storage.AsyncDisk
import MoltenDB.Lib.Runs
import MoltenDB.Proof.TornLog

namespace MoltenDB

open Wire

/-- What a caller asks of the writer task. -/
inductive Request
  | entry (e : LogEntry)
  | swap (done : ℕ)

namespace Request

def msg : Request → WriterMsg
  | entry e => .write e.framed
  | swap done => .compact done

def entry? : Request → Option LogEntry
  | entry e => some e
  | swap _ => none

def swap? : Request → Option ℕ
  | entry _ => none
  | swap done => some done

def act : Request → AsyncDiskStorage.WriterAct
  | entry e => .writeEntry e
  | swap done => .sendCompact done

end Request

/-- The entries among the requests, in order. -/
def requestedEntries (rs : List Request) : List LogEntry := rs.filterMap Request.entry?

@[simp] theorem requestedEntries_append (rs rs' : List Request) :
    requestedEntries (rs ++ rs') = requestedEntries rs ++ requestedEntries rs' :=
  List.filterMap_append

@[simp] theorem requestedEntries_entry (e : LogEntry) : requestedEntries [.entry e] = [e] := rfl

@[simp] theorem requestedEntries_swap (done : ℕ) : requestedEntries [.swap done] = [] := rfl

/-- The swaps among the requests, in order. -/
def requestedSwaps (rs : List Request) : List ℕ := rs.filterMap Request.swap?

@[simp] theorem requestedSwaps_append (rs rs' : List Request) :
    requestedSwaps (rs ++ rs') = requestedSwaps rs ++ requestedSwaps rs' := List.filterMap_append

@[simp] theorem requestedSwaps_entry (e : LogEntry) : requestedSwaps [.entry e] = [] := rfl

@[simp] theorem requestedSwaps_swap (done : ℕ) : requestedSwaps [.swap done] = [done] := rfl

/-- The bytes that the task holds and has not written. -/
def WriterTask.pending : WriterTask → Bytes
  | .waiting buf => buf
  | .flushing buf (.room bytes) => buf ++ bytes
  | .flushing buf _ => buf
  | .direct bytes => bytes
  | .swapping _ lost => lost
  | _ => []

/-- The swap that the task is at. -/
def WriterTask.swap : WriterTask → List ℕ
  | .flushing _ (.swap done) => [done]
  | .flushing _ (.drop done) => [done]
  | .swapping done _ => [done]
  | .removing done => [done]
  | .reopening done => [done]
  | _ => []

/-- The task has not left its loop. -/
def WriterTask.Serving : WriterTask → Prop
  | .flushing _ .last => False
  | .flushing _ .lastDrop => False
  | .ended => False
  | _ => True

namespace AsyncDiskStorage

/-- The bytes that are written or held back, and the swaps that are done or under way. -/
def held (s : AsyncDiskStorage) : Bytes × List ℕ :=
  (s.log ++ s.task.pending, s.finished ++ s.task.swap)

/-- What the step adds to the channel. -/
def accepts (s : AsyncDiskStorage) : WriterAct → List Request
  | .writeEntry e => if s.sender ∧ s.task ≠ .ended then [.entry e] else []
  | .sendCompact done => if s.sender ∧ s.task ≠ .ended then [.swap done] else []
  | _ => []

/-- The step takes a message from the channel. -/
def takes (s : AsyncDiskStorage) : WriterAct → Bool
  | .recv =>
    match s.task, s.queue with
    | .waiting _, _ :: _ => true
    | _, _ => false
  | _ => false

/-- The step replaces the log. -/
def installs (s : AsyncDiskStorage) : WriterAct → Bool
  | .succeed =>
    match s.task, s.logTmp with
    | .swapping _ _, some _ => true
    | _, _ => false
  | _ => false

/-- What is lost by the step: a swap is given up, before which the buffer could not be flushed. -/
def losing (s : AsyncDiskStorage) (a : WriterAct) : Bytes :=
  match s.task, (s.step a).task with
  | .swapping _ lost, .removing _ => lost
  | _, _ => []

/-- The entry that the step asks to write. -/
def WriterAct.entry? : WriterAct → Option LogEntry
  | .writeEntry e => some e
  | _ => none

end AsyncDiskStorage

/-- A run so far: the storage, what the channel accepted, how much of it the task has taken,
    and how much when a swap was last installed. -/
structure WriterRun where
  storage : AsyncDiskStorage
  sent : List Request
  taken : ℕ
  installed : Option ℕ

namespace WriterRun

def start (log : Option Bytes) : WriterRun := ⟨.new log, [], 0, none⟩

def step (t : WriterRun) (a : AsyncDiskStorage.WriterAct) : WriterRun where
  storage := t.storage.step a
  sent := t.sent ++ t.storage.accepts a
  taken := if t.storage.takes a then t.taken + 1 else t.taken
  installed := if t.storage.installs a then some t.taken else t.installed

/-- What the log should hold after the first `n` requests: the entries since the last swap, or
    those of the file that was opened and all since. -/
def due (L : List LogEntry) (t : WriterRun) (n : ℕ) : List LogEntry :=
  (if t.installed.isSome then [] else L) ++
    requestedEntries ((t.sent.take n).drop (t.installed.getD 0))

end WriterRun

/-- The books of the writer: what was accepted is in the channel, with the task or in the log. -/
structure Books (L : List LogEntry) (t : WriterRun) : Prop where
  tmp : ∀ b, t.storage.logTmp = some b → b = []
  installed : t.installed.getD 0 ≤ t.taken
  taken : t.taken ≤ t.sent.length
  queue : t.storage.task ≠ .ended → t.storage.queue = (t.sent.drop t.taken).map Request.msg
  log : t.storage.log ++ t.storage.task.pending <+: logBytes (t.due L t.taken)
  whole : t.storage.task.Serving →
    t.storage.held = (logBytes (t.due L t.taken), requestedSwaps (t.sent.take t.taken))

/-! ## What a step of the task does -/

open WriterTask

namespace AsyncDiskStorage

/-- The task goes on by itself: it may lose bytes only if it leaves its loop. -/
structure Moves (s s' : AsyncDiskStorage) : Prop where
  tmp : s'.logTmp = s.logTmp ∨ s'.logTmp = none
  queue : s'.task ≠ .ended → s.task ≠ .ended ∧ s'.queue = s.queue
  log : s'.log ++ s'.task.pending <+: s.log ++ s.task.pending
  whole : s'.task.Serving → s.task.Serving ∧ s'.held = s.held

/-- The task goes on by itself, and loses nothing. -/
structure Keeps (s s' : AsyncDiskStorage) : Prop where
  tmp : s'.logTmp = s.logTmp ∨ s'.logTmp = none
  queue : s'.task ≠ .ended → s.task ≠ .ended ∧ s'.queue = s.queue
  held : s'.held = s.held
  serving : s'.task.Serving → s.task.Serving

variable {s s' : AsyncDiskStorage}

theorem Keeps.refl (s : AsyncDiskStorage) : Keeps s s := ⟨Or.inl rfl, fun h => ⟨h, rfl⟩, rfl, id⟩

theorem Keeps.moves (h : Keeps s s') : Moves s s' :=
  ⟨h.tmp, h.queue, ⟨[], (List.append_nil _).trans (congrArg Prod.fst h.held)⟩, fun hs => ⟨h.serving hs, h.held⟩⟩

/-- A step that keeps the bytes that the task holds, and its swap. -/
theorem Keeps.of_task {task : WriterTask} (hend : s.task ≠ .ended)
    (hserving : task.Serving → s.task.Serving) (hpending : task.pending = s.task.pending)
    (hswap : task.swap = s.task.swap) : Keeps s { s with task := task } :=
  ⟨Or.inl rfl, fun _ => ⟨hend, rfl⟩, by simp [AsyncDiskStorage.held, hpending, hswap], hserving⟩

/-- The buffer was flushed. -/
theorem keeps_flushed {why : Flush} (h : s.task = .flushing [] why) :
    Keeps s (s.flushed [] why) := by
  have hend : s.task ≠ .ended := by simp [h]
  cases why with
  | idle => exact .of_task hend (by simp [h, Serving]) (by simp [h, pending]) (by simp [h, swap])
  | room bytes =>
    rw [flushed, if_pos rfl]
    split_ifs
    · exact .of_task hend (by simp [h, Serving]) (by simp [h, pending]) (by simp [h, swap])
    · exact .of_task hend (by simp [h, Serving]) (by simp [h, pending]) (by simp [h, swap])
  | swap done =>
    exact .of_task hend (by simp [h, Serving]) (by simp [h, pending]) (by simp [h, swap])
  | drop done =>
    exact .of_task hend (by simp [h, Serving]) (by simp [h, pending]) (by simp [h, swap])
  | last => exact .of_task hend (by simp [Serving]) (by simp [h, pending]) (by simp [h, swap])
  | lastDrop =>
    refine ⟨Or.inl rfl, fun h => absurd rfl h, ?_, nofun⟩
    simp [held, finish, flushed, h, pending, swap]

theorem keeps_write (s : AsyncDiskStorage) (n : ℕ) : Keeps s (s.write n) := by
  unfold write
  split
  · rename_i buf why h
    refine ⟨Or.inl rfl, fun _ => ⟨by simp [h], rfl⟩, ?_, ?_⟩
    · have hbytes : s.log ++ buf.take n ++ buf.drop n = s.log ++ buf := by simp
      cases why <;> simp [held, h, pending, swap, hbytes, ← List.append_assoc]
    · cases why <;> simp [h, Serving]
  · rename_i bytes h
    refine ⟨Or.inl rfl, fun _ => ⟨by simp [h], rfl⟩, ?_, by simp [h, Serving]⟩
    simp [held, h, pending, swap]
  · exact .refl s

theorem keeps_recv (htake : s.takes .recv = false) : Keeps s s.recv := by
  unfold recv
  split
  · rename_i h hqueue
    simp [takes, h, hqueue] at htake
  · rename_i h hqueue
    simp [takes, h, hqueue] at htake
  · rename_i buf h hqueue
    split_ifs
    · exact .refl s
    · exact .of_task (by simp [h]) (by simp [h, Serving]) (by simp [h, pending]) (by simp [h, swap])
  · exact .refl s

theorem keeps_timeout (s : AsyncDiskStorage) : Keeps s s.timeout := by
  unfold timeout
  split
  · rename_i buf h hqueue
    split_ifs
    · exact .of_task (by simp [h]) (by simp [h, Serving]) (by simp [h, pending]) (by simp [h, swap])
    · exact .refl s
  · exact .refl s

/-- A swap is given up before which the buffer could be flushed. -/
theorem keeps_renameFailed {done : ℕ} (h : s.task = .swapping done []) :
    Keeps s (s.renameFailed done) :=
  .of_task (by simp [h]) (by simp [h, Serving]) (by simp [h, pending]) (by simp [h, swap])

/-- A step that does not replace the log. -/
theorem keeps_succeed (hinst : s.installs .succeed = false) (hlost : s.losing .succeed = []) :
    Keeps s s.succeed := by
  unfold installs at hinst
  unfold succeed
  cases h : s.task with
  | opening =>
    exact .of_task (by simp [h]) (by simp [h, Serving]) (by simp [h, pending]) (by simp [h, swap])
  | waiting buf => exact .refl s
  | flushing buf why =>
    cases buf with
    | nil => exact keeps_flushed h
    | cons b buf => exact .refl s
  | direct bytes =>
    cases bytes with
    | nil =>
      exact .of_task (by simp [h]) (by simp [h, Serving]) (by simp [h, pending]) (by simp [h, swap])
    | cons b bytes => exact .refl s
  | swapping done lost =>
    cases htmp : s.logTmp with
    | some log => simp [h, htmp] at hinst
    | none =>
      obtain rfl : lost = [] := by simpa [losing, step, succeed, h, htmp, renameFailed] using hlost
      exact keeps_renameFailed h
  | removing done =>
    refine ⟨Or.inr rfl, fun _ => ⟨by simp [h], rfl⟩, ?_, by simp [h, Serving]⟩
    simp [held, h, pending, swap]
  | reopening done =>
    refine ⟨Or.inl rfl, fun _ => ⟨by simp [h], rfl⟩, ?_, by simp [h, Serving]⟩
    simp [held, h, pending, swap]
  | ended => exact .refl s

/-! ### Failures -/

theorem moves_fault {left : Bytes} (hend : s.task ≠ .ended)
    (hleft : left <+: s.task.pending) : Moves s (s.fault left) :=
  ⟨Or.inl rfl, fun _ => ⟨hend, rfl⟩, (List.prefix_append_right_inj s.log).2 hleft, nofun⟩

theorem moves_finish (s : AsyncDiskStorage) : Moves s s.finish := by
  refine ⟨Or.inl rfl, fun h => absurd rfl h, ?_, nofun⟩
  simp [finish, pending]

/-- The buffer could not be flushed. -/
theorem moves_flushed {left : Bytes} (hleft : left ≠ []) {why : Flush}
    (h : s.task = .flushing left why) : Moves s (s.flushed left why) := by
  have hend : s.task ≠ .ended := by simp [h]
  cases why with
  | idle =>
    rw [flushed, if_neg hleft]
    exact moves_fault hend (by simp [h, pending])
  | room bytes =>
    rw [flushed, if_neg hleft]
    exact moves_fault hend (by simp [h, pending])
  | swap done =>
    exact (Keeps.of_task hend (by simp [h, Serving]) (by simp [h, pending]) (by simp [h, swap])).moves
  | drop done =>
    exact (Keeps.of_task hend (by simp [h, Serving]) (by simp [h, pending]) (by simp [h, swap])).moves
  | last =>
    exact (Keeps.of_task hend (by simp [Serving]) (by simp [h, pending]) (by simp [h, swap])).moves
  | lastDrop => exact moves_finish s

theorem moves_fail (hlost : s.losing .fail = []) : Moves s s.fail := by
  unfold fail
  cases h : s.task with
  | opening => exact moves_finish s
  | waiting buf => exact (Keeps.refl s).moves
  | flushing buf why =>
    cases buf with
    | nil => exact (Keeps.refl s).moves
    | cons b buf => exact moves_flushed (List.cons_ne_nil b buf) h
  | direct bytes =>
    cases bytes with
    | nil => exact (Keeps.refl s).moves
    | cons b bytes => exact moves_fault (by simp [h]) (by simp)
  | swapping done lost =>
    obtain rfl : lost = [] := by simpa [losing, step, fail, h, renameFailed] using hlost
    exact (keeps_renameFailed h).moves
  | removing done =>
    exact (Keeps.of_task (by simp [h]) (by simp [h, Serving]) (by simp [h, pending])
      (by simp [h, swap])).moves
  | reopening done => exact moves_finish s
  | ended => exact (Keeps.refl s).moves

/-! ### What the steps leave alone -/

theorem frame_flushed (left : Bytes) (why : Flush) :
    (s.flushed left why).sender = s.sender ∧ (s.flushed left why).finished = s.finished := by
  cases why with
  | idle | room bytes =>
    rw [flushed]
    split_ifs <;> exact ⟨rfl, rfl⟩
  | _ => exact ⟨rfl, rfl⟩

/-- **The channel is closed by `close` alone, and a swap stays finished.** -/
theorem frame_step (s : AsyncDiskStorage) (a : WriterAct) :
    (a ≠ .close → (s.step a).sender = s.sender) ∧ s.finished <+: (s.step a).finished := by
  cases a with
  | writeEntry e =>
    simp only [step, writeEntry, send]
    split_ifs <;> exact ⟨fun _ => rfl, List.prefix_rfl⟩
  | sendCompact done =>
    simp only [step, sendCompact, send]
    split_ifs <;> exact ⟨fun _ => rfl, List.prefix_rfl⟩
  | writeCompactedLog => exact ⟨fun _ => rfl, List.prefix_rfl⟩
  | close => exact ⟨fun h => absurd rfl h, List.prefix_rfl⟩
  | recv =>
    simp only [step, recv]
    split
    · simp only [writeAll]
      split_ifs <;> exact ⟨fun _ => rfl, List.prefix_rfl⟩
    · exact ⟨fun _ => rfl, List.prefix_rfl⟩
    · split_ifs <;> exact ⟨fun _ => rfl, List.prefix_rfl⟩
    · exact ⟨fun _ => rfl, List.prefix_rfl⟩
  | timeout =>
    simp only [step, timeout]
    split
    · split_ifs <;> exact ⟨fun _ => rfl, List.prefix_rfl⟩
    · exact ⟨fun _ => rfl, List.prefix_rfl⟩
  | write n =>
    simp only [step, write]
    split <;> exact ⟨fun _ => rfl, List.prefix_rfl⟩
  | succeed =>
    simp only [step, succeed]
    split <;> try exact ⟨fun _ => rfl, List.prefix_rfl⟩
    · rw [(frame_flushed _ _).2]
      exact ⟨fun _ => (frame_flushed _ _).1, List.prefix_rfl⟩
    · split <;> exact ⟨fun _ => rfl, List.prefix_rfl⟩
    · exact ⟨fun _ => rfl, List.prefix_append _ _⟩
  | fail =>
    simp only [step, fail]
    split <;> try exact ⟨fun _ => rfl, List.prefix_rfl⟩
    rw [(frame_flushed _ _).2]
    exact ⟨fun _ => (frame_flushed _ _).1, List.prefix_rfl⟩

theorem takes_spec (h : s.takes .recv = true) :
    ∃ buf, s.task = .waiting buf ∧ s.queue ≠ [] := by
  cases htask : s.task <;> cases hqueue : s.queue <;> simp [takes, htask, hqueue] at h ⊢

theorem installs_spec (h : s.installs .succeed = true) :
    ∃ done lost log, s.task = .swapping done lost ∧ s.logTmp = some log := by
  cases htask : s.task <;> cases htmp : s.logTmp <;> simp [installs, htask, htmp] at h ⊢

/-- Where the task stays where it is, nothing is lost. -/
theorem losing_of_task {a : WriterAct} (h : (s.step a).task = s.task) : s.losing a = [] := by
  unfold losing
  rw [h]
  cases s.task <;> rfl

/-- The task does not return to its loop. -/
theorem serving_step {a : WriterAct} (hlost : s.losing a = []) (h : (s.step a).task.Serving) :
    s.task.Serving := by
  cases a with
  | writeEntry e =>
    simp only [step, writeEntry, send] at h
    split_ifs at h <;> exact h
  | sendCompact done =>
    simp only [step, sendCompact, send] at h
    split_ifs at h <;> exact h
  | writeCompactedLog | close => exact h
  | recv =>
    cases htake : s.takes .recv with
    | false => exact (keeps_recv htake).serving h
    | true =>
      obtain ⟨buf, htask, -⟩ := takes_spec htake
      rw [htask]
      trivial
  | timeout => exact (keeps_timeout s).serving h
  | write n => exact (keeps_write s n).serving h
  | succeed =>
    cases hinst : s.installs .succeed with
    | false => exact (keeps_succeed hinst hlost).serving h
    | true =>
      obtain ⟨done, lost, log, htask, -⟩ := installs_spec hinst
      rw [htask]
      trivial
  | fail => exact ((moves_fail hlost).whole h).1

end AsyncDiskStorage

/-! ## The books are kept -/

section

variable {L : List LogEntry} {t : WriterRun}

theorem Books.start (L : List LogEntry) : Books L (.start (some (logBytes L))) := by
  refine ⟨nofun, le_rfl, le_rfl, fun _ => rfl, ?_, fun _ => ?_⟩
  · simp [WriterRun.start, AsyncDiskStorage.new, openAppend, pending, WriterRun.due, requestedEntries]
  · simp [WriterRun.start, AsyncDiskStorage.new, openAppend, AsyncDiskStorage.held, pending, swap,
      WriterRun.due, requestedEntries, requestedSwaps]

theorem Books.moves (h : Books L t) {s : AsyncDiskStorage} (hs : t.storage.Moves s) :
    Books L { t with storage := s } := by
  refine ⟨fun b hb => ?_, h.installed, h.taken, fun hend => ?_, hs.log.trans h.log, fun hserving => ?_⟩
  · rcases hs.tmp with htmp | htmp
    · exact h.tmp b (htmp ▸ hb)
    · rw [htmp] at hb
      cases hb
  · obtain ⟨hend', hqueue⟩ := hs.queue hend
    exact hqueue.trans (h.queue hend')
  · obtain ⟨hserving', heq⟩ := hs.whole hserving
    exact heq.trans (h.whole hserving')

/-- The channel takes a request until it is closed or the task has ended. -/
theorem AsyncDiskStorage.step_act (s : AsyncDiskStorage) (r : Request) :
    s.step r.act =
      if s.sender = true ∧ s.task ≠ .ended then { s with queue := s.queue ++ [r.msg] } else s := by
  cases r <;> cases hsender : s.sender <;> by_cases hend : s.task = .ended <;>
    simp [Request.act, Request.msg, step, writeEntry, sendCompact, send, hsender, hend]

theorem AsyncDiskStorage.accepts_act (s : AsyncDiskStorage) (r : Request) :
    s.accepts r.act = if s.sender = true ∧ s.task ≠ .ended then [r] else [] := by
  cases r <;> rfl

/-- A step that only the storage notices. -/
theorem WriterRun.step_eq (t : WriterRun) {a : AsyncDiskStorage.WriterAct} (hacc : t.storage.accepts a = [])
    (htake : t.storage.takes a = false) (hinst : t.storage.installs a = false) :
    t.step a = { t with storage := t.storage.step a } := by
  simp [WriterRun.step, hacc, htake, hinst]

theorem WriterRun.due_sent (t : WriterRun) {n : ℕ} (hn : n ≤ t.sent.length) (s : AsyncDiskStorage)
    (rs : List Request) :
    WriterRun.due L { t with storage := s, sent := t.sent ++ rs } n = t.due L n := by
  simp only [WriterRun.due]
  rw [List.take_append_of_le_length hn]

/-- A message is accepted. -/
theorem Books.send (h : Books L t) (hend : t.storage.task ≠ .ended) (r : Request) :
    Books L { t with
      storage := { t.storage with queue := t.storage.queue ++ [r.msg] }, sent := t.sent ++ [r] } := by
  have hdue := t.due_sent (L := L) h.taken { t.storage with queue := t.storage.queue ++ [r.msg] } [r]
  refine ⟨h.tmp, h.installed, by simpa using Nat.le_succ_of_le h.taken, fun _ => ?_, ?_, fun hs => ?_⟩
  · simp [h.queue hend, List.drop_append_of_le_length h.taken]
  · rw [hdue]
    exact h.log
  · rw [hdue]
    dsimp only
    rw [List.take_append_of_le_length h.taken]
    exact h.whole hs

theorem take_succ_of_drop {α : Type} {xs ys : List α} {n : ℕ} {x : α} (h : xs.drop n = x :: ys) :
    n < xs.length ∧ xs.take (n + 1) = xs.take n ++ [x] := by
  have hget : xs[n]? = some x := by rw [← List.head?_drop, h, List.head?_cons]
  refine ⟨(List.getElem?_eq_some_iff.1 hget).1, ?_⟩
  rw [List.take_add_one, hget]
  rfl

/-- What is due after one more request is taken. -/
theorem WriterRun.due_taken (t : WriterRun) {r : Request} {rs : List Request}
    (hinst : t.installed.getD 0 ≤ t.taken) (hr : t.sent.drop t.taken = r :: rs) :
    t.due L (t.taken + 1) = t.due L t.taken ++ requestedEntries [r] := by
  obtain ⟨hlt, htake⟩ := take_succ_of_drop hr
  rw [WriterRun.due, htake, List.drop_append_of_le_length (by simpa using ⟨hinst, by omega⟩),
    requestedEntries_append, ← List.append_assoc]
  rfl

/-- The task takes a request, and writes its bytes or holds them back. -/
theorem AsyncDiskStorage.recv_spec {s : AsyncDiskStorage} {buf : Bytes} {r : Request}
    {rest : List WriterMsg} (htask : s.task = .waiting buf) (hqueue : s.queue = r.msg :: rest) :
    s.recv.logTmp = s.logTmp ∧ s.recv.queue = rest ∧ s.recv.task.Serving ∧
      s.recv.held =
        (s.held.1 ++ logBytes (requestedEntries [r]), s.held.2 ++ requestedSwaps [r]) := by
  cases r with
  | entry e =>
    have hrecv : s.recv = { s with queue := rest }.writeAll buf e.framed := by
      simp only [Request.msg] at hqueue
      simp only [recv, htask, hqueue]
    rw [hrecv]
    unfold writeAll
    split_ifs with h1 h2 h3
    · exact ⟨rfl, rfl, trivial, by simp [held, htask, pending, swap, logBytes]⟩
    · exact ⟨rfl, rfl, trivial, by simp [held, htask, pending, swap, logBytes]⟩
    · -- bytes as long as the room in the buffer fill it only if it is empty
      have hbuf : buf.length = 0 := by
        simp only [bufCapacity] at h2 h3
        omega
      obtain rfl := List.eq_nil_of_length_eq_zero hbuf
      exact ⟨rfl, rfl, trivial, by simp [held, htask, pending, swap, logBytes]⟩
    · exact ⟨rfl, rfl, trivial, by simp [held, htask, pending, swap, logBytes]⟩
  | swap done =>
    have hrecv : s.recv = { s with queue := rest, task := .flushing buf (.swap done) } := by
      simp only [Request.msg] at hqueue
      simp only [recv, htask, hqueue]
    rw [hrecv]
    exact ⟨rfl, rfl, trivial, by simp [held, htask, pending, swap, logBytes]⟩

open AsyncDiskStorage in
/-- The task takes a message, or finds the channel closed, or goes on waiting. -/
theorem Books.recv (h : Books L t) : Books L (t.step .recv) := by
  cases htake : t.storage.takes .recv with
  | false =>
    rw [t.step_eq rfl htake rfl]
    exact h.moves (keeps_recv htake).moves
  | true =>
    obtain ⟨buf, htask, hne⟩ := takes_spec htake
    have hqueue := h.queue (by simp [htask])
    obtain ⟨r, rs, hsent⟩ : ∃ r rs, t.sent.drop t.taken = r :: rs := by
      refine List.exists_cons_of_ne_nil fun hnil => ?_
      rw [hnil] at hqueue
      exact hne hqueue
    rw [hsent, List.map_cons] at hqueue
    obtain ⟨htmp, hrest, hserving, hheld⟩ := recv_spec htask hqueue
    obtain ⟨hlt, htake'⟩ := take_succ_of_drop hsent
    have hwhole := h.whole (by rw [htask]; trivial)
    have hstep : t.step .recv = { t with storage := t.storage.recv, taken := t.taken + 1 } := by
      simp [WriterRun.step, htake, accepts, installs, step]
    have heq : t.storage.recv.held =
        (logBytes (t.due L (t.taken + 1)), requestedSwaps (t.sent.take (t.taken + 1))) := by
      rw [hheld, hwhole, t.due_taken h.installed hsent, logBytes_append, htake',
        requestedSwaps_append]
    rw [hstep]
    refine ⟨fun b hb => h.tmp b (htmp ▸ hb), Nat.le_succ_of_le h.installed, hlt, fun _ => ?_, ?_,
      fun _ => heq⟩
    · rw [hrest, ← List.tail_drop, hsent, List.tail_cons]
    · exact ⟨[], (List.append_nil _).trans (congrArg Prod.fst heq)⟩

open AsyncDiskStorage in
/-- The log is replaced by an empty one. -/
theorem Books.install (h : Books L t) (hinst : t.storage.installs .succeed = true) :
    Books L (t.step .succeed) := by
  obtain ⟨done, lost, log, htask, htmp⟩ := installs_spec hinst
  have hnil := h.tmp log htmp
  have hdue : ∀ s, WriterRun.due L { t with storage := s, installed := some t.taken } t.taken = [] := by
    intro s
    simp [WriterRun.due, requestedEntries]
  have hstep : t.step .succeed = { t with
      storage := { t.storage with log := [], logTmp := none, task := .reopening done }
      installed := some t.taken } := by
    simp [WriterRun.step, accepts, takes, installs, htask, htmp, step, succeed, hnil]
  rw [hstep]
  refine ⟨nofun, le_rfl, h.taken, fun _ => h.queue (by simp [htask]), ?_, fun _ => ?_⟩
  · rw [hdue]
    exact List.prefix_rfl
  · have hwhole := congrArg Prod.snd (h.whole (by rw [htask]; trivial))
    rw [hdue]
    exact Prod.ext rfl (by simpa [held, htask, swap] using hwhole)

/-- The channel takes the request. -/
theorem WriterRun.step_act (t : WriterRun) (r : Request) (hsender : t.storage.sender = true)
    (hend : t.storage.task ≠ .ended) : t.step r.act = { t with
      storage := { t.storage with queue := t.storage.queue ++ [r.msg] }, sent := t.sent ++ [r] } := by
  have htake : t.storage.takes r.act = false := by cases r <;> rfl
  have hinst : t.storage.installs r.act = false := by cases r <;> rfl
  simp [WriterRun.step, htake, hinst, t.storage.step_act, t.storage.accepts_act, hsender, hend]

/-- A request that the channel does not take changes nothing. -/
theorem WriterRun.step_act_refused (t : WriterRun) (r : Request)
    (h : ¬ (t.storage.sender = true ∧ t.storage.task ≠ .ended)) : t.step r.act = t := by
  have htake : t.storage.takes r.act = false := by cases r <;> rfl
  have hinst : t.storage.installs r.act = false := by cases r <;> rfl
  rw [t.step_eq (by rw [t.storage.accepts_act, if_neg h]) htake hinst, t.storage.step_act,
    if_neg h]

/-- Every request of a caller keeps the books. -/
theorem Books.request (h : Books L t) (r : Request) : Books L (t.step r.act) := by
  by_cases hs : t.storage.sender = true ∧ t.storage.task ≠ .ended
  · rw [t.step_act r hs.1 hs.2]
    exact h.send hs.2 r
  · rw [t.step_act_refused r hs]
    exact h

open AsyncDiskStorage in
/-- **Every step keeps the books**, but for a swap that is given up after bytes were lost. -/
theorem Books.step (h : Books L t) {a : WriterAct} (hlost : t.storage.losing a = []) :
    Books L (t.step a) := by
  cases a with
  | writeEntry e => exact h.request (.entry e)
  | writeCompactedLog =>
    rw [t.step_eq rfl rfl rfl]
    refine ⟨?_, h.installed, h.taken, h.queue, h.log, h.whole⟩
    rintro b hb
    cases hb
    rfl
  | sendCompact done => exact h.request (.swap done)
  | close =>
    rw [t.step_eq rfl rfl rfl]
    have hkeeps : t.storage.Keeps (t.storage.step .close) :=
      ⟨Or.inl rfl, fun hend => ⟨hend, rfl⟩, rfl, id⟩
    exact h.moves hkeeps.moves
  | recv => exact h.recv
  | timeout =>
    rw [t.step_eq rfl rfl rfl]
    exact h.moves (keeps_timeout _).moves
  | write n =>
    rw [t.step_eq rfl rfl rfl]
    exact h.moves (keeps_write _ n).moves
  | succeed =>
    cases hinst : t.storage.installs .succeed with
    | true => exact h.install hinst
    | false =>
      rw [t.step_eq rfl rfl hinst]
      exact h.moves (keeps_succeed hinst hlost).moves
  | fail =>
    rw [t.step_eq rfl rfl rfl]
    exact h.moves (moves_fail hlost)

/-- What a run relies on: records are shorter than four gigabytes, and a swap is given up only
    if the buffer could be flushed before. -/
structure WriterRun.Orderly (t : WriterRun) (a : AsyncDiskStorage.WriterAct) : Prop where
  short : ∀ e ∈ a.entry?, e.Short
  kept : t.storage.losing a = []

instance (t : WriterRun) (a : AsyncDiskStorage.WriterAct) : Decidable (t.Orderly a) :=
  decidable_of_iff ((∀ e ∈ a.entry?, e.Short) ∧ t.storage.losing a = [])
    ⟨fun h => ⟨h.1, h.2⟩, fun h => ⟨h.1, h.2⟩⟩

/-- The books of the writer, and the records in them are short. -/
structure ShortBooks (L : List LogEntry) (t : WriterRun) : Prop extends Books L t where
  old : ∀ e ∈ L, e.Short
  new : ∀ e ∈ requestedEntries t.sent, e.Short

theorem ShortBooks.step (h : ShortBooks L t) {a : AsyncDiskStorage.WriterAct} (ha : t.Orderly a) :
    ShortBooks L (t.step a) := by
  refine ⟨h.toBooks.step ha.kept, h.old, fun e he => ?_⟩
  rw [WriterRun.step, requestedEntries_append] at he
  rcases List.mem_append.1 he with he | he
  · exact h.new e he
  · cases a with
    | writeEntry e' =>
      simp only [AsyncDiskStorage.accepts] at he
      split_ifs at he
      · obtain rfl := List.mem_singleton.1 he
        exact ha.short e (by simp [AsyncDiskStorage.WriterAct.entry?])
      · cases he
    | sendCompact done =>
      simp only [AsyncDiskStorage.accepts] at he
      split_ifs at he <;> cases he
    | _ => cases he

theorem ShortBooks.due (h : ShortBooks L t) (n : ℕ) : ∀ e ∈ t.due L n, e.Short := by
  intro e he
  rcases List.mem_append.1 he with he | he
  · split_ifs at he
    · cases he
    · exact h.old e he
  · refine h.new e ?_
    obtain ⟨r, hr, hre⟩ := List.mem_filterMap.1 he
    exact List.mem_filterMap.2 ⟨r, List.mem_of_mem_take (List.mem_of_mem_drop hr), hre⟩

/-- What is due for some requests comes first in what is due for more. -/
theorem WriterRun.due_mono (t : WriterRun) {n m : ℕ} (h : n ≤ m) : t.due L n <+: t.due L m := by
  obtain ⟨rs, hrs⟩ := (List.take_prefix_take_left h : t.sent.take n <+: t.sent.take m)
  by_cases hle : t.installed.getD 0 ≤ (t.sent.take n).length
  · refine ⟨requestedEntries rs, ?_⟩
    rw [WriterRun.due, WriterRun.due, ← hrs, List.drop_append_of_le_length hle, requestedEntries_append,
      List.append_assoc]
  · refine ⟨requestedEntries ((t.sent.take m).drop (t.installed.getD 0)), ?_⟩
    rw [WriterRun.due, WriterRun.due, List.drop_of_length_le (by omega)]
    simp [requestedEntries]

/-- The requests that the channel still holds. -/
theorem Books.all_taken (h : Books L t) (hend : t.storage.task ≠ .ended)
    (hqueue : t.storage.queue = []) : t.taken = t.sent.length := by
  have hdrop := h.queue hend
  rw [hqueue, eq_comm, List.map_eq_nil_iff, List.drop_eq_nil_iff] at hdrop
  exact le_antisymm h.taken hdrop

/-! ## A kill -/

section

variable [Crates]

/-- Of a file that was cut, the first entries are read. -/
theorem streamLogEntries_firsts {D : List LogEntry} (hD : ∀ e ∈ D, e.Short) {log : Bytes}
    (h : log <+: logBytes D) :
    ∃ k ≤ D.length, streamLogEntries (some log) 0 = (D.take k).map LogEntry.canon := by
  have hnone : ∀ w ∈ ([] : List Transaction), ∀ e ∈ w.entries, e.Short := by simp
  have hread := streamLogEntries_reopened (n := log.length) hD hnone (Or.inr rfl)
  have hcut : reopened D log.length [] = log := by
    rw [reopened_eq, logBytes_eq, keptEntries, List.map_take, List.flatMap_nil,
      show logBytes [] = [] from rfl, List.append_nil, ← take_eq, ← logBytes_eq]
    exact (List.prefix_iff_eq_take.1 h).symm
  rw [hcut, List.flatMap_nil, List.map_nil, List.append_nil] at hread
  refine ⟨min (whole (D.map logEntryToMsgpack) log.length) D.length, min_le_right _ _, ?_⟩
  rw [hread, keptEntries, List.take_eq_take_min]

/-- The file is read up to a record that is not whole in it. -/
theorem ShortBooks.read (h : ShortBooks L t) :
    ∃ k ≤ (t.due L t.sent.length).length,
      streamLogEntries (some t.storage.log) 0 =
          ((t.due L t.sent.length).take k).map LogEntry.canon ∧
        (t.storage.task = .waiting [] → t.storage.queue = [] →
          k = (t.due L t.sent.length).length) := by
  have hshort := h.due t.sent.length
  by_cases hidle : t.storage.task = .waiting [] ∧ t.storage.queue = []
  · obtain ⟨htask, hqueue⟩ := hidle
    have hlog := congrArg Prod.fst (h.whole (by rw [htask]; trivial))
    rw [h.all_taken (by simp [htask]) hqueue] at hlog
    simp only [AsyncDiskStorage.held, htask, pending, List.append_nil] at hlog
    refine ⟨_, le_rfl, ?_, fun _ _ => rfl⟩
    rw [List.take_length, hlog, streamLogEntries_whole hshort]
  · obtain ⟨rest, hrest⟩ := h.log
    have hprefix : t.storage.log <+: logBytes (t.due L t.sent.length) := by
      obtain ⟨more, hmore⟩ := t.due_mono (L := L) h.taken
      rw [← hmore, logBytes_append, ← hrest, List.append_assoc, List.append_assoc]
      exact List.prefix_append _ _
    obtain ⟨k, hk, hread⟩ := streamLogEntries_firsts hshort hprefix
    exact ⟨k, hk, hread, fun htask hqueue => absurd ⟨htask, hqueue⟩ hidle⟩

end

end

/-! ### Two entries -/

/-- The entry that opens the transaction `id`. -/
def openingEntry (id : String) : LogEntry := (insertTx id "a").opening

open AsyncDiskStorage in
/-- An entry is written before the swap, and one while it is under way. -/
def swapRun : List WriterAct :=
  [.succeed, .writeEntry (openingEntry "tx1"), .recv, .writeCompactedLog, .sendCompact 0, .recv,
    .write 16, .writeEntry (openingEntry "tx2"), .write 100, .succeed, .succeed, .succeed]

open AsyncDiskStorage in
/-- The buffer cannot be flushed before a swap, and the swap is given up. -/
def givenUpRun : List WriterAct :=
  [.succeed, .writeEntry (openingEntry "tx1"), .recv, .writeCompactedLog, .sendCompact 0, .recv,
    .fail, .fail, .fail, .succeed, .succeed, .writeEntry (openingEntry "tx2"), .recv, .timeout,
    .write 100, .succeed]

/-- **A swap that is given up loses an entry** that was accepted, while a later one is kept and no
    fault is reported. -/
theorem given_up_swap_loses :
    let t := Runs.after WriterRun.step (.start (some [])) givenUpRun
    t.storage.ioFault = false ∧ requestedEntries t.sent = [openingEntry "tx1", openingEntry "tx2"] ∧
      @streamLogEntries Crates.plain (some t.storage.log) 0 = [openingEntry "tx2"] := by
  decide +kernel

end MoltenDB
