/-
  Journals of records in which operations may be grouped into transactions.

  A reader goes through the journal once, with one slot for an open transaction:
  an operation inside a transaction takes effect at its commit, one outside takes
  effect at once.
-/
import Mathlib.Tactic

namespace Journal

variable {I E : Type}

inductive Rec (I E : Type)
  | opening (id : I)
  | commit (id : I)
  | op (e : E)

/-- The operations that took effect so far, the open transaction and its operations. -/
structure Reader (I E : Type) where
  applied : List E
  active : Option I
  buffer : List E

/-- The reader of an empty journal. -/
def Reader.start : Reader I E := ⟨[], none, []⟩

/-- All operations of a journal, in order. -/
def ops : List (Rec I E) → List E
  | [] => []
  | .op e :: L => e :: ops L
  | _ :: L => ops L

theorem ops_append (L L' : List (Rec I E)) : ops (L ++ L') = ops L ++ ops L' := by
  induction L with
  | nil => rfl
  | cons x L ih => cases x <;> simp [ops, ih]

theorem mem_ops {L : List (Rec I E)} {e : E} : e ∈ ops L ↔ .op e ∈ L := by
  induction L with
  | nil => simp [ops]
  | cons x L ih => cases x <;> simp [ops, ih]

variable [DecidableEq I]

def Reader.step (r : Reader I E) : Rec I E → Reader I E
  | .opening id => { r with active := some id, buffer := [] }
  | .commit id => if r.active = some id then ⟨r.applied ++ r.buffer, none, []⟩ else r
  | .op e => if r.active.isSome then { r with buffer := r.buffer ++ [e] }
    else { r with applied := r.applied ++ [e] }

def Reader.run (r : Reader I E) (L : List (Rec I E)) : Reader I E := L.foldl Reader.step r

/-- The operations of a journal that take effect, in order. -/
def effects (L : List (Rec I E)) : List E := (Reader.start.run L).applied

/-- A transaction run to its end. -/
def tx (id : I) (ops : List E) : List (Rec I E) := .opening id :: (ops.map .op ++ [.commit id])

namespace Reader

@[simp] theorem run_nil (r : Reader I E) : r.run [] = r := rfl

@[simp] theorem run_cons (r : Reader I E) (x : Rec I E) (L : List (Rec I E)) :
    r.run (x :: L) = (r.step x).run L := rfl

theorem run_append (r : Reader I E) (L L' : List (Rec I E)) :
    r.run (L ++ L') = (r.run L).run L' := List.foldl_append

/-- Operations of an open transaction are buffered. -/
theorem run_ops_active {r : Reader I E} (h : r.active.isSome) (ops : List E) :
    r.run (ops.map .op) = { r with buffer := r.buffer ++ ops } := by
  induction ops generalizing r with
  | nil => simp
  | cons e ops ih =>
    have hstep : r.step (.op e) = { r with buffer := r.buffer ++ [e] } := by simp [step, h]
    rw [List.map_cons, run_cons, hstep, ih (by exact h)]
    simp

/-- Operations outside a transaction take effect. -/
theorem run_ops_idle {r : Reader I E} (h : r.active = none) (ops : List E) :
    r.run (ops.map .op) = { r with applied := r.applied ++ ops } := by
  induction ops generalizing r with
  | nil => simp
  | cons e ops ih =>
    have hstep : r.step (.op e) = { r with applied := r.applied ++ [e] } := by simp [step, h]
    rw [List.map_cons, run_cons, hstep, ih (by exact h)]
    simp

/-- **A transaction run to its end takes effect as a whole**, whatever was open before. -/
theorem run_tx (r : Reader I E) (id : I) (ops : List E) :
    r.run (tx id ops) = ⟨r.applied ++ ops, none, []⟩ := by
  rw [tx, run_cons, run_append, run_ops_active (by simp [step])]
  simp [step]

/-- An unfinished transaction takes no effect. -/
theorem run_unfinished (r : Reader I E) (id : I) (ops : List E) :
    r.run (.opening id :: ops.map .op) = ⟨r.applied, some id, ops⟩ := by
  rw [run_cons, run_ops_active (by simp [step])]
  simp [step]

/-- A transaction that is cut short takes no effect. -/
theorem applied_run_take_tx (r : Reader I E) (id : I) (ops : List E) {n : ℕ}
    (h : n < (tx id ops).length) : (r.run ((tx id ops).take n)).applied = r.applied := by
  cases n with
  | zero => rfl
  | succ n =>
    have hn : n ≤ (ops.map (Rec.op (I := I))).length := by simpa [tx] using h
    rw [tx, List.take_succ_cons, List.take_append_of_le_length hn, ← List.map_take, run_unfinished]

/-- Outside a transaction, operations take effect until one is opened. -/
theorem run_idle {a : List E} {B : List (Rec I E)} (ho : ∀ id, .opening id ∉ B) :
    Reader.run ⟨a, none, []⟩ B = ⟨a ++ ops B, none, []⟩ := by
  induction B generalizing a with
  | nil => simp [ops]
  | cons x B ih =>
    have ho' : ∀ id, .opening id ∉ B := fun id h => ho id (List.mem_cons_of_mem _ h)
    rw [run_cons]
    cases x with
    | opening id => exact absurd List.mem_cons_self (ho id)
    | commit id => simpa [step, ops] using ih ho'
    | op e => simpa [step, ops] using ih (a := a ++ [e]) ho'

/-- **The operations since the last opening take effect** if its transaction is committed. -/
theorem run_committed (r : Reader I E) {id : I} {B : List (Rec I E)} (ho : ∀ id', .opening id' ∉ B)
    (hc : .commit id ∈ B) : r.run (.opening id :: B) = ⟨r.applied ++ ops B, none, []⟩ := by
  have hopen : ∀ b, Reader.run ⟨r.applied, some id, b⟩ B = ⟨r.applied ++ (b ++ ops B), none, []⟩ := by
    induction B with
    | nil => cases hc
    | cons x B ih =>
      intro b
      have ho' : ∀ id', .opening id' ∉ B := fun id' h => ho id' (List.mem_cons_of_mem _ h)
      rw [run_cons]
      cases x with
      | opening id' => exact absurd List.mem_cons_self (ho id')
      | commit id' =>
        by_cases hid : id = id'
        · have hstep : Reader.step ⟨r.applied, some id, b⟩ (.commit id') =
              ⟨r.applied ++ b, none, []⟩ := by simp [step, hid]
          rw [hstep, run_idle ho', List.append_assoc]
          rfl
        · have hstep : Reader.step ⟨r.applied, some id, b⟩ (.commit id') =
              ⟨r.applied, some id, b⟩ := by simp [step, hid]
          rw [hstep, ih ho' (by simpa [hid] using hc)]
          rfl
      | op e =>
        have hstep : Reader.step ⟨r.applied, some id, b⟩ (.op e) =
            ⟨r.applied, some id, b ++ [e]⟩ := by simp [step]
        rw [hstep, ih ho' (by simpa using hc)]
        simp [ops]
  rw [run_cons]
  exact hopen []

/-- Nothing takes effect while a transaction stays open. -/
theorem applied_run_uncommitted (r : Reader I E) {id : I} {B : List (Rec I E)}
    (ho : ∀ id', .opening id' ∉ B) (hc : .commit id ∉ B) :
    (r.run (.opening id :: B)).applied = r.applied := by
  have hopen : ∀ b, (Reader.run ⟨r.applied, some id, b⟩ B).applied = r.applied := by
    induction B with
    | nil => exact fun _ => rfl
    | cons x B ih =>
      intro b
      have ih := ih (fun id' h => ho id' (List.mem_cons_of_mem _ h))
        (fun h => hc (List.mem_cons_of_mem _ h))
      rw [run_cons]
      cases x with
      | opening id' => exact absurd List.mem_cons_self (ho id')
      | commit id' =>
        have hid : id ≠ id' := fun h => hc (h ▸ List.mem_cons_self)
        simpa [step, hid] using ih b
      | op e => simpa [step] using ih (b ++ [e])
  rw [run_cons]
  exact hopen []

/-- What took effect before stays. -/
theorem run_applied (r : Reader I E) (L : List (Rec I E)) :
    (r.run L).applied = r.applied ++ (Reader.run { r with applied := [] } L).applied := by
  induction L generalizing r with
  | nil => simp
  | cons x L ih =>
    have hstep : ∃ es, (r.step x).applied = r.applied ++ es ∧
        Reader.step { r with applied := [] } x = { r.step x with applied := es } := by
      cases x with
      | opening id => exact ⟨[], by simp [step], rfl⟩
      | commit id =>
        by_cases h : r.active = some id
        · exact ⟨r.buffer, by simp [step, h], by simp [step, h]⟩
        · exact ⟨[], by simp [step, h], by simp [step, h]⟩
      | op e =>
        by_cases h : r.active.isSome
        · exact ⟨[], by simp [step, h], by simp [step, h]⟩
        · exact ⟨[e], by simp [step, h], by simp [step, h]⟩
    obtain ⟨es, h1, h2⟩ := hstep
    have ih2 := ih { r.step x with applied := es }
    rw [run_cons, run_cons, h2, ih (r.step x), ih2, h1, List.append_assoc]

theorem mem_step {r : Reader I E} {x : Rec I E} {e : E}
    (h : e ∈ (r.step x).applied ∨ e ∈ (r.step x).buffer) :
    e ∈ r.applied ∨ e ∈ r.buffer ∨ x = .op e := by
  cases x with
  | opening id => simp only [step, List.not_mem_nil, or_false] at h; exact Or.inl h
  | commit id =>
    by_cases ha : r.active = some id
    · simp only [step, ha, if_true, List.mem_append, List.not_mem_nil, or_false] at h
      tauto
    · simp only [step, ha, if_false] at h
      tauto
  | op e' =>
    by_cases ha : r.active.isSome <;>
      simp only [step, ha, if_true, List.mem_append, List.mem_singleton] at h <;>
      rcases h with h | h <;> simp_all <;> tauto

/-- Only operations of the journal take effect or are buffered. -/
theorem mem_run (r : Reader I E) (L : List (Rec I E)) {e : E}
    (h : e ∈ (r.run L).applied ∨ e ∈ (r.run L).buffer) :
    e ∈ r.applied ∨ e ∈ r.buffer ∨ .op e ∈ L := by
  induction L generalizing r with
  | nil => rcases h with h | h <;> simp_all
  | cons x L ih =>
    rcases ih (r.step x) h with h | h | h
    · rcases mem_step (Or.inl h) with h | h | rfl <;> simp_all
    · rcases mem_step (Or.inr h) with h | h | rfl <;> simp_all
    · exact Or.inr (Or.inr (List.mem_cons_of_mem _ h))

end Reader

theorem mem_effects {L : List (Rec I E)} {e : E} (h : e ∈ effects L) : .op e ∈ L := by
  simpa [Reader.start] using Reader.start.mem_run L (Or.inl h)

theorem effects_append_tx (L : List (Rec I E)) (id : I) (ops : List E) :
    effects (L ++ tx id ops) = effects L ++ ops := by
  rw [effects, Reader.run_append, Reader.run_tx]; rfl

/-- A record, its operation renamed. -/
def Rec.map {F : Type} (f : E → F) : Rec I E → Rec I F
  | .opening id => .opening id
  | .commit id => .commit id
  | .op e => .op (f e)

theorem Reader.run_map {F : Type} (f : E → F) (r : Reader I E) (L : List (Rec I E)) :
    Reader.run ⟨r.applied.map f, r.active, r.buffer.map f⟩ (L.map (Rec.map f)) =
      ⟨(r.run L).applied.map f, (r.run L).active, (r.run L).buffer.map f⟩ := by
  induction L generalizing r with
  | nil => rfl
  | cons x L ih =>
    have hstep : Reader.step ⟨r.applied.map f, r.active, r.buffer.map f⟩ (x.map f) =
        ⟨(r.step x).applied.map f, (r.step x).active, (r.step x).buffer.map f⟩ := by
      cases x with
      | opening id => rfl
      | commit id => by_cases h : r.active = some id <;> simp [Reader.step, Rec.map, h]
      | op e => by_cases h : r.active.isSome <;> simp [Reader.step, Rec.map, h]
    rw [List.map_cons, run_cons, run_cons, hstep, ih]

/-- **What takes effect does not depend on the operations.** -/
theorem effects_map {F : Type} (f : E → F) (L : List (Rec I E)) :
    effects (L.map (Rec.map f)) = (effects L).map f := by
  have h := Reader.run_map f Reader.start L
  rw [effects, effects]
  exact congrArg Reader.applied h

end Journal
