/-
  Reading a buffer at a position.

  A read outside the buffer or a position that does not fit a machine word is a panic, which is told
  apart from a reader that finds nothing to read. `Reads` relates a reader at a position with a
  reader of the bytes from there on, and is kept by the operations that readers are made of: what is
  so related never panics.
-/
import MoltenDB.Lib.Bytes

namespace Buffer

open Wire

/-! ## Outcomes -/

/-- How a reader ends: with a result, without one, stopped by a panic, or out of fuel. -/
inductive Res (α : Type)
  | ok (a : α)
  | none
  | panic
  | outOfFuel

namespace Res

variable {α β : Type}

def bind (r : Res α) (f : α → Res β) : Res β :=
  match r with
  | ok a => f a
  | none => none
  | panic => panic
  | outOfFuel => outOfFuel

instance : Monad Res where
  pure := ok
  bind := bind

@[simp] theorem ok_bind (a : α) (f : α → Res β) : ((ok a : Res α) >>= f) = f a := rfl

def ofOption : Option α → Res α
  | some a => ok a
  | Option.none => none

/-- Go on without a result. -/
def attempt (r : Res α) : Res (Option α) :=
  match r with
  | ok a => ok (some a)
  | none => ok Option.none
  | panic => panic
  | outOfFuel => outOfFuel

@[simp] theorem attempt_ofOption (o : Option α) : (ofOption o).attempt = ok o := by
  cases o <;> rfl

/-- The reader ends, and not by a panic. -/
def Safe (r : Res α) : Prop := r ≠ panic ∧ r ≠ outOfFuel

theorem safe_ofOption (o : Option α) : (ofOption o).Safe := by
  cases o <;> constructor <;> rintro ⟨⟩

theorem safe_ok (a : α) : (ok a).Safe := by
  constructor <;> rintro ⟨⟩

end Res

/-! ## Operations -/

/-- A position, as a machine word. -/
def advance (pos n : ℕ) : Res ℕ := if pos + n < 2 ^ 64 then .ok (pos + n) else .panic

/-- A difference of machine words. -/
def sub (m n : ℕ) : Res ℕ := if n ≤ m then .ok (m - n) else .panic

variable (buf : Bytes)

/-- The byte at a position that must be there. -/
def index (pos : ℕ) : Res UInt8 :=
  match buf[pos]? with
  | some b => .ok b
  | none => .panic

/-- The byte at a position, if there is one. -/
def get (pos : ℕ) : Res UInt8 := .ofOption buf[pos]?

/-- The bytes between two positions. -/
def slice (start stop : ℕ) : Res Bytes :=
  if start ≤ stop ∧ stop ≤ buf.length then .ok ((buf.drop start).take (stop - start)) else .panic

/-- `w` bytes, each at its position. -/
def indexes (pos : ℕ) : ℕ → Res Bytes
  | 0 => .ok []
  | w + 1 => do
    let b ← index buf pos
    let bs ← indexes (pos + 1) w
    return b :: bs

/-- A big-endian integer of one byte, of eight bytes that are sliced, or of bytes that are read one
    by one. -/
def readBe (w pos : ℕ) : Res (ℕ × ℕ) :=
  if w = 1 then do
    let b ← get buf pos
    let pos ← advance pos 1
    return (b.toNat, pos)
  else do
    let stop ← advance pos w
    if buf.length < stop then .none
    else do
      let bytes ← if w = 8 then slice buf pos stop else indexes buf pos w
      return (ofBe bytes, stop)

/-- A text of `len` bytes. -/
def readUtf8 (len pos : ℕ) : Res (String × ℕ) := do
  let stop ← advance pos len
  if buf.length < stop then .none
  else do
    let bytes ← slice buf pos stop
    let s ← Res.ofOption (fromUtf8 bytes)
    let pos ← advance pos len
    return (s, pos)

/-- `n` items, one after another. -/
def readSeq {α : Type} (rd : ℕ → Res (α × ℕ)) : ℕ → ℕ → Res (List α × ℕ)
  | 0, pos => .ok ([], pos)
  | n + 1, pos => do
    let (x, pos) ← rd pos
    let (xs, pos) ← readSeq rd n pos
    return (x :: xs, pos)

/-! ## Readers of the bytes from a position on -/

variable {α β : Type}

/-- The reader ends as the one of the bytes does: without a result, or with the same one, at a
    position from which the same bytes are left, that is not before `start` and not more than `k`
    past the end. -/
def Reads (start k : ℕ) (r : Res (α × ℕ)) (o : Option (α × Bytes)) : Prop :=
  match o with
  | none => r = .none
  | some (a, rest) => ∃ pos, r = .ok (a, pos) ∧ rest = buf.drop pos ∧ start ≤ pos ∧
      pos ≤ buf.length + k

variable {buf} {start k pos : ℕ} {r : Res (α × ℕ)} {o : Option (α × Bytes)}

theorem Reads.from_le {start' : ℕ} (h : Reads buf start k r o) (hle : start' ≤ start) :
    Reads buf start' k r o := by
  cases o with
  | none => exact h
  | some p =>
    obtain ⟨pos, hr, hrest, hstart, hpos⟩ := h
    exact ⟨pos, hr, hrest, hle.trans hstart, hpos⟩

theorem reads_pure (a : α) (hstart : start ≤ pos) (hpos : pos ≤ buf.length + k) :
    Reads buf start k (.ok (a, pos)) (some (a, buf.drop pos)) :=
  ⟨pos, rfl, rfl, hstart, hpos⟩

/-- **Readers one after another.** -/
theorem Reads.bind (h : Reads buf start k r o) {k' : ℕ} {f : α × ℕ → Res (β × ℕ)}
    {g : α × Bytes → Option (β × Bytes)}
    (hf : ∀ a pos, o = some (a, buf.drop pos) → start ≤ pos → pos ≤ buf.length + k →
      Reads buf start k' (f (a, pos)) (g (a, buf.drop pos))) :
    Reads buf start k' (r >>= f) (o >>= g) := by
  cases o with
  | none =>
    rw [show r = .none from h]
    rfl
  | some p =>
    obtain ⟨pos, rfl, hrest, hstart, hle⟩ := h
    obtain ⟨a, rest⟩ := p
    dsimp only at hrest
    subst hrest
    exact hf a pos rfl hstart hle

/-- A reader, and then what is made of its result. -/
theorem Reads.bind_ofOption (h : Reads buf start k r o) {f : α × ℕ → Res β}
    {g : α × Bytes → Option β}
    (hf : ∀ a pos, o = some (a, buf.drop pos) → start ≤ pos → pos ≤ buf.length + k →
      f (a, pos) = .ofOption (g (a, buf.drop pos))) :
    (r >>= f) = .ofOption (o >>= g) := by
  cases o with
  | none =>
    rw [show r = .none from h]
    rfl
  | some p =>
    obtain ⟨pos, rfl, hrest, hstart, hle⟩ := h
    obtain ⟨a, rest⟩ := p
    dsimp only at hrest
    subst hrest
    exact hf a pos rfl hstart hle

/-- A step that reads nothing, and then a reader. -/
theorem reads_ofOption_bind (o : Option α) {f : α → Res (β × ℕ)} {g : α → Option (β × Bytes)}
    (hf : ∀ a, Reads buf start k (f a) (g a)) :
    Reads buf start k (Res.ofOption o >>= f) (o >>= g) := by
  cases o with
  | none => rfl
  | some a => exact hf a

/-! ## The operations -/

theorem advance_eq {n : ℕ} (h : pos + n < 2 ^ 64) : advance pos n = .ok (pos + n) := if_pos h

theorem sub_eq {m n : ℕ} (h : n ≤ m) : sub m n = .ok (m - n) := if_pos h

theorem index_eq (h : pos < buf.length) : index buf pos = .ok buf[pos] := by
  rw [index, List.getElem?_eq_getElem h]

theorem slice_eq {stop : ℕ} (hle : pos ≤ stop) (hstop : stop ≤ buf.length) :
    slice buf pos stop = .ok ((buf.drop pos).take (stop - pos)) := if_pos ⟨hle, hstop⟩

theorem indexes_eq {w : ℕ} (h : pos + w ≤ buf.length) :
    indexes buf pos w = .ok ((buf.drop pos).take w) := by
  induction w generalizing pos with
  | zero => rfl
  | succ w ih =>
    rw [indexes, index_eq (by omega), Res.ok_bind, ih (by omega), Res.ok_bind,
      List.drop_eq_getElem_cons (show pos < buf.length by omega), List.take_succ_cons]
    rfl

theorem takeN_drop_of_lt {w : ℕ} (hw : 0 < w ∨ pos ≤ buf.length) (h : buf.length < pos + w) :
    takeN w (buf.drop pos) = none := by
  rw [takeN, List.length_drop, if_neg (by omega)]

theorem takeN_drop {w : ℕ} (h : pos + w ≤ buf.length) :
    takeN w (buf.drop pos) = some ((buf.drop pos).take w, buf.drop (pos + w)) := by
  rw [takeN, List.length_drop, if_pos (by omega), List.drop_drop]

/-- **An integer is read at a position as from the bytes.** -/
theorem reads_readBe {w : ℕ} (hw : 0 < w) (hpos : pos + w < 2 ^ 64) :
    Reads buf pos 0 (readBe buf w pos) (Wire.readBe w (buf.drop pos)) := by
  rw [Wire.readBe, readBe]
  by_cases hlen : buf.length < pos + w
  · rw [takeN_drop_of_lt (Or.inl hw) hlen]
    by_cases hone : w = 1
    · have hget : get buf pos = .none := by
        rw [get, List.getElem?_eq_none (by omega)]
        rfl
      rw [if_pos hone, hget]
      rfl
    · rw [if_neg hone, advance_eq hpos, Res.ok_bind, if_pos hlen]
      rfl
  · have hle : pos + w ≤ buf.length := not_lt.1 hlen
    rw [takeN_drop hle]
    refine ⟨pos + w, ?_, rfl, by omega, by omega⟩
    by_cases hone : w = 1
    · subst hone
      have hget : get buf pos = .ok buf[pos] := by
        rw [get, List.getElem?_eq_getElem (by omega)]
        rfl
      have htake : (buf.drop pos).take 1 = [buf[pos]] := by
        rw [List.drop_eq_getElem_cons (show pos < buf.length by omega)]
        rfl
      have hbyte : ofBe [buf[pos]] = buf[pos].toNat := by simp [ofBe, ofLe]
      rw [if_pos rfl, hget, Res.ok_bind, advance_eq hpos, Res.ok_bind, htake, hbyte]
      rfl
    · rw [if_neg hone, advance_eq hpos, Res.ok_bind, if_neg hlen]
      by_cases height : w = 8
      · rw [if_pos height, slice_eq (by omega) hle, Nat.add_sub_cancel_left]
        rfl
      · rw [if_neg height, indexes_eq hle]
        rfl

/-- **A text is read at a position as from the bytes.** -/
theorem reads_readUtf8 {len : ℕ} (hpos : pos ≤ buf.length) (hlen : pos + len < 2 ^ 64) :
    Reads buf pos 0 (readUtf8 buf len pos) (Wire.readUtf8 len (buf.drop pos)) := by
  rw [Wire.readUtf8, readUtf8, advance_eq hlen, Res.ok_bind]
  by_cases hlt : buf.length < pos + len
  · rw [if_pos hlt, takeN_drop_of_lt (Or.inr hpos) hlt]
    rfl
  · rw [if_neg hlt, takeN_drop (not_lt.1 hlt), slice_eq (by omega) (not_lt.1 hlt), Res.ok_bind,
      Nat.add_sub_cancel_left]
    refine reads_ofOption_bind _ fun s => ?_
    rw [Res.ok_bind]
    exact reads_pure s (by omega) (by omega)

/-- **Items are read at positions as from the bytes**, if each of them is. -/
theorem reads_readSeq {rd : ℕ → Res (α × ℕ)} {rd' : Bytes → Option (α × Bytes)}
    (hrd : ∀ pos, start ≤ pos → pos ≤ buf.length + k →
      Reads buf pos k (rd pos) (rd' (buf.drop pos))) (n : ℕ) (hstart : start ≤ pos)
    (hpos : pos ≤ buf.length + k) :
    Reads buf pos k (readSeq rd n pos) (Wire.readSeq rd' n (buf.drop pos)) := by
  induction n generalizing pos with
  | zero => exact reads_pure [] le_rfl hpos
  | succ n ih =>
    refine (hrd pos hstart hpos).bind fun x pos₁ _ hle₁ hpos₁ => ?_
    refine ((ih (hstart.trans hle₁) hpos₁).from_le hle₁).bind fun xs pos₂ _ hle₂ hpos₂ => ?_
    exact reads_pure (x :: xs) hle₂ hpos₂

end Buffer
