/-
  Files of records, each framed by a four-byte length.

  A reader takes records off the front until a frame is not whole.  A file cut at
  any byte still yields its whole records (`frames_take`); what is appended to it is
  read back too if the cut is on the boundary of a record (`frames_flatMap`), and
  is swallowed by a torn record that it does not fill (`frames_torn_append`).
-/
import MoltenDB.Lib.Bytes

namespace Wire

/-- A record with its length, modulo `2 ^ 32`, in front. -/
def frame (p : Bytes) : Bytes := leBytes 4 p.length ++ p

/-- The record at the front of `buf`, if it is whole. -/
def readFrame (buf : Bytes) : Option (Bytes × Bytes) := do
  let (hdr, rest) ← takeN 4 buf
  takeN (ofLe hdr) rest

/-- The whole records at the front of `buf`, at most `fuel` of them. -/
def readFrames : ℕ → Bytes → List Bytes
  | 0, _ => []
  | fuel + 1, buf =>
    match readFrame buf with
    | some (p, rest) => p :: readFrames fuel rest
    | none => []

/-- The whole records at the front of `buf`. -/
def frames (buf : Bytes) : List Bytes := readFrames buf.length buf

theorem length_frame (p : Bytes) : (frame p).length = 4 + p.length := by simp [frame]

theorem readFrame_eq_some {buf p rest : Bytes} (h : readFrame buf = some (p, rest)) :
    ∃ hdr, buf = hdr ++ (p ++ rest) ∧ hdr.length = 4 ∧ p.length = ofLe hdr := by
  obtain ⟨⟨hdr, tail⟩, h1, h2⟩ := Option.bind_eq_some_iff.1 h
  obtain ⟨rfl, hlen⟩ := takeN_eq_some.1 h1
  obtain ⟨rfl, hp⟩ := takeN_eq_some.1 h2
  exact ⟨hdr, rfl, hlen, hp⟩

/-- A record of the length that the four bytes in front of it give is read. -/
theorem readFrame_append {hdr p : Bytes} (hhdr : hdr.length = 4) (hp : p.length = ofLe hdr)
    (rest : Bytes) : readFrame (hdr ++ (p ++ rest)) = some (p, rest) := by
  rw [readFrame, takeN_append hhdr, Option.bind_eq_bind, Option.bind_some]
  exact takeN_append hp rest

/-- A record that is shorter than announced is not read. -/
theorem readFrame_of_lt {hdr rest : Bytes} (hhdr : hdr.length = 4)
    (h : rest.length < ofLe hdr) : readFrame (hdr ++ rest) = none := by
  rw [readFrame, takeN_append hhdr, Option.bind_eq_bind, Option.bind_some]
  exact if_neg (by omega)

theorem readFrame_frame {p : Bytes} (h : p.length < 2 ^ 32) (rest : Bytes) :
    readFrame (frame p ++ rest) = some (p, rest) := by
  rw [frame, List.append_assoc]
  refine readFrame_append (by simp) ?_ rest
  rw [ofLe_leBytes, Nat.mod_eq_of_lt (by norm_num at h ⊢; omega)]

/-- More fuel than bytes changes nothing. -/
theorem readFrames_eq {fuel : ℕ} {buf : Bytes} (h : buf.length ≤ fuel) :
    readFrames fuel buf = frames buf := by
  suffices hind : ∀ n, ∀ buf : Bytes, buf.length ≤ n → ∀ fuel, buf.length ≤ fuel →
      ∀ fuel', buf.length ≤ fuel' → readFrames fuel buf = readFrames fuel' buf from
    hind _ buf le_rfl _ h _ le_rfl
  intro n
  induction n with
  | zero =>
    intro buf hbuf fuel _ fuel' _
    obtain rfl : buf = [] := List.eq_nil_of_length_eq_zero (by omega)
    cases fuel <;> cases fuel' <;> rfl
  | succ n ih =>
    intro buf hbuf fuel hf fuel' hf'
    cases hr : readFrame buf with
    | none => cases fuel <;> cases fuel' <;> simp [readFrames, hr]
    | some r =>
      obtain ⟨p, rest⟩ := r
      obtain ⟨hdr, rfl, hhdr, -⟩ := readFrame_eq_some hr
      simp only [List.length_append, hhdr] at hbuf hf hf'
      obtain ⟨fuel, rfl⟩ : ∃ m, fuel = m + 1 := ⟨fuel - 1, by omega⟩
      obtain ⟨fuel', rfl⟩ : ∃ m, fuel' = m + 1 := ⟨fuel' - 1, by omega⟩
      simp only [readFrames, hr]
      rw [ih rest (by omega) fuel (by omega) fuel' (by omega)]

theorem frames_of_some {buf p rest : Bytes} (h : readFrame buf = some (p, rest)) :
    frames buf = p :: frames rest := by
  obtain ⟨hdr, hbuf, hhdr, -⟩ := readFrame_eq_some h
  have hlen : buf.length = 4 + (p.length + rest.length) := by rw [hbuf]; simp [hhdr]
  rw [frames, show buf.length = (3 + (p.length + rest.length)) + 1 by omega, readFrames, h]
  dsimp only
  rw [readFrames_eq (by omega)]

theorem frames_of_none {buf : Bytes} (h : readFrame buf = none) : frames buf = [] := by
  rw [frames]
  cases buf.length <;> simp [readFrames, h]

@[simp] theorem frames_nil : frames [] = [] := rfl

/-- **Whole records are read back**, and then what comes after them. -/
theorem frames_flatMap {ps : List Bytes} (h : ∀ p ∈ ps, p.length < 2 ^ 32) (rest : Bytes) :
    frames (ps.flatMap frame ++ rest) = ps ++ frames rest := by
  induction ps with
  | nil => rfl
  | cons p ps ih =>
    rw [List.flatMap_cons, List.append_assoc,
      frames_of_some (readFrame_frame (h p List.mem_cons_self) _),
      ih fun q hq => h q (List.mem_cons_of_mem _ hq)]
    rfl

/-! ## Cut files -/

/-- How many records are whole in the first `n` bytes. -/
def whole : List Bytes → ℕ → ℕ
  | [], _ => 0
  | p :: ps, n => if (frame p).length ≤ n then whole ps (n - (frame p).length) + 1 else 0

/-- What is left of a record that is cut by the first `n` bytes. -/
def torn : List Bytes → ℕ → Bytes
  | [], _ => []
  | p :: ps, n => if (frame p).length ≤ n then torn ps (n - (frame p).length) else (frame p).take n

theorem take_eq (ps : List Bytes) (n : ℕ) :
    (ps.flatMap frame).take n = (ps.take (whole ps n)).flatMap frame ++ torn ps n := by
  induction ps generalizing n with
  | nil => simp [torn]
  | cons p ps ih =>
    rw [List.flatMap_cons, List.take_append]
    by_cases h : (frame p).length ≤ n
    · rw [whole, torn, if_pos h, if_pos h, List.take_of_length_le h, ih, List.take_succ_cons,
        List.flatMap_cons, List.append_assoc]
    · rw [whole, torn, if_neg h, if_neg h, Nat.sub_eq_zero_of_le (by omega)]
      simp

/-- What is left of a record is not read. -/
theorem readFrame_torn {ps : List Bytes} (h : ∀ p ∈ ps, p.length < 2 ^ 32) (n : ℕ) :
    readFrame (torn ps n) = none := by
  induction ps generalizing n with
  | nil => rfl
  | cons p ps ih =>
    rw [torn]
    split_ifs with hn
    · exact ih (fun q hq => h q (List.mem_cons_of_mem _ hq)) _
    · cases hr : readFrame ((frame p).take n) with
      | none => rfl
      | some r =>
        obtain ⟨q, rest⟩ := r
        have hp := h p List.mem_cons_self
        obtain ⟨hdr, heq, hhdr, hq⟩ := readFrame_eq_some hr
        have hlen := congrArg List.length heq
        simp only [List.length_take, List.length_append, hhdr] at hlen
        have hpre : hdr = leBytes 4 p.length := by
          have h4 := congrArg (List.take 4) heq
          rw [List.take_take, List.take_append_of_le_length (by omega), frame,
            Nat.min_eq_left (by omega), List.take_append_of_le_length (by simp),
            List.take_of_length_le (by simp), List.take_of_length_le (by omega)] at h4
          exact h4.symm
        rw [hpre, ofLe_leBytes, Nat.mod_eq_of_lt (by norm_num at hp ⊢; omega)] at hq
        rw [length_frame] at hlen hn
        omega

theorem whole_append (ps qs : List Bytes) (n : ℕ) :
    whole (ps ++ qs) n = if (ps.flatMap frame).length ≤ n
      then ps.length + whole qs (n - (ps.flatMap frame).length) else whole ps n := by
  induction ps generalizing n with
  | nil => simp
  | cons p ps ih =>
    rw [List.cons_append, whole, whole, ih, List.flatMap_cons, List.length_append]
    by_cases h : (frame p).length ≤ n
    · rw [if_pos h, if_pos h]
      by_cases h' : (ps.flatMap frame).length ≤ n - (frame p).length
      · rw [if_pos h', if_pos (by omega), List.length_cons, Nat.sub_sub]
        omega
      · rw [if_neg h', if_neg (by omega)]
    · rw [if_neg h, if_neg h, if_neg (by omega)]

/-- A cut before the end leaves fewer records. -/
theorem whole_lt (ps : List Bytes) {n : ℕ} (h : n < (ps.flatMap frame).length) :
    whole ps n < ps.length := by
  induction ps generalizing n with
  | nil => simp at h
  | cons p ps ih =>
    rw [List.flatMap_cons, List.length_append] at h
    rw [whole, List.length_cons]
    split_ifs with hp
    · have := ih (n := n - (frame p).length) (by omega)
      omega
    · omega

/-- What is left of a record is a part of it. -/
theorem torn_prefix {ps : List Bytes} {n : ℕ} {p : Bytes} (h : ps[whole ps n]? = some p) :
    torn ps n <+: frame p := by
  induction ps generalizing n with
  | nil => simp at h
  | cons q ps ih =>
    rw [torn]
    rw [whole] at h
    split_ifs at h ⊢ with hq
    · exact ih (by simpa using h)
    · obtain rfl : q = p := by simpa using h
      exact List.take_prefix _ _

/-- **A torn record swallows what is appended**, as long as that does not fill it. -/
theorem frames_torn_append {p t rest : Bytes} (hp : p.length < 2 ^ 32) (ht : t <+: frame p)
    (h4 : 4 ≤ t.length) (hlen : t.length + rest.length < (frame p).length) :
    frames (t ++ rest) = [] := by
  obtain ⟨u, hu⟩ := ht
  obtain ⟨hdr, t', rfl, hhdr⟩ : ∃ hdr t', t = hdr ++ t' ∧ hdr.length = 4 :=
    ⟨t.take 4, t.drop 4, by simp, by simp [h4]⟩
  have hpre : hdr = leBytes 4 p.length := by
    rw [frame, List.append_assoc] at hu
    exact (List.append_inj hu (by simp [hhdr])).1
  rw [List.append_assoc]
  refine frames_of_none (readFrame_of_lt hhdr ?_)
  rw [hpre, ofLe_leBytes, Nat.mod_eq_of_lt (by norm_num at hp ⊢; omega)]
  simp only [List.length_append, hhdr, length_frame] at hlen ⊢
  omega

end Wire
