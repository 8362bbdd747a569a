/-
  Byte strings: fixed-width integers in either byte order, and UTF-8 text.
-/
import Mathlib.Tactic

namespace Wire

abbrev Bytes := List UInt8

/-- A property of bytes is checked byte by byte. -/
theorem forall_byte {p : UInt8 → Prop} (h : ∀ n < 256, p (UInt8.ofNat n)) (byte : UInt8) :
    p byte := by
  have hbyte := h byte.toNat byte.toNat_lt
  rwa [UInt8.ofNat_toNat] at hbyte

/-! ## Fixed-width integers -/

/-- The `w` low-order bytes of `n`, least significant first. -/
def leBytes : ℕ → ℕ → Bytes
  | 0, _ => []
  | w + 1, n => UInt8.ofNat n :: leBytes w (n / 256)

/-- The number with the little-endian bytes `bs`. -/
def ofLe : Bytes → ℕ
  | [] => 0
  | b :: bs => b.toNat + 256 * ofLe bs

/-- The `w` low-order bytes of `n`, most significant first. -/
def beBytes (w n : ℕ) : Bytes := (leBytes w n).reverse

/-- The number with the big-endian bytes `bs`. -/
def ofBe (bs : Bytes) : ℕ := ofLe bs.reverse

@[simp] theorem length_leBytes (w n : ℕ) : (leBytes w n).length = w := by
  induction w generalizing n with
  | zero => rfl
  | succ w ih => simp [leBytes, ih]

@[simp] theorem length_beBytes (w n : ℕ) : (beBytes w n).length = w := by simp [beBytes]

theorem ofLe_leBytes (w n : ℕ) : ofLe (leBytes w n) = n % 256 ^ w := by
  induction w generalizing n with
  | zero => simp [leBytes, ofLe, Nat.mod_one]
  | succ w ih =>
    simp only [leBytes, ofLe, ih, UInt8.toNat_ofNat']
    rw [show (256 : ℕ) ^ (w + 1) = 256 * 256 ^ w from Nat.pow_succ', Nat.mod_mul]

theorem ofBe_beBytes (w n : ℕ) : ofBe (beBytes w n) = n % 256 ^ w := by
  rw [ofBe, beBytes, List.reverse_reverse, ofLe_leBytes]

theorem ofLe_lt (bs : Bytes) : ofLe bs < 256 ^ bs.length := by
  induction bs with
  | nil => simp [ofLe]
  | cons b bs ih =>
    have hb := b.toNat_lt
    simp only [ofLe, List.length_cons, Nat.pow_succ']
    omega

theorem ofBe_lt (bs : Bytes) : ofBe bs < 256 ^ bs.length := by
  simpa [ofBe] using ofLe_lt bs.reverse

/-! ## Reading a prefix -/

/-- Split off the first `w` bytes, if there are that many. -/
def takeN (w : ℕ) (bs : Bytes) : Option (Bytes × Bytes) :=
  if w ≤ bs.length then some (bs.take w, bs.drop w) else none

@[simp] theorem takeN_append {w : ℕ} {bs : Bytes} (h : bs.length = w) (rest : Bytes) :
    takeN w (bs ++ rest) = some (bs, rest) := by
  subst h; simp [takeN]

theorem takeN_eq_some {w : ℕ} {bs pre rest : Bytes} :
    takeN w bs = some (pre, rest) ↔ bs = pre ++ rest ∧ pre.length = w := by
  unfold takeN
  split_ifs with h
  · simp only [Option.some.injEq, Prod.mk.injEq]
    constructor
    · rintro ⟨rfl, rfl⟩; simp [h]
    · rintro ⟨rfl, rfl⟩; simp
  · simp only [false_iff]
    rintro ⟨rfl, rfl⟩; simp at h

/-- A big-endian integer of `w` bytes at the front of `bs`. -/
def readBe (w : ℕ) (bs : Bytes) : Option (ℕ × Bytes) := do
  let (pre, rest) ← takeN w bs
  return (ofBe pre, rest)

@[simp] theorem readBe_beBytes (w n : ℕ) (rest : Bytes) :
    readBe w (beBytes w n ++ rest) = some (n % 256 ^ w, rest) := by
  simp [readBe, ofBe_beBytes]

theorem readBe_eq_some {w n : ℕ} {bs rest : Bytes} (h : readBe w bs = some (n, rest)) :
    ∃ pre, bs = pre ++ rest ∧ pre.length = w ∧ n = ofBe pre := by
  simp only [readBe, Option.bind_eq_bind, Option.bind_eq_some_iff, Prod.exists] at h
  obtain ⟨pre, rest', h1, h2⟩ := h
  obtain ⟨h3, h4⟩ := takeN_eq_some.1 h1
  simp only [Option.pure_def, Option.some.injEq, Prod.mk.injEq] at h2
  obtain ⟨rfl, rfl⟩ := h2
  exact ⟨pre, h3, h4, rfl⟩

/-- The two's complement bytes of `i`, most significant first. -/
def beInt (w : ℕ) (i : ℤ) : Bytes := beBytes w (i % 256 ^ w).toNat

/-- A big-endian two's complement integer of `w` bytes at the front of `bs`. -/
def readInt (w : ℕ) (bs : Bytes) : Option (ℤ × Bytes) := do
  let (n, rest) ← readBe w bs
  return ((n : ℤ).bmod (256 ^ w), rest)

@[simp] theorem length_beInt (w : ℕ) (i : ℤ) : (beInt w i).length = w := by simp [beInt]

theorem readInt_beInt {w : ℕ} {i : ℤ} (h : -256 ^ w ≤ 2 * i ∧ 2 * i < 256 ^ w) (rest : Bytes) :
    readInt w (beInt w i ++ rest) = some (i, rest) := by
  have hpos : (0 : ℤ) < 256 ^ w := by positivity
  have hlt : i % 256 ^ w < 256 ^ w := Int.emod_lt_of_pos i hpos
  have hcast : (((i % 256 ^ w).toNat % 256 ^ w : ℕ) : ℤ) = i % 256 ^ w := by
    push_cast
    rw [Int.toNat_of_nonneg (Int.emod_nonneg i hpos.ne'), Int.emod_emod_of_dvd _ (dvd_refl _)]
  have hmod : (i % 256 ^ w).bmod (256 ^ w) = i := by
    rw [show i % (256 : ℤ) ^ w = i % ((256 ^ w : ℕ) : ℤ) by push_cast; rfl, Int.emod_bmod]
    exact Int.bmod_eq_of_le_mul_two (by push_cast; omega) (by push_cast; omega)
  simp [readInt, beInt, hcast, hmod]

/-! ## Text -/

/-- The UTF-8 bytes of a string. -/
def utf8 (s : String) : Bytes := s.toByteArray.data.toList

/-- The string with the UTF-8 bytes `bs`, if they are valid. -/
def fromUtf8 (bs : Bytes) : Option String := String.fromUTF8? ⟨bs.toArray⟩

@[simp] theorem fromUtf8_utf8 (s : String) : fromUtf8 (utf8 s) = some s := by
  have hb : (⟨(utf8 s).toArray⟩ : ByteArray) = s.toByteArray := by simp [utf8]
  rw [fromUtf8, hb, String.fromUTF8?, dif_pos s.isValidUTF8]
  rfl

/-- A text of `w` bytes at the front of `bs`. -/
def readUtf8 (w : ℕ) (bs : Bytes) : Option (String × Bytes) := do
  let (pre, rest) ← takeN w bs
  let s ← fromUtf8 pre
  return (s, rest)

theorem utf8_injective {a b : String} (h : utf8 a = utf8 b) : a = b := by
  have h1 := fromUtf8_utf8 a
  rw [h, fromUtf8_utf8] at h1
  exact (Option.some.inj h1).symm

theorem readUtf8_utf8 (s : String) (rest : Bytes) :
    readUtf8 (utf8 s).length (utf8 s ++ rest) = some (s, rest) := by
  simp [readUtf8]

theorem utf8_fromUtf8 {bs : Bytes} {s : String} (h : fromUtf8 bs = some s) : utf8 s = bs := by
  rw [fromUtf8, String.fromUTF8?] at h
  split_ifs at h with hv
  cases h
  simp [utf8, String.fromUTF8]

theorem readUtf8_eq_some {w : ℕ} {bs rest : Bytes} {s : String}
    (h : readUtf8 w bs = some (s, rest)) : (utf8 s).length = w := by
  obtain ⟨⟨pre, rest'⟩, h1, h2⟩ := Option.bind_eq_some_iff.1 h
  obtain ⟨s', h3, h4⟩ := Option.bind_eq_some_iff.1 h2
  cases h4
  rw [utf8_fromUtf8 h3, (takeN_eq_some.1 h1).2]

/-! ## Sequences -/

/-- `n` items in a row, each read by `rd`. -/
def readSeq {α : Type} (rd : Bytes → Option (α × Bytes)) : ℕ → Bytes → Option (List α × Bytes)
  | 0, bs => some ([], bs)
  | n + 1, bs => do
    let (x, bs) ← rd bs
    let (xs, bs) ← readSeq rd n bs
    return (x :: xs, bs)

/-- Items written one after another are read back, up to `f`, when each of them is. -/
theorem readSeq_flatMap {α β : Type} {rd : Bytes → Option (β × Bytes)} {wr : α → Bytes}
    {f : α → β} {xs : List α} (h : ∀ x ∈ xs, ∀ rest, rd (wr x ++ rest) = some (f x, rest))
    (rest : Bytes) : readSeq rd xs.length (xs.flatMap wr ++ rest) = some (xs.map f, rest) := by
  induction xs with
  | nil => rfl
  | cons x xs ih =>
    have hx := h x List.mem_cons_self
    have hxs := ih fun y hy => h y (List.mem_cons_of_mem _ hy)
    simp [readSeq, List.append_assoc, hx, hxs]

/-- Items that are read in a row are as many as asked for, and each was read. -/
theorem readSeq_eq_some {α : Type} {rd : Bytes → Option (α × Bytes)} {n : ℕ} {bs rest : Bytes}
    {xs : List α} (h : readSeq rd n bs = some (xs, rest)) :
    xs.length = n ∧ ∀ x ∈ xs, ∃ bs rest, rd bs = some (x, rest) := by
  induction n generalizing bs xs with
  | zero => cases h; simp
  | succ n ih =>
    obtain ⟨⟨x, bs'⟩, h1, h2⟩ := Option.bind_eq_some_iff.1 h
    obtain ⟨⟨ys, bs''⟩, h3, h4⟩ := Option.bind_eq_some_iff.1 h2
    cases h4
    obtain ⟨hlen, hys⟩ := ih h3
    refine ⟨by simp [hlen], fun y hy => ?_⟩
    rcases List.mem_cons.1 hy with rfl | hy
    · exact ⟨_, _, h1⟩
    · exact hys y hy

end Wire
