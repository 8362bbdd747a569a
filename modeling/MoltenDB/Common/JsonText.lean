/-
  JSON as compact text: no blanks, and the fields of an object in the order they come.

  What is written is read back (`read_write`), so values with the same text are equal.
-/
import MoltenDB.Json
import MoltenDB.Lib.Decimal

namespace MoltenDB.JsonText

/-! ## Strings -/

def quote : Char := Char.ofNat 0x22

def backslash : Char := Char.ofNat 0x5c

/-- The letter that stands for the character after a backslash, if there is one. -/
def letter (c : Char) : Option Char :=
  if c = quote then some quote
  else if c = backslash then some backslash
  else if c = Char.ofNat 0x08 then some 'b'
  else if c = Char.ofNat 0x0c then some 'f'
  else if c = Char.ofNat 0x0a then some 'n'
  else if c = Char.ofNat 0x0d then some 'r'
  else if c = Char.ofNat 0x09 then some 't'
  else none

/-- A character as it is written in a string; other control characters are numbered. -/
def escape (c : Char) : List Char :=
  match letter c with
  | some e => [backslash, e]
  | none =>
    if c.toNat < 0x20 then
      [backslash, 'u', '0', '0', Nat.digitChar (c.toNat / 16), Nat.digitChar (c.toNat % 16)]
    else [c]

def writeString (s : String) : List Char := quote :: (s.toList.flatMap escape ++ [quote])

/-- The character that the letter after a backslash stands for. -/
def unescape (e : Char) : Option Char :=
  if e = quote then some quote
  else if e = backslash then some backslash
  else if e = 'b' then some (Char.ofNat 0x08)
  else if e = 'f' then some (Char.ofNat 0x0c)
  else if e = 'n' then some (Char.ofNat 0x0a)
  else if e = 'r' then some (Char.ofNat 0x0d)
  else if e = 't' then some (Char.ofNat 0x09)
  else none

def hexValue (c : Char) : Option ℕ :=
  if c.isDigit then some (c.toNat - 48)
  else if 97 ≤ c.toNat ∧ c.toNat ≤ 102 then some (c.toNat - 87)
  else none

/-- The characters up to the closing quote. -/
def readChars : List Char → Option (List Char × List Char)
  | [] => none
  | c :: cs =>
    if c = quote then some ([], cs)
    else if c = backslash then
      match cs with
      | 'u' :: '0' :: '0' :: a :: b :: cs => do
        let x ← hexValue a
        let y ← hexValue b
        let (s, cs) ← readChars cs
        return (Char.ofNat (16 * x + y) :: s, cs)
      | e :: cs => do
        let c ← unescape e
        let (s, cs) ← readChars cs
        return (c :: s, cs)
      | [] => none
    else do
      let (s, cs) ← readChars cs
      return (c :: s, cs)

theorem readChars_escape (c : Char) {cs s rest : List Char} (h : readChars cs = some (s, rest)) :
    readChars (escape c ++ cs) = some (c :: s, rest) := by
  have hq : backslash ≠ quote := by decide
  unfold escape
  cases hl : letter c with
  | some e =>
    have hback : unescape e = some c ∧ e ≠ 'u' := by
      unfold letter at hl
      split_ifs at hl with h1 h2 h3 h4 h5 h6 h7 <;> cases hl
      · rw [h1]; exact ⟨rfl, by decide⟩
      · rw [h2]; exact ⟨rfl, by decide⟩
      · rw [h3]; exact ⟨rfl, by decide⟩
      · rw [h4]; exact ⟨rfl, by decide⟩
      · rw [h5]; exact ⟨rfl, by decide⟩
      · rw [h6]; exact ⟨rfl, by decide⟩
      · rw [h7]; exact ⟨rfl, by decide⟩
    dsimp only
    rw [List.cons_append, List.cons_append, List.nil_append, readChars, if_neg hq, if_pos rfl]
    · simp [hback.1, h]
    · rintro a b cs' heq
      exact absurd heq hback.2
  | none =>
    dsimp only
    split_ifs with hc
    · -- a numbered control character
      have hall : ∀ n < 32, hexValue (Nat.digitChar (n / 16)) = some (n / 16) ∧
          hexValue (Nat.digitChar (n % 16)) = some (n % 16) := by decide
      obtain ⟨hx, hy⟩ := hall c.toNat hc
      have hnum : 16 * (c.toNat / 16) + c.toNat % 16 = c.toNat := Nat.div_add_mod _ _
      simp only [List.cons_append, List.nil_append]
      rw [readChars, if_neg hq, if_pos rfl]
      simp [hx, hy, h, hnum]
    · have hne : c ≠ quote ∧ c ≠ backslash := by
        constructor
        · rintro rfl
          simp [letter] at hl
        · rintro rfl
          simp [letter, hq] at hl
      rw [List.cons_append, List.nil_append]
      unfold readChars
      rw [if_neg hne.1, if_neg hne.2, h]
      rfl

theorem readChars_writeString (s : String) (rest : List Char) :
    readChars (s.toList.flatMap escape ++ (quote :: rest)) = some (s.toList, rest) := by
  induction s.toList with
  | nil =>
    rw [List.flatMap_nil, List.nil_append, readChars.eq_def]
    exact if_pos rfl
  | cons c cs ih =>
    rw [List.flatMap_cons, List.append_assoc]
    exact readChars_escape c ih

/-! ## Sequences -/

section

variable {α : Type} (w : α → List Char) (rd : List Char → Option (α × List Char)) (close : Char)

/-- The members after the first one, each after a comma, and the closing bracket. -/
def writeTail : List α → List Char
  | [] => [close]
  | x :: xs => ',' :: (w x ++ writeTail xs)

/-- Members between commas, and the closing bracket. -/
def writeSeq : List α → List Char
  | [] => [close]
  | x :: xs => w x ++ writeTail w close xs

def readTail : ℕ → List Char → Option (List α × List Char)
  | 0, _ => none
  | _ + 1, [] => none
  | n + 1, c :: cs =>
    if c = close then some ([], cs)
    else if c = ',' then do
      let (x, cs) ← rd cs
      let (xs, cs) ← readTail n cs
      return (x :: xs, cs)
    else none

def readSeq (n : ℕ) (cs : List Char) : Option (List α × List Char) :=
  match cs with
  | [] => none
  | c :: rest =>
    if c = close then some ([], rest)
    else do
      let (x, cs) ← rd cs
      let (xs, cs) ← readTail rd close n cs
      return (x :: xs, cs)

variable {w rd close}

/-- A member is read back before a comma or the closing bracket. -/
def ReadsBack (w : α → List Char) (rd : List Char → Option (α × List Char)) (close : Char)
    (x : α) : Prop :=
  ∀ c rest, c = ',' ∨ c = close → rd (w x ++ c :: rest) = some (x, c :: rest)

theorem writeTail_eq_cons (w : α → List Char) (close : Char) (xs : List α) :
    ∃ c cs, writeTail w close xs = c :: cs ∧ (c = ',' ∨ c = close) := by
  cases xs with
  | nil => exact ⟨close, [], rfl, Or.inr rfl⟩
  | cons x xs => exact ⟨',', _, rfl, Or.inl rfl⟩

theorem readTail_writeTail (hclose : close ≠ ',') {xs : List α}
    (h : ∀ x ∈ xs, ReadsBack w rd close x) {n : ℕ} (hn : xs.length < n) (rest : List Char) :
    readTail rd close n (writeTail w close xs ++ rest) = some (xs, rest) := by
  induction xs generalizing n with
  | nil =>
    obtain ⟨n, rfl⟩ : ∃ m, n = m + 1 := ⟨n - 1, by omega⟩
    simp [writeTail, readTail]
  | cons x xs ih =>
    obtain ⟨n, rfl⟩ : ∃ m, n = m + 1 := ⟨n - 1, by omega⟩
    rw [List.length_cons] at hn
    obtain ⟨c, cs, heq, hc⟩ := writeTail_eq_cons w close xs
    have hx := h x List.mem_cons_self c (cs ++ rest) hc
    have hrest := ih (fun y hy => h y (List.mem_cons_of_mem _ hy)) (n := n) (by omega)
    rw [heq, List.cons_append] at hrest
    rw [writeTail, heq, List.cons_append, List.append_assoc, List.cons_append, readTail,
      if_neg hclose.symm, if_pos rfl, hx]
    simp [hrest]

/-- **A sequence is read back** if its members are. -/
theorem readSeq_writeSeq (hclose : close ≠ ',') {xs : List α}
    (h : ∀ x ∈ xs, ReadsBack w rd close x)
    (hfirst : ∀ x ∈ xs, ∃ c cs, w x = c :: cs ∧ c ≠ close) {n : ℕ} (hn : xs.length ≤ n)
    (rest : List Char) : readSeq rd close n (writeSeq w close xs ++ rest) = some (xs, rest) := by
  cases xs with
  | nil => simp [writeSeq, readSeq]
  | cons x xs =>
    rw [List.length_cons] at hn
    obtain ⟨c, cs, hw, hne⟩ := hfirst x List.mem_cons_self
    obtain ⟨d, ds, heq, hd⟩ := writeTail_eq_cons w close xs
    have hx := h x List.mem_cons_self d (ds ++ rest) hd
    have hrest := readTail_writeTail hclose (fun y hy => h y (List.mem_cons_of_mem _ hy))
      (n := n) (by omega) rest
    rw [heq, List.cons_append] at hrest
    rw [hw, List.cons_append] at hx
    rw [writeSeq, heq, hw, List.cons_append, List.cons_append, List.append_assoc, List.cons_append,
      readSeq, if_neg hne, hx]
    simp [hrest]

end

/-! ## Values -/

section

-- the text of a number that is no integer
variable (float : UInt64 → List Char)

def writeNumber : Number → List Char
  | .posInt u => (Decimal.print u.toNat).toList
  | .negInt i _ => '-' :: (Decimal.print i.natAbs).toList
  | .float bits _ => float bits

mutual
/-- The text of a value. -/
def write : Json → List Char
  | .null => ['n', 'u', 'l', 'l']
  | .bool true => ['t', 'r', 'u', 'e']
  | .bool false => ['f', 'a', 'l', 's', 'e']
  | .num n => writeNumber float n
  | .str s => writeString s
  | .arr xs => '[' :: writeItems xs
  | .obj fs => '{' :: writeFields fs

def writeItems : List Json → List Char
  | [] => [']']
  | x :: xs => write x ++ writeMoreItems xs

def writeMoreItems : List Json → List Char
  | [] => [']']
  | x :: xs => ',' :: (write x ++ writeMoreItems xs)

def writeFields : List (String × Json) → List Char
  | [] => ['}']
  | (k, v) :: fs => writeString k ++ ':' :: (write v ++ writeMoreFields fs)

def writeMoreFields : List (String × Json) → List Char
  | [] => ['}']
  | (k, v) :: fs => ',' :: (writeString k ++ ':' :: (write v ++ writeMoreFields fs))
end

/-- The text of one field. -/
def writeField (p : String × Json) : List Char := writeString p.1 ++ ':' :: write float p.2

theorem writeItems_eq (xs : List Json) : writeItems float xs = writeSeq (write float) ']' xs := by
  have hmore : ∀ xs, writeMoreItems float xs = writeTail (write float) ']' xs := by
    intro xs
    induction xs with
    | nil => rfl
    | cons x xs ih => rw [writeMoreItems, writeTail, ih]
  cases xs with
  | nil => rfl
  | cons x xs => rw [writeItems, writeSeq, hmore]

theorem writeFields_eq (fs : List (String × Json)) :
    writeFields float fs = writeSeq (writeField float) '}' fs := by
  have hmore : ∀ fs, writeMoreFields float fs = writeTail (writeField float) '}' fs := by
    intro fs
    induction fs with
    | nil => rfl
    | cons p fs ih => simp [writeMoreFields, writeTail, writeField, ih]
  cases fs with
  | nil => rfl
  | cons p fs => simp [writeFields, writeSeq, writeField, hmore]

end

/-! ## Reading values -/

section

variable (fields : List (String × Json) → List (String × Json))

def readNumber (cs : List Char) : Option (Json × List Char) := do
  let u ← Decimal.ofChars (cs.takeWhile Char.isDigit)
  if u < 2 ^ 64 then return (.ofU64 (UInt64.ofNat u), cs.dropWhile Char.isDigit) else none

def readNegative (cs : List Char) : Option (Json × List Char) := do
  let u ← Decimal.ofChars (cs.takeWhile Char.isDigit)
  if h : -2 ^ 63 ≤ -(u : ℤ) ∧ -(u : ℤ) < 0 then
    return (.num (.negInt (-u) h), cs.dropWhile Char.isDigit)
  else none

/-- One field of an object; `rd` reads the value. -/
def readField (rd : List Char → Option (Json × List Char)) (cs : List Char) :
    Option ((String × Json) × List Char) :=
  match cs with
  | [] => none
  | c :: cs =>
    if c = quote then do
      let (k, cs) ← readChars cs
      match cs with
      | ':' :: cs => do
        let (v, cs) ← rd cs
        return ((String.ofList k, v), cs)
      | _ => none
    else none

/-- A value at the front of `cs`; `fields` makes an object of the fields that are read. -/
def read : ℕ → List Char → Option (Json × List Char)
  | 0, _ => none
  | _ + 1, [] => none
  | n + 1, c :: cs =>
    if c = quote then (readChars cs).map fun (s, cs) => (.str (String.ofList s), cs)
    else if c = '[' then (readSeq (read n) ']' n cs).map fun (xs, cs) => (.arr xs, cs)
    else if c = '{' then
      (readSeq (readField (read n)) '}' n cs).map fun (fs, cs) => (.obj (fields fs), cs)
    else if c = '-' then readNegative cs
    else if c.isDigit then readNumber (c :: cs)
    else
      match c, cs with
      | 'n', 'u' :: 'l' :: 'l' :: cs => some (.null, cs)
      | 't', 'r' :: 'u' :: 'e' :: cs => some (.bool true, cs)
      | 'f', 'a' :: 'l' :: 's' :: 'e' :: cs => some (.bool false, cs)
      | _, _ => none

end

/-- The value is no number, or an integer. -/
def integerHere : Json → Bool
  | .num (.float _ _) => false
  | _ => true

/-- All numbers in the value are integers. -/
def Integers (v : Json) : Prop := v.every integerHere = true

instance (v : Json) : Decidable (Integers v) := inferInstanceAs (Decidable (_ = true))

/-- The fields of the value, if it is an object, are the ones that `fields` makes of them. -/
def keptHere (fields : List (String × Json) → List (String × Json)) : Json → Bool
  | .obj fs => decide (fields fs = fs)
  | _ => true

theorem integerHere_of_integers {v : Json} (h : Integers v) : integerHere v = true := by
  cases v with
  | arr xs => rfl
  | obj fs => rfl
  | null => rfl
  | bool b => rfl
  | str s => rfl
  | num n => exact h

theorem takeWhile_print (n : ℕ) {rest : List Char} (hrest : ∀ c ∈ rest.head?, ¬ c.isDigit) :
    ((Decimal.print n).toList ++ rest).takeWhile Char.isDigit = (Decimal.print n).toList ∧
      ((Decimal.print n).toList ++ rest).dropWhile Char.isDigit = rest := by
  have hdigit : ∀ c ∈ (Decimal.print n).toList, c.isDigit := fun _ => Decimal.isDigit_of_mem_print
  rw [List.takeWhile_append_of_pos hdigit, List.dropWhile_append_of_pos hdigit]
  cases rest with
  | nil => simp
  | cons c cs =>
    have hc := hrest c rfl
    simp [hc]

theorem readNumber_print (u : UInt64) {rest : List Char} (hrest : ∀ c ∈ rest.head?, ¬ c.isDigit) :
    readNumber ((Decimal.print u.toNat).toList ++ rest) = some (.ofU64 u, rest) := by
  obtain ⟨htake, hdrop⟩ := takeWhile_print u.toNat hrest
  have hlt := u.toNat_lt
  rw [readNumber, htake, hdrop, Decimal.ofChars_print]
  simp [hlt]

theorem readNegative_print {i : ℤ} (h : -2 ^ 63 ≤ i ∧ i < 0) {rest : List Char}
    (hrest : ∀ c ∈ rest.head?, ¬ c.isDigit) :
    readNegative ((Decimal.print i.natAbs).toList ++ rest) = some (.num (.negInt i h), rest) := by
  obtain ⟨htake, hdrop⟩ := takeWhile_print i.natAbs hrest
  have habs : -(i.natAbs : ℤ) = i := by omega
  rw [readNegative, htake, hdrop, Decimal.ofChars_print, Option.bind_eq_bind, Option.bind_some,
    dif_pos (by rwa [habs])]
  simp only [habs]
  rfl

/-- The first character of a value is none that closes or separates. -/
theorem write_eq_cons (float : UInt64 → List Char) {v : Json} (h : integerHere v = true) :
    ∃ c cs, write float v = c :: cs ∧ c ≠ ']' ∧ c ≠ '}' ∧ c ≠ ',' := by
  have hnum : ∀ n, ∃ c cs, (Decimal.print n).toList = c :: cs ∧ c ≠ ']' ∧ c ≠ '}' ∧ c ≠ ',' := by
    intro n
    obtain ⟨c, cs, hcs⟩ := List.exists_cons_of_ne_nil (Decimal.print_ne_nil n)
    have hdigit : c.isDigit := Decimal.isDigit_of_mem_print (n := n) (by rw [hcs]; simp)
    refine ⟨c, cs, hcs, ?_, ?_, ?_⟩ <;> rintro rfl <;> cases hdigit
  cases v with
  | null => exact ⟨'n', _, rfl, by decide, by decide, by decide⟩
  | bool b =>
    cases b with
    | true => exact ⟨'t', _, rfl, by decide, by decide, by decide⟩
    | false => exact ⟨'f', _, rfl, by decide, by decide, by decide⟩
  | num n =>
    cases n with
    | posInt u => exact hnum u.toNat
    | negInt i hi => exact ⟨'-', _, rfl, by decide, by decide, by decide⟩
    | float bits hb => cases h
  | str s => exact ⟨quote, _, rfl, by decide, by decide, by decide⟩
  | arr xs => exact ⟨'[', _, rfl, by decide, by decide, by decide⟩
  | obj fs => exact ⟨'{', _, rfl, by decide, by decide, by decide⟩

theorem not_digit {c : Char} (h : c = ',' ∨ c = ']' ∨ c = '}') (rest : List Char) :
    ∀ d ∈ (c :: rest).head?, ¬ d.isDigit := by
  intro d hd
  obtain rfl : c = d := by simpa using hd
  rcases h with rfl | rfl | rfl <;> decide

theorem write_ne_nil (float : UInt64 → List Char) {v : Json} (h : Integers v) :
    write float v ≠ [] := by
  obtain ⟨c, cs, heq, -⟩ := write_eq_cons float (integerHere_of_integers h)
  rw [heq]
  exact List.cons_ne_nil _ _

variable {float : UInt64 → List Char} {fields : List (String × Json) → List (String × Json)}

theorem length_writeSeq_lt {α : Type} {w : α → List Char} (close : Char) {xs : List α}
    (h : ∀ x ∈ xs, w x ≠ []) :
    xs.length < (writeSeq w close xs).length ∧
      ∀ x ∈ xs, (w x).length < (writeSeq w close xs).length := by
  have htail : ∀ xs : List α, xs.length < (writeTail w close xs).length ∧
      ∀ x ∈ xs, (w x).length < (writeTail w close xs).length := by
    intro xs
    induction xs with
    | nil => simp [writeTail]
    | cons x xs ih =>
      obtain ⟨hlen, hmem⟩ := ih
      simp only [writeTail, List.length_cons, List.length_append]
      refine ⟨by omega, fun y hy => ?_⟩
      rcases List.mem_cons.1 hy with rfl | hy
      · omega
      · have hlt := hmem y hy
        omega
  cases xs with
  | nil => simp [writeSeq]
  | cons x xs =>
    obtain ⟨hlen, hmem⟩ := htail xs
    have hpos := List.length_pos_iff.2 (h x List.mem_cons_self)
    simp only [writeSeq, List.length_cons, List.length_append]
    refine ⟨by omega, fun y hy => ?_⟩
    rcases List.mem_cons.1 hy with rfl | hy
    · omega
    · have hlt := hmem y hy
      omega

theorem readField_writeField {rd : List Char → Option (Json × List Char)} {p : String × Json}
    {rest : List Char} (h : rd (write float p.2 ++ rest) = some (p.2, rest)) :
    readField rd (writeField float p ++ rest) = some (p, rest) := by
  have hk := readChars_writeString p.1 (':' :: (write float p.2 ++ rest))
  simp only [writeField, writeString, readField, List.cons_append, List.append_assoc,
    List.nil_append, if_true, hk, Option.bind_eq_bind, Option.bind_some, h, String.ofList_toList]
  rfl

theorem read_writePosInt (u : UInt64) (m : ℕ) {rest : List Char}
    (hrest : ∀ c ∈ rest.head?, ¬ c.isDigit) :
    read fields (m + 1) (write float (.num (.posInt u)) ++ rest) = some (.num (.posInt u), rest) := by
  have hread := readNumber_print u hrest
  obtain ⟨c, cs, hcs⟩ := List.exists_cons_of_ne_nil (Decimal.print_ne_nil u.toNat)
  have hdigit : c.isDigit := Decimal.isDigit_of_mem_print (n := u.toNat) (by rw [hcs]; simp)
  rw [hcs, List.cons_append] at hread
  have hne : ∀ d, d.isDigit = false → c ≠ d := by
    rintro d hd rfl
    rw [hd] at hdigit
    cases hdigit
  rw [write, writeNumber, hcs, List.cons_append, read.eq_def]
  simp only [if_neg (hne quote rfl), if_neg (hne '[' rfl), if_neg (hne '{' rfl),
    if_neg (hne '-' rfl), if_pos hdigit, hread]
  rfl

/-- **What is written is read back**, and nothing after it is read. -/
theorem read_write {v : Json} (hint : Integers v) (hkept : v.every (keptHere fields) = true)
    {n : ℕ} (hn : (write float v).length ≤ n) {rest : List Char}
    (hrest : ∀ c ∈ rest.head?, ¬ c.isDigit) :
    read fields n (write float v ++ rest) = some (v, rest) := by
  have hpos := List.length_pos_iff.2 (write_ne_nil float hint)
  obtain ⟨m, rfl⟩ : ∃ m, n = m + 1 := ⟨n - 1, by omega⟩
  induction v generalizing m rest with
  | null => rfl
  | bool b => cases b <;> rfl
  | num x =>
    cases x with
    | posInt u => exact read_writePosInt u m hrest
    | negInt i hi => exact readNegative_print hi hrest
    | float bits hb => cases hint
  | str s =>
    have hs := readChars_writeString s rest
    simp [write, writeString, read, hs]
  | arr xs ih =>
    obtain ⟨-, hints⟩ := Json.every_arr.1 hint
    obtain ⟨-, hkepts⟩ := Json.every_arr.1 hkept
    obtain ⟨hlen, hlens⟩ := length_writeSeq_lt (w := write float) ']'
      fun x hx => write_ne_nil float (hints x hx)
    rw [write, writeItems_eq, List.length_cons] at hn
    have hback : ∀ x ∈ xs, ReadsBack (write float) (read fields m) ']' x := by
      intro x hx c cs hc
      have hlt := hlens x hx
      have hposx := List.length_pos_iff.2 (write_ne_nil float (hints x hx))
      obtain ⟨k, rfl⟩ : ∃ k, m = k + 1 := ⟨m - 1, by omega⟩
      exact ih x hx (hints x hx) (hkepts x hx) (not_digit (by tauto) cs) hposx k (by omega)
    have hread := readSeq_writeSeq (by decide) hback (fun x hx => by
      obtain ⟨c, cs, heq, hne, -⟩ := write_eq_cons float
        (integerHere_of_integers (hints x hx))
      exact ⟨c, cs, heq, hne⟩) (n := m) (by omega) rest
    have hq : '[' ≠ quote := by decide
    rw [write, writeItems_eq, List.cons_append, read.eq_def]
    simp only [if_neg hq, if_true, hread]
    rfl
  | obj fs ih =>
    obtain ⟨-, hints⟩ := Json.every_obj.1 hint
    obtain ⟨hfs, hkepts⟩ := Json.every_obj.1 hkept
    obtain ⟨hlen, hlens⟩ := length_writeSeq_lt (w := writeField float) '}'
      fun p hp => List.cons_ne_nil _ _
    rw [write, writeFields_eq, List.length_cons] at hn
    have hback : ∀ p ∈ fs, ReadsBack (writeField float) (readField (read fields m)) '}' p := by
      intro p hp c cs hc
      have hlt := hlens p hp
      have hposp := List.length_pos_iff.2 (write_ne_nil float (hints p hp))
      simp only [writeField, List.length_append, List.length_cons] at hlt
      obtain ⟨k, rfl⟩ : ∃ k, m = k + 1 := ⟨m - 1, by omega⟩
      exact readField_writeField
        (ih p hp (hints p hp) (hkepts p hp) (not_digit (by tauto) cs) hposp k (by omega))
    have hread := readSeq_writeSeq (by decide) hback
      (fun p _ => ⟨quote, _, rfl, by decide⟩) (n := m) (by omega) rest
    have hq : '{' ≠ quote := by decide
    have hb : '{' ≠ '[' := by decide
    rw [write, writeFields_eq, List.cons_append, read.eq_def]
    simp only [if_neg hq, if_neg hb, if_true, hread, Option.map_some, of_decide_eq_true hfs]

/-- **Texts are equal only of equal values.** -/
theorem write_injective {v w : Json} (hv : Integers v) (hw : Integers w)
    (h : write float v = write float w) : v = w := by
  have hkept : ∀ u : Json, u.every (keptHere id) = true := by
    intro u
    induction u with
    | arr xs ih => exact Json.every_arr.2 ⟨rfl, ih⟩
    | obj fs ih => exact Json.every_obj.2 ⟨decide_eq_true rfl, ih⟩
    | null => rfl
    | bool b => rfl
    | num n => rfl
    | str s => rfl
  have hback : ∀ {u : Json}, Integers u →
      read id (write float u).length (write float u ++ []) = some (u, []) := fun hu =>
    read_write hu (hkept _) le_rfl (by simp)
  have h1 := hback hv
  have h2 := hback hw
  rw [h, h2] at h1
  exact (congrArg Prod.fst (Option.some.inj h1)).symm

end MoltenDB.JsonText
