/-
  Natural numbers as decimal text.
-/
import Mathlib.Tactic

namespace Decimal

/-- The decimal digits of `n`, without leading zeros. -/
def print (n : ℕ) : String :=
  if n = 0 then "0" else String.ofList ((Nat.digits 10 n).reverse.map Nat.digitChar)

/-- The number with the decimal digits `cs`; `none` if one of them is no digit. -/
def ofChars (cs : List Char) : Option ℕ :=
  cs.foldlM (fun n c => if c.isDigit then some (10 * n + (c.toNat - 48)) else none) 0

/-- The number below `bound` written as `s`: one or more digits after an optional `+`. -/
def parse (bound : ℕ) (s : String) : Option ℕ :=
  let cs := match s.toList with
    | '+' :: cs => cs
    | cs => cs
  if cs = [] then none else (ofChars cs).filter (· < bound)

theorem digitChar_spec : ∀ d < 10, (Nat.digitChar d).isDigit ∧ (Nat.digitChar d).toNat - 48 = d ∧
    Nat.digitChar d ≠ '+' := by decide

theorem ofChars_digits {ds : List ℕ} (h : ∀ d ∈ ds, d < 10) :
    ofChars (ds.reverse.map Nat.digitChar) = some (Nat.ofDigits 10 ds) := by
  induction ds with
  | nil => rfl
  | cons d ds ih =>
    obtain ⟨h1, h2, -⟩ := digitChar_spec d (h d List.mem_cons_self)
    have ih' := ih fun e he => h e (List.mem_cons_of_mem _ he)
    simp only [ofChars, List.reverse_cons, List.map_append, List.foldlM_append] at ih' ⊢
    rw [ih']
    simp [h1, h2, Nat.ofDigits_cons, Nat.add_comm]

theorem isDigit_of_mem_print {n : ℕ} {c : Char} (h : c ∈ (print n).toList) : c.isDigit := by
  unfold print at h
  split_ifs at h
  · rw [List.mem_singleton.1 h]
    rfl
  · rw [String.toList_ofList] at h
    obtain ⟨d, hd, rfl⟩ := List.mem_map.1 h
    have hlt := Nat.digits_lt_base (by norm_num) (List.mem_reverse.1 hd)
    exact (digitChar_spec d hlt).1

theorem ofChars_print (n : ℕ) : ofChars (print n).toList = some n := by
  unfold print
  split_ifs with hn
  · rw [hn]
    rfl
  · have hlt : ∀ d ∈ Nat.digits 10 n, d < 10 := fun d hd => Nat.digits_lt_base (by norm_num) hd
    rw [String.toList_ofList, ofChars_digits hlt, Nat.ofDigits_digits]

theorem print_ne_nil (n : ℕ) : (print n).toList ≠ [] := by
  unfold print
  split_ifs with hn
  · exact List.cons_ne_nil _ _
  · rw [String.toList_ofList]
    simpa [Nat.digits_eq_nil_iff_eq_zero] using hn

/-- **A printed number is parsed back.** -/
theorem parse_print {n bound : ℕ} (h : n < bound) : parse bound (print n) = some n := by
  have hplus : ∀ cs, (print n).toList ≠ '+' :: cs := by
    intro cs hcs
    have hdigit : ('+').isDigit := isDigit_of_mem_print (n := n) (by rw [hcs]; simp)
    exact absurd hdigit (by decide)
  have hof := ofChars_print n
  have hne := print_ne_nil n
  simp only [parse]
  generalize (print n).toList = cs at hplus hof hne
  cases cs with
  | nil => exact absurd rfl hne
  | cons c cs =>
    have hc : c ≠ '+' := fun hc => hplus cs (by rw [hc])
    simp [hof, h]

end Decimal
