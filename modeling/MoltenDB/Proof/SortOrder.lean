/-
  The comparator of a sorted query is an order.

  Values of one kind are compared as they should be, and values of different kinds by what
  they are written as; so strings come before numbers, numbers before all else, and a missing
  value last (`compareValues_eq`).
-/
import MoltenDB.Handlers.Documents

namespace MoltenDB

open JsonText

/-! ## Orders from orders -/

section

variable {α β : Type} {cmp : α → α → Ordering} [Std.TransCmp cmp]

theorem transCmp_comap (f : β → α) : Std.TransCmp fun a b => cmp (f a) (f b) where
  eq_swap := Std.OrientedCmp.eq_swap
  isLE_trans := Std.TransCmp.isLE_trans

theorem transCmp_swap : Std.TransCmp fun a b => (cmp a b).swap := by
  have hswap : (fun a b => (cmp a b).swap) = fun a b => cmp b a := by
    funext a b
    exact Std.OrientedCmp.eq_swap.symm
  rw [hswap]
  infer_instance

end

variable [FloatText]

/-- A double is written with a digit or a minus first. -/
def FloatText.Numeric : Prop :=
  ∀ bits, F64.Finite bits → ∃ c cs, FloatText.text bits = c :: cs ∧ (c = '-' ∨ c.isDigit = true)

/-! ## The kinds of values -/

/-- Strings, numbers, other values, and no value. -/
def sortKind : Option Json → ℕ
  | some (.str _) => 0
  | some (.num _) => 1
  | some _ => 2
  | none => 3

/-- The kind of a value that is written with this character first. -/
def kindOfChar (c : Char) : ℕ := if c.toNat < 0x2d then 0 else if c.toNat < 0x5b then 1 else 2

omit [FloatText] in
theorem kindOfChar_digit {c : Char} (h : c = '-' ∨ c.isDigit = true) : kindOfChar c = 1 := by
  have hc : 0x2d ≤ c.toNat ∧ c.toNat < 0x5b := by
    rcases h with rfl | h
    · decide
    · have hd := Char.isDigit_iff_toNat.1 h
      have hends : '0'.toNat = 48 ∧ '9'.toNat = 57 := ⟨rfl, rfl⟩
      omega
  unfold kindOfChar
  rw [if_neg (by omega), if_pos hc.2]

/-- The first character of a value shows its kind. -/
theorem toText_eq (hfloat : FloatText.Numeric) (v : Json) :
    ∃ c cs, v.toText = String.ofList (c :: cs) ∧ kindOfChar c = sortKind (some v) := by
  have hnum : ∀ n, ∃ c cs, (Decimal.print n).toList = c :: cs ∧ kindOfChar c = 1 := by
    intro n
    obtain ⟨c, cs, hcs⟩ := List.exists_cons_of_ne_nil (Decimal.print_ne_nil n)
    have hdigit : c.isDigit := Decimal.isDigit_of_mem_print (n := n) (by rw [hcs]; simp)
    exact ⟨c, cs, hcs, kindOfChar_digit (Or.inr hdigit)⟩
  cases v with
  | null => exact ⟨'n', _, rfl, rfl⟩
  | bool b =>
    cases b with
    | true => exact ⟨'t', _, rfl, rfl⟩
    | false => exact ⟨'f', _, rfl, rfl⟩
  | num n =>
    cases n with
    | posInt u =>
      obtain ⟨c, cs, hcs, hc⟩ := hnum u.toNat
      exact ⟨c, cs, congrArg String.ofList hcs, hc⟩
    | negInt i hi => exact ⟨'-', _, rfl, rfl⟩
    | float bits hb =>
      obtain ⟨c, cs, hcs, hc⟩ := hfloat bits hb
      exact ⟨c, cs, congrArg String.ofList hcs, kindOfChar_digit hc⟩
  | str s => exact ⟨quote, _, rfl, rfl⟩
  | arr xs => exact ⟨'[', _, rfl, rfl⟩
  | obj fs => exact ⟨'{', _, rfl, rfl⟩

omit [FloatText] in
theorem compare_ofList {c d : Char} (h : kindOfChar c < kindOfChar d) (cs ds : List Char) :
    compare (String.ofList (c :: cs)) (String.ofList (d :: ds)) = .lt := by
  have hlt : c < d := by
    show c.toNat < d.toNat
    unfold kindOfChar at h
    split_ifs at h <;> omega
  show compareOfLessAndEq _ _ = _
  rw [compareOfLessAndEq, if_pos]
  rw [String.lt_iff, String.toList_ofList, String.toList_ofList]
  exact List.Lex.rel hlt

/-- Values of different kinds are in the order of their kinds. -/
theorem compare_toText (hfloat : FloatText.Numeric) {a b : Json}
    (h : sortKind (some a) < sortKind (some b)) : compare a.toText b.toText = .lt := by
  obtain ⟨c, cs, ha, hc⟩ := toText_eq hfloat a
  obtain ⟨d, ds, hb, hd⟩ := toText_eq hfloat b
  rw [ha, hb]
  exact compare_ofList (by rwa [hc, hd]) cs ds

/-! ## The order of values -/

/-- What values of one kind are compared by: numbers by their value. -/
def sortNumber (v : Option Json) : ℚ := (v.bind Json.asF64).getD 0

/-- Strings are compared as they are and other values but numbers as they are written. -/
def sortText : Option Json → String
  | some (.str s) => s
  | some (.num _) | none => ""
  | some v => v.toText

theorem compareValues_text {a b : Json} (h : sortKind (some a) ≠ sortKind (some b)) :
    compareValues (some a) (some b) = compare a.toText b.toText := by
  cases a <;> cases b <;> simp_all [sortKind, compareValues, Json.asF64, Json.asStr]

theorem compareValues_eq (hfloat : FloatText.Numeric) (a b : Option Json) :
    compareValues a b = (compare (sortKind a) (sortKind b)).then
      ((compare (sortNumber a) (sortNumber b)).then (compare (sortText a) (sortText b))) := by
  have hkind : ∀ v, sortKind (some v) < 3 := by
    intro v
    cases v <;> simp [sortKind]
  cases a with
  | none =>
    cases b with
    | none => simp [compareValues]
    | some b =>
      have hgt : compare (sortKind none) (sortKind (some b)) = .gt := Nat.compare_eq_gt.2 (hkind b)
      rw [hgt]
      rfl
  | some a =>
    cases b with
    | none =>
      have hlt : compare (sortKind (some a)) (sortKind none) = .lt := Nat.compare_eq_lt.2 (hkind a)
      rw [hlt]
      rfl
    | some b =>
      rcases lt_trichotomy (sortKind (some a)) (sortKind (some b)) with h | h | h
      · rw [compareValues_text h.ne, compare_toText hfloat h, Nat.compare_eq_lt.2 h]
        rfl
      · rw [Nat.compare_eq_eq.2 h, Ordering.eq_then]
        cases a <;> cases b <;>
          simp_all [sortKind, compareValues, sortNumber, sortText, Json.asF64, Json.asStr]
      · rw [compareValues_text h.ne', Std.OrientedCmp.gt_of_lt (compare_toText hfloat h),
          Nat.compare_eq_gt.2 h]
        rfl

theorem transCmp_compareValues (hfloat : FloatText.Numeric) : Std.TransCmp compareValues := by
  have heq : compareValues = compareLex (compareOn sortKind)
      (compareLex (compareOn sortNumber) (compareOn sortText)) := by
    funext a b
    exact compareValues_eq hfloat a b
  rw [heq]
  infer_instance

/-- Documents compared by one spec. -/
def specOrder (field : String) (descending : Bool) (a b : Json) : Ordering :=
  if descending then
    (compareValues (a.getNestedValue (splitDots field)) (b.getNestedValue (splitDots field))).swap
  else compareValues (a.getNestedValue (splitDots field)) (b.getNestedValue (splitDots field))

theorem transCmp_specOrder (hfloat : FloatText.Numeric) (field : String) (descending : Bool) :
    Std.TransCmp (specOrder field descending) := by
  have := transCmp_compareValues hfloat
  have hfield : Std.TransCmp fun a b : Json =>
      compareValues (a.getNestedValue (splitDots field)) (b.getNestedValue (splitDots field)) :=
    transCmp_comap fun a : Json => a.getNestedValue (splitDots field)
  cases descending with
  | false => exact hfield
  | true => exact @transCmp_swap Json _ hfield

theorem makeComparator_skip {spec : Json} (specs : List Json)
    (h : ∀ field descending, sortField spec = some (field, descending) → field = "") :
    makeComparator (spec :: specs) = makeComparator specs := by
  funext a b
  rw [makeComparator]
  cases hspec : sortField spec with
  | none => rfl
  | some p => exact if_pos (h p.1 p.2 hspec)

theorem makeComparator_cons {spec : Json} (specs : List Json) {field : String} {descending : Bool}
    (h : sortField spec = some (field, descending)) (hfield : field ≠ "") :
    makeComparator (spec :: specs) = compareLex (specOrder field descending)
      (makeComparator specs) := by
  funext a b
  rw [makeComparator, h]
  dsimp only
  rw [if_neg hfield, compareLex, specOrder]
  generalize compareValues (a.getNestedValue (splitDots field))
    (b.getNestedValue (splitDots field)) = ord
  cases ord <;> cases descending <;> rfl

/-- **The comparator of a sorted query is an order**, whatever its specs. -/
theorem transCmp_makeComparator (hfloat : FloatText.Numeric) (specs : List Json) :
    Std.TransCmp (makeComparator specs) := by
  induction specs with
  | nil => exact { eq_swap := rfl, isLE_trans := fun _ _ => rfl }
  | cons spec specs ih =>
    by_cases hskip : ∀ field descending, sortField spec = some (field, descending) → field = ""
    · rw [makeComparator_skip specs hskip]
      exact ih
    · push Not at hskip
      obtain ⟨field, descending, hspec, hfield⟩ := hskip
      have := transCmp_specOrder hfloat field descending
      rw [makeComparator_cons specs hspec hfield]
      infer_instance

/-! ## The preorders of a sort -/

omit [FloatText] in
theorem transCmp_cmpDocs {cmp : Json → Json → Ordering} (h : Std.TransCmp cmp) :
    Std.TransCmp (cmpDocs cmp) := by
  have : Std.TransCmp fun a b : String × Json => cmp a.2 b.2 :=
    transCmp_comap fun d : String × Json => d.2
  exact inferInstanceAs (Std.TransCmp
    (compareLex (fun a b : String × Json => cmp a.2 b.2) (compareOn Prod.fst)))

/-- Exchanged arguments exchange the answer, and "at most" is total and transitive. -/
structure Preorders {α : Type} (cmp : α → α → Ordering) : Prop where
  swap : ∀ a b, cmp a b = (cmp b a).swap
  total : ∀ a b, (cmp a b).isLE = true ∨ (cmp b a).isLE = true
  trans : ∀ a b c, (cmp a b).isLE = true → (cmp b c).isLE = true → (cmp a c).isLE = true

omit [FloatText] in
theorem preorders_of_transCmp {α : Type} {cmp : α → α → Ordering} (h : Std.TransCmp cmp) :
    Preorders cmp where
  swap _ _ := h.eq_swap
  total a b := by
    rw [h.eq_swap (a := b)]
    cases cmp a b <;> simp
  trans _ _ _ := h.isLE_trans

/-- **The comparator is a total preorder** on documents of any shape, and so is the order of the
    heap, where documents under different keys are never equal. -/
theorem sort_comparator_preorders (hfloat : FloatText.Numeric) (specs : List Json) :
    Preorders (makeComparator specs) ∧ Preorders (cmpDocs (makeComparator specs)) ∧
      ∀ a b, cmpDocs (makeComparator specs) a b = .eq → a.1 = b.1 := by
  have htrans := transCmp_makeComparator hfloat specs
  refine ⟨preorders_of_transCmp htrans, preorders_of_transCmp (transCmp_cmpDocs htrans),
    fun a b h => ?_⟩
  rw [cmpDocs, Ordering.then_eq_eq] at h
  exact Std.LawfulEqOrd.compare_eq_iff_eq.1 h.2

omit [FloatText] in
theorem numeric_plain : @FloatText.Numeric FloatText.plain :=
  fun _ _ => ⟨'0', _, rfl, Or.inr rfl⟩

omit [FloatText] in
theorem sort_comparator_preorders_plain :
    letI := FloatText.plain
    Preorders (makeComparator [.str "price", .null, .obj [("field", .str "name")]]) :=
  (@sort_comparator_preorders FloatText.plain numeric_plain _).1

end MoltenDB
