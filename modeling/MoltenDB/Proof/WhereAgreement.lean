/-
  The two evaluators of WHERE clauses, on encoded and on decoded documents: the field
  conditions on which they agree, and clauses over such conditions.
-/
import MoltenDB.Query.Clauses
import MoltenDB.Query.Lookup

namespace MoltenDB

open Wire WhereOperator

/-! ## Documents without system fields -/

/-- No key of the value is a name of a system field. -/
def userHere : Json → Bool
  | .obj fs => fs.all fun p => (tokenOf p.1).isNone
  | _ => true

/-- An object without system fields at any depth, that is stored and can be skipped. -/
structure UserDocument (doc : Json) : Prop where
  object : doc.isObject = true
  user : doc.every userHere = true
  stored : doc.Stored

theorem storedField_eq {v : Json} (h : v.every userHere = true) (segment : String) :
    v.storedField segment = v.get segment := by
  cases v with
  | obj fs =>
    obtain ⟨hkeys, -⟩ := Json.every_obj.1 h
    have hfilter : fs.filter (fun p => (tokenOf p.1).isNone) = fs := List.filter_eq_self.2 fun p hp =>
      List.all_eq_true.1 hkeys p hp
    simp [Json.storedField, Json.get, Json.asObject, hfilter]
  | _ => rfl

theorem every_get {v w : Json} (h : v.every userHere = true) {segment : String}
    (hw : v.get segment = some w) : w.every userHere = true := by
  cases v with
  | obj fs => exact (Json.every_obj.1 h).2 _ (Fields.mem_of_lookup hw)
  | null => cases hw
  | bool b => cases hw
  | num n => cases hw
  | str s => cases hw
  | arr xs => cases hw

theorem storedValue_eq {v : Json} (h : v.every userHere = true) {parts : List String}
    (hparts : parts ≠ []) : v.storedValue parts = v.getNestedValue parts := by
  induction parts generalizing v with
  | nil => exact absurd rfl hparts
  | cons segment parts ih =>
    cases parts with
    | nil =>
      rw [Json.storedValue, storedField_eq h, Json.getNestedValue]
      cases v.get segment <;> rfl
    | cons part parts =>
      rw [Json.storedValue, storedField_eq h, Json.getNestedValue]
      · cases hw : v.get segment with
        | none => rfl
        | some w => exact ih (every_get h hw) (List.cons_ne_nil _ _)
      · exact List.cons_ne_nil _ _

section

variable [Crates]

/-- A document without system fields has none that a query reads. -/
theorem readMsgpackSystemFieldU64_user {doc : Json} (h : UserDocument doc) (field : String) :
    readMsgpackSystemFieldU64 (valueToMsgpack doc) field = none := by
  obtain ⟨hobj, huser, hstored⟩ := h
  obtain ⟨fs, rfl⟩ : ∃ fs, doc = .obj fs := by cases doc <;> simp_all [Json.isObject]
  have hkeys := List.all_eq_true.1 (Json.every_obj.1 huser).1
  have htoken : ∀ t : UInt8, 0xe0 ≤ t → readTokenU64 (valueToMsgpack (.obj fs)) t = none := by
    intro t ht
    have hle := hstored.depth
    rw [readTokenU64_obj hstored.fits (by omega) ht, tokenField]
    have hfind : fs.find? (fun p => tokenOf p.1 == some t) = none := by
      refine List.find?_eq_none.2 fun p hp => ?_
      have hnone : tokenOf p.1 = none := by simpa using hkeys p hp
      simp [hnone]
    rw [hfind]
    rfl
  unfold readMsgpackSystemFieldU64
  split_ifs
  · exact htoken _ (by decide)
  · exact htoken _ (by decide)
  · exact htoken _ (by decide)
  · exact htoken _ (by decide)
  · exact htoken _ (by decide)
  · rfl

variable [Lowercase]

omit [Crates] [Lowercase] in
theorem stored_getNestedValue {v w : Json} (hv : v.Stored) {parts : List String}
    (hw : v.getNestedValue parts = some w) : w.Stored := by
  induction parts generalizing v with
  | nil =>
    obtain rfl := Option.some.inj hw
    exact hv
  | cons part parts ih =>
    obtain ⟨u, hu, hwu⟩ := Option.bind_eq_some_iff.1 hw
    obtain ⟨fs, ho, hlook⟩ := Option.bind_eq_some_iff.1 hu
    obtain rfl : v = .obj fs := by cases v <;> simp_all [Json.asObject]
    exact ih (hv.field (Fields.mem_of_lookup hlook)).2 hwu

/-- **A condition is evaluated on the bytes of the value at its path.** -/
theorem evaluatePredicateMsgpack_user {doc : Json} (h : UserDocument doc) (field op : String)
    (x : Json) :
    match doc.getNestedValue (splitDots field) with
    | none => evaluatePredicateMsgpack (valueToMsgpack doc) field op x = none
    | some y => y.Stored ∧ ∃ rest,
        evaluatePredicateMsgpack (valueToMsgpack doc) field op x =
          evaluateSlice (writeValue y ++ rest) op x := by
  have hfind := findMsgpackValue_writeValue h.stored (splitDots field) []
  rw [List.append_nil, storedValue_eq h.user (splitDots_ne_nil field)] at hfind
  rw [evaluatePredicateMsgpack, readMsgpackSystemFieldU64_user h]
  cases hv : doc.getNestedValue (splitDots field) with
  | none =>
    rw [hv] at hfind
    have hnone : findMsgpackValue (valueToMsgpack doc) (splitDots field) = none := hfind
    dsimp only
    rw [hnone]
    rfl
  | some y =>
    rw [hv] at hfind
    obtain ⟨rest, hsome⟩ := hfind
    have hsome : findMsgpackValue (valueToMsgpack doc) (splitDots field) =
      some (writeValue y ++ rest) := hsome
    dsimp only
    rw [hsome]
    exact ⟨stored_getNestedValue h.stored hv, rest, rfl⟩

/-! ## The conditions on which the evaluators agree -/

/-- Two numbers are the same, or further apart than `EPSILON`. -/
def ToldApart (n m : Number) : Prop := n.same m = true ∨ Binary64.EPSILON ≤ |n.asF64 - m.asF64|

/-- The value of a number that is no double. -/
def Number.toInt : Number → Option ℤ
  | .posInt u => some u.toNat
  | .negInt i _ => some i
  | .float .. => none

omit [Crates] [Lowercase] in
/-- Integers up to `2 ^ 53` are told apart. -/
theorem toldApart_of_toInt {n m : Number} {i j : ℤ} (hn : n.toInt = some i) (hm : m.toInt = some j)
    (hi : |i| ≤ 2 ^ 53) (hj : |j| ≤ 2 ^ 53) : ToldApart n m := by
  have hvalue : ∀ {n : Number} {i : ℤ}, n.toInt = some i → n.asF64 = Binary64.ofInt i := by
    intro n i h
    cases n with
    | posInt u =>
      obtain rfl := Option.some.inj h
      exact (if_pos (Int.natCast_nonneg _)).symm
    | negInt k hk =>
      obtain rfl := Option.some.inj h
      rfl
    | float bits hfin => cases h
  rcases Binary64.eq_or_epsilon_le hi hj with rfl | hfar
  · refine Or.inl ?_
    cases n with
    | posInt u =>
      cases m with
      | posInt w =>
        have huw : u.toNat = w.toNat := by
          have h := hn.trans hm.symm
          exact_mod_cast Option.some.inj h
        exact beq_iff_eq.2 (UInt64.toNat_inj.1 huw)
      | negInt k hk =>
        have h := Option.some.inj (hn.trans hm.symm)
        exact absurd h (by have := hk.2; omega)
      | float bits hfin => cases hm
    | negInt k hk =>
      cases m with
      | posInt w =>
        have h := Option.some.inj (hn.trans hm.symm)
        exact absurd h (by have := hk.2; omega)
      | negInt l hl => exact beq_iff_eq.2 (Option.some.inj (hn.trans hm.symm))
      | float bits hfin => cases hm
    | float bits hfin => cases hn
  · exact Or.inr (by rwa [hvalue hn, hvalue hm])

/-- Equality with `x` means the same for the bytes of `y` and for `y`. -/
def EqAlike (y x : Json) : Prop :=
  match x, y with
  | .str _, _ | .bool _, _ => True
  | .num m, .num n => ToldApart n m
  | .num _, _ => True
  | _, _ => y.same x = false

/-- Being different from `x` means the same for the bytes of `y` and for `y`. -/
def NeAlike (y x : Json) : Prop :=
  match x, y with
  | .str _, .str _ | .bool _, .bool _ => True
  | .num m, .num n => ToldApart n m
  | _, _ => y.same x = true

/-- Being one of `xs` means the same for the bytes of `y` and for `y`. -/
def InAlike (y : Json) (xs : List Json) : Prop :=
  match y with
  | .str _ => True
  | _ => ∀ x ∈ xs, y.same x = false

/-- An element that is no string comes before the first string with `needle` in it: the
    elements after it are misread. -/
def Misread (needle : String) : List Json → Prop
  | [] => False
  | .str s :: ys => strContains (toLowercase s) needle = false ∧ Misread needle ys
  | _ :: _ => True

/-- That `x` is contained means the same for the bytes of the array `ys` and for `ys`. -/
def ContainsAlike (ys : List Json) (x : Json) : Prop :=
  match x with
  | .str needle => ¬ Misread (toLowercase needle) ys ∧
      ((∃ s, .str s ∈ ys ∧ strContains (toLowercase s) (toLowercase needle) = true) ↔
        ∃ y ∈ ys, y.same x = true)
  | _ => ∀ y ∈ ys, y.same x = false

omit [Crates] in
theorem evaluateEq_writeValue {y : Json} (hy : y.Fits) (x : Json) (rest : Bytes) :
    evaluateEq (writeValue y ++ rest) x =
      match x with
      | .str e => y.asStr.map fun a => toLowercase a == toLowercase e
      | .num n => y.asF64.map fun a => decide (|a - n.asF64| < Binary64.EPSILON)
      | .bool b => y.asBool.map (· == b)
      | _ => none := by
  cases x with
  | str e => simp [evaluateEq, readStrValue, readMsgpackStr_writeValue hy, Function.comp_def]
  | num n => simp [evaluateEq, readMsgpackNumber_writeValue hy]
  | bool b => simp [evaluateEq, readMsgpackBool_writeValue hy]
  | null => rfl
  | arr xs => rfl
  | obj fs => rfl

omit [Crates] [Lowercase] in
theorem toldApart_iff {n m : Number} :
    decide (|n.asF64 - m.asF64| < Binary64.EPSILON) = n.same m ↔ ToldApart n m := by
  unfold ToldApart
  cases hsame : n.same m with
  | true =>
    have heq := Number.asF64_eq_of_same hsame
    simp [heq, Binary64.EPSILON]
  | false => simp

omit [Crates] in
/-- **Equality**, on bytes and on values. -/
theorem evaluateEq_alike {y : Json} (hy : y.Fits) (x : Json) (rest : Bytes) :
    (evaluateEq (writeValue y ++ rest) x).getD false = matchesValue y x ↔ EqAlike y x := by
  rw [evaluateEq_writeValue hy]
  cases x with
  | str e => cases y <;> simp [EqAlike, matchesValue, Json.asStr, Json.same]
  | bool b => cases y <;> simp [EqAlike, matchesValue, Json.asBool, Json.same]
  | num m =>
    cases y with
    | num n => exact toldApart_iff
    | _ => simp [EqAlike, matchesValue, Json.asF64, Json.same]
  | null => cases y <;> simp [EqAlike, matchesValue, Json.same]
  | arr xs => cases y <;> simp [EqAlike, matchesValue, Json.same]
  | obj fs => cases y <;> simp [EqAlike, matchesValue, Json.same]

omit [Crates] in
/-- **Difference**, on bytes and on values. -/
theorem evaluateNe_alike {y : Json} (hy : y.Fits) (x : Json) (rest : Bytes) :
    ((evaluateEq (writeValue y ++ rest) x).map (!·)).getD false = !matchesValue y x ↔
      NeAlike y x := by
  rw [evaluateEq_writeValue hy]
  cases x with
  | str e => cases y <;> simp [NeAlike, matchesValue, Json.asStr, Json.same]
  | bool b => cases y <;> simp [NeAlike, matchesValue, Json.asBool, Json.same]
  | num m =>
    cases y with
    | num n =>
      simp only [NeAlike, matchesValue, Json.asF64, Json.same, Option.map_some, Option.getD_some]
      rw [← toldApart_iff]
      exact Bool.not_inj_iff
    | _ => simp [NeAlike, matchesValue, Json.asF64, Json.same]
  | null => cases y <;> simp [NeAlike, matchesValue, Json.same]
  | arr xs => cases y <;> simp [NeAlike, matchesValue, Json.same]
  | obj fs => cases y <;> simp [NeAlike, matchesValue, Json.same]

omit [Crates] [Lowercase] in
theorem false_eq_any {α : Type} {xs : List α} {f : α → Bool} :
    false = xs.any f ↔ ∀ x ∈ xs, f x = false := by
  rw [eq_comm, List.any_eq_false]
  simp

omit [Crates] in
/-- **Membership**, on bytes and on values. -/
theorem oneOf_alike {y : Json} (hy : y.Fits) (xs : List Json) (rest : Bytes) :
    oneOf (writeValue y ++ rest) xs = xs.any (fun x => matchesValue y x) ↔ InAlike y xs := by
  have hread : readStrValue (writeValue y ++ rest) = y.asStr.map toLowercase := by
    rw [readStrValue, readMsgpackStr_writeValue hy]
  rw [oneOf, hread]
  cases hs : y.asStr with
  | some a =>
    obtain rfl : y = .str a := by cases y <;> simp_all [Json.asStr]
    simp only [InAlike, iff_true, Option.map_some]
    refine congrArg (fun f => xs.any f) (funext fun x => ?_)
    cases x <;> rfl
  | none =>
    have hmatch : ∀ x, matchesValue y x = y.same x := by
      intro x
      cases y <;> first | rfl | cases hs
    have halike : InAlike y xs ↔ ∀ x ∈ xs, y.same x = false := by
      cases y <;> first | exact Iff.rfl | cases hs
    have hnone : (xs.any fun _ => false) = false :=
      List.any_eq_false.2 fun _ _ => Bool.false_ne_true
    simp only [hmatch, halike, Option.map_none]
    rw [hnone]
    exact false_eq_any

omit [Crates] [Lowercase] in
theorem evaluateNumber_writeValue {y : Json} (hy : y.Fits) (rel : ℚ → ℚ → Bool) (x : Json)
    (rest : Bytes) :
    (evaluateNumber rel (writeValue y ++ rest) x).getD false = compareNumbers rel y x := by
  rw [evaluateNumber, readMsgpackNumber_writeValue hy, compareNumbers]
  cases y.asF64 <;> cases x.asF64 <;> rfl

/-- The strings of an array are searched, as far as it is not misread. -/
theorem scanElements_flatMap {needle : String} {ys : List Json} (hys : ∀ y ∈ ys, y.Stored)
    (h : ¬ Misread needle ys) (rest : Bytes) :
    scanElements needle ys.length (ys.flatMap writeValue ++ rest) = true ↔
      ∃ s, .str s ∈ ys ∧ strContains (toLowercase s) needle = true := by
  induction ys with
  | nil => simp [scanElements]
  | cons y ys ih =>
    cases y with
    | str s =>
      have hfits := Json.fits_str.1 (hys _ List.mem_cons_self).fits
      rw [List.flatMap_cons, writeValue, List.append_assoc, List.length_cons, scanElements,
        readMsgpackStr_writeStr hfits]
      dsimp only
      split_ifs with hs
      · simp only [true_iff]
        exact ⟨s, List.mem_cons_self, hs⟩
      · have hs : strContains (toLowercase s) needle = false := by simpa using hs
        rw [ih (fun y hy => hys y (List.mem_cons_of_mem _ hy)) fun hmis => h ⟨hs, hmis⟩]
        constructor
        · rintro ⟨s', hmem, hs'⟩
          exact ⟨s', List.mem_cons_of_mem _ hmem, hs'⟩
        · rintro ⟨s', hmem, hs'⟩
          rcases List.mem_cons.1 hmem with heq | hmem
          · cases heq
            rw [hs] at hs'
            cases hs'
          · exact ⟨s', hmem, hs'⟩
    | null => exact absurd trivial h
    | bool b => exact absurd trivial h
    | num n => exact absurd trivial h
    | arr xs => exact absurd trivial h
    | obj fs => exact absurd trivial h

/-- **Containment** in an array, on bytes and on values. -/
theorem evaluateContains_arr {ys : List Json} (hys : (Json.arr ys).Stored) (x : Json) (rest : Bytes)
    (hmis : ∀ s, x = .str s → ¬ Misread (toLowercase s) ys) :
    (evaluateContains (writeValue (.arr ys) ++ rest) x).getD false =
        ys.any (fun y => y.same x) ↔ ContainsAlike ys x := by
  cases x with
  | str needle =>
    have hread : readStrValue (writeValue (.arr ys) ++ rest) = none := by
      rw [readStrValue, readMsgpackStr_writeValue hys.fits]
      rfl
    have hscan := scanElements_flatMap (fun y hy => hys.item hy) (hmis needle rfl) rest
    simp only [evaluateContains, Json.asStr, Option.bind_eq_bind, Option.bind_some, hread,
      readMsgpackArrayLen_arr hys.fits, Option.pure_def, Option.getD_some, ContainsAlike,
      hmis needle rfl, not_false_eq_true, true_and]
    rw [Bool.eq_iff_iff, hscan, List.any_eq_true]
  | null => exact false_eq_any
  | bool b => exact false_eq_any
  | num n => exact false_eq_any
  | arr xs => exact false_eq_any
  | obj fs => exact false_eq_any

/-- Containment in a string, and in what contains nothing. -/
theorem evaluateContains_not_array {y : Json} (hy : y.Fits) (h : y.asArray = none) (x : Json)
    (rest : Bytes) :
    (evaluateContains (writeValue y ++ rest) x).getD false =
      match y, x with
      | .str a, .str b => strContains (toLowercase a) (toLowercase b)
      | _, _ => false := by
  have hread : readStrValue (writeValue y ++ rest) = y.asStr.map toLowercase := by
    rw [readStrValue, readMsgpackStr_writeValue hy]
  have harr := readMsgpackArrayLen_not_array hy h rest
  simp only [evaluateContains, hread, harr]
  cases x <;> cases y <;> rfl

/-! ## Field conditions -/

/-- An operator means the same for the bytes of a value and for the value, or for a missing
    field. -/
def HarmlessOp (v : Option Json) (op : WhereOperator) (x : Json) : Prop :=
  match op, v with
  | .eq, none => x ≠ .null
  | .notEq, none => x = .null
  | .isIn, none => ∀ xs, x = .arr xs → .null ∉ xs
  | .notIn, none => ∀ xs, x = .arr xs → .null ∈ xs
  | .eq, some y => EqAlike y x
  | .notEq, some y => NeAlike y x
  | .isIn, some y | .notIn, some y => ∀ xs, x = .arr xs → InAlike y xs
  | .contains, some (.arr ys) => ContainsAlike ys x
  | _, _ => True

/-- The condition is one on which the evaluators agree. -/
def Leaf.Harmless (doc : Json) : Leaf → Prop
  | .equals field x => ∀ y ∈ doc.getNestedValue (splitDots field), EqAlike y x
  | .cond field op x =>
    ∀ o ∈ fromStr op, HarmlessOp (doc.getNestedValue (splitDots field)) o x

/-- The condition looks for text in an array that is misread before it is found. -/
def Leaf.Misread (doc : Json) : Leaf → Prop
  | .equals _ _ => False
  | .cond field op x => fromStr op = some .contains ∧ ∃ ys s,
      doc.getNestedValue (splitDots field) = some (.arr ys) ∧ x = .str s ∧
        MoltenDB.Misread (toLowercase s) ys

omit [Crates] [Lowercase] in
theorem null_same {x : Json} : Json.null.same x = true ↔ x = .null := by
  cases x <;> simp [Json.same]

omit [Crates] in
theorem any_matches_null {xs : List Json} :
    (xs.any fun v => matchesValue .null v) = true ↔ .null ∈ xs := by
  have hmatch : ∀ v, matchesValue .null v = Json.null.same v := fun v => by cases v <;> rfl
  simp [hmatch, null_same]

/-- What an operator gives on a decoded value; an error does not hold. -/
def passes (docVal : Json) (op : String) (x : Json) : Bool :=
  match evaluateCondition docVal op x with
  | .ok passed => passed
  | .error _ => false

/-- **An operator on a value**, on its bytes and decoded. -/
theorem evaluateSlice_alike {y : Json} (hy : y.Stored) {field op : String} {x : Json}
    {o : WhereOperator} (hdoc : (Leaf.cond field op x).documented = true) (hop : fromStr op = some o)
    (hmis : o = .contains → ∀ ys, y = .arr ys → ∀ s, x = .str s → ¬ Misread (toLowercase s) ys)
    (rest : Bytes) :
    (evaluateSlice (writeValue y ++ rest) op x).getD false = passes y op x ↔
      HarmlessOp (some y) o x := by
  have hdoc := (Bool.and_eq_true_iff.1 hdoc).2
  simp only [hop] at hdoc
  simp only [evaluateSlice, passes, evaluateCondition, hop, Option.bind_eq_bind, Option.bind_some]
  have hrel : ∀ rel, (evaluateNumber rel (writeValue y ++ rest) x).getD false =
      compareNumbers rel y x := fun rel => evaluateNumber_writeValue hy.fits rel x rest
  cases o with
  | eq => exact evaluateEq_alike hy.fits x rest
  | notEq => exact evaluateNe_alike hy.fits x rest
  | gt => exact iff_of_true (hrel _) trivial
  | gte => exact iff_of_true (hrel _) trivial
  | lt => exact iff_of_true (hrel _) trivial
  | lte => exact iff_of_true (hrel _) trivial
  | isIn =>
    obtain ⟨xs, rfl⟩ : ∃ xs, x = .arr xs := by cases x <;> simp_all [Json.asArray]
    have halike := oneOf_alike hy.fits xs rest
    simp only [HarmlessOp, Json.arr.injEq, forall_eq', ← halike]
    exact Iff.rfl
  | notIn =>
    obtain ⟨xs, rfl⟩ : ∃ xs, x = .arr xs := by cases x <;> simp_all [Json.asArray]
    have halike := oneOf_alike hy.fits xs rest
    simp only [HarmlessOp, Json.arr.injEq, forall_eq', ← halike]
    exact Bool.not_inj_iff
  | contains =>
    cases harr : y.asArray with
    | some ys =>
      obtain rfl : y = .arr ys := by cases y <;> simp_all [Json.asArray]
      exact evaluateContains_arr hy x rest fun s hs => hmis rfl ys rfl s hs
    | none =>
      rw [evaluateContains_not_array hy.fits harr]
      cases y with
      | arr ys => cases harr
      | str a => cases x <;> exact iff_of_true rfl trivial
      | null => exact iff_of_true rfl trivial
      | bool b => exact iff_of_true rfl trivial
      | num n => exact iff_of_true rfl trivial
      | obj fs => exact iff_of_true rfl trivial
  | or => cases hdoc
  | and => cases hdoc

omit [Crates] in
/-- **An operator on a missing field**, which holds of no bytes and is decoded as null. -/
theorem missing_alike {field op : String} {x : Json} {o : WhereOperator}
    (hdoc : (Leaf.cond field op x).documented = true) (hop : fromStr op = some o) :
    false = passes .null op x ↔ HarmlessOp none o x := by
  have hdoc := (Bool.and_eq_true_iff.1 hdoc).2
  have hmatch : ∀ v, matchesValue .null v = Json.null.same v := fun v => by cases v <;> rfl
  simp only [hop] at hdoc
  simp only [passes, evaluateCondition, hop]
  cases o with
  | eq =>
    rw [HarmlessOp, ne_eq, ← null_same, hmatch]
    cases Json.null.same x <;> simp
  | notEq =>
    rw [HarmlessOp, ← null_same, hmatch]
    cases Json.null.same x <;> simp
  | isIn =>
    obtain ⟨xs, rfl⟩ : ∃ xs, x = .arr xs := by cases x <;> simp_all [Json.asArray]
    simp only [HarmlessOp, Json.arr.injEq, forall_eq', ← any_matches_null]
    change false = xs.any _ ↔ _
    cases xs.any fun v => matchesValue .null v <;> simp
  | notIn =>
    obtain ⟨xs, rfl⟩ : ∃ xs, x = .arr xs := by cases x <;> simp_all [Json.asArray]
    simp only [HarmlessOp, Json.arr.injEq, forall_eq', ← any_matches_null]
    change false = !xs.any _ ↔ _
    cases xs.any fun v => matchesValue .null v <;> simp
  | gt => exact iff_of_true rfl trivial
  | gte => exact iff_of_true rfl trivial
  | lt => exact iff_of_true rfl trivial
  | lte => exact iff_of_true rfl trivial
  | contains => exact iff_of_true rfl trivial
  | or => cases hdoc
  | and => cases hdoc

/-- **A field condition that is not misread** is evaluated alike on the bytes and on the
    document exactly if it is harmless. -/
theorem evaluateLeaf_alike {doc : Json} (hd : UserDocument doc) {ℓ : Leaf}
    (hdoc : ℓ.documented = true) (hmis : ¬ ℓ.Misread doc) :
    evaluateLeafMsgpack (valueToMsgpack doc) ℓ = evaluateLeaf doc ℓ ↔ ℓ.Harmless doc := by
  cases ℓ with
  | equals field x =>
    have hread := evaluatePredicateMsgpack_user hd field (asStr .eq) x
    rw [evaluateLeafMsgpack, evaluateLeaf, Leaf.Harmless]
    cases hv : doc.getNestedValue (splitDots field) with
    | none =>
      rw [hv] at hread
      rw [show evaluatePredicateMsgpack (valueToMsgpack doc) field (asStr .eq) x = none from hread]
      simp
    | some y =>
      rw [hv] at hread
      obtain ⟨hy, rest, hslice⟩ := hread
      have heq : evaluateSlice (writeValue y ++ rest) (asStr .eq) x =
        evaluateEq (writeValue y ++ rest) x := rfl
      rw [hslice, heq]
      simp [evaluateEq_alike hy.fits]
  | cond field op x =>
    have hread := evaluatePredicateMsgpack_user hd field op x
    obtain ⟨o, hop⟩ : ∃ o, fromStr op = some o := by
      cases hop : fromStr op with
      | some o => exact ⟨o, rfl⟩
      | none => simp [Leaf.documented, hop] at hdoc
    rw [evaluateLeafMsgpack, evaluateLeaf, Leaf.Harmless, hop]
    cases hv : doc.getNestedValue (splitDots field) with
    | none =>
      rw [hv] at hread
      rw [show evaluatePredicateMsgpack (valueToMsgpack doc) field op x = none from hread]
      simp only [Option.mem_def, Option.some.injEq, forall_eq']
      exact missing_alike hdoc hop
    | some y =>
      rw [hv] at hread
      obtain ⟨hy, rest, hslice⟩ := hread
      have hmis' : o = .contains → ∀ ys, y = .arr ys → ∀ s, x = .str s →
          ¬ Misread (toLowercase s) ys := by
        rintro rfl ys rfl s rfl hread
        exact hmis ⟨hop, ys, s, hv, rfl, hread⟩
      rw [hslice]
      simp only [Option.mem_def, Option.some.injEq, forall_eq']
      exact evaluateSlice_alike hy hdoc hop hmis' rest

omit [Crates] in
/-- What is harmless is not misread. -/
theorem Leaf.Harmless.not_misread {doc : Json} {ℓ : Leaf} (h : ℓ.Harmless doc) :
    ¬ ℓ.Misread doc := by
  cases ℓ with
  | equals field x => exact id
  | cond field op x =>
    rintro ⟨hop, ys, s, hv, rfl, hmis⟩
    have halike := h .contains hop
    rw [hv] at halike
    exact halike.1 hmis

/-- The clause of one field condition. -/
def Leaf.clause : Leaf → Json
  | .equals field x => .obj [(field, x)]
  | .cond field op x => .obj [(field, .obj [(op, x)])]

omit [Crates] [Lowercase] in
theorem Leaf.clauseOver {ℓ : Leaf} (h : ℓ.documented = true) {P : Leaf → Prop} (hP : P ℓ) :
    ClauseOver P ℓ.clause := by
  cases ℓ with
  | equals field x =>
    have hkey : ¬ combines field := by
      intro hc
      simp [Leaf.documented, hc] at h
    cases x with
    | arr xs => simp [Leaf.documented, Json.asArray] at h
    | obj fs => simp [Leaf.documented, Json.isObject] at h
    | null => exact ⟨by simp [clause, wellFormed, wellFormedEntries, wellFormedEntry, hkey],
        by simpa [clause, leaves, leavesEntries, leavesEntry, fieldLeaves] using hP⟩
    | bool b => exact ⟨by simp [clause, wellFormed, wellFormedEntries, wellFormedEntry, hkey],
        by simpa [clause, leaves, leavesEntries, leavesEntry, fieldLeaves] using hP⟩
    | num n => exact ⟨by simp [clause, wellFormed, wellFormedEntries, wellFormedEntry, hkey],
        by simpa [clause, leaves, leavesEntries, leavesEntry, fieldLeaves] using hP⟩
    | str s => exact ⟨by simp [clause, wellFormed, wellFormedEntries, wellFormedEntry, hkey],
        by simpa [clause, leaves, leavesEntries, leavesEntry, fieldLeaves] using hP⟩
  | cond field op x =>
    have hkey : ¬ combines field := by
      intro hc
      simp [Leaf.documented, hc] at h
    exact ⟨by simp [clause, wellFormed, wellFormedEntries, wellFormedEntry, hkey],
      by simpa [clause, leaves, leavesEntries, leavesEntry, fieldLeaves] using hP⟩

omit [Crates] [Lowercase] in
theorem holdsBy_clause {ℓ : Leaf} (h : ℓ.documented = true) (p : Leaf → Bool) :
    holdsBy p ℓ.clause = p ℓ := by
  cases ℓ with
  | equals field x =>
    have hkey : ¬ combines field := by
      intro hc
      simp [Leaf.documented, hc] at h
    rw [Leaf.clause, holdsBy, holdsEntries, holdsEntries, holdsEntry_field p hkey, Bool.and_true]
    cases x with
    | obj fs => simp [Leaf.documented, Json.isObject] at h
    | _ => simp [fieldLeaves]
  | cond field op x =>
    have hkey : ¬ combines field := by
      intro hc
      simp [Leaf.documented, hc] at h
    rw [Leaf.clause, holdsBy, holdsEntries, holdsEntries, holdsEntry_field p hkey]
    simp [fieldLeaves]

/-- The two evaluators accept the document by the clause, or both do not. -/
def Agree (doc q : Json) : Prop :=
  evaluateWhereMsgpack (valueToMsgpack doc) q = some true ↔ evaluateWhere doc q = .ok true

/-- **Raw and decoded WHERE.**  The evaluators agree on the clauses over some documented
    field conditions if each of these is harmless; and if they agree on all such clauses,
    each condition is harmless, or one that is misread. -/
theorem where_agree {doc : Json} (hd : UserDocument doc) (P : Leaf → Prop)
    (hP : ∀ ℓ, P ℓ → ℓ.documented = true) :
    ((∀ ℓ, P ℓ → ℓ.Harmless doc) → ∀ q, ClauseOver P q → Agree doc q) ∧
      ((∀ q, ClauseOver P q → Agree doc q) → ∀ ℓ, P ℓ → ℓ.Harmless doc ∨ ℓ.Misread doc) := by
  have hagree : ∀ q, ClauseOver P q →
      (Agree doc q ↔
        holdsBy (evaluateLeafMsgpack (valueToMsgpack doc)) q = holdsBy (evaluateLeaf doc) q) := by
    intro q hq
    rw [Agree, evaluateWhereMsgpack_eq _ hq,
      evaluateWhere_eq doc ⟨hq.wellFormed, fun ℓ hℓ => hP ℓ (hq.leaves ℓ hℓ)⟩, Option.some.injEq,
      Except.ok.injEq]
    exact Bool.eq_iff_iff.symm
  constructor
  · intro hharmless q hq
    refine (hagree q hq).2 (holdsBy_congr ⟨hq.wellFormed, fun ℓ hℓ => ?_⟩)
    have hℓ := hharmless ℓ (hq.leaves ℓ hℓ)
    exact (evaluateLeaf_alike hd (hP ℓ (hq.leaves _ ‹_›)) hℓ.not_misread).2 hℓ
  · intro hall ℓ hℓ
    by_cases hmis : ℓ.Misread doc
    · exact Or.inr hmis
    · have hq := Leaf.clauseOver (hP ℓ hℓ) hℓ
      have heq := (hagree ℓ.clause hq).1 (hall ℓ.clause hq)
      rw [holdsBy_clause (hP ℓ hℓ), holdsBy_clause (hP ℓ hℓ)] at heq
      exact Or.inl ((evaluateLeaf_alike hd (hP ℓ hℓ) hmis).1 heq)

end

/-- A document on which `$gt`, `$eq` and an implicit equality agree, in all clauses over them. -/
def plainDoc : Json := .obj [("a", .obj [("n", .ofU64 3)]), ("b", .str "Text")]

/-- Three conditions on `plainDoc`. -/
def plainLeaves : List Leaf :=
  [.cond "a.n" "$gt" (.ofU64 2), .cond "a.n" "$equals" (.ofU64 4), .equals "b" (.str "tEXT")]

/-- A clause over the three conditions. -/
def plainClause : Json :=
  .obj [("$or", .arr [.obj [("a.n", .obj [("$gt", .ofU64 2), ("$equals", .ofU64 4)])],
    .obj [("b", .str "tEXT")]])]

theorem where_agree_plain :
    letI := Crates.plain
    letI := Lowercase.ascii
    Agree plainDoc plainClause := by
  let _ := Crates.plain
  let _ := Lowercase.ascii
  have hclause : ClauseOver (· ∈ plainLeaves) plainClause := by
    refine ⟨by decide +kernel, fun ℓ hℓ => ?_⟩
    rwa [show leaves plainClause = plainLeaves by rfl] at hℓ
  have hdoc : UserDocument plainDoc := ⟨rfl, by decide +kernel, by decide +kernel, by decide +kernel⟩
  refine (where_agree hdoc (· ∈ plainLeaves) (by decide +kernel)).1 ?_ plainClause hclause
  have hn : plainDoc.getNestedValue (splitDots "a.n") = some (.ofU64 3) := by decide +kernel
  have hb : plainDoc.getNestedValue (splitDots "b") = some (.str "Text") := by decide +kernel
  have hgt : fromStr "$gt" = some .gt := by decide +kernel
  have heq : fromStr "$equals" = some .eq := by decide +kernel
  rintro ℓ hℓ
  rcases List.mem_cons.1 hℓ with rfl | hℓ
  · rintro o ho
    obtain rfl : WhereOperator.gt = o := Option.some.inj (hgt.symm.trans ho)
    rw [hn]
    exact trivial
  rcases List.mem_cons.1 hℓ with rfl | hℓ
  · rintro o ho
    obtain rfl : WhereOperator.eq = o := Option.some.inj (heq.symm.trans ho)
    rw [hn]
    exact toldApart_of_toInt rfl rfl (by decide +kernel) (by decide +kernel)
  obtain rfl := List.mem_singleton.1 hℓ
  rintro y hy
  obtain rfl : Json.str "Text" = y := Option.some.inj (hb.symm.trans hy)
  exact trivial

/-- A missing field is different from 1 in the decoded document only. -/
theorem where_differs :
    letI := Crates.plain
    letI := Lowercase.ascii
    evaluateWhere (.obj [("b", .ofU64 1)]) (.obj [("a", .obj [("$ne", .ofU64 1)])]) = .ok true ∧
      evaluateWhereMsgpack (valueToMsgpack (.obj [("b", .ofU64 1)]))
        (.obj [("a", .obj [("$ne", .ofU64 1)])]) = some false := by
  decide +kernel

end MoltenDB
