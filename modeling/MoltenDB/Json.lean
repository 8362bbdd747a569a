/-
  JSON values as the program holds them: numbers are unsigned or negative 64-bit
  integers or finite doubles, objects are maps ordered by key.
-/
import MoltenDB.Lib.Fields

namespace MoltenDB

/-- The exponent bits of a double are not all set: it is neither infinite nor NaN. -/
def F64.Finite (bits : UInt64) : Prop := (bits >>> 52) &&& 0x7ff ≠ 0x7ff

instance (bits : UInt64) : Decidable (F64.Finite bits) := inferInstanceAs (Decidable (_ ≠ _))

/-- A JSON number; a double is given by its bits. -/
inductive Number
  | posInt (u : UInt64)
  | negInt (i : ℤ) (h : -2 ^ 63 ≤ i ∧ i < 0)
  | float (bits : UInt64) (h : F64.Finite bits)
  deriving DecidableEq

inductive Json
  | null
  | bool (b : Bool)
  | num (n : Number)
  | str (s : String)
  | arr (xs : List Json)
  | obj (fs : List (String × Json))

namespace Number

/-- The number `i` of the signed 64-bit type. -/
def ofI64 (i : ℤ) : Number :=
  if h : -2 ^ 63 ≤ i ∧ i < 0 then negInt i h else posInt (UInt64.ofNat i.toNat)

def asU64 : Number → Option UInt64
  | posInt u => some u
  | _ => none

def asI64 : Number → Option ℤ
  | posInt u => if u.toNat < 2 ^ 63 then some u.toNat else none
  | negInt i _ => some i
  | float .. => none

theorem ofI64_of_neg {i : ℤ} (h : -2 ^ 63 ≤ i ∧ i < 0) : ofI64 i = negInt i h := dif_pos h

end Number

namespace Json

/-! ## Equality is decidable -/

mutual
def decEq : (a b : Json) → Decidable (a = b)
  | null, null => isTrue rfl
  | bool a, bool b => if h : a = b then isTrue (by rw [h]) else isFalse (by simp [h])
  | num a, num b => if h : a = b then isTrue (by rw [h]) else isFalse (by simp [h])
  | str a, str b => if h : a = b then isTrue (by rw [h]) else isFalse (by simp [h])
  | arr a, arr b => match decEqList a b with
    | isTrue h => isTrue (by rw [h])
    | isFalse h => isFalse (by simp [h])
  | obj a, obj b => match decEqFields a b with
    | isTrue h => isTrue (by rw [h])
    | isFalse h => isFalse (by simp [h])
  | null, bool _ | null, num _ | null, str _ | null, arr _ | null, obj _
  | bool _, null | bool _, num _ | bool _, str _ | bool _, arr _ | bool _, obj _
  | num _, null | num _, bool _ | num _, str _ | num _, arr _ | num _, obj _
  | str _, null | str _, bool _ | str _, num _ | str _, arr _ | str _, obj _
  | arr _, null | arr _, bool _ | arr _, num _ | arr _, str _ | arr _, obj _
  | obj _, null | obj _, bool _ | obj _, num _ | obj _, str _ | obj _, arr _ => isFalse nofun

def decEqList : (a b : List Json) → Decidable (a = b)
  | [], [] => isTrue rfl
  | x :: xs, y :: ys => match decEq x y, decEqList xs ys with
    | isTrue h, isTrue h' => isTrue (by rw [h, h'])
    | isFalse h, _ => isFalse (by simp [h])
    | _, isFalse h => isFalse (by simp [h])
  | [], _ :: _ | _ :: _, [] => isFalse nofun

def decEqFields : (a b : List (String × Json)) → Decidable (a = b)
  | [], [] => isTrue rfl
  | (k, x) :: xs, (k', y) :: ys =>
    if hk : k = k' then
      match decEq x y, decEqFields xs ys with
      | isTrue h, isTrue h' => isTrue (by rw [hk, h, h'])
      | isFalse h, _ => isFalse (by simp [h])
      | _, isFalse h => isFalse (by simp [h])
    else isFalse (by simp [hk])
  | [], _ :: _ | _ :: _, [] => isFalse nofun
end

instance : DecidableEq Json := decEq

/-- Induction on a value: an array or object has the property when all of its members do. -/
@[induction_eliminator, elab_as_elim]
theorem induct {P : Json → Prop} (null : P null) (bool : ∀ b, P (bool b)) (num : ∀ n, P (num n))
    (str : ∀ s, P (str s)) (arr : ∀ xs, (∀ x ∈ xs, P x) → P (arr xs))
    (obj : ∀ fs, (∀ p ∈ fs, P p.2) → P (obj fs)) (v : Json) : P v :=
  Json.rec (motive_1 := P) (motive_2 := fun xs => ∀ x ∈ xs, P x)
    (motive_3 := fun fs => ∀ p ∈ fs, P p.2) (motive_4 := fun p => P p.2)
    null bool num str arr obj (by simp)
    (fun _ _ hx hxs => List.forall_mem_cons.2 ⟨hx, hxs⟩) (by simp)
    (fun _ _ hp hfs => List.forall_mem_cons.2 ⟨hp, hfs⟩) (fun _ _ h => h) v

/-! ## Accessors -/

def asU64 : Json → Option UInt64
  | num n => n.asU64
  | _ => none

def asStr : Json → Option String
  | str s => some s
  | _ => none

def asBool : Json → Option Bool
  | bool b => some b
  | _ => none

def asArray : Json → Option (List Json)
  | arr xs => some xs
  | _ => none

def asObject : Json → Option (List (String × Json))
  | obj fs => some fs
  | _ => none

theorem eq_obj_of_asObject {v : Json} {fs : List (String × Json)} (h : v.asObject = some fs) :
    v = .obj fs := by
  cases v with
  | obj => rw [Option.some.inj h]
  | _ => cases h

def isObject : Json → Bool
  | obj _ => true
  | _ => false

/-- The field `k` of an object. -/
def get (v : Json) (k : String) : Option Json := v.asObject.bind fun fs => fs.lookup k

/-- The JSON value of an unsigned 64-bit integer. -/
def ofU64 (u : UInt64) : Json := num (.posInt u)

@[simp] theorem asU64_ofU64 (u : UInt64) : (ofU64 u).asU64 = some u := rfl

@[simp] theorem get_obj (fs : List (String × Json)) (k : String) :
    (obj fs).get k = fs.lookup k := rfl

/-- Set the field `k` of an object; other values are left alone. -/
def set (v : Json) (k : String) (x : Json) : Json :=
  match v with
  | obj fs => obj (Fields.insert k x fs)
  | v => v

@[simp] theorem set_obj (fs : List (String × Json)) (k : String) (x : Json) :
    (obj fs).set k x = obj (Fields.insert k x fs) := rfl

/-! ## Nesting -/

mutual
/-- How many arrays and objects are nested in each other. -/
def depth : Json → ℕ
  | arr xs => depthItems xs + 1
  | obj fs => depthFields fs + 1
  | _ => 0

def depthItems : List Json → ℕ
  | [] => 0
  | x :: xs => max (depth x) (depthItems xs)

def depthFields : List (String × Json) → ℕ
  | [] => 0
  | (_, x) :: fs => max (depth x) (depthFields fs)
end

theorem depth_lt_arr {x : Json} {xs : List Json} (h : x ∈ xs) : x.depth < (arr xs).depth := by
  have hle : x.depth ≤ depthItems xs := by
    induction xs with
    | nil => cases h
    | cons y xs ih =>
      rcases List.mem_cons.1 h with rfl | h
      · exact le_max_left _ _
      · exact (ih h).trans (le_max_right _ _)
  rw [depth]; omega

theorem depth_lt_obj {p : String × Json} {fs : List (String × Json)} (h : p ∈ fs) :
    p.2.depth < (obj fs).depth := by
  have hle : p.2.depth ≤ depthFields fs := by
    induction fs with
    | nil => cases h
    | cons q fs ih =>
      rcases List.mem_cons.1 h with rfl | h
      · exact le_max_left _ _
      · exact (ih h).trans (le_max_right _ _)
  rw [depth]; omega

theorem depth_arr_le_iff {xs : List Json} {n : ℕ} :
    (arr xs).depth ≤ n + 1 ↔ ∀ x ∈ xs, x.depth ≤ n := by
  rw [depth, Nat.add_le_add_iff_right]
  induction xs with
  | nil => simp [depthItems]
  | cons x xs ih => rw [depthItems, max_le_iff, ih, List.forall_mem_cons]

theorem depth_obj_le_iff {fs : List (String × Json)} {n : ℕ} :
    (obj fs).depth ≤ n + 1 ↔ ∀ p ∈ fs, p.2.depth ≤ n := by
  rw [depth, Nat.add_le_add_iff_right]
  induction fs with
  | nil => simp [depthFields]
  | cons p fs ih => rw [depthFields, max_le_iff, ih, List.forall_mem_cons]

/-! ## Properties of all parts of a value -/

mutual
/-- `p` holds of the value and of all values nested in it. -/
def every (p : Json → Bool) : Json → Bool
  | arr xs => p (arr xs) && everyItem p xs
  | obj fs => p (obj fs) && everyField p fs
  | v => p v

def everyItem (p : Json → Bool) : List Json → Bool
  | [] => true
  | x :: xs => every p x && everyItem p xs

def everyField (p : Json → Bool) : List (String × Json) → Bool
  | [] => true
  | (_, x) :: fs => every p x && everyField p fs
end

theorem every_arr {p : Json → Bool} {xs : List Json} :
    (arr xs).every p = true ↔ p (arr xs) = true ∧ ∀ x ∈ xs, x.every p = true := by
  have h : everyItem p xs = true ↔ ∀ x ∈ xs, x.every p = true := by
    induction xs with
    | nil => simp [everyItem]
    | cons x xs ih => simp [everyItem, ih]
  rw [every, Bool.and_eq_true, h]

theorem every_obj {p : Json → Bool} {fs : List (String × Json)} :
    (obj fs).every p = true ↔ p (obj fs) = true ∧ ∀ f ∈ fs, f.2.every p = true := by
  have h : everyField p fs = true ↔ ∀ f ∈ fs, f.2.every p = true := by
    induction fs with
    | nil => simp [everyField]
    | cons f fs ih => simp [everyField, ih]
  rw [every, Bool.and_eq_true, h]

/-- The keys of an object are distinct and in order, as those of an ordered map are. -/
def orderedHere : Json → Bool
  | obj fs => decide (Fields.Sorted fs)
  | _ => true

/-- All objects in the value are ordered maps. -/
def Ordered (v : Json) : Prop := v.every orderedHere = true

instance (v : Json) : Decidable v.Ordered := inferInstanceAs (Decidable (_ = true))

theorem ordered_arr {xs : List Json} : (arr xs).Ordered ↔ ∀ x ∈ xs, x.Ordered := by
  simp [Ordered, every_arr, orderedHere]

theorem ordered_obj {fs : List (String × Json)} :
    (obj fs).Ordered ↔ Fields.Sorted fs ∧ ∀ p ∈ fs, p.2.Ordered := by
  simp [Ordered, every_obj, orderedHere]

end Json

end MoltenDB
