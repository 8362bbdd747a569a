/-
  What a WHERE clause says in terms of its field conditions, and that both evaluators
  follow it.
-/
import MoltenDB.Query.Msgpack
import MoltenDB.Query.Where

namespace MoltenDB

open WhereOperator

/-! ## Clauses over field conditions -/

/-- A condition on one field: implicit equality, or an operator. -/
inductive Leaf
  | equals (field : String) (value : Json)
  | cond (field op : String) (value : Json)
  deriving DecidableEq

/-- The key combines clauses. -/
def combines (key : String) : Prop := key = asStr .or ∨ key = asStr .and

instance (key : String) : Decidable (combines key) := inferInstanceAs (Decidable (_ ∨ _))

/-- The condition is a documented one: a scalar to be equal to, or an operator under one of
    its names, with an array where one is expected. -/
def Leaf.documented : Leaf → Bool
  | .equals field value => !combines field && (value.asArray.isNone && !value.isObject)
  | .cond field op value =>
    !combines field &&
      match fromStr op with
      | some .isIn | some .notIn => value.asArray.isSome
      | some .or | some .and | none => false
      | some _ => true

/-- The conditions on one field. -/
def fieldLeaves (key : String) : Json → List Leaf
  | .obj ops => ops.map fun p => .cond key p.1 p.2
  | value => [.equals key value]

mutual
/-- The field conditions of a clause. -/
def leaves : Json → List Leaf
  | .arr items => leavesItems items
  | .obj entries => leavesEntries entries
  | _ => []

def leavesItems : List Json → List Leaf
  | [] => []
  | q :: qs => leaves q ++ leavesItems qs

def leavesEntry (key : String) : Json → List Leaf
  | .arr subs => if combines key then leavesItems subs else fieldLeaves key (.arr subs)
  | value => fieldLeaves key value

def leavesEntries : List (String × Json) → List Leaf
  | [] => []
  | (key, value) :: entries => leavesEntry key value ++ leavesEntries entries
end

mutual
/-- Clauses are arrays and objects, and `$or` and `$and` combine arrays of them. -/
def wellFormed : Json → Bool
  | .arr items => wellFormedItems items
  | .obj entries => wellFormedEntries entries
  | _ => false

def wellFormedItems : List Json → Bool
  | [] => true
  | q :: qs => wellFormed q && wellFormedItems qs

def wellFormedEntry (key : String) : Json → Bool
  | .arr subs => if combines key then wellFormedItems subs else true
  | _ => !combines key

def wellFormedEntries : List (String × Json) → Bool
  | [] => true
  | (key, value) :: entries => wellFormedEntry key value && wellFormedEntries entries
end

section

variable (p : Leaf → Bool)

mutual
/-- The clause holds if the field conditions with `p` do. -/
def holdsBy : Json → Bool
  | .arr items => holdsAll items
  | .obj entries => holdsEntries entries
  | _ => false

def holdsAll : List Json → Bool
  | [] => true
  | q :: qs => holdsBy q && holdsAll qs

def holdsAny : List Json → Bool
  | [] => false
  | q :: qs => holdsBy q || holdsAny qs

def holdsEntry (key : String) : Json → Bool
  | .arr subs =>
    if key = asStr .or then holdsAny subs
    else if key = asStr .and then holdsAll subs
    else (fieldLeaves key (.arr subs)).all p
  | value => (fieldLeaves key value).all p

def holdsEntries : List (String × Json) → Bool
  | [] => true
  | (key, value) :: entries => holdsEntry key value && holdsEntries entries
end

end

/-- A well-formed clause over conditions with `P`. -/
structure ClauseOver (P : Leaf → Prop) (q : Json) : Prop where
  wellFormed : wellFormed q = true
  leaves : ∀ ℓ ∈ leaves q, P ℓ

/-! ## Induction over clauses -/

theorem mem_leavesItems {ℓ : Leaf} {qs : List Json} :
    ℓ ∈ leavesItems qs ↔ ∃ q ∈ qs, ℓ ∈ leaves q := by
  induction qs with
  | nil => simp [leavesItems]
  | cons q qs ih => simp [leavesItems, ih]

theorem mem_leavesEntries {ℓ : Leaf} {es : List (String × Json)} :
    ℓ ∈ leavesEntries es ↔ ∃ e ∈ es, ℓ ∈ leavesEntry e.1 e.2 := by
  induction es with
  | nil => simp [leavesEntries]
  | cons e es ih => simp [leavesEntries, ih]

theorem wellFormedItems_iff {qs : List Json} :
    wellFormedItems qs = true ↔ ∀ q ∈ qs, wellFormed q = true := by
  induction qs with
  | nil => simp [wellFormedItems]
  | cons q qs ih => simp [wellFormedItems, ih]

theorem wellFormedEntries_iff {es : List (String × Json)} :
    wellFormedEntries es = true ↔ ∀ e ∈ es, wellFormedEntry e.1 e.2 = true := by
  induction es with
  | nil => simp [wellFormedEntries]
  | cons e es ih => simp [wellFormedEntries, ih]

/-- One entry of a clause over conditions with `P`, if the clauses it combines have `Q`. -/
inductive EntryOver (P : Leaf → Prop) (Q : Json → Prop) : String → Json → Prop
  | or (subs : List Json) (h : ∀ q ∈ subs, Q q) : EntryOver P Q (asStr .or) (.arr subs)
  | and (subs : List Json) (h : ∀ q ∈ subs, Q q) : EntryOver P Q (asStr .and) (.arr subs)
  | field (key : String) (value : Json) (hkey : ¬ combines key)
    (h : ∀ ℓ ∈ fieldLeaves key value, P ℓ) : EntryOver P Q key value

/-- Induction over clauses: an array has the property if its items do, and an object if
    the clauses that its entries combine do. -/
theorem ClauseOver.induct {P : Leaf → Prop} {Q : Json → Prop}
    (arr : ∀ items, (∀ q ∈ items, Q q) → Q (.arr items))
    (obj : ∀ entries, (∀ e ∈ entries, EntryOver P Q e.1 e.2) → Q (.obj entries)) {q : Json}
    (hq : ClauseOver P q) : Q q := by
  -- the clauses combined by an entry are two levels down
  suffices h : (ClauseOver P q → Q q) ∧ ∀ subs, q = .arr subs → ∀ s ∈ subs, ClauseOver P s → Q s from
    h.1 hq
  clear hq
  induction q with
  | null => exact ⟨fun h => (by cases h.wellFormed), nofun⟩
  | bool b => exact ⟨fun h => (by cases h.wellFormed), nofun⟩
  | num n => exact ⟨fun h => (by cases h.wellFormed), nofun⟩
  | str s => exact ⟨fun h => (by cases h.wellFormed), nofun⟩
  | arr items ih =>
    have hitems : ∀ s ∈ items, ClauseOver P s → Q s := fun s hs => (ih s hs).1
    refine ⟨fun h => arr items fun s hs => hitems s hs ⟨?_, fun ℓ hℓ => ?_⟩, ?_⟩
    · exact wellFormedItems_iff.1 h.wellFormed s hs
    · exact h.leaves ℓ (mem_leavesItems.2 ⟨s, hs, hℓ⟩)
    · rintro subs heq
      cases heq
      exact hitems
  | obj entries ih =>
    refine ⟨fun h => obj entries fun e he => ?_, nofun⟩
    have hwf := wellFormedEntries_iff.1 h.wellFormed e he
    have hleaves : ∀ ℓ ∈ leavesEntry e.1 e.2, P ℓ := fun ℓ hℓ =>
      h.leaves ℓ (mem_leavesEntries.2 ⟨e, he, hℓ⟩)
    obtain ⟨key, value⟩ := e
    have hsub := (ih _ he).2
    dsimp only at hwf hleaves hsub ⊢
    by_cases hkey : combines key
    · cases value with
      | arr subs =>
        rw [wellFormedEntry, if_pos hkey] at hwf
        rw [leavesEntry, if_pos hkey] at hleaves
        have hsubs : ∀ s ∈ subs, Q s := fun s hs => hsub subs rfl s hs
          ⟨wellFormedItems_iff.1 hwf s hs, fun ℓ hℓ => hleaves ℓ (mem_leavesItems.2 ⟨s, hs, hℓ⟩)⟩
        rcases hkey with rfl | rfl
        · exact .or subs hsubs
        · exact .and subs hsubs
      | null => simp [wellFormedEntry, hkey] at hwf
      | bool b => simp [wellFormedEntry, hkey] at hwf
      | num n => simp [wellFormedEntry, hkey] at hwf
      | str s => simp [wellFormedEntry, hkey] at hwf
      | obj fs => simp [wellFormedEntry, hkey] at hwf
    · refine .field key value hkey fun ℓ hℓ => hleaves ℓ ?_
      cases value with
      | arr subs => rwa [leavesEntry, if_neg hkey]
      | null => exact hℓ
      | bool b => exact hℓ
      | num n => exact hℓ
      | str s => exact hℓ
      | obj fs => exact hℓ

theorem asStr_and_ne_or : asStr .and ≠ asStr .or := by decide

theorem holdsEntry_or (p : Leaf → Bool) (subs : List Json) :
    holdsEntry p (asStr .or) (.arr subs) = holdsAny p subs := by
  rw [holdsEntry, if_pos rfl]

theorem holdsEntry_and (p : Leaf → Bool) (subs : List Json) :
    holdsEntry p (asStr .and) (.arr subs) = holdsAll p subs := by
  rw [holdsEntry, if_neg asStr_and_ne_or, if_pos rfl]

theorem holdsEntry_field (p : Leaf → Bool) {key : String} (hkey : ¬ combines key) (value : Json) :
    holdsEntry p key value = (fieldLeaves key value).all p := by
  obtain ⟨hor, hand⟩ := not_or.1 hkey
  cases value with
  | arr subs => rw [holdsEntry, if_neg hor, if_neg hand]
  | null => rfl
  | bool b => rfl
  | num n => rfl
  | str s => rfl
  | obj fs => rfl

/-- **A clause depends on its field conditions only.** -/
theorem holdsBy_congr {p p' : Leaf → Bool} {q : Json} (hq : ClauseOver (fun ℓ => p ℓ = p' ℓ) q) :
    holdsBy p q = holdsBy p' q := by
  have hall : ∀ qs : List Json, (∀ q ∈ qs, holdsBy p q = holdsBy p' q) →
      holdsAll p qs = holdsAll p' qs ∧ holdsAny p qs = holdsAny p' qs := by
    intro qs h
    induction qs with
    | nil => exact ⟨rfl, rfl⟩
    | cons q qs ih =>
      obtain ⟨h1, h2⟩ := ih fun s hs => h s (List.mem_cons_of_mem _ hs)
      rw [holdsAll, holdsAll, holdsAny, holdsAny, h q List.mem_cons_self, h1, h2]
      exact ⟨rfl, rfl⟩
  refine ClauseOver.induct (Q := fun q => holdsBy p q = holdsBy p' q) (fun items h => ?_)
    (fun entries h => ?_) hq
  · exact (hall items h).1
  · rw [holdsBy, holdsBy]
    induction entries with
    | nil => rfl
    | cons e entries ih =>
      have hrest := ih fun e he => h e (List.mem_cons_of_mem _ he)
      have hentry : holdsEntry p e.1 e.2 = holdsEntry p' e.1 e.2 := by
        have hover := h e List.mem_cons_self
        generalize e.1 = key, e.2 = value at hover
        cases hover with
        | or subs hs => rw [holdsEntry_or, holdsEntry_or, (hall subs hs).2]
        | and subs hs => rw [holdsEntry_and, holdsEntry_and, (hall subs hs).1]
        | field key value hkey hs =>
          rw [holdsEntry_field p hkey, holdsEntry_field p' hkey]
          rw [Bool.eq_iff_iff, List.all_eq_true, List.all_eq_true]
          exact forall₂_congr fun ℓ hℓ => by rw [hs ℓ hℓ]
      rw [holdsEntries, holdsEntries, hentry, hrest]

/-! ## On decoded documents -/

section

variable [Lowercase]

/-- A field condition on a decoded document. -/
def evaluateLeaf (doc : Json) : Leaf → Bool
  | .equals field value =>
    match doc.getNestedValue (splitDots field) with
    | some dv => matchesValue dv value
    | none => false
  | .cond field op value =>
    match evaluateCondition ((doc.getNestedValue (splitDots field)).getD .null) op value with
    | .ok passed => passed
    | .error _ => false

theorem evaluateEntry_or (doc : Json) (subs : List Json) :
    evaluateEntry doc (asStr .or) (.arr subs) = evaluateAny doc subs := by
  rw [evaluateEntry, if_pos rfl]

theorem evaluateEntry_and (doc : Json) (subs : List Json) :
    evaluateEntry doc (asStr .and) (.arr subs) = evaluateAll doc subs := by
  rw [evaluateEntry, if_neg asStr_and_ne_or, if_pos rfl]

theorem evaluateEntry_field (doc : Json) {key : String} (hkey : ¬ combines key) (value : Json) :
    evaluateEntry doc key value = evaluateField doc key value := by
  obtain ⟨hor, hand⟩ := not_or.1 hkey
  cases value with
  | arr subs => rw [evaluateEntry, if_neg hor, if_neg hand]
  | null => exact if_neg hkey
  | bool b => exact if_neg hkey
  | num n => exact if_neg hkey
  | str s => exact if_neg hkey
  | obj fs => exact if_neg hkey

/-- A documented operator is evaluated without an error. -/
theorem evaluateCondition_documented (docVal : Json) {value : Json} {field op : String}
    (h : (Leaf.cond field op value).documented = true) :
    ∃ passed, evaluateCondition docVal op value = .ok passed := by
  simp only [Leaf.documented, Bool.and_eq_true] at h
  replace h := h.2
  unfold evaluateCondition
  cases hop : fromStr op with
  | none =>
    rw [hop] at h
    cases h
  | some o =>
    rw [hop] at h
    cases o with
    | isIn => cases value <;> first | exact ⟨_, rfl⟩ | cases h
    | notIn => cases value <;> first | exact ⟨_, rfl⟩ | cases h
    | contains => cases docVal <;> first | exact ⟨_, rfl⟩ | (cases value <;> exact ⟨_, rfl⟩)
    | or => cases h
    | and => cases h
    | eq => exact ⟨_, rfl⟩
    | notEq => exact ⟨_, rfl⟩
    | gt => exact ⟨_, rfl⟩
    | gte => exact ⟨_, rfl⟩
    | lt => exact ⟨_, rfl⟩
    | lte => exact ⟨_, rfl⟩

theorem evaluateField_eq (doc : Json) (key : String) {value : Json}
    (h : ∀ ℓ ∈ fieldLeaves key value, ℓ.documented = true) :
    evaluateField doc key value = .ok ((fieldLeaves key value).all (evaluateLeaf doc)) := by
  have hconds : ∀ docVal (ops : List (String × Json)),
      docVal = (doc.getNestedValue (splitDots key)).getD .null →
      (∀ p ∈ ops, (Leaf.cond key p.1 p.2).documented = true) →
      evaluateConditions docVal ops =
        .ok ((ops.map fun p => Leaf.cond key p.1 p.2).all (evaluateLeaf doc)) := by
    intro docVal ops hval hops
    induction ops with
    | nil => rfl
    | cons p ops ih =>
      obtain ⟨passed, hpassed⟩ := evaluateCondition_documented docVal (hops p List.mem_cons_self)
      have hrest := ih fun p hp => hops p (List.mem_cons_of_mem _ hp)
      rw [evaluateConditions, hpassed, hrest, List.map_cons, List.all_cons, evaluateLeaf, ← hval,
        hpassed]
      cases passed <;> rfl
  cases value with
  | obj ops => exact hconds _ ops rfl fun p hp => h _ (List.mem_map_of_mem hp)
  | null =>
    cases hv : doc.getNestedValue (splitDots key) <;>
      simp [evaluateField, fieldLeaves, evaluateLeaf, hv]
  | bool b =>
    cases hv : doc.getNestedValue (splitDots key) <;>
      simp [evaluateField, fieldLeaves, evaluateLeaf, hv]
  | num n =>
    cases hv : doc.getNestedValue (splitDots key) <;>
      simp [evaluateField, fieldLeaves, evaluateLeaf, hv]
  | str s =>
    cases hv : doc.getNestedValue (splitDots key) <;>
      simp [evaluateField, fieldLeaves, evaluateLeaf, hv]
  | arr xs =>
    cases hv : doc.getNestedValue (splitDots key) <;>
      simp [evaluateField, fieldLeaves, evaluateLeaf, hv]

/-- **The evaluator of decoded documents**: a clause of documented conditions holds if they do. -/
theorem evaluateWhere_eq (doc : Json) {q : Json} (hq : ClauseOver (fun ℓ => ℓ.documented = true) q) :
    evaluateWhere doc q = .ok (holdsBy (evaluateLeaf doc) q) := by
  have hall : ∀ qs : List Json, (∀ q ∈ qs, evaluateWhere doc q = .ok (holdsBy (evaluateLeaf doc) q)) →
      evaluateAll doc qs = .ok (holdsAll (evaluateLeaf doc) qs) ∧
        evaluateAny doc qs = .ok (holdsAny (evaluateLeaf doc) qs) := by
    intro qs h
    induction qs with
    | nil => exact ⟨rfl, rfl⟩
    | cons q qs ih =>
      obtain ⟨h1, h2⟩ := ih fun s hs => h s (List.mem_cons_of_mem _ hs)
      rw [evaluateAll, evaluateAny, holdsAll, holdsAny, h q List.mem_cons_self, h1, h2]
      cases holdsBy (evaluateLeaf doc) q <;> exact ⟨rfl, rfl⟩
  refine ClauseOver.induct (Q := fun q => evaluateWhere doc q = .ok (holdsBy (evaluateLeaf doc) q))
    (fun items h => ?_) (fun entries h => ?_) hq
  · exact (hall items h).1
  · rw [evaluateWhere, holdsBy]
    induction entries with
    | nil => rfl
    | cons e entries ih =>
      have hrest := ih fun e he => h e (List.mem_cons_of_mem _ he)
      have hentry : evaluateEntry doc e.1 e.2 = .ok (holdsEntry (evaluateLeaf doc) e.1 e.2) := by
        have hover := h e List.mem_cons_self
        generalize e.1 = key, e.2 = value at hover
        cases hover with
        | or subs hs => rw [evaluateEntry_or, holdsEntry_or, (hall subs hs).2]
        | and subs hs => rw [evaluateEntry_and, holdsEntry_and, (hall subs hs).1]
        | field key value hkey hs =>
          rw [evaluateEntry_field doc hkey, holdsEntry_field _ hkey, evaluateField_eq doc key hs]
      rw [evaluateEntries, holdsEntries, hentry, hrest]
      cases holdsEntry (evaluateLeaf doc) e.1 e.2 <;> rfl

end

/-! ## On encoded documents -/

section

variable [Crates] [Lowercase]

/-- A field condition on an encoded document. -/
def evaluateLeafMsgpack (bytes : Wire.Bytes) : Leaf → Bool
  | .equals field value => (evaluatePredicateMsgpack bytes field (asStr .eq) value).getD false
  | .cond field op value => (evaluatePredicateMsgpack bytes field op value).getD false

theorem evaluateFieldMsgpack_eq (bytes : Wire.Bytes) (key : String) (value : Json) :
    evaluateFieldMsgpack bytes key value =
      (fieldLeaves key value).all (evaluateLeafMsgpack bytes) := by
  cases value with
  | obj ops =>
    simp [evaluateFieldMsgpack, fieldLeaves, evaluateLeafMsgpack, List.all_map,
      Function.comp_def]
  | null => simp [evaluateFieldMsgpack, fieldLeaves, evaluateLeafMsgpack]
  | bool b => simp [evaluateFieldMsgpack, fieldLeaves, evaluateLeafMsgpack]
  | num n => simp [evaluateFieldMsgpack, fieldLeaves, evaluateLeafMsgpack]
  | str s => simp [evaluateFieldMsgpack, fieldLeaves, evaluateLeafMsgpack]
  | arr xs => simp [evaluateFieldMsgpack, fieldLeaves, evaluateLeafMsgpack]

theorem evaluateEntryMsgpack_or (bytes : Wire.Bytes) (subs : List Json) :
    evaluateEntryMsgpack bytes (asStr .or) (.arr subs) = some (evaluateAnyMsgpack bytes subs) := by
  rw [evaluateEntryMsgpack, if_pos rfl]

theorem evaluateEntryMsgpack_and (bytes : Wire.Bytes) (subs : List Json) :
    evaluateEntryMsgpack bytes (asStr .and) (.arr subs) = some (evaluateAllMsgpack bytes subs) := by
  rw [evaluateEntryMsgpack, if_neg asStr_and_ne_or, if_pos rfl]

theorem evaluateEntryMsgpack_field (bytes : Wire.Bytes) {key : String} (hkey : ¬ combines key)
    (value : Json) :
    evaluateEntryMsgpack bytes key value = some (evaluateFieldMsgpack bytes key value) := by
  obtain ⟨hor, hand⟩ := not_or.1 hkey
  cases value with
  | arr subs => rw [evaluateEntryMsgpack, if_neg hor, if_neg hand]
  | null => exact if_neg hkey
  | bool b => exact if_neg hkey
  | num n => exact if_neg hkey
  | str s => exact if_neg hkey
  | obj fs => exact if_neg hkey

/-- **The evaluator of encoded documents**: a clause holds if its field conditions do. -/
theorem evaluateWhereMsgpack_eq (bytes : Wire.Bytes) {P : Leaf → Prop} {q : Json}
    (hq : ClauseOver P q) :
    evaluateWhereMsgpack bytes q = some (holdsBy (evaluateLeafMsgpack bytes) q) := by
  have hall : ∀ qs : List Json,
      (∀ q ∈ qs, evaluateWhereMsgpack bytes q = some (holdsBy (evaluateLeafMsgpack bytes) q)) →
      evaluateAllMsgpack bytes qs = holdsAll (evaluateLeafMsgpack bytes) qs ∧
        evaluateAnyMsgpack bytes qs = holdsAny (evaluateLeafMsgpack bytes) qs := by
    intro qs h
    induction qs with
    | nil => exact ⟨rfl, rfl⟩
    | cons q qs ih =>
      obtain ⟨h1, h2⟩ := ih fun s hs => h s (List.mem_cons_of_mem _ hs)
      rw [evaluateAllMsgpack, evaluateAnyMsgpack, holdsAll, holdsAny, h q List.mem_cons_self, h1, h2]
      exact ⟨rfl, rfl⟩
  refine ClauseOver.induct (Q := fun q =>
      evaluateWhereMsgpack bytes q = some (holdsBy (evaluateLeafMsgpack bytes) q))
    (fun items h => ?_) (fun entries h => ?_) hq
  · rw [evaluateWhereMsgpack, holdsBy, (hall items h).1]
  · rw [evaluateWhereMsgpack, holdsBy]
    induction entries with
    | nil => rfl
    | cons e entries ih =>
      have hrest := ih fun e he => h e (List.mem_cons_of_mem _ he)
      have hentry : evaluateEntryMsgpack bytes e.1 e.2 =
          some (holdsEntry (evaluateLeafMsgpack bytes) e.1 e.2) := by
        have hover := h e List.mem_cons_self
        generalize e.1 = key, e.2 = value at hover
        cases hover with
        | or subs hs => rw [evaluateEntryMsgpack_or, holdsEntry_or, (hall subs hs).2]
        | and subs hs => rw [evaluateEntryMsgpack_and, holdsEntry_and, (hall subs hs).1]
        | field key value hkey hs =>
          rw [evaluateEntryMsgpack_field bytes hkey, holdsEntry_field _ hkey,
            evaluateFieldMsgpack_eq]
      rw [evaluateEntriesMsgpack, holdsEntries, hentry, hrest]
      cases holdsEntry (evaluateLeafMsgpack bytes) e.1 e.2 <;> rfl

end

end MoltenDB
