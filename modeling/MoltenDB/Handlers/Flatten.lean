/-
  A clause flattened into a list of conditions means the same on encoded documents.
-/
import MoltenDB.Handlers.Get

namespace MoltenDB

open Wire WhereOperator

section

variable [Crates] [Lowercase] {bytes : Bytes}

/-- All conditions of a flat list hold. -/
def allHold (bytes : Bytes) (preds : List (String × String × Json)) : Bool :=
  preds.all fun p => (evaluatePredicateMsgpack bytes p.1 p.2.1 p.2.2).getD false

theorem allHold_append (ps qs : List (String × String × Json)) :
    allHold bytes (ps ++ qs) = (allHold bytes ps && allHold bytes qs) := List.all_append

/-- The conditions of a field are those of its entry in the clause. -/
theorem extractField_holds {field : String} {condition : Json}
    {preds : List (String × String × Json)} (h : extractField field condition = some preds) :
    evaluateEntryMsgpack bytes field condition = some (allHold bytes preds) := by
  unfold extractField at h
  split_ifs at h with hdollar
  have hor : field ≠ asStr .or := by
    rintro rfl
    exact hdollar rfl
  have hand : field ≠ asStr .and := by
    rintro rfl
    exact hdollar rfl
  have hkey : ¬ (field = asStr .or ∨ field = asStr .and) := not_or.2 ⟨hor, hand⟩
  cases condition with
  | null => cases h
  | arr xs => cases h
  | str s =>
    obtain rfl := Option.some.inj h
    simp [evaluateEntryMsgpack, hkey, evaluateFieldMsgpack, allHold]
  | num n =>
    obtain rfl := Option.some.inj h
    simp [evaluateEntryMsgpack, hkey, evaluateFieldMsgpack, allHold]
  | bool b =>
    obtain rfl := Option.some.inj h
    simp [evaluateEntryMsgpack, hkey, evaluateFieldMsgpack, allHold]
  | obj ops =>
    dsimp only at h
    split_ifs at h
    obtain rfl := Option.some.inj h
    simp [evaluateEntryMsgpack, hkey, evaluateFieldMsgpack, allHold, List.all_map,
      Function.comp_def]

theorem mapM_extractField_holds {entries : List (String × Json)}
    {predss : List (List (String × String × Json))}
    (h : (entries.mapM fun p => extractField p.1 p.2) = some predss) :
    evaluateEntriesMsgpack bytes entries = some (allHold bytes predss.flatten) := by
  induction entries generalizing predss with
  | nil =>
    obtain rfl := Option.some.inj h
    rfl
  | cons p entries ih =>
    rw [List.mapM_cons] at h
    obtain ⟨preds, hp, h⟩ := Option.bind_eq_some_iff.1 h
    obtain ⟨rest, hrest, h⟩ := Option.bind_eq_some_iff.1 h
    obtain rfl := Option.some.inj h
    rw [List.flatten_cons, allHold_append, evaluateEntriesMsgpack, extractField_holds hp, ih hrest]
    cases allHold bytes preds <;> rfl

/-- **A clause that is flattened** holds of the bytes if all its conditions do. -/
theorem extractFastPredicates_holds (clause : Json) (h : extractFastPredicates clause ≠ []) :
    rawMatches clause bytes = allHold bytes (extractFastPredicates clause) := by
  induction clause with
  | null => exact absurd rfl h
  | bool b => exact absurd rfl h
  | num n => exact absurd rfl h
  | str s => exact absurd rfl h
  | arr items ih =>
    rw [extractFastPredicates] at h ⊢
    cases hitems : extractItems items with
    | none =>
      rw [hitems] at h
      exact absurd rfl h
    | some preds =>
      have hall : evaluateAllMsgpack bytes items = allHold bytes preds := by
        clear h
        induction items generalizing preds with
        | nil =>
          obtain rfl := Option.some.inj hitems
          rfl
        | cons item items ihs =>
          rw [extractItems] at hitems
          cases hitem : extractFastPredicates item with
          | nil => simp [hitem] at hitems
          | cons p ps =>
            rw [hitem] at hitems
            obtain ⟨rest, hrest, rfl⟩ := Option.map_eq_some_iff.1 hitems
            have hfirst := ih item List.mem_cons_self (by simp [hitem])
            have hothers := ihs (fun q hq => ih q (List.mem_cons_of_mem _ hq)) rest hrest
            rw [hitem] at hfirst
            rw [evaluateAllMsgpack, allHold_append, ← hfirst, hothers]
            rfl
      rw [rawMatches, evaluateWhereMsgpack, hall]
      rfl
  | obj entries =>
    rw [extractFastPredicates, extractFields] at h ⊢
    cases hmap : entries.mapM fun p => extractField p.1 p.2 with
    | none =>
      rw [hmap] at h
      exact absurd rfl h
    | some predss =>
      rw [rawMatches, evaluateWhereMsgpack, mapM_extractField_holds hmap]
      rfl

theorem wherePredicate_eq (clause : Json) : wherePredicate clause bytes = rawMatches clause bytes := by
  rw [wherePredicate]
  cases hpreds : extractFastPredicates clause with
  | nil => rfl
  | cons p ps =>
    have hne : extractFastPredicates clause ≠ [] := by rw [hpreds]; exact List.cons_ne_nil _ _
    rw [extractFastPredicates_holds clause hne, hpreds]
    rfl

theorem allHold_eq_true {preds : List (String × String × Json)} :
    allHold bytes preds = true ↔
      ∀ p ∈ preds, evaluatePredicateMsgpack bytes p.1 p.2.1 p.2.2 = some true := by
  rw [allHold, List.all_eq_true]
  refine forall₂_congr fun p _ => ?_
  cases evaluatePredicateMsgpack bytes p.1 p.2.1 p.2.2 with
  | none => simp
  | some b => simp

/-- **Flattened conditions mean the same as the clause**: they all hold of the bytes if and only
    if the clause does. -/
theorem flattened_agree (clause : Json) (bytes : Bytes) (h : extractFastPredicates clause ≠ []) :
    (∀ p ∈ extractFastPredicates clause,
      evaluatePredicateMsgpack bytes p.1 p.2.1 p.2.2 = some true) ↔
        evaluateWhereMsgpack bytes clause = some true := by
  rw [← allHold_eq_true, ← extractFastPredicates_holds clause h, rawMatches]
  cases evaluateWhereMsgpack bytes clause with
  | none => simp
  | some b => simp

end

/-- A field with two conditions, and one beside it in an array. -/
theorem flattened_agree_range :
    letI := Crates.plain
    letI := Lowercase.ascii
    let clause : Json := .arr [.obj [("n", .obj [("$gte", .ofU64 1), ("$lte", .ofU64 2)])],
      .obj [("a", .bool true)]]
    ∀ bytes, (∀ p ∈ extractFastPredicates clause,
      evaluatePredicateMsgpack bytes p.1 p.2.1 p.2.2 = some true) ↔
        evaluateWhereMsgpack bytes clause = some true :=
  letI := Crates.plain
  letI := Lowercase.ascii
  fun bytes => flattened_agree _ bytes (by decide)

end MoltenDB
