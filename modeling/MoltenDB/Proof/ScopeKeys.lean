/-
  What the enumerations of a token's keys and prefixes say, against the check of its scopes.

  For a key without stars, a pattern of a scope matches it if it is the key, or a prefix of the
  key and one star.  The enumeration of prefixes strips all stars, so a pattern with more than
  one star at its end is listed as a prefix of keys that it does not match: those patterns are
  the only difference (`scope_enumerations_iff`).
-/
import Mathlib.Data.List.DropRight
import MoltenDB.Auth.Scopes
import MoltenDB.Handlers.Common

namespace MoltenDB.Claims

/-- The pattern matches the key, which has no stars. -/
def Covers (key p : String) : Prop :=
  p = key ∨ ∃ text, p.toList = text ++ ['*'] ∧ text <+: key.toList

/-- The pattern is a prefix of the key and more than one star. -/
def Overshoots (key p : String) : Prop :=
  ∃ text n, p.toList = text ++ List.replicate (n + 2) '*' ∧ text <+: key.toList

/-! ## Patterns -/

section

variable {key p : String} (hkey : '*' ∉ key.toList)

/-- A pattern without its last star, if it ends in one. -/
theorem toList_eq_dropLast (hstar : p.toList.getLast? = some '*') :
    p.toList = p.toList.dropLast ++ ['*'] := by
  obtain ⟨text, htext⟩ := List.getLast?_eq_some_iff.1 hstar
  rw [htext, List.dropLast_concat]

include hkey

theorem keyMatches_iff : keyMatches p key = true ↔ Covers key p := by
  unfold keyMatches
  split_ifs with hall hstar
  · subst hall
    simp only [true_iff]
    exact .inr ⟨[], rfl, List.nil_prefix⟩
  · rw [List.isPrefixOf_iff_prefix]
    constructor
    · intro h
      exact .inr ⟨_, toList_eq_dropLast hstar, h⟩
    · rintro (rfl | ⟨text, htext, h⟩)
      · exact absurd (List.mem_of_getLast? hstar) hkey
      · rwa [htext, List.dropLast_concat]
  · rw [beq_iff_eq]
    constructor
    · exact .inl
    · rintro (h | ⟨text, htext, -⟩)
      · exact h
      · rw [htext, List.getLast?_concat] at hstar
        exact absurd rfl hstar

/-- A prefix of a key has no stars to strip. -/
theorem rdropWhile_stars {text : List Char} (htext : text <+: key.toList) (n : ℕ) :
    (text ++ List.replicate n '*').rdropWhile (· == '*') = text := by
  induction n with
  | zero =>
    rw [List.replicate_zero, List.append_nil, List.rdropWhile_eq_self_iff]
    intro hne hlast
    exact hkey (beq_iff_eq.1 hlast ▸ htext.subset (List.getLast_mem hne))
  | succ n ih =>
    rw [List.replicate_succ', ← List.append_assoc, List.rdropWhile_concat_pos _ _ _ rfl, ih]

omit hkey in
/-- What is stripped from a pattern is stars. -/
theorem exists_stars (cs : List Char) :
    ∃ n, cs = cs.rdropWhile (· == '*') ++ List.replicate n '*' := by
  induction cs using List.reverseRecOn with
  | nil => exact ⟨0, rfl⟩
  | append_singleton cs c ih =>
    by_cases hc : (c == '*') = true
    · obtain ⟨n, hn⟩ := ih
      refine ⟨n + 1, ?_⟩
      rw [List.rdropWhile_concat_pos (· == '*') cs c hc, List.replicate_succ', ← List.append_assoc,
        ← hn, beq_iff_eq.1 hc]
    · refine ⟨0, ?_⟩
      rw [List.rdropWhile_concat_neg (· == '*') cs c hc, List.replicate_zero, List.append_nil]

/-- **The prefix listed for a pattern** is one of the key. -/
theorem strip_prefix_iff (hp : isPrefixPattern p = true) :
    p.toList.rdropWhile (· == '*') <+: key.toList ↔
      (∃ text, p.toList = text ++ ['*'] ∧ text <+: key.toList) ∨ Overshoots key p := by
  constructor
  · intro h
    obtain ⟨n, hn⟩ := exists_stars p.toList
    generalize p.toList.rdropWhile (· == '*') = text at h hn
    rcases n with _ | _ | n
    · rw [isPrefixPattern, Bool.and_eq_true, beq_iff_eq] at hp
      rw [List.replicate_zero, List.append_nil] at hn
      exact absurd (h.subset (hn ▸ List.mem_of_getLast? hp.1)) hkey
    · exact .inl ⟨text, hn, h⟩
    · exact .inr ⟨text, n, hn, h⟩
  · rintro (⟨text, hp, h⟩ | ⟨text, n, hp, h⟩)
    · rwa [hp, ← List.replicate_one, rdropWhile_stars hkey h 1]
    · rwa [hp, rdropWhile_stars hkey h (n + 2)]

omit hkey in
theorem keyMatches_star (h : keyMatches p "*" = true) : p = "*" ∨ Overshoots key p := by
  unfold keyMatches at h
  split_ifs at h with hall hstar
  · exact .inl hall
  · rw [List.isPrefixOf_iff_prefix] at h
    have hp := toList_eq_dropLast hstar
    rcases List.prefix_cons_iff.1 h with hnil | ⟨rest, hrest, hpre⟩
    · rw [hnil] at hp
      exact .inl (String.toList_inj.1 hp)
    · rw [hrest, List.prefix_nil.1 hpre] at hp
      exact .inr ⟨[], 0, hp, List.nil_prefix⟩
  · exact .inl (beq_iff_eq.1 h)

omit hkey in
theorem isPrefixPattern_of_stars {text : List Char} {n : ℕ}
    (hp : p.toList = text ++ List.replicate (n + 1) '*') (hne : p ≠ "*") :
    isPrefixPattern p = true := by
  rw [isPrefixPattern, hp, List.replicate_succ', ← List.append_assoc, List.getLast?_concat]
  simpa using hne

end

/-! ## Scopes -/

section

variable {claims : Claims} (hadmin : claims.isAdmin = false) {action collection key : String}

include hadmin

theorem hasAccess_iff : claims.hasAccess action collection key = true ↔
    ∃ p ∈ claims.keyPatterns action collection, keyMatches p key = true := by
  rw [hasAccess, keyPatterns, List.any_eq_true]
  simp only [List.mem_filterMap]
  constructor
  · rintro ⟨scope, hscope, h⟩
    have hne : scope ≠ "*:*:*" := by
      rintro rfl
      rw [isAdmin, List.any_eq_false] at hadmin
      exact hadmin _ hscope (beq_self_eq_true _)
    rw [scopeGrants, if_neg hne] at h
    cases hsplit : splitScope scope with
    | none => simp [hsplit] at h
    | some parts =>
      obtain ⟨sAction, sCol, sKey⟩ := parts
      rw [hsplit] at h
      rw [Bool.and_eq_true] at h
      exact ⟨sKey, ⟨scope, hscope, by simp only [hsplit, if_pos h.1]⟩, h.2⟩
  · rintro ⟨p, ⟨scope, hscope, h⟩, hmatch⟩
    refine ⟨scope, hscope, ?_⟩
    rw [scopeGrants]
    split_ifs
    · rfl
    · cases hsplit : splitScope scope with
      | none => simp [hsplit] at h
      | some parts =>
        obtain ⟨sAction, sCol, sKey⟩ := parts
        rw [hsplit] at h
        dsimp only at h ⊢
        split_ifs at h with hgrants
        obtain rfl := Option.some.inj h
        rw [Bool.and_eq_true]
        exact ⟨hgrants, hmatch⟩

/-- **What the enumerations list** for a key are the patterns that cover it and those with too
    many stars. -/
theorem enumerated_iff (hkey : '*' ∉ key.toList) :
    (claims.hasCollectionAccess action collection = true ∨
      key ∈ claims.allowedKeys action collection ∨
        ∃ text ∈ claims.extractPrefixes action collection, text.toList <+: key.toList) ↔
      ∃ p ∈ claims.keyPatterns action collection, Covers key p ∨ Overshoots key p := by
  rw [hasCollectionAccess, hasAccess_iff hadmin, allowedKeys, extractPrefixes, hadmin,
    if_neg Bool.false_ne_true]
  simp only [List.mem_filter, List.mem_map]
  constructor
  · rintro (⟨p, hp, hmatch⟩ | ⟨hp, -⟩ | ⟨_, ⟨p, ⟨hp, hpattern⟩, rfl⟩, h⟩)
    · refine ⟨p, hp, ?_⟩
      rcases keyMatches_star hmatch with rfl | hover
      · exact .inl (.inr ⟨[], rfl, List.nil_prefix⟩)
      · exact .inr hover
    · exact ⟨key, hp, .inl (.inl rfl)⟩
    · rw [String.toList_ofList] at h
      exact ⟨p, hp, ((strip_prefix_iff hkey hpattern).1 h).imp .inr id⟩
  · have hlists : ∀ p ∈ claims.keyPatterns action collection, isPrefixPattern p = true →
        ((∃ text, p.toList = text ++ ['*'] ∧ text <+: key.toList) ∨ Overshoots key p) →
        ∃ text, (∃ a, (a ∈ claims.keyPatterns action collection ∧ isPrefixPattern a = true) ∧
          String.ofList (a.toList.reverse.dropWhile (· == '*')).reverse = text) ∧
            text.toList <+: key.toList := by
      intro p hp hpattern h
      refine ⟨_, ⟨p, ⟨hp, hpattern⟩, rfl⟩, ?_⟩
      rw [String.toList_ofList]
      exact (strip_prefix_iff hkey hpattern).2 h
    rintro ⟨p, hp, (rfl | ⟨text, hstar, h⟩) | ⟨text, n, hstars, h⟩⟩
    · exact .inr (.inl ⟨hp, by simpa using hkey⟩)
    · by_cases hall : p = "*"
      · exact .inl ⟨p, hp, by rw [hall]; rfl⟩
      · have hone : p.toList = text ++ List.replicate (0 + 1) '*' := hstar
        exact .inr (.inr (hlists p hp (isPrefixPattern_of_stars hone hall)
          (.inl ⟨text, hstar, h⟩)))
    · have hne : p ≠ "*" := by
        rintro rfl
        have hlen := congrArg List.length hstars
        simp at hlen
        omega
      exact .inr (.inr (hlists p hp (isPrefixPattern_of_stars hstars hne)
        (.inr ⟨text, n, hstars, h⟩)))

/-- **The enumerations describe the check** of a key if and only if each pattern with too many
    stars that is listed for the key comes with one that covers it. -/
theorem scope_enumerations_iff (hkey : isName ['_', '.', '-'] 256 key = true) :
    (claims.hasAccess action collection key = true ↔
      claims.hasCollectionAccess action collection = true ∨
        key ∈ claims.allowedKeys action collection ∨
          ∃ text ∈ claims.extractPrefixes action collection, text.toList <+: key.toList) ↔
      ∀ p ∈ claims.keyPatterns action collection, Overshoots key p →
        ∃ p' ∈ claims.keyPatterns action collection, Covers key p' := by
  have hstar : '*' ∉ key.toList := by
    intro hmem
    rw [isName, Bool.and_eq_true, List.all_eq_true] at hkey
    exact absurd (hkey.2 '*' hmem) (by decide)
  rw [hasAccess_iff hadmin, enumerated_iff hadmin hstar]
  simp only [keyMatches_iff hstar]
  constructor
  · intro h p hp hover
    exact h.2 ⟨p, hp, .inr hover⟩
  · intro h
    constructor
    · rintro ⟨p, hp, hcovers⟩
      exact ⟨p, hp, .inl hcovers⟩
    · rintro ⟨p, hp, hcovers | hover⟩
      · exact ⟨p, hp, hcovers⟩
      · exact h p hp hover

end

/-! ## Two tokens -/

def withScopes (scopes : List String) : Claims := ⟨"client", 0, scopes, "id"⟩

/-- A pattern with too many stars beside one that covers the keys. -/
theorem scope_enumerations_iff_covered :
    (withScopes ["read:c:a*", "read:c:ab**"]).hasAccess "read" "c" "abc" = true ↔
      (withScopes ["read:c:a*", "read:c:ab**"]).hasCollectionAccess "read" "c" = true ∨
        "abc" ∈ (withScopes ["read:c:a*", "read:c:ab**"]).allowedKeys "read" "c" ∨
          ∃ text ∈ (withScopes ["read:c:a*", "read:c:ab**"]).extractPrefixes "read" "c",
            text.toList <+: "abc".toList :=
  (scope_enumerations_iff (by decide) (by decide)).2 fun _ _ _ =>
    ⟨"a*", by decide, .inr ⟨['a'], by decide, by decide⟩⟩

/-- A prefix is listed for a key that the scope does not grant. -/
theorem listed_prefix_grants_nothing :
    (withScopes ["read:c:a**"]).isAdmin = false ∧ isName ['_', '.', '-'] 256 "ab" = true ∧
      ¬ ((withScopes ["read:c:a**"]).hasAccess "read" "c" "ab" = true ↔
        (withScopes ["read:c:a**"]).hasCollectionAccess "read" "c" = true ∨
          "ab" ∈ (withScopes ["read:c:a**"]).allowedKeys "read" "c" ∨
            ∃ text ∈ (withScopes ["read:c:a**"]).extractPrefixes "read" "c",
              text.toList <+: "ab".toList) := by
  refine ⟨by decide, by decide, fun h => ?_⟩
  have hno : (withScopes ["read:c:a**"]).hasAccess "read" "c" "ab" = false := by decide
  have hyes := h.2 (.inr (.inr ⟨"a", by decide, by decide⟩))
  rw [hno] at hyes
  exact Bool.false_ne_true hyes

end MoltenDB.Claims
