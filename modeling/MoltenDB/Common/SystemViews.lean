/-
  The two views of a system field of an encoded document.

  The decoder gives it the last value written under its one-byte key, the token reader the
  first.  Both names of the field have that key, and the internal one is written first: the
  decoder prefers the public name, the token reader the internal one.
-/
import MoltenDB.Common.RoundTrip
import MoltenDB.Common.TokenReader

namespace MoltenDB

open Wire SystemFields

/-- A system field: its public name, its name in memory, and the key of both. -/
structure SystemField (pub int : String) (t : UInt8) : Prop where
  token : ∀ key, tokenOf key = some t ↔ key = pub ∨ key = int
  key : tokenKey t = int
  expand : publicName int = pub
  order : compare int pub = .lt
  high : 0xe0 ≤ t

/-- A key is written for the names that its branch of the table lists. -/
theorem SystemField.of_table {pub int : String} {t : UInt8} (hpub : tokenOf pub = some t)
    (hint : tokenOf int = some t) (hkey : tokenKey t = int) (hexpand : publicName int = pub)
    (horder : compare int pub = .lt) (hhigh : 0xe0 ≤ t)
    (htable : ∀ key, tokenOf key = some t → key = pub ∨ key = int) :
    SystemField pub int t := by
  refine ⟨fun key => ⟨htable key, ?_⟩, hkey, hexpand, horder, hhigh⟩
  rintro (rfl | rfl)
  · exact hpub
  · exact hint

theorem systemField_version : SystemField VERSION IKEY_VERSION TOK_VERSION := by
  refine .of_table rfl rfl rfl rfl (by decide) (by decide) fun key h => ?_
  unfold tokenOf at h
  split_ifs at h <;> first | assumption | exact absurd h (by decide)

theorem systemField_seq : SystemField SEQ IKEY_SEQ TOK_SEQ := by
  refine .of_table rfl rfl rfl rfl (by decide) (by decide) fun key h => ?_
  unfold tokenOf at h
  split_ifs at h <;> first | assumption | exact absurd h (by decide)

theorem systemField_createdAt : SystemField CREATED_AT IKEY_CREATED_AT TOK_CREATED_AT := by
  refine .of_table rfl rfl rfl rfl (by decide) (by decide) fun key h => ?_
  unfold tokenOf at h
  split_ifs at h <;> first | assumption | exact absurd h (by decide)

theorem systemField_modifiedAt : SystemField MODIFIED_AT IKEY_MODIFIED_AT TOK_MODIFIED_AT := by
  refine .of_table rfl rfl rfl rfl (by decide) (by decide) fun key h => ?_
  unfold tokenOf at h
  split_ifs at h <;> first | assumption | exact absurd h (by decide)

theorem systemField_key : SystemField KEY IKEY_KEY TOK_KEY := by
  refine .of_table rfl rfl rfl rfl (by decide) (by decide) fun key h => ?_
  unfold tokenOf at h
  split_ifs at h <;> first | assumption | exact absurd h (by decide)

theorem systemField_expiresAt : SystemField EXPIRES_AT IKEY_EXPIRES_AT TOK_EXPIRES_AT := by
  refine .of_table rfl rfl rfl rfl (by decide) (by decide) fun key h => ?_
  unfold tokenOf at h
  split_ifs at h <;> first | assumption | exact absurd h (by decide)

/-- Every public name is that of a system field. -/
theorem exists_systemField {key : String} (h : key ∈ publicNames) :
    ∃ t, SystemField key (internalName key) t := by
  simp only [publicNames, List.mem_cons, List.not_mem_nil, or_false] at h
  rcases h with rfl | rfl | rfl | rfl | rfl | rfl
  · exact ⟨_, systemField_version⟩
  · exact ⟨_, systemField_key⟩
  · exact ⟨_, systemField_seq⟩
  · exact ⟨_, systemField_createdAt⟩
  · exact ⟨_, systemField_modifiedAt⟩
  · exact ⟨_, systemField_expiresAt⟩

namespace SystemField

variable {pub int : String} {t : UInt8} {fs : List (String × Json)} {v : Json}

theorem internalName_iff (h : SystemField pub int t) (key : String) :
    internalName key = int ↔ key = pub ∨ key = int := by
  rw [← h.token]
  constructor
  · intro hkey
    have htok := tokenOf_internalName key
    rw [hkey, (h.token int).2 (Or.inr rfl)] at htok
    exact htok.symm
  · intro htok
    rw [internalName_of_some htok, h.key]

theorem publicName_iff (h : SystemField pub int t) (key : String) :
    publicName key = pub ↔ tokenOf key = some t := by
  constructor
  · intro hkey
    rw [← tokenOf_publicName, hkey]
    exact (h.token pub).2 (Or.inl rfl)
  · intro htok
    rcases (h.token key).1 htok with rfl | rfl
    · rw [← h.expand, publicName_publicName]
    · exact h.expand

theorem ne (h : SystemField pub int t) : pub ≠ int := (Fields.ne_of_lt h.order).symm

/-- After a key of a sorted list there is no smaller one, and not that key again. -/
theorem lookup_tail {p : String × Json} (hfs : Fields.Sorted (p :: fs)) {k : String}
    (hk : compare k p.1 ≠ .gt) : fs.lookup k = none := by
  rw [List.lookup_eq_none_iff]
  intro q hq
  have hlt : compare p.1 q.1 = .lt := (List.pairwise_cons.1 hfs).1 q hq
  rw [bne_iff_ne]
  rintro rfl
  exact hk (Std.OrientedCmp.gt_of_lt hlt)

/-- **The decoder takes the public name**, and the internal one if that is not there. -/
theorem get_canon (h : SystemField pub int t) (hfs : Fields.Sorted fs) :
    (Json.obj fs).canon.get int = ((fs.lookup pub).or (fs.lookup int)).map Json.canon := by
  rw [Json.canon_obj, Json.get_obj, Fields.lookup_insertAll, List.lookup_nil, Option.or_none]
  induction fs with
  | nil => rfl
  | cons p fs ih =>
    have hself : compare p.1 p.1 ≠ .gt := by rw [Std.ReflOrd.compare_self]; simp
    rw [List.map_cons, List.reverse_cons, List.lookup_append, ih hfs.tail, List.lookup_cons,
      List.lookup_cons, List.lookup_cons, List.lookup_nil, Json.canonField]
    by_cases hpub : p.1 = pub
    · have hlow : compare int p.1 ≠ .gt := by rw [hpub, h.order]; simp
      rw [lookup_tail hfs hlow, ← hpub, lookup_tail hfs hself,
        (h.internalName_iff p.1).2 (Or.inl hpub)]
      simp
    · rw [beq_eq_false_iff_ne.2 (Ne.symm hpub)]
      by_cases hint : p.1 = int
      · rw [← hint, lookup_tail hfs hself, hint, (h.internalName_iff int).2 (Or.inr rfl)]
        cases fs.lookup pub <;> simp
      · have hname : internalName p.1 ≠ int := fun hname =>
          ((h.internalName_iff p.1).1 hname).elim hpub hint
        rw [beq_eq_false_iff_ne.2 (Ne.symm hint), beq_eq_false_iff_ne.2 (Ne.symm hname)]
        simp

/-- **The token reader takes the internal name**, and the public one if that is not there. -/
theorem tokenField_eq (h : SystemField pub int t) (hfs : Fields.Sorted fs) :
    tokenField t fs = ((fs.lookup int).or (fs.lookup pub)).bind Json.asU64 := by
  rw [tokenField]
  induction fs with
  | nil => rfl
  | cons p fs ih =>
    have hself : compare p.1 p.1 ≠ .gt := by rw [Std.ReflOrd.compare_self]; simp
    rw [List.find?_cons, List.lookup_cons, List.lookup_cons]
    by_cases hint : p.1 = int
    · rw [(h.token p.1).2 (Or.inr hint), hint]
      simp
    · rw [beq_eq_false_iff_ne.2 (Ne.symm hint)]
      by_cases hpub : p.1 = pub
      · have hlow : compare int p.1 ≠ .gt := by rw [hpub, h.order]; simp
        rw [(h.token p.1).2 (Or.inl hpub), lookup_tail hfs hlow, hpub]
        simp
      · have htok : tokenOf p.1 ≠ some t := fun htok =>
          ((h.token p.1).1 htok).elim hpub hint
        rw [beq_eq_false_iff_ne.2 (Ne.symm hpub), beq_eq_false_iff_ne.2 htok]
        exact ih hfs.tail

end SystemField

/-! ## Expansion -/

/-- A field as a client sees it. -/
def expandField (p : String × Json) : String × Json := (publicName p.1, expandSystemFields p.2)

theorem expandItems_eq (xs : List Json) : expandItems xs = xs.map expandSystemFields := by
  induction xs with
  | nil => rfl
  | cons x xs ih => rw [expandItems, ih, List.map_cons]

theorem expandFields_eq (fs : List (String × Json)) : expandFields fs = fs.map expandField := by
  induction fs with
  | nil => rfl
  | cons p fs ih => rw [expandFields, ih, List.map_cons, expandField]

theorem expandSystemFields_arr (xs : List Json) :
    expandSystemFields (.arr xs) = .arr (xs.map expandSystemFields) := by
  rw [expandSystemFields, expandItems_eq]

theorem expandSystemFields_obj (fs : List (String × Json)) :
    expandSystemFields (.obj fs) = .obj (Fields.insertAll (fs.map expandField) []) := by
  rw [expandSystemFields, expandFields_eq]

/-! ## Fields with one value -/

/-- The value is an object in which the field with the key `t` is `x`, under whichever names
    it is written. -/
def Json.Holds (t : UInt8) (v x : Json) : Prop :=
  ∃ fs, v = .obj fs ∧ (∃ p ∈ fs, tokenOf p.1 = some t) ∧ ∀ p ∈ fs, tokenOf p.1 = some t → p.2 = x

/-- A field of an object after one was set. -/
theorem Json.get_set {v : Json} (hv : v.isObject) (k k' : String) (x : Json) :
    (v.set k x).get k' = if k' = k then some x else v.get k' := by
  cases v <;> simp only [isObject, Bool.false_eq_true] at hv
  exact Fields.lookup_insert k k' x _

@[simp] theorem Json.isObject_set (v : Json) (k : String) (x : Json) :
    (v.set k x).isObject = v.isObject := by
  cases v <;> rfl

variable {pub int : String} {t : UInt8} {v x : Json}

/-- **A field that is set has its new value**, if its public name is free. -/
theorem SystemField.holds_set (h : SystemField pub int t) (hv : v.isObject)
    (hpub : v.get pub = none) (x : Json) : (v.set int x).Holds t x := by
  cases v <;> simp only [Json.isObject, Bool.false_eq_true] at hv
  rename_i fs
  refine ⟨_, rfl, ⟨(int, x), ?_, (h.token int).2 (Or.inr rfl)⟩, ?_⟩
  · exact Fields.mem_insert.2 (Or.inl ⟨rfl, rfl⟩)
  · rintro ⟨k, y⟩ hp htok
    rcases Fields.mem_insert.1 hp with ⟨-, rfl⟩ | ⟨hne, hmem⟩
    · rfl
    · rcases (h.token k).1 htok with rfl | rfl
      · rw [Json.get_obj, List.lookup_eq_none_iff] at hpub
        exact absurd rfl (bne_iff_ne.1 (hpub _ hmem))
      · exact absurd rfl hne

/-- Setting another field changes nothing. -/
theorem Json.Holds.set (h : v.Holds t x) {k : String} (hk : tokenOf k ≠ some t) (y : Json) :
    (v.set k y).Holds t x := by
  obtain ⟨fs, rfl, ⟨p, hp, htok⟩, hall⟩ := h
  refine ⟨_, rfl, ⟨p, ?_, htok⟩, fun q hq hqtok => ?_⟩
  · refine Fields.mem_insert.2 (Or.inr ⟨?_, hp⟩)
    rintro rfl
    exact hk htok
  · rcases Fields.mem_insert.1 hq with ⟨rfl, -⟩ | ⟨-, hmem⟩
    · exact absurd hqtok hk
    · exact hall q hmem hqtok

/-- **The field is decoded as its value.** -/
theorem Json.Holds.get_canon (h : v.Holds t x) (hf : SystemField pub int t) :
    v.canon.get int = some x.canon := by
  obtain ⟨fs, rfl, ⟨p, hp, htok⟩, hall⟩ := h
  have hname : ∀ p : String × Json, internalName p.1 = int ↔ tokenOf p.1 = some t := fun p => by
    rw [hf.internalName_iff, hf.token]
  rw [Json.canon_obj, Json.get_obj, Fields.lookup_insertAll, List.lookup_nil, Option.or_none]
  cases hl : (fs.map Json.canonField).reverse.lookup int with
  | none =>
    rw [List.lookup_eq_none_iff] at hl
    have hne := hl (Json.canonField p) (List.mem_reverse.2 (List.mem_map_of_mem hp))
    exact absurd ((hname p).2 htok).symm (bne_iff_ne.1 hne)
  | some w =>
    obtain ⟨q, hq, heq⟩ := List.mem_map.1 (List.mem_reverse.1 (Fields.mem_of_lookup hl))
    obtain ⟨hkey, rfl⟩ := Prod.mk.inj heq
    rw [hall q hq ((hname q).1 hkey)]

/-- Decoding keeps the field. -/
theorem Json.Holds.canon (h : v.Holds t x) : v.canon.Holds t x.canon := by
  obtain ⟨fs, rfl, ⟨p, hp, htok⟩, hall⟩ := h
  have hname : ∀ p : String × Json, tokenOf (Json.canonField p).1 = tokenOf p.1 := fun p =>
    tokenOf_internalName p.1
  refine ⟨_, Json.canon_obj fs, ?_, fun q hq hqtok => ?_⟩
  · obtain ⟨v, hv⟩ := Fields.exists_mem_insertAll (m := []) (List.mem_map_of_mem
      (f := Json.canonField) hp)
    exact ⟨_, hv, (hname p).trans htok⟩
  · obtain ⟨p', hp', rfl⟩ :=
      List.mem_map.1 ((Fields.mem_of_mem_insertAll hq).resolve_right (by simp))
    rw [hname] at hqtok
    exact congrArg Json.canon (hall p' hp' hqtok)

/-- **A client sees its value** under the public name. -/
theorem Json.Holds.get_expand (h : v.Holds t x) (hf : SystemField pub int t) :
    (expandSystemFields v).get pub = some (expandSystemFields x) := by
  obtain ⟨fs, rfl, ⟨p, hp, htok⟩, hall⟩ := h
  rw [expandSystemFields_obj, Json.get_obj, Fields.lookup_insertAll, List.lookup_nil,
    Option.or_none]
  cases hl : (fs.map expandField).reverse.lookup pub with
  | none =>
    rw [List.lookup_eq_none_iff] at hl
    have hne := hl (expandField p) (List.mem_reverse.2 (List.mem_map_of_mem hp))
    exact absurd ((hf.publicName_iff p.1).2 htok).symm (bne_iff_ne.1 hne)
  | some w =>
    obtain ⟨q, hq, heq⟩ := List.mem_map.1 (List.mem_reverse.1 (Fields.mem_of_lookup hl))
    obtain ⟨hkey, rfl⟩ := Prod.mk.inj heq
    rw [hall q hq ((hf.publicName_iff q.1).1 hkey)]

/-- **The token reader finds its value.** -/
theorem Json.Holds.readTokenU64 [Crates] (h : v.Holds t x) (ht : 0xe0 ≤ t) (hfits : v.Fits)
    (hdepth : v.depth ≤ 1001) : MoltenDB.readTokenU64 (valueToMsgpack v) t = x.asU64 := by
  obtain ⟨fs, rfl, ⟨p, hp, htok⟩, hall⟩ := h
  rw [readTokenU64_obj hfits hdepth ht, tokenField]
  cases hf : fs.find? fun p => tokenOf p.1 == some t with
  | none =>
    have hne := List.find?_eq_none.1 hf p hp
    exact absurd htok (by simpa using hne)
  | some q =>
    have hqtok : tokenOf q.1 = some t := by simpa using List.find?_some hf
    rw [Option.bind_some, hall q (List.mem_of_find?_eq_some hf) hqtok]

/-! ## Room for system fields -/

theorem Json.length_set {n : ℕ} {v : Json} (h : ∀ fs, v = .obj fs → fs.length + (n + 1) < 2 ^ 32)
    (k : String) (x : Json) : ∀ fs, v.set k x = .obj fs → fs.length + n < 2 ^ 32 := by
  intro fs' hfs'
  cases v with
  | obj fs =>
    have hlen : (Fields.insert k x fs).length ≤ 1 + fs.length :=
      Fields.length_insertAll_le [(k, x)] fs
    have hmax := h fs rfl
    obtain rfl := Json.obj.inj hfs'
    omega
  | _ => cases hfs'

theorem Json.fits_set {v : Json} (h : v.Fits) (hlen : ∀ fs, v = .obj fs → fs.length + 1 < 2 ^ 32)
    {k : String} (hk : (tokenOf k).isSome) (u : UInt64) : (v.set k (.ofU64 u)).Fits := by
  have hset := Json.length_set (n := 0) hlen k (.ofU64 u)
  cases v with
  | obj fs =>
    obtain ⟨t, ht⟩ := Option.isSome_iff_exists.1 hk
    refine Json.fits_obj.2 ⟨hset _ rfl, fun p hp => ?_⟩
    rcases Fields.mem_insert.1 hp with ⟨hkey, hval⟩ | ⟨-, hmem⟩
    · rw [hkey, hval]
      exact ⟨length_of_tokenOf ht, rfl⟩
    · exact (Json.fits_obj.1 h).2 p hmem
  | _ => exact h

/-- The value can be stored and scanned, also with `n` more short fields. -/
structure Json.Room (n : ℕ) (v : Json) : Prop where
  fits : v.Fits
  depth : v.depth ≤ 1001
  length : ∀ fs, v = .obj fs → fs.length + n < 2 ^ 32

theorem Json.Room.set {n : ℕ} {v : Json} (h : v.Room (n + 1)) {k : String}
    (hk : (tokenOf k).isSome) (u : UInt64) : (v.set k (.ofU64 u)).Room n where
  fits := Json.fits_set h.fits (fun fs hfs => (Nat.add_le_add_left (by omega) _).trans_lt
    (h.length fs hfs)) hk u
  depth := by
    cases v with
    | obj fs =>
      refine Json.depth_obj_le_iff.2 fun p hp => ?_
      rcases Fields.mem_insert.1 hp with ⟨-, hval⟩ | ⟨-, hmem⟩
      · rw [hval]
        exact Nat.zero_le _
      · exact Json.depth_obj_le_iff.1 h.depth p hmem
    | _ => exact h.depth
  length := Json.length_set h.length k _

theorem Json.Room.canon {v : Json} (h : v.Room 0) : v.canon.Room 0 where
  fits := h.fits.canon
  depth := Json.depth_canon_le h.depth
  length := by
    intro fs hfs
    have hfits := h.fits.canon
    rw [hfs] at hfits
    exact (Json.fits_obj.1 hfits).1

end MoltenDB
