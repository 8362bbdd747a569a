/-
  Several paths looked up in one pass.

  On any bytes the pass fills each slot as if its path were looked up alone (`fill_paths`), so the
  early stop, the shared entry into sub-objects and the counter do no harm. Alone, a path tries
  every field with its next name where the single lookup takes the first; in an object no two
  fields have one name.
-/
import MoltenDB.Proof.PathLookup
import MoltenDB.Query.MultiLookup

namespace MoltenDB

open Wire

/-! ## Slots -/

namespace Slot

variable {depth : ℕ} {key : String} {value : Bytes} {s : Slot}

/-- The slot with what `f` finds at its path, unless it is filled. -/
def fill (f : List String → Option Bytes) (s : Slot) : Slot := { s with out := s.out.or (f s.path) }

theorem fill_fill (f g : List String → Option Bytes) (s : Slot) :
    (s.fill f).fill g = s.fill fun path => (f path).or (g path) := by
  simp [fill, Option.or_assoc]

theorem fill_none (s : Slot) : s.fill (fun _ => none) = s := by
  simp [fill]

theorem isOpen_nil (h : s.path.drop depth = []) : s.isOpen depth = false := by
  have hlen := List.drop_eq_nil_iff.1 h
  simp [isOpen, hlen]

theorem isLeaf_nil (h : s.path.drop depth = []) : s.isLeaf depth key = false := by
  simp [isLeaf, isOpen_nil h]

theorem isNested_nil (h : s.path.drop depth = []) : s.isNested depth key = false := by
  simp [isNested, isOpen_nil h]

section

variable {segment : String} {parts : List String} (h : s.path.drop depth = segment :: parts)

include h

theorem getElem?_of_drop : s.path[depth]? = some segment := by
  rw [← List.head?_drop, h]
  rfl

theorem length_of_drop : s.path.length = depth + 1 + parts.length := by
  have hlen := congrArg List.length h
  rw [List.length_drop, List.length_cons] at hlen
  omega

theorem isOpen_cons : s.isOpen depth = s.out.isNone := by
  have hlen := length_of_drop h
  simp [isOpen, hlen]
  omega

theorem isLeaf_cons : s.isLeaf depth key = (s.out.isNone && segment == key && parts.isEmpty) := by
  rw [isLeaf, isOpen_cons h, getElem?_of_drop h, length_of_drop h]
  cases parts <;> simp

theorem isNested_cons :
    s.isNested depth key = (s.out.isNone && segment == key && !parts.isEmpty) := by
  rw [isNested, isOpen_cons h, getElem?_of_drop h, length_of_drop h]
  cases parts <;> simp

end

theorem drop_succ_of_drop {segment : String} {parts : List String}
    (h : s.path.drop depth = segment :: parts) : s.path.drop (depth + 1) = parts := by
  rw [← List.drop_drop, h]
  rfl

end Slot

variable [Crates] {depth : ℕ} {key : String} {value : Bytes}

/-- What is at the value itself, or below it at a path. -/
def belowKey (parts : List String) (value : Bytes) : Option Bytes :=
  if parts = [] then some value else walkPath parts value

theorem walkPath_cons (segment : String) (parts : List String) (doc : Bytes) :
    walkPath (segment :: parts) doc =
      (readMapHeader doc).bind fun p => walkFields (belowKey parts) segment p.1 p.2 := rfl

/-- What a field with the key, and its value at `value`, gives for a path. -/
def here (depth : ℕ) (key : String) (value : Bytes) (path : List String) : Option Bytes :=
  match path.drop depth with
  | [] => none
  | segment :: parts => if segment = key then belowKey parts value else none

namespace Slot

/-- A field fills the slots whose paths end with its key, and passes the others on. -/
theorem fill_here (s : Slot) :
    s.fill (here depth key value) =
      if s.isLeaf depth key then { s with out := some value }
      else if s.isNested depth key then
        s.fill fun path => walkPath (path.drop (depth + 1)) value
      else s := by
  obtain ⟨path, out⟩ := s
  cases hdrop : path.drop depth with
  | nil => simp [isLeaf_nil (s := ⟨path, out⟩) hdrop, isNested_nil (s := ⟨path, out⟩) hdrop, fill,
      here, hdrop]
  | cons segment parts =>
    rw [isLeaf_cons (s := ⟨path, out⟩) hdrop, isNested_cons (s := ⟨path, out⟩) hdrop]
    cases out with
    | some found => simp [fill]
    | none =>
      by_cases hkey : segment = key
      · cases parts with
        | nil => simp [fill, here, hdrop, hkey, belowKey]
        | cons part parts =>
          simp [fill, here, hdrop, hkey, belowKey, drop_succ_of_drop (s := ⟨path, none⟩) hdrop]
      · simp [fill, here, hdrop, hkey]

variable (depth key value) in
/-- What a field takes off the slots that are open. -/
theorem isOpen_fill_here (s : Slot) :
    (s.isOpen depth).toNat = (s.isLeaf depth key).toNat +
      (s.isNested depth key && (walkPath (s.path.drop (depth + 1)) value).isSome).toNat +
      ((s.fill (here depth key value)).isOpen depth).toNat := by
  cases hdrop : s.path.drop depth with
  | nil =>
    have hfill := isOpen_nil (s := s.fill (here depth key value)) hdrop
    simp [isLeaf_nil hdrop, isNested_nil hdrop, isOpen_nil hdrop, hfill]
  | cons segment parts =>
    have hfill := isOpen_cons (s := s.fill (here depth key value)) hdrop
    rw [isLeaf_cons hdrop, isNested_cons hdrop, isOpen_cons hdrop, hfill, drop_succ_of_drop hdrop]
    cases hout : s.out with
    | some found => simp [fill, hout]
    | none =>
      by_cases hkey : segment = key
      · cases parts with
        | nil => simp [fill, hout, here, hdrop, hkey, belowKey]
        | cons part parts =>
          cases hwalk : walkPath (part :: parts) value <;>
            simp [fill, hout, here, hdrop, hkey, belowKey, hwalk]
      · simp [fill, hout, here, hdrop, hkey]

variable (depth key value) in
theorem countP_isOpen (slots : List Slot) :
    slots.countP (·.isOpen depth) = slots.countP (·.isLeaf depth key) +
      slots.countP (fun s => s.isNested depth key &&
        (walkPath (s.path.drop (depth + 1)) value).isSome) +
      (slots.map (fill (here depth key value))).countP (·.isOpen depth) := by
  have hcountP : ∀ (p : Slot → Bool) (s : Slot) (slots : List Slot),
      (s :: slots).countP p = slots.countP p + (p s).toNat := by
    intro p s slots
    rw [List.countP_cons]
    cases p s <;> rfl
  induction slots with
  | nil => rfl
  | cons s slots ih =>
    have hs := isOpen_fill_here depth key value s
    rw [List.map_cons, hcountP, hcountP, hcountP, hcountP]
    omega

end Slot

/-! ## A field -/

omit [Crates] in
theorem copyBack_filter_map (nested : Slot → Bool) (g : Slot → Slot) (slots : List Slot) :
    copyBack nested slots ((slots.filter nested).map g) = slots.map fun s =>
      if nested s then if (g s).out.isSome then { s with out := (g s).out } else s else s := by
  induction slots with
  | nil => rfl
  | cons s slots ih =>
    cases hs : nested s with
    | true => simp [copyBack, hs, ih]
    | false => simp [copyBack, hs, ih]

namespace Slot

/-- A path that ends with the key takes its value. -/
def assign (depth : ℕ) (key : String) (value : Bytes) (s : Slot) : Slot :=
  if s.isLeaf depth key then { s with out := some value } else s

omit [Crates] in
theorem isLeaf_of_isNested {s : Slot} (h : s.isNested depth key = true) :
    s.isLeaf depth key = false := by
  simp only [isNested, Bool.and_eq_true, bne_iff_ne] at h
  simp [isLeaf, h.2]

omit [Crates] in
theorem isNested_assign (s : Slot) : (s.assign depth key value).isNested depth key =
    s.isNested depth key := by
  unfold assign
  split_ifs with hleaf
  · have hopen : ({ s with out := some value } : Slot).isOpen depth = false := rfl
    rw [isNested, hopen]
    cases hnested : s.isNested depth key with
    | false => rfl
    | true => exact absurd hleaf (by simp [isLeaf_of_isNested hnested])
  · rfl

variable (depth key value) in
omit [Crates] in
/-- The slots of the nested pass are not assigned before it. -/
theorem filter_map_assign (slots : List Slot) :
    (slots.map (assign depth key value)).filter (·.isNested depth key) =
      slots.filter (·.isNested depth key) := by
  rw [List.filter_map]
  have hpred : ((·.isNested depth key) ∘ assign depth key value) = (·.isNested depth key) :=
    funext isNested_assign
  rw [hpred]
  refine (List.map_congr_left fun s hs => ?_).trans (List.map_id _)
  rw [assign, isLeaf_of_isNested (List.mem_filter.1 hs).2]
  rfl

end Slot

/-- The slot as the nested pass returns it. -/
def nestedFill (depth : ℕ) (value : Bytes) (s : Slot) : Slot :=
  Slot.fill (fun path => walkPath (path.drop (depth + 1)) value) { s with out := none }

/-- A nested slot takes what the nested pass has found. -/
theorem copy_assign (s : Slot) :
    (if (s.assign depth key value).isNested depth key then
        if (nestedFill depth value (s.assign depth key value)).out.isSome then
          { s.assign depth key value with
            out := (nestedFill depth value (s.assign depth key value)).out }
        else s.assign depth key value
      else s.assign depth key value) = s.fill (here depth key value) := by
  rw [Slot.isNested_assign, Slot.fill_here]
  cases hnested : s.isNested depth key with
  | false => rfl
  | true =>
    have hleaf := Slot.isLeaf_of_isNested hnested
    obtain ⟨path, out⟩ := s
    have hout : out = none := by
      simp only [Slot.isNested, Slot.isOpen, Bool.and_eq_true, Option.isNone_iff_eq_none] at hnested
      exact hnested.1.1.1
    subst hout
    have hassign : Slot.assign depth key value ⟨path, none⟩ = ⟨path, none⟩ := by
      simp [Slot.assign, hleaf]
    have hout : (nestedFill depth value ⟨path, none⟩).out = walkPath (path.drop (depth + 1)) value := by
      simp [nestedFill, Slot.fill]
    rw [hassign, hleaf]
    cases hwalk : walkPath (path.drop (depth + 1)) value with
    | none => simp [hout, hwalk, Slot.fill]
    | some found => simp [hout, hwalk, Slot.fill]

variable (depth key value) in
/-- A field on which no path goes on takes off the slots whose paths end with its key. -/
theorem assign_eq_fill {slots : List Slot} (hnone : ∀ s ∈ slots, s.isNested depth key = false) :
    slots.map (Slot.assign depth key value) = slots.map (Slot.fill (here depth key value)) := by
  refine List.map_congr_left fun s hs => ?_
  rw [Slot.fill_here, hnone s hs]
  rfl

variable (depth key value) in
/-- The nested pass fills the slots in it that have something to find. -/
theorem countP_nestedFill (slots : List Slot) :
    ((slots.filter (·.isNested depth key)).map (nestedFill depth value)).countP (·.out.isSome) =
      slots.countP fun s => s.isNested depth key &&
        (walkPath (s.path.drop (depth + 1)) value).isSome := by
  rw [List.countP_map, List.countP_filter]
  refine List.countP_congr fun s _ => ?_
  simp [nestedFill, Slot.fill, Bool.and_comm]

variable (depth key value) in
/-- What the nested pass found is copied back to the slots it was for. -/
theorem copyBack_nestedFill (slots : List Slot) :
    copyBack (·.isNested depth key) (slots.map (Slot.assign depth key value))
        ((slots.filter (·.isNested depth key)).map (nestedFill depth value)) =
      slots.map (Slot.fill (here depth key value)) := by
  rw [← Slot.filter_map_assign depth key value, copyBack_filter_map, List.map_map]
  exact List.map_congr_left fun s _ => copy_assign s

/-- **What a field does to the slots**, if the nested pass fills its slots. -/
theorem resolve_eq {inner : Bytes → List Slot → Option (List Slot)} {P : List String → Prop}
    (hinner : ∀ sub, sub ≠ [] → (∀ s ∈ sub, P s.path) → inner value sub =
      some (sub.map (Slot.fill fun path => walkPath (path.drop (depth + 1)) value)))
    {slots : List Slot} (hslots : ∀ s ∈ slots, s.isNested depth key → P s.path) :
    resolve inner depth key value slots (slots.countP (·.isOpen depth)) =
      some (slots.map (Slot.fill (here depth key value)),
        (slots.map (Slot.fill (here depth key value))).countP (·.isOpen depth)) := by
  have hcount := Slot.countP_isOpen depth key value slots
  have hassign : (slots.map fun s => if s.isLeaf depth key then { s with out := some value } else s)
      = slots.map (Slot.assign depth key value) := rfl
  rw [resolve, takeOff, if_pos (by omega), hassign, Option.bind_eq_bind, Option.bind_some]
  by_cases hnested : slots.filter (·.isNested depth key) = []
  · have hnone : ∀ s ∈ slots, s.isNested depth key = false := by
      intro s hs
      simpa using List.filter_eq_nil_iff.1 hnested s hs
    have hzero : slots.countP (fun s => s.isNested depth key &&
        (walkPath (s.path.drop (depth + 1)) value).isSome) = 0 := by
      rw [List.countP_eq_zero]
      intro s hs
      simp [hnone s hs]
    have hleft : slots.countP (·.isOpen depth) - slots.countP (·.isLeaf depth key) =
        (slots.map (Slot.fill (here depth key value))).countP (·.isOpen depth) := by omega
    simp only [hnested, List.isEmpty_nil, if_true, assign_eq_fill depth key value hnone, hleft,
      Option.pure_def]
  · have hsub := hinner ((slots.filter (·.isNested depth key)).map fun s => { s with out := none })
      (by simpa using hnested) (by
        intro s hs
        obtain ⟨t, ht, rfl⟩ := List.mem_map.1 hs
        obtain ⟨hmem, hp⟩ := List.mem_filter.1 ht
        exact hslots t hmem hp)
    rw [List.map_map] at hsub
    have hsub' : inner value ((slots.filter (·.isNested depth key)).map fun s =>
        { s with out := none }) =
          some ((slots.filter (·.isNested depth key)).map (nestedFill depth value)) := hsub
    have hempty : (slots.filter (·.isNested depth key)).isEmpty = false := by
      simpa [List.isEmpty_eq_false_iff] using hnested
    dsimp only
    rw [hempty, if_neg Bool.false_ne_true, hsub', Option.bind_eq_bind, Option.bind_some,
      countP_nestedFill, takeOff, if_pos (by omega), Option.bind_some, copyBack_nestedFill,
      Option.pure_def]
    congr 2
    omega

/-! ## The pass -/

/-- What the next `n` fields give for a path. -/
def found (depth n : ℕ) (bytes : Bytes) (path : List String) : Option Bytes :=
  match path.drop depth with
  | [] => none
  | segment :: parts => walkFields (belowKey parts) segment n bytes

theorem found_eq_none {n : ℕ} {bytes : Bytes}
    (h : ∀ k segment, walkFields k segment n bytes = none) : found depth n bytes = fun _ => none := by
  funext path
  unfold found
  split
  · rfl
  · exact h _ _

theorem found_succ {n : ℕ} {bytes : Bytes} {keyByte : UInt8} (hbyte : ¬ 0xe0 ≤ keyByte)
    {rest : Bytes} (hkey : readMsgpackStr (keyByte :: bytes) = (some key, rest))
    (path : List String) :
    found depth (n + 1) (keyByte :: bytes) path =
      (here depth key rest path).or (found depth n (skipValue rest) path) := by
  unfold found here
  cases path.drop depth with
  | nil => rfl
  | cons segment parts =>
    dsimp only
    rw [walkFields, if_neg hbyte, hkey]
    dsimp only
    by_cases hsegment : segment = key
    · rw [if_pos hsegment, if_pos hsegment.symm]
    · rw [if_neg hsegment, if_neg (Ne.symm hsegment), Option.none_or]

theorem Slot.fill_of_closed {s : Slot} (h : s.isOpen depth = false) (n : ℕ) (bytes : Bytes) :
    s.fill (found depth n bytes) = s := by
  obtain ⟨path, out⟩ := s
  cases hdrop : path.drop depth with
  | nil => simp [Slot.fill, found, hdrop]
  | cons segment parts =>
    rw [Slot.isOpen_cons (s := ⟨path, out⟩) hdrop] at h
    cases out with
    | none => cases h
    | some found => rfl

omit [Crates] in
theorem Slot.lt_length_of_isNested {s : Slot} (h : s.isNested depth key = true) :
    depth + 1 < s.path.length := by
  simp only [Slot.isNested, Slot.isOpen, Bool.and_eq_true, decide_eq_true_eq, bne_iff_ne] at h
  omega

omit [Crates] in
theorem Slot.map_fill_none {f : List String → Option Bytes} {slots : List Slot}
    (h : ∀ s ∈ slots, s.fill f = s) : slots.map (Slot.fill f) = slots :=
  (List.map_congr_left h).trans (List.map_id _)

variable {inner : Bytes → List Slot → Option (List Slot)} {P : List String → Prop}

/-- **The loop fills the slots**, whatever the bytes. -/
theorem fillFields_eq
    (hinner : ∀ value sub, sub ≠ [] → (∀ s ∈ sub, P s.path) → inner value sub =
      some (sub.map (Slot.fill fun path => walkPath (path.drop (depth + 1)) value)))
    (n : ℕ) (bytes : Bytes) {slots : List Slot}
    (hslots : ∀ s ∈ slots, depth + 1 < s.path.length → P s.path) :
    fillFields inner depth n bytes slots (slots.countP (·.isOpen depth)) =
      some (slots.map (Slot.fill (found depth n bytes))) := by
  have hnone : ∀ {n bytes} {slots : List Slot},
      (∀ k segment, walkFields k segment n bytes = none) →
        some slots = some (slots.map (Slot.fill (found depth n bytes))) := by
    intro n bytes slots h
    rw [found_eq_none h, Slot.map_fill_none fun s _ => s.fill_none]
  induction n generalizing bytes slots with
  | zero => exact hnone fun _ _ => rfl
  | succ n ih =>
    unfold fillFields
    split_ifs with hzero
    · -- all slots are closed
      rw [Slot.map_fill_none fun s hs =>
        Slot.fill_of_closed (by simpa using List.countP_eq_zero.1 hzero s hs) _ _]
    cases bytes with
    | nil => exact hnone fun _ _ => rfl
    | cons keyByte buf =>
      dsimp only
      split_ifs with hbyte
      · rw [ih (skipValue buf) hslots]
        congr 2
        funext path
        unfold found
        simp only [walkFields, hbyte, if_true]
      · rcases hkey : readMsgpackStr (keyByte :: buf) with ⟨_ | key, rest⟩
        · refine hnone fun k segment => ?_
          rw [walkFields, if_neg hbyte, hkey]
        · have hslots' : ∀ s ∈ slots.map (Slot.fill (here depth key rest)),
              depth + 1 < s.path.length → P s.path := by
            intro s hs
            obtain ⟨t, ht, rfl⟩ := List.mem_map.1 hs
            exact hslots t ht
          dsimp only
          rw [resolve_eq (hinner rest) fun s hs hnested =>
              hslots s hs (Slot.lt_length_of_isNested hnested), Option.bind_eq_bind,
            Option.bind_some, ih (skipValue rest) hslots', List.map_map]
          congr 2
          funext s
          rw [Function.comp_apply, Slot.fill_fill]
          congr 1
          funext path
          exact (found_succ hbyte hkey path).symm

/-- What the object at the front of a document gives for the paths. -/
theorem fillObject_eq
    (hinner : ∀ value sub, sub ≠ [] → (∀ s ∈ sub, P s.path) → inner value sub =
      some (sub.map (Slot.fill fun path => walkPath (path.drop (depth + 1)) value)))
    (doc : Bytes) {slots : List Slot}
    (hslots : ∀ s ∈ slots, depth + 1 < s.path.length → P s.path) :
    fillObject inner depth doc slots =
      some (slots.map (Slot.fill fun path => walkPath (path.drop depth) doc)) := by
  have hfind : ∀ path : List String, walkPath (path.drop depth) doc =
      (readMapHeader doc).bind fun p => found depth p.1 p.2 path := by
    intro path
    unfold found
    cases path.drop depth with
    | nil => cases readMapHeader doc <;> rfl
    | cons segment parts => rfl
  rw [fillObject, funext hfind]
  cases readMapHeader doc with
  | none => exact congrArg some (Slot.map_fill_none fun s _ => s.fill_none).symm
  | some p =>
    obtain ⟨mapLen, bytes⟩ := p
    have hlen : slots.length = slots.countP (·.isOpen depth) +
        slots.countP (fun s => !s.isOpen depth) := by
      rw [List.length_eq_countP_add_countP (p := (·.isOpen depth))]
      simp
    have hremaining : takeOff (slots.countP fun s => !s.isOpen depth) slots.length =
        some (slots.countP (·.isOpen depth)) := by
      rw [takeOff, if_pos (by omega)]
      congr 1
      omega
    dsimp only
    rw [hremaining]
    exact fillFields_eq hinner mapLen bytes hslots

/-- **The pass fills each slot as its path is followed alone**, on any bytes, if it may go as deep
    as the paths are long. -/
theorem findMsgpackValuesMultiInner_eq (levels depth : ℕ) (doc : Bytes) {slots : List Slot}
    (hslots : ∀ s ∈ slots, s.path.length ≤ depth + 1 + levels) :
    findMsgpackValuesMultiInner levels depth doc slots =
      some (slots.map (Slot.fill fun path => walkPath (path.drop depth) doc)) := by
  induction levels generalizing depth doc slots with
  | zero =>
    refine fillObject_eq (P := fun _ => False) ?_ doc ?_
    · intro value sub hne hsub
      obtain ⟨s, hs⟩ := List.exists_mem_of_ne_nil sub hne
      exact (hsub s hs).elim
    · intro s hs hlt
      have hle := hslots s hs
      omega
  | succ levels ih =>
    refine fillObject_eq (P := fun path => path.length ≤ depth + 1 + 1 + levels) ?_ doc ?_
    · intro value sub _ hsub
      exact ih (depth + 1) value hsub
    · intro s hs _
      have hle := hslots s hs
      omega

theorem findMsgpackValuesMulti_eq (doc : Bytes) (paths : List (List String)) :
    findMsgpackValuesMulti doc paths = some (paths.map fun path => walkPath path doc) := by
  have hlevels : ∀ path ∈ paths, path.length ≤ (paths.map List.length).foldr max 0 :=
    fun path hpath => List.le_max_of_le' 0 (List.mem_map_of_mem hpath) le_rfl
  rw [findMsgpackValuesMulti, findMsgpackValuesMultiInner_eq]
  · simp [Slot.fill, Function.comp_def]
  · intro s hs
    obtain ⟨path, hpath, rfl⟩ := List.mem_map.1 hs
    have hle := hlevels path hpath
    dsimp only
    omega

/-! ## Objects without repeated names -/

theorem findKey_user (hkey : (utf8 key).length < 2 ^ 32) (htok : tokenOf key = none)
    (segment : String) (n : ℕ) (rest : Bytes) :
    findKey segment (n + 1) (writeMapKey key ++ rest) =
      if key = segment then some rest else findKey segment n (skipValue rest) := by
  obtain ⟨byte, tail, hwrite, hbyte, hread⟩ := writeMapKey_user hkey htok
  simp only [hwrite, List.cons_append, findKey, if_neg hbyte, hread]

theorem walkFields_user (hkey : (utf8 key).length < 2 ^ 32) (htok : tokenOf key = none)
    (k : Bytes → Option Bytes) (segment : String) (n : ℕ) (rest : Bytes) :
    walkFields k segment (n + 1) (writeMapKey key ++ rest) =
      if key = segment then (k rest).or (walkFields k segment n (skipValue rest))
      else walkFields k segment n (skipValue rest) := by
  obtain ⟨byte, tail, hwrite, hbyte, hread⟩ := writeMapKey_user hkey htok
  simp only [hwrite, List.cons_append, walkFields, if_neg hbyte, hread]

/-- In an object every field after the first with a name has another name. -/
theorem walkFields_writeFields (k : Bytes → Option Bytes) (segment : String)
    {fs : List (String × Json)} (hfs : ∀ p ∈ fs, (utf8 p.1).length < 2 ^ 32 ∧ p.2.Skips)
    (hnodup : (fs.map Prod.fst).Nodup) (rest : Bytes) :
    walkFields k segment fs.length (fs.flatMap writeField ++ rest) =
      (findKey segment fs.length (fs.flatMap writeField ++ rest)).bind k := by
  induction fs with
  | nil => rfl
  | cons p fs ih =>
    obtain ⟨name, v⟩ := p
    obtain ⟨hkey, hval⟩ := hfs (name, v) List.mem_cons_self
    have hfs' : ∀ q ∈ fs, (utf8 q.1).length < 2 ^ 32 ∧ q.2.Skips :=
      fun q hq => hfs q (List.mem_cons_of_mem _ hq)
    obtain ⟨hfirst, hrest⟩ := List.nodup_cons.1 hnodup
    have hskip := hval.skipValue (fs.flatMap writeField ++ rest)
    have hih := ih hfs' hrest
    rw [List.flatMap_cons, writeField, List.append_assoc, List.append_assoc, List.length_cons]
    cases htok : tokenOf name with
    | some t =>
      obtain ⟨hwrite, ht⟩ := writeMapKey_system htok
      simp only [hwrite, List.cons_append, List.nil_append, findKey, walkFields, if_pos ht, hskip]
      exact hih
    | none =>
      rw [findKey_user hkey htok, walkFields_user hkey htok, hskip, hih]
      split_ifs with hname
      · -- the name does not come again
        subst hname
        have hlookup : (Json.obj fs).storedField name = none := by
          rw [Json.storedField_eq_get htok]
          exact List.lookup_eq_none_iff.2 fun q hq => by
            have hmem : q.1 ∈ fs.map Prod.fst := List.mem_map_of_mem hq
            have hne : name ≠ q.1 := fun heq => hfirst (heq ▸ hmem)
            simpa using hne
        have hfinds := findKey_writeFields name hfs' rest
        rw [hlookup] at hfinds
        have hnone : findKey name fs.length (fs.flatMap writeField ++ rest) = none := hfinds
        rw [hnone, Option.bind_none, Option.or_none, Option.bind_some]
      · rfl

theorem findMsgpackValue_cons (segment : String) (parts : List String) (bytes : Bytes) :
    findMsgpackValue bytes (segment :: parts) = (readMapHeader bytes).bind fun p =>
      (findKey segment p.1 p.2).bind fun buf =>
        if parts = [] then some buf else findMsgpackValue buf parts := by
  cases parts with
  | nil => simp [findMsgpackValue]
  | cons part parts =>
    rw [findMsgpackValue]
    · rfl
    · exact List.cons_ne_nil _ _

/-- **A path is followed as the single lookup follows it** in the encoding of a document. -/
theorem walkPath_eq {v : Json} (hfits : v.Fits) (ho : v.Ordered) (hskip : v.Skippable)
    (parts : List String) (rest : Bytes) :
    walkPath parts (writeValue v ++ rest) = findMsgpackValue (writeValue v ++ rest) parts := by
  induction parts generalizing v rest with
  | nil => rfl
  | cons segment parts ih =>
    rw [findMsgpackValue_cons, walkPath_cons]
    cases hobj : v.asObject with
    | none => rw [readMapHeader_not_object hfits hobj]; rfl
    | some fs =>
      obtain rfl := Json.eq_obj_of_asObject hobj
      obtain ⟨hlen, hfs⟩ := Json.fits_obj.1 hfits
      have hfields : ∀ p ∈ fs, (utf8 p.1).length < 2 ^ 32 ∧ p.2.Skips :=
        fun p hp => ⟨(hfs p hp).1, (hskip.field hp).skips⟩
      have hsorted : Fields.Sorted fs := (Json.ordered_obj.1 ho).1
      rw [writeValue, writeFields_eq, List.append_assoc, readMapHeader_writeMapHeader hlen]
      rw [Option.bind_some, Option.bind_some]
      rw [walkFields_writeFields _ segment hfields hsorted.nodup_keys]
      have hfinds := findKey_writeFields segment hfields rest
      cases hfield : (Json.obj fs).storedField segment with
      | none =>
        rw [hfield] at hfinds
        have hnone : findKey segment fs.length (fs.flatMap writeField ++ rest) = none := hfinds
        rw [hnone]
        rfl
      | some w =>
        rw [hfield] at hfinds
        obtain ⟨rest', hfound⟩ := hfinds
        obtain ⟨fs', heq, hmem⟩ := Json.mem_of_storedField hfield
        obtain rfl := Json.obj.inj heq
        have hpart : w.Part (.obj fs) := .field hmem .refl
        rw [hfound, Option.bind_some, Option.bind_some, belowKey,
          ih (hpart.every hfits) (hpart.every ho) (hskip.field hmem)]

/-- **One pass for several paths agrees with single lookups.** Whatever the bytes, its counter does
    not go below zero; in the encoding of a document it finds for each path what the single lookup
    finds. -/
theorem multi_lookup {d : Json} (hfits : d.Fits) (ho : d.Ordered) (hskip : d.Skippable)
    (paths : List (List String)) :
    (∀ bytes, (findMsgpackValuesMulti bytes paths).isSome) ∧
      findMsgpackValuesMulti (valueToMsgpack d) paths =
        some (paths.map (findMsgpackValue (valueToMsgpack d))) := by
  refine ⟨fun bytes => ?_, ?_⟩
  · rw [findMsgpackValuesMulti_eq]
    rfl
  · rw [findMsgpackValuesMulti_eq]
    congr 1
    refine List.map_congr_left fun path _ => ?_
    have hwalk := walkPath_eq hfits ho hskip path []
    rwa [List.append_nil] at hwalk

omit [Crates] in
theorem multi_lookup_nested :
    letI := Crates.plain
    (∀ bytes, (findMsgpackValuesMulti bytes [["tags"], ["n", "m"], ["tags"]]).isSome) ∧
      findMsgpackValuesMulti (valueToMsgpack nestedDoc) [["tags"], ["n", "m"], ["tags"]] =
        some ([["tags"], ["n", "m"], ["tags"]].map
          (findMsgpackValue (valueToMsgpack nestedDoc))) := by
  let _ := Crates.plain
  exact multi_lookup (by decide +kernel) (by decide +kernel)
    (Json.skippable_of_depth_le (by decide +kernel) (by decide +kernel)) _

/-! ## Lengths above 32 bits -/

/-- The items after the first are `n` nulls. -/
def longArray (n : ℕ) : Json := .arr (.str "k" :: .obj [("x", .ofU64 1)] :: List.replicate n .null)

/-- A document with an array between two fields. -/
def longDoc (n : ℕ) : Json := .obj [("k", .obj []), ("l", longArray n), ("m", .null)]

omit [Crates] in
theorem ordered_longDoc (n : ℕ) : (longDoc n).Ordered := by
  have hitems : (longArray n).every Json.orderedHere = true := by
    rw [longArray, Json.every_arr]
    refine ⟨rfl, fun x hx => ?_⟩
    simp only [List.mem_cons, List.mem_replicate] at hx
    rcases hx with rfl | rfl | ⟨-, rfl⟩ <;> rfl
  have hkeys : ["k", "l", "m"].Pairwise fun a b => compare a b = .lt := by decide
  refine Json.ordered_obj.2 ⟨Fields.sorted_of_keys hkeys, fun p hp => ?_⟩
  simp only [List.mem_cons, List.not_mem_nil, or_false] at hp
  rcases hp with rfl | rfl | rfl
  · rfl
  · exact hitems
  · rfl

omit [Crates] in
/-- The items of an array of `2 ^ 32` items come after the header of an empty one. -/
theorem writeValue_longArray {n : ℕ} (hn : n + 2 = 2 ^ 32) :
    ∃ rest, writeValue (longArray n) =
      [0xdd, 0, 0, 0, 0] ++ (writeMapKey "k" ++ (writeValue (.obj [("x", .ofU64 1)]) ++ rest)) := by
  refine ⟨(List.replicate n Json.null).flatMap writeValue, ?_⟩
  rw [longArray, writeValue_long (by simp [hn])]
  rfl

omit [Crates] in
theorem writeValue_longDoc {n : ℕ} (hn : n + 2 = 2 ^ 32) :
    ∃ rest, writeValue (longDoc n) = writeMapHeader 3 ++ (writeMapKey "k" ++ ([0x80] ++
      (writeMapKey "l" ++ ([0xdd, 0, 0, 0, 0] ++ (writeMapKey "k" ++
        (writeValue (.obj [("x", .ofU64 1)]) ++ rest)))))) := by
  obtain ⟨rest, hlong⟩ := writeValue_longArray hn
  have hempty : writeValue (.obj []) = [0x80] := rfl
  refine ⟨rest ++ writeField ("m", .null), ?_⟩
  rw [longDoc, writeValue, writeFields_eq, List.flatMap_cons, List.flatMap_cons,
    List.flatMap_singleton, writeField, writeField]
  dsimp only
  rw [hlong, hempty]
  simp only [List.append_assoc, List.length_cons, List.length_nil]

/-- In the bytes of the document the field `k` comes twice, and only the second has an `x`. -/
theorem lookups_longDoc {n : ℕ} (hn : n + 2 = 2 ^ 32)
    (harray : ∀ rest, skipValue ([0xdd, 0, 0, 0, 0] ++ rest) = rest) :
    findMsgpackValue (valueToMsgpack (longDoc n)) ["k", "x"] = none ∧
      findMsgpackValuesMulti (valueToMsgpack (longDoc n)) [["k", "x"]] ≠ some [none] := by
  obtain ⟨rest, hdoc⟩ := writeValue_longDoc hn
  have hk : (utf8 "k").length < 2 ^ 32 := by decide
  have hl : (utf8 "l").length < 2 ^ 32 := by decide
  have hempty : ∀ rest, skipValue ([0x80] ++ rest) = rest := fun rest =>
    (Json.skippable_of_depth_le (v := .obj []) (by decide) (by decide)).skips.skipValue rest
  rw [valueToMsgpack, hdoc]
  constructor
  · rw [findMsgpackValue_cons, readMapHeader_writeMapHeader (by decide), Option.bind_some,
      findKey_user hk rfl, if_pos rfl, Option.bind_some, if_neg (by decide)]
    rfl
  · have hx : ∃ found, belowKey ["x"] (writeValue (.obj [("x", .ofU64 1)]) ++ rest) = some found := by
      have hvalue : writeValue (.obj [("x", .ofU64 1)]) ++ rest =
          writeMapHeader 1 ++ (writeMapKey "x" ++ ([1] ++ rest)) := rfl
      refine ⟨[1] ++ rest, ?_⟩
      rw [belowKey, if_neg (by decide), hvalue, walkPath_cons,
        readMapHeader_writeMapHeader (by decide), Option.bind_some,
        walkFields_user (by decide) rfl, if_pos rfl]
      rfl
    obtain ⟨found, hx⟩ := hx
    rw [findMsgpackValuesMulti_eq, List.map_singleton, walkPath_cons,
      readMapHeader_writeMapHeader (by decide), Option.bind_some,
      walkFields_user hk rfl, if_pos rfl, hempty, walkFields_user hl rfl, if_neg (by decide), harray,
      walkFields_user hk rfl, if_pos rfl, hx, Option.some_or]
    cases belowKey ["x"] ([0x80] ++ (writeMapKey "l" ++ ([0xdd, 0, 0, 0, 0] ++ (writeMapKey "k" ++
      (writeValue (.obj [("x", .ofU64 1)]) ++ rest))))) <;> simp

omit [Crates] in
/-- **An array of `2 ^ 32` items**: the single lookup finds nothing, the pass something. -/
theorem multi_lookup_long :
    letI := Crates.plain
    (longDoc (2 ^ 32 - 2)).isObject ∧ (longDoc (2 ^ 32 - 2)).Ordered ∧
      findMsgpackValue (valueToMsgpack (longDoc (2 ^ 32 - 2))) ["k", "x"] = none ∧
      findMsgpackValuesMulti (valueToMsgpack (longDoc (2 ^ 32 - 2))) [["k", "x"]] ≠ some [none] := by
  let _ := Crates.plain
  obtain ⟨n, hn⟩ : ∃ n, n = 2 ^ 32 - 2 := ⟨_, rfl⟩
  rw [← hn]
  exact ⟨rfl, ordered_longDoc n, lookups_longDoc (by omega) fun _ => rfl⟩

end MoltenDB
