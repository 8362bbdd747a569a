/-
  The revocation file, written and loaded: the tag is that of the entries in the order
  of the hash map, and it is checked against the entries in the order of their keys.
-/
import MoltenDB.Auth.Store

namespace MoltenDB

open Wire JsonText

namespace Instant

theorem secsUntil_eq_zero (now t : Instant) :
    now.secsUntil t = 0 ↔ t.nanos < now.nanos + NANOS_PER_SEC := by
  have hpos : 0 < NANOS_PER_SEC := by decide
  rw [secsUntil, Nat.div_eq_zero_iff]
  omega

theorem secs_add_secsUntil_le (now t : Instant) :
    now.secs + now.secsUntil t ≤ max now.secs t.secs := by
  unfold secs secsUntil
  rcases Nat.le_total t.nanos now.nanos with h | h
  · rw [Nat.sub_eq_zero_of_le h, Nat.zero_div]
    exact le_max_left _ _
  · refine le_trans ?_ (le_max_right _ _)
    calc now.nanos / NANOS_PER_SEC + (t.nanos - now.nanos) / NANOS_PER_SEC
        ≤ (now.nanos + (t.nanos - now.nanos)) / NANOS_PER_SEC := Nat.div_add_div_le_add_div
      _ = t.nanos / NANOS_PER_SEC := by rw [Nat.add_sub_cancel' h]

end Instant

namespace RevocationStore

theorem pruneUnix_toNat (now t : Instant) :
    (pruneUnix now t).toNat = now.secs + now.secsUntil t := by
  have hle := Instant.secs_add_secsUntil_le now t
  have hnow := now.secs_lt
  have ht := t.secs_lt
  exact UInt64.toNat_ofNat_of_lt' (show now.secs + now.secsUntil t < 2 ^ 64 by omega)

theorem pruneUnix_lt (now t : Instant) : (pruneUnix now t).toNat < 2 ^ 63 := by
  have hle := Instant.secs_add_secsUntil_le now t
  have hnow := now.secs_lt
  have ht := t.secs_lt
  rw [pruneUnix_toNat]
  omega

/-! ## Restoring entries -/

/-- The deadline that an entry is put back with, if it is put back. -/
def kept (now : Instant) (prune : UInt64) : Option Instant :=
  if prune ≤ now.unixSecs then none else now.addSecs (prune - now.unixSecs)

theorem kept_eq_none {now : Instant} {prune : UInt64} (h : prune.toNat < 2 ^ 63) :
    kept now prune = none ↔ prune.toNat ≤ now.secs := by
  have hunix := now.unixSecs_toNat
  have hiff : prune ≤ now.unixSecs ↔ prune.toNat ≤ now.secs := by
    rw [UInt64.le_iff_toNat_le, hunix]
  unfold kept
  split_ifs with hle
  · simp [hiff.1 hle]
  · rw [hiff] at hle
    have hsub : (prune - now.unixSecs).toNat = prune.toNat - now.secs := by
      rw [UInt64.toNat_sub_of_le _ _ (UInt64.le_iff_toNat_le.2 (by omega)), hunix]
    have hrange : now.nanos + NANOS_PER_SEC * (prune.toNat - now.secs) < 2 ^ 63 * NANOS_PER_SEC := by
      have hmod : now.nanos < NANOS_PER_SEC * (now.secs + 1) := by
        unfold Instant.secs NANOS_PER_SEC
        omega
      unfold NANOS_PER_SEC at *
      omega
    rw [Instant.addSecs, hsub, dif_pos hrange]
    simp [hle]

theorem kept_eq_some {now pruneAt : Instant} {prune : UInt64} (h : kept now prune = some pruneAt) :
    now.secs < prune.toNat ∧
      pruneAt.nanos = now.nanos + NANOS_PER_SEC * (prune.toNat - now.secs) := by
  have hunix := now.unixSecs_toNat
  unfold kept at h
  split_ifs at h with hle
  rw [UInt64.le_iff_toNat_le, hunix] at hle
  have hadd := Instant.addSecs_eq_some.1 h
  rw [UInt64.toNat_sub_of_le _ _ (UInt64.le_iff_toNat_le.2 (by omega)), hunix] at hadd
  exact ⟨by omega, hadd⟩

theorem restore_eq (now : Instant) {es : List (String × UInt64)} (hes : (es.map Prod.fst).Nodup)
    (hlt : ∀ e ∈ es, e.2.toNat < 2 ^ 63) (store : RevocationStore) :
    ∃ loaded, restore now es store = .ok loaded ∧ ∀ jti,
      loaded.revoked[jti]? = ((es.lookup jti).bind (kept now)).or store.revoked[jti]? := by
  induction es generalizing store with
  | nil => exact ⟨store, rfl, fun jti => by simp⟩
  | cons e es ih =>
    obtain ⟨jti, prune⟩ := e
    rw [List.map_cons, List.nodup_cons] at hes
    have hlt' := fun e he => hlt e (List.mem_cons_of_mem _ he)
    have habsent : es.lookup jti = none := by
      rw [List.lookup_eq_none_iff]
      rintro e he
      have hne : jti ≠ e.1 := fun heq => hes.1 (List.mem_map.2 ⟨e, he, heq.symm⟩)
      simpa using hne
    unfold restore
    split_ifs with hle
    · -- the entry is not put back
      obtain ⟨loaded, hok, hlook⟩ := ih hes.2 hlt' store
      refine ⟨loaded, hok, fun a => ?_⟩
      rw [hlook, List.lookup_cons]
      by_cases ha : a = jti
      · simp [ha, habsent, kept, hle]
      · simp [show (a == jti) = false by simpa using ha]
    · have hsome : kept now prune = now.addSecs (prune - now.unixSecs) := if_neg hle
      cases hadd : now.addSecs (prune - now.unixSecs) with
      | none =>
        rw [hadd, kept_eq_none (hlt _ List.mem_cons_self)] at hsome
        rw [UInt64.le_iff_toNat_le, now.unixSecs_toNat] at hle
        exact absurd hsome hle
      | some pruneAt =>
        obtain ⟨loaded, hok, hlook⟩ := ih hes.2 hlt' (store.revoke jti pruneAt)
        refine ⟨loaded, hok, fun a => ?_⟩
        rw [hlook, List.lookup_cons, revoke, Map.get?_insert]
        by_cases ha : a = jti
        · simp [ha, habsent, hsome, hadd]
        · simp [show (a == jti) = false by simpa using ha, ha]

/-! ## The payload -/

/-- The keys come in increasing order. -/
def InKeyOrder (ks : List String) : Prop := ks.Pairwise fun a b => compare a b = .lt

instance (ks : List String) : Decidable (InKeyOrder ks) :=
  inferInstanceAs (Decidable (List.Pairwise _ _))

/-- The entries as fields. -/
def fields (es : List (String × UInt64)) : List (String × Json) :=
  es.map fun e => (e.1, .ofU64 e.2)

theorem map_fst_fields (es : List (String × UInt64)) :
    (fields es).map Prod.fst = es.map Prod.fst := by
  simp [fields, Function.comp_def]

theorem sorted_fields {es : List (String × UInt64)} :
    Fields.Sorted (fields es) ↔ InKeyOrder (es.map Prod.fst) := by
  rw [Fields.Sorted, InKeyOrder, ← map_fst_fields, List.pairwise_map]

theorem integers_of_fields (es : List (String × UInt64)) {fs : List (String × Json)}
    (h : ∀ p ∈ fs, p ∈ fields es) : Integers (.obj fs) := by
  refine Json.every_obj.2 ⟨rfl, fun p hp => ?_⟩
  obtain ⟨e, -, rfl⟩ := List.mem_map.1 (h p hp)
  rfl

theorem depth_of_fields {es : List (String × UInt64)} {fs : List (String × Json)}
    (h : ∀ p ∈ fs, p ∈ fields es) : (Json.obj fs).depth = 1 := by
  have hzero : Json.depthFields fs = 0 := by
    induction fs with
    | nil => rfl
    | cons p fs ih =>
      obtain ⟨e, -, rfl⟩ := List.mem_map.1 (h p List.mem_cons_self)
      simp only [Json.depthFields, ih fun q hq => h q (List.mem_cons_of_mem _ hq)]
      rfl
  rw [Json.depth, hzero]

theorem mem_fields_of_mem_json (es : List (String × UInt64)) {p : String × Json}
    (h : p ∈ Fields.insertAll (fields es) []) : p ∈ fields es := by
  rcases Fields.mem_of_mem_insertAll h with h | h
  · exact h
  · cases h

theorem asEntries_fields (es : List (String × UInt64)) : asEntries (.obj (fields es)) = some es := by
  have hmap : (fields es).mapM (fun p => do let u ← p.2.asU64; return (p.1, u)) = some es := by
    induction es with
    | nil => rfl
    | cons e es ih =>
      rw [show fields (e :: es) = (e.1, .ofU64 e.2) :: fields es from rfl, List.mapM_cons, ih]
      rfl
  exact hmap

variable {store : RevocationStore} {saved : Instant} {ks : List String}

theorem map_fst_entries (hks : ks.Perm store.revoked.keys) :
    (store.entries saved ks).map Prod.fst = ks := by
  rw [entries, List.map_map]
  exact Map.map_fst_inOrder_perm hks

theorem lookup_entries (hks : ks.Perm store.revoked.keys) (jti : String) :
    (store.entries saved ks).lookup jti = store.revoked[jti]?.map (pruneUnix saved) := by
  rw [← Map.lookup_inOrder_perm hks, entries]
  induction store.revoked.inOrder ks with
  | nil => rfl
  | cons e es ih =>
    rw [List.map_cons, List.lookup_cons, List.lookup_cons, ih]
    cases jti == e.1 <;> rfl

variable [AuthCrates]

theorem hmacVerify_hmacSign (data data' : Bytes) :
    hmacVerify data (hmacSign data') = decide (data = data') := by
  rw [hmacVerify, hmacSign, Hex.decode_encode]
  by_cases h : data = data'
  · simp [h]
  · have hne : AuthCrates.hmac data ≠ AuthCrates.hmac data' :=
      fun heq => h (AuthCrates.hmac_injective heq)
    simp [h, hne]

/-- The text of a file is that of its entries and their signature. -/
theorem fromStr_saveToFile (store : RevocationStore) (saved : Instant) (ks : List String) :
    AuthCrates.fromStr (store.saveToFile saved ks) =
      .ok (.obj [("entries", json (fields (store.entries saved ks))),
        ("sig", .str (hmacSign (utf8 (AuthCrates.toString (jsonMap (store.entries saved ks))))))]) := by
  set es := store.entries saved ks with hes
  set entriesValue := json (fields es) with hvalue
  set sig := hmacSign (utf8 (AuthCrates.toString (jsonMap es))) with hsig
  have hpayload : json [("entries", entriesValue), ("sig", .str sig)] =
      .obj [("entries", entriesValue), ("sig", .str sig)] := by
    have hlt : compare "entries" "sig" = .lt := by decide
    rw [json, Fields.insertAll_self]
    exact List.pairwise_pair.2 hlt
  have hint : Integers entriesValue := integers_of_fields es fun p => mem_fields_of_mem_json es
  have hord : entriesValue.Ordered := by
    refine Json.every_obj.2 ⟨decide_eq_true (Fields.Sorted.insertAll List.Pairwise.nil _), ?_⟩
    rintro p hp
    obtain ⟨e, -, rfl⟩ := List.mem_map.1 (mem_fields_of_mem_json es hp)
    rfl
  have hsave : store.saveToFile saved ks =
      AuthCrates.toString (.obj [("entries", entriesValue), ("sig", .str sig)]) :=
    congrArg AuthCrates.toString hpayload
  rw [hsave]
  refine AuthCrates.fromStr_toString (Json.every_obj.2 ⟨rfl, ?_⟩) (Json.every_obj.2 ⟨?_, ?_⟩) ?_
  · simp only [List.forall_mem_cons]
    exact ⟨hint, rfl, List.forall_mem_nil _⟩
  · have hlt : compare "entries" "sig" = .lt := by decide
    exact decide_eq_true (List.pairwise_pair.2 hlt)
  · simp only [List.forall_mem_cons]
    exact ⟨hord, rfl, List.forall_mem_nil _⟩
  · have hdepth := depth_of_fields fun p => mem_fields_of_mem_json es (p := p)
    simp only [Json.depth, Json.depthFields, hvalue, json] at hdepth ⊢
    omega

/-- **Loading what was saved.**  The file is refused, or its entries are put back. -/
theorem loadFromFile_saveToFile (saved : Instant) (hks : ks.Perm store.revoked.keys)
    (path : String) (now : Instant) :
    (InKeyOrder ks ∧ loadFromFile path (.contents (store.saveToFile saved ks)) now =
        restore now (store.entries saved ks) new) ∨
      (¬ InKeyOrder ks ∧ ∃ e, loadFromFile path (.contents (store.saveToFile saved ks)) now =
        .error e) := by
  have hread := fromStr_saveToFile store saved ks
  set es := store.entries saved ks with hes
  have hkeys : es.map Prod.fst = ks := map_fst_entries hks
  set entriesValue := json (fields es) with hvalue
  set sig := hmacSign (utf8 (AuthCrates.toString (jsonMap es))) with hsig
  have hint : Integers entriesValue := integers_of_fields es fun p => mem_fields_of_mem_json es
  have hverify : hmacVerify (utf8 (AuthCrates.toString entriesValue)) sig =
      decide (InKeyOrder ks) := by
    rw [hsig, hmacVerify_hmacSign]
    refine decide_eq_decide.2 ⟨fun heq => ?_, fun hsorted => ?_⟩
    · have hobj : entriesValue = jsonMap es :=
        AuthCrates.toString_injective hint (integers_of_fields es fun p hp => hp)
          (utf8_injective heq)
      have hfs : Fields.insertAll (fields es) [] = fields es := Json.obj.inj hobj
      rw [← hkeys, ← sorted_fields, ← hfs]
      exact Fields.Sorted.insertAll List.Pairwise.nil _
    · rw [← hkeys, ← sorted_fields] at hsorted
      rw [hvalue, json, Fields.insertAll_self hsorted]
      rfl
  by_cases hsorted : InKeyOrder ks
  · refine Or.inl ⟨hsorted, ?_⟩
    have hfields : entriesValue = .obj (fields es) := by
      rw [hvalue, json, Fields.insertAll_self (sorted_fields.2 (hkeys ▸ hsorted))]
    have hentries : asEntries entriesValue = some es := hfields ▸ asEntries_fields es
    simp [loadFromFile, hread, hverify, hsorted, hentries, List.lookup_cons, Json.asStr]
  · refine Or.inr ⟨hsorted, ?_⟩
    simp [loadFromFile, hread, hverify, hsorted, List.lookup_cons, Json.asStr]

omit [AuthCrates] in
/-- The entries that were saved are put back if they are still to be kept. -/
theorem restore_entries (saved : Instant) (hks : ks.Perm store.revoked.keys) (now : Instant) :
    ∃ loaded, restore now (store.entries saved ks) new = .ok loaded ∧ ∀ jti : String,
      loaded.revoked[jti]? = (store.revoked[jti]?.map (pruneUnix saved)).bind (kept now) := by
  have hnodup : ((store.entries saved ks).map Prod.fst).Nodup := by
    rw [map_fst_entries hks]
    exact hks.nodup_iff.2 (Map.nodup_keys _)
  have hlt : ∀ e ∈ store.entries saved ks, e.2.toNat < 2 ^ 63 := by
    rintro e he
    obtain ⟨p, -, rfl⟩ := List.mem_map.1 he
    exact pruneUnix_lt _ _
  obtain ⟨loaded, hok, hlook⟩ := restore_eq now hnodup hlt new
  refine ⟨loaded, hok, fun jti => ?_⟩
  rw [hlook, lookup_entries hks, new, Map.get?_empty, Option.or_none]

omit [AuthCrates] in
theorem kept_pruneUnix (now pruneAt : Instant) :
    (kept now (pruneUnix now pruneAt)).isSome ↔ now.nanos + NANOS_PER_SEC ≤ pruneAt.nanos := by
  rw [Option.isSome_iff_ne_none, ne_eq, kept_eq_none (pruneUnix_lt _ _), pruneUnix_toNat]
  have hzero := Instant.secsUntil_eq_zero now pruneAt
  omega

end RevocationStore

open RevocationStore

/-- **The revocation file.**  What was saved is loaded at the same time, with the same
    tokens revoked, exactly if the hash map was walked in the order of its keys and every
    deadline is at least one second away. -/
theorem revocation_file_roundTrip_iff [AuthCrates] {store : RevocationStore} {now : Instant}
    {ks : List String} (hks : ks.Perm store.revoked.keys) (path : String) :
    (∃ loaded, loadFromFile path (.contents (store.saveToFile now ks)) now = .ok loaded ∧
        ∀ jti, loaded.isRevoked jti = store.isRevoked jti) ↔
      InKeyOrder ks ∧ ∀ (jti : String) (pruneAt : Instant), store.revoked[jti]? = some pruneAt →
        now.nanos + NANOS_PER_SEC ≤ pruneAt.nanos := by
  obtain ⟨restored, hrestored, hlook⟩ := restore_entries now hks now
  rcases loadFromFile_saveToFile now hks path now with ⟨hsorted, hload⟩ | ⟨hsorted, e, hload⟩
  · have hiff : (∀ jti, restored.isRevoked jti = store.isRevoked jti) ↔
        ∀ (jti : String) (pruneAt : Instant), store.revoked[jti]? = some pruneAt →
          now.nanos + NANOS_PER_SEC ≤ pruneAt.nanos := by
      refine forall_congr' fun jti => ?_
      rw [isRevoked, isRevoked, hlook]
      cases hjti : store.revoked[jti]? with
      | none => simp
      | some pruneAt => simp [← kept_pruneUnix, Option.isSome_iff_ne_none]
    rw [hload, hrestored]
    constructor
    · rintro ⟨loaded, hok, hsame⟩
      cases hok
      exact ⟨hsorted, hiff.1 hsame⟩
    · rintro ⟨-, hdeadline⟩
      exact ⟨restored, rfl, hiff.2 hdeadline⟩
  · constructor
    · rintro ⟨loaded, hok, -⟩
      rw [hload] at hok
      cases hok
    · rintro ⟨h, -⟩
      exact absurd h hsorted

/-- Two tokens revoked until an hour from now. -/
def twoRevoked : RevocationStore :=
  (new.revoke "a" (.ofSecs 3600 (by decide))).revoke "b" (.ofSecs 3600 (by decide))

/-- The file of a store with one entry is loaded. -/
theorem revocation_file_roundTrip_one :
    letI := AuthCrates.plain
    ∃ loaded, loadFromFile "f" (.contents (saveToFile
        (new.revoke "a" (.ofSecs 3600 (by decide))) (.ofSecs 0 (by decide)) ["a"]))
        (.ofSecs 0 (by decide)) = .ok loaded ∧
      ∀ jti, loaded.isRevoked jti = (new.revoke "a" (.ofSecs 3600 (by decide))).isRevoked jti := by
  let _ := AuthCrates.plain
  have hperm : ["a"].Perm (new.revoke "a" (.ofSecs 3600 (by decide))).revoked.keys := by
    decide +kernel
  refine (revocation_file_roundTrip_iff hperm "f").2 ⟨by decide, fun jti pruneAt hjti => ?_⟩
  rw [revoke, Map.get?_insert, new, Map.get?_empty] at hjti
  split_ifs at hjti
  obtain rfl := Option.some.inj hjti
  decide

/-- A hash map that has the second of two entries first: the file is refused. -/
theorem revocation_file_refused :
    letI := AuthCrates.plain
    ["b", "a"].Perm twoRevoked.revoked.keys ∧
      (∀ (jti : String) (pruneAt : Instant), twoRevoked.revoked[jti]? = some pruneAt →
        0 < pruneAt.nanos) ∧
      ¬ ∃ loaded, loadFromFile "f" (.contents (twoRevoked.saveToFile (.ofSecs 0 (by decide))
        ["b", "a"])) (.ofSecs 0 (by decide)) = .ok loaded ∧
        ∀ jti, loaded.isRevoked jti = twoRevoked.isRevoked jti := by
  let _ := AuthCrates.plain
  have hperm : ["b", "a"].Perm twoRevoked.revoked.keys := by decide +kernel
  refine ⟨hperm, fun jti pruneAt hjti => ?_, ?_⟩
  · rw [twoRevoked, revoke, revoke, Map.get?_insert, Map.get?_insert, new, Map.get?_empty] at hjti
    split_ifs at hjti <;> obtain rfl := Option.some.inj hjti <;> decide
  · rintro ⟨loaded, hok, -⟩
    rcases loadFromFile_saveToFile (.ofSecs 0 (by decide)) hperm "f"
      (.ofSecs 0 (by decide)) with ⟨hsorted, -⟩ | ⟨-, e, herr⟩
    · exact absurd hsorted (by decide)
    · rw [herr] at hok
      cases hok

end MoltenDB
