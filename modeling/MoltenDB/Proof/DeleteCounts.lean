/-
  The number of deleted documents in the response of a delete.

  A delete by a clause or by a count selects stored documents, each of them once, and reports
  their number.  A delete by key reports the number of keys that it is given: this is true
  exactly if they differ and each is that of a document (`deleted_count_iff`).
-/
import MoltenDB.Handlers.Rules
import MoltenDB.Proof.Deletions

namespace MoltenDB

open Wire Prog Prog.Eff

/-! ## How many documents are removed -/

/-- Of a list without duplicates, as many items are among the `keys` as there are keys exactly if
    the keys differ and are all in the list. -/
theorem length_filter_mem_iff {α : Type} [DecidableEq α] {stored keys : List α}
    (h : stored.Nodup) : (stored.filter fun k => decide (k ∈ keys)).length = keys.length ↔
      keys.Nodup ∧ ∀ k ∈ keys, k ∈ stored := by
  have hnodup : (stored.filter fun k => decide (k ∈ keys)).Nodup := h.filter _
  have hsub : stored.filter (fun k => decide (k ∈ keys)) ⊆ keys := fun k hk =>
    of_decide_eq_true (List.mem_filter.1 hk).2
  constructor
  · intro hlen
    have hperm := (hnodup.subperm hsub).perm_of_length_le hlen.ge
    exact ⟨hperm.nodup_iff.1 hnodup, fun k hk => (List.mem_filter.1 (hperm.mem_iff.2 hk)).1⟩
  · rintro ⟨hkeys, hstored⟩
    refine ((List.perm_ext_iff_of_nodup hnodup hkeys).2 fun k => ⟨fun hk => hsub hk, fun hk => ?_⟩).length_eq
    exact List.mem_filter.2 ⟨hstored k hk, decide_eq_true hk⟩

variable {db db' : Db} {c : String} {keys : List String}

section

variable [Crates]

/-- The documents of the collection are counted down by those that are removed. -/
theorem Db.Without.count (h : db.Without c keys db') (c' : String) :
    db'.count c' + (if c' = c then ((db.keys c).filter fun k => decide (k ∈ keys)).length else 0) =
      db.count c' := by
  have hperm : (db'.keys c').Perm ((db.keys c').filter fun k => !decide (c' = c ∧ k ∈ keys)) := by
    refine (List.perm_ext_iff_of_nodup Db.nodup_keys (Db.nodup_keys.filter _)).2 fun k => ?_
    rw [List.mem_filter, Db.mem_keys, Db.mem_keys, h.bytes]
    by_cases hk : c' = c ∧ k ∈ keys
    · simp [hk]
    · simp [hk]
  rw [← db'.length_keys, ← db.length_keys, hperm.length_eq]
  split_ifs with hc
  · subst hc
    simp only [true_and]
    rw [add_comm]
    exact (List.length_eq_length_filter_add _).symm
  · simp [hc]

end

theorem get_deletedResponse (n : ℕ) :
    (deletedResponse n).2.get "deleted" = some (jsonCount n) := by
  rw [deletedResponse, get_json]
  rfl

/-- The response has the number of documents that the collection has lost, and the others have lost
    none. -/
def Db.ReportsDeleted (db : Db) (c : String) (resp : Json) (db' : Db) : Prop :=
  ∃ n : ℕ, resp.get "deleted" = some (jsonCount n) ∧
    ∀ c', db'.count c' + (if c' = c then n else 0) = db.count c'

section

variable [Crates]

theorem Db.Without.reports (h : db.Without c keys db') (hnodup : keys.Nodup)
    (hstored : ∀ k ∈ keys, k ∈ db.keys c) :
    db.ReportsDeleted c (deletedResponse keys.length).2 db' := by
  refine ⟨keys.length, get_deletedResponse _, fun c' => ?_⟩
  have hlen := (length_filter_mem_iff Db.nodup_keys).2 ⟨hnodup, hstored⟩
  have hcount := h.count c'
  rwa [hlen] at hcount

/-- **The number of keys** is the number of removed documents exactly if the keys differ and each is
    that of a document. -/
theorem Db.Without.reports_iff (h : db.Without c keys db') (hlen : keys.length < 2 ^ 64) :
    db.ReportsDeleted c (deletedResponse keys.length).2 db' ↔
      keys.Nodup ∧ ∀ k ∈ keys, k ∈ db.keys c := by
  refine ⟨fun hreports => ?_, fun hkeys => h.reports hkeys.1 hkeys.2⟩
  obtain ⟨n, hget, hcount⟩ := hreports
  have hremoved := h.count c
  rw [if_pos rfl] at hremoved
  have hn := hcount c
  rw [if_pos rfl] at hn
  rw [← length_filter_mem_iff Db.nodup_keys]
  have hle : ((db.keys c).filter fun k => decide (k ∈ keys)).length ≤ keys.length :=
    ((Db.nodup_keys.filter _).subperm fun k hk =>
      of_decide_eq_true (List.mem_filter.1 hk).2).length_le
  have heq : UInt64.ofNat keys.length = UInt64.ofNat n := by
    rw [get_deletedResponse] at hget
    exact Option.some.inj (congrArg Json.asU64 (Option.some.inj hget))
  have hmod := congrArg UInt64.toNat heq
  rw [UInt64.toNat_ofNat', UInt64.toNat_ofNat', Nat.mod_eq_of_lt hlen, Nat.mod_eq_of_lt (by omega)]
    at hmod
  omega

end

/-! ## The claim -/

/-- The keys that a delete is given; those with a clause are not looked at. -/
def keysToDelete (payload : Json) : Option (List String) :=
  match payload.field .filter, payload.field .keys with
  | none, some (.str k) => some [k]
  | none, some (.arr arr) => some (arr.filterMap Json.asStr)
  | _, _ => none

section

variable {payload : Json} {maxBodySize maxKeysPerRequest : ℕ}

/-- An accepted request has at most as many keys as the limit allows, or one. -/
theorem length_keysToDelete [FloatText]
    (h : validateRequest payload maxBodySize maxKeysPerRequest = .ok ()) {keys : List String}
    (hkeys : keysToDelete payload = some keys) : keys.length ≤ max 1 maxKeysPerRequest := by
  unfold keysToDelete at hkeys
  split at hkeys
  · rw [← Option.some.inj hkeys]
    exact le_max_left _ _
  · next arr _ hfield =>
    rw [← Option.some.inj hkeys]
    calc (arr.filterMap Json.asStr).length ≤ arr.length := List.length_filterMap_le _ _
      _ ≤ maxKeysPerRequest := (requestAccepted_of_ok h).length_keys hfield
      _ ≤ max 1 maxKeysPerRequest := le_max_right _ _
  · cases hkeys

/-- A delete that is counted, or fails. -/
theorem wp_deleteResponse {m : Op ℕ} {failed : String → DeleteError} {E : DbError → Db → Prop}
    {Q : Response → Db → Prop} (herror : ∀ e db', Q (failed e).intoResponse db')
    (h : wp m (fun n => Q (deletedResponse n)) (fun _ _ => True) db) :
    wp (do
      let r ← Eff.outcome m
      return deleteResponse r failed : Op Response) Q E db := by
  rw [wp_bind, wp_outcome]
  exact wp_mono h (fun _ _ h => h) fun e db' _ => herror _ _

theorem ne_ok_of_deleteError (e : DeleteError) : e.intoResponse.1 ≠ 200 := by
  have hstatus : e.statusCode ≠ 200 := by cases e <;> simp [DeleteError.statusCode]
  exact hstatus

variable [Crates]

/-- A delete has removed the documents of the `keys` and reports their number.  The keys are those
    that it was given, or else those of documents. -/
structure Db.Deleted (db : Db) (c : String) (payload : Json) (keys : List String) (r : Response)
    (db' : Db) : Prop where
  response : r = deletedResponse keys.length
  without : db.Without c keys db'
  given : ∀ ks, keysToDelete payload = some ks → keys = ks
  stored : keysToDelete payload = none → keys.Nodup ∧ ∀ k ∈ keys, k ∈ db.keys c

/-- Selected documents are removed. -/
theorem Leading.deleted {P : Predicate} {asc : Bool} (h : Leading (db.stored c) P asc keys)
    (hnone : keysToDelete payload = none) (hwithout : db.Without c keys db') :
    db.Deleted c payload keys (deletedResponse keys.length) db' := by
  refine ⟨rfl, hwithout, fun ks hks => ?_, fun _ => ⟨h.nodup, fun k hk => ?_⟩⟩
  · rw [hnone] at hks
    cases hks
  · obtain ⟨b, hb, -⟩ := h.passes k hk
    rw [Db.get?_stored] at hb
    exact Db.mem_keys.2 ⟨b, hb⟩

theorem wp_deleteByKeys_deleted (h : db.InStep) (hkeys : keysToDelete payload = some keys)
    {failed : String → DeleteError} {E : DbError → Db → Prop} :
    wp (deleteByKeys c keys failed) (fun r db' => r.1 = 200 → ∃ keys, db.Deleted c payload keys r db')
      E db := by
  simp only [deleteByKeys, wp_bind, wp_outcome, Db.delete]
  refine wp_checkFault (fun _ => ?_) fun e he => absurd he (ne_ok_of_deleteError _)
  refine wp_mono (wp_delete_without h keys) (fun _ db' hdb' _ => ⟨keys, rfl, hdb', ?_, ?_⟩)
    fun e _ _ he => absurd he (ne_ok_of_deleteError _)
  · exact fun ks hks => Option.some.inj (hkeys.symm.trans hks)
  · intro hnone
    rw [hkeys] at hnone
    cases hnone

/-- **What a delete has done that succeeds** and drops no collection. -/
theorem wp_processDelete_deleted [FloatText] [Lowercase] (h : db.InStep)
    (hcol : (namedCollection payload).getD "default" = c)
    (hdrop : (payload.field .drop).bind Json.asBool ≠ some true) :
    wp (processDelete payload maxBodySize maxKeysPerRequest)
      (fun r db' => r.1 = 200 → ∃ keys, db.Deleted c payload keys r db') (fun _ _ => True) db := by
  rw [processDelete]
  refine wp_validated (fun e he => absurd he (ne_ok_of_validationError e)) fun hvalid =>
    wp_validated (fun e he => absurd he (ne_ok_of_validationError e)) fun _ => ?_
  dsimp only
  rw [hcol, if_neg hdrop]
  cases hfilter : payload.field .filter with
  | some clause =>
    have hnone : keysToDelete payload = none := by rw [keysToDelete, hfilter]
    dsimp only
    split_ifs
    · exact fun he => absurd he (ne_ok_of_deleteError _)
    refine wp_deleteResponse (fun _ _ he => absurd he (ne_ok_of_deleteError _)) ?_
    rw [Db.deleteFiltered, wp_bind]
    refine wp_checkFault (fun _ => ?_) fun _ => trivial
    refine wp_mono (wp_deleteFiltered_without h _ _ _) (fun n db' hdb' _ => ?_) fun _ _ _ => trivial
    obtain ⟨keys, rfl, -, hleading, hwithout⟩ := hdb'
    exact ⟨keys, hleading.deleted hnone hwithout⟩
  | none =>
    have hmissing : DeleteError.missingFields.intoResponse.1 = 200 →
        ∃ keys, db.Deleted c payload keys DeleteError.missingFields.intoResponse db := fun he =>
      absurd he (ne_ok_of_deleteError _)
    cases hkeys : payload.field .keys with
    | none =>
      have hnone : keysToDelete payload = none := by rw [keysToDelete, hfilter, hkeys]
      cases (payload.field .count).bind Json.asU64 with
      | none => exact hmissing
      | some n =>
        dsimp only
        split_ifs
        · exact fun he => absurd he (ne_ok_of_deleteError _)
        refine wp_deleteResponse (fun _ _ he => absurd he (ne_ok_of_deleteError _)) ?_
        rw [Db.deleteN, wp_bind]
        refine wp_checkFault (fun _ => ?_) fun _ => trivial
        refine wp_mono (wp_deleteN_without h _ _) (fun n db' hdb' _ => ?_) fun _ _ _ => trivial
        obtain ⟨keys, rfl, -, hleading, hwithout⟩ := hdb'
        exact ⟨keys, hleading.deleted hnone hwithout⟩
    | some keys =>
      cases keys with
      | str k => exact wp_deleteByKeys_deleted h (by rw [keysToDelete, hfilter, hkeys])
      | arr arr => exact wp_deleteByKeys_deleted h (by rw [keysToDelete, hfilter, hkeys])
      | null => exact hmissing
      | bool => exact hmissing
      | num => exact hmissing
      | obj => exact hmissing

/-- **The number of deleted documents in a response is true** exactly if the keys that the request
    has, if any, differ and are all those of documents. -/
theorem deleted_count_iff [FloatText] [Lowercase] (h : db.InStep)
    (hcol : (namedCollection payload).getD "default" = c)
    (hdrop : (payload.field .drop).bind Json.asBool ≠ some true)
    (hmax : maxKeysPerRequest < 2 ^ 64) {resp : Json}
    (hok : (processDelete payload maxBodySize maxKeysPerRequest db).1 = .ok (200, resp)) :
    db.ReportsDeleted c resp (processDelete payload maxBodySize maxKeysPerRequest db).2 ↔
      ∀ keys, keysToDelete payload = some keys →
        keys.Nodup ∧ ∀ k ∈ keys, (db.bytes c k).isSome = true := by
  obtain ⟨keys, hresp, hwithout, hgiven, hstored⟩ :=
    wp_of_ok (wp_processDelete_deleted h hcol hdrop) (Prod.ext hok rfl) rfl
  have hmem : ∀ k, k ∈ db.keys c ↔ (db.bytes c k).isSome = true := fun k => by
    rw [Db.mem_keys, Option.isSome_iff_exists]
  obtain rfl : resp = (deletedResponse keys.length).2 := congrArg Prod.snd hresp
  cases hkeys : keysToDelete payload with
  | none =>
    obtain ⟨hnodup, hall⟩ := hstored hkeys
    exact iff_of_true (hwithout.reports hnodup hall) fun ks hks => by cases hks
  | some ks =>
    obtain rfl := hgiven ks hkeys
    have hvalid : validateRequest payload maxBodySize maxKeysPerRequest = .ok () := by
      cases hv : validateRequest payload maxBodySize maxKeysPerRequest with
      | ok u => rfl
      | error e =>
        rw [processDelete, hv] at hok
        exact absurd (congrArg Prod.fst (Except.ok.inj hok)) (ne_ok_of_validationError e)
    have hlen := length_keysToDelete hvalid hkeys
    rw [hwithout.reports_iff (by omega)]
    simp only [hmem]
    exact ⟨fun hboth ks hks => Option.some.inj hks ▸ hboth, fun hall => hall _ rfl⟩

end

/-! ## Keys that are missing -/

section

/-- A delete of some keys. -/
def deletePayload (keys : Json) : Json := .obj [("collection", .str "c"), ("keys", keys)]

theorem deleted_count_iff_both :
    letI := Crates.plain
    letI := Lowercase.ascii
    letI := FloatText.plain
    let run := processDelete (deletePayload (.arr [.str "a", .str "b"])) 1000 10 ofTwoDocuments
    run.1 = .ok (deletedResponse 2) ∧
      ofTwoDocuments.ReportsDeleted "c" (deletedResponse 2).2 run.2 := by
  let _ := Crates.plain
  let _ := Lowercase.ascii
  let _ := FloatText.plain
  have hok : (processDelete (deletePayload (.arr [.str "a", .str "b"])) 1000 10
      ofTwoDocuments).1 = .ok (deletedResponse 2) := by decide +kernel
  refine ⟨hok, (deleted_count_iff ofTwoDocuments_inStep rfl (by decide) (by decide) hok).2 ?_⟩
  intro keys hkeys
  obtain rfl : ["a", "b"] = keys := Option.some.inj hkeys
  decide +kernel

/-- **A key without a document is counted.** -/
theorem missing_key_counted :
    letI := Crates.plain
    letI := Lowercase.ascii
    letI := FloatText.plain
    let run := processDelete (deletePayload (.str "x")) 1000 10 ofTwoDocuments
    ofTwoDocuments.InStep ∧ run.1 = .ok (deletedResponse 1) ∧
      ¬ ofTwoDocuments.ReportsDeleted "c" (deletedResponse 1).2 run.2 := by
  let _ := Crates.plain
  let _ := Lowercase.ascii
  let _ := FloatText.plain
  intro run
  have hcounts : ofTwoDocuments.count "c" = 2 ∧ run.2.count "c" = 2 := by decide +kernel
  refine ⟨ofTwoDocuments_inStep, by decide +kernel, ?_⟩
  rintro ⟨n, hget, hcount⟩
  have hlost := hcount "c"
  rw [hcounts.1, hcounts.2, if_pos rfl] at hlost
  obtain rfl : n = 0 := by omega
  rw [get_deletedResponse] at hget
  exact absurd (Option.some.inj hget) (by decide)

end

end MoltenDB
