/-
  Updates of one document that carry the same version as a guard.

  An update looks the document up and checks its guard in one step, and stores the merged
  document in a later one.  One of them wins, and each winner counts as a version, exactly
  if no two of them overlap (`one_winner_iff`).
-/
import MoltenDB.Proof.DocumentCodec
import MoltenDB.Engine.Steps
import MoltenDB.Engine.Storage.Registers
import MoltenDB.Lib.Schedule

namespace MoltenDB

open Wire Prog Prog.Eff Operations SystemFields Schedule

/-! ## The version of a stored document -/

/-- The version of the document stored as `bytes`. -/
def version (bytes : Bytes) : UInt64 :=
  ((msgpackToValue bytes).bind fun doc => fieldU64 doc IKEY_VERSION).getD 0

/-- The objects that are read are ordered maps. -/
theorem sorted_of_msgpackToValue {bytes : Bytes} {fs : List (String × Json)}
    (h : msgpackToValue bytes = some (.obj fs)) : Fields.Sorted fs := by
  obtain ⟨⟨v, rest⟩, hread, hv⟩ := Option.map_eq_some_iff.1 h
  obtain rfl : v = .obj fs := hv
  cases bytes with
  | nil => cases hread
  | cons byte buf =>
    rw [List.length_cons, readValue] at hread
    cases hhead : head byte <;>
      simp only [hhead, Option.bind_eq_bind, Option.bind_eq_some_iff, Option.pure_def,
        Option.some.injEq, Prod.mk.injEq, reduceCtorEq, Json.obj.injEq, false_and, and_false,
        exists_false] at hread
    obtain ⟨-, -, -, -, rfl, -⟩ := hread
    exact Json.sorted_insertAll_nil _

theorem internalName_eq_version {key : String} (h : internalName key = IKEY_VERSION) :
    key = VERSION ∨ key = IKEY_VERSION := by
  have htok : tokenOf key = some TOK_VERSION := by
    rw [← tokenOf_internalName, h]
    decide
  unfold tokenOf at htok
  split_ifs at htok with hv
  · exact hv
  all_goals exact absurd htok (by decide)

/-- The public version field is read after its alias, and so is the one that is kept. -/
theorem lookup_canon_version {fs : List (String × Json)} {x : Json} (hs : Fields.Sorted fs)
    (h : fs.lookup VERSION = some x) :
    (fs.map Json.canonField).reverse.lookup IKEY_VERSION = some x.canon := by
  induction fs with
  | nil => cases h
  | cons p fs ih =>
    obtain ⟨hp, hs⟩ := List.pairwise_cons.1 hs
    rw [List.map_cons, List.reverse_cons, List.lookup_append]
    by_cases hk : VERSION = p.1
    · rw [List.lookup_cons, beq_iff_eq.2 hk] at h
      have hnone : (fs.map Json.canonField).reverse.lookup IKEY_VERSION = none := by
        rw [List.lookup_eq_none_iff]
        intro q hq
        obtain ⟨q, hq', rfl⟩ := List.mem_map.1 (List.mem_reverse.1 hq)
        have hlt := hp q hq'
        rw [← hk] at hlt
        rw [bne_iff_ne]
        intro heq
        rcases internalName_eq_version heq.symm with hq | hq <;> rw [hq] at hlt <;>
          exact absurd hlt (by decide)
      rw [hnone, Json.canonField, ← hk]
      obtain rfl := Option.some.inj h
      rfl
    · rw [List.lookup_cons, beq_eq_false_iff_ne.2 hk] at h
      rw [ih hs h]
      rfl

/-- **A merged document has the next version.** -/
theorem version_merged {docObj updateObj : List (String × Json)} {t : UInt64}
    (hs : Fields.Sorted docObj) (hfits : (merged docObj updateObj t).Fits) :
    version (valueToMsgpack (merged docObj updateObj t)) =
      (fieldU64 (.obj docObj) IKEY_VERSION).getD 0 + 1 := by
  have hsorted : Fields.Sorted (mergeFields docObj updateObj) := hs.insertAll _
  rw [version, msgpackToValue_valueToMsgpack hfits, Option.bind_some, merged, Json.set_obj,
    Json.set_obj, Json.canon_obj, fieldU64, Json.get_obj, Fields.lookup_insertAll,
    lookup_canon_version ((hsorted.insert _ _).insert _ _) (by
      rw [Fields.lookup_insert, if_neg (by decide), Fields.lookup_insert, if_pos rfl])]
  rfl

/-! ## The two steps of an update -/

/-- The guard of an update, if it has one, is the version of the document. -/
def guardHolds (doc updates : Json) : Bool :=
  match fieldU64 updates VERSION with
  | some guardV => guardV == (fieldU64 doc IKEY_VERSION).getD 0
  | none => true

/-- The document that an update at the time `t` makes of `doc`, if its guard holds. -/
def mergeAt (doc updates : Json) (t : UInt64) : Json :=
  match doc, updates with
  | .obj docObj, .obj updateObj => merged docObj updateObj t
  | doc, _ => doc

/-- The first step of an update at the time `t`: look the document up, check the guard, merge,
    and check the schema; the result is the document to store, if there was one. -/
def lookUp (valid : Json → Bool) (bytes : Bytes) (updates : Json) (t : UInt64) :
    Except DbError (Option Json) :=
  match msgpackToValue bytes with
  | none => .ok none
  | some doc =>
    if guardHolds doc updates then
      if valid (mergeAt doc updates t) then .ok (some (mergeAt doc updates t))
      else .error (.schemaValidationError "Document does not conform to schema")
    else .error .conflict

/-- A merge reads the clock if it merges, and nothing else. -/
theorem wp_mergeAt_tick {db : Db} {doc updates : Json} {Q : Json → Db → Prop}
    {E : DbError → Db → Prop}
    (ok : guardHolds doc updates = true → Q (mergeAt doc updates (db.world.clock db.tick))
      { db with tick := db.tick + if doc.isObject && updates.isObject then 1 else 0 })
    (conflict : guardHolds doc updates = false → E .conflict db) :
    wp (mergeUpdate doc updates) Q E db := by
  cases updates with
  | obj updateObj =>
    rw [mergeUpdate, wp_bind]
    have hmerge : guardHolds doc (.obj updateObj) = true →
        wp (mergeInto doc updateObj) Q E db := by
      intro hholds
      have hok := ok hholds
      cases doc with
      | obj docObj => exact hok
      | _ => exact hok
    unfold checkGuard
    cases hguard : fieldU64 (.obj updateObj) VERSION with
    | none => exact hmerge (by simp [guardHolds, hguard])
    | some guardV =>
      by_cases heq : guardV = (fieldU64 doc IKEY_VERSION).getD 0
      · have hholds : guardHolds doc (.obj updateObj) = true := by simp [guardHolds, hguard, heq]
        simpa [heq] using hmerge hholds
      · have hholds : guardHolds doc (.obj updateObj) = false := by simp [guardHolds, hguard, heq]
        simpa [heq] using conflict hholds
  | _ =>
    have hok := ok rfl
    cases doc <;> exact hok

/-- Merging reads only the clock. -/
theorem wp_mergeAt {db : Db} {doc updates : Json} {Q : Json → Db → Prop}
    {E : DbError → Db → Prop}
    (ok : guardHolds doc updates = true → ∀ t n, Q (mergeAt doc updates t) { db with tick := n })
    (conflict : guardHolds doc updates = false → E .conflict db) :
    wp (mergeUpdate doc updates) Q E db :=
  wp_mergeAt_tick (fun hholds => ok hholds _ _) conflict

/-- A document is stored unless the schema rejects it. -/
theorem wp_storeUpdate_accepts (db : Db) (c k id : String) (v : Json) :
    wp (storeUpdate c k id v)
      (fun _ db' => db.accepts c v = true ∧ db'.bytes c k = some (valueToMsgpack v))
      (fun err db' => db'.failedWrites = db.failedWrites → db.accepts c v = false ∧
        err = .schemaValidationError "Document does not conform to schema" ∧
          db'.bytes c k = db.bytes c k) db := by
  simp only [storeUpdate, wp_bind, storeDoc, wp_modify, wp_send]
  refine wp_validateDocument_accepts (fun hvalid => ?_) fun hvalid _ => ⟨hvalid, rfl, rfl⟩
  have hput : State.bytes (db.state.alter c fun col =>
      some ((col.getD ∅).insert k (valueToMsgpack v))) c k = some (valueToMsgpack v) := by
    rw [bytes_put, if_pos ⟨rfl, rfl⟩]
  refine wp_writeNew (fun t n => ?_) fun err n hf => absurd hf (Nat.succ_ne_self _)
  exact wp_writeNew (fun t n => ⟨hvalid, hput⟩) fun err n hf => absurd hf (Nat.succ_ne_self _)

/-- **An update alone takes its two steps**: if no write to storage fails, its result and the
    document it leaves are those of a lookup and, unless that fails, a store. -/
theorem wp_update_lookUp {db : Db} {c k : String} {updates : Json} {bytes : Bytes}
    (hbytes : db.bytes c k = some bytes) :
    wp (update c k updates)
      (fun found db' => ∃ t, ∃ o, lookUp (db.accepts c) bytes updates t = .ok o ∧
        found = o.isSome ∧ db'.bytes c k = some ((o.map valueToMsgpack).getD bytes))
      (fun err db' => db'.failedWrites = db.failedWrites →
        ∃ t, lookUp (db.accepts c) bytes updates t = .error err ∧ db'.bytes c k = some bytes)
      db := by
  simp only [update, wp_bind, wp_get]
  refine wp_newUuid fun id n => ?_
  refine wp_writeNew (fun t n => ?_) fun err n hf => absurd hf (Nat.succ_ne_self _)
  -- the database after `TX_BEGIN`
  generalize hd : Db.mk _ _ _ _ _ _ _ _ _ _ _ _ _ = d
  have hd' : d.bytes c k = some bytes ∧ d.accepts c = db.accepts c ∧
      d.failedWrites = db.failedWrites := by
    subst hd
    exact ⟨hbytes, rfl, rfl⟩
  obtain ⟨hbytes, haccepts, hfailed⟩ := hd'
  rw [hbytes, Option.bind_some, ← haccepts, ← hfailed]
  cases hread : msgpackToValue bytes with
  | none =>
    rw [wp_bind]
    refine wp_writeNew (fun t n => ?_) fun err n hf => absurd hf (Nat.succ_ne_self _)
    exact ⟨t, none, by simp [lookUp, hread], rfl, hbytes⟩
  | some doc =>
    simp only [wp_bind]
    refine wp_mergeAt (fun hholds t n => ?_) fun hholds _ => ⟨0, by simp [lookUp, hread, hholds],
      hbytes⟩
    refine wp_mono (wp_storeUpdate_accepts _ c k id _) (fun _ db' h => ?_) fun err db' h hf => ?_
    · have hvalid : d.accepts c (mergeAt doc updates t) = true := h.1
      exact ⟨t, some _, by simp [lookUp, hread, hholds, hvalid], rfl, h.2⟩
    · obtain ⟨hvalid, rfl, hsame⟩ := h hf
      have hvalid : d.accepts c (mergeAt doc updates t) = false := hvalid
      exact ⟨t, by simp [lookUp, hread, hholds, hvalid], hsame.trans hbytes⟩

/-- The steps of `n` updates: the first of each is taken at some time. -/
inductive UpdateStep (n : ℕ)
  | lookup (i : Fin n) (t : UInt64)
  | store (i : Fin n)
  deriving DecidableEq

/-- The document in the map, the documents that updates are about to store, and their results. -/
structure Updating (n : ℕ) where
  bytes : Bytes
  pending : Fin n → Option Json
  result : Fin n → Option (Except DbError Bool)

namespace Updating

variable {n : ℕ}

def start (bytes : Bytes) : Updating n := ⟨bytes, fun _ => none, fun _ => none⟩

def answer (s : Updating n) (i : Fin n) (r : Except DbError Bool) : Updating n :=
  { s with pending := Function.update s.pending i none,
           result := Function.update s.result i (some r) }

/-- The update returned `Ok(true)`. -/
def won (s : Updating n) (i : Fin n) : Bool :=
  match s.result i with
  | some (.ok true) => true
  | _ => false

variable (valid : Json → Bool) (updates : Fin n → Json)

/-- One step; an update looks the document up once, and stores only what it merged. -/
def step (s : Updating n) : UpdateStep n → Option (Updating n)
  | .lookup i t =>
    if (s.pending i).isSome || (s.result i).isSome then none
    else
      match lookUp valid s.bytes (updates i) t with
      | .error err => some (s.answer i (.error err))
      | .ok none => some (s.answer i (.ok false))
      | .ok (some v) => some { s with pending := Function.update s.pending i (some v) }
  | .store i => (s.pending i).map fun v => { s.answer i (.ok true) with bytes := valueToMsgpack v }

/-- The updates took the steps `T`, in this order. -/
inductive Runs (bytes : Bytes) : List (UpdateStep n) → Updating n → Prop
  | start : Runs bytes [] (start bytes)
  | step {T : List (UpdateStep n)} {s s' : Updating n} {e : UpdateStep n} (h : Runs bytes T s)
    (hs : s.step valid updates e = some s') : Runs bytes (T ++ [e]) s'

/-- At most one update returned `Ok(true)`, and the version has grown by their number. -/
structure OneWinner (bytes : Bytes) (s : Updating n) : Prop where
  unique : ∀ i j, s.won i → s.won j → i = j
  version : version s.bytes = version bytes +
    UInt64.ofNat (Finset.univ.filter fun i => s.won i = true).card

/-- After the steps `T` of updates with the guard `g`, on the object `docObj` stored as `bytes`:
    only updates that looked it up before anything was stored can store. -/
structure Guarded (updateObjs : Fin n → List (String × Json)) (g : UInt64) (bytes : Bytes)
    (docObj : List (String × Json)) (T : List (UpdateStep n)) (s : Updating n) : Prop where
  idle : (∀ i, .store i ∉ T) → s.bytes = bytes
  stored : ∀ i, .store i ∈ T → MoltenDB.version s.bytes = MoltenDB.version bytes + 1 ∧
    g = MoltenDB.version bytes
  pending : ∀ i v, s.pending i = some v → g = MoltenDB.version bytes ∧
    ∃ t, v = merged docObj (updateObjs i) t
  won : ∀ i, s.won i = true ↔ .store i ∈ T
  first : ∀ i, (s.pending i).isSome ∨ .store i ∈ T →
    ∃ t A B, T = A ++ .lookup i t :: B ∧ ∀ j, .store j ∉ A

section

variable {updateObjs : Fin n → List (String × Json)} {g : UInt64} {bytes : Bytes}
  {docObj : List (String × Json)} {T : List (UpdateStep n)} {s s' : Updating n}

theorem guarded_start : Guarded updateObjs g bytes docObj [] (start bytes) := by
  refine ⟨fun _ => rfl, fun i h => ?_, fun i v h => ?_, fun i => ?_, fun i h => ?_⟩
  · cases h
  · cases h
  · simp [start, Updating.won]
  · rcases h with h | h <;> cases h

/-- A lookup whose guard holds finds the document of the start. -/
theorem Guarded.lookUp_some (h : Guarded updateObjs g bytes docObj T s)
    (hdoc : msgpackToValue bytes = some (.obj docObj)) {i : Fin n} {t : UInt64} {v : Json}
    (hguard : fieldU64 (.obj (updateObjs i)) VERSION = some g)
    (hv : lookUp valid s.bytes (.obj (updateObjs i)) t = .ok (some v)) :
    (∀ j, .store j ∉ T) ∧ g = MoltenDB.version bytes ∧ v = merged docObj (updateObjs i) t := by
  unfold lookUp at hv
  cases hread : msgpackToValue s.bytes with
  | none => simp [hread] at hv
  | some doc =>
    simp only [hread] at hv
    split_ifs at hv with hholds
    have hg : g = MoltenDB.version s.bytes := by
      simpa [guardHolds, hguard, MoltenDB.version, hread] using hholds
    have hidle : ∀ j, .store j ∉ T := by
      intro j hj
      obtain ⟨h1, h2⟩ := h.stored j hj
      rw [h1, h2] at hg
      simp at hg
    have hbytes := h.idle hidle
    rw [hbytes, hdoc] at hread
    obtain rfl := Option.some.inj hread
    refine ⟨hidle, by rw [hg, hbytes], ?_⟩
    simpa [mergeAt] using hv.symm

theorem pending_answer (s : Updating n) (i : Fin n) (r : Except DbError Bool) (j : Fin n) :
    (s.answer i r).pending j = if j = i then none else s.pending j := Function.update_apply ..

theorem won_answer_of_ne (s : Updating n) {i j : Fin n} (h : j ≠ i) (r : Except DbError Bool) :
    (s.answer i r).won j = s.won j := by
  simp [Updating.won, answer, h]

/-- A step more at the end. -/
theorem Guarded.first_append (h : Guarded updateObjs g bytes docObj T s) {i : Fin n}
    (hi : (s.pending i).isSome ∨ .store i ∈ T) (e : UpdateStep n) :
    ∃ t A B, T ++ [e] = A ++ .lookup i t :: B ∧ ∀ j, .store j ∉ A := by
  obtain ⟨t, A, B, rfl, hA⟩ := h.first i hi
  exact ⟨t, A, B ++ [e], by simp, hA⟩

theorem mem_append_lookup {i j : Fin n} {t : UInt64} :
    UpdateStep.store j ∈ T ++ [.lookup i t] ↔ .store j ∈ T := by simp

/-- An answer other than `Ok(true)` wins nothing. -/
theorem Guarded.answered (h : Guarded updateObjs g bytes docObj T s) {i : Fin n} {t : UInt64}
    (hout : .store i ∉ T) {r : Except DbError Bool} (hr : r ≠ .ok true) :
    Guarded updateObjs g bytes docObj (T ++ [.lookup i t]) (s.answer i r) := by
  have hpending := pending_answer s i r
  refine ⟨fun hT => h.idle fun j hj => hT j (mem_append_lookup.2 hj), fun j hj =>
    h.stored j (mem_append_lookup.1 hj), fun j v hv => ?_, fun j => ?_, fun j hj => ?_⟩
  · rw [hpending] at hv
    split_ifs at hv
    exact h.pending j v hv
  · rw [mem_append_lookup]
    by_cases hj : j = i
    · subst hj
      have hlost : (s.answer j r).won j = false := by
        rcases r with err | b
        · simp [Updating.won, answer]
        · cases b
          · simp [Updating.won, answer]
          · exact absurd rfl hr
      simp [hlost, hout]
    · rw [won_answer_of_ne s hj, h.won]
  · rw [hpending, mem_append_lookup] at hj
    refine h.first_append ?_ _
    split_ifs at hj with hji
    · exact Or.inr (hj.resolve_left (by simp))
    · exact hj

/-- The document is found, and is merged with the update when it is stored. -/
theorem Guarded.found (h : Guarded updateObjs g bytes docObj T s) {i : Fin n} {t : UInt64}
    (hidle : ∀ j, .store j ∉ T) (hg : g = MoltenDB.version bytes)
    (hbytes : s'.bytes = s.bytes) (hwon : ∀ j, s'.won j = s.won j)
    (hpending : ∀ j, s'.pending j =
      if j = i then some (merged docObj (updateObjs i) t) else s.pending j) :
    Guarded updateObjs g bytes docObj (T ++ [.lookup i t]) s' := by
  refine ⟨fun _ => hbytes.trans (h.idle hidle),
    fun j hj => absurd (mem_append_lookup.1 hj) (hidle j), fun j v hv => ?_, fun j => ?_,
    fun j hj => ?_⟩
  · rw [hpending] at hv
    split_ifs at hv with hji
    · subst hji
      exact ⟨hg, t, (Option.some.inj hv).symm⟩
    · exact h.pending j v hv
  · rw [mem_append_lookup, hwon, ← h.won]
  · rw [hpending, mem_append_lookup] at hj
    by_cases hji : j = i
    · subst hji
      exact ⟨t, T, [], rfl, hidle⟩
    · rw [if_neg hji] at hj
      exact h.first_append hj _

theorem Guarded.lookup (h : Guarded updateObjs g bytes docObj T s)
    (hdoc : msgpackToValue bytes = some (.obj docObj)) {i : Fin n} {t : UInt64}
    (hguard : fieldU64 (.obj (updateObjs i)) VERSION = some g)
    (hs : s.step valid (fun i => .obj (updateObjs i)) (.lookup i t) = some s') :
    Guarded updateObjs g bytes docObj (T ++ [.lookup i t]) s' := by
  rw [Updating.step] at hs
  split_ifs at hs with hnew
  rw [Bool.or_eq_true, not_or, Option.not_isSome_iff_eq_none, Option.not_isSome_iff_eq_none] at hnew
  have hout : .store i ∉ T := by
    rw [← h.won, Updating.won, hnew.2]
    simp
  cases hv : lookUp valid s.bytes (.obj (updateObjs i)) t with
  | error err =>
    simp only [hv, Option.some.injEq] at hs
    exact hs ▸ h.answered hout (by simp)
  | ok o =>
    cases o with
    | none =>
      simp only [hv, Option.some.injEq] at hs
      exact hs ▸ h.answered hout (by simp)
    | some v =>
      simp only [hv, Option.some.injEq] at hs
      obtain ⟨hidle, hg, rfl⟩ := h.lookUp_some valid hdoc hguard hv
      subst hs
      exact h.found hidle hg rfl (fun _ => rfl) fun _ => Function.update_apply ..

theorem Guarded.store (h : Guarded updateObjs g bytes docObj T s)
    (hdoc : msgpackToValue bytes = some (.obj docObj)) {i : Fin n}
    (hfits : ∀ t, (merged docObj (updateObjs i) t).Fits)
    (hs : s.step valid (fun i => .obj (updateObjs i)) (.store i) = some s') :
    Guarded updateObjs g bytes docObj (T ++ [.store i]) s' := by
  obtain ⟨v, hv, rfl⟩ := Option.map_eq_some_iff.1 hs
  obtain ⟨hg, t, rfl⟩ := h.pending i v hv
  have hversion : MoltenDB.version (valueToMsgpack (merged docObj (updateObjs i) t)) =
      MoltenDB.version bytes + 1 := by
    rw [version_merged (sorted_of_msgpackToValue hdoc) (hfits t), MoltenDB.version, hdoc]
    rfl
  have hpending := pending_answer s i (.ok true)
  refine ⟨fun hT => absurd (List.mem_append_right _ (List.mem_singleton_self _)) (hT i),
    fun _ _ => ⟨hversion, hg⟩, fun j v hv => ?_, fun j => ?_, fun j hj => ?_⟩
  · replace hv := (hpending j).symm.trans hv
    split_ifs at hv
    exact h.pending j v hv
  · by_cases hji : j = i
    · subst hji
      simp [Updating.won, answer]
    · have hmem : UpdateStep.store j ∈ T ++ [.store i] ↔ .store j ∈ T := by simp [hji]
      rw [hmem, ← h.won, ← won_answer_of_ne s hji (.ok true)]
      rfl
  · by_cases hji : j = i
    · subst hji
      exact h.first_append (Or.inl (by rw [hv]; rfl)) _
    · refine h.first_append (hj.imp (fun hj => ?_) fun hj => ?_) _
      · rwa [← (hpending j).trans (if_neg hji)]
      · simpa [hji] using hj

/-- **Every run is guarded.** -/
theorem Runs.guarded (hrun : Runs valid (fun i => .obj (updateObjs i)) bytes T s)
    (hdoc : msgpackToValue bytes = some (.obj docObj))
    (hguard : ∀ i, fieldU64 (.obj (updateObjs i)) VERSION = some g)
    (hfits : ∀ i t, (merged docObj (updateObjs i) t).Fits) :
    Guarded updateObjs g bytes docObj T s := by
  induction hrun with
  | start => exact guarded_start
  | @step T s s' e _ hs ih =>
    cases e with
    | lookup i t => exact ih.lookup valid hdoc (hguard i) hs
    | store i => exact ih.store valid hdoc (hfits i) hs

/-- Of two updates that store, `j` looks the document up between the two steps of `i`. -/
def Overlap (T : List (UpdateStep n)) (i j : Fin n) : Prop :=
  .store j ∈ T ∧ ∃ t t', [.lookup i t, .lookup j t', .store i].Sublist T

/-- If no two updates overlap, only one stores. -/
theorem Guarded.eq_of_store (h : Guarded updateObjs g bytes docObj T s)
    (hno : ∀ i j, i ≠ j → ¬ Overlap T i j) {i j : Fin n} (hi : .store i ∈ T) (hj : .store j ∈ T) :
    i = j := by
  by_contra hne
  -- the one that looked the document up first stored after the other one had looked it up
  have hoverlap : ∀ {i j : Fin n} {t t' : UInt64} {A B C : List (UpdateStep n)}, .store i ∈ T →
      .store j ∈ T → T = (A ++ .lookup i t :: C) ++ .lookup j t' :: B →
      (∀ k, .store k ∉ A ++ .lookup i t :: C) → Overlap T i j := by
    intro i j t t' A B C hi hj hT hA
    refine ⟨hj, t, t', ?_⟩
    have hB : .store i ∈ B := by
      rw [hT] at hi
      rcases List.mem_append.1 hi with hi | hi
      · exact absurd hi (hA i)
      · simpa using hi
    rw [hT]
    exact (List.singleton_sublist.2 (by simp)).append ((List.singleton_sublist.2 hB).cons_cons _)
  obtain ⟨t, A, B, hT, hA⟩ := h.first i (Or.inr hi)
  obtain ⟨t', A', B', hT', hA'⟩ := h.first j (Or.inr hj)
  have hlookup : UpdateStep.lookup i t ≠ .lookup j t' := by
    intro heq
    exact hne (UpdateStep.lookup.inj heq).1
  rcases split_cases (hT.symm.trans hT') hlookup with ⟨C, rfl⟩ | ⟨C, rfl⟩
  · exact hno i j hne (hoverlap hi hj hT' hA')
  · exact hno j i (Ne.symm hne) (hoverlap hj hi hT hA)

/-- **Optimistic locking admits one winner** exactly in the runs in which no two updates that
    store overlap. -/
theorem one_winner_iff (hdoc : msgpackToValue bytes = some (.obj docObj))
    (hguard : ∀ i, fieldU64 (.obj (updateObjs i)) VERSION = some g)
    (hfits : ∀ i t, (merged docObj (updateObjs i) t).Fits)
    (hrun : Runs valid (fun i => .obj (updateObjs i)) bytes T s) :
    OneWinner bytes s ↔ ∀ i j, i ≠ j → ¬ Overlap T i j := by
  have h := hrun.guarded valid hdoc hguard hfits
  constructor
  · rintro hone i j hne ⟨hj, t, t', hsub⟩
    have hi : .store i ∈ T := hsub.subset (by simp)
    exact hne (hone.unique i j ((h.won i).2 hi) ((h.won j).2 hj))
  · intro hno
    refine ⟨fun i j hi hj => h.eq_of_store hno ((h.won i).1 hi) ((h.won j).1 hj), ?_⟩
    by_cases hany : ∃ i, UpdateStep.store i ∈ T
    · obtain ⟨i, hi⟩ := hany
      have hset : (Finset.univ.filter fun j => s.won j = true) = {i} := by
        ext j
        rw [Finset.mem_filter, Finset.mem_singleton, h.won]
        constructor
        · rintro ⟨-, hj⟩
          exact h.eq_of_store hno hj hi
        · rintro rfl
          exact ⟨Finset.mem_univ _, hi⟩
      rw [hset, (h.stored i hi).1]
      rfl
    · have hset : (Finset.univ.filter fun j => s.won j = true) = ∅ := by
        rw [Finset.filter_eq_empty_iff]
        intro j _ hj
        exact hany ⟨j, (h.won j).1 hj⟩
      rw [hset, h.idle fun i hi => hany ⟨i, hi⟩]
      simp

end

/-! ### Two updates -/

/-- The steps of a list, taken one after another. -/
theorem Runs.steps {valid : Json → Bool} {updates : Fin n → Json} {bytes : Bytes}
    {T T' : List (UpdateStep n)} {s s' : Updating n} (h : Runs valid updates bytes T s)
    (hs : T'.foldlM (Updating.step valid updates) s = some s') :
    Runs valid updates bytes (T ++ T') s' := by
  induction T' generalizing T s with
  | nil =>
    obtain rfl := Option.some.inj hs
    rwa [List.append_nil]
  | cons e T' ih =>
    rw [List.foldlM_cons] at hs
    obtain ⟨s₁, h₁, hs⟩ := Option.bind_eq_some_iff.1 hs
    have hcons := ih (h.step h₁) hs
    rwa [List.append_assoc] at hcons

/-- A document of version 1. -/
def firstVersion : Bytes := valueToMsgpack (.obj [("-1", .ofU64 1)])

/-- An update with the guard 1. -/
def guardedUpdate : List (String × Json) := [("_v", .ofU64 1), ("x", .str "y")]

/-- Two such updates of the document of version 1. -/
def twoUpdates (T : List (UpdateStep 2)) : Option (Updating 2) :=
  T.foldlM (Updating.step (fun _ => true) fun _ => .obj guardedUpdate) (start firstVersion)

/-- The second update looks the document up after the first one stored. -/
def inTurn : List (UpdateStep 2) := [.lookup 0 7, .store 0, .lookup 1 8]

theorem one_winner_iff_inTurn :
    OneWinner firstVersion ((twoUpdates inTurn).get (by decide +kernel)) ↔
      ∀ i j, i ≠ j → ¬ Overlap inTurn i j :=
  @one_winner_iff 2 (fun _ => true) (fun _ => guardedUpdate) 1 firstVersion [("-1", .ofU64 1)]
    inTurn _ (by decide +kernel) (fun _ => rfl) (fun _ _ => rfl)
    (Runs.start.steps (Option.some_get _).symm)

/-- **Two updates with the same guard can both win**, and the version grows by one only. -/
theorem two_winners :
    ∃ (T : List (UpdateStep 2)) (s : Updating 2),
      Runs (fun _ => true) (fun _ => .obj guardedUpdate) firstVersion T s ∧
      s.won 0 = true ∧ s.won 1 = true ∧ version s.bytes = 2 :=
  ⟨[.lookup 0 7, .lookup 1 8, .store 0, .store 1],
    (twoUpdates [.lookup 0 7, .lookup 1 8, .store 0, .store 1]).get (by decide +kernel),
    Runs.start.steps (Option.some_get _).symm, by decide +kernel, by decide +kernel,
    by decide +kernel⟩

end Updating

end MoltenDB
