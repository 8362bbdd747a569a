/-
  An update and a delete of one document at the same time: their steps, and what they
  leave in the map and the index.
-/
import MoltenDB.Proof.Locking
import MoltenDB.Proof.Concurrency

namespace MoltenDB

open Wire Prog Prog.Eff Operations LogCommand Journal Schedule

namespace UpdateDelete

/-! ## The steps of the two calls -/

inductive Step
  | beginUpdate | lookup | store | logInsert | commitUpdate
  | beginDelete | unindex | remove | logDelete | commitDelete
  deriving DecidableEq

open Step

/-- The steps of `operations::update`; a document that it did not find is not stored. -/
def updateSteps (found : Bool) : List Step :=
  if found then [beginUpdate, lookup, store, logInsert, commitUpdate]
  else [beginUpdate, lookup, commitUpdate]

/-- The steps of `operations::delete` with one key. -/
def deleteSteps : List Step := [beginDelete, unindex, remove, logDelete, commitDelete]

def Step.ofUpdate (a : Step) : Bool := a ∈ updateSteps true

/-- The arguments of the two calls, their transactions, the schema of the collection, and what
    the clock shows at each step. -/
structure Calls where
  collection : String
  key : String
  updates : Json
  updateId : String
  deleteId : String
  valid : Json → Bool
  clock : Step → UInt64

/-- The document, the index of its collection and the log, and what the update looked up. -/
structure Shared where
  doc : Option Bytes
  index : Map UInt64 String
  log : List LogEntry
  looked : Option (Except DbError (Option Json))

/-- The document that the update stores. -/
def Shared.found (s : Shared) : Option Json :=
  match s.looked with
  | some (.ok o) => o
  | _ => none

variable [Crates] (x : Calls)

/-- The entry that a step writes to the log, if the update is to store `found`. -/
def entry (found : Option Json) (a : Step) : Option LogEntry :=
  match a with
  | beginUpdate => some ⟨IKEY_TX_BEGIN, x.collection, x.updateId, .null, x.clock a⟩
  | logInsert => found.map fun v => ⟨IKEY_INSERT, x.collection, x.key, v, x.clock a⟩
  | commitUpdate => some ⟨IKEY_TX_COMMIT, x.collection, x.updateId, .null, x.clock a⟩
  | beginDelete => some ⟨IKEY_TX_BEGIN, x.collection, x.deleteId, .null, x.clock a⟩
  | logDelete => some ⟨IKEY_DELETE, x.collection, x.key, .null, x.clock a⟩
  | commitDelete => some ⟨IKEY_TX_COMMIT, x.collection, x.deleteId, .null, x.clock a⟩
  | _ => none

def step (s : Shared) (a : Step) : Shared :=
  match a with
  | lookup =>
    { s with looked := some (s.doc.elim (.ok none) fun bytes =>
        lookUp x.valid bytes x.updates (x.clock lookup)) }
  | store => { s with doc := (s.found.map valueToMsgpack).or s.doc }
  | unindex =>
    { s with index := s.doc.elim s.index fun bytes => s.index.erase (readMsgpackSeqToken bytes) }
  | remove => { s with doc := none }
  | a => { s with log := s.log ++ (entry x s.found a).toList }

def run (s : Shared) (T : List Step) : Shared := T.foldl (step x) s

/-- The calls took the steps `T`, and both returned `Ok`. -/
structure Returned (s : Shared) (T : List Step) : Prop where
  update : ∃ o, (run x s T).looked = some (.ok o) ∧ T.filter Step.ofUpdate = updateSteps o.isSome
  delete : T.filter (fun a => !a.ofUpdate) = deleteSteps

/-! ### The calls by themselves -/

/-- What the calls share of a database. -/
def shared (db : Db) (c k : String) : Shared :=
  ⟨db.bytes c k, db.seqIndex[c]?.getD ∅, db.log, none⟩

omit [Crates] in
/-- A document is put into the map and the log, and the transaction ends. -/
theorem wp_storeUpdate_shared (db : Db) (c k id : String) (v : Json) :
    wp (storeUpdate c k id v)
      (fun _ db' => db.accepts c v = true ∧ ∃ t t', shared db' c k =
        ⟨some (valueToMsgpack v), db.seqIndex[c]?.getD ∅,
          db.log ++ [⟨IKEY_INSERT, c, k, v, t⟩, ⟨IKEY_TX_COMMIT, c, id, .null, t'⟩], none⟩)
      (fun _ _ => True) db := by
  simp only [storeUpdate, wp_bind, storeDoc, wp_modify, wp_send]
  have hput : State.bytes (db.state.alter c fun col =>
      some ((col.getD ∅).insert k (valueToMsgpack v))) c k = some (valueToMsgpack v) := by
    rw [bytes_put, if_pos ⟨rfl, rfl⟩]
  refine wp_validateDocument_accepts (fun hvalid => ?_) fun _ => trivial
  refine wp_writeNew (fun t n => ?_) fun _ _ => trivial
  refine wp_writeNew (fun t' n => ⟨hvalid, t, t', ?_⟩) fun _ _ => trivial
  show Shared.mk (State.bytes _ c k) (db.seqIndex[c]?.getD ∅) _ none = _
  rw [hput, List.append_assoc]
  rfl

/-- **An update takes its steps**, if it returns `Ok`. -/
theorem wp_update (db : Db) (c k : String) (updates : Json) :
    wp (update c k updates)
      (fun found db' => ∃ x : Calls, x.collection = c ∧ x.key = k ∧ x.updates = updates ∧
        x.valid = db.accepts c ∧
        (∃ o, (run x (shared db c k) (updateSteps found)).looked = some (.ok o) ∧
          found = o.isSome) ∧
        shared db' c k = { run x (shared db c k) (updateSteps found) with looked := none })
      (fun _ _ => True) db := by
  simp only [update, wp_bind, wp_get]
  refine wp_newUuid fun id n => ?_
  refine wp_writeNew (fun t₁ n => ?_) fun _ _ => trivial
  generalize hd : Db.mk _ _ _ _ _ _ _ _ _ _ _ _ _ = d
  have hd' : d.bytes c k = db.bytes c k ∧ d.seqIndex = db.seqIndex ∧ d.accepts c = db.accepts c ∧
      d.log = db.log ++ [⟨IKEY_TX_BEGIN, c, id, .null, t₁⟩] := by
    subst hd
    exact ⟨rfl, rfl, rfl, rfl⟩
  obtain ⟨hbytes, hindex, haccepts, hlog⟩ := hd'
  rw [hbytes]
  cases hread : (db.bytes c k).bind msgpackToValue with
  | none =>
    rw [wp_bind]
    refine wp_writeNew (fun t₂ n => ?_) fun _ _ => trivial
    refine ⟨⟨c, k, updates, id, id, db.accepts c, fun a => if a = beginUpdate then t₁ else t₂⟩, rfl,
      rfl, rfl, rfl, ⟨none, ?_, rfl⟩, ?_⟩
    · cases hb : db.bytes c k with
      | none => simp [run, updateSteps, step, shared, hb]
      | some b =>
        have hnone : msgpackToValue b = none := by simpa [hb] using hread
        simp [run, updateSteps, step, shared, hb, lookUp, hnone]
    · show Shared.mk (d.bytes c k) (d.seqIndex[c]?.getD ∅)
        (d.log ++ [⟨IKEY_TX_COMMIT, c, id, .null, t₂⟩]) none = _
      simp [run, updateSteps, step, entry, shared, hlog, hindex, hbytes]
  | some doc =>
    obtain ⟨b, hb, hdoc⟩ := Option.bind_eq_some_iff.1 hread
    simp only [wp_bind]
    refine wp_mergeAt (fun hholds t₂ n => ?_) fun _ => trivial
    refine wp_mono (wp_storeUpdate_shared _ c k id _) (fun _ db' h => ?_) fun _ _ _ => trivial
    obtain ⟨hvalid, t₃, t₄, hshared⟩ := h
    have hvalid : db.accepts c (mergeAt doc updates t₂) = true := by
      rw [← haccepts]
      exact hvalid
    refine ⟨⟨c, k, updates, id, id, db.accepts c, fun a => if a = beginUpdate then t₁
      else if a = lookup then t₂ else if a = logInsert then t₃ else t₄⟩, rfl, rfl, rfl, rfl,
      ⟨some (mergeAt doc updates t₂), ?_, rfl⟩, ?_⟩
    · simp [run, updateSteps, step, shared, hb, lookUp, hdoc, hholds, hvalid]
    · rw [hshared]
      simp [run, updateSteps, step, entry, shared, hb, lookUp, hdoc, hholds, hvalid, hlog, hindex,
        Shared.found]

/-- A document is removed from the index and the map, and its removal is logged. -/
theorem wp_deleteItem_shared (db : Db) (c k : String) :
    wp (deleteItem c k)
      (fun _ db' => ∃ t, shared db' c k =
        ⟨none, (db.bytes c k).elim (db.seqIndex[c]?.getD ∅) fun bytes =>
          (db.seqIndex[c]?.getD ∅).erase (readMsgpackSeqToken bytes),
          db.log ++ [⟨IKEY_DELETE, c, k, .null, t⟩], none⟩)
      (fun _ _ => True) db := by
  have hremove : State.bytes (db.state.alter c fun col => col.map fun col => col.erase k) c k =
      none := by
    rw [bytes_remove, if_pos ⟨rfl, rfl⟩]
  have hindex : ∀ seq, (db.seqIndex.alter c fun idx => idx.map fun idx => idx.erase seq)[c]?.getD ∅ =
      (db.seqIndex[c]?.getD ∅).erase seq := by
    intro seq
    rw [Map.get?_alter, if_pos rfl]
    cases db.seqIndex[c]? with
    | none => exact Map.ext_get? fun q => by simp
    | some idx => rfl
  unfold deleteItem
  cases hb : db.bytes c k with
  | none =>
    simp only [wp_bind, wp_get, hb, removeDoc, wp_modify, wp_send]
    refine wp_writeNew (fun t n => ⟨t, ?_⟩) fun _ _ => trivial
    show Shared.mk (State.bytes _ c k) _ _ none = _
    rw [hremove]
    rfl
  | some b =>
    simp only [wp_bind, wp_get, hb, indexRemove, removeDoc, wp_modify, wp_send]
    refine wp_writeNew (fun t n => ⟨t, ?_⟩) fun _ _ => trivial
    show Shared.mk (State.bytes _ c k) (Option.getD _ _) _ none = _
    rw [hremove, hindex]
    rfl

/-- **A delete takes its steps**, if the collection exists and it returns `Ok`. -/
theorem wp_delete {db : Db} {c : String} (k : String) (hcol : (db.col c).isSome) :
    wp (Operations.delete c [k])
      (fun _ db' => ∃ x : Calls, x.collection = c ∧ x.key = k ∧
        shared db' c k = run x (shared db c k) deleteSteps)
      (fun _ _ => True) db := by
  simp only [Operations.delete, forEach, wp_bind, wp_get]
  refine wp_newUuid fun id n => ?_
  refine wp_writeNew (fun t₁ n => ?_) fun _ _ => trivial
  generalize hd : Db.mk _ _ _ _ _ _ _ _ _ _ _ _ _ = d
  have hd' : (d.col c).isSome ∧ d.bytes c k = db.bytes c k ∧ d.seqIndex = db.seqIndex ∧
      d.log = db.log ++ [⟨IKEY_TX_BEGIN, c, id, .null, t₁⟩] := by
    subst hd
    exact ⟨hcol, rfl, rfl, rfl⟩
  obtain ⟨hcol, hbytes, hindex, hlog⟩ := hd'
  rw [if_pos hcol]
  simp only [wp_bind, wp_pure]
  refine wp_mono (wp_deleteItem_shared d c k) (fun _ d₂ h₂ => ?_) fun _ _ _ => trivial
  obtain ⟨t₂, hshared⟩ := h₂
  refine wp_writeNew (fun t₃ n => ?_) fun _ _ => trivial
  refine ⟨⟨c, k, .null, id, id, fun _ => true, fun a => if a = beginDelete then t₁
    else if a = logDelete then t₂ else t₃⟩, rfl, rfl, ?_⟩
  obtain ⟨hdoc, hidx, hlog₂, -⟩ := Shared.mk.inj hshared
  show Shared.mk (d₂.bytes c k) (d₂.seqIndex[c]?.getD ∅) (d₂.log ++ _) none = _
  rw [hdoc, hidx, hlog₂, hlog, hbytes, hindex]
  simp [run, deleteSteps, step, entry, shared]

variable (now : UInt64)

/-- The document is in the log: a restart at `now` rebuilds it. -/
def Shared.Rebuilt (s : Shared) : Prop :=
  ((rebuild now s.log).state.bytes x.collection x.key).isSome

/-- The document is in the map, in the index under its number only, and in the log. -/
structure InSync (s : Shared) (bytes : Bytes) (doc : Json) : Prop where
  stored : s.doc = some bytes
  decoded : msgpackToValue bytes = some doc
  index : ∀ seq : UInt64, s.index[seq]? = some x.key ↔ seq = readMsgpackSeqToken bytes
  log : s.Rebuilt x now

/-- The document is in the map if and only if it is in the index, and if and only if it is in
    the log. -/
def Consistent (s : Shared) : Prop :=
  (s.doc.isSome ↔ ∃ seq : UInt64, s.index[seq]? = some x.key) ∧ (s.doc.isSome ↔ s.Rebuilt x now)

/-- The update leaves the number of the document as it is. -/
def KeepsSeq (bytes : Bytes) (doc : Json) : Prop :=
  readMsgpackSeqToken (valueToMsgpack (mergeAt doc x.updates (x.clock lookup))) =
    readMsgpackSeqToken bytes

/-- The update stores and logs before the delete removes and logs, and keeps the number that is
    removed from the index; or it looks for a document that was removed, and does not begin its
    transaction between the entry and the end of that of the delete. -/
def InOrder (bytes : Bytes) (doc : Json) (T : List Step) : Prop :=
  (Before T store remove ∧ Before T logInsert logDelete ∧
    (Before T store unindex → KeepsSeq x bytes doc)) ∨
  (Before T remove lookup ∧ ¬ (Before T logDelete beginUpdate ∧ Before T beginUpdate commitDelete))

/-! ## What the steps leave alone -/

section

variable {x} {now} {s : Shared} {T A B : List Step}

theorem run_append : run x s (A ++ B) = run x (run x s A) B := List.foldl_append

theorem run_cons {a : Step} : run x s (a :: B) = run x (step x s a) B := rfl

/-- What none of the steps changes is the same after all of them. -/
theorem run_frame {β : Type} {f : Shared → β} (h : ∀ s, ∀ a ∈ B, f (step x s a) = f s) :
    f (run x s B) = f s := by
  induction B generalizing s with
  | nil => rfl
  | cons a B ih =>
    rw [run_cons, ih fun s b hb => h s b (List.mem_cons_of_mem _ hb), h s a List.mem_cons_self]

theorem doc_run (hs : store ∉ B) (hr : remove ∉ B) : (run x s B).doc = s.doc := by
  refine run_frame (f := Shared.doc) fun s a ha => ?_
  cases a with
  | store => exact absurd ha hs
  | remove => exact absurd ha hr
  | _ => rfl

theorem index_run (h : unindex ∉ B) : (run x s B).index = s.index := by
  refine run_frame (f := Shared.index) fun s a ha => ?_
  cases a with
  | unindex => exact absurd ha h
  | _ => rfl

theorem looked_run (h : lookup ∉ B) : (run x s B).looked = s.looked := by
  refine run_frame (f := Shared.looked) fun s a ha => ?_
  cases a with
  | lookup => exact absurd ha h
  | _ => rfl

/-! ## The order of the steps -/

theorem Returned.mem_update (h : Returned x s T) {o : Option Json}
    (ho : (run x s T).looked = some (.ok o)) {a : Step} (ha : a.ofUpdate = true) :
    a ∈ T ↔ a ∈ updateSteps o.isSome := by
  obtain ⟨o', ho', hT⟩ := h.update
  obtain rfl : o = o' := by simpa using ho.symm.trans ho'
  rw [← hT, List.mem_filter, ha]
  simp

theorem Returned.mem_delete (h : Returned x s T) {a : Step} (ha : a.ofUpdate = false) :
    a ∈ T ↔ a ∈ deleteSteps := by
  rw [← h.delete, List.mem_filter, ha]
  simp

theorem Returned.nodup (h : Returned x s T) : T.Nodup := by
  obtain ⟨o, -, hT⟩ := h.update
  refine nodup_of_parties Step.ofUpdate fun b => ?_
  cases b with
  | true =>
    have hfilter : T.filter (fun a => decide (a.ofUpdate = true)) = updateSteps o.isSome := by
      simpa using hT
    have hall : ∀ found, (updateSteps found).Nodup := by decide
    rw [hfilter]
    exact hall _
  | false =>
    have hfilter : T.filter (fun a => decide (a.ofUpdate = false)) = deleteSteps := by
      rw [← h.delete]
      exact List.filter_congr fun a _ => by cases a.ofUpdate <;> rfl
    rw [hfilter]
    decide

/-- The steps of the update are taken in their order. -/
theorem Returned.before_update (h : Returned x s T) {o : Option Json}
    (ho : (run x s T).looked = some (.ok o)) {a b : Step}
    (hab : [a, b].Sublist (updateSteps o.isSome)) : Before T a b := by
  obtain ⟨o', ho', hT⟩ := h.update
  obtain rfl : o = o' := by simpa using ho.symm.trans ho'
  exact (hT ▸ hab).trans List.filter_sublist

/-- The steps of the delete are taken in their order. -/
theorem Returned.before_delete (h : Returned x s T) {a b : Step}
    (hab : [a, b].Sublist deleteSteps) : Before T a b :=
  (h.delete ▸ hab).trans List.filter_sublist

/-! ## The map and the index -/

variable {bytes : Bytes} {doc : Json}

/-- The document of the start is in the map until one is stored or it is removed. -/
theorem doc_of_notMem (hsync : InSync x now s bytes doc) (hs : store ∉ A) (hr : remove ∉ A) :
    (run x s A).doc = some bytes := by
  rw [doc_run hs hr, hsync.stored]

/-- After the removal there is no document, unless the update stores one. -/
theorem doc_after_remove (hs : store ∉ B) (hr : remove ∉ B) :
    (run x s (A ++ remove :: B)).doc = none := by
  rw [run_append, run_cons, doc_run hs hr]
  rfl

/-- **What the update finds** is the document of the start, unless that was removed. -/
theorem Returned.looked_eq (h : Returned x s T) (hsync : InSync x now s bytes doc) {o : Option Json}
    (ho : (run x s T).looked = some (.ok o)) :
    (Before T remove lookup ∧ o = none) ∨
      (Before T lookup remove ∧ o = some (mergeAt doc x.updates (x.clock lookup))) := by
  have hall : ∀ found, lookup ∈ updateSteps found ∧
      (store ∈ updateSteps found → [lookup, store].Sublist (updateSteps found)) := by decide
  have hlookup : lookup ∈ T := (h.mem_update ho rfl).2 (hall _).1
  have hremove : remove ∈ T := (h.mem_delete rfl).2 (by decide)
  obtain ⟨A, B, rfl⟩ := List.append_of_mem hlookup
  have hnodup := h.nodup
  have hB : lookup ∉ B := notMem_right hnodup
  have hstore : store ∉ A := by
    intro hmem
    have hin := (h.mem_update ho (a := store) rfl).1 (List.mem_append_left _ hmem)
    exact (h.before_update ho ((hall _).2 hin)).asymm hnodup (before_of_left hmem)
  rw [run_append, run_cons, looked_run hB] at ho
  by_cases hr : remove ∈ A
  · refine Or.inl ⟨before_of_left hr, ?_⟩
    have hdoc : (run x s A).doc = none := by
      obtain ⟨A₁, A₂, rfl⟩ := List.append_of_mem hr
      have hA : (A₁ ++ remove :: A₂).Nodup := hnodup.sublist (List.sublist_append_left _ _)
      exact doc_after_remove (fun hmem => hstore (by simp [hmem])) (notMem_right hA)
    simpa [step, hdoc, eq_comm] using ho
  · refine Or.inr ⟨?_, ?_⟩
    · refine (before_or_before hlookup hremove (by decide)).resolve_right fun hb => hr ?_
      exact mem_left_of_before hnodup hb
    · have hfound : lookUp x.valid bytes x.updates (x.clock lookup) = .ok o := by
        simpa [step, doc_of_notMem hsync hstore hr] using ho
      unfold lookUp at hfound
      simp only [hsync.decoded] at hfound
      split_ifs at hfound
      simpa [eq_comm] using hfound

theorem Returned.mem_remove (h : Returned x s T) : remove ∈ T := (h.mem_delete rfl).2 (by decide)

/-- A document that the update found and stored before the removal is removed. -/
theorem Returned.doc_removed (h : Returned x s T) (hb : store ∉ T ∨ Before T store remove) :
    (run x s T).doc = none := by
  obtain ⟨A, B, rfl⟩ := List.append_of_mem h.mem_remove
  have hnodup := h.nodup
  refine doc_after_remove (fun hmem => ?_) (notMem_right hnodup)
  rcases hb with hb | hb
  · exact hb (by simp [hmem])
  · exact hb.asymm hnodup (before_of_right hmem)

/-- The document that the update stores is in the map until it is removed. -/
theorem Returned.doc_stored (h : Returned x s (A ++ B)) {v : Json}
    (ho : (run x s (A ++ B)).looked = some (.ok (some v))) (hs : store ∈ A)
    (hr : ∀ A₁ A₂, A = A₁ ++ store :: A₂ → remove ∉ A₂) :
    (run x s A).doc = some (valueToMsgpack v) := by
  have hnodup := h.nodup
  have hls : Before (A ++ B) lookup store :=
    h.before_update ho (show [lookup, store].Sublist (updateSteps true) by decide)
  obtain ⟨A₁, A₂, rfl⟩ := List.append_of_mem hs
  rw [List.append_assoc, List.cons_append] at hls ho hnodup
  have hl := mem_left_of_before hnodup hls
  have hlA : lookup ∉ store :: (A₂ ++ B) := List.disjoint_of_nodup_append hnodup hl
  have hsA : store ∉ A₂ := by
    intro hmem
    exact notMem_right hnodup (List.mem_append_left _ hmem)
  rw [run_append, looked_run hlA] at ho
  rw [run_append, run_cons, doc_run hsA (hr A₁ A₂ rfl)]
  simp [step, Shared.found, ho]

/-- **The index after the calls** still has the key only if another number was removed from it. -/
theorem Returned.index_iff (h : Returned x s T) (hsync : InSync x now s bytes doc)
    {o : Option Json} (ho : (run x s T).looked = some (.ok o)) :
    (∃ seq : UInt64, (run x s T).index[seq]? = some x.key) ↔
      Before T store unindex ∧ ¬ KeepsSeq x bytes doc := by
  have hnodup := h.nodup
  have hur : Before T unindex remove := h.before_delete (by decide)
  obtain ⟨A, B, rfl⟩ := List.append_of_mem ((h.mem_delete rfl).2 (by decide) : unindex ∈ T)
  have hrA : remove ∉ A := fun hmem => hur.asymm hnodup (before_of_left hmem)
  have huA : unindex ∉ A := notMem_left hnodup
  have huB : unindex ∉ B := notMem_right hnodup
  have hindex : ∀ b, (run x s A).doc = some b →
      ((∃ seq : UInt64, (run x s (A ++ unindex :: B)).index[seq]? = some x.key) ↔
        readMsgpackSeqToken b ≠ readMsgpackSeqToken bytes) := by
    intro b hb
    rw [run_append, run_cons, index_run huB]
    simp only [step, hb, Option.elim_some, index_run huA, Map.get?_erase]
    constructor
    · rintro ⟨seq, hseq⟩ heq
      split_ifs at hseq with hne
      exact hne (((hsync.index seq).1 hseq).trans heq.symm)
    · intro hne
      exact ⟨_, by rw [if_neg (Ne.symm hne)]; exact (hsync.index _).2 rfl⟩
  by_cases hs : store ∈ A
  · have hsome : o.isSome = true := by
      have hin := (h.mem_update ho (a := store) rfl).1 (List.mem_append_left _ hs)
      cases o with
      | none => exact absurd hin (by decide)
      | some v => rfl
    obtain ⟨v, rfl⟩ := Option.isSome_iff_exists.1 hsome
    have hlook := h.looked_eq hsync ho
    obtain ⟨-, hv⟩ := hlook.resolve_left fun hl => Option.some_ne_none _ hl.2
    have hdoc : (run x s A).doc = some (valueToMsgpack v) := by
      refine h.doc_stored ho hs fun A₁ A₂ heq hmem => hrA ?_
      rw [heq]
      simp [hmem]
    rw [hindex _ hdoc, KeepsSeq, ← Option.some.inj hv]
    exact ⟨fun hne => ⟨before_of_left hs, hne⟩, fun h => h.2⟩
  · rw [hindex bytes (doc_of_notMem hsync hs hrA)]
    refine ⟨fun hne => absurd rfl hne, fun hb => absurd (mem_left_of_before hnodup hb.1) hs⟩

end

end UpdateDelete

end MoltenDB
