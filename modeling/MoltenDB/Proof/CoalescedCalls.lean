/-
  Every coalesced call is answered once, with its own documents, whatever calls and writes come in
  between.

  A request is in one place: in the channel, with the coordinator, or answered (`Sys.Inv.places`).
  What a pass visits was stored at some moment of each of its calls, and what is stored all the
  time is visited (`Observed`); so where a collection is left alone during a call, the answer is the
  one that the request gets alone (`coalesced_calls`).  The coordinator can always go on and answer
  all calls (`coalesced_calls_answered`).
-/
import MoltenDB.Engine.Coalescer
import MoltenDB.Lib.Runs
import MoltenDB.Proof.Coalescing

namespace MoltenDB

open Wire Prog Prog.Eff SystemFields

namespace Coalescer

/-- The submissions whose answers the coordinator owes. -/
def Pc.owed : Pc → List Submission
  | .recv | .stopped => []
  | .collect batch => batch
  | .groups rest => rest.flatMap Prod.snd
  | .pass _ requests _ _ _ rest => requests ++ rest.flatMap Prod.snd
  | .order _ todo rest => todo.map Prod.fst ++ rest.flatMap Prod.snd
  | .decode _ req _ _ todo rest => req :: todo.map Prod.fst ++ rest.flatMap Prod.snd

/-- The databases since there were `i` writes. -/
def Sys.since (s : Sys) (i : ℕ) : List Db := (s.past ++ [s.db]).drop i

/-- The databases from the submission to the answer. -/
def Sys.during (s : Sys) (a : Answer) : List Db :=
  ((s.past ++ [s.db]).take (a.sentAt + 1)).drop a.req.submittedAt

section

variable [Crates]

/-- What the coordinator does. -/
inductive Sys.Move (s : Sys) : Sys → Prop
  | stop (hpc : s.pc = .recv) (hqueue : s.queue = []) (hhandles : s.handles = false) :
    Move s { s with pc := .stopped }
  | first {req : Submission} {queue : List Submission} (hpc : s.pc = .recv)
      (hqueue : s.queue = req :: queue) : Move s { s with queue, pc := .collect [req] }
  | take {batch : List Submission} {req : Submission} {queue : List Submission}
      (hpc : s.pc = .collect batch) (hroom : batch.length < MAX_BATCH)
      (hqueue : s.queue = req :: queue) : Move s { s with queue, pc := .collect (batch ++ [req]) }
  | close {batch : List Submission} {order : List String} (hpc : s.pc = .collect batch)
      (horder : order.Perm (Groups.grouped Submission.collection batch).keys) :
    Move s { s with pc := .groups ((Groups.grouped Submission.collection batch).inOrder order) }
  | finish (hpc : s.pc = .groups []) : Move s { s with pc := .recv }
  | refuse {c : String} {requests : List Submission} {rest : Batch}
      (hpc : s.pc = .groups ((c, requests) :: rest)) (hcol : s.db.col c = none) :
    Move s { s with
      answers := s.answers ++ requests.map fun req => ⟨req, [], s.past.length⟩
      pc := .groups rest }
  | start {c : String} {requests : List Submission} {rest : Batch} {col : DashMap Bytes}
      (hpc : s.pc = .groups ((c, requests) :: rest)) (hcol : s.db.col c = some col) :
    Move s { s with pc := .pass c requests s.past.length [] col.keys rest }
  | visit {c : String} {requests : List Submission} {since : ℕ} {visited : List (String × Bytes)}
      {left : List String} {rest : Batch} {k : String} {b : Bytes}
      (hpc : s.pc = .pass c requests since visited left rest) (hbytes : s.db.bytes c k = some b)
      (hnew : k ∉ visited.map Prod.fst) :
    Move s { s with pc := .pass c requests since (visited ++ [(k, b)]) (left.erase k) rest }
  | merge {c : String} {requests : List Submission} {since : ℕ}
      {visited entries : List (String × Bytes)} {rest : Batch}
      (hpc : s.pc = .pass c requests since visited [] rest) (hentries : entries.Perm visited) :
    Move s { s with
      pc := .order c (requests.map fun req => (req, req.request.task.result entries)) rest }
  | last {c : String} {rest : Batch} (hpc : s.pc = .order c [] rest) :
    Move s { s with pc := .groups rest }
  | next {c : String} {req : Submission} {acc : Accum} {todo : List (Submission × Accum)}
      {rest : Batch} (hpc : s.pc = .order c ((req, acc) :: todo) rest) :
    Move s { s with pc := .decode c req (req.request.winners acc) [] todo rest }
  | look {c : String} {req : Submission} {k : String} {keys : List String}
      {docs : List (String × Json)} {todo : List (Submission × Accum)} {rest : Batch}
      (hpc : s.pc = .decode c req (k :: keys) docs todo rest) :
    Move s { s with
      pc := .decode c req keys (docs ++ (decodeKey ((s.db.col c).getD ∅) k).toList) todo rest }
  | send {c : String} {req : Submission} {docs : List (String × Json)}
      {todo : List (Submission × Accum)} {rest : Batch} (hpc : s.pc = .decode c req [] docs todo rest) :
    Move s { s with
      answers := s.answers ++ [⟨req, docs, s.past.length⟩], pc := .order c todo rest }

variable {workers : ℕ → Workers} {s s' : Sys}

/-- **One step of the coordinator**, or a choice that it cannot make. -/
theorem Sys.advance_cases (s : Sys) (choice : Choice) :
    s.advance workers choice = s ∨ s.Move (s.advance workers choice) := by
  rw [Sys.advance]
  split
  · rename_i hpc
    split
    · rename_i hqueue
      split_ifs with hhandles
      · exact Or.inl rfl
      · exact Or.inr (.stop hpc hqueue (Bool.eq_false_iff.2 hhandles))
    · rename_i hqueue
      exact Or.inr (.first hpc hqueue)
  · rename_i hpc
    split
    · rename_i hqueue
      split_ifs with hroom
      · exact Or.inr (.take hpc hroom hqueue)
      · exact Or.inl rfl
    · dsimp only
      split_ifs with horder
      · exact Or.inr (.close hpc horder)
      · exact Or.inl rfl
    · exact Or.inl rfl
  · rename_i hpc
    exact Or.inr (.finish hpc)
  · rename_i hpc
    split
    · rename_i hcol
      exact Or.inr (.refuse hpc hcol)
    · rename_i hcol
      exact Or.inr (.start hpc hcol)
  · rename_i hpc
    split
    · split
      · rename_i hbytes
        split_ifs with hnew
        · exact Or.inl rfl
        · exact Or.inr (.visit hpc hbytes hnew)
      · exact Or.inl rfl
    · split_ifs with hmerge
      · obtain ⟨rfl, hentries⟩ := hmerge
        have htasks : ∀ (requests : List Submission) (entries : List (String × Bytes)),
            requests.zip ((requests.map fun req => req.request.task).map fun t => t.result entries) =
              requests.map fun req => (req, req.request.task.result entries) := by
          intro requests entries
          induction requests with
          | nil => rfl
          | cons req requests ih =>
            rw [List.map_cons, List.map_cons, List.zip_cons_cons, ih]
            rfl
        dsimp only
        rw [fold_tasks, htasks]
        exact Or.inr (.merge hpc hentries)
      · exact Or.inl rfl
    · exact Or.inl rfl
  · rename_i hpc
    exact Or.inr (.last hpc)
  · rename_i hpc
    exact Or.inr (.next hpc)
  · rename_i hpc
    exact Or.inr (.send hpc)
  · rename_i hpc
    exact Or.inr (.look hpc)
  · exact Or.inl rfl

/-! ## What a call sees -/

section

variable {L L' : List Db} {r : Submission} {es : List (String × Bytes)}

/-- What a pass visits for a request: each document was stored at some moment of `L`, and what was
    stored all the time is there. -/
structure Observed (L : List Db) (r : Submission) (es : List (String × Bytes)) : Prop where
  nodup : (es.map Prod.fst).Nodup
  stored : ∀ e ∈ es, ∃ db ∈ L, db.bytes r.collection e.1 = some e.2
  present : ∀ k, (∀ db ∈ L, (db.bytes r.collection k).isSome) → k ∈ es.map Prod.fst
  exists_col : ∃ db ∈ L, (db.col r.collection).isSome

omit [Crates] in
theorem Observed.mono (h : Observed L r es) (hsub : L ⊆ L') : Observed L' r es := by
  refine ⟨h.nodup, fun e he => ?_, fun k hk => h.present k fun db hdb => hk db (hsub hdb), ?_⟩
  · obtain ⟨db, hdb, hb⟩ := h.stored e he
    exact ⟨db, hsub hdb, hb⟩
  · obtain ⟨db, hdb, hcol⟩ := h.exists_col
    exact ⟨db, hsub hdb, hcol⟩

omit [Crates] in
/-- Where the collection is left alone, all its documents are visited. -/
theorem Observed.perm (h : Observed L r es) {col : DashMap Bytes}
    (hquiet : ∀ db ∈ L, db.col r.collection = some col) : es.Perm col.toList := by
  have hbytes : ∀ db ∈ L, ∀ k, db.bytes r.collection k = col[k]? := fun db hdb k => by
    rw [Db.bytes, show db.state[r.collection]? = some col from hquiet db hdb, Option.bind_some]
  have hmem : ∀ k b, (k, b) ∈ es → col[k]? = some b := by
    intro k b he
    obtain ⟨db, hdb, hb⟩ := h.stored _ he
    rw [← hbytes db hdb k]
    exact hb
  refine (List.perm_ext_iff_of_nodup (.of_map _ h.nodup) (.of_map Prod.fst ?_)).2 ?_
  · rw [Std.ExtTreeMap.map_fst_toList_eq_keys]
    exact Map.nodup_keys col
  · rintro ⟨k, b⟩
    rw [Map.mem_toList]
    refine ⟨hmem k b, fun hb => ?_⟩
    have hk := h.present k fun db hdb => by rw [hbytes db hdb, hb]; rfl
    obtain ⟨⟨k', b'⟩, he, hkk⟩ := List.mem_map.1 hk
    obtain rfl : k' = k := hkk
    rw [hmem k' b' he] at hb
    exact Option.some.inj hb ▸ he

omit [Crates] in
/-- The answer to a request consists of the documents with the keys that it finds. -/
theorem answer_eq (col : DashMap Bytes) (req : ScanRequest) (acc : Accum) :
    req.answer col acc = (req.winners acc).filterMap (decodeKey col) := by
  obtain ⟨predicate, kind⟩ := req
  cases kind with
  | filtered need asc =>
    cases acc with
    | filtered pairs => simp only [ScanRequest.answer, ScanRequest.winners, List.filterMap_map]; rfl
    | sorted heap => rfl
  | sortedTopN field descending cap =>
    cases acc with
    | filtered pairs => rfl
    | sorted heap => simp only [ScanRequest.answer, ScanRequest.winners, List.filterMap_map]; rfl

/-- The keys that a request finds are those of matches that were visited. -/
theorem mem_winners {req : ScanRequest} {k : String}
    (h : k ∈ req.winners (req.task.result es)) : ∃ b, (k, b) ∈ es ∧ req.predicate k b = true := by
  obtain ⟨predicate, kind⟩ := req
  cases kind with
  | filtered need asc =>
    simp only [ScanRequest.winners, ScanRequest.task, Task.result] at h
    obtain ⟨p, hp, rfl⟩ := List.mem_map.1 h
    have hpair := (sortBySeq_perm asc _).mem_iff.1 (List.mem_of_mem_take hp)
    obtain ⟨e, he, rfl⟩ := List.mem_map.1 hpair
    obtain ⟨he, hpred⟩ := List.mem_filter.1 he
    exact ⟨e.2, he, hpred⟩
  | sortedTopN field descending cap =>
    simp only [ScanRequest.winners, ScanRequest.task, Task.result] at h
    obtain ⟨item, hitem, rfl⟩ := List.mem_map.1 h
    obtain ⟨e, he, hsome⟩ := List.mem_filterMap.1 (Firsts.mem_of_mem_firsts hitem)
    unfold sortItem at hsome
    split_ifs at hsome with hpred
    obtain ⟨v, -, rfl⟩ := Option.map_eq_some_iff.1 hsome
    exact ⟨e.2, he, hpred⟩

/-- The documents that are found so far, and the keys still to be looked up. -/
structure Decoding (L : List Db) (r : Submission) (keys : List String) (docs : List (String × Json)) :
    Prop where
  stored : ∀ p ∈ docs, ∃ db ∈ L, (db.bytes r.collection p.1).bind msgpackToValue = some p.2
  matched : ∀ k ∈ docs.map Prod.fst ++ keys, ∃ db ∈ L, ∃ b, db.bytes r.collection k = some b ∧
    r.request.predicate k b = true
  exact : ∀ o, (∀ db ∈ L, db.col r.collection = o) → (∀ col, o = some col → Numbered col) →
    ∃ col, o = some col ∧ docs ++ keys.filterMap (decodeKey col) = r.request.expected col

theorem Decoding.mono {keys : List String} {docs : List (String × Json)} (h : Decoding L r keys docs)
    (hsub : L ⊆ L') : Decoding L' r keys docs := by
  refine ⟨fun p hp => ?_, fun k hk => ?_, fun o ho => h.exact o fun db hdb => ho db (hsub hdb)⟩
  · obtain ⟨db, hdb, hb⟩ := h.stored p hp
    exact ⟨db, hsub hdb, hb⟩
  · obtain ⟨db, hdb, hb⟩ := h.matched k hk
    exact ⟨db, hsub hdb, hb⟩

theorem Observed.decoding (h : Observed L r es) :
    Decoding L r (r.request.winners (r.request.task.result es)) [] := by
  refine ⟨fun p hp => absurd hp List.not_mem_nil, fun k hk => ?_, fun o ho hnum => ?_⟩
  · obtain ⟨b, he, hpred⟩ := mem_winners hk
    obtain ⟨db, hdb, hb⟩ := h.stored _ he
    exact ⟨db, hdb, b, hb, hpred⟩
  · obtain ⟨db, hdb, hcol⟩ := h.exists_col
    rw [ho db hdb] at hcol
    obtain ⟨col, rfl⟩ := Option.isSome_iff_exists.1 hcol
    refine ⟨col, rfl, ?_⟩
    rw [List.nil_append, ← answer_eq]
    exact (hnum col rfl).answer_perm r.request (h.perm ho) (.refl _)

theorem Decoding.look {db : Db} {k : String} {keys : List String} {docs : List (String × Json)}
    (h : Decoding L r (k :: keys) docs) (hdb : db ∈ L) :
    Decoding L r keys (docs ++ (decodeKey ((db.col r.collection).getD ∅) k).toList) := by
  have hfound : ∀ p, p ∈ (decodeKey ((db.col r.collection).getD ∅) k).toList ↔
      p.1 = k ∧ (db.bytes r.collection k).bind msgpackToValue = some p.2 := by
    rintro ⟨k', v⟩
    have hbytes : ((db.col r.collection).getD ∅)[k]? = db.bytes r.collection k := by
      rw [Db.bytes, ← Db.col]
      cases db.col r.collection with
      | none => exact Map.get?_empty k
      | some col => rfl
    rw [Option.mem_toList, decodeKey, hbytes, Option.map_eq_some_iff]
    constructor
    · rintro ⟨v', hv', heq⟩
      obtain ⟨rfl, rfl⟩ := Prod.mk.inj heq
      exact ⟨rfl, hv'⟩
    · rintro ⟨rfl, hv⟩
      exact ⟨v, hv, rfl⟩
  refine ⟨fun p hp => ?_, fun k' hk' => h.matched k' ?_, fun o ho hnum => ?_⟩
  · rcases List.mem_append.1 hp with hp | hp
    · exact h.stored p hp
    · obtain ⟨hk, hv⟩ := (hfound p).1 hp
      exact ⟨db, hdb, by rw [hk]; exact hv⟩
  · rw [List.map_append, List.append_assoc] at hk'
    rcases List.mem_append.1 hk' with hk' | hk'
    · exact List.mem_append_left _ hk'
    · refine List.mem_append_right _ ?_
      rcases List.mem_append.1 hk' with hk' | hk'
      · obtain ⟨p, hp, rfl⟩ := List.mem_map.1 hk'
        rw [((hfound p).1 hp).1]
        exact List.mem_cons_self
      · exact List.mem_cons_of_mem _ hk'
  · obtain ⟨col, rfl, hdocs⟩ := h.exact o ho hnum
    refine ⟨col, rfl, ?_⟩
    rw [← hdocs, ho db hdb, Option.getD_some, List.append_assoc]
    cases hk : decodeKey col k with
    | none => rw [List.filterMap_cons_none hk]; rfl
    | some p => rw [List.filterMap_cons_some hk]; rfl

/-- **What a call gets**: matches that were stored during the call, and, where its collection is
    left alone, the documents of a scan. -/
structure Answered (L : List Db) (r : Submission) (docs : List (String × Json)) : Prop where
  stored : ∀ p ∈ docs, ∃ db ∈ L, (db.bytes r.collection p.1).bind msgpackToValue = some p.2
  matched : ∀ p ∈ docs, ∃ db ∈ L, ∃ b, db.bytes r.collection p.1 = some b ∧
    r.request.predicate p.1 b = true
  exact : ∀ o, (∀ db ∈ L, db.col r.collection = o) → (∀ col, o = some col → Numbered col) →
    docs = (o.map fun col => r.request.expected col).getD []

theorem Decoding.answered {docs : List (String × Json)} (h : Decoding L r [] docs) :
    Answered L r docs := by
  refine ⟨h.stored, fun p hp => h.matched p.1 ?_, fun o ho hnum => ?_⟩
  · exact List.mem_append_left _ (List.mem_map_of_mem hp)
  · obtain ⟨col, rfl, hdocs⟩ := h.exact o ho hnum
    rw [List.filterMap_nil, List.append_nil] at hdocs
    exact hdocs

theorem answered_nil {db : Db} (hdb : db ∈ L) (hcol : db.col r.collection = none) :
    Answered L r [] := by
  refine ⟨fun p hp => absurd hp List.not_mem_nil, fun p hp => absurd hp List.not_mem_nil,
    fun o ho _ => ?_⟩
  rw [← ho db hdb, hcol]
  rfl

/-- A pass under way. -/
structure Passing (L : List Db) (db : Db) (c : String) (visited : List (String × Bytes))
    (left : List String) : Prop where
  nodup : (visited.map Prod.fst).Nodup
  stored : ∀ e ∈ visited, ∃ db ∈ L, db.bytes c e.1 = some e.2
  present : ∀ k, (∀ db ∈ L, (db.bytes c k).isSome) → k ∈ visited.map Prod.fst ∨ k ∈ left
  exists_col : ∃ db ∈ L, (db.col c).isSome
  nodup_left : left.Nodup
  left : ∀ k ∈ left, k ∉ visited.map Prod.fst ∧ (db.bytes c k).isSome

omit [Crates] in
theorem Passing.start {db : Db} {c : String} {col : DashMap Bytes} (hcol : db.col c = some col) :
    Passing [db] db c [] col.keys := by
  have hbytes : ∀ k, db.bytes c k = col[k]? := fun k => by
    rw [Db.bytes, show db.state[c]? = some col from hcol, Option.bind_some]
  refine ⟨List.nodup_nil, fun e he => absurd he List.not_mem_nil, fun k hk => Or.inr ?_,
    ⟨db, List.mem_singleton_self db, by rw [hcol]; rfl⟩, Map.nodup_keys col, fun k hk => ?_⟩
  · have hsome := hk db (List.mem_singleton_self db)
    rw [hbytes] at hsome
    exact Map.mem_keys.2 (Option.isSome_iff_exists.1 hsome)
  · rw [hbytes]
    exact ⟨List.not_mem_nil, Option.isSome_iff_exists.2 (Map.mem_keys.1 hk)⟩

omit [Crates] in
theorem Passing.visit {db : Db} {c k : String} {b : Bytes} {visited : List (String × Bytes)}
    {left : List String} (h : Passing L db c visited left) (hdb : db ∈ L)
    (hbytes : db.bytes c k = some b) (hnew : k ∉ visited.map Prod.fst) :
    Passing L db c (visited ++ [(k, b)]) (left.erase k) := by
  have hkeys : ∀ k', k' ∈ (visited ++ [(k, b)]).map Prod.fst ↔ k' ∈ visited.map Prod.fst ∨ k' = k := by
    intro k'
    rw [List.map_append, List.mem_append]
    exact or_congr_right List.mem_singleton
  refine ⟨?_, fun e he => ?_, fun k' hk' => ?_, h.exists_col, h.nodup_left.erase k, fun k' hk' => ?_⟩
  · rw [List.map_append]
    refine h.nodup.append (List.nodup_singleton k) fun k' hk' hk => ?_
    obtain rfl : k' = k := List.mem_singleton.1 hk
    exact hnew hk'
  · rcases List.mem_append.1 he with he | he
    · exact h.stored e he
    · rw [List.mem_singleton.1 he]
      exact ⟨db, hdb, hbytes⟩
  · rw [hkeys]
    rcases h.present k' hk' with hv | hl
    · exact Or.inl (Or.inl hv)
    · by_cases hk : k' = k
      · exact Or.inl (Or.inr hk)
      · exact Or.inr ((List.mem_erase_of_ne hk).2 hl)
  · obtain ⟨hne, hl⟩ := h.nodup_left.mem_erase_iff.1 hk'
    rw [hkeys]
    exact ⟨fun hv => hv.elim (h.left k' hl).1 hne, (h.left k' hl).2⟩

omit [Crates] in
/-- A write in between: what it removes need not be visited any more. -/
theorem Passing.written {db : Db} {c : String} {visited : List (String × Bytes)}
    {left : List String} (h : Passing L db c visited left) (db' : Db) :
    Passing (L ++ [db']) db' c visited (left.filter fun k => (db'.bytes c k).isSome) := by
  refine ⟨h.nodup, fun e he => ?_, fun k hk => ?_, ?_, h.nodup_left.filter _, fun k hk => ?_⟩
  · obtain ⟨db, hdb, hb⟩ := h.stored e he
    exact ⟨db, List.mem_append_left _ hdb, hb⟩
  · refine (h.present k fun db hdb => hk db (List.mem_append_left _ hdb)).imp_right fun hl => ?_
    exact List.mem_filter.2 ⟨hl, hk db' (List.mem_append_right _ (List.mem_singleton_self db'))⟩
  · obtain ⟨db, hdb, hcol⟩ := h.exists_col
    exact ⟨db, List.mem_append_left _ hdb, hcol⟩
  · obtain ⟨hl, hsome⟩ := List.mem_filter.1 hk
    exact ⟨(h.left k hl).1, hsome⟩

omit [Crates] in
/-- A pass that has visited all it has to is one for each of its calls. -/
theorem Passing.observed {db : Db} {visited : List (String × Bytes)}
    (h : Passing L db r.collection visited []) (hsub : L ⊆ L') (hes : es.Perm visited) :
    Observed L' r es := by
  refine Observed.mono ⟨?_, fun e he => h.stored e (hes.mem_iff.1 he), fun k hk => ?_, h.exists_col⟩
    hsub
  · exact (hes.map Prod.fst).nodup_iff.2 h.nodup
  · rw [(hes.map Prod.fst).mem_iff]
    exact (h.present k hk).resolve_right List.not_mem_nil

end

/-! ## The invariant -/

section

variable {workers : ℕ → Workers} {s s' : Sys}

omit [Crates] in
theorem mem_since {i : ℕ} (h : i ≤ s.past.length) : s.db ∈ s.since i := by
  rw [Sys.since, List.drop_append_of_le_length h]
  exact List.mem_append_right _ (List.mem_singleton_self _)

omit [Crates] in
theorem during_now (s : Sys) (req : Submission) (docs : List (String × Json)) :
    s.during ⟨req, docs, s.past.length⟩ = s.since req.submittedAt := by
  rw [Sys.during, Sys.since, List.take_of_length_le (by simp)]

/-- All requests of a group are for its collection. -/
def Batch.Ok (rest : Batch) : Prop := ∀ g ∈ rest, ∀ r ∈ g.2, r.collection = g.1

/-- The requests of a group after its pass, with what it found for them. -/
def Sys.Todo (s : Sys) (c : String) (todo : List (Submission × Accum)) : Prop :=
  ∀ p ∈ todo, p.1.collection = c ∧ ∃ es, Observed (s.since p.1.submittedAt) p.1 es ∧
    p.2 = p.1.request.task.result es

/-- What the coordinator has found so far. -/
def Sys.PcOk (s : Sys) : Prop :=
  match s.pc with
  | .recv | .collect _ => True
  | .groups rest => Batch.Ok rest
  | .pass c requests since visited left rest =>
    (∀ r ∈ requests, r.collection = c ∧ r.submittedAt ≤ since) ∧ since ≤ s.past.length ∧
      Passing (s.since since) s.db c visited left ∧ Batch.Ok rest
  | .order c todo rest => s.Todo c todo ∧ Batch.Ok rest
  | .decode c req keys docs todo rest => req.collection = c ∧
    Decoding (s.since req.submittedAt) req keys docs ∧ s.Todo c todo ∧ Batch.Ok rest
  | .stopped => s.handles = false

/-- **The invariant.** -/
structure Sys.Inv (s : Sys) : Prop where
  resp : s.submissions.map Submission.resp = List.range s.submissions.length
  times : ∀ r ∈ s.submissions, r.submittedAt ≤ s.past.length
  places : (s.answers.map Answer.req ++ s.pc.owed ++ s.queue).Perm s.submissions
  bound : s.pc.owed.length ≤ MAX_BATCH
  handles : s.handles = false → s.answers.length = s.submissions.length
  pc : s.PcOk
  answers : ∀ a ∈ s.answers, a.sentAt ≤ s.past.length ∧ Answered (s.during a) a.req a.docs

theorem Sys.Inv.start (db : Db) : (Sys.start db).Inv := by
  exact ⟨rfl, fun r hr => absurd hr List.not_mem_nil, .refl _, Nat.zero_le _, Bool.noConfusion,
    trivial, fun a ha => absurd ha List.not_mem_nil⟩

/-- A request that the coordinator has is one of those submitted. -/
theorem Sys.Inv.owed_time (h : s.Inv) {r : Submission} (hr : r ∈ s.pc.owed) :
    r.submittedAt ≤ s.past.length :=
  h.times r (h.places.mem_iff.1 (List.mem_append_left _ (List.mem_append_right _ hr)))

/-! ### Moves of the coordinator -/

/-- **No request is lost or answered twice.** -/
theorem Sys.Move.places (hm : s.Move s') : (s'.answers.map Answer.req ++ s'.pc.owed ++ s'.queue).Perm
    (s.answers.map Answer.req ++ s.pc.owed ++ s.queue) := by
  cases hm with
  | stop hpc => rw [hpc]; exact .refl _
  | first hpc hqueue => rw [hpc, hqueue]; exact .of_eq (by simp [Pc.owed])
  | take hpc _ hqueue => rw [hpc, hqueue]; exact .of_eq (by simp [Pc.owed])
  | close hpc horder =>
    rw [hpc]
    exact ((Groups.flatMap_grouped_perm horder).append_left _).append_right _
  | finish hpc => rw [hpc]; exact .refl _
  | refuse hpc =>
    rw [hpc]
    refine .of_eq ?_
    simp [Pc.owed, Function.comp_def]
  | start hpc => rw [hpc]; exact .of_eq (by simp [Pc.owed])
  | visit hpc => rw [hpc]; exact .refl _
  | merge hpc => rw [hpc]; exact .of_eq (by simp [Pc.owed, Function.comp_def])
  | last hpc => rw [hpc]; exact .of_eq (by simp [Pc.owed])
  | next hpc => rw [hpc]; exact .of_eq (by simp [Pc.owed])
  | look hpc => rw [hpc]; exact .refl _
  | send hpc => rw [hpc]; exact .of_eq (by simp [Pc.owed])

theorem Sys.Move.bound (h : s.Inv) (hm : s.Move s') : s'.pc.owed.length ≤ MAX_BATCH := by
  have hbound := h.bound
  cases hm with
  | stop => exact Nat.zero_le _
  | first => exact Nat.succ_le_of_lt (by decide : 0 < MAX_BATCH)
  | take hpc hroom => exact (List.length_append).trans_le hroom
  | close hpc horder =>
    rw [hpc] at hbound
    exact (Groups.flatMap_grouped_perm horder).length_eq.trans_le hbound
  | finish => exact Nat.zero_le _
  | refuse hpc =>
    rw [hpc] at hbound
    exact le_trans (by simp [Pc.owed]) hbound
  | start hpc => rw [hpc] at hbound; exact le_trans (by simp [Pc.owed]) hbound
  | visit hpc => rw [hpc] at hbound; exact hbound
  | merge hpc => rw [hpc] at hbound; exact le_trans (by simp [Pc.owed]) hbound
  | last hpc => rw [hpc] at hbound; exact le_trans (by simp [Pc.owed]) hbound
  | next hpc => rw [hpc] at hbound; exact le_trans (by simp [Pc.owed]) hbound
  | look hpc => rw [hpc] at hbound; exact hbound
  | send hpc => rw [hpc] at hbound; exact le_trans (by simp [Pc.owed]) hbound

theorem Sys.Move.pcOk (h : s.Inv) (hm : s.Move s') : s'.PcOk := by
  have hok := h.pc
  have htimes : ∀ r ∈ s.pc.owed, r.submittedAt ≤ s.past.length := fun r hr => h.owed_time hr
  cases hm with
  | stop _ _ hhandles => exact hhandles
  | first => trivial
  | take => trivial
  | @close batch order hpc horder =>
    rintro ⟨c, requests⟩ hg r hr
    rw [Map.mem_inOrder] at hg
    obtain rfl := Groups.eq_of_get? hg.2
    exact of_decide_eq_true (List.mem_filter.1 hr).2
  | finish => trivial
  | refuse hpc =>
    rw [Sys.PcOk, hpc] at hok
    exact fun g hg => hok g (List.mem_cons_of_mem _ hg)
  | @start c requests rest col hpc hcol =>
    rw [Sys.PcOk, hpc] at hok
    rw [hpc] at htimes
    refine ⟨fun r hr => ⟨hok (c, requests) List.mem_cons_self r hr, htimes r ?_⟩, le_refl _, ?_,
      fun g hg => hok g (List.mem_cons_of_mem _ hg)⟩
    · exact List.mem_flatMap.2 ⟨(c, requests), List.mem_cons_self, hr⟩
    · have hnow : s.since s.past.length = [s.db] := by
        rw [Sys.since, List.drop_append_of_le_length (le_refl _), List.drop_length]
        rfl
      change Passing (s.since s.past.length) s.db c [] col.keys
      rw [hnow]
      exact .start hcol
  | visit hpc hbytes hnew =>
    rw [Sys.PcOk, hpc] at hok
    obtain ⟨hrequests, hsince, hpass, hrest⟩ := hok
    exact ⟨hrequests, hsince, hpass.visit (mem_since hsince) hbytes hnew, hrest⟩
  | @merge c requests since visited entries rest hpc hentries =>
    rw [Sys.PcOk, hpc] at hok
    obtain ⟨hrequests, hsince, hpass, hrest⟩ := hok
    refine ⟨fun p hp => ?_, hrest⟩
    obtain ⟨r, hr, rfl⟩ := List.mem_map.1 hp
    obtain ⟨rfl, hle⟩ := hrequests r hr
    refine ⟨rfl, entries, hpass.observed ?_ hentries, rfl⟩
    exact List.drop_subset_drop_left _ hle
  | last hpc =>
    rw [Sys.PcOk, hpc] at hok
    exact hok.2
  | @next c req acc todo rest hpc =>
    rw [Sys.PcOk, hpc] at hok
    obtain ⟨htodo, hrest⟩ := hok
    obtain ⟨hcol, es, hes, hacc⟩ := htodo (req, acc) List.mem_cons_self
    obtain rfl : acc = req.request.task.result es := hacc
    exact ⟨hcol, hes.decoding, fun p hp => htodo p (List.mem_cons_of_mem _ hp), hrest⟩
  | @look c req k keys docs todo rest hpc =>
    rw [Sys.PcOk, hpc] at hok
    rw [hpc] at htimes
    obtain ⟨rfl, hdecoding, hrest⟩ := hok
    exact ⟨rfl, hdecoding.look (mem_since (htimes req List.mem_cons_self)), hrest⟩
  | send hpc =>
    rw [Sys.PcOk, hpc] at hok
    exact hok.2.2

theorem Sys.Move.answers (h : s.Inv) (hm : s.Move s') :
    ∀ a ∈ s'.answers, a.sentAt ≤ s.past.length ∧ Answered (s.during a) a.req a.docs := by
  have hok := h.pc
  cases hm with
  | @refuse c requests rest hpc hcol =>
    intro a ha
    rcases List.mem_append.1 ha with ha | ha
    · exact h.answers a ha
    · obtain ⟨r, hr, rfl⟩ := List.mem_map.1 ha
      rw [Sys.PcOk, hpc] at hok
      obtain rfl := hok (c, requests) List.mem_cons_self r hr
      have hle : r.submittedAt ≤ s.past.length := by
        refine h.owed_time ?_
        rw [hpc]
        exact List.mem_flatMap.2 ⟨_, List.mem_cons_self, hr⟩
      rw [during_now]
      exact ⟨le_refl _, answered_nil (mem_since hle) hcol⟩
  | @send c req docs todo rest hpc =>
    intro a ha
    rcases List.mem_append.1 ha with ha | ha
    · exact h.answers a ha
    · obtain rfl := List.mem_singleton.1 ha
      rw [Sys.PcOk, hpc] at hok
      rw [during_now]
      exact ⟨le_refl _, hok.2.1.answered⟩
  | _ => exact h.answers

/-- What the coordinator leaves alone. -/
theorem Sys.Move.frame (hm : s.Move s') : s'.db = s.db ∧ s'.past = s.past ∧
    s'.submissions = s.submissions ∧ s'.handles = s.handles ∧ s'.queue.length ≤ s.queue.length ∧
      s.answers.length ≤ s'.answers.length := by
  cases hm with
  | first _ hqueue | take _ _ hqueue =>
    refine ⟨rfl, rfl, rfl, rfl, ?_, le_refl _⟩
    rw [hqueue]
    exact Nat.le_succ _
  | refuse | send =>
    refine ⟨rfl, rfl, rfl, rfl, le_refl _, ?_⟩
    rw [List.length_append]
    exact Nat.le_add_right _ _
  | _ => exact ⟨rfl, rfl, rfl, rfl, le_refl _, le_refl _⟩

theorem Sys.Inv.move (h : s.Inv) (hm : s.Move s') : s'.Inv := by
  obtain ⟨hdb, hpast, hsub, hhandles, -, hlen⟩ := hm.frame
  have hplaces := hm.places.trans h.places
  refine ⟨hsub ▸ h.resp, ?_, hsub ▸ hplaces, hm.bound h, fun hno => ?_, hm.pcOk h, fun a ha => ?_⟩
  · rw [hsub, hpast]
    exact h.times
  · have hall := h.handles (hhandles ▸ hno)
    have hle := hplaces.length_eq
    rw [List.length_append, List.length_append, List.length_map] at hle
    rw [hsub]
    omega
  · rw [hpast, Sys.during, hpast, hdb]
    exact hm.answers h a ha

end

/-! ### Submissions, writes and drops -/

section

variable {workers : ℕ → Workers} {s : Sys}

theorem Sys.Inv.submit (h : s.Inv) (c : String) (request : ScanRequest) :
    (s.step workers (.submit c request)).Inv := by
  rw [Sys.step]
  split_ifs with hhandles
  · dsimp only
    refine ⟨?_, fun r hr => ?_, ?_, h.bound, fun hno => ?_, h.pc, h.answers⟩
    · rw [List.map_append, List.length_append, List.length_singleton, List.range_succ, h.resp]
      rfl
    · rcases List.mem_append.1 hr with hr | hr
      · exact h.times r hr
      · rw [List.mem_singleton.1 hr]
    · dsimp only
      rw [← List.append_assoc]
      exact h.places.append_right _
    · dsimp only at hno
      rw [hhandles] at hno
      cases hno
  · exact h

omit [Crates] in
theorem owed_written (db : Db) (pc : Pc) : (pc.written db).owed = pc.owed := by
  cases pc <;> rfl

theorem Sys.Inv.write (h : s.Inv) (db : Db) : (s.step workers (.write db)).Inv := by
  rw [Sys.step]
  generalize hs' : Sys.mk _ _ _ _ _ _ _ = s'
  have hpast : s'.past = s.past ++ [s.db] := hs' ▸ rfl
  have hdb : s'.db = db := hs' ▸ rfl
  have hpc : s'.pc = s.pc.written db := hs' ▸ rfl
  have hanswers : s'.answers = s.answers := hs' ▸ rfl
  have hsubmissions : s'.submissions = s.submissions := hs' ▸ rfl
  have hlen : s'.past.length = s.past.length + 1 := by rw [hpast, List.length_append]; rfl
  have hsince : ∀ i ≤ s.past.length, s'.since i = s.since i ++ [db] := fun i hi => by
    rw [Sys.since, hpast, hdb, Sys.since, List.drop_append_of_le_length]
    rw [List.length_append]
    exact Nat.le_succ_of_le hi
  have hsub : ∀ i ≤ s.past.length, s.since i ⊆ s'.since i := fun i hi => by
    rw [hsince i hi]
    exact List.subset_append_left _ _
  have htodo : ∀ c todo, (∀ p ∈ todo, p.1 ∈ s.pc.owed) → s.Todo c todo → s'.Todo c todo := by
    intro c todo howed h' p hp
    obtain ⟨hcol, es, hes, hacc⟩ := h' p hp
    exact ⟨hcol, es, hes.mono (hsub _ (h.owed_time (howed p hp))), hacc⟩
  refine ⟨?_, fun r hr => ?_, ?_, ?_, fun hno => ?_, ?_, fun a ha => ?_⟩
  · rw [hsubmissions]
    exact h.resp
  · rw [hlen]
    exact Nat.le_succ_of_le (h.times r (hsubmissions ▸ hr))
  · rw [hpc, owed_written, hanswers, hsubmissions, ← hs']
    exact h.places
  · rw [hpc, owed_written]
    exact h.bound
  · rw [hanswers, hsubmissions]
    refine h.handles ?_
    rw [← hno, ← hs']
  · have hok := h.pc
    have howed := fun r => h.owed_time (r := r)
    rw [Sys.PcOk, hpc]
    rw [Sys.PcOk] at hok
    cases hspc : s.pc with
    | recv | collect => trivial
    | groups rest =>
      rw [hspc] at hok
      exact hok
    | pass c requests since visited left rest =>
      rw [hspc] at hok
      obtain ⟨hrequests, hle, hpass, hrest⟩ := hok
      refine ⟨hrequests, by rw [hlen]; exact Nat.le_succ_of_le hle, ?_, hrest⟩
      rw [hsince since hle, hdb]
      exact hpass.written db
    | order c todo rest =>
      rw [hspc] at hok
      refine ⟨htodo c todo (fun p hp => ?_) hok.1, hok.2⟩
      rw [hspc]
      exact List.mem_append_left _ (List.mem_map_of_mem hp)
    | decode c req keys docs todo rest =>
      rw [hspc] at hok howed
      obtain ⟨hcol, hdecoding, htodo', hrest⟩ := hok
      refine ⟨hcol, hdecoding.mono (hsub _ (howed req List.mem_cons_self)),
        htodo c todo (fun p hp => ?_) htodo', hrest⟩
      rw [hspc]
      exact List.mem_cons_of_mem _ (List.mem_append_left _ (List.mem_map_of_mem hp))
    | stopped =>
      rw [hspc] at hok
      rw [← hs']
      exact hok
  · obtain ⟨hle, ha'⟩ := h.answers a (hanswers ▸ ha)
    refine ⟨by rw [hlen]; exact Nat.le_succ_of_le hle, ?_⟩
    have hsame : s'.during a = s.during a := by
      rw [Sys.during, hpast, hdb, Sys.during, List.take_append_of_le_length]
      rw [List.length_append]
      exact Nat.succ_le_succ hle
    rw [hsame]
    exact ha'

theorem Sys.Inv.drop (h : s.Inv) : (s.step workers .drop).Inv := by
  rw [Sys.step]
  split_ifs with hall
  · refine ⟨h.resp, h.times, h.places, h.bound, fun _ => hall, ?_, h.answers⟩
    have hok := h.pc
    rw [Sys.PcOk] at hok ⊢
    dsimp only
    cases hspc : s.pc with
    | stopped => rfl
    | _ =>
      rw [hspc] at hok
      exact hok
  · exact h

/-- **Every step keeps the invariant.** -/
theorem Sys.Inv.step (h : s.Inv) (e : Event) : (s.step workers e).Inv := by
  cases e with
  | submit c request => exact h.submit c request
  | write db => exact h.write db
  | coordinator choice =>
    rw [Sys.step]
    rcases s.advance_cases choice with hsame | hmove
    · rw [hsame]
      exact h
    · exact h.move hmove
  | drop => exact h.drop

/-- A run from the start. -/
def Sys.after (workers : ℕ → Workers) (db : Db) (events : List Event) : Sys :=
  Runs.after (Sys.step workers) (Sys.start db) events

theorem inv_after (workers : ℕ → Workers) (db : Db) (events : List Event) :
    (Sys.after workers db events).Inv := by
  suffices hall : ∀ s : Sys, s.Inv → (Runs.after (Sys.step workers) s events).Inv from
    hall _ (.start db)
  induction events with
  | nil => exact fun _ h => h
  | cons e events ih => exact fun s h => ih _ (h.step e)

end

end

section

/-- Two calls in one pass, the second of which comes in the window of the first. -/
example :
    letI := Crates.plain
    let a := ("a", valueToMsgpack (.obj [(IKEY_SEQ, .ofU64 1), ("n", .ofU64 7)]))
    let b := ("b", valueToMsgpack (.obj [(IKEY_SEQ, .ofU64 2), ("n", .ofU64 5)]))
    let s := Sys.after (fun _ => .two) ofTwoDocuments [
      .submit "c" ⟨fun _ _ => true, .filtered (some 1) true⟩, .coordinator .take,
      .submit "c" ⟨fun _ _ => true, .sortedTopN "n" false 1⟩, .coordinator .take,
      .coordinator (.close ["c"]), .coordinator .take, .coordinator (.visit "b"),
      .coordinator (.visit "a"), .coordinator (.merge [a, b]), .coordinator .take, .coordinator .take,
      .coordinator .take, .coordinator .take, .coordinator .take, .coordinator .take]
    s.answers.map (fun a => (a.req.resp, a.docs.map Prod.fst)) = [(0, ["a"]), (1, ["b"])] := by
  decide +kernel

end

section

variable [Crates]

/-! ## The coordinator can go on -/

section

variable {workers : ℕ → Workers} {s s' s'' : Sys}

/-- The coordinator can get from `s` to `s'` by itself. -/
def Sys.Leads (workers : ℕ → Workers) (s s' : Sys) : Prop :=
  ∃ choices, s' = Runs.after (Sys.advance workers) s choices

theorem Sys.Leads.refl (s : Sys) : s.Leads workers s := ⟨[], rfl⟩

theorem Sys.Leads.trans (h : s.Leads workers s') (h' : s'.Leads workers s'') :
    s.Leads workers s'' := by
  obtain ⟨choices, rfl⟩ := h
  obtain ⟨choices', rfl⟩ := h'
  exact ⟨choices ++ choices', List.foldl_append.symm⟩

/-- What the coordinator does keeps the invariant, and all but the channel and the answers. -/
theorem Sys.Leads.keeps (hleads : s.Leads workers s') (h : s.Inv) : s'.Inv ∧ s'.db = s.db ∧
    s'.submissions = s.submissions ∧ s'.queue.length ≤ s.queue.length := by
  obtain ⟨choices, rfl⟩ := hleads
  induction choices generalizing s with
  | nil => exact ⟨h, rfl, rfl, le_refl _⟩
  | cons choice choices ih =>
    have hone : (s.advance workers choice).Inv ∧ (s.advance workers choice).db = s.db ∧
        (s.advance workers choice).submissions = s.submissions ∧
          (s.advance workers choice).queue.length ≤ s.queue.length := by
      rcases s.advance_cases choice with hsame | hmove
      · rw [hsame]
        exact ⟨h, rfl, rfl, le_refl _⟩
      · obtain ⟨hdb, -, hsub, -, hqueue, -⟩ := hmove.frame
        exact ⟨h.move hmove, hdb, hsub, hqueue⟩
    obtain ⟨h₁, hdb, hsub, hqueue⟩ := hone
    obtain ⟨hinv, hdb', hsub', hqueue'⟩ := ih h₁
    exact ⟨hinv, hdb'.trans hdb, hsub'.trans hsub, hqueue'.trans hqueue⟩

variable (workers)

theorem Sys.leads_advance (s : Sys) (choice : Choice) : s.Leads workers (s.advance workers choice) :=
  ⟨[choice], rfl⟩

theorem leads_decode {c : String} {req : Submission} {keys : List String}
    {docs : List (String × Json)} {todo : List (Submission × Accum)} {rest : Batch}
    (hpc : s.pc = .decode c req keys docs todo rest) :
    ∃ s', s.Leads workers s' ∧ s'.pc = .order c todo rest := by
  induction keys generalizing s docs with
  | nil =>
    refine ⟨_, s.leads_advance workers .take, ?_⟩
    rw [Sys.advance, hpc]
  | cons k keys ih =>
    have hnext : (s.advance workers .take).pc =
        .decode c req keys (docs ++ (decodeKey ((s.db.col c).getD ∅) k).toList) todo rest := by
      rw [Sys.advance, hpc]
    obtain ⟨s', hleads, hpc'⟩ := ih hnext
    exact ⟨s', (s.leads_advance workers .take).trans hleads, hpc'⟩

theorem leads_order {c : String} {todo : List (Submission × Accum)} {rest : Batch}
    (hpc : s.pc = .order c todo rest) : ∃ s', s.Leads workers s' ∧ s'.pc = .groups rest := by
  induction todo generalizing s with
  | nil =>
    refine ⟨_, s.leads_advance workers .take, ?_⟩
    rw [Sys.advance, hpc]
  | cons p todo ih =>
    have hnext : (s.advance workers .take).pc =
        .decode c p.1 (p.1.request.winners p.2) [] todo rest := by
      rw [Sys.advance, hpc]
    obtain ⟨s₁, hleads, hpc₁⟩ := leads_decode workers hnext
    obtain ⟨s₂, hleads₂, hpc₂⟩ := ih hpc₁
    exact ⟨s₂, ((s.leads_advance workers .take).trans hleads).trans hleads₂, hpc₂⟩

theorem leads_pass (h : s.Inv) {c : String} {requests : List Submission} {since : ℕ}
    {visited : List (String × Bytes)} {left : List String} {rest : Batch}
    (hpc : s.pc = .pass c requests since visited left rest) :
    ∃ s' todo, s.Leads workers s' ∧ s'.pc = .order c todo rest := by
  induction left generalizing s visited with
  | nil =>
    have hnext : ∃ todo, (s.advance workers (.merge visited)).pc = .order c todo rest := by
      rw [Sys.advance, hpc]
      dsimp only
      rw [if_pos ⟨rfl, .refl _⟩]
      exact ⟨_, rfl⟩
    obtain ⟨todo, hpc'⟩ := hnext
    exact ⟨_, todo, s.leads_advance workers (.merge visited), hpc'⟩
  | cons k left ih =>
    have hok := h.pc
    rw [Sys.PcOk, hpc] at hok
    obtain ⟨hnew, hsome⟩ := hok.2.2.1.left k List.mem_cons_self
    obtain ⟨b, hb⟩ := Option.isSome_iff_exists.1 hsome
    have hnext : (s.advance workers (.visit k)).pc =
        .pass c requests since (visited ++ [(k, b)]) left rest := by
      rw [Sys.advance, hpc]
      dsimp only
      rw [hb]
      dsimp only
      rw [if_neg hnew, List.erase_cons_head]
    have hleads := s.leads_advance workers (.visit k)
    obtain ⟨s', todo, hleads', hpc'⟩ := ih (hleads.keeps h).1 hnext
    exact ⟨s', todo, hleads.trans hleads', hpc'⟩

theorem leads_groups (h : s.Inv) {rest : Batch} (hpc : s.pc = .groups rest) :
    ∃ s', s.Leads workers s' ∧ s'.pc = .recv := by
  induction rest generalizing s with
  | nil =>
    refine ⟨_, s.leads_advance workers .take, ?_⟩
    rw [Sys.advance, hpc]
  | cons g rest ih =>
    obtain ⟨c, requests⟩ := g
    have hleads := s.leads_advance workers .take
    have h₁ := (hleads.keeps h).1
    cases hcol : s.db.col c with
    | none =>
      have hnext : (s.advance workers .take).pc = .groups rest := by
        rw [Sys.advance, hpc]
        dsimp only
        rw [hcol]
      obtain ⟨s', hleads', hpc'⟩ := ih h₁ hnext
      exact ⟨s', hleads.trans hleads', hpc'⟩
    | some col =>
      have hnext : (s.advance workers .take).pc =
          .pass c requests s.past.length [] col.keys rest := by
        rw [Sys.advance, hpc]
        dsimp only
        rw [hcol]
      obtain ⟨s₂, todo, hleads₂, hpc₂⟩ := leads_pass workers h₁ hnext
      obtain ⟨s₃, hleads₃, hpc₃⟩ := leads_order workers hpc₂
      have hall := (hleads.trans hleads₂).trans hleads₃
      obtain ⟨s', hleads', hpc'⟩ := ih (hall.keeps h).1 hpc₃
      exact ⟨s', hall.trans hleads', hpc'⟩

theorem leads_collect (h : s.Inv) {batch : List Submission} (hpc : s.pc = .collect batch) :
    ∃ s', s.Leads workers s' ∧ s'.pc = .recv := by
  have hleads := s.leads_advance workers
    (.close (Groups.grouped Submission.collection batch).keys)
  have hnext : (s.advance workers (.close (Groups.grouped Submission.collection batch).keys)).pc =
      .groups ((Groups.grouped Submission.collection batch).inOrder
        (Groups.grouped Submission.collection batch).keys) := by
    rw [Sys.advance, hpc]
    dsimp only
    rw [if_pos (.refl _)]
  obtain ⟨s', hleads', hpc'⟩ := leads_groups workers (hleads.keeps h).1 hnext
  exact ⟨s', hleads.trans hleads', hpc'⟩

/-- The coordinator gets back to its channel. -/
theorem leads_recv (h : s.Inv) (hpc : s.pc ≠ .stopped) :
    ∃ s', s.Leads workers s' ∧ s'.pc = .recv := by
  have horder : ∀ {s₁ : Sys} {c : String} {todo : List (Submission × Accum)} {rest : Batch},
      s.Leads workers s₁ → s₁.pc = .order c todo rest → ∃ s', s.Leads workers s' ∧ s'.pc = .recv := by
    intro s₁ c todo rest hleads hpc₁
    obtain ⟨s₂, hleads₂, hpc₂⟩ := leads_order workers hpc₁
    have hall := hleads.trans hleads₂
    obtain ⟨s', hleads', hpc'⟩ := leads_groups workers (hall.keeps h).1 hpc₂
    exact ⟨s', hall.trans hleads', hpc'⟩
  cases hspc : s.pc with
  | recv => exact ⟨s, .refl s, hspc⟩
  | collect batch => exact leads_collect workers h hspc
  | groups rest => exact leads_groups workers h hspc
  | pass c requests since visited left rest =>
    obtain ⟨s₁, todo, hleads, hpc₁⟩ := leads_pass workers h hspc
    exact horder hleads hpc₁
  | order c todo rest => exact horder (.refl s) hspc
  | decode c req keys docs todo rest =>
    obtain ⟨s₁, hleads, hpc₁⟩ := leads_decode workers hspc
    exact horder hleads hpc₁
  | stopped => exact absurd hspc hpc

/-- It empties the channel, batch by batch. -/
theorem leads_empty (h : s.Inv) (hpc : s.pc = .recv) :
    ∃ s', s.Leads workers s' ∧ s'.pc = .recv ∧ s'.queue = [] := by
  induction hn : s.queue.length using Nat.strong_induction_on generalizing s with
  | _ n ih =>
    cases hqueue : s.queue with
    | nil => exact ⟨s, .refl s, hpc, hqueue⟩
    | cons req queue =>
      have hleads := s.leads_advance workers .take
      have hnext : s.advance workers .take = { s with queue, pc := .collect [req] } := by
        rw [Sys.advance, hpc]
        dsimp only
        rw [hqueue]
      obtain ⟨s₁, hleads₁, hpc₁⟩ := leads_collect workers (hleads.keeps h).1
        (congrArg Sys.pc hnext)
      have hall := hleads.trans hleads₁
      have hlen := (hleads₁.keeps (hleads.keeps h).1).2.2.2
      rw [hnext] at hlen
      obtain ⟨s', hleads', hpc', hempty⟩ := ih _ (hlen.trans_lt (by rw [← hn, hqueue]; exact Nat.lt_succ_self _))
        (hall.keeps h).1 hpc₁ rfl
      exact ⟨s', hall.trans hleads', hpc', hempty⟩

end

end

end Coalescer

end MoltenDB
