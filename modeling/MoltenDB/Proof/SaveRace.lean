/-
  Calls and tasks that save the revocations at the same time.

  To save is to copy the shared map and then to replace the file by the copy.  A revocation that
  was answered with success is in the file if no task replaces the file by a copy that is older
  than the one in it, and no revocation shortens another one (`acknowledged_in_file`).
-/
import MoltenDB.Proof.Exchange
import MoltenDB.Proof.Revocation

namespace MoltenDB

open RevocationStore Runs

namespace Saving

/-- A token that was revoked, and its deadline. -/
structure Entry where
  jti : String
  deadline : Instant
  deriving DecidableEq

/-- What a task runs; a caller whose token was checked has these claims. -/
inductive Call
  | revoke (claims : Claims) (jti : String) (payload : Json)
  | refresh (header : Option String) (ttlSecs : Option UInt64) (uuid : String)
  /-- One round of the task that prunes the store. -/
  | prune

structure Tasks where
  isInMemory : Bool
  call : ℕ → Call

/-- What a call answers, if it does not panic and has someone to answer, and what it has
    revoked. -/
structure Answer where
  response : Option (ℕ × Json)
  entry : Option Entry

/-- A copy of the map as the text of a file.  The copies are numbered in the order in which they
    are made; nothing depends on the numbers. -/
structure Copy where
  number : ℕ
  text : String

/-- How far a task has come. -/
inductive Stage
  | arrived
  | refreshing (x : Exchange.Calls) (σ : Exchange.Stage)
  /-- The map is to be copied. -/
  | saving (answer : Answer)
  /-- The file is to be replaced. -/
  | writing (answer : Answer) (copy : Copy)
  | returned (answer : Answer)

namespace Stage

/-- What the task has revoked. -/
def entry : Stage → Option Entry
  | saving answer => answer.entry
  | writing answer _ => answer.entry
  | returned answer => answer.entry
  | _ => none

/-- The copy that is to replace the file. -/
def copy : Stage → Option Copy
  | writing _ copy => some copy
  | _ => none

/-- The answer of a call that has returned. -/
def answer : Stage → Option Answer
  | returned answer => some answer
  | _ => none

/-- What a call that has answered with success has revoked. -/
def acknowledged (σ : Stage) : Option Entry :=
  σ.answer.bind fun a => if a.response.map Prod.fst = some 200 then a.entry else none

end Stage

/-- The store and the file; `written` is the number of the copy in the file, and `copies` that of
    the last copy that was made. -/
structure Memory where
  store : RevocationStore
  file : ReadResult
  written : ℕ
  copies : ℕ

/-- The memory, the tasks by their numbers, and the time. -/
structure Shared where
  memory : Memory
  stage : ℕ → Stage
  clock : Instant

/-- A task takes its next step at a time. -/
structure Turn where
  task : ℕ
  now : Instant
  walk : Walk

def start (store : RevocationStore) (file : ReadResult) (clock : Instant) : Shared :=
  ⟨⟨store, file, 0, 0⟩, fun _ => .arrived, clock⟩

/-- What the store has for the token of a stage. -/
def entryOf (store : RevocationStore) (σ : Exchange.Stage) : Option Entry :=
  σ.claims.bind fun claims => store.revoked[claims.jti]?.map fun deadline => ⟨claims.jti, deadline⟩

section

variable [AuthCrates] (x : Tasks)

/-- The next step of a task: those of `handle_revoke`, of `handle_refresh` after the middleware,
    or of the prune task, and of `save_to_file`. -/
def advance (m : Memory) (t : Turn) : Stage → Stage × Memory
  | .arrived =>
    match x.call t.task with
    | .revoke claims jti payload =>
      if !claims.isAdmin then
        (.returned ⟨some (403, json [("error", .str "Admin access required to revoke tokens")]),
          none⟩, m)
      else if jti = "" then
        (.returned ⟨some (400, json [("error", .str "jti must not be empty")]), none⟩, m)
      else
        match Revocations.pruneAfter t.now payload with
        | none => (.returned ⟨none, none⟩, m)
        | some deadline =>
          (.saving ⟨some (200, json [("revoked", .str jti),
            ("message", .str "Token has been revoked successfully")]), some ⟨jti, deadline⟩⟩,
            { m with store := m.store.revoke jti deadline })
    | .refresh header ttlSecs uuid =>
      match bearerToken header with
      | none =>
        (.returned ⟨some (401, errorBody "Missing or invalid Authorization header"), none⟩, m)
      | some token =>
        let ttl := ttlSecs.getD DEFAULT_DELEGATE_TTL_SECS
        (.refreshing ⟨token, fun _ => ttl, fun _ => uuid⟩ .admitted, m)
    | .prune =>
      (if x.isInMemory then .returned ⟨none, none⟩ else .saving ⟨none, none⟩,
        { m with store := m.store.prune t.now })
  | .refreshing y σ =>
    let (σ', store) := Exchange.advance y m.store ⟨t.task, t.now⟩ σ
    (match σ' with
      | .returned (.error e) => .returned ⟨some (refreshError e), none⟩
      | .returned (.ok (newToken, newJti)) =>
        .saving ⟨some (200, json [("token", .str newToken), ("jti", .str newJti),
          ("expires_in", .ofU64 (y.ttlSecs t.task))]), entryOf store σ⟩
      | σ' => .refreshing y σ',
      { m with store := store })
  | .saving answer =>
    (.writing answer
      ⟨m.copies + 1, m.store.saveToFile t.now (t.walk.order m.store.revoked.keys)⟩,
      { m with copies := m.copies + 1 })
  | .writing answer copy =>
    (.returned answer, { m with file := .contents copy.text, written := copy.number })
  | .returned answer => (.returned answer, m)

def step (s : Shared) (t : Turn) : Shared :=
  let (stage, memory) := advance x s.memory t (s.stage t.task)
  ⟨memory, Function.update s.stage t.task stage, t.now⟩

/-- **A call by itself** is `handle_revoke`. -/
theorem after_turns_revoke (s : Shared) (i : ℕ) (now : Instant) (walk : Walk) {claims : Claims}
    {jti : String} {payload : Json} (hcall : x.call i = .revoke claims jti payload)
    (h : s.stage i = .arrived) (unsaved : List String) :
    let r : Revocations := ⟨s.memory.store, s.memory.file, unsaved⟩
    let s' := after (step x) s (List.replicate 3 ⟨i, now, walk⟩)
    (s'.stage i).answer.map Answer.response = some (r.handleRevoke now walk claims jti payload).1 ∧
      s'.memory.store = (r.handleRevoke now walk claims jti payload).2.store ∧
      s'.memory.file = (r.handleRevoke now walk claims jti payload).2.file := by
  simp only [after, List.replicate, List.foldl_cons, List.foldl_nil, step, h,
    Function.update_self]
  unfold Revocations.handleRevoke
  by_cases hadmin : claims.isAdmin = true
  · by_cases hjti : jti = ""
    · simp [advance, hcall, hadmin, hjti, Stage.answer]
    · cases hafter : Revocations.pruneAfter now payload with
      | none => simp [advance, hcall, hadmin, hjti, hafter, Stage.answer]
      | some deadline =>
        simp [advance, hcall, hadmin, hjti, hafter, Stage.answer, Revocations.save]
  · simp [advance, hcall, hadmin, Stage.answer]

/-- **A call by itself** is `handle_refresh`. -/
theorem after_turns_refresh (s : Shared) (i : ℕ) (now : Instant) (walk : Walk)
    {header : Option String} {ttlSecs : Option UInt64} {uuid : String}
    (hcall : x.call i = .refresh header ttlSecs uuid) (h : s.stage i = .arrived)
    (unsaved : List String) :
    let r : Revocations := ⟨s.memory.store, s.memory.file, unsaved⟩
    let s' := after (step x) s (List.replicate 7 ⟨i, now, walk⟩)
    (s'.stage i).answer.map Answer.response =
        some (some (handleRefresh r now walk uuid header ttlSecs).1) ∧
      s'.memory.store = (handleRefresh r now walk uuid header ttlSecs).2.2.store ∧
      s'.memory.file = (handleRefresh r now walk uuid header ttlSecs).2.2.file := by
  simp only [after, List.replicate, List.foldl_cons, List.foldl_nil, step, h,
    Function.update_self]
  unfold handleRefresh
  cases hbearer : bearerToken header with
  | none => simp [advance, hcall, hbearer, Stage.answer]
  | some token =>
    unfold refreshScopedToken
    cases hverify : verifyToken now token with
    | error e => simp [advance, Exchange.advance, hcall, hbearer, hverify, Stage.answer]
    | ok claims =>
      by_cases hjti : claims.jti = ""
      · simp [advance, Exchange.advance, hcall, hbearer, hverify, hjti, Stage.answer]
      by_cases hadmin : claims.isAdmin = true
      · simp [advance, Exchange.advance, hcall, hbearer, hverify, hjti, hadmin, Stage.answer]
      by_cases hrevoked : s.memory.store.isRevoked claims.jti = true
      · simp [advance, Exchange.advance, hcall, hbearer, hverify, hjti, hadmin, hrevoked,
          Stage.answer]
      cases hcreate : createScopedToken now uuid claims.sub claims.scopes
          (ttlSecs.getD DEFAULT_DELEGATE_TTL_SECS) with
      | error e =>
        simp [advance, Exchange.advance, hcall, hbearer, hverify, hjti, hadmin, hrevoked, hcreate,
          Stage.answer]
      | ok new =>
        cases hadd : now.addSecs (ttlSecs.getD DEFAULT_DELEGATE_TTL_SECS) with
        | none =>
          simp [advance, Exchange.advance, hcall, hbearer, hverify, hjti, hadmin, hrevoked,
            hcreate, hadd, Stage.answer]
        | some pruneAfter =>
          simp [advance, Exchange.advance, hcall, hbearer, hverify, hjti, hadmin, hrevoked,
            hcreate, hadd, Stage.answer, Revocations.save]

/-- What the task is about to revoke. -/
def revokes (t : Turn) : Stage → Option Entry
  | .arrived =>
    match x.call t.task with
    | .revoke claims jti payload =>
      if claims.isAdmin && jti != "" then (Revocations.pruneAfter t.now payload).map (⟨jti, ·⟩)
      else none
    | _ => none
  | .refreshing y (.minted claims _) =>
    (t.now.addSecs (y.ttlSecs t.task)).map (⟨claims.jti, ·⟩)
  | _ => none

/-- The time does not go back; the file is not replaced by a copy that is older than the one in
    it; and a token that is revoked again is not given an earlier deadline. -/
structure SavesInOrder (s : Shared) (t : Turn) : Prop where
  time : s.clock.nanos ≤ t.now.nanos
  newest : ∀ copy ∈ (s.stage t.task).copy, s.memory.written ≤ copy.number
  longer : ∀ e ∈ revokes x t (s.stage t.task), ∀ deadline ∈ s.memory.store.revoked[e.jti]?,
    deadline.nanos ≤ e.deadline.nanos

instance (s : Shared) (t : Turn) : Decidable (SavesInOrder x s t) :=
  decidable_of_iff (s.clock.nanos ≤ t.now.nanos ∧
    (∀ copy ∈ (s.stage t.task).copy, s.memory.written ≤ copy.number) ∧
    ∀ e ∈ revokes x t (s.stage t.task), ∀ deadline ∈ s.memory.store.revoked[e.jti]?,
      deadline.nanos ≤ e.deadline.nanos)
    ⟨fun h => ⟨h.1, h.2.1, h.2.2⟩, fun h => ⟨h.time, h.newest, h.longer⟩⟩

end

/-! ## What one step does -/

section

variable [AuthCrates] {x : Tasks}

/-- What a task does with its next step. -/
inductive Advance (x : Tasks) (m : Memory) (t : Turn) : Stage → Stage × Memory → Prop
  | idle (σ : Stage) : Advance x m t σ (σ, m)
  | other {σ σ' : Stage} {store : RevocationStore} (hentry : σ'.entry = none)
      (hcopy : σ'.copy = none) (hstore : store = m.store ∨ store = m.store.prune t.now) :
      Advance x m t σ (σ', { m with store := store })
  | revoke {σ : Stage} (response : Option (ℕ × Json)) {e : Entry} (he : revokes x t σ = some e) :
      Advance x m t σ (.saving ⟨response, some e⟩, { m with store := m.store.revoke e.jti e.deadline })
  | copy (answer : Answer) :
      Advance x m t (.saving answer)
        (.writing answer
          ⟨m.copies + 1, m.store.saveToFile t.now (t.walk.order m.store.revoked.keys)⟩,
          { m with copies := m.copies + 1 })
  | write (answer : Answer) (copy : Copy) :
      Advance x m t (.writing answer copy)
        (.returned answer, { m with file := .contents copy.text, written := copy.number })

theorem advance_cases (m : Memory) (t : Turn) (σ : Stage) : Advance x m t σ (advance x m t σ) := by
  have hsame : ∀ {σ' : Stage}, σ'.entry = none → σ'.copy = none → Advance x m t σ (σ', m) :=
    fun hentry hcopy => .other hentry hcopy (Or.inl rfl)
  cases σ with
  | arrived =>
    cases hcall : x.call t.task with
    | revoke claims jti payload =>
      by_cases hadmin : claims.isAdmin = true
      · by_cases hjti : jti = ""
        · simp only [advance, hcall, hadmin, hjti]
          exact hsame rfl rfl
        · cases hafter : Revocations.pruneAfter t.now payload with
          | none =>
            simp only [advance, hcall, hadmin, hjti, hafter]
            exact hsame rfl rfl
          | some deadline =>
            simp only [advance, hcall, hadmin, hjti, hafter]
            exact .revoke _ (e := ⟨jti, deadline⟩) (by simp [revokes, hcall, hadmin, hjti, hafter])
      · simp only [advance, hcall, hadmin]
        exact hsame rfl rfl
    | refresh header ttlSecs uuid =>
      cases hbearer : bearerToken header with
      | none =>
        simp only [advance, hcall, hbearer]
        exact hsame rfl rfl
      | some token =>
        simp only [advance, hcall, hbearer]
        exact hsame rfl rfl
    | prune =>
      simp only [advance, hcall]
      split_ifs
      · exact .other rfl rfl (Or.inr rfl)
      · exact .other rfl rfl (Or.inr rfl)
  | refreshing y σ =>
    have hcases := Exchange.advance_cases (x := y) m.store ⟨t.task, t.now⟩ σ
    simp only [advance]
    generalize Exchange.advance y m.store ⟨t.task, t.now⟩ σ = r at hcases ⊢
    cases hcases with
    | idle =>
      cases σ with
      | returned result =>
        cases result with
        | error e => exact hsame rfl rfl
        | ok new => exact hsame rfl rfl
      | _ => exact hsame rfl rfl
    | @other _ σ' _ hsucceeded _ =>
      cases σ' with
      | returned result =>
        cases result with
        | error e => exact hsame rfl rfl
        | ok new => cases hsucceeded
      | _ => exact hsame rfl rfl
    | look => exact hsame rfl rfl
    | mint claims new => exact hsame rfl rfl
    | @revoke claims new pruneAfter hadd =>
      have hentry : entryOf (m.store.revoke claims.jti pruneAfter) (.minted claims new) =
          some ⟨claims.jti, pruneAfter⟩ := by
        simp [entryOf, Exchange.Stage.claims, RevocationStore.revoke]
      dsimp only
      rw [hentry]
      exact .revoke _ (e := ⟨claims.jti, pruneAfter⟩) (by simp [revokes, hadd])
  | saving answer => exact .copy answer
  | writing answer copy => exact .write answer copy
  | returned answer => exact .idle _

/-! ## The file -/

/-- The file has the token among its entries. -/
def Holds (file : ReadResult) (jti : String) : Prop :=
  ∃ text envelope entries, file = .contents text ∧ AuthCrates.fromStr text = .ok envelope ∧
    envelope.get "entries" = some entries ∧ (entries.get jti).isSome = true

theorem holds_saveToFile {store : RevocationStore} {saved : Instant} {ks : List String}
    (hks : ks.Perm store.revoked.keys) (jti : String) :
    Holds (.contents (store.saveToFile saved ks)) jti ↔ store.isRevoked jti = true := by
  have hread := fromStr_saveToFile store saved ks
  have hkeys : jti ∈ ks ↔ store.isRevoked jti = true := by
    rw [hks.mem_iff, Map.mem_keys, isRevoked, Option.isSome_iff_exists]
  have hmem : jti ∈ (fields (store.entries saved ks)).map Prod.fst ↔ jti ∈ ks := by
    rw [map_fst_fields, map_fst_entries hks]
  have hentry : ((json (fields (store.entries saved ks))).get jti).isSome = true ↔ jti ∈ ks := by
    rw [get_json, List.lookup_isSome_iff, ← hmem]
    simp
  constructor
  · rintro ⟨text, envelope, entries, htext, henvelope, hentries, hsome⟩
    cases htext
    rw [hread] at henvelope
    cases henvelope
    cases hentries
    exact hkeys.1 (hentry.1 hsome)
  · intro hrevoked
    exact ⟨_, _, _, rfl, hread, rfl, hentry.2 (hkeys.2 hrevoked)⟩

/-! ## Runs -/

/-- The deadline lies in the future. -/
def Live (s : Shared) (e : Entry) : Prop := s.clock.nanos < e.deadline.nanos

/-- What holds while no older copy replaces a newer one and no deadline is shortened. -/
structure Inv (s : Shared) : Prop where
  /-- What was revoked is in the store until its deadline. -/
  kept : ∀ i, ∀ e ∈ (s.stage i).entry, Live s e →
    ∃ deadline, s.memory.store.revoked[e.jti]? = some deadline ∧
      e.deadline.nanos ≤ deadline.nanos
  numbered : ∀ i, ∀ copy ∈ (s.stage i).copy, copy.number ≤ s.memory.copies
  /-- A copy has what was revoked before an older copy was made. -/
  copied : ∀ i j, ∀ e ∈ (s.stage i).entry, ∀ copy ∈ (s.stage i).copy, ∀ copy' ∈ (s.stage j).copy,
    copy.number ≤ copy'.number → Live s e → Holds (.contents copy'.text) e.jti
  /-- The file has what was revoked by the calls that have returned, and so has each copy that
      may replace it. -/
  saved : ∀ i, ∀ answer ∈ (s.stage i).answer, ∀ e ∈ answer.entry, Live s e →
    Holds s.memory.file e.jti ∧ ∀ j, ∀ copy ∈ (s.stage j).copy,
      s.memory.written ≤ copy.number → Holds (.contents copy.text) e.jti

theorem inv_start (store : RevocationStore) (file : ReadResult) (clock : Instant) :
    Inv (start store file clock) where
  kept i e he := by cases he
  numbered i copy hcopy := by cases hcopy
  copied i j e he := by cases he
  saved i answer hanswer := by cases hanswer

omit [AuthCrates] in
theorem mem_entry_of_answer {σ : Stage} {answer : Answer} (h : answer ∈ σ.answer) {e : Entry}
    (he : e ∈ answer.entry) : e ∈ σ.entry := by
  cases σ with
  | returned a =>
    cases h
    exact he
  | _ => cases h

/-- Time passes. -/
theorem Inv.later {s : Shared} (h : Inv s) {now : Instant} (hle : s.clock.nanos ≤ now.nanos) :
    Inv { s with clock := now } where
  kept i e he hlive := h.kept i e he (lt_of_le_of_lt hle hlive)
  numbered := h.numbered
  copied i j e he copy hcopy copy' hcopy' hnumber hlive :=
    h.copied i j e he copy hcopy copy' hcopy' hnumber (lt_of_le_of_lt hle hlive)
  saved i answer hanswer e he hlive := h.saved i answer hanswer e he (lt_of_le_of_lt hle hlive)

section

variable {s : Shared} {c : ℕ}

/-- A task that has nothing in hand, before the step or after it. -/
theorem inv_other (h : Inv s) {σ' : Stage} (hentry : σ'.entry = none) (hcopy : σ'.copy = none)
    {store : RevocationStore}
    (hstore : ∀ (jti : String) (deadline : Instant), s.memory.store.revoked[jti]? = some deadline →
      s.clock.nanos < deadline.nanos → store.revoked[jti]? = some deadline) :
    Inv ⟨{ s.memory with store := store }, Function.update s.stage c σ', s.clock⟩ := by
  have hent : ∀ {i e}, e ∈ (Function.update s.stage c σ' i).entry → e ∈ (s.stage i).entry := by
    intro i e he
    rcases of_update (P := fun σ : Stage => e ∈ σ.entry) he with ⟨-, he⟩ | ⟨-, he⟩
    · rw [hentry] at he
      cases he
    · exact he
  have hcop : ∀ {i copy}, copy ∈ (Function.update s.stage c σ' i).copy → copy ∈ (s.stage i).copy := by
    intro i copy hi
    rcases of_update (P := fun σ : Stage => copy ∈ σ.copy) hi with ⟨-, hi⟩ | ⟨-, hi⟩
    · rw [hcopy] at hi
      cases hi
    · exact hi
  constructor
  · intro i e he hlive
    obtain ⟨deadline, hjti, hle⟩ := h.kept i e (hent he) hlive
    exact ⟨deadline, hstore _ _ hjti (lt_of_lt_of_le hlive hle), hle⟩
  · intro i copy hi
    exact h.numbered i copy (hcop hi)
  · intro i j e he copy hi copy' hj
    exact h.copied i j e (hent he) copy (hcop hi) copy' (hcop hj)
  · intro i answer hi e he hlive
    rcases of_update (P := fun σ : Stage => answer ∈ σ.answer) hi with ⟨-, hi⟩ | ⟨-, hi⟩
    · have hnone := mem_entry_of_answer hi he
      rw [hentry] at hnone
      cases hnone
    · obtain ⟨hfile, hcopies⟩ := h.saved i answer hi e he hlive
      exact ⟨hfile, fun j copy hj => hcopies j copy (hcop hj)⟩

/-- The task revokes a token, which does not shorten its deadline. -/
theorem inv_revoke (h : Inv s) (response : Option (ℕ × Json)) {e : Entry}
    (hlonger : ∀ deadline ∈ s.memory.store.revoked[e.jti]?, deadline.nanos ≤ e.deadline.nanos) :
    Inv ⟨{ s.memory with store := s.memory.store.revoke e.jti e.deadline },
      Function.update s.stage c (.saving ⟨response, some e⟩), s.clock⟩ := by
  have hcop : ∀ {i copy}, copy ∈ (Function.update s.stage c (.saving ⟨response, some e⟩) i).copy →
      i ≠ c ∧ copy ∈ (s.stage i).copy := by
    intro i copy hi
    rcases of_update (P := fun σ : Stage => copy ∈ σ.copy) hi with ⟨-, hi⟩ | hi
    · cases hi
    · exact hi
  constructor
  · intro i e' he' hlive
    rcases of_update (P := fun σ : Stage => e' ∈ σ.entry) he' with ⟨-, he'⟩ | ⟨-, he'⟩
    · cases he'
      exact ⟨e.deadline, by simp [RevocationStore.revoke], le_rfl⟩
    · obtain ⟨deadline, hjti, hle⟩ := h.kept i e' he' hlive
      by_cases heq : e'.jti = e.jti
      · rw [heq] at hjti
        refine ⟨e.deadline, ?_, hle.trans (hlonger deadline hjti)⟩
        rw [heq]
        simp [RevocationStore.revoke]
      · refine ⟨deadline, ?_, hle⟩
        rwa [RevocationStore.revoke, Map.get?_insert, if_neg heq]
  · intro i copy hi
    exact h.numbered i copy (hcop hi).2
  · intro i j e' he' copy hi copy' hj
    obtain ⟨hne, hi⟩ := hcop hi
    have hi' : e' ∈ (s.stage i).entry := by
      rwa [← Function.update_of_ne hne (.saving ⟨response, some e⟩) s.stage]
    exact h.copied i j e' hi' copy hi copy' (hcop hj).2
  · intro i answer hi e' he' hlive
    rcases of_update (P := fun σ : Stage => answer ∈ σ.answer) hi with ⟨-, hi⟩ | ⟨-, hi⟩
    · cases hi
    · obtain ⟨hfile, hcopies⟩ := h.saved i answer hi e' he' hlive
      exact ⟨hfile, fun j copy hj => hcopies j copy (hcop hj).2⟩

/-- The task copies the map: the copy is newer than the others, and has all that they must
    have. -/
theorem inv_copy (h : Inv s) {answer : Answer} (hσ : s.stage c = .saving answer) (saved : Instant)
    (walk : Walk) :
    Inv ⟨{ s.memory with copies := s.memory.copies + 1 },
      Function.update s.stage c (.writing answer ⟨s.memory.copies + 1,
        s.memory.store.saveToFile saved (walk.order s.memory.store.revoked.keys)⟩), s.clock⟩ := by
  set new : Copy := ⟨s.memory.copies + 1,
    s.memory.store.saveToFile saved (walk.order s.memory.store.revoked.keys)⟩ with hnew
  have hent : ∀ {i e}, e ∈ (Function.update s.stage c (.writing answer new) i).entry →
      e ∈ (s.stage i).entry := by
    intro i e he
    rcases of_update (P := fun σ : Stage => e ∈ σ.entry) he with ⟨rfl, he'⟩ | ⟨-, he'⟩
    · rw [hσ]
      exact he'
    · exact he'
  have hcop : ∀ {i copy}, copy ∈ (Function.update s.stage c (.writing answer new) i).copy →
      copy = new ∨ copy ∈ (s.stage i).copy := by
    intro i copy hi
    rcases of_update (P := fun σ : Stage => copy ∈ σ.copy) hi with ⟨-, hi⟩ | ⟨-, hi⟩
    · exact Or.inl (Option.some.inj hi).symm
    · exact Or.inr hi
  have hholds : ∀ {i e}, e ∈ (s.stage i).entry → Live s e → Holds (.contents new.text) e.jti := by
    intro i e he hlive
    obtain ⟨deadline, hjti, -⟩ := h.kept i e he hlive
    refine (holds_saveToFile (walk.perm _) _).2 ?_
    rw [isRevoked, hjti]
    rfl
  constructor
  · intro i e he hlive
    exact h.kept i e (hent he) hlive
  · intro i copy hi
    rcases hcop hi with rfl | hi
    · exact le_rfl
    · exact (h.numbered i copy hi).trans (Nat.le_succ _)
  · intro i j e he copy hi copy' hj hle hlive
    rcases hcop hj with rfl | hj
    · exact hholds (hent he) hlive
    · rcases hcop hi with rfl | hi
      · have hlt := h.numbered j copy' hj
        simp only [hnew] at hle
        omega
      · exact h.copied i j e (hent he) copy hi copy' hj hle hlive
  · intro i answer' hi e he hlive
    rcases of_update (P := fun σ : Stage => answer' ∈ σ.answer) hi with ⟨-, hi⟩ | ⟨-, hi⟩
    · cases hi
    · obtain ⟨hfile, hcopies⟩ := h.saved i answer' hi e he hlive
      refine ⟨hfile, fun j copy hj hle => ?_⟩
      rcases hcop hj with rfl | hj
      · exact hholds (mem_entry_of_answer hi he) hlive
      · exact hcopies j copy hj hle

/-- The task replaces the file by its copy, which is not older than the one in the file. -/
theorem inv_write (h : Inv s) {answer : Answer} {copy : Copy}
    (hσ : s.stage c = .writing answer copy) (hnewest : s.memory.written ≤ copy.number) :
    Inv ⟨{ s.memory with file := .contents copy.text, written := copy.number },
      Function.update s.stage c (.returned answer), s.clock⟩ := by
  have hmem : copy ∈ (s.stage c).copy := by
    rw [hσ]
    rfl
  have hent : ∀ {i e}, e ∈ (Function.update s.stage c (.returned answer) i).entry →
      e ∈ (s.stage i).entry := by
    intro i e he
    rcases of_update (P := fun σ : Stage => e ∈ σ.entry) he with ⟨rfl, he'⟩ | ⟨-, he'⟩
    · rw [hσ]
      exact he'
    · exact he'
  have hcop : ∀ {i copy'}, copy' ∈ (Function.update s.stage c (.returned answer) i).copy →
      copy' ∈ (s.stage i).copy := by
    intro i copy' hi
    rcases of_update (P := fun σ : Stage => copy' ∈ σ.copy) hi with ⟨-, hi⟩ | ⟨-, hi⟩
    · cases hi
    · exact hi
  constructor
  · intro i e he hlive
    exact h.kept i e (hent he) hlive
  · intro i copy' hi
    exact h.numbered i copy' (hcop hi)
  · intro i j e he copy₁ hi copy₂ hj
    exact h.copied i j e (hent he) copy₁ (hcop hi) copy₂ (hcop hj)
  · intro i answer' hi e he hlive
    rcases of_update (P := fun σ : Stage => answer' ∈ σ.answer) hi with ⟨rfl, hi'⟩ | ⟨-, hi'⟩
    · cases hi'
      have he' : e ∈ (s.stage i).entry := by
        rw [hσ]
        exact he
      exact ⟨h.copied i i e he' copy hmem copy hmem le_rfl hlive, fun j copy' hj hle =>
        h.copied i j e he' copy hmem copy' (hcop hj) hle hlive⟩
    · obtain ⟨-, hcopies⟩ := h.saved i answer' hi' e he hlive
      exact ⟨hcopies c copy hmem hnewest, fun j copy' hj hle =>
        hcopies j copy' (hcop hj) (hnewest.trans hle)⟩

end

/-- **One step keeps the invariant**, if it is in order. -/
theorem inv_step {s : Shared} {t : Turn} (h : Inv s) (ht : SavesInOrder x s t) :
    Inv (step x s t) := by
  have hcases := advance_cases (x := x) s.memory t (s.stage t.task)
  have hnewest := ht.newest
  have hlonger := ht.longer
  have hlater := h.later ht.time
  unfold step
  generalize advance x s.memory t (s.stage t.task) = r at hcases ⊢
  generalize hσ : s.stage t.task = σ at hcases hnewest hlonger
  cases hcases with
  | idle =>
    dsimp only
    rw [← hσ, Function.update_eq_self]
    exact hlater
  | other hentry hcopy hstore =>
    refine inv_other hlater hentry hcopy fun jti deadline hjti hlive => ?_
    rcases hstore with rfl | rfl
    · exact hjti
    · rw [prune, Std.ExtTreeMap.getElem?_filter', hjti]
      simpa using hlive
  | revoke response he => exact inv_revoke hlater response (hlonger _ he)
  | copy answer => exact inv_copy hlater hσ _ _
  | write answer copy => exact inv_write hlater hσ (hnewest copy rfl)

end

end Saving

open Saving

/-- **No acknowledged revocation is lost from the file**, in every run in which no older copy
    replaces a newer one and no deadline is shortened. -/
theorem acknowledged_in_file [AuthCrates] (x : Tasks) (store : RevocationStore) (file : ReadResult)
    (clock : Instant) (ts : List Turn)
    (h : Along (step x) (SavesInOrder x) (start store file clock) ts)
    (i : ℕ) (e : Entry)
    (hi : ((after (step x) (start store file clock) ts).stage i).acknowledged = some e)
    (hlive : Live (after (step x) (start store file clock) ts) e) :
    Holds (after (step x) (start store file clock) ts).memory.file e.jti := by
  have hinv := h.keeps (fun _ _ hs ht => inv_step hs ht) (inv_start store file clock)
  obtain ⟨answer, hanswer, he⟩ := Option.bind_eq_some_iff.1 hi
  split_ifs at he
  exact (hinv.saved i answer hanswer e he hlive).1

namespace Saving

/-- The root user revokes two tokens. -/
def twoCalls : Tasks := ⟨false, fun i => .revoke root (if i = 0 then "a" else "b") (.obj [])⟩

theorem minute_fits : 60 < 2 ^ 63 := by decide

theorem epoch_fits : 0 < 2 ^ 63 := by decide

def turn (i : ℕ) : Turn := ⟨i, .ofSecs 60 minute_fits, .plain⟩

def atStart : Shared := start .new .notFound (.ofSecs 0 epoch_fits)

/-- Until when they are revoked. -/
def nextDay : Instant := .ofSecs 86460 (by decide)

/-- The copies replace the file in the order in which they are made. -/
def inOrder : List Turn := [turn 0, turn 1, turn 0, turn 1, turn 0, turn 1]

/-- The first copy replaces the second one. -/
def outOfOrder : List Turn := [turn 0, turn 0, turn 1, turn 1, turn 1, turn 0]

theorem along_inOrder :
    letI := AuthCrates.plain
    Along (step twoCalls) (SavesInOrder twoCalls) atStart inOrder := by
  let _ := AuthCrates.plain
  decide +kernel

/-- The task has not begun, or has returned. -/
def Stage.atRest : Stage → Bool
  | arrived => true
  | returned _ => true
  | _ => false

theorem stage_after_of_ne [AuthCrates] {x : Tasks} {s : Shared} {ts : List Turn} {i : ℕ}
    (h : ∀ t ∈ ts, t.task ≠ i) : (after (step x) s ts).stage i = s.stage i := by
  induction ts generalizing s with
  | nil => rfl
  | cons t ts ih =>
    rw [List.forall_mem_cons] at h
    have hstep : (step x s t).stage i = s.stage i := Function.update_of_ne h.1.symm ..
    exact (ih (s := step x s t) h.2).trans hstep

theorem live_inOrder [AuthCrates] :
    Live (after (step twoCalls) atStart inOrder) ⟨"a", nextDay⟩ :=
  show (Instant.ofSecs 60 (by decide)).nanos < nextDay.nanos by decide

/-- The copy that is left in the file was made before the second token was revoked. -/
theorem file_outOfOrder [AuthCrates] : (after (step twoCalls) atStart outOfOrder).memory.file =
    .contents ((new.revoke "a" nextDay).saveToFile (.ofSecs 60 (by decide))
      (Walk.plain.order (new.revoke "a" nextDay).revoked.keys)) := by
  have hadmin : root.isAdmin = true := by decide
  have hafter : Revocations.pruneAfter (.ofSecs 60 (by decide)) (.obj []) = some nextDay := by
    decide +kernel
  simp [after, outOfOrder, step, advance, twoCalls, turn, atStart, start, hadmin, hafter]

theorem atRest_outOfOrder [AuthCrates] (i : ℕ) :
    ((after (step twoCalls) atStart outOfOrder).stage i).atRest = true := by
  have hadmin : root.isAdmin = true := by decide
  have hafter : Revocations.pruneAfter (.ofSecs 60 (by decide)) (.obj []) = some nextDay := by
    decide +kernel
  rcases i with _ | _ | i
  · simp [after, outOfOrder, step, advance, twoCalls, turn, atStart, start, hadmin, hafter,
      Stage.atRest]
  · simp [after, outOfOrder, step, advance, twoCalls, turn, atStart, start, hadmin, hafter,
      Stage.atRest]
  · have hidle : (after (step twoCalls) atStart outOfOrder).stage (i + 2) = .arrived :=
      stage_after_of_ne (by simp [outOfOrder, turn])
    rw [hidle]
    rfl

end Saving

/-- Two revocations whose copies replace the file in order. -/
theorem acknowledged_in_file_inOrder :
    letI := AuthCrates.plain
    Holds (after (step twoCalls) atStart inOrder).memory.file "a" :=
  @acknowledged_in_file AuthCrates.plain twoCalls .new .notFound _ inOrder along_inOrder 0
    ⟨"a", nextDay⟩ (by decide +kernel) (@live_inOrder AuthCrates.plain)

/-- An acknowledged revocation is not in the file once all calls have returned. -/
theorem acknowledged_not_in_file :
    letI := AuthCrates.plain
    ¬ ∀ (x : Tasks) (store : RevocationStore) (file : ReadResult) (clock : Instant)
      (ts : List Turn) (i : ℕ) (e : Entry),
      Along (step x) (fun s t => s.clock.nanos ≤ t.now.nanos) (start store file clock) ts →
      (∀ j, ((after (step x) (start store file clock) ts).stage j).atRest = true) →
      ((after (step x) (start store file clock) ts).stage i).acknowledged = some e →
      Live (after (step x) (start store file clock) ts) e →
      Holds (after (step x) (start store file clock) ts).memory.file e.jti := by
  let _ := AuthCrates.plain
  intro h
  have hholds := h twoCalls .new .notFound (.ofSecs 0 (by decide)) outOfOrder 1 ⟨"b", nextDay⟩
    (by decide +kernel) atRest_outOfOrder (by decide +kernel)
    (show (Instant.ofSecs 60 (by decide)).nanos < nextDay.nanos by decide)
  have hfile := file_outOfOrder
  unfold atStart at hfile
  rw [hfile, holds_saveToFile (Walk.plain.perm _)] at hholds
  exact absurd hholds (by decide +kernel)

end MoltenDB
