/-
  Restarts of collections with a TTL.

  Every insert batch logs a new expiry time.  Replay compares each of them with
  the time of the restart, also those that a later batch has superseded, and
  evicts what was logged before one that has passed (`rebuilds_iff_refreshed`).
-/
import MoltenDB.Proof.Durability

namespace MoltenDB

open Wire Prog Prog.Eff LogCommand Relation

/-- The entry records an expiry of `c` that has passed at `now`. -/
def LogEntry.Lapsed (now : UInt64) (c : String) (e : LogEntry) : Prop :=
  e.collection = c ∧ ∃ t, e.expiresAt = some t ∧ t ≤ now

/-- The entry inserts the document `k` of `c`. -/
def LogEntry.Inserts (c k : String) (e : LogEntry) : Prop :=
  e.cmd = IKEY_INSERT ∧ e.collection = c ∧ e.key = k

/-- Each passed expiry of `c` in the log is followed by an insert of the document `k`. -/
def Refreshed (now : UInt64) (log : List LogEntry) (c k : String) : Prop :=
  ∀ A e B, log = A ++ e :: B → e.Lapsed now c → ∃ e' ∈ B, e'.Inserts c k

theorem refreshed_nil (now : UInt64) (c k : String) : Refreshed now [] c k := by
  intro A e B h
  simp at h

/-- An entry other than a passed expiry leaves the matter as it was, or settles it. -/
theorem refreshed_append {now : UInt64} {log : List LogEntry} {e : LogEntry} {c k : String}
    (h : ¬ e.Lapsed now c) :
    Refreshed now (log ++ [e]) c k ↔ e.Inserts c k ∨ Refreshed now log c k := by
  constructor
  · intro hr
    by_cases hi : e.Inserts c k
    · exact Or.inl hi
    · refine Or.inr fun A e₁ B heq hl => ?_
      obtain ⟨e', he', hins⟩ := hr A e₁ (B ++ [e]) (by rw [heq]; simp) hl
      rcases List.mem_append.1 he' with he' | he'
      · exact ⟨e', he', hins⟩
      · rw [List.mem_singleton.1 he'] at hins; exact absurd hins hi
  · intro hr A e₁ B heq hl
    rcases List.eq_nil_or_concat B with rfl | ⟨B', b, rfl⟩
    · obtain ⟨-, h2⟩ := List.append_inj' heq (by simp)
      simp only [List.cons.injEq, and_true] at h2
      exact absurd (h2 ▸ hl) h
    · rw [List.concat_eq_append] at heq ⊢
      rw [show A ++ e₁ :: (B' ++ [b]) = (A ++ e₁ :: B') ++ [b] by simp] at heq
      obtain ⟨h1, h2⟩ := List.append_inj' heq (by simp)
      simp only [List.cons.injEq, and_true] at h2
      subst h2
      rcases hr with hi | hr
      · exact ⟨e, by simp, hi⟩
      · obtain ⟨e', he', hins⟩ := hr A e₁ B' h1 hl
        exact ⟨e', by simp [he'], hins⟩

theorem not_refreshed_append {now : UInt64} {log : List LogEntry} {e : LogEntry} {c k : String}
    (h : e.Lapsed now c) : ¬ Refreshed now (log ++ [e]) c k := by
  intro hr
  obtain ⟨e', he', -⟩ := hr log e [] rfl h
  simp at he'

/-! ### Single entries and their decoded forms -/

theorem LogEntry.Lapsed.cmd {now : UInt64} {e : LogEntry} {c : String} (h : e.Lapsed now c) :
    e.cmd = "TTL_EXPIRY" := by
  obtain ⟨-, t, ht, -⟩ := h
  unfold LogEntry.expiresAt at ht
  split_ifs at ht with hc
  exact hc

section

variable {e : LogEntry} (he : e.canon.cmd = e.cmd)

include he

theorem lapsed_canon_iff (now : UInt64) (c : String) : e.canon.Lapsed now c ↔ e.Lapsed now c := by
  simp only [LogEntry.Lapsed, LogEntry.expiresAt, he]
  exact Iff.rfl

theorem inserts_canon_iff (c k : String) : e.canon.Inserts c k ↔ e.Inserts c k := by
  simp only [LogEntry.Inserts, he]
  exact Iff.rfl

/-- A transaction marker writes nothing. -/
theorem ops_of_marker (hm : e.cmd = IKEY_TX_BEGIN ∨ e.cmd = IKEY_TX_COMMIT) :
    Journal.ops [e.canon.toRec] = [] := by
  rcases hm with hm | hm <;> simp [LogEntry.toRec, he, hm, Journal.ops,
    show IKEY_TX_COMMIT ≠ IKEY_TX_BEGIN by decide]

theorem ops_of_not_marker (hm : ¬ (e.cmd = IKEY_TX_BEGIN ∨ e.cmd = IKEY_TX_COMMIT)) :
    Journal.ops [e.canon.toRec] = [e.canon] := by
  rw [not_or] at hm
  simp [LogEntry.toRec, he, hm.1, hm.2, Journal.ops]

end

theorem not_lapsed_of_marker {now : UInt64} {e : LogEntry} {c : String}
    (hm : e.cmd = IKEY_TX_BEGIN ∨ e.cmd = IKEY_TX_COMMIT) : ¬ e.Lapsed now c := by
  intro hl
  rcases hm with hm | hm <;> rw [hl.cmd] at hm <;> exact absurd hm (by decide)

theorem not_inserts_of_marker {e : LogEntry} {c k : String}
    (hm : e.cmd = IKEY_TX_BEGIN ∨ e.cmd = IKEY_TX_COMMIT) : ¬ e.Inserts c k := by
  intro hi
  rcases hm with hm | hm <;> rw [hi.1] at hm <;> exact absurd hm (by decide)

variable [Crates]

/-- What the log last wrote into a document, at a restart at `now`. -/
def rebuiltDoc (now : UInt64) (log : List LogEntry) (c k : String) : Held :=
  Overwrite.replay (LogEntry.writes now) (fun _ => none) (logOps log) (.doc c k)

/-- What the log last wrote into a document, expiries aside. -/
def loggedDoc (log : List LogEntry) (c k : String) : Held :=
  Overwrite.replay LogEntry.docWrites (fun _ => none) (logOps log) (.doc c k)

/-! ### What single entries write into a document -/

theorem writes_of_inserts {now : UInt64} {e : LogEntry} {c k : String} (h : e.Inserts c k) :
    e.writes now (.doc c k) = some (some (some e.value.canon)) := by
  obtain ⟨h1, rfl, rfl⟩ := h
  simp [LogEntry.writes, LogEntry.change, h1, Change.writes]

theorem inserts_of_writes {now : UInt64} {e : LogEntry} {c k : String} {v : Option Json}
    (h : e.writes now (.doc c k) = some (some v)) : e.Inserts c k := by
  obtain ⟨hcmd, hc, hk, -⟩ := LogEntry.doc_of_writes now h
  exact ⟨hcmd, hc, hk⟩

theorem change_of_expiry {now : UInt64} {e : LogEntry} (h : e.cmd = "TTL_EXPIRY") :
    e.change now = e.expiresAt.map fun t =>
      if now < t then .expiry e.collection t else .drop e.collection := by
  simp [LogEntry.change, h, show ("TTL_EXPIRY" : String) ≠ IKEY_INSERT by decide,
    show ("TTL_EXPIRY" : String) ≠ IKEY_DELETE by decide,
    show ("TTL_EXPIRY" : String) ≠ IKEY_DROP by decide]

theorem writes_of_lapsed {now : UInt64} {e : LogEntry} {c : String} (h : e.Lapsed now c)
    (k : String) : e.writes now (.doc c k) = some none := by
  obtain ⟨rfl, t, ht, hle⟩ := id h
  have hlt : ¬ now < t := fun hlt => absurd (UInt64.lt_of_lt_of_le hlt hle) (UInt64.lt_irrefl _)
  simp [LogEntry.writes, change_of_expiry h.cmd, ht, hlt, Change.writes]

/-- An expiry that has not passed writes no document. -/
theorem writes_of_not_lapsed {now : UInt64} {e : LogEntry} {c : String}
    (hcmd : e.cmd = "TTL_EXPIRY") (h : ¬ e.Lapsed now c) (k : String) :
    e.writes now (.doc c k) = none := by
  rw [LogEntry.writes, change_of_expiry hcmd]
  cases ht : e.expiresAt with
  | none => rfl
  | some t =>
    by_cases hlt : now < t
    · simp [hlt, Change.writes]
    · have hc : c ≠ e.collection := fun hc => h ⟨hc.symm, t, ht, UInt64.not_lt.1 hlt⟩
      simp [hlt, Change.writes, hc]

/-! ### The log as a whole -/

/-- What inserts a document writes it. -/
theorem not_inserts_of_docWrites {e : LogEntry} (he : e.canon.cmd = e.cmd) {c k : String}
    (ht : e.cmd ≠ "TTL_EXPIRY")
    (hw : e.canon.docWrites (.doc c k) = none) : ¬ e.Inserts c k := by
  intro hi
  have hput : e.canon.writes 0 (.doc c k) = _ := writes_of_inserts ((inserts_canon_iff he c k).2 hi)
  rw [LogEntry.writes_doc 0 (by rw [he]; exact ht), hw] at hput
  cases hput

/-- **A restart brings a document back exactly if it was refreshed** after each passed
    expiry, or is not held. -/
theorem rebuiltDoc_eq_iff (now : UInt64) {log : List LogEntry}
    (hcmd : ∀ e ∈ log, canon e.cmd = e.cmd) (c k : String) :
    rebuiltDoc now log c k = loggedDoc log c k ↔
      (loggedDoc log c k ≠ none → Refreshed now log c k) := by
  induction log using List.reverseRecOn with
  | nil => simp [rebuiltDoc, loggedDoc, logOps, Journal.ops, Overwrite.replay, refreshed_nil]
  | append_singleton log e ih =>
    have ih' := ih fun e' he' => hcmd e' (List.mem_append_left _ he')
    have he : e.canon.cmd = e.cmd := hcmd e (by simp)
    simp only [rebuiltDoc, loggedDoc, logOps_append] at ih' ⊢
    by_cases hm : e.cmd = IKEY_TX_BEGIN ∨ e.cmd = IKEY_TX_COMMIT
    · rw [ops_of_marker he hm, List.append_nil, ih', refreshed_append (not_lapsed_of_marker hm)]
      simp [not_inserts_of_marker hm]
    · rw [ops_of_not_marker he hm, Overwrite.replay_append_singleton,
        Overwrite.replay_append_singleton]
      by_cases hl : e.Lapsed now c
      · -- a passed expiry evicts, and what is held is not refreshed
        have hdoc : e.canon.docWrites (.doc c k) = none := by
          rw [LogEntry.docWrites, if_pos (by rw [he]; exact hl.cmd)]
        rw [writes_of_lapsed ((lapsed_canon_iff he now c).2 hl), hdoc, Option.getD_some,
          Option.getD_none]
        constructor
        · intro h1 h2
          exact absurd h1.symm h2
        · intro h1
          by_contra h2
          exact not_refreshed_append hl (h1 (Ne.symm h2))
      · rw [refreshed_append hl]
        by_cases ht : e.cmd = "TTL_EXPIRY"
        · have hni : ¬ e.Inserts c k := by
            intro hi
            rw [hi.1] at ht
            exact absurd ht (by decide)
          have hnl : ¬ e.canon.Lapsed now c := fun h => hl ((lapsed_canon_iff he now c).1 h)
          rw [writes_of_not_lapsed (by rw [he]; exact ht) hnl, LogEntry.docWrites,
            if_pos (by rw [he]; exact ht), Option.getD_none, Option.getD_none, ih']
          simp [hni]
        · rw [LogEntry.writes_doc now (by rw [he]; exact ht)]
          cases hw : e.canon.docWrites (.doc c k) with
          | none =>
            rw [Option.getD_none, Option.getD_none, ih']
            simp [not_inserts_of_docWrites he ht hw]
          | some held =>
            cases held with
            | none => simp
            | some v =>
              rw [← LogEntry.writes_doc now (by rw [he]; exact ht)] at hw
              simp [(inserts_canon_iff he c k).1 (inserts_of_writes hw)]

/-! ### Runs of batches -/

/-- An empty database in which the collection `c` has a default TTL. -/
structure Db.FreshTtl (db : Db) (c : String) (secs : UInt64) : Prop where
  state : db.state = ∅
  log : db.log = []
  failedWrites : db.failedWrites = 0
  ttlDefault : db.ttlDefaults[c]? = some secs
  ttlExpiry : db.ttlExpiry = ∅

/-- The collection `c` has a default TTL, and commands are logged in their form in memory. -/
structure Db.HasTtl (db : Db) (c : String) (secs : UInt64) : Prop where
  ttlDefault : db.ttlDefaults[c]? = some secs
  cmds : ∀ e ∈ db.log, canon e.cmd = e.cmd

/-- The expiry of `c` in memory is the last entry of the log. -/
def Db.LogsExpiry (db : Db) (c : String) : Prop :=
  db.Clean → ∀ t, db.ttlExpiry[c]? = some t →
    ∃ L s, db.log = L ++ [⟨"TTL_EXPIRY", c, Decimal.print t.toNat, .null, s⟩]

omit [Crates] in
theorem Db.HasTtl.moves {db db' : Db} {c c' : String} {secs : UInt64} (h : db.HasTtl c secs)
    (hm : Moves c' db db') : db'.HasTtl c secs := by
  induction hm with
  | refl => exact h
  | tail _ hstep ih =>
    cases hstep with
    | log e hc hcmd =>
      refine ⟨ih.ttlDefault, fun e' he' => ?_⟩
      rcases List.mem_append.1 he' with he' | he'
      · exact ih.cmds e' he'
      · rw [List.mem_singleton.1 he']
        have : ∀ cmd ∈ writeCmds, canon cmd = cmd := by decide
        exact this _ hcmd
    | _ => exact ⟨ih.ttlDefault, ih.cmds⟩

omit [Crates] in
theorem Within.wp_hasTtl {α : Type} {c c' : String} {m : Op α} (hm : Within c' m) {db : Db}
    {secs : UInt64} (h : db.HasTtl c secs) :
    wp m (fun _ db' => db'.HasTtl c secs) (fun _ db' => db'.HasTtl c secs) db :=
  wp_mono (hm db) (fun _ _ hm => h.moves hm) (fun _ _ hm => h.moves hm)

omit [Crates] in
theorem Db.HasTtl.wp_evictExpired {db : Db} {c : String} {secs : UInt64} (h : db.HasTtl c secs) :
    wp (Db.evictExpired c) (fun _ db' => db'.HasTtl c secs) (fun _ _ => True) db := by
  simp only [Db.evictExpired, wp_bind, wp_get]
  split
  · exact h
  · simp only [wp_bind]
    refine wp_nowMs fun now n => ?_
    have h' : Db.HasTtl { db with tick := n } c secs := ⟨h.ttlDefault, h.cmds⟩
    split_ifs
    · simp only [wp_bind, wp_outcome, wp_modify]
      have hdel : Within c (Operations.deleteCollection c) := within_deleteCollection
      exact wp_mono (hdel.wp_hasTtl h') (fun _ _ h => ⟨h.ttlDefault, h.cmds⟩)
        (fun _ _ h => ⟨h.ttlDefault, h.cmds⟩)
    · exact h'

theorem Db.HasTtl.wp_evictOverflow {db : Db} {c : String} {secs : UInt64} (h : db.HasTtl c secs) :
    wp (Db.evictOverflow c) (fun _ db' => db'.HasTtl c secs) (fun _ _ => True) db := by
  simp only [Db.evictOverflow, wp_bind, wp_get]
  split
  · exact h
  · split_ifs
    · exact wp_mono ((withinDocs_evictOldest _).within.wp_hasTtl h) (fun _ _ h => h)
        (fun _ _ _ => trivial)
    · exact h

omit [Crates] in
/-- Resetting the expiry of a collection logs it. -/
theorem Db.HasTtl.wp_resetExpiry {db : Db} {c : String} {secs : UInt64} (h : db.HasTtl c secs) :
    wp (Db.resetExpiry c) (fun _ db' => db'.HasTtl c secs ∧ db'.LogsExpiry c) (fun _ _ => True)
      db := by
  simp only [Db.resetExpiry, wp_bind, wp_get, h.ttlDefault, wp_modify, wp_outcome, wp_send]
  refine wp_nowMs fun now n => ?_
  refine wp_writeNew (fun s m => ?_) (fun err m => ?_)
  · refine ⟨⟨h.ttlDefault, fun e he => ?_⟩, fun _ t ht => ?_⟩
    · rcases List.mem_append.1 he with he | he
      · exact h.cmds e he
      · rw [List.mem_singleton.1 he]; rfl
    · simp only [Map.get?_insert, if_true, Option.some.injEq] at ht
      exact ⟨db.log, s, by rw [ht]⟩
  · exact ⟨⟨h.ttlDefault, h.cmds⟩, fun hc => absurd hc.1 (Nat.succ_ne_zero _)⟩

/-- Each batch leaves its expiry as the last entry of the log. -/
theorem Db.HasTtl.wp_dbInsert {db : Db} {c : String} {secs : UInt64} (h : db.HasTtl c secs)
    (items : List (String × Json)) :
    wp (Db.insert c items) (fun _ db' => db'.HasTtl c secs ∧ db'.LogsExpiry c) (fun _ _ => True)
      db := by
  simp only [Db.insert, wp_bind]
  refine wp_checkFault (fun _ => ?_) (fun _ => trivial)
  refine wp_mono h.wp_evictExpired (fun _ db₁ h₁ => ?_) (fun _ _ _ => trivial)
  refine wp_mono ((withinDocs_insert items).within.wp_hasTtl h₁) (fun _ db₂ h₂ => ?_)
    (fun _ _ _ => trivial)
  refine wp_mono h₂.wp_evictOverflow (fun _ db₃ h₃ => ?_) (fun _ _ _ => trivial)
  exact h₃.wp_resetExpiry

theorem Call.Runs.logsExpiry {db db' : Db} {c : String} {secs : UInt64}
    {batches : List (List (String × Json))} (hrun : Call.Runs db (batches.map (.insert c)) db')
    (hfresh : db.FreshTtl c secs) : db'.HasTtl c secs ∧ db'.LogsExpiry c := by
  refine hrun.keeps (P := fun db => db.HasTtl c secs ∧ db.LogsExpiry c) ?_ ?_
  · intro call hcall db h
    obtain ⟨items, -, rfl⟩ := List.mem_map.1 hcall
    exact wp_mono (h.1.wp_dbInsert items) (fun _ _ h => h)
      (fun _ _ _ hacc => by simpa using Call.accepts_error hacc)
  · refine ⟨⟨hfresh.ttlDefault, by simp [hfresh.log]⟩, fun _ t ht => ?_⟩
    rw [hfresh.ttlExpiry, Map.get?_empty] at ht
    cases ht

/-- **A restart before the expiry keeps a TTL collection exactly if each document held was
    refreshed** after each logged expiry of the collection that has passed: after any run
    of batches from an empty database in which no write failed and all lengths fit. -/
theorem restart_keeps_ttl_iff {db db' : Db} {c : String} {secs : UInt64}
    {batches : List (List (String × Json))} (hfresh : db.FreshTtl c secs)
    (hrun : Call.Runs db (batches.map (.insert c)) db') (hclean : db'.Clean) {t now : UInt64}
    (hexp : db'.ttlExpiry[c]? = some t) (hnow : now < t) :
    ((∀ k, ((rebuild now (deliver db'.log)).state.bytes c k).map msgpackToValue =
          (db'.state.bytes c k).map msgpackToValue) ∧
        (rebuild now (deliver db'.log)).ttlExpiry[c]? = some t) ↔
      ∀ k, db'.state.bytes c k ≠ none → Refreshed now db'.log c k := by
  have hidle := hrun.idle (Db.idle_of_empty hfresh.state hfresh.log)
  obtain ⟨httl, hlogs⟩ := hrun.logsExpiry hfresh
  have hview := hidle.view_rebuild hclean now
  have hdoc : ∀ k, ((rebuild now (deliver db'.log)).state.bytes c k).map msgpackToValue =
      rebuiltDoc now db'.log c k := fun k => congrFun hview (.doc c k)
  have hmem : ∀ k, (db'.state.bytes c k).map msgpackToValue = loggedDoc db'.log c k :=
    fun k => (hidle hclean).2.2 c k
  have hheld : ∀ k, loggedDoc db'.log c k ≠ none ↔ db'.state.bytes c k ≠ none := by
    intro k
    rw [← hmem k]
    simp
  have hlast : (rebuild now (deliver db'.log)).ttlExpiry[c]? = some t := by
    obtain ⟨L, s, hL⟩ := hlogs hclean t hexp
    have hreg := congrFun hview (.expiry c)
    have hcan : ∀ s, (LogEntry.mk "TTL_EXPIRY" c (Decimal.print t.toNat) .null s).canon.writes now
        (.expiry c) = some (some (some (.ofU64 t))) := by
      intro s
      have hparse : parseU64 (Decimal.print t.toNat) = some t := by
        rw [parseU64, Decimal.parse_print t.toNat_lt]
        simp
      rw [LogEntry.writes, change_of_expiry (by rfl), LogEntry.expiresAt, if_pos (by rfl)]
      simp [LogEntry.canon, hparse, hnow, Change.writes]
    rw [hL, logOps_append, toRec_canon_op (by decide), Journal.ops, Journal.ops,
      Overwrite.replay_append_singleton, hcan, ← hL] at hreg
    simp only [Recovered.view, Option.getD_some] at hreg
    obtain ⟨t', ht', heq⟩ := Option.map_eq_some_iff.1 hreg
    rw [ht']
    simpa [Json.ofU64] using heq
  simp only [hlast, and_true]
  refine forall_congr' fun k => ?_
  rw [hdoc k, hmem k, rebuiltDoc_eq_iff now httl.cmds c k, hheld k]

/-! ### Two batches -/

/-- An empty database in which the collection `c` lives for a second. -/
def ttlDb : Db :=
  { Db.blank (World.plain 1000 []) 0 with ttlDefaults := (∅ : DashMap UInt64).insert "c" 1 }

/-- The document `a` is inserted, then the document `b`. -/
def twoBatches : List (List (String × Json)) := [[("a", .obj [])], [("b", .obj [])]]

/-- The database after the two batches. -/
def ttlRun : Db :=
  (@Db.insert Crates.plain "c" [("b", .obj [])]
    (@Db.insert Crates.plain "c" [("a", .obj [])] ttlDb).2).2

omit [Crates] in
theorem ttlDb_fresh : ttlDb.FreshTtl "c" 1 := ⟨rfl, rfl, rfl, by decide, rfl⟩

omit [Crates] in
theorem ttlRun_runs : @Call.Runs Crates.plain ttlDb (twoBatches.map (.insert "c")) ttlRun :=
  @Call.Runs.cons Crates.plain _ _ (.insert "c" [("a", .obj [])]) [.insert "c" [("b", .obj [])]]
    (by decide +kernel) (@Call.Runs.cons Crates.plain _ _ (.insert "c" [("b", .obj [])]) []
      (by decide +kernel) (@Call.Runs.nil Crates.plain _))

omit [Crates] in
theorem restart_keeps_ttl_iff_two :
    ((∀ k, ((@rebuild Crates.plain 2012 (@deliver Crates.plain ttlRun.log)).state.bytes "c" k).map
            msgpackToValue = (ttlRun.state.bytes "c" k).map msgpackToValue) ∧
        (@rebuild Crates.plain 2012 (@deliver Crates.plain ttlRun.log)).ttlExpiry["c"]? =
          some 2020) ↔
      ∀ k, ttlRun.state.bytes "c" k ≠ none → Refreshed 2012 ttlRun.log "c" k :=
  @restart_keeps_ttl_iff Crates.plain ttlDb ttlRun "c" 1 twoBatches ttlDb_fresh ttlRun_runs
    (by decide +kernel) 2020 2012 (by decide +kernel) (by decide)

omit [Crates] in
/-- **A superseded expiry evicts live documents.** The collection lives until 2020, but a
    restart at 2012 loses the document of the first batch, whose expiry was 2008. -/
theorem superseded_expiry_evicts :
    ∃ (db db' : Db) (batches : List (List (String × Json))) (t now : UInt64),
      db.FreshTtl "c" 1 ∧ @Call.Runs Crates.plain db (batches.map (.insert "c")) db' ∧
        db'.Clean ∧ db'.ttlExpiry["c"]? = some t ∧ now < t ∧
        (db'.state.bytes "c" "a").isSome ∧
        (@rebuild Crates.plain now (@deliver Crates.plain db'.log)).state.bytes "c" "a" = none :=
  ⟨ttlDb, ttlRun, twoBatches, 2020, 2012, ttlDb_fresh, ttlRun_runs, by decide +kernel,
    by decide +kernel, by decide, by decide +kernel, by decide +kernel⟩

end MoltenDB
