/-
  What the TTL sweep drops.

  The sweep looks an expiry up and drops the collection in a later step, and it also drops
  a collection that has no expiry.  What it drops is expired in every run in which a check
  finds an expiry and nothing changes that expiry until the drop (`sweep_drops_expired`).
-/
import MoltenDB.Server.Sweep
import MoltenDB.Engine.Moves

namespace MoltenDB.Sweep

open Wire Prog Prog.Eff Relation

/-! ## The calls by themselves -/

/-- A call goes on by itself, while time passes. -/
inductive Solo : Shared × Task → Shared × Task → Prop
  | tick (s : Shared) (t : Task) (now : UInt64) : Solo (s, t) ({ s with clock := now }, t)
  | step (s : Shared) (t : Task) (ok : Bool) (events : List Json) : Solo (s, t) (t.step s ok events)

/-- What a call shares of a database; the sweep receives nothing. -/
def shared (db : Db) (clock : UInt64) : Shared := ⟨db.ttlDefaults, db.ttlExpiry, clock, db.events⟩

/-- The call, started on `db`, may end on `db'`. -/
def Ends (call : Call) (db db' : Db) : Prop :=
  ∀ clock, ∃ clock', ReflTransGen Solo (shared db clock, call.start) (shared db' clock', .idle)

/-- The operations on documents send events and leave the TTL maps alone. -/
theorem shared_of_moves {c : String} {db db' : Db} (h : Moves c db db') (clock : UInt64) :
    ∃ events, shared db' clock = { shared db clock with inbox := db.events ++ events } := by
  induction h with
  | refl => exact ⟨[], by simp [shared]⟩
  | tail _ hmove ih =>
    obtain ⟨events, heq⟩ := ih
    cases hmove with
    | event e =>
      refine ⟨events ++ [e], ?_⟩
      obtain ⟨h1, h2, -, h4⟩ := Shared.mk.inj heq
      simp [shared, h1, h2, h4]
    | _ => exact ⟨events, heq⟩

theorem ends_setTtlDefault (db : Db) (c : String) (secs : UInt64) :
    Ends (.setTtlDefault c secs) db (Db.setTtlDefault c secs db).2 := by
  intro clock
  refine ⟨clock, ?_⟩
  by_cases h : secs = 0
  · have hstart : Call.start (.setTtlDefault c secs) = .removeDefault c := if_pos h
    rw [hstart]
    refine (ReflTransGen.single (.step _ _ true [])).tail ?_
    have hend := Solo.step { shared db clock with ttlDefaults := db.ttlDefaults.erase c }
      (.removeExpiry c) true []
    simpa [Db.setTtlDefault, Eff.modify, h, shared, Task.step] using hend
  · have hstart : Call.start (.setTtlDefault c secs) = .setDefault c secs := if_neg h
    rw [hstart]
    have hend := Solo.step (shared db clock) (.setDefault c secs) true []
    refine .single ?_
    simpa [Db.setTtlDefault, Eff.modify, h, shared, Task.step] using hend

/-- Dropping the documents, and failing at that or not. -/
theorem solo_dropDocs {c : String} {db db' : Db} (h : Moves c db db') (clock : UInt64) (ok : Bool) :
    Solo (shared db clock, .dropDocs c)
      (shared db' clock, if ok then .dropExpiry c else .idle) := by
  obtain ⟨events, heq⟩ := shared_of_moves h clock
  rw [heq]
  exact .step _ _ ok events

theorem wp_deleteCollection (db : Db) (c : String) :
    wp (Db.deleteCollection c) (fun _ => Ends (.deleteCollection c) db)
      (fun _ => Ends (.deleteCollection c) db) db := by
  simp only [Db.deleteCollection, wp_bind, wp_modify]
  refine wp_mono (within_deleteCollection db) (fun _ db' h clock => ⟨clock, ?_⟩)
    (fun _ db' h clock => ⟨clock, .single (solo_dropDocs h clock false)⟩)
  have hdocs := solo_dropDocs h clock true
  refine ((ReflTransGen.single hdocs).tail (.step _ (.dropExpiry c) true [])).tail ?_
  exact .step { shared db' clock with ttlExpiry := db'.ttlExpiry.erase c } (.dropDefault c) true []

/-- Evicting an expired collection. -/
theorem wp_evictExpired (db : Db) (c : String) :
    wp (Db.evictExpired c)
      (fun _ db' => ∀ clock, ∃ clock',
        ReflTransGen Solo (shared db clock, .lookExpiry c) (shared db' clock', .insertDocs c))
      (fun _ _ => False) db := by
  simp only [Db.evictExpired, wp_bind, wp_get]
  cases hexp : db.ttlExpiry[c]? with
  | none =>
    intro clock
    have hlook := Solo.step (shared db clock) (.lookExpiry c) true []
    simp only [Task.step, shared, hexp] at hlook
    exact ⟨clock, .single hlook⟩
  | some exp =>
    have hlook : ∀ clock now, ReflTransGen Solo (shared db clock, .lookExpiry c)
        (shared db now, .lookClock c exp) := by
      intro clock now
      have hstep := Solo.step (shared db clock) (.lookExpiry c) true []
      simp only [Task.step, shared, hexp] at hstep
      exact (ReflTransGen.single hstep).tail (.tick _ _ now)
    have hclock : ∀ now, Solo (shared db now, .lookClock c exp) (shared db now,
        if collectionIsExpired exp now then .evictDocs c else .insertDocs c) :=
      fun now => .step (shared db now) (.lookClock c exp) true []
    simp only [wp_bind]
    refine wp_nowMs fun now n => ?_
    have htick : Moves c db { db with tick := n } := .single (.tick n)
    by_cases hdue : collectionIsExpired exp now = true
    · have hevict : ∀ db', Moves c { db with tick := n } db' → ∀ clock, ∃ clock',
          ReflTransGen Solo (shared db clock, .lookExpiry c)
            (shared { db' with ttlExpiry := db'.ttlExpiry.erase c } clock', .insertDocs c) := by
        intro db' hmoves clock
        obtain ⟨events, heq⟩ := shared_of_moves (htick.trans hmoves) now
        have hdocs : Solo (shared db now, .evictDocs c) (shared db' now, .evictExpiry c) := by
          rw [heq]
          exact .step _ _ true events
        have hstart := hclock now
        rw [if_pos hdue] at hstart
        exact ⟨now, (((hlook clock now).tail hstart).tail hdocs).tail
          (.step _ (.evictExpiry c) true [])⟩
      rw [if_pos hdue]
      simp only [wp_bind, wp_outcome, wp_modify]
      exact wp_mono (within_deleteCollection { db with tick := n })
        (fun _ db' h => hevict db' h) (fun _ db' h => hevict db' h)
    · rw [if_neg hdue]
      intro clock
      have hstart := hclock now
      rw [if_neg hdue] at hstart
      exact ⟨now, (hlook clock now).tail hstart⟩

/-- Restarting the TTL clock of a collection. -/
theorem wp_resetExpiry (db : Db) (c : String) :
    wp (Db.resetExpiry c)
      (fun _ db' => ∀ clock, ∃ clock',
        ReflTransGen Solo (shared db clock, .lookDefault c) (shared db' clock', .idle))
      (fun _ _ => False) db := by
  simp only [Db.resetExpiry, wp_bind, wp_get]
  cases hdef : db.ttlDefaults[c]? with
  | none =>
    intro clock
    have hlook := Solo.step (shared db clock) (.lookDefault c) true []
    simp only [Task.step, shared, hdef] at hlook
    exact ⟨clock, .single hlook⟩
  | some secs =>
    simp only [wp_bind, wp_modify, wp_outcome, wp_send]
    refine wp_nowMs fun now n => ?_
    generalize hexp : now + secs * 1000 = expiresAt
    have hrun : ∀ clock, ReflTransGen Solo (shared db clock, .lookDefault c)
        ({ shared db now with ttlExpiry := db.ttlExpiry.insert c expiresAt },
          .sendExpiry c expiresAt) := by
      intro clock
      have hlook := Solo.step (shared db clock) (.lookDefault c) true []
      simp only [Task.step, shared, hdef] at hlook
      have hstamp : Solo (shared db now, .stampExpiry c secs) (shared db now, .storeExpiry c expiresAt) :=
        hexp ▸ .step (shared db now) (.stampExpiry c secs) true []
      exact (((ReflTransGen.single hlook).tail (.tick _ _ now)).tail hstamp).tail
        (.step (shared db now) (.storeExpiry c expiresAt) true [])
    have hend : ∀ clock, ∃ clock', ReflTransGen Solo (shared db clock, .lookDefault c)
        ({ shared db clock' with
            ttlExpiry := db.ttlExpiry.insert c expiresAt
            inbox := db.events ++ [json [("event", .str "ttl_expiry"), ("collection", .str c),
              ("expires_at_ms", .ofU64 expiresAt)]] }, .idle) := fun clock =>
      ⟨now, (hrun clock).tail (.step _ (.sendExpiry c expiresAt) true [])⟩
    exact wp_writeNew (fun _ _ => hend) (fun _ _ => hend)

/-- **An insert takes its steps**, unless the database is read-only. -/
theorem wp_insert [Crates] {db : Db} (hfault : db.ioFault = false) (c : String)
    (items : List (String × Json)) :
    wp (Db.insert c items) (fun _ => Ends (.insert c) db) (fun _ => Ends (.insert c) db) db := by
  have hdocs : ∀ {db₁ db₂ : Db}, Moves c db₁ db₂ → ∀ (ok : Bool) clock,
      Solo (shared db₁ clock, .insertDocs c)
        (shared db₂ clock, if ok then .lookDefault c else .idle) := by
    intro db₁ db₂ hmoves ok clock
    obtain ⟨events, heq⟩ := shared_of_moves hmoves clock
    rw [heq]
    exact .step _ _ ok events
  have hover : Within c (Db.evictOverflow c) := by
    refine Steps.bind steps_get fun db => ?_
    cases db.maxSizes[c]? with
    | none => exact steps_pure _
    | some max =>
      dsimp only
      split_ifs
      · exact (withinDocs_evictOldest _).within
      · exact steps_pure _
  simp only [Db.insert, checkFault, wp_bind, wp_get, hfault, Bool.false_eq_true, if_false, wp_pure]
  refine wp_mono (wp_evictExpired db c) (fun _ db₁ h₁ => ?_) (fun _ _ h => h.elim)
  refine wp_mono ((withinDocs_insert items).within db₁) (fun _ db₂ h₂ => ?_)
    (fun _ db₂ h₂ clock => ?_)
  · refine wp_mono (hover db₂) (fun _ db₃ h₃ => ?_) (fun _ db₃ h₃ clock => ?_)
    · refine wp_mono (wp_resetExpiry db₃ c) (fun _ db₄ h₄ clock => ?_) (fun _ _ h => h.elim)
      obtain ⟨clock₁, hrun₁⟩ := h₁ clock
      obtain ⟨clock₂, hrun₂⟩ := h₄ clock₁
      exact ⟨clock₂, (hrun₁.tail (hdocs (h₂.trans h₃) true clock₁)).trans hrun₂⟩
    · obtain ⟨clock₁, hrun₁⟩ := h₁ clock
      exact ⟨clock₁, hrun₁.tail (hdocs (h₂.trans h₃) false clock₁)⟩
  · obtain ⟨clock₁, hrun₁⟩ := h₁ clock
    exact ⟨clock₁, hrun₁.tail (hdocs h₂ false clock₁)⟩

/-! ## When nothing comes between -/

/-- The collection whose expiry the next step of the call changes. -/
def Task.changes : Task → Option String
  | .evictExpiry c | .storeExpiry c _ | .removeExpiry c | .dropExpiry c => some c
  | _ => none

/-- The expiries that a startup has read and not come to yet. -/
def Next.expiries : Next → List (String × UInt64)
  | .startup _ rest => rest
  | .evict _ => []

/-- The time that the sweep compares expiries with. -/
def Next.now : Next → UInt64
  | .startup now _ | .evict now => now

/-- The sweep has found the collection to be expired and will drop it without looking again. -/
def Pc.Decided (c : String) : Pc → Prop
  | .list now expiries | .startup now expiries => ∃ exp, (c, exp) ∈ expiries ∧ exp ≤ now
  | .drop c' next => c = c' ∨ ∃ exp, (c, exp) ∈ next.expiries ∧ exp ≤ next.now
  | .dropExpiry _ next | .dropDefault _ next => ∃ exp, (c, exp) ∈ next.expiries ∧ exp ≤ next.now
  | _ => False

/-- The clock does not go back, no call changes the expiry of a collection that the sweep has
    decided to drop, and the sweep finds an expiry where it looks for one. -/
def Sys.Undisturbed (s : Sys) : Event → Prop
  | .tick now => s.sweep.shared.clock ≤ now
  | .call _ _ => True
  | .task i _ _ => ∀ c, (s.tasks i).changes = some c → ¬ s.sweep.pc.Decided c
  | .sweep _ => ∀ now c, s.sweep.pc = .check now c → (s.sweep.shared.ttlExpiry[c]?).isSome

/-- An undisturbed step. -/
def Sys.Next (s s' : Sys) : Prop := ∃ event, s.Undisturbed event ∧ s' = s.step event

/-! ## The invariant -/

/-- The expiries were read at `now` or later, each collection once, and those that have passed are
    still in the map. -/
structure Current (s : Shared) (now : UInt64) (expiries : List (String × UInt64)) : Prop where
  past : now ≤ s.clock
  nodup : (expiries.map Prod.fst).Nodup
  kept : ∀ c exp, (c, exp) ∈ expiries → exp ≤ now → s.ttlExpiry[c]? = some exp

/-- What the sweep goes back to is current, and does not hold the collection `c`. -/
structure Next.Without (next : Next) (s : Shared) (c : String) : Prop where
  current : Current s next.now next.expiries
  notMem : c ∉ next.expiries.map Prod.fst

/-- What holds where the sweep is. -/
def Pc.Ok (s : Shared) : Pc → Prop
  | .list now expiries | .startup now expiries => Current s now expiries
  | .evict now | .check now _ => now ≤ s.clock
  | .drop c next => next.Without s c ∧ ∃ exp, s.ttlExpiry[c]? = some exp ∧ exp ≤ s.clock
  | .dropExpiry c next => next.Without s c
  | .dropDefault _ next => Current s next.now next.expiries
  | _ => True

variable {s s' : Shared} {now : UInt64} {expiries : List (String × UInt64)}

theorem current_nil (h : now ≤ s.clock) : Current s now [] := ⟨h, List.nodup_nil, by simp⟩

/-- Nothing changes for expiries that were not decided on. -/
theorem Current.congr (h : Current s now expiries) (hclock : s.clock ≤ s'.clock)
    (hkept : ∀ c exp, (c, exp) ∈ expiries → exp ≤ now → s'.ttlExpiry[c]? = s.ttlExpiry[c]?) :
    Current s' now expiries :=
  ⟨UInt64.le_trans h.past hclock, h.nodup, fun c exp hmem hle => by
    rw [hkept c exp hmem hle, h.kept c exp hmem hle]⟩

theorem Current.tail {p : String × UInt64} (h : Current s now (p :: expiries)) :
    Current s now expiries :=
  ⟨h.past, (List.nodup_cons.1 h.nodup).2, fun c exp hmem => h.kept c exp (List.mem_cons_of_mem _ hmem)⟩

theorem Current.perm {expiries' : List (String × UInt64)} (h : Current s now expiries)
    (hperm : expiries'.Perm expiries) : Current s now expiries' :=
  ⟨h.past, (hperm.map Prod.fst).nodup_iff.2 h.nodup, fun c exp hmem =>
    h.kept c exp (hperm.mem_iff.1 hmem)⟩

theorem Current.visit {c : String} {exp : UInt64} (h : Current s now expiries)
    (hexp : s.ttlExpiry[c]? = some exp) (hnew : c ∉ expiries.map Prod.fst) :
    Current s now (expiries ++ [(c, exp)]) := by
  refine ⟨h.past, ?_, fun c' exp' hmem hle => ?_⟩
  · rw [List.map_append, List.nodup_append]
    refine ⟨h.nodup, List.nodup_singleton _, ?_⟩
    rintro a ha b hb rfl
    rw [List.mem_singleton.1 hb] at ha
    exact hnew ha
  · rcases List.mem_append.1 hmem with hmem | hmem
    · exact h.kept c' exp' hmem hle
    · obtain ⟨rfl, rfl⟩ := Prod.mk.inj (List.mem_singleton.1 hmem)
      exact hexp

theorem Next.ok_pc {next : Next} (h : Current s next.now next.expiries) : next.pc.Ok s := by
  cases next with
  | startup now rest => exact h
  | evict now => exact h.past

/-- The sweep may drop the collection without harm to what it has decided on. -/
theorem Next.Without.erase {next : Next} {c : String} (h : next.Without s c) :
    Current { s with ttlExpiry := s.ttlExpiry.erase c } next.now next.expiries := by
  refine h.current.congr (UInt64.le_refl _) fun c' exp hmem _ => ?_
  have hne : c' ≠ c := by
    rintro rfl
    exact h.notMem (List.mem_map_of_mem hmem)
  simp [Map.get?_erase, hne]

/-! ### The steps of the others -/

/-- A call changes one expiry at most, and not the clock. -/
theorem Task.step_frame (s : Shared) (ok : Bool) (events : List Json) (t : Task) :
    (t.step s ok events).1.clock = s.clock ∧
      ∀ c, t.changes ≠ some c → (t.step s ok events).1.ttlExpiry[c]? = s.ttlExpiry[c]? := by
  cases t with
  | evictExpiry c | removeExpiry c | dropExpiry c =>
    refine ⟨rfl, fun c' hne => ?_⟩
    have hc : c' ≠ c := fun heq => hne (by rw [heq]; rfl)
    simp [Task.step, Map.get?_erase, hc]
  | storeExpiry c exp =>
    refine ⟨rfl, fun c' hne => ?_⟩
    have hc : c' ≠ c := fun heq => hne (by rw [heq]; rfl)
    simp [Task.step, Map.get?_insert, hc]
  | _ => exact ⟨rfl, fun _ _ => rfl⟩

/-- What the sweep has not decided on may change, and time may pass. -/
theorem Pc.Ok.congr {pc : Pc} (h : pc.Ok s) (hclock : s.clock ≤ s'.clock)
    (hkept : ∀ c, pc.Decided c → s'.ttlExpiry[c]? = s.ttlExpiry[c]?) : pc.Ok s' := by
  cases pc with
  | list now expiries =>
    exact Current.congr h hclock fun c exp hmem hle => hkept c ⟨exp, hmem, hle⟩
  | startup now rest =>
    exact Current.congr h hclock fun c exp hmem hle => hkept c ⟨exp, hmem, hle⟩
  | evict now => exact UInt64.le_trans h hclock
  | check now c => exact UInt64.le_trans h hclock
  | drop c next =>
    obtain ⟨hnext, exp, hexp, hle⟩ := h
    refine ⟨⟨hnext.current.congr hclock fun c' exp hmem hle => ?_, hnext.notMem⟩, exp, ?_, ?_⟩
    · exact hkept c' (Or.inr ⟨exp, hmem, hle⟩)
    · rw [hkept c (Or.inl rfl), hexp]
    · exact UInt64.le_trans hle hclock
  | dropExpiry c next =>
    refine ⟨h.current.congr hclock fun c' exp hmem hle => ?_, h.notMem⟩
    exact hkept c' ⟨exp, hmem, hle⟩
  | dropDefault c next =>
    exact Current.congr h hclock fun c' exp hmem hle => hkept c' ⟨exp, hmem, hle⟩
  | _ => trivial

/-! ### The steps of the sweep -/

theorem pc_ok_drain {sw : Sweeper} (choice : Choice) (hpc : sw.pc = .drain) :
    (sw.step choice).pc.Ok (sw.step choice).shared := by
  unfold Sweeper.step
  rw [hpc]
  dsimp only
  split
  · trivial
  · trivial
  · trivial

theorem pc_ok_sleep {sw : Sweeper} (choice : Choice) (hpc : sw.pc = .sleep) :
    (sw.step choice).pc.Ok (sw.step choice).shared := by
  unfold Sweeper.step
  rw [hpc]
  dsimp only
  split
  · trivial
  · rw [hpc]
    trivial
  · trivial
  · trivial

/-- The loop that drops the collections goes on, or ends. -/
theorem pc_ok_evict {sw : Sweeper} (choice : Choice) (hpc : sw.pc = .evict now)
    (h : now ≤ sw.shared.clock) : (sw.step choice).pc.Ok (sw.step choice).shared := by
  unfold Sweeper.step
  rw [hpc]
  dsimp only
  split_ifs
  · trivial
  · split
    · split_ifs
      · exact h
      · rw [hpc]
        exact h
    · rw [hpc]
      exact h

/-- What the check found to be expired is expired. -/
theorem pc_ok_check {sw : Sweeper} (choice : Choice) {c : String} (hpc : sw.pc = .check now c)
    (h : now ≤ sw.shared.clock) (hsome : (sw.shared.ttlExpiry[c]?).isSome) :
    (sw.step choice).pc.Ok (sw.step choice).shared := by
  obtain ⟨exp, hexp⟩ := Option.isSome_iff_exists.1 hsome
  unfold Sweeper.step
  rw [hpc]
  dsimp only
  rw [hexp]
  dsimp only
  split_ifs with hlater
  · exact h
  · refine ⟨⟨current_nil h, by simp [Next.expiries]⟩, exp, hexp, ?_⟩
    exact UInt64.le_trans (UInt64.not_lt.1 hlater) h

/-- What was read at the start to be expired is expired. -/
theorem pc_ok_startup {sw : Sweeper} (choice : Choice) {rest : List (String × UInt64)}
    (hpc : sw.pc = .startup now rest) (h : Current sw.shared now rest) :
    (sw.step choice).pc.Ok (sw.step choice).shared := by
  unfold Sweeper.step
  rw [hpc]
  cases rest with
  | nil => trivial
  | cons p rest =>
    obtain ⟨c, exp⟩ := p
    dsimp only
    split_ifs with hdue
    · refine ⟨⟨h.tail, (List.nodup_cons.1 h.nodup).1⟩, exp, ?_, UInt64.le_trans hdue h.past⟩
      exact h.kept c exp List.mem_cons_self hdue
    · exact h.tail

theorem pc_ok_list {sw : Sweeper} (choice : Choice) (hpc : sw.pc = .list now expiries)
    (h : Current sw.shared now expiries) : (sw.step choice).pc.Ok (sw.step choice).shared := by
  unfold Sweeper.step
  rw [hpc]
  dsimp only
  split
  · split
    · split_ifs with hold
      · rw [hpc]
        exact h
      · exact h.visit (by assumption) hold
    · rw [hpc]
      exact h
  · exact h.perm (List.perm_insertionSort _ _)

/-- **A step of the sweep** keeps what holds where it is, if a check finds an expiry. -/
theorem pc_ok_step {sw : Sweeper} (choice : Choice) (h : sw.pc.Ok sw.shared)
    (hcheck : ∀ now c, sw.pc = .check now c → (sw.shared.ttlExpiry[c]?).isSome) :
    (sw.step choice).pc.Ok (sw.step choice).shared := by
  cases hpc : sw.pc with
  | start =>
    unfold Sweeper.step
    rw [hpc]
    exact current_nil (UInt64.le_refl _)
  | list now expiries =>
    rw [hpc] at h
    exact pc_ok_list choice hpc h
  | startup now rest =>
    rw [hpc] at h
    exact pc_ok_startup choice hpc h
  | drain => exact pc_ok_drain choice hpc
  | plan =>
    unfold Sweeper.step
    rw [hpc]
    dsimp only
    split_ifs <;> trivial
  | sleep => exact pc_ok_sleep choice hpc
  | wake =>
    unfold Sweeper.step
    rw [hpc]
    exact UInt64.le_refl _
  | evict now =>
    rw [hpc] at h
    exact pc_ok_evict choice hpc h
  | check now c =>
    rw [hpc] at h
    exact pc_ok_check choice hpc h (hcheck now c hpc)
  | drop c next =>
    rw [hpc] at h
    unfold Sweeper.step
    rw [hpc]
    dsimp only
    split
    · exact Next.ok_pc h.1.current
    · exact h.1
  | dropExpiry c next =>
    rw [hpc] at h
    unfold Sweeper.step
    rw [hpc]
    exact h.erase
  | dropDefault c next =>
    rw [hpc] at h
    unfold Sweeper.step
    rw [hpc]
    exact Next.ok_pc (Current.congr h (UInt64.le_refl _) fun _ _ _ _ => rfl)

/-! ## Runs -/

theorem ok_step {s s' : Sys} (hstep : s.Next s') (h : s.sweep.pc.Ok s.sweep.shared) :
    s'.sweep.pc.Ok s'.sweep.shared := by
  obtain ⟨event, hevent, rfl⟩ := hstep
  cases event with
  | tick now => exact h.congr hevent fun _ _ => rfl
  | call i call =>
    unfold Sys.step
    dsimp only
    split <;> exact h
  | task i ok events =>
    obtain ⟨hclock, hkept⟩ := Task.step_frame s.sweep.shared ok events (s.tasks i)
    have hle : s.sweep.shared.clock ≤ ((s.tasks i).step s.sweep.shared ok events).1.clock := by
      rw [hclock]
      exact UInt64.le_refl _
    exact h.congr hle fun c hdec => hkept c fun hc => hevent c hc hdec
  | sweep choice => exact pc_ok_step choice h hevent

/-- **The sweep drops expired collections only**, in every undisturbed run. -/
theorem sweep_drops_expired {s s' : Sys} (h : s.Initial) (hrun : ReflTransGen Sys.Next s s') :
    s'.DropsExpired := by
  have hok : s'.sweep.pc.Ok s'.sweep.shared := by
    induction hrun with
    | refl =>
      rw [h]
      trivial
    | tail _ hstep ih => exact ok_step hstep ih
  intro c next hpc
  rw [hpc] at hok
  exact hok.2

/-- Where a check finds no expiry, the sweep goes on to drop a collection that is not expired. -/
theorem check_absent {s : Sys} {c : String} (hpc : s.sweep.pc = .check now c)
    (habsent : s.sweep.shared.ttlExpiry[c]? = none) (choice : Choice) :
    ¬ (s.step (.sweep choice)).DropsExpired := by
  intro hdrops
  have hstep : s.sweep.step choice = { s.sweep with pc := .drop c (.evict now) } := by
    unfold Sweeper.step
    rw [hpc]
    dsimp only
    rw [habsent]
  have hsweep : (s.step (.sweep choice)).sweep = { s.sweep with pc := .drop c (.evict now) } := hstep
  obtain ⟨exp, hexp, -⟩ := hdrops c _ (by rw [hsweep])
  rw [hsweep] at hexp
  cases habsent.symm.trans hexp

/-! ### One collection -/

/-- At the start of the sweep, with an expiry of the collection `c` in the map. -/
def expiredStart : Sys :=
  ⟨⟨⟨∅, (∅ : DashMap UInt64).insert "c" 500, 1000, []⟩, [], .start⟩, fun _ => .idle⟩

/-- The sweep reads the expiry and finds that it has passed. -/
def startupDrop : List Event := [.sweep .go, .sweep (.visit "c"), .sweep .go, .sweep .go]

/-- A step of the sweep is undisturbed where it does not check. -/
theorem next_sweep {s : Sys} (choice : Choice) (h : ∀ now c, s.sweep.pc ≠ .check now c) :
    s.Next (s.step (.sweep choice)) := ⟨.sweep choice, fun now c hpc => absurd hpc (h now c), rfl⟩

theorem startupDrop_run :
    ReflTransGen Sys.Next expiredStart (startupDrop.foldl Sys.step expiredStart) := by
  have h0 : expiredStart.sweep.pc = .start := rfl
  have h1 : ((startupDrop.take 1).foldl Sys.step expiredStart).sweep.pc = .list 1000 [] := rfl
  have h2 : ((startupDrop.take 2).foldl Sys.step expiredStart).sweep.pc = .list 1000 [("c", 500)] := by
    decide +kernel
  have h3 : ((startupDrop.take 3).foldl Sys.step expiredStart).sweep.pc =
      .startup 1000 [("c", 500)] := by decide +kernel
  refine (((ReflTransGen.single (next_sweep .go ?_)).tail (next_sweep (.visit "c") ?_)).tail
    (next_sweep .go ?_)).tail (next_sweep .go ?_)
  · intro now c hpc
    cases h0.symm.trans hpc
  · intro now c hpc
    cases h1.symm.trans hpc
  · intro now c hpc
    cases h2.symm.trans hpc
  · intro now c hpc
    cases h3.symm.trans hpc

theorem sweep_drops_expired_startup : (startupDrop.foldl Sys.step expiredStart).DropsExpired :=
  sweep_drops_expired (show expiredStart.Initial from rfl) startupDrop_run

/-- At the start of the sweep, with a TTL of one second for the collection `c`. -/
def ttlStart : Sys :=
  ⟨⟨⟨(∅ : DashMap UInt64).insert "c" 1, ∅, 1000, []⟩, [], .start⟩, fun _ => .idle⟩

/-- The collection is filled at time 1000, dropped, and filled again without a TTL; the entry of
    its first life is on the heap and falls due at time 2000. -/
def staleEntry : List Event :=
  [.sweep .go, .sweep .go, .sweep .go, .call 0 (.insert "c"), .task 0 true [], .task 0 true [],
    .task 0 true [], .task 0 true [], .task 0 true [], .task 0 true [], .sweep .go,
    .call 0 (.deleteCollection "c"), .task 0 true [], .task 0 true [], .task 0 true [],
    .call 0 (.insert "c"), .task 0 true [], .task 0 true [], .task 0 true [], .tick 2000,
    .sweep .go, .sweep .go, .sweep .go, .sweep (.pop ⟨2000, "c"⟩), .sweep .go]

/-- **The sweep drops a collection that has no TTL.** The stale entry on its heap is not skipped. -/
theorem stale_entry_drops :
    ∃ (s : Sys) (events : List Event), s.Initial ∧ (∀ i, s.tasks i = .idle) ∧
      ¬ (events.foldl Sys.step s).DropsExpired := by
  refine ⟨ttlStart, staleEntry, rfl, fun _ => rfl, fun hdrops => ?_⟩
  have hpc : (staleEntry.foldl Sys.step ttlStart).sweep.pc = .drop "c" (.evict 2000) := by
    decide +kernel
  have habsent : (staleEntry.foldl Sys.step ttlStart).sweep.shared.ttlExpiry["c"]? = none := by
    decide +kernel
  obtain ⟨exp, hexp, -⟩ := hdrops "c" _ hpc
  rw [habsent] at hexp
  cases hexp

end MoltenDB.Sweep
