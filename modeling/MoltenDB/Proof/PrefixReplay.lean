/-
  Recovery up to a point is the replay of a prefix of what the storage delivers.

  A stop by count is (`recoverMaps_count`).  A stop by time inside the snapshot makes the
  storage take the snapshot for unreadable and start over at the log, whose first entries
  may be in time: then these are replayed too (`recoverMaps_late`).
-/
import MoltenDB.Proof.Crash
import MoltenDB.Engine.Storage.Recover

namespace MoltenDB

open Wire Prog Prog.Eff LogCommand

/-! ## Where a stream is stopped -/

section Feed

variable {σ : Type} {f : σ → LogEntry → Option σ} {g : σ → LogEntry → σ}

/-- A callback that breaks on certain entries is called on those before the first of them. -/
theorem feed_takeWhile {p : LogEntry → Bool} (hf : ∀ s e, f s e = if p e then some (g s e) else none)
    (s : σ) (entries : List LogEntry) :
    feed f s entries = ((entries.takeWhile p).foldl g s, entries.all p) := by
  induction entries generalizing s with
  | nil => rfl
  | cons e entries ih =>
    rw [feed, hf]
    cases hp : p e with
    | false => simp [hp]
    | true =>
      simp only [if_true, ih, List.takeWhile_cons, List.foldl_cons, List.all_cons, hp,
        Bool.true_and]

/-- A callback that breaks after `k` entries is called on the first `k`. -/
theorem feed_take {count : σ → ℕ} {k : ℕ} (hf : ∀ s e, f s e = if k ≤ count s then none else some (g s e))
    (hg : ∀ s e, count (g s e) = count s + 1) (s : σ) (entries : List LogEntry) :
    feed f s entries =
      ((entries.take (k - count s)).foldl g s, decide (entries.length ≤ k - count s)) := by
  induction entries generalizing s with
  | nil => simp [feed]
  | cons e entries ih =>
    rw [feed, hf]
    by_cases hk : k ≤ count s
    · have hzero : k - count s = 0 := by omega
      simp [hk, hzero]
    · obtain ⟨n, hn⟩ : ∃ n, k - count s = n + 1 := ⟨k - count s - 1, by omega⟩
      have hn' : k - count (g s e) = n := by rw [hg]; omega
      simp only [hk, if_false, ih, hn, hn', List.take_succ_cons, List.foldl_cons, List.length_cons,
        Nat.add_le_add_iff_right]

end Feed

/-- The entries up to the first that is later than `t`. -/
def upTo (t : UInt64) (entries : List LogEntry) : List LogEntry :=
  entries.takeWhile fun e => !decide (t < e._t)

theorem upTo_append {t : UInt64} {A : List LogEntry} (h : ∀ e ∈ A, ¬ t < e._t) (B : List LogEntry) :
    upTo t (A ++ B) = A ++ upTo t B :=
  List.takeWhile_append_of_pos fun e he => by simpa using h e he

theorem upTo_append_late {t : UInt64} {A : List LogEntry} (h : ¬ ∀ e ∈ A, ¬ t < e._t)
    (B : List LogEntry) : upTo t (A ++ B) = upTo t A := by
  induction A with
  | nil => exact absurd (by simp) h
  | cons e A ih =>
    simp only [upTo, List.cons_append, List.takeWhile_cons] at ih ⊢
    by_cases he : t < e._t
    · simp [he]
    · have hA : ¬ ∀ e ∈ A, ¬ t < e._t := fun hA => h (List.forall_mem_cons.2 ⟨he, hA⟩)
      simp [he, ih hA]

variable [Crates]

theorem foldl_step_count (now : UInt64) (entries : List LogEntry) (r : Replay) :
    (entries.foldl (Replay.step now) r).count = r.count + entries.length := by
  induction entries generalizing r with
  | nil => rfl
  | cons e entries ih =>
    have hstep : (r.step now e).count = r.count + 1 := by
      unfold Replay.step
      dsimp only
      split_ifs <;> rfl
    rw [List.foldl_cons, ih, hstep, List.length_cons]
    omega

/-! ## What is replayed -/

variable (snapshot log : Option Bytes) (now : UInt64)

theorem streamLogInto_eq_append :
    streamLogInto snapshot log =
      (loadSnapshot snapshot).1 ++ streamLogEntries log ((loadSnapshot snapshot).2.getD 0) := by
  unfold streamLogInto
  rcases loadSnapshot snapshot with ⟨S, _ | seq⟩ <;> rfl

/-- The callback is called on the snapshot, then on the log: from its start if it broke. -/
theorem SyncDiskStorage.streamLogInto_eq_feed (f : Replay → LogEntry → Option Replay) (r : Replay) :
    SyncDiskStorage.streamLogInto snapshot log f r =
      (feed f (feed f r (loadSnapshot snapshot).1).1
        (streamLogEntries log (if (feed f r (loadSnapshot snapshot).1).2 then
          (loadSnapshot snapshot).2.getD 0 else 0))).1 := by
  unfold SyncDiskStorage.streamLogInto
  rcases loadSnapshot snapshot with ⟨S, o⟩
  dsimp only
  rcases feed f r S with ⟨r', _ | _⟩ <;> cases o <;> rfl

/-- **A recovery of `k` entries replays the first `k`**: after a stop in the snapshot, the
    log is streamed, but its first entry is one too many. -/
theorem recoverMaps_count (k : UInt64) :
    recoverMaps (SyncDiskStorage.streamLogInto snapshot log) none (some k) now =
      rebuild now ((streamLogInto snapshot log).take k.toNat) := by
  have hcall : ∀ (r : Replay) e, recoverCall none (some k) now r e =
      if k.toNat ≤ r.count then none else some (r.step now e) := fun r e => by simp [recoverCall]
  have hfeed := feed_take hcall fun r e => foldl_step_count now [e] r
  rw [recoverMaps, SyncDiskStorage.streamLogInto_eq_feed, streamLogInto_eq_append, rebuild,
    streamIntoState]
  generalize (loadSnapshot snapshot).1 = S
  simp only [hfeed, foldl_step_count, Nat.sub_zero, Nat.zero_add, List.length_take,
    List.take_append, List.foldl_append, decide_eq_true_eq]
  rw [show k.toNat - min k.toNat S.length = k.toNat - S.length by omega]
  split_ifs with hS
  · rfl
  · rw [show k.toNat - S.length = 0 by omega]
    rfl

theorem feed_recoverCall_time (t : UInt64) (r : Replay) (entries : List LogEntry) :
    feed (recoverCall (some t) none now) r entries =
      ((upTo t entries).foldl (Replay.step now) r, entries.all fun e => !decide (t < e._t)) := by
  refine feed_takeWhile (fun r e => ?_) r entries
  by_cases he : t < e._t <;> simp [recoverCall, he]

/-- A recovery to a time after all of the snapshot replays a prefix. -/
theorem recoverMaps_upTo {t : UInt64} (h : ∀ e ∈ (loadSnapshot snapshot).1, ¬ t < e._t) :
    recoverMaps (SyncDiskStorage.streamLogInto snapshot log) (some t) none now =
      rebuild now (upTo t (streamLogInto snapshot log)) := by
  have hall : ((loadSnapshot snapshot).1.all fun e => !decide (t < e._t)) = true := by
    simpa using h
  have hself : upTo t (loadSnapshot snapshot).1 = (loadSnapshot snapshot).1 := by
    simpa [upTo] using upTo_append h []
  rw [recoverMaps, SyncDiskStorage.streamLogInto_eq_feed, streamLogInto_eq_append,
    upTo_append h, rebuild, streamIntoState]
  simp only [feed_recoverCall_time, hall, if_true, hself, List.foldl_append]

/-- **After a stop by time in the snapshot, the log is replayed from its start.** -/
theorem recoverMaps_late {t : UInt64} (h : ¬ ∀ e ∈ (loadSnapshot snapshot).1, ¬ t < e._t) :
    recoverMaps (SyncDiskStorage.streamLogInto snapshot log) (some t) none now =
      rebuild now (upTo t (loadSnapshot snapshot).1 ++ upTo t (streamLogEntries log 0)) := by
  have hall : ((loadSnapshot snapshot).1.all fun e => !decide (t < e._t)) = false := by
    rw [Bool.eq_false_iff]
    intro hall
    exact h fun e he => by simpa using List.all_eq_true.1 hall e he
  rw [recoverMaps, SyncDiskStorage.streamLogInto_eq_feed, rebuild, streamIntoState]
  simp only [feed_recoverCall_time, hall, Bool.false_eq_true, if_false, List.foldl_append]

theorem upTo_streamLogInto_late {t : UInt64} (h : ¬ ∀ e ∈ (loadSnapshot snapshot).1, ¬ t < e._t) :
    upTo t (streamLogInto snapshot log) = upTo t (loadSnapshot snapshot).1 := by
  rw [streamLogInto_eq_append, upTo_append_late h]

/-! ## What is returned -/

section

omit [Crates]

/-- What a part of the maps is returned as: an `INSERT` for a document that decodes, with
    its value, a `SCHEMA` for a schema. -/
def Recovered.listed (m : Recovered) : Reg → Option LogEntry
  | .doc c k => (m.view (.doc c k)).join.map fun v => ⟨IKEY_INSERT, c, k, v, 0⟩
  | .schema c => (m.view (.schema c)).join.map fun v => ⟨SCHEMA, c, "", v, 0⟩
  | .expiry _ => none

/-- The entries list the maps, each part once, whatever their order and the times they carry. -/
structure Recovered.Lists (m : Recovered) (es : List LogEntry) : Prop where
  nodup : (es.map LogEntry.unstamped).Nodup
  mem : ∀ e, e ∈ es.map LogEntry.unstamped ↔ ∃ r, m.listed r = some e

/-- An entry says which part it is of. -/
theorem Recovered.listed_inj {m m' : Recovered} {r r' : Reg} {e : LogEntry}
    (h : m.listed r = some e) (h' : m'.listed r' = some e) : r = r' := by
  have hne : IKEY_INSERT ≠ SCHEMA := by decide
  cases r <;> cases r' <;> simp only [listed, Option.map_eq_some_iff, reduceCtorEq] at h h'
  all_goals
    obtain ⟨v, -, rfl⟩ := h
    obtain ⟨v', -, heq⟩ := h'
    simp_all

/-- **Maps that a list shows** are known by it. -/
theorem Recovered.Lists.congr_iff {m m' : Recovered} {es : List LogEntry} (h : m.Lists es) :
    m'.Lists es ↔ ∀ r, m'.listed r = m.listed r := by
  constructor
  · intro h' r
    have hiff : ∀ e, m'.listed r = some e ↔ m.listed r = some e := by
      intro e
      constructor
      · intro he
        obtain ⟨r', hr'⟩ := (h.mem e).1 ((h'.mem e).2 ⟨r, he⟩)
        rw [Recovered.listed_inj he hr', hr']
      · intro he
        obtain ⟨r', hr'⟩ := (h'.mem e).1 ((h.mem e).2 ⟨r, he⟩)
        rw [Recovered.listed_inj he hr', hr']
    exact Option.ext hiff
  · intro hr
    refine ⟨h.nodup, fun e => ?_⟩
    rw [h.mem]
    exact exists_congr fun r => by rw [hr]

theorem docEntry_eq_some {c k : String} {b : Bytes} {e : LogEntry} :
    docEntry c (k, b) = some e ↔
      ∃ v, msgpackToValue b = some v ∧ e = ⟨IKEY_INSERT, c, k, v, 0⟩ := by
  rw [docEntry, Option.map_eq_some_iff]
  exact exists_congr fun v => and_congr_right fun _ => eq_comm

/-- The entries of one collection are no more than its documents. -/
theorem keys_filterMap_docEntry (c : String) (docs : List (String × Bytes)) :
    ((docs.filterMap (docEntry c)).map LogEntry.key).Sublist (docs.map Prod.fst) := by
  induction docs with
  | nil => exact .slnil
  | cons doc docs ih =>
    obtain ⟨k, b⟩ := doc
    rw [List.filterMap_cons]
    cases hdoc : docEntry c (k, b) with
    | none => exact ih.cons _
    | some e =>
      obtain ⟨v, -, rfl⟩ := docEntry_eq_some.1 hdoc
      exact ih.cons_cons k

theorem nodup_docEntries {cols : List (String × DashMap Bytes)} {es : List LogEntry}
    (h : DocEntries cols es) (hcols : (cols.map Prod.fst).Nodup) : es.Nodup := by
  induction h with
  | nil => exact .nil
  | @cons c col cols es ks hks hrest ih =>
    rw [List.map_cons, List.nodup_cons] at hcols
    have hkeys : (((col.inOrder ks).filterMap (docEntry c)).map LogEntry.key).Nodup := by
      refine (keys_filterMap_docEntry c _).nodup ?_
      rw [Map.map_fst_inOrder_perm hks]
      exact hks.nodup_iff.2 (Map.nodup_keys col)
    refine (List.Nodup.of_map _ hkeys).append (ih hcols.2) fun e he he' => ?_
    -- the entries of other collections name other collections
    obtain ⟨⟨k, b⟩, -, hdoc⟩ := List.mem_filterMap.1 he
    obtain ⟨v, -, rfl⟩ := docEntry_eq_some.1 hdoc
    obtain ⟨c', col', k', b', hmem, -, hdoc'⟩ := (mem_docEntries hrest).1 he'
    obtain ⟨v', -, heq⟩ := docEntry_eq_some.1 hdoc'
    obtain rfl : c = c' := congrArg LogEntry.collection heq
    exact hcols.1 (List.mem_map.2 ⟨_, hmem, rfl⟩)

/-- The entries of an enumeration of the maps are those listed. -/
theorem mem_enumerates_iff_listed {m : Recovered} {es : List LogEntry}
    (h : Enumerates m.state m.schemas es) (e : LogEntry) : e ∈ es ↔ ∃ r, m.listed r = some e := by
  rw [mem_enumerates h]
  constructor
  · rintro (⟨c, k, b, hb, hdoc⟩ | ⟨c, s, hs, rfl⟩)
    · obtain ⟨v, hv, rfl⟩ := docEntry_eq_some.1 hdoc
      exact ⟨.doc c k, by simp [Recovered.listed, Recovered.view, hb, hv]⟩
    · exact ⟨.schema c, by simp [Recovered.listed, Recovered.view, hs, schemaEntry]⟩
  · rintro ⟨r, hr⟩
    cases r with
    | doc c k =>
      simp only [Recovered.listed, Recovered.view, Option.map_eq_some_iff, Option.join_eq_some_iff,
        Option.map_eq_some_iff] at hr
      obtain ⟨v, ⟨b, hb, hv⟩, rfl⟩ := hr
      exact Or.inl ⟨c, k, b, hb, docEntry_eq_some.2 ⟨v, hv, rfl⟩⟩
    | schema c =>
      simp only [Recovered.listed, Recovered.view, Option.map_eq_some_iff, Option.join_eq_some_iff,
        Option.map_eq_some_iff] at hr
      obtain ⟨v, ⟨s, hs, hv⟩, rfl⟩ := hr
      obtain rfl := Option.some.inj hv
      exact Or.inr ⟨c, s, hs, rfl⟩
    | expiry c => cases hr

/-- **An enumeration of the maps lists them.** -/
theorem lists_of_enumerates {m : Recovered} {es : List LogEntry}
    (h : Enumerates m.state m.schemas (es.map LogEntry.unstamped)) : m.Lists es := by
  refine ⟨?_, mem_enumerates_iff_listed h⟩
  obtain ⟨cs, docs, ss, hcs, hdocs, hss, heq⟩ := h
  have hstate : ((m.state.inOrder cs).map Prod.fst).Nodup := by
    rw [Map.map_fst_inOrder_perm hcs]
    exact hcs.nodup_iff.2 (Map.nodup_keys _)
  have hschemas : (((m.schemas.inOrder ss).map schemaEntry).map LogEntry.collection).Nodup := by
    rw [List.map_map]
    have hfst : (LogEntry.collection ∘ schemaEntry) = Prod.fst := rfl
    rw [hfst, Map.map_fst_inOrder_perm hss]
    exact hss.nodup_iff.2 (Map.nodup_keys _)
  rw [heq]
  refine (nodup_docEntries hdocs hstate).append (List.Nodup.of_map _ hschemas) fun e he he' => ?_
  obtain ⟨c, col, k, b, -, -, hdoc⟩ := (mem_docEntries hdocs).1 he
  obtain ⟨v, -, rfl⟩ := docEntry_eq_some.1 hdoc
  obtain ⟨⟨c', s⟩, -, heq'⟩ := List.mem_map.1 he'
  exact absurd (congrArg LogEntry.cmd heq') (by decide : SCHEMA ≠ IKEY_INSERT)

end

/-- A recovery lists the maps it replays at the time it reads first. -/
theorem wp_recoverTo_lists (stream : LogStream) (toTime toSeq : Option UInt64) (fs : Fs) :
    wp (recoverTo stream toTime toSeq)
      (fun es _ => (recoverMaps stream toTime toSeq (fs.world.clock fs.tick)).Lists es)
      (fun _ _ => False) fs := by
  simp only [recoverTo, wp_bind]
  show wp (recoverEntries _) _ _ _
  exact wp_mono (wp_recoverEntries _) (fun es _ h => lists_of_enumerates h) (fun _ _ h => h)

/-! ## When a stop by time is harmless -/

omit [Crates] in
/-- The entries that take effect while `B` is replayed after `A`. -/
def effectsAfter (A B : List LogEntry) : List LogEntry :=
  (Journal.Reader.run { Journal.Reader.start.run (A.map LogEntry.toRec) with applied := [] }
    (B.map LogEntry.toRec)).applied

omit [Crates] in
theorem effects_append (A B : List LogEntry) :
    effects (A ++ B) = effects A ++ effectsAfter A B := by
  rw [effects, effects, Journal.effects, List.map_append, Journal.Reader.run_append,
    Journal.Reader.run_applied]
  rfl

/-- Nothing in the snapshot is later than `t`; or what the first entries of the log, up to `t`,
    last write to a document or a schema when they are replayed after the first entries of the
    snapshot is there already. -/
def StopsInTime (t : UInt64) : Prop :=
  (∀ e ∈ (loadSnapshot snapshot).1, ¬ t < e._t) ∨
    ∀ r, (∀ c, r ≠ .expiry c) → ∀ held,
      Overwrite.last (LogEntry.writes now)
          (effectsAfter (upTo t (loadSnapshot snapshot).1) (upTo t (streamLogEntries log 0))) r =
        some held →
      held = (rebuild now (upTo t (loadSnapshot snapshot).1)).view r

/-- What is rebuilt decodes. -/
theorem view_rebuild_ne {L : List LogEntry} (h : ∀ e ∈ L, e.value.Fits) (r : Reg) :
    (rebuild now L).view r ≠ some none := by
  rw [view_rebuild now h, Overwrite.replay_eq]
  intro hnone
  cases hlast : Overwrite.last (LogEntry.writes now) (effects L) r with
  | none => simp [hlast] at hnone
  | some held =>
    obtain ⟨e, -, he⟩ := Overwrite.exists_of_last hlast
    rw [hlast, Option.getD_some] at hnone
    subst hnone
    obtain ⟨ch, -, hw⟩ := Option.bind_eq_some_iff.1 he
    cases ch <;> cases r <;> simp [Change.writes] at hw

/-- Maps rebuilt from entries that fit list the same if their documents and schemas are the same. -/
theorem listed_eq_iff {A B : List LogEntry} (hA : ∀ e ∈ A, e.value.Fits)
    (hB : ∀ e ∈ B, e.value.Fits) (r : Reg) :
    (rebuild now A).listed r = (rebuild now B).listed r ↔
      ((∀ c, r ≠ .expiry c) → (rebuild now A).view r = (rebuild now B).view r) := by
  have hjoin : ∀ {h h' : Held}, h ≠ some none → h' ≠ some none → h.join = h'.join → h = h' := by
    rintro (_ | _ | v) (_ | _ | v') h1 h2 heq
    all_goals simp_all
  have hA' := view_rebuild_ne now hA r
  have hB' := view_rebuild_ne now hB r
  cases r with
  | doc c k =>
    have hinj : Function.Injective fun v : Json => LogEntry.mk IKEY_INSERT c k v 0 := fun v v' h =>
      congrArg LogEntry.value h
    constructor
    · intro h _
      exact hjoin hA' hB' (Option.map_injective hinj h)
    · intro h
      rw [Recovered.listed, Recovered.listed, h (by simp)]
  | schema c =>
    have hinj : Function.Injective fun v : Json => LogEntry.mk SCHEMA c "" v 0 := fun v v' h =>
      congrArg LogEntry.value h
    constructor
    · intro h _
      exact hjoin hA' hB' (Option.map_injective hinj h)
    · intro h
      rw [Recovered.listed, Recovered.listed, h (by simp)]
  | expiry c => exact ⟨fun _ h => absurd rfl (h c), fun _ => rfl⟩

/-- After a stop in the snapshot the maps list those of the cut if nothing new was written. -/
theorem listed_late_iff {t : UInt64} (h : ¬ ∀ e ∈ (loadSnapshot snapshot).1, ¬ t < e._t) :
    (∀ r, (rebuild now (upTo t (loadSnapshot snapshot).1)).listed r =
      (rebuild now (upTo t (loadSnapshot snapshot).1 ++ upTo t (streamLogEntries log 0))).listed r) ↔
    StopsInTime snapshot log now t := by
  have hfits : ∀ e ∈ upTo t (loadSnapshot snapshot).1 ++ upTo t (streamLogEntries log 0),
      e.value.Fits := by
    intro e he
    rcases List.mem_append.1 he with he | he
    · exact loadSnapshot_fits (List.takeWhile_subset _ he)
    · exact streamLogEntries_fits (List.takeWhile_subset _ he)
  have hcut := fun e he => hfits e (List.mem_append_left _ he)
  have hview : ∀ r,
      (rebuild now (upTo t (loadSnapshot snapshot).1 ++ upTo t (streamLogEntries log 0))).view r =
        (Overwrite.last (LogEntry.writes now) (effectsAfter (upTo t (loadSnapshot snapshot).1)
          (upTo t (streamLogEntries log 0))) r).getD
            ((rebuild now (upTo t (loadSnapshot snapshot).1)).view r) := by
    intro r
    rw [view_rebuild now hfits, effects_append, Overwrite.replay_append, ← view_rebuild now hcut,
      Overwrite.replay_eq]
  rw [StopsInTime, or_iff_right h]
  refine forall_congr' fun r => ?_
  rw [listed_eq_iff now hcut hfits, hview]
  refine forall_congr' fun _ => ?_
  cases Overwrite.last (LogEntry.writes now) (effectsAfter (upTo t (loadSnapshot snapshot).1)
    (upTo t (streamLogEntries log 0))) r with
  | none => simp
  | some held => simp [eq_comm]

/-- **Recovery to a number of entries is the replay of that prefix, and recovery to a time is
    the replay of the entries up to it** exactly if it stops in time. -/
theorem recover_to_prefix_iff (snapshot log : Option Bytes) (fs : Fs) :
    (∀ k : UInt64, wp (recoverTo (SyncDiskStorage.streamLogInto snapshot log) none (some k))
      (fun es _ => (rebuild (fs.world.clock fs.tick)
        ((streamLogInto snapshot log).take k.toNat)).Lists es)
      (fun _ _ => False) fs) ∧
    ∀ t : UInt64, wp (recoverTo (SyncDiskStorage.streamLogInto snapshot log) (some t) none)
      (fun es _ => (rebuild (fs.world.clock fs.tick) (upTo t (streamLogInto snapshot log))).Lists es)
      (fun _ _ => False) fs ↔ StopsInTime snapshot log (fs.world.clock fs.tick) t := by
  constructor
  · intro k
    rw [← recoverMaps_count]
    exact wp_recoverTo_lists _ _ _ fs
  · intro t
    have hlists := wp_recoverTo_lists (SyncDiskStorage.streamLogInto snapshot log) (some t) none fs
    by_cases h : ∀ e ∈ (loadSnapshot snapshot).1, ¬ t < e._t
    · rw [recoverMaps_upTo snapshot log _ h] at hlists
      exact ⟨fun _ => Or.inl h, fun _ => hlists⟩
    · rw [recoverMaps_late snapshot log _ h] at hlists
      rw [upTo_streamLogInto_late snapshot log h, ← listed_late_iff snapshot log _ h]
      constructor
      · intro hprefix
        rcases hrun : recoverTo (SyncDiskStorage.streamLogInto snapshot log) (some t) none fs with
          ⟨err | es, fs'⟩
        · exact (wp_of_error hlists hrun).elim
        · exact (wp_of_ok hlists hrun).congr_iff.1 (wp_of_ok hprefix hrun)
      · intro hsame
        exact wp_mono hlists (fun es _ hes => hes.congr_iff.2 hsame) fun _ _ h => h

section

omit [Crates]

/-- A snapshot of one document of time 10, and a log of one document of time 3. -/
def lateSnapshot : Bytes := @snapshotFile Crates.plain 0 1 [⟨IKEY_INSERT, "c", "a", .obj [], 10⟩]

def earlyLog : Bytes := logBytes [⟨IKEY_INSERT, "c", "b", .obj [], 3⟩]

/-- **A recovery to the time 5, which is before the snapshot, returns a document of the log.** -/
theorem late_stop_replays_log :
    ∃ (fs : Fs) (es : List LogEntry),
      (@recoverTo Crates.plain (@SyncDiskStorage.streamLogInto Crates.plain (some lateSnapshot)
          (some earlyLog)) (some 5) none fs).1 = .ok es ∧
        ¬ (@rebuild Crates.plain (fs.world.clock fs.tick)
          (upTo 5 (@streamLogInto Crates.plain (some lateSnapshot) (some earlyLog)))).Lists es := by
  refine ⟨oneTxFs [], [⟨IKEY_INSERT, "c", "b", .obj [], 3⟩], by decide +kernel, fun hlists => ?_⟩
  have hstopped : upTo 5 (@streamLogInto Crates.plain (some lateSnapshot) (some earlyLog)) = [] := by
    decide +kernel
  rw [hstopped] at hlists
  obtain ⟨r, hr⟩ := (hlists.mem ⟨IKEY_INSERT, "c", "b", .obj [], 0⟩).1 (List.mem_singleton.2 rfl)
  have hempty : (@rebuild Crates.plain ((oneTxFs []).world.clock (oneTxFs []).tick) []).view r =
      none := congrFun view_empty r
  cases r with
  | doc c k => rw [Recovered.listed, hempty] at hr; cases hr
  | schema c => rw [Recovered.listed, hempty] at hr; cases hr
  | expiry c => cases hr

end

end MoltenDB
