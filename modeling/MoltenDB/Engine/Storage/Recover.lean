/-
  Point-in-time recovery (`recover_to`): replay what the storage delivers up to a time or
  a number of entries, and return the recovered maps as log entries.

  What is returned is an enumeration of the recovered maps (`wp_recoverEntries`).
-/
import MoltenDB.Engine.Storage.Encrypted

namespace MoltenDB

open Wire Prog Prog.Eff LogCommand

/-! ## Streams that can be stopped -/

section Feed

variable {σ : Type} (f : σ → LogEntry → Option σ)

/-- Call `f` on the entries until it breaks (`none`), and whether it did not. -/
def feed : σ → List LogEntry → σ × Bool
  | s, [] => (s, true)
  | s, entry :: entries =>
    match f s entry with
    | none => (s, false)
    | some s => feed s entries

/-- What each call that does not break keeps is kept by the calls on the entries. -/
theorem feed_induct {P : σ → Prop} {entries : List LogEntry}
    (h : ∀ s, ∀ e ∈ entries, ∀ s', P s → f s e = some s' → P s') {s : σ} (hs : P s) :
    P (feed f s entries).1 := by
  induction entries generalizing s with
  | nil => exact hs
  | cons e entries ih =>
    rw [feed]
    cases hf : f s e with
    | none => exact hs
    | some s' =>
      exact ih (fun s e he => h s e (List.mem_cons_of_mem _ he)) (h s e List.mem_cons_self s' hs hf)

/-- If no call breaks, `f` is called on all entries. -/
theorem feed_eq_foldl {g : σ → LogEntry → σ} {entries : List LogEntry}
    (h : ∀ s, ∀ e ∈ entries, f s e = some (g s e)) (s : σ) :
    feed f s entries = (entries.foldl g s, true) := by
  induction entries generalizing s with
  | nil => rfl
  | cons e entries ih =>
    rw [feed, h s e List.mem_cons_self]
    exact ih (fun s e he => h s e (List.mem_cons_of_mem _ he)) (g s e)

end Feed

/-- `stream_log_into` of a storage: run the callback over the entries it delivers. -/
abbrev LogStream := (Replay → LogEntry → Option Replay) → Replay → Replay

variable [Crates]

/-- `SyncDiskStorage::stream_log_into`: the snapshot, then the log after the lines it covers; if
    the snapshot is not read to its end, also because the callback broke, the whole log. -/
def SyncDiskStorage.streamLogInto (snapshot log : Option Bytes) : LogStream := fun f r =>
  match loadSnapshot snapshot with
  | (entries, seq) =>
    match feed f r entries, seq with
    | (r, true), some seq => (feed f r (streamLogEntries log seq)).1
    | (r, _), _ => (feed f r (streamLogEntries log 0)).1

/-- `EncryptedStorage::stream_log_into`: entries that cannot be decrypted are skipped. -/
def EncryptedStorage.streamLogInto [Base64] (cipher : Cipher) (inner : LogStream) : LogStream :=
  fun f => inner fun r entry =>
    if entry.cmd = IKEY_ENC then
      match decryptEntry cipher entry with
      | .ok entry => f r entry
      | .error _ => some r
    else f r entry

/-- A callback that breaks on none of the entries is called on those that a startup reads. -/
theorem SyncDiskStorage.streamLogInto_eq_foldl {snapshot log : Option Bytes}
    {f : Replay → LogEntry → Option Replay} {g : Replay → LogEntry → Replay}
    (h : ∀ r, ∀ e ∈ MoltenDB.streamLogInto snapshot log, f r e = some (g r e)) (r : Replay) :
    SyncDiskStorage.streamLogInto snapshot log f r =
      (MoltenDB.streamLogInto snapshot log).foldl g r := by
  unfold MoltenDB.streamLogInto at h ⊢
  unfold SyncDiskStorage.streamLogInto
  rcases hload : loadSnapshot snapshot with ⟨entries, _ | seq⟩ <;>
    simp only [hload, List.mem_append] at h ⊢ <;>
    rw [feed_eq_foldl f (fun r e he => h r e (Or.inl he)), List.foldl_append] <;>
    dsimp only <;>
    rw [feed_eq_foldl f (fun r e he => h r e (Or.inr he))]

/-- `stream_into_state`, on the entries that a storage streams. -/
def startUp (stream : LogStream) (now : UInt64) : Recovered :=
  (stream (fun r entry => some (r.step now entry)) ⟨.empty, [], none, 0⟩).base

/-- Startup rebuilds the maps from the entries that the disk storage delivers. -/
theorem startUp_disk (snapshot log : Option Bytes) (now : UInt64) :
    startUp (SyncDiskStorage.streamLogInto snapshot log) now =
      rebuild now (streamLogInto snapshot log) := by
  rw [startUp, SyncDiskStorage.streamLogInto_eq_foldl (g := Replay.step now) fun _ _ _ => rfl]
  rfl

/-! ## Replaying up to a point -/

/-- The callback of `recover_to`: break after the time `toTime` or after `toSeq` entries. -/
def recoverCall (toTime toSeq : Option UInt64) (now : UInt64) (r : Replay) (entry : LogEntry) :
    Option Replay :=
  if toTime.any fun t => t < entry._t then none
  else if toSeq.any fun s => s.toNat ≤ r.count then none
  else some (r.step now entry)

/-- The maps that `recover_to` replays; `now` is the time of the recovery. -/
def recoverMaps (stream : LogStream) (toTime toSeq : Option UInt64) (now : UInt64) : Recovered :=
  (stream (recoverCall toTime toSeq now) ⟨.empty, [], none, 0⟩).base

/-- Recovery up to a time after all entries rebuilds what a startup does. -/
theorem recoverMaps_eq_rebuild {snapshot log : Option Bytes} {t : UInt64}
    (h : ∀ e ∈ streamLogInto snapshot log, ¬ t < e._t) (now : UInt64) :
    recoverMaps (SyncDiskStorage.streamLogInto snapshot log) (some t) none now =
      rebuild now (streamLogInto snapshot log) := by
  rw [recoverMaps, SyncDiskStorage.streamLogInto_eq_foldl (g := Replay.step now)]
  · rfl
  · intro r e he
    simp [recoverCall, h e he]

/-! ## The recovered entries -/

/-- The current time. -/
def ioNow : Io UInt64 := fun fs => (.ok (fs.world.clock fs.tick), { fs with tick := fs.tick + 1 })

/-- `LogEntry::new`. -/
def newEntry (cmd collection key : String) (value : Json) : Io LogEntry := do
  let t ← ioNow
  return ⟨cmd, collection, key, value, t⟩

def recoverDocs (collection : String) :
    List (String × Bytes) → List LogEntry → Io (List LogEntry)
  | [], es => return es
  | (key, bytes) :: docs, es => do
    match msgpackToValue bytes with
    | some value => do
      let entry ← newEntry IKEY_INSERT collection key value
      recoverDocs collection docs (es ++ [entry])
    | none => recoverDocs collection docs es

def recoverCollections : List (String × DashMap Bytes) → List LogEntry → Io (List LogEntry)
  | [], es => return es
  | (collection, col) :: cols, es => do
    let docs ← walkMap col
    let es ← recoverDocs collection docs es
    recoverCollections cols es

def recoverSchemas : List (String × Schema) → List LogEntry → Io (List LogEntry)
  | [], es => return es
  | (collection, schema) :: schemas, es => do
    let entry ← newEntry "SCHEMA" collection "" schema.value
    recoverSchemas schemas (es ++ [entry])

/-- The recovered maps as log entries. -/
def recoverEntries (m : Recovered) : Io (List LogEntry) := do
  let cols ← walkMap m.state
  let es ← recoverCollections cols []
  let schemas ← walkMap m.schemas
  recoverSchemas schemas es

/-- `recover_to`. -/
def recoverTo (stream : LogStream) (toTime toSeq : Option UInt64) : Io (List LogEntry) := do
  let now ← ioNow
  recoverEntries (recoverMaps stream toTime toSeq now)

/-! ## They enumerate the recovered maps -/

/-- An entry without its time. -/
def LogEntry.unstamped (e : LogEntry) : LogEntry := { e with _t := 0 }

section

omit [Crates]

variable {fs : Fs}

theorem wp_newEntry (cmd c k : String) (v : Json) :
    wp (newEntry cmd c k v) (fun e _ => e.unstamped = ⟨cmd, c, k, v, 0⟩) (fun _ _ => False) fs :=
  rfl

theorem wp_recoverDocs (c : String) (docs : List (String × Bytes)) (es : List LogEntry) :
    wp (recoverDocs c docs es)
      (fun es' _ => es'.map LogEntry.unstamped =
        es.map LogEntry.unstamped ++ docs.filterMap (docEntry c))
      (fun _ _ => False) fs := by
  induction docs generalizing es fs with
  | nil => simp [recoverDocs]
  | cons doc docs ih =>
    obtain ⟨k, bytes⟩ := doc
    rw [recoverDocs]
    cases hv : msgpackToValue bytes with
    | none =>
      rw [List.filterMap_cons_none (by simp [docEntry, hv])]
      exact ih es
    | some v =>
      simp only [wp_bind]
      refine wp_mono (wp_newEntry IKEY_INSERT c k v) (fun e fs₁ he => ?_) (fun _ _ h => h)
      refine wp_mono (ih (es ++ [e])) (fun es' _ h' => ?_) (fun _ _ h => h)
      rw [h', List.filterMap_cons_some (b := ⟨IKEY_INSERT, c, k, v, 0⟩) (by simp [docEntry, hv]),
        List.map_append, List.map_singleton, he, List.append_assoc]
      rfl

theorem wp_recoverCollections (cols : List (String × DashMap Bytes)) (es : List LogEntry) :
    wp (recoverCollections cols es)
      (fun es' _ => ∃ new, DocEntries cols new ∧
        es'.map LogEntry.unstamped = es.map LogEntry.unstamped ++ new)
      (fun _ _ => False) fs := by
  induction cols generalizing es fs with
  | nil => exact ⟨[], .nil, by simp⟩
  | cons p cols ih =>
    obtain ⟨c, col⟩ := p
    simp only [recoverCollections, wp_bind]
    refine wp_walkMap fun ks n hks => ?_
    refine wp_mono (wp_recoverDocs c _ es) (fun es₁ fs₁ h₁ => ?_) (fun _ _ h => h)
    refine wp_mono (ih es₁) (fun es₂ fs₂ h₂ => ?_) (fun _ _ h => h)
    obtain ⟨new, hnew, heq⟩ := h₂
    exact ⟨_, .cons hks hnew, by rw [heq, h₁, List.append_assoc]⟩

theorem wp_recoverSchemas (schemas : List (String × Schema)) (es : List LogEntry) :
    wp (recoverSchemas schemas es)
      (fun es' _ => es'.map LogEntry.unstamped =
        es.map LogEntry.unstamped ++ schemas.map schemaEntry)
      (fun _ _ => False) fs := by
  induction schemas generalizing es fs with
  | nil => simp [recoverSchemas]
  | cons p schemas ih =>
    obtain ⟨c, schema⟩ := p
    simp only [recoverSchemas, wp_bind]
    refine wp_mono (wp_newEntry "SCHEMA" c "" schema.value) (fun e fs₁ he => ?_) (fun _ _ h => h)
    refine wp_mono (ih (es ++ [e])) (fun es' _ h' => ?_) (fun _ _ h => h)
    rw [h', List.map_append, List.map_singleton, he, List.append_assoc]
    rfl

/-- **Recovery returns the recovered maps**: an entry for each document that decodes and for
    each schema. -/
theorem wp_recoverEntries (m : Recovered) :
    wp (recoverEntries m)
      (fun es _ => Enumerates m.state m.schemas (es.map LogEntry.unstamped))
      (fun _ _ => False) fs := by
  simp only [recoverEntries, wp_bind]
  refine wp_walkMap fun cs n hcs => ?_
  refine wp_mono (wp_recoverCollections _ []) (fun es₁ fs₁ h₁ => ?_) (fun _ _ h => h)
  obtain ⟨docs, hdocs, heq⟩ := h₁
  refine wp_walkMap fun ss k hss => ?_
  refine wp_mono (wp_recoverSchemas _ es₁) (fun es₂ fs₂ h₂ => ?_) (fun _ _ h => h)
  exact ⟨cs, docs, ss, hcs, hdocs, hss, by rw [h₂, heq]; rfl⟩

end

theorem wp_recoverTo (stream : LogStream) (toTime toSeq : Option UInt64) (fs : Fs) :
    wp (recoverTo stream toTime toSeq)
      (fun es _ => ∃ now, Enumerates (recoverMaps stream toTime toSeq now).state
        (recoverMaps stream toTime toSeq now).schemas (es.map LogEntry.unstamped))
      (fun _ _ => False) fs := by
  simp only [recoverTo, wp_bind]
  show wp (recoverEntries _) _ _ _
  exact wp_mono (wp_recoverEntries _) (fun es _ h => ⟨_, h⟩) (fun _ _ h => h)

end MoltenDB
