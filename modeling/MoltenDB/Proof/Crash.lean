/-
  Compactions cut short by a crash.

  A history of transactions and compactions keeps the maps and the files in step
  (`Mirrors`): a snapshot of the maps rebuilds what the files rebuild.  So the new
  snapshot may be installed, and the log emptied, at any time; only between moving the
  old snapshot and installing the new one is there a gap (`compaction_crash_iff`).
-/
import MoltenDB.Proof.Compaction

namespace MoltenDB

open Wire Prog Prog.Eff LogCommand

/-! ## Snapshots of the maps -/

/-- What a register holds after it was written to a snapshot and read back. -/
def Held.readBack (h : Held) : Held := h.bind fun v => v.map fun v => some v.canon

/-- What a snapshot of the maps holds. -/
def Recovered.shot (m : Recovered) (r : Reg) : Held := Held.readBack (m.view r)

theorem mem_docEntries {cols : List (String × DashMap Bytes)} {es : List LogEntry}
    (h : DocEntries cols es) {e : LogEntry} :
    e ∈ es ↔ ∃ c col k b, (c, col) ∈ cols ∧ col[k]? = some b ∧ docEntry c (k, b) = some e := by
  induction h with
  | nil => simp
  | @cons c col cols es ks hks _ ih =>
    have hhere : e ∈ (col.inOrder ks).filterMap (docEntry c) ↔
        ∃ k b, col[k]? = some b ∧ docEntry c (k, b) = some e := by
      simp only [List.mem_filterMap, Prod.exists, Map.mem_inOrder, hks.mem_iff, Map.mem_keys]
      constructor
      · rintro ⟨k, b, ⟨-, h1⟩, h2⟩
        exact ⟨k, b, h1, h2⟩
      · rintro ⟨k, b, h1, h2⟩
        exact ⟨k, b, ⟨⟨b, h1⟩, h1⟩, h2⟩
    rw [List.mem_append, hhere, ih]
    constructor
    · rintro (⟨k, b, h1, h2⟩ | ⟨c', col', k, b, h1, h2, h3⟩)
      · exact ⟨c, col, k, b, List.mem_cons_self, h1, h2⟩
      · exact ⟨c', col', k, b, List.mem_cons_of_mem _ h1, h2, h3⟩
    · rintro ⟨c', col', k, b, h1, h2, h3⟩
      rcases List.mem_cons.1 h1 with h1 | h1
      · cases h1; exact Or.inl ⟨k, b, h2, h3⟩
      · exact Or.inr ⟨c', col', k, b, h1, h2, h3⟩

theorem length_docEntries {cols : List (String × DashMap Bytes)} {es : List LogEntry}
    (h : DocEntries cols es) : es.length ≤ (cols.map fun p => p.2.size).sum := by
  induction h with
  | nil => simp
  | @cons c col cols es ks hks _ ih =>
    have hle := List.length_filterMap_le (docEntry c) (col.inOrder ks)
    rw [Map.length_inOrder hks] at hle
    simp only [List.length_append, List.map_cons, List.sum_cons]
    exact Nat.add_le_add hle ih

/-- The entries of a snapshot: the documents that decode, and the schemas. -/
theorem mem_enumerates {state : State} {schemas : DashMap Schema} {es : List LogEntry}
    (h : Enumerates state schemas es) {e : LogEntry} :
    e ∈ es ↔ (∃ c k b, state.bytes c k = some b ∧ docEntry c (k, b) = some e) ∨
      ∃ c s, schemas[c]? = some s ∧ schemaEntry (c, s) = e := by
  obtain ⟨cs, docs, ss, hcs, hdocs, hss, rfl⟩ := h
  rw [List.mem_append, mem_docEntries hdocs]
  refine or_congr ⟨?_, ?_⟩ ⟨?_, ?_⟩
  · rintro ⟨c, col, k, b, h1, h2, h3⟩
    exact ⟨c, k, b, by rw [State.bytes, (Map.mem_inOrder.1 h1).2]; exact h2, h3⟩
  · rintro ⟨c, k, b, h1, h2⟩
    obtain ⟨col, hcol, hb⟩ := Option.bind_eq_some_iff.1 h1
    exact ⟨c, col, k, b, Map.mem_inOrder.2 ⟨hcs.mem_iff.2 (Map.mem_keys.2 ⟨col, hcol⟩), hcol⟩, hb,
      h2⟩
  · intro h
    obtain ⟨⟨c, s⟩, hs, rfl⟩ := List.mem_map.1 h
    exact ⟨c, s, (Map.mem_inOrder.1 hs).2, rfl⟩
  · rintro ⟨c, s, hs, rfl⟩
    exact List.mem_map_of_mem (Map.mem_inOrder.2 ⟨hss.mem_iff.2 (Map.mem_keys.2 ⟨s, hs⟩), hs⟩)

/-- A snapshot announces at least as many entries as it holds. -/
theorem length_enumerates {state : State} {schemas : DashMap Schema} {es : List LogEntry}
    (h : Enumerates state schemas es) : es.length ≤ entryCount state schemas := by
  obtain ⟨cs, docs, ss, hcs, hdocs, hss, rfl⟩ := h
  have hsum := ((Map.inOrder_perm hcs).map fun p => p.2.size).sum_eq
  have hle := length_docEntries hdocs
  rw [List.length_append, List.length_map, Map.length_inOrder hss, entryCount]
  omega

/-- The entries of a snapshot of the maps fit their headers. -/
structure Recovered.Small (m : Recovered) : Prop where
  docs : ∀ c k b e, m.state.bytes c k = some b → docEntry c (k, b) = some e → e.Short
  schemas : ∀ (c : String) (s : Schema), m.schemas[c]? = some s → (schemaEntry (c, s)).Short
  count : entryCount m.state m.schemas < 2 ^ 64

/-- Whether a snapshot fits its headers can be checked entry by entry. -/
theorem Recovered.small_of_toList {m : Recovered}
    (hdocs : m.state.toList.all fun p => p.2.toList.all fun q =>
      (docEntry p.1 q).all fun e => decide e.Short)
    (hschemas : m.schemas.toList.all fun p => decide (schemaEntry p).Short)
    (hcount : entryCount m.state m.schemas < 2 ^ 64) : m.Small := by
  refine ⟨fun c k b e hb he => ?_, fun c s hs => ?_, hcount⟩
  · obtain ⟨col, hcol, hk⟩ := Option.bind_eq_some_iff.1 hb
    have hall := List.all_eq_true.1 hdocs (c, col) (Map.mem_toList.2 hcol)
    have hone := List.all_eq_true.1 hall (k, b) (Map.mem_toList.2 hk)
    rw [he] at hone
    exact of_decide_eq_true hone
  · exact of_decide_eq_true (List.all_eq_true.1 hschemas (c, s) (Map.mem_toList.2 hs))

variable [Crates]

/-- The schema compiles, also as it is read back. -/
def Compiles (schema : Json) : Prop :=
  (∃ p, Crates.validatorFor schema = .ok p) ∧ ∃ p, Crates.validatorFor schema.canon = .ok p

/-- The schema, if it compiles. -/
def compiled (schema : Json) : Option Json :=
  match Crates.validatorFor schema with
  | .ok _ => some schema
  | .error _ => none

theorem writes_docEntry {c k : String} {b : Bytes} {e : LogEntry} (now : UInt64)
    (h : docEntry c (k, b) = some e) {v : Json} (hv : msgpackToValue b = some v) (r : Reg) :
    e.canon.writes now r = if r = .doc c k then some (some (some v.canon.canon)) else none := by
  simp only [docEntry, hv, Option.map_some, Option.some.injEq] at h
  subst h
  have hch : (LogEntry.mk IKEY_INSERT c k v 0).canon.change now = some (.put c k v.canon) := rfl
  cases r <;> simp [LogEntry.writes, hch, Change.writes]

theorem writes_schemaEntry {c : String} {s : Schema} (now : UInt64) (r : Reg) :
    (schemaEntry (c, s)).canon.writes now r =
      if r = .schema c then (compiled s.value.canon).map fun v => some (some v) else none := by
  have hcmd : (schemaEntry (c, s)).canon.cmd = IKEY_SCHEMA := rfl
  have hval : (schemaEntry (c, s)).canon.value = s.value.canon := rfl
  have hcol : (schemaEntry (c, s)).canon.collection = c := rfl
  have hch : (schemaEntry (c, s)).canon.change now =
      match Crates.validatorFor s.value.canon with
      | .ok p => some (.schema c s.value.canon p)
      | .error _ => none := by
    rw [LogEntry.change, hcmd, hval, hcol]
    rfl
  rw [LogEntry.writes, hch, compiled]
  cases Crates.validatorFor s.value.canon with
  | error err => simp
  | ok p => cases r <;> simp [Change.writes]

/-- What is rebuilt from a snapshot of the maps. -/
def Recovered.reread (m : Recovered) : Reg → Held
  | .doc c k => m.shot (.doc c k)
  | .schema c => (m.schemas[c]?.bind fun s => compiled s.value.canon).map some
  | .expiry _ => none

/-- **A snapshot of the maps is read back**: the documents as they are, the schemas that
    compile, and no expiries. -/
theorem replay_snapshot {m : Recovered} {es : List LogEntry}
    (h : Enumerates m.state m.schemas es) (now : UInt64) (r : Reg) :
    Overwrite.replay (LogEntry.writes now) (fun _ => none) (es.map LogEntry.canon) r =
      m.reread r := by
  -- an entry that writes the register writes what the maps hold
  have hall : ∀ e ∈ es, ∀ v, e.canon.writes now r = some v → v = m.reread r := by
    intro e he v hv
    rcases (mem_enumerates h).1 he with ⟨c, k, b, hb, hdoc⟩ | ⟨c, s, hs, rfl⟩
    · obtain ⟨x, hx, -⟩ := Option.map_eq_some_iff.1 hdoc
      rw [writes_docEntry now hdoc hx] at hv
      split_ifs at hv with hreg
      cases hv
      simp [hreg, Recovered.reread, Recovered.shot, Recovered.view, hb, hx, Held.readBack]
    · rw [writes_schemaEntry now] at hv
      split_ifs at hv with hreg
      obtain ⟨v', hv', rfl⟩ := Option.map_eq_some_iff.1 hv
      simp [hreg, Recovered.reread, hs, hv']
  -- and what the maps hold is written
  have hsome : m.reread r ≠ none → ∃ e ∈ es, e.canon.writes now r = some (m.reread r) := by
    intro hne
    obtain ⟨o, ho⟩ := Option.ne_none_iff_exists'.1 hne
    cases r with
    | expiry c => cases ho
    | doc c k =>
      obtain ⟨x, hview, hx⟩ := Option.bind_eq_some_iff.1 ho
      obtain ⟨v, rfl, -⟩ := Option.map_eq_some_iff.1 hx
      obtain ⟨b, hb, hdec⟩ := Option.map_eq_some_iff.1 hview
      have hdoc : docEntry c (k, b) = some ⟨IKEY_INSERT, c, k, v, 0⟩ := by simp [docEntry, hdec]
      have hmem := (mem_enumerates h).2 (Or.inl ⟨c, k, b, hb, hdoc⟩)
      have hw := writes_docEntry now hdoc hdec (.doc c k)
      rw [if_pos rfl] at hw
      exact ⟨_, hmem, by rw [hw, hall _ hmem _ hw]⟩
    | schema c =>
      obtain ⟨v, hv, -⟩ := Option.map_eq_some_iff.1 ho
      obtain ⟨s, hs, hcomp⟩ := Option.bind_eq_some_iff.1 hv
      have hmem := (mem_enumerates h).2 (Or.inr ⟨c, s, hs, rfl⟩)
      have hw := writes_schemaEntry (c := c) (s := s) now (.schema c)
      rw [if_pos rfl, hcomp, Option.map_some] at hw
      exact ⟨_, hmem, by rw [hw, hall _ hmem _ hw]⟩
  refine Overwrite.replay_of_unique (fun e he v hv => ?_) fun hne => ?_
  · obtain ⟨e', he', rfl⟩ := List.mem_map.1 he
    exact hall e' he' v hv
  · obtain ⟨e, he, hw⟩ := hsome hne
    exact ⟨_, List.mem_map_of_mem he, hw⟩

/-- If all schemas compile, nothing but the expiries is missing. -/
theorem Recovered.reread_eq_shot {m : Recovered}
    (hcomp : ∀ (c : String) (s : Schema), m.schemas[c]? = some s → Compiles s.value) {r : Reg}
    (hr : r.IsData) : m.reread r = m.shot r := by
  cases r with
  | doc c k => rfl
  | expiry c => exact hr.elim
  | schema c =>
    rw [Recovered.reread, Recovered.shot, Recovered.view]
    cases hs : m.schemas[c]? with
    | none => rfl
    | some s =>
      obtain ⟨p, hp⟩ := (hcomp c s hs).2
      simp [compiled, hp, Held.readBack]

/-! ## Histories -/

/-- An entry of a transaction without a TTL that can be written and read back. -/
structure Durable (e : LogEntry) : Prop where
  short : e.Short
  notExpiry : canon e.cmd ≠ "TTL_EXPIRY"
  compiles : canon e.cmd = IKEY_SCHEMA → Compiles e.value

/-- What the operation that logs `e` does to the maps. -/
def perform (m : Recovered) (e : LogEntry) : Recovered :=
  applyEntry 0 m { e with cmd := canon e.cmd }

/-- The files after a transaction was appended to the log. -/
def Disk.append (d : Disk) (w : Transaction) : Disk :=
  { d with log := some (w.entries.foldl appendEntry (openAppend d.log)) }

/-- The files after a compaction of the maps `m`. -/
def Disk.compacted (d : Disk) (m : Recovered) (w : World) : Disk :=
  (compactFromMaps .sync m.state m.schemas ⟨d, w, 0, []⟩).2.disk

/-- The files and the maps after transactions and compactions, one after another. -/
inductive History : Disk → Recovered → Prop
  | start : History ⟨some [], none, none, none⟩ .empty
  | commit {d : Disk} {m : Recovered} (w : Transaction) (hshort : ∀ e ∈ w.entries, e.Short)
    (hops : ∀ e ∈ w.ops, Durable e) (h : History d m) :
    History (d.append w) (w.ops.foldl perform m)
  | compact {d : Disk} {m : Recovered} (w : World) (hcalm : w.Calm) (hsmall : m.Small)
    (h : History d m) : History (d.compacted m w) m

/-- A snapshot of the maps rebuilds what the files rebuild. -/
structure Mirrors (d : Disk) (m : Recovered) : Prop where
  sound : d.Sound
  log : ∃ L, d.log = some (logBytes L) ∧ ∀ e ∈ L, e.Short
  compiles : ∀ (c : String) (s : Schema), m.schemas[c]? = some s → Compiles s.value
  data : ∀ now r, Reg.IsData r → (d.rebuilt now).view r = m.shot r

/-! ### Transactions -/

section

omit [Crates]

theorem writes_put (c k : String) (v : Json) (r : Reg) :
    (Change.put c k v.canon).writes r = ((Change.put c k v).writes r).map Held.readBack := by
  cases r <;> simp only [Change.writes, Option.map_none]
  split_ifs <;> simp [Held.readBack]

theorem writes_remove (c k : String) (r : Reg) :
    (Change.remove c k).writes r = ((Change.remove c k).writes r).map Held.readBack := by
  cases r <;> simp only [Change.writes, Option.map_none]
  split_ifs <;> rfl

theorem writes_drop (c : String) (r : Reg) :
    (Change.drop c).writes r = ((Change.drop c).writes r).map Held.readBack := by
  cases r <;> simp only [Change.writes, Option.map_none] <;> split_ifs <;> rfl

theorem writes_schema (c : String) (v : Json) (p p' : Json → Bool) (r : Reg) :
    (Change.schema c v.canon p').writes r =
      ((Change.schema c v p).writes r).map Held.readBack := by
  cases r <;> simp only [Change.writes, Option.map_none]
  split_ifs <;> rfl

end

/-- An entry that is read back writes what its operation did, read back. -/
theorem Durable.writes {e : LogEntry} (h : Durable e) (now : UInt64) (r : Reg) :
    e.canon.writes now r =
      (LogEntry.writes 0 { e with cmd := canon e.cmd } r).map Held.readBack := by
  have hcmd : e.canon.cmd = canon e.cmd := rfl
  have hval : e.canon.value = e.value.canon := rfl
  simp only [LogEntry.writes, LogEntry.change, hcmd, hval]
  split_ifs with h1 h2 h3 h4 h5
  · exact writes_put ..
  · exact writes_remove ..
  · exact writes_drop ..
  · exact absurd h4 h.notExpiry
  · obtain ⟨⟨p, hp⟩, p', hp'⟩ := h.compiles h5
    rw [hp, hp']
    exact writes_schema ..
  · rfl

theorem shot_perform {e : LogEntry} (h : Durable e) (m : Recovered) (now : UInt64) (r : Reg) :
    (perform m e).shot r = (e.canon.writes now r).getD (m.shot r) := by
  have hview := view_applyEntry 0 m (e := { e with cmd := canon e.cmd }) h.short.fits.value
  rw [Recovered.shot, perform, hview, h.writes, Overwrite.apply, Recovered.shot]
  cases LogEntry.writes 0 { e with cmd := canon e.cmd } r <;> rfl

/-- **The maps after a transaction**: their snapshot is what its entries, read back, write over
    the snapshot before. -/
theorem shot_foldl_perform {ops : List LogEntry} (h : ∀ e ∈ ops, Durable e) (m : Recovered)
    (now : UInt64) (r : Reg) : (ops.foldl perform m).shot r =
      Overwrite.replay (LogEntry.writes now) m.shot (ops.map LogEntry.canon) r := by
  induction ops generalizing m with
  | nil => rfl
  | cons e ops ih =>
    rw [List.foldl_cons, ih fun e' he' => h e' (List.mem_cons_of_mem _ he'), List.map_cons,
      Overwrite.replay_eq, Overwrite.replay_eq, Overwrite.last_cons,
      shot_perform (h e List.mem_cons_self) m now]
    cases Overwrite.last (LogEntry.writes now) (ops.map LogEntry.canon) r <;> rfl

/-- The schemas in memory compile. -/
theorem compiles_perform {e : LogEntry} (h : Durable e) {m : Recovered}
    (hm : ∀ (c : String) (s : Schema), m.schemas[c]? = some s → Compiles s.value) :
    ∀ (c : String) (s : Schema), (perform m e).schemas[c]? = some s → Compiles s.value := by
  intro c s hs
  simp only [perform, applyEntry] at hs
  split_ifs at hs with h1 h2 h3 h4 h5
  · exact hm c s hs
  · exact hm c s hs
  · exact hm c s hs
  · exact absurd h4 h.notExpiry
  · obtain ⟨⟨p, hp⟩, -⟩ := id (h.compiles h5)
    rw [hp] at hs
    simp only [Map.get?_insert] at hs
    split_ifs at hs
    · cases hs; exact h.compiles h5
    · exact hm c s hs
  · exact hm c s hs

theorem compiles_foldl_perform {ops : List LogEntry} (h : ∀ e ∈ ops, Durable e) {m : Recovered}
    (hm : ∀ (c : String) (s : Schema), m.schemas[c]? = some s → Compiles s.value) :
    ∀ (c : String) (s : Schema), (ops.foldl perform m).schemas[c]? = some s → Compiles s.value := by
  induction ops generalizing m with
  | nil => exact hm
  | cons e ops ih =>
    exact ih (fun e' he' => h e' (List.mem_cons_of_mem _ he'))
      (compiles_perform (h e List.mem_cons_self) hm)

theorem Mirrors.commit {d : Disk} {m : Recovered} (h : Mirrors d m) {w : Transaction}
    (hshort : ∀ e ∈ w.entries, e.Short) (hops : ∀ e ∈ w.ops, Durable e) :
    Mirrors (d.append w) (w.ops.foldl perform m) := by
  obtain ⟨L, hlog, hL⟩ := h.log
  have hnew : (d.append w).log = some (logBytes (L ++ w.entries)) := by
    rw [Disk.append, foldl_appendEntry, openAppend, hlog, Option.getD_some, logBytes_append]
  have hnewShort : ∀ e ∈ L ++ w.entries, e.Short := by
    intro e he
    rcases List.mem_append.1 he with he | he
    · exact hL e he
    · exact hshort e he
  have hsound : (d.append w).Sound := h.sound
  refine ⟨hsound, ⟨_, hnew, hnewShort⟩, compiles_foldl_perform hops h.compiles,
    fun now r hr => ?_⟩
  have heff := effects_append_entries (L.map LogEntry.canon) [w]
  simp only [List.flatMap_cons, List.flatMap_nil, List.append_nil] at heff
  have hlast : (d.append w).lastLogged now r =
      (Overwrite.last (LogEntry.writes now) (w.ops.map LogEntry.canon) r).or
        (d.lastLogged now r) := by
    rw [Disk.lastLogged, Disk.lastLogged, hnew, hlog, streamLogEntries_whole hnewShort,
      streamLogEntries_whole hL, List.map_append,
      heff, Overwrite.last_append]
  rw [view_rebuilt hsound, hlast, shot_foldl_perform hops m now r, Overwrite.replay_eq,
    ← h.data now r hr, view_rebuilt h.sound]
  cases Overwrite.last (LogEntry.writes now) (w.ops.map LogEntry.canon) r <;> rfl

/-! ### Compactions -/

theorem sound_installed {m : Recovered} (hm : m.Small) {es : List LogEntry}
    (hes : Enumerates m.state m.schemas es) {d : Disk}
    (hd : d.snapshot = some (snapshotFile 0 (entryCount m.state m.schemas) es)) :
    d.Sound ∧ (loadSnapshot d.snapshot).1 = es.map LogEntry.canon := by
  have hshort : ∀ e ∈ es, e.Short ∧ (e.cmd = IKEY_INSERT ∨ e.cmd = SCHEMA) := by
    intro e he
    rcases (mem_enumerates hes).1 he with ⟨c, k, b, hb, hdoc⟩ | ⟨c, s, hs, rfl⟩
    · obtain ⟨v, -, rfl⟩ := Option.map_eq_some_iff.1 hdoc
      exact ⟨hm.docs c k b _ hb hdoc, Or.inl rfl⟩
    · exact ⟨hm.schemas c s hs, Or.inr rfl⟩
  refine ⟨Or.inr ⟨_, es, hm.count, hshort, hd⟩, ?_⟩
  rw [hd, loadSnapshot_snapshotFile (fun e he => (hshort e he).1) (by norm_num) hm.count,
    List.take_of_length_le (length_enumerates hes)]

/-- Once the new snapshot is installed, the log may be there or not. -/
theorem Mirrors.view_installed {d d' : Disk} {m : Recovered} (h : Mirrors d m) (hm : m.Small)
    {es : List LogEntry} (hes : Enumerates m.state m.schemas es)
    (hsnap : d'.snapshot = some (snapshotFile 0 (entryCount m.state m.schemas) es))
    (hlog : d'.log = d.log ∨ d'.log = some []) (now : UInt64) {r : Reg} (hr : r.IsData) :
    (d'.rebuilt now).view r = (d.rebuilt now).view r := by
  obtain ⟨hsound, hload⟩ := sound_installed hm hes hsnap
  have hheld : d'.held now r = (d.rebuilt now).view r := by
    rw [Disk.held, hload, replay_snapshot hes now, Recovered.reread_eq_shot h.compiles hr,
      h.data now r hr]
  rw [view_rebuilt hsound, hheld]
  rcases hlog with hlog | hlog
  · -- replaying the log on its own result
    rw [Disk.lastLogged, hlog, ← Disk.lastLogged, view_rebuilt h.sound]
    cases d.lastLogged now r <;> rfl
  · rw [Disk.lastLogged, hlog]
    rfl

/-- The files after a compaction in which nothing fails. -/
theorem files_compacted {w : World} (hw : w.Calm) (d : Disk) (m : Recovered) :
    ∃ es, Enumerates m.state m.schemas es ∧ (d.compacted m w).log = some [] ∧
      (d.compacted m w).snapshot = some (snapshotFile 0 (entryCount m.state m.schemas) es) := by
  refine wp_final (P := fun fs' : Fs => ∃ es, Enumerates m.state m.schemas es ∧
    fs'.disk.log = some [] ∧
    fs'.disk.snapshot = some (snapshotFile 0 (entryCount m.state m.schemas) es)) ?_
  exact wp_mono (wp_compactFromMaps_calm hw m.state m.schemas)
    (fun _ _ ⟨es, h1, h2, h3, _⟩ => ⟨es, h1, h2, h3⟩) (fun _ _ h => h.elim)

theorem Mirrors.compact {d : Disk} {m : Recovered} (h : Mirrors d m) (hm : m.Small) {w : World}
    (hw : w.Calm) : Mirrors (d.compacted m w) m := by
  obtain ⟨es, hes, hlog, hsnap⟩ := files_compacted hw d m
  refine ⟨(sound_installed hm hes hsnap).1, ⟨[], hlog, by simp⟩, h.compiles, fun now r hr => ?_⟩
  rw [h.view_installed hm hes hsnap (Or.inr hlog) now hr, h.data now r hr]

/-- **After a compaction the maps are rebuilt from their snapshot.** -/
theorem view_compacted {m : Recovered} (hm : m.Small) {w : World} (hw : w.Calm) (d : Disk)
    (now : UInt64) (r : Reg) : ((d.compacted m w).rebuilt now).view r = m.reread r := by
  obtain ⟨es, hes, hlog, hsnap⟩ := files_compacted hw d m
  obtain ⟨hsound, hload⟩ := sound_installed hm hes hsnap
  have hnone : (d.compacted m w).lastLogged now r = none := by
    rw [Disk.lastLogged, hlog]
    rfl
  rw [view_rebuilt hsound, hnone, Option.getD_none, Disk.held, hload, replay_snapshot hes now]

/-- **Every history keeps the maps and the files in step.** -/
theorem History.mirrors {d : Disk} {m : Recovered} (h : History d m) : Mirrors d m := by
  induction h with
  | start =>
    refine ⟨Or.inl rfl, ⟨[], rfl, by simp⟩, by simp [Recovered.empty], fun now r _ => ?_⟩
    have hview : (Disk.rebuilt ⟨some [], none, none, none⟩ now).view r = Recovered.empty.view r := by
      rw [show Disk.rebuilt ⟨some [], none, none, none⟩ now = Recovered.empty from rfl]
    rw [hview, Recovered.shot, view_empty]
    rfl
  | commit w hshort hops _ ih => exact ih.commit hshort hops
  | compact w hcalm hsmall _ ih => exact ih.compact hsmall hcalm

/-- **A crash during a compaction costs nothing, unless it comes between moving the old
    snapshot and installing the new one** and the old snapshot held something that the log did
    not write again. -/
theorem compaction_crash_iff {d : Disk} {m : Recovered} (h : History d m) (hm : m.Small)
    {w : World} (hw : w.Calm) (now : UInt64) :
    ∀ x ∈ (compactFromMaps .sync m.state m.schemas ⟨d, w, 0, []⟩).2.trace,
      SameData now d x.2 ↔ (x.1 = .backupSnapshot → ∀ r : Reg, r.IsData →
        d.lastLogged now r = none → d.held now r = none) := by
  have hmirror := h.mirrors
  obtain ⟨es, hes, htrace⟩ : ∃ es, Enumerates m.state m.schemas es ∧
      ∀ x ∈ (compactFromMaps .sync m.state m.schemas ⟨d, w, 0, []⟩).2.trace,
        OnTheWay d (snapshotFile 0 (entryCount m.state m.schemas) es) x := by
    refine wp_final (P := fun fs' : Fs => ∃ es, Enumerates m.state m.schemas es ∧
      ∀ x ∈ fs'.trace, OnTheWay d (snapshotFile 0 (entryCount m.state m.schemas) es) x) ?_
    exact wp_mono (wp_compactFromMaps_calm hw m.state m.schemas)
      (fun _ _ ⟨es, h1, _, _, h4⟩ => ⟨es, h1, h4⟩) (fun _ _ h => h.elim)
  intro x hx
  rcases htrace x hx with ⟨hop, hlog, hsnap⟩ | ⟨hop, ⟨hlog, hsnap⟩ | ⟨hsnap, hlog⟩⟩
  · -- between moving the old snapshot and installing the new one
    have hiff : SameData now d x.2 ↔ d.Spared now True False :=
      sameData_iff_spared hmirror.sound now (by rw [if_pos trivial, hsnap])
        (by rw [if_neg not_false, hlog])
    rw [hiff]
    simp [Disk.Spared, hop]
  · refine iff_of_true (fun r _ => ?_) fun hback => absurd hback hop
    rw [Disk.rebuilt, Disk.entries, hlog, hsnap]
    rfl
  · exact iff_of_true (fun r hr => hmirror.view_installed hm hes hsnap hlog now hr)
      fun hback => absurd hback hop

/-! ### One document -/

section

omit [Crates]

/-- The maps after the transaction that inserts the document `a`. -/
def oneDoc : Recovered := (insertTx "tx1" "a").ops.foldl (@perform Crates.plain) .empty

/-- The files after that transaction and a compaction. -/
def compactedDisk : Disk :=
  @Disk.compacted Crates.plain (Disk.append ⟨some [], none, none, none⟩ (insertTx "tx1" "a")) oneDoc
    (World.plain 0 [])

theorem oneDoc_small : oneDoc.Small :=
  Recovered.small_of_toList (by decide +kernel) (by decide +kernel) (by decide +kernel)

theorem oneDoc_history :
    @History Crates.plain (Disk.append ⟨some [], none, none, none⟩ (insertTx "tx1" "a")) oneDoc := by
  refine @History.commit Crates.plain _ _ (insertTx "tx1" "a") (by decide +kernel) ?_
    (@History.start Crates.plain)
  intro e he
  rw [List.mem_singleton.1 he]
  exact @Durable.mk Crates.plain _ (by decide +kernel) (by decide) fun h => absurd h (by decide)

theorem compactedDisk_history : @History Crates.plain compactedDisk oneDoc :=
  @History.compact Crates.plain _ _ (World.plain 0 []) (plain_calm 0) oneDoc_small oneDoc_history

/-- The files after each operation of another compaction. -/
def secondTrace : List (FileOp × Disk) :=
  (@compactFromMaps Crates.plain .sync oneDoc.state oneDoc.schemas
    ⟨compactedDisk, World.plain 0 [], 0, []⟩).2.trace

/-- Its stop right after the old snapshot was moved. -/
def secondStop : FileOp × Disk := secondTrace.getD 4 (.reopenLog, compactedDisk)

theorem secondStop_mem : secondStop ∈ secondTrace := by
  have hlt : 4 < secondTrace.length := by decide +kernel
  rw [secondStop, List.getD_eq_getElem?_getD, List.getElem?_eq_getElem hlt, Option.getD_some]
  exact List.getElem_mem hlt

theorem compaction_crash_iff_second :
    @SameData Crates.plain 0 compactedDisk secondStop.2 ↔
      (secondStop.1 = .backupSnapshot → ∀ r : Reg, r.IsData →
        @Disk.lastLogged Crates.plain compactedDisk 0 r = none →
          @Disk.held Crates.plain compactedDisk 0 r = none) :=
  @compaction_crash_iff Crates.plain compactedDisk oneDoc compactedDisk_history oneDoc_small
    (World.plain 0 []) (plain_calm 0) 0 secondStop secondStop_mem

/-- **A crash between two renames loses the database.** When the process stops after the second
    compaction moved the old snapshot, neither a snapshot nor the log holds the document. -/
theorem crash_loses_snapshot :
    ∃ (d : Disk) (m : Recovered) (w : World), @History Crates.plain d m ∧ m.Small ∧ w.Calm ∧
      ∃ x ∈ (@compactFromMaps Crates.plain .sync m.state m.schemas ⟨d, w, 0, []⟩).2.trace,
        ¬ @SameData Crates.plain 0 d x.2 := by
  refine ⟨compactedDisk, oneDoc, World.plain 0 [], compactedDisk_history, oneDoc_small,
    plain_calm 0, secondStop, secondStop_mem, fun h => ?_⟩
  have hbefore : (@Disk.rebuilt Crates.plain compactedDisk 0).state.bytes "c" "a" =
      some (valueToMsgpack (.obj [])) := by decide +kernel
  have hafter : (@Disk.rebuilt Crates.plain secondStop.2 0).state.bytes "c" "a" = none := by
    decide +kernel
  have hview := h (.doc "c" "a") trivial
  simp only [Recovered.view, hbefore, hafter] at hview
  cases hview

end

end MoltenDB
