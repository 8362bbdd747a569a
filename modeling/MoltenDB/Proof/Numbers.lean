/-
  No two documents of a collection ever have one sequence number, and the index finds them by it.

  A key uses a number where its document has it in memory, and where a restart would bring such a
  document back: from the log as it takes effect, or with the open transaction committed
  (`Db.OwnNumbers`).  Each operation of the engine keeps this, whatever writes fail.
-/
import MoltenDB.Lib.Numbering
import MoltenDB.Proof.Counters
import MoltenDB.Proof.Restart

namespace Prog.Eff

variable {ε σ α β : Type} {P : σ → Prop} {m : Eff ε σ α}

/-- From states with `P`, `m` leads to one with `P`, whatever its outcome. -/
def Keeps (P : σ → Prop) (m : Eff ε σ α) : Prop :=
  ∀ s, P s → wp m (fun _ => P) (fun _ => P) s

theorem Keeps.bind {f : α → Eff ε σ β} (hm : Keeps P m) (hf : ∀ a, Keeps P (f a)) :
    Keeps P (m >>= f) := fun s hs => by
  rw [wp_bind]
  exact wp_mono (hm s hs) (fun a s' hs' => hf a s' hs') fun _ _ h => h

theorem keeps_pure (a : α) : Keeps P (pure a : Eff ε σ α) := fun _ h => h

theorem keeps_get : Keeps P (get : Eff ε σ σ) := fun _ h => h

theorem keeps_modify {f : σ → σ} (h : ∀ s, P s → P (f s)) : Keeps P (modify f : Eff ε σ Unit) := h

theorem Keeps.outcome (h : Keeps P m) : Keeps P (outcome m) := fun s hs => by
  rw [wp_outcome]
  exact h s hs

end Prog.Eff

namespace MoltenDB

open Wire Prog Prog.Eff SystemFields LogCommand Operations Numbering

/-- The number under which a document is stored. -/
def Db.numberOf [Crates] (db : Db) (c k : String) : Option UInt64 := (db.bytes c k).map readMsgpackSeqToken

/-- The key that the index of a collection has under a number. -/
def Db.keyAt (db : Db) (c : String) (n : UInt64) : Option String := (db.seqIndex[c]?.getD ∅)[n]?

/-- The number of a document in a register. -/
def Held.number [Crates] (h : Held) : Option UInt64 :=
  h.join.map fun v => readMsgpackSeqToken (valueToMsgpack v)

section

variable [Crates]

/-- What a restart at the time `t` brings back. -/
def durableAt (t : UInt64) (log : List LogEntry) : Reg → Held :=
  Overwrite.replay (LogEntry.writes t) (fun _ => none) (logReader log).applied

/-- What it would if the open transaction were committed. -/
def pendingAt (t : UInt64) (log : List LogEntry) : Reg → Held :=
  Overwrite.replay (LogEntry.writes t) (durableAt t log) (logReader log).buffer

/-- The key uses the number, in memory or in one of the views of the log. -/
def Db.Uses (db : Db) (views : List (Reg → Held)) (c k : String) (n : UInt64) : Prop :=
  db.numberOf c k = some n ∨ ∃ v ∈ views, (v (.doc c k)).number = some n

/-- No two keys use the same number, the counters are above all, and the indexes are those of the
    documents. -/
structure Db.OwnNumbers (db : Db) (views : List (Reg → Held)) : Prop where
  given : ∀ c, Given (db.nextNumber c) (db.Uses views c)
  index : ∀ c, Inverse (db.numberOf c) (db.keyAt c)

/-- The invariant between operations. -/
def Db.Steady (t : UInt64) (db : Db) : Prop := db.OwnNumbers [durableAt t db.log]

/-- The invariant in the transaction `id`. -/
structure Db.Writing (t : UInt64) (id : String) (db : Db) : Prop where
  active : (logReader db.log).active = some id
  numbers : db.OwnNumbers [durableAt t db.log, pendingAt t db.log]

/-- What the numbers depend on is the same. -/
structure Db.SameNumbers (db db' : Db) : Prop where
  state : db'.state = db.state
  seqIndex : db'.seqIndex = db.seqIndex
  seqCounters : db'.seqCounters = db.seqCounters

variable {t : UInt64} {id c : String} {db db' : Db} {views views' : List (Reg → Held)}

/-- Documents may be gone with their entries in the index, and numbers out of use. -/
theorem Db.OwnNumbers.mono (h : db.OwnNumbers views) (hindex : ∀ c, Inverse (db'.numberOf c) (db'.keyAt c))
    (hcounters : db'.seqCounters = db.seqCounters)
    (huses : ∀ c k n, db'.Uses views' c k n → db.Uses views c k n) : db'.OwnNumbers views' := by
  refine ⟨fun c => (h.given c).mono (huses c) fun n hn => ?_, hindex⟩
  rw [Db.nextNumber, hcounters]
  exact hn

theorem Db.OwnNumbers.same (h : db.OwnNumbers views) (hsame : db.SameNumbers db')
    (hviews : ∀ v' ∈ views', ∀ c k n, (v' (.doc c k)).number = some n → db.Uses views c k n) :
    db'.OwnNumbers views' := by
  have hnum : ∀ c k, db'.numberOf c k = db.numberOf c k := fun c k => by
    rw [Db.numberOf, Db.bytes, hsame.state]
    rfl
  refine h.mono (fun c => (h.index c).congr (hnum c) fun n => ?_) hsame.seqCounters fun c k n hn => ?_
  · rw [Db.keyAt, hsame.seqIndex]
    rfl
  · rcases hn with hmem | ⟨v', hv', hn⟩
    · exact Or.inl (hnum c k ▸ hmem)
    · exact hviews v' hv' c k n hn

/-! ## Logging -/

/-- An entry uses a number where it inserts a document. -/
theorem number_apply {e : LogEntry} {v : Reg → Held} {k : String} {n : UInt64}
    (h : (Overwrite.apply (LogEntry.writes t) v e.canon (.doc c k)).number = some n) :
    (v (.doc c k)).number = some n ∨ LogCommand.canon e.cmd = IKEY_INSERT ∧ e.collection = c ∧
      e.key = k ∧ readMsgpackSeqToken (valueToMsgpack e.value.canon) = n := by
  rw [Overwrite.apply] at h
  cases hw : e.canon.writes t (.doc c k) with
  | none =>
    rw [hw] at h
    exact Or.inl h
  | some held =>
    rw [hw, Option.getD_some] at h
    obtain ⟨v', hjoin, hn⟩ := Option.map_eq_some_iff.1 h
    obtain rfl := Option.join_eq_some_iff.1 hjoin
    obtain ⟨hcmd, hcol, hkey, hv'⟩ := LogEntry.doc_of_writes _ hw
    obtain rfl := Option.some.inj hv'
    refine Or.inr ⟨hcmd, hcol, hkey, ?_⟩
    rw [← hn]
    simp only [LogEntry.canon, Json.canon_canon]

theorem Db.Writing.steady (h : db.Writing t id) : db.Steady t :=
  h.numbers.same ⟨rfl, rfl, rfl⟩ fun v' hv' _ _ _ hn =>
    Or.inr ⟨v', List.mem_cons.2 (Or.inl (List.mem_singleton.1 hv')), hn⟩

/-- Steps that leave documents, index, counters and log alone. -/
theorem Db.Steady.idle (h : db.Steady t) (hsame : db.SameNumbers db') (hlog : db'.log = db.log) :
    db'.Steady t := by
  refine h.same hsame fun v' hv' _ _ _ hn => Or.inr ⟨v', ?_, hn⟩
  rw [hlog] at hv'
  exact hv'

theorem Db.Writing.idle (h : db.Writing t id) (hsame : db.SameNumbers db') (hlog : db'.log = db.log) :
    db'.Writing t id := by
  refine ⟨hlog ▸ h.active, h.numbers.same hsame fun v' hv' _ _ _ hn => Or.inr ⟨v', ?_, hn⟩⟩
  rw [hlog] at hv'
  exact hv'

omit [Crates] in
/-- An entry of an open transaction is buffered. -/
theorem logReader_op {log : List LogEntry} {e : LogEntry} (hactive : (logReader log).active = some id)
    (hop : LogCommand.canon e.cmd ≠ IKEY_TX_BEGIN ∧ LogCommand.canon e.cmd ≠ IKEY_TX_COMMIT) :
    logReader (log ++ [e]) =
      { logReader log with buffer := (logReader log).buffer ++ [e.canon] } := by
  obtain ⟨cmd, c, k, v, time⟩ := e
  rw [logReader_append, toRec_canon_op hop, Journal.Reader.step, if_pos (by rw [hactive]; rfl)]

theorem durableAt_op {log : List LogEntry} {e : LogEntry} (hactive : (logReader log).active = some id)
    (hop : LogCommand.canon e.cmd ≠ IKEY_TX_BEGIN ∧ LogCommand.canon e.cmd ≠ IKEY_TX_COMMIT) :
    durableAt t (log ++ [e]) = durableAt t log := by
  rw [durableAt, logReader_op hactive hop]
  rfl

theorem pendingAt_op {log : List LogEntry} {e : LogEntry} (hactive : (logReader log).active = some id)
    (hop : LogCommand.canon e.cmd ≠ IKEY_TX_BEGIN ∧ LogCommand.canon e.cmd ≠ IKEY_TX_COMMIT) :
    pendingAt t (log ++ [e]) = Overwrite.apply (LogEntry.writes t) (pendingAt t log) e.canon := by
  rw [pendingAt, durableAt_op hactive hop, logReader_op hactive hop]
  exact Overwrite.replay_append ..

/-- A drop leaves no document of the collection pending. -/
theorem pendingAt_drop {log : List LogEntry} {time : UInt64}
    (hactive : (logReader log).active = some id) (k : String) :
    pendingAt t (log ++ [⟨IKEY_DROP, c, "*", .null, time⟩]) (.doc c k) = none := by
  have hop : LogCommand.canon IKEY_DROP ≠ IKEY_TX_BEGIN ∧
      LogCommand.canon IKEY_DROP ≠ IKEY_TX_COMMIT := by decide
  have hwrites : (LogEntry.mk IKEY_DROP c "*" .null time).canon.writes t (.doc c k) = some none :=
    writes_of_drops ⟨rfl, rfl⟩ k
  rw [pendingAt_op hactive hop, Overwrite.apply, hwrites]
  rfl

/-- A commit makes durable what is pending. -/
theorem durableAt_commit {log : List LogEntry} {time : UInt64}
    (hactive : (logReader log).active = some id) :
    durableAt t (log ++ [⟨IKEY_TX_COMMIT, c, id, .null, time⟩]) = pendingAt t log := by
  rw [durableAt, logReader_append, toRec_canon_commit, Journal.Reader.step, if_pos hactive]
  exact Overwrite.replay_append ..

/-- An entry is logged in the transaction; if it inserts a document, that is the one in memory. -/
theorem Db.Writing.logged (h : db.Writing t id) {e : LogEntry}
    (hop : LogCommand.canon e.cmd ≠ IKEY_TX_BEGIN ∧ LogCommand.canon e.cmd ≠ IKEY_TX_COMMIT)
    (hput : LogCommand.canon e.cmd = IKEY_INSERT → db.numberOf e.collection e.key =
      some (readMsgpackSeqToken (valueToMsgpack e.value.canon)))
    (hsame : db.SameNumbers db') (hlog : db'.log = db.log ++ [e]) : db'.Writing t id := by
  refine ⟨?_, h.numbers.same hsame fun v' hv' c' k' n hn => ?_⟩
  · rw [hlog, logReader_op h.active hop]
    exact h.active
  · rw [hlog, durableAt_op h.active hop, pendingAt_op h.active hop] at hv'
    rcases List.mem_cons.1 hv' with rfl | hv'
    · exact Or.inr ⟨_, List.mem_cons_self, hn⟩
    · obtain rfl := List.mem_singleton.1 hv'
      rcases number_apply hn with hold | ⟨hcmd, rfl, rfl, hnew⟩
      · exact Or.inr ⟨_, List.mem_cons_of_mem _ List.mem_cons_self, hold⟩
      · exact Or.inl ((hput hcmd).trans (congrArg some hnew))

theorem Db.Writing.committed (h : db.Writing t id) {time : UInt64} (hsame : db.SameNumbers db')
    (hlog : db'.log = db.log ++ [⟨IKEY_TX_COMMIT, c, id, .null, time⟩]) : db'.Steady t := by
  refine h.numbers.same hsame fun v' hv' _ _ _ hn => Or.inr ⟨v', ?_, hn⟩
  rw [hlog, durableAt_commit h.active, List.mem_singleton] at hv'
  rw [hv', List.mem_cons, List.mem_singleton]
  exact Or.inr rfl

theorem Db.Writing.wp_log (h : db.Writing t id) {cmd k : String} {v : Json}
    (hop : LogCommand.canon cmd ≠ IKEY_TX_BEGIN ∧ LogCommand.canon cmd ≠ IKEY_TX_COMMIT)
    (hput : LogCommand.canon cmd = IKEY_INSERT → db.numberOf c k =
      some (readMsgpackSeqToken (valueToMsgpack v.canon))) :
    wp (writeNew cmd c k v) (fun _ => Db.Writing t id) (fun _ => Db.Steady t) db := by
  refine wp_writeNew (fun time n => ?_) fun _ n => ?_
  · exact h.logged (e := ⟨cmd, c, k, v, time⟩) hop hput ⟨rfl, rfl, rfl⟩ rfl
  · exact h.steady.idle ⟨rfl, rfl, rfl⟩ rfl

theorem Db.Steady.wp_begin (h : db.Steady t) (id : String) :
    wp (writeNew IKEY_TX_BEGIN c id .null) (fun _ => Db.Writing t id) (fun _ => Db.Steady t) db := by
  refine wp_writeNew (fun time n => ?_) fun _ n => ?_
  · have hstep := logReader_append db.log ⟨IKEY_TX_BEGIN, c, id, .null, time⟩
    rw [toRec_canon_begin, Journal.Reader.step] at hstep
    refine ⟨by rw [hstep], h.same ⟨rfl, rfl, rfl⟩ fun v' hv' _ _ _ hn => Or.inr ⟨v', ?_, hn⟩⟩
    rw [List.mem_singleton]
    simpa [durableAt, pendingAt, hstep, Overwrite.replay] using hv'
  · exact h.idle ⟨rfl, rfl, rfl⟩ rfl

theorem Db.Writing.wp_commit (h : db.Writing t id) :
    wp (writeNew IKEY_TX_COMMIT c id .null) (fun _ => Db.Steady t) (fun _ => Db.Steady t) db := by
  refine wp_writeNew (fun time n => ?_) fun _ n => ?_
  · exact h.committed ⟨rfl, rfl, rfl⟩ rfl
  · exact h.steady.idle ⟨rfl, rfl, rfl⟩ rfl

/-! ## Changes in memory -/

theorem Db.Writing.changed (h : db.Writing t id) (hlog : db'.log = db.log)
    (hnumbers : db'.OwnNumbers [durableAt t db.log, pendingAt t db.log]) : db'.Writing t id :=
  ⟨hlog ▸ h.active, hlog ▸ hnumbers⟩

/-- A document is removed by its key, and from the index by its number. -/
theorem Db.OwnNumbers.erase (h : db.OwnNumbers views) {k : String} (hstate : db'.state =
      db.state.alter c fun col => col.map fun col => col.erase k)
    (hindex : ∀ c', db'.seqIndex[c']? = if c' = c then db.seqIndex[c]?.map fun idx =>
      (db.bytes c k).elim idx fun b => idx.erase (readMsgpackSeqToken b) else db.seqIndex[c']?)
    (hcounters : db'.seqCounters = db.seqCounters) : db'.OwnNumbers views := by
  have hnum : ∀ c' k', db'.numberOf c' k' = if c' = c ∧ k' = k then none else db.numberOf c' k' := by
    intro c' k'
    have hbytes := bytes_remove db.state c k c' k'
    rw [← hstate] at hbytes
    rw [Db.numberOf, show db'.bytes c' k' = _ from hbytes]
    split_ifs
    · rfl
    · rfl
  have hkey : ∀ n, db'.keyAt c n = if db.numberOf c k = some n then none else db.keyAt c n := by
    intro n
    rw [Db.keyAt, hindex, if_pos rfl, Db.keyAt, Db.numberOf]
    cases db.bytes c k with
    | none => simp
    | some b => cases db.seqIndex[c]? <;> simp [Map.get?_erase, eq_comm]
  refine h.mono (fun c' => ?_) hcounters fun c' k' n hn => ?_
  · by_cases hc : c' = c
    · rw [hc]
      exact (h.index c).erase (fun k' => by rw [hnum]; simp) hkey
    · refine (h.index c').congr (fun k' => ?_) fun n => ?_
      · rw [hnum, if_neg fun hck => hc hck.1]
      · rw [Db.keyAt, hindex, if_neg hc]
        rfl
  · refine hn.imp_left fun hn => ?_
    rw [hnum] at hn
    split_ifs at hn
    exact hn

/-- A collection is removed with its index. -/
theorem Db.OwnNumbers.drop (h : db.OwnNumbers views) (hstate : db'.state = db.state.erase c)
    (hindex : db'.seqIndex = db.seqIndex.erase c) (hcounters : db'.seqCounters = db.seqCounters) :
    db'.OwnNumbers views := by
  have hnum : ∀ c' k', db'.numberOf c' k' = if c' = c then none else db.numberOf c' k' := by
    intro c' k'
    have hbytes := bytes_drop db.state c c' k'
    rw [← hstate] at hbytes
    rw [Db.numberOf, show db'.bytes c' k' = _ from hbytes]
    split_ifs
    · rfl
    · rfl
  have hkey : ∀ c' n, db'.keyAt c' n = if c' = c then none else db.keyAt c' n := by
    intro c' n
    rw [Db.keyAt, hindex, Map.get?_erase]
    split_ifs
    · simp
    · rfl
  refine h.mono (fun c' n k' => ?_) hcounters fun c' k' n hn => ?_
  · rw [hnum, hkey]
    split_ifs
    · simp
    · exact h.index c' n k'
  · refine hn.imp_left fun hn => ?_
    rw [hnum] at hn
    split_ifs at hn
    exact hn

/-- An item is stored under its old number, or the next one. -/
theorem Db.OwnNumbers.stored (h : db.OwnNumbers views) {item : String × Json} {value : Json} {s : UInt64}
    (hroom : (db.nextNumber c).toNat + 1 < 2 ^ 64) (hs : db.ItemStored c item value db')
    (hown : db.numberOf c item.1 = some s ∨ db.numberOf c item.1 = none ∧ s = db.nextNumber c)
    (hfield : fieldU64 value IKEY_SEQ = some s)
    (hread : readMsgpackSeqToken (valueToMsgpack value) = s) : db'.OwnNumbers views := by
  have hnum : ∀ c' k', db'.numberOf c' k' =
      if c' = c ∧ k' = item.1 then some s else db.numberOf c' k' := by
    intro c' k'
    have hbytes := bytes_put db.state c item.1 c' k' (valueToMsgpack value)
    rw [← hs.state] at hbytes
    rw [Db.numberOf, show db'.bytes c' k' = _ from hbytes]
    split_ifs
    · rw [Option.map_some, hread]
    · rfl
  have hkey : ∀ c' n, db'.keyAt c' n =
      if c' = c ∧ n = s then some item.1 else db.keyAt c' n := by
    intro c' n
    rw [Db.keyAt, hs.seqIndex, hfield, Option.getD_some, Map.get?_alter, Db.keyAt]
    by_cases hc : c' = c
    · simp [hc, Map.get?_insert]
    · simp [hc]
  have hnext : ∀ c', db'.nextNumber c' = if c' = c then db.nextNumber c + 1 else db.nextNumber c' := by
    intro c'
    rw [Db.nextNumber, hs.seqCounters, Map.get?_insert]
    split_ifs
    · rfl
    · rfl
  have hlt : db.nextNumber c < db.nextNumber c + 1 := by
    rw [UInt64.lt_iff_toNat_lt, UInt64.toNat_add, UInt64.toNat_one]
    omega
  have hfree : ∀ k', ¬ db.Uses views c k' (db.nextNumber c) := fun k' huse =>
    UInt64.lt_irrefl _ ((h.given c).below huse)
  -- the key had the number, or nobody had
  have hother : ∀ k', db.numberOf c k' = some s → k' = item.1 := by
    intro k' hk'
    rcases hown with hold | ⟨-, rfl⟩
    · exact (h.given c).unique (Or.inl hk') (Or.inl hold)
    · exact absurd (Or.inl hk') (hfree k')
  refine ⟨fun c' => ?_, fun c' => ?_⟩
  · by_cases hc : c' = c
    · subst hc
      rw [hnext, if_pos rfl]
      have huses : ∀ k' n, db'.Uses views c' k' n →
          db.Uses views c' k' n ∨ k' = item.1 ∧ n = s := by
        rintro k' n (hn | hn)
        · rw [hnum] at hn
          split_ifs at hn with hk
          · exact Or.inr ⟨hk.2, (Option.some.inj hn).symm⟩
          · exact Or.inl (Or.inl hn)
        · exact Or.inl (Or.inr hn)
      have hmono : ∀ n, n < db.nextNumber c' → n < db.nextNumber c' + 1 := fun n hn =>
        UInt64.lt_trans hn hlt
      rcases hown with hold | ⟨-, rfl⟩
      · refine (h.given c').mono (fun k' n hn => ?_) hmono
        rcases huses k' n hn with hn | ⟨rfl, rfl⟩
        · exact hn
        · exact Or.inl hold
      · exact (h.given c').give (UInt64.lt_irrefl _) hlt hmono huses
    · rw [hnext, if_neg hc]
      refine (h.given c').mono (fun k' n hn => hn.imp_left fun hn => ?_) fun _ hn => hn
      rwa [hnum, if_neg fun hck => hc hck.1] at hn
  · by_cases hc : c' = c
    · subst hc
      refine (h.index c').put (k := item.1) (n := s) (fun n' hn' => ?_) hother
        (fun k' => by rw [hnum]; simp) fun n' => by rw [hkey]; simp
      rcases hown with hold | ⟨hnone, -⟩
      · exact Option.some.inj (hn'.symm.trans hold)
      · rw [hnone] at hn'
        cases hn'
    · refine (h.index c').congr (fun k' => ?_) fun n => ?_
      · rw [hnum, if_neg fun hck => hc hck.1]
      · rw [hkey, if_neg fun hcn => hc hcn.1]

/-- A number that was drawn is skipped. -/
theorem Db.OwnNumbers.rejected (h : db.OwnNumbers views) (hroom : (db.nextNumber c).toNat + 1 < 2 ^ 64)
    (hr : db.ItemRejected c db') : db'.OwnNumbers views := by
  have hnum : ∀ c' k', db'.numberOf c' k' = db.numberOf c' k' := fun c' k' => by
    rw [Db.numberOf, Db.bytes, hr.state]
    rfl
  refine ⟨fun c' => (h.given c').mono (fun k n hn => hn.imp_left fun hn => hnum c' k ▸ hn) ?_,
    fun c' => (h.index c').congr (hnum c') fun n => by rw [Db.keyAt, hr.seqIndex]; rfl⟩
  intro n hn
  rw [Db.nextNumber, hr.seqCounters, Map.get?_insert]
  split_ifs with hc
  · rw [Option.getD_some, UInt64.lt_iff_toNat_lt, UInt64.toNat_add, UInt64.toNat_one]
    rw [hc, UInt64.lt_iff_toNat_lt] at hn
    rw [Db.nextNumber] at hn hroom
    omega
  · exact hn

/-- A document is stored again under its number. -/
theorem Db.OwnNumbers.restored (h : db.OwnNumbers views) {k : String} {v : Json}
    (hown : db.numberOf c k = some (readMsgpackSeqToken (valueToMsgpack v))) (hstate : db'.state =
      db.state.alter c fun col => some ((col.getD ∅).insert k (valueToMsgpack v)))
    (hindex : db'.seqIndex = db.seqIndex) (hcounters : db'.seqCounters = db.seqCounters) :
    db'.OwnNumbers views := by
  have hnum : ∀ c' k', db'.numberOf c' k' = db.numberOf c' k' := by
    intro c' k'
    have hbytes := bytes_put db.state c k c' k' (valueToMsgpack v)
    rw [← hstate] at hbytes
    rw [Db.numberOf, show db'.bytes c' k' = _ from hbytes]
    split_ifs with hck
    · rw [hck.1, hck.2, hown]
      rfl
    · rfl
  refine h.mono (fun c' => (h.index c').congr (hnum c') fun n => ?_) hcounters fun c' k' n hn =>
    hn.imp_left fun hn => hnum c' k' ▸ hn
  rw [Db.keyAt, hindex]
  rfl

/-! ## Operations -/

theorem steady_nowMs : Keeps (Db.Steady t) nowMs := fun _ h =>
  wp_nowMs fun _ _ => h.idle ⟨rfl, rfl, rfl⟩ rfl

theorem steady_newUuid : Keeps (Db.Steady t) newUuid := fun _ h =>
  wp_newUuid fun _ _ => h.idle ⟨rfl, rfl, rfl⟩ rfl

theorem steady_walk {α : Type} (m : DashMap α) : Keeps (Db.Steady t) (walk m) := fun _ h =>
  h.idle ⟨rfl, rfl, rfl⟩ rfl

theorem steady_send (e : Json) : Keeps (Db.Steady t) (send e) := fun _ h =>
  h.idle ⟨rfl, rfl, rfl⟩ rfl

theorem steady_checkFault : Keeps (Db.Steady t) checkFault := fun _ h =>
  wp_checkFault (fun _ => h) fun _ => h

namespace Operations

theorem wp_deleteItem_writing (h : db.Writing t id) (k : String) :
    wp (deleteItem c k) (fun _ => Db.Writing t id) (fun _ => Db.Steady t) db := by
  have hrest : ∀ db₁ : Db, db₁.Writing t id → wp (do
      writeNew IKEY_DELETE c k .null
      send (json [("event", .str "change"), ("collection", .str c), ("key", .str k),
        ("new_v", .null)])) (fun _ => Db.Writing t id) (fun _ => Db.Steady t) db₁ := by
    intro db₁ h₁
    rw [wp_bind]
    refine wp_mono (h₁.wp_log (by decide) fun hcmd => absurd hcmd (by decide)) (fun _ db₂ h₂ => ?_)
      fun _ _ h => h
    exact h₂.idle ⟨rfl, rfl, rfl⟩ rfl
  rw [deleteItem, wp_bind, wp_get]
  cases hbytes : db.bytes c k with
  | none =>
    simp only [removeDoc]
    refine hrest _ (h.changed rfl (h.numbers.erase (k := k) rfl (fun c' => ?_) rfl))
    rw [hbytes]
    split_ifs with hc
    · rw [hc]
      exact Option.map_id'.symm
    · rfl
  | some b =>
    simp only [indexRemove, removeDoc]
    refine hrest _ (h.changed rfl (h.numbers.erase (k := k) rfl (fun c' => ?_) rfl))
    rw [hbytes, Map.get?_alter]
    rfl

theorem steady_delete (keys : List String) : Keeps (Db.Steady t) (delete c keys) := by
  refine steady_newUuid.bind fun id db h => ?_
  rw [wp_bind]
  refine wp_mono (h.wp_begin id) (fun _ db₁ h₁ => ?_) fun _ _ h => h
  rw [wp_bind, wp_get]
  split_ifs
  · rw [wp_bind]
    exact wp_mono (wp_forEach (fun _ => Db.Writing t id) (fun k _ _ h => wp_deleteItem_writing h k)
      keys db₁ h₁) (fun _ _ h₂ => h₂.wp_commit) fun _ _ h => h
  · exact h₁.wp_commit

theorem steady_deleteKeys (keys : List String) : Keeps (Db.Steady t) (deleteKeys c keys) := by
  unfold deleteKeys
  split_ifs
  · exact keeps_pure _
  · exact (steady_delete keys).bind fun _ => keeps_pure _

theorem steady_deleteFiltered (p : String → Bytes → Bool) (limit : Option ℕ) (asc : Bool) :
    Keeps (Db.Steady t) (deleteFiltered c p limit asc) := by
  refine keeps_get.bind fun db => ?_
  cases db.col c with
  | none => exact keeps_pure _
  | some col => exact (steady_walk col).bind fun _ => steady_deleteKeys _

theorem steady_endKeys (col : DashMap Bytes) (n : ℕ) (asc : Bool) :
    Keeps (Db.Steady t) (endKeys c col n asc) := by
  refine keeps_get.bind fun db => ?_
  cases db.seqIndex[c]? with
  | some idx => exact keeps_pure _
  | none => exact (steady_walk col).bind fun _ => keeps_pure _

theorem steady_deleteN (n : ℕ) (asc : Bool) : Keeps (Db.Steady t) (deleteN c n asc) := by
  unfold deleteN
  split_ifs
  · exact keeps_pure _
  · refine keeps_get.bind fun db => ?_
    cases db.col c with
    | none => exact keeps_pure _
    | some col => exact (steady_endKeys col n asc).bind fun _ => steady_deleteKeys _

theorem steady_evictOldest (n : ℕ) : Keeps (Db.Steady t) (evictOldest c n) := by
  refine keeps_get.bind fun db => ?_
  cases db.col c with
  | none => exact keeps_pure _
  | some col =>
    refine (steady_walk col).bind fun _ => ?_
    dsimp only
    split_ifs
    · exact keeps_pure _
    · exact (steady_delete _).outcome.bind fun _ => keeps_pure _

/-- **A drop that succeeds** leaves no document of the collection, nor any that a restart would
    bring back. -/
theorem wp_deleteCollection_steady (h : db.Steady t) (c : String) :
    wp (deleteCollection c) (fun _ db' => db'.Steady t ∧ ∀ k n, ¬ db'.Uses [durableAt t db'.log] c k n)
      (fun _ => Db.Steady t) db := by
  rw [deleteCollection, wp_bind]
  refine wp_mono (steady_newUuid db h) (fun id db₁ h₁ => ?_) fun _ _ h => h
  rw [wp_bind]
  refine wp_mono (h₁.wp_begin id) (fun _ db₂ h₂ => ?_) fun _ _ h => h
  rw [wp_bind, wp_modify, wp_bind]
  have h₃ : Db.Writing t id
      { db₂ with state := db₂.state.erase c, seqIndex := db₂.seqIndex.erase c } :=
    h₂.changed rfl (h₂.numbers.drop rfl rfl rfl)
  have hop : LogCommand.canon IKEY_DROP ≠ IKEY_TX_BEGIN ∧
      LogCommand.canon IKEY_DROP ≠ IKEY_TX_COMMIT := by decide
  have hnot : LogCommand.canon IKEY_DROP ≠ IKEY_INSERT := by decide
  refine wp_writeNew (fun time n => ?_) fun _ n => ?_
  · rw [wp_bind]
    generalize hdb₄ : Db.mk _ _ _ _ _ _ _ _ _ _ _ _ _ = db₄
    have hlog : db₄.log = db₂.log ++ [⟨IKEY_DROP, c, "*", .null, time⟩] := hdb₄ ▸ rfl
    have h₄ : db₄.Writing t id := by
      refine h₃.logged (e := ⟨IKEY_DROP, c, "*", .null, time⟩) hop (fun hcmd => absurd hcmd hnot)
        ?_ hlog
      exact hdb₄ ▸ ⟨rfl, rfl, rfl⟩
    have hstate : db₄.state = db₂.state.erase c := hdb₄ ▸ rfl
    refine wp_writeNew (fun time' n' => ?_) fun _ n' => ?_
    · refine ⟨h₄.committed ⟨rfl, rfl, rfl⟩ rfl, fun k n => ?_⟩
      rintro (hn | ⟨v, hv, hn⟩)
      · have hbytes := bytes_drop db₂.state c c k
        rw [if_pos rfl, ← hstate] at hbytes
        have hnone : db₄.numberOf c k = none := by
          rw [Db.numberOf, show db₄.bytes c k = _ from hbytes]
          rfl
        exact absurd (hnone.symm.trans hn) (by simp)
      · rw [List.mem_singleton] at hv
        subst hv
        dsimp only at hn
        rw [durableAt_commit h₄.active, hlog, pendingAt_drop h₂.active] at hn
        cases hn
    · exact h₄.steady.idle ⟨rfl, rfl, rfl⟩ rfl
  · exact h₃.steady.idle ⟨rfl, rfl, rfl⟩ rfl

theorem steady_deleteCollection : Keeps (Db.Steady t) (deleteCollection c) := fun _ h =>
  wp_mono (wp_deleteCollection_steady h c) (fun _ _ h => h.1) fun _ _ h => h

theorem steady_setSchema (schema : Json) : Keeps (Db.Steady t) (setSchema c schema) := by
  unfold setSchema
  cases Crates.validatorFor schema with
  | error err => exact fun _ h => h
  | ok validator =>
    refine steady_newUuid.bind fun id db h => ?_
    rw [wp_bind]
    refine wp_mono (h.wp_begin id) (fun _ db₁ h₁ => ?_) fun _ _ h => h
    rw [wp_bind]
    refine wp_mono (h₁.wp_log (by decide) fun hcmd => absurd hcmd (by decide)) (fun _ db₂ h₂ => ?_)
      fun _ _ h => h
    rw [wp_bind]
    refine wp_mono h₂.wp_commit (fun _ db₃ h₃ => ?_) fun _ _ h => h
    exact h₃.idle ⟨rfl, rfl, rfl⟩ rfl

end Operations

namespace Db

theorem steady_delete (keys : List String) : Keeps (Steady t) (Db.delete c keys) :=
  steady_checkFault.bind fun _ => Operations.steady_delete keys

theorem steady_deleteFiltered (p : String → Bytes → Bool) (limit : Option ℕ) (asc : Bool) :
    Keeps (Steady t) (Db.deleteFiltered c p limit asc) :=
  steady_checkFault.bind fun _ => Operations.steady_deleteFiltered p limit asc

theorem steady_deleteN (n : ℕ) (asc : Bool) : Keeps (Steady t) (Db.deleteN c n asc) :=
  steady_checkFault.bind fun _ => Operations.steady_deleteN n asc

theorem steady_evictExpired : Keeps (Steady t) (evictExpired c) := by
  refine keeps_get.bind fun db => ?_
  cases db.ttlExpiry[c]? with
  | none => exact keeps_pure _
  | some exp =>
    refine steady_nowMs.bind fun now => ?_
    split_ifs
    · exact steady_deleteCollection.outcome.bind fun _ =>
        keeps_modify fun _ h => h.idle ⟨rfl, rfl, rfl⟩ rfl
    · exact keeps_pure _

theorem steady_evictOverflow : Keeps (Steady t) (evictOverflow c) := by
  refine keeps_get.bind fun db => ?_
  cases db.maxSizes[c]? with
  | none => exact keeps_pure _
  | some max =>
    dsimp only
    split_ifs
    · exact steady_evictOldest _
    · exact keeps_pure _

/-- An expiry is logged, in a transaction that was left open or outside of one. -/
theorem steady_logExpiry (k : String) : Keeps (Steady t) (writeNew "TTL_EXPIRY" c k .null) := by
  intro db h
  refine wp_writeNew (fun time n => ?_) fun _ n => ?_
  · have hop : LogCommand.canon "TTL_EXPIRY" ≠ IKEY_TX_BEGIN ∧
        LogCommand.canon "TTL_EXPIRY" ≠ IKEY_TX_COMMIT := by decide
    have hnot : LogCommand.canon "TTL_EXPIRY" ≠ IKEY_INSERT := by decide
    have hstep := logReader_append db.log ⟨"TTL_EXPIRY", c, k, .null, time⟩
    rw [toRec_canon_op hop, Journal.Reader.step] at hstep
    refine h.same ⟨rfl, rfl, rfl⟩ fun v' hv' c' k' n hn => ?_
    rw [List.mem_singleton] at hv'
    subst hv'
    dsimp only at hn
    rw [durableAt, hstep] at hn
    split_ifs at hn
    · exact Or.inr ⟨_, List.mem_singleton_self _, hn⟩
    · dsimp only at hn
      rw [Overwrite.replay_append] at hn
      rcases number_apply hn with hold | ⟨hcmd, -⟩
      · exact Or.inr ⟨_, List.mem_singleton_self _, hold⟩
      · exact absurd hcmd hnot
  · exact h.idle ⟨rfl, rfl, rfl⟩ rfl

theorem steady_resetExpiry : Keeps (Steady t) (resetExpiry c) := by
  refine keeps_get.bind fun db => ?_
  cases db.ttlDefaults[c]? with
  | none => exact keeps_pure _
  | some secs =>
    refine steady_nowMs.bind fun now => (keeps_modify fun _ h => ?_).bind fun _ =>
      (steady_logExpiry _).outcome.bind fun _ => steady_send _
    exact h.idle ⟨rfl, rfl, rfl⟩ rfl

/-- **A drop lets the numbers of a collection start over**, as none of them is used any more. -/
theorem steady_deleteCollection : Keeps (Steady t) (Db.deleteCollection c) := by
  intro db h
  rw [Db.deleteCollection, wp_bind]
  refine wp_mono (wp_deleteCollection_steady h c) (fun _ db₁ h₁ => ?_) fun _ _ h => h
  obtain ⟨h₁, hnone⟩ := h₁
  refine ⟨fun c' => ?_, h₁.index⟩
  by_cases hc : c' = c
  · subst hc
    exact ⟨fun hk _ => absurd hk (hnone _ _), fun hk => absurd hk (hnone _ _)⟩
  · refine (h₁.given c').mono (fun _ _ hn => hn) fun n hn => ?_
    rw [Db.nextNumber, Map.get?_erase, if_neg hc]
    exact hn

end Db

end

end MoltenDB
