/-
  The deletes remove what they say, from the documents and from the index.

  The keys come from the caller, from a scan or from the index.  Each of them is removed from
  the collection by key and from its index by number (`wp_deleteItem_without`), so that the two
  stay in step (`Db.InStep`).
-/
import MoltenDB.Engine.Clock
import MoltenDB.Engine.Settings
import MoltenDB.Engine.Storage.DiskSteps
import MoltenDB.Proof.CursorScan

namespace MoltenDB

open Wire Prog Prog.Eff SystemFields LogCommand

section

variable [Crates]

/-- The index of every collection has exactly the numbers and keys of its documents, and these
    numbers differ. -/
def Db.InStep (db : Db) : Prop :=
  ∀ (c : String) (col : DashMap Bytes), db.col c = some col →
    Numbered col ∧ Indexes (db.seqIndex[c]?.getD ∅) col

/-- The documents `keys` of the collection are gone.  All others are as before, and all indexes
    are in step. -/
structure Db.Without (db : Db) (c : String) (keys : List String) (db' : Db) : Prop where
  bytes : ∀ c' k, db'.bytes c' k = if c' = c ∧ k ∈ keys then none else db.bytes c' k
  collections : ∀ c', (db'.col c').isSome = (db.col c').isSome
  indexes : ∀ c', c' ≠ c → db'.seqIndex[c']? = db.seqIndex[c']?
  inStep : db'.InStep
  world : db'.world = db.world

/-- The keys are those of the first of the documents that pass the test. -/
structure Leading (col : DashMap Bytes) (P : Predicate) (asc : Bool) (keys : List String) :
    Prop where
  nodup : keys.Nodup
  passes : ∀ k ∈ keys, ∃ b, col[k]? = some b ∧ P k b = true
  first : ∀ k ∈ keys, ∀ k' ∉ keys, ∀ b b', col[k]? = some b → col[k']? = some b' →
    P k' b' = true → Earlier asc (readMsgpackSeqToken b) (readMsgpackSeqToken b')

/-! ## Removing one document -/

theorem Numbered.erase {col : DashMap Bytes} (h : Numbered col) (k : String) :
    Numbered (col.erase k) := by
  intro k₁ k₂ b₁ b₂ h₁ h₂ hseq
  rw [Map.get?_erase] at h₁ h₂
  split_ifs at h₁ h₂
  exact h k₁ k₂ b₁ b₂ h₁ h₂ hseq

/-- A document is removed by its key, and from the index by its number. -/
theorem Indexes.erase {idx : Map UInt64 String} {col : DashMap Bytes} (h : Indexes idx col)
    (hnum : Numbered col) (k : String) :
    Indexes (col[k]?.elim idx fun b => idx.erase (readMsgpackSeqToken b)) (col.erase k) := by
  cases hk : col[k]? with
  | none => rwa [Map.erase_eq_self hk]
  | some b =>
    intro seq k'
    rw [Option.elim_some, Map.get?_erase, Map.get?_erase]
    constructor
    · intro hidx
      split_ifs at hidx with hseq
      obtain ⟨b', hb', rfl⟩ := (h seq k').1 hidx
      have hne : k' ≠ k := by
        rintro rfl
        rw [hk] at hb'
        exact hseq (congrArg readMsgpackSeqToken (Option.some.inj hb').symm)
      exact ⟨b', by rw [if_neg hne]; exact hb', rfl⟩
    · rintro ⟨b', hb', rfl⟩
      split_ifs at hb' with hne
      have hseq : readMsgpackSeqToken b' ≠ readMsgpackSeqToken b := fun heq =>
        hne (hnum k' k b' b hb' hk heq)
      rw [if_neg hseq]
      exact (h _ k').2 ⟨b', hb', rfl⟩

variable {db db' : Db} {c : String}

theorem Db.without_one (h : db.InStep) {k : String} (hstate : db'.state =
      db.state.alter c fun col => col.map fun col => col.erase k)
    (hindex : ∀ c', db'.seqIndex[c']? = if c' = c then db.seqIndex[c]?.map fun idx =>
      (db.bytes c k).elim idx fun b => idx.erase (readMsgpackSeqToken b) else db.seqIndex[c']?)
    (hworld : db'.world = db.world) : db.Without c [k] db' := by
  have hcol : ∀ c', db'.col c' = if c' = c then (db.col c).map fun col => col.erase k
      else db.col c' := by
    intro c'
    rw [Db.col, hstate, Map.get?_alter]
    rfl
  refine ⟨fun c' k' => ?_, fun c' => ?_, fun c' hne => ?_, fun c' col' hcol' => ?_, hworld⟩
  · have hbytes := bytes_remove db.state c k c' k'
    rw [← hstate] at hbytes
    simp only [List.mem_singleton]
    exact hbytes
  · rw [hcol]
    split_ifs with hc
    · rw [Option.isSome_map, hc]
    · rfl
  · rw [hindex, if_neg hne]
  · rw [hcol] at hcol'
    rw [hindex]
    split_ifs at hcol' ⊢ with hc
    · obtain ⟨col, hold, rfl⟩ := Option.map_eq_some_iff.1 hcol'
      obtain ⟨hnum, hidx⟩ := h c col hold
      have hbytes : db.bytes c k = col[k]? := by
        rw [← Db.get?_stored, Db.stored, hold]
        rfl
      refine ⟨hnum.erase k, ?_⟩
      have herase := hidx.erase hnum k
      rw [hbytes]
      cases hi : db.seqIndex[c]? with
      | some idx =>
        rw [hi] at herase
        exact herase
      | none =>
        rw [hi, Option.getD_none] at herase
        cases hk : col[k]? with
        | none =>
          rw [hk] at herase
          exact herase
        | some b =>
          rw [hk, Option.elim_some, Map.erase_eq_self (Map.get?_empty _)] at herase
          exact herase
    · exact h c' col' hcol'

theorem Db.Without.refl (h : db.InStep) (c : String) : db.Without c [] db :=
  ⟨fun _ _ => (if_neg fun h => List.not_mem_nil h.2).symm, fun _ => rfl, fun _ _ => rfl, h, rfl⟩

theorem Db.Without.trans {db₁ db₂ db₃ : Db} {keys keys' : List String}
    (h : db₁.Without c keys db₂) (h' : db₂.Without c keys' db₃) :
    db₁.Without c (keys ++ keys') db₃ := by
  refine ⟨fun c' k => ?_, fun c' => (h'.collections c').trans (h.collections c'),
    fun c' hne => (h'.indexes c' hne).trans (h.indexes c' hne), h'.inStep, h'.world.trans h.world⟩
  rw [h'.bytes, h.bytes]
  by_cases hc : c' = c
  · by_cases hk : k ∈ keys
    · simp [hc, hk]
    · simp [hc, hk]
  · simp [hc]

/-- Deletes also log, send events and read the clock. -/
theorem Db.Without.of_same {db₁ : Db} {keys : List String} (h : db.Without c keys db₁)
    (hstate : db'.state = db₁.state) (hindex : db'.seqIndex = db₁.seqIndex)
    (hworld : db'.world = db₁.world) : db.Without c keys db' := by
  refine ⟨fun c' k => ?_, fun c' => ?_, fun c' hne => ?_, fun c' col hcol => ?_,
    hworld.trans h.world⟩
  · rw [← h.bytes, Db.bytes, hstate]
    rfl
  · rw [← h.collections, Db.col, hstate]
    rfl
  · rw [hindex, h.indexes c' hne]
  · rw [Db.col, hstate] at hcol
    rw [hindex]
    exact h.inStep c' col hcol

omit [Crates] in
/-- An entry is logged, or the storage fails. -/
theorem wp_writeNew_logs {cmd k : String} {v : Json} {Q : Unit → Db → Prop}
    (ok : ∀ t n, Q () { db with log := db.log ++ [⟨cmd, c, k, v, t⟩], tick := n }) :
    wp (writeNew cmd c k v) Q (fun _ _ => ¬ db.world.Calm) db :=
  wp_writeNew_fault (fun _ t => ok t _) fun e he hcalm => by
    rw [hcalm] at he
    cases he

omit [Crates] in
/-- An entry is logged, if nothing fails. -/
theorem wp_writeNew_calm (hcalm : db.world.Calm) {cmd k : String} {v : Json} {Q : Unit → Db → Prop}
    {E : DbError → Db → Prop}
    (ok : ∀ t n, Q () { db with log := db.log ++ [⟨cmd, c, k, v, t⟩], tick := n }) :
    wp (writeNew cmd c k v) Q E db :=
  wp_mono (wp_writeNew_logs ok) (fun _ _ h => h) fun _ _ h => absurd hcalm h

/-! ## Deleting by key -/

theorem wp_deleteItem_without (h : db.InStep) (k : String) :
    wp (Operations.deleteItem c k) (fun _ => db.Without c [k]) (fun _ _ => ¬ db.world.Calm) db := by
  have hend : ∀ (db₁ db₂ : Db), db₁.state = (db.state.alter c fun col => col.map fun col =>
      col.erase k) → (∀ c', db₁.seqIndex[c']? = if c' = c then db.seqIndex[c]?.map fun idx =>
        (db.bytes c k).elim idx fun b => idx.erase (readMsgpackSeqToken b)
        else db.seqIndex[c']?) → db₁.world = db.world → db₂.state = db₁.state →
      db₂.seqIndex = db₁.seqIndex → db₂.world = db₁.world → db.Without c [k] db₂ :=
    fun db₁ db₂ hstate hindex hworld hstate' hindex' hworld' =>
      (Db.without_one h hstate hindex hworld).of_same hstate' hindex' hworld'
  simp only [Operations.deleteItem, wp_bind, wp_get]
  cases hbytes : db.bytes c k with
  | none =>
    simp only [Operations.removeDoc, wp_bind, wp_modify, wp_send]
    refine wp_writeNew_logs fun t n => ?_
    refine hend { db with state := _ } _ rfl (fun c' => ?_) rfl rfl rfl rfl
    rw [hbytes]
    split_ifs with hc
    · rw [hc]
      exact Option.map_id'.symm
    · rfl
  | some b =>
    simp only [Operations.indexRemove, Operations.removeDoc, wp_bind, wp_modify, wp_send]
    refine wp_writeNew_logs fun t n => ?_
    refine hend { db with state := _, seqIndex := _ } _ rfl (fun c' => ?_) rfl rfl rfl rfl
    rw [hbytes, Map.get?_alter]
    rfl

/-- **A delete removes its keys**, unless the storage fails. -/
theorem wp_delete_without (h : db.InStep) (keys : List String) :
    wp (Operations.delete c keys) (fun _ => db.Without c keys) (fun _ _ => ¬ db.world.Calm) db := by
  have hitems : ∀ (keys : List String) (db₁ : Db) (gone : List String), db.Without c gone db₁ →
      wp (Eff.forEach (Operations.deleteItem c) keys) (fun _ => db.Without c (gone ++ keys))
        (fun _ _ => ¬ db.world.Calm) db₁ := by
    intro keys
    induction keys with
    | nil =>
      intro db₁ gone hgone
      rw [List.append_nil]
      exact hgone
    | cons k keys ih =>
      intro db₁ gone hgone
      rw [Eff.forEach, wp_bind]
      have hitem := wp_deleteItem_without (c := c) hgone.inStep k
      rw [hgone.world] at hitem
      refine wp_mono hitem (fun _ db₂ h₂ => ?_) fun _ _ h => h
      have hnext := ih db₂ _ (hgone.trans h₂)
      rwa [List.append_assoc] at hnext
  simp only [Operations.delete, wp_bind, wp_get]
  refine wp_newUuid fun id n => wp_writeNew_logs fun t m => ?_
  generalize hdb₁ : Db.mk _ _ _ _ _ _ _ _ _ _ _ _ _ = db₁
  have h₁ : db.Without c [] db₁ := by
    subst hdb₁
    exact (Db.Without.refl h c).of_same rfl rfl rfl
  have hcommit : ∀ db₂ gone, db.Without c gone db₂ →
      wp (writeNew IKEY_TX_COMMIT c id .null) (fun _ => db.Without c gone)
        (fun _ _ => ¬ db.world.Calm) db₂ := by
    intro db₂ gone h₂
    rw [← h₂.world]
    exact wp_writeNew_logs fun _ _ => h₂.of_same rfl rfl rfl
  split_ifs with hcol
  · rw [wp_bind]
    exact wp_mono (hitems keys db₁ [] h₁) (fun _ db₂ h₂ => hcommit db₂ _ h₂) fun _ _ h => h
  · have hnone : ∀ k, db.bytes c k = none := by
      intro k
      rw [h₁.collections c, Option.not_isSome_iff_eq_none] at hcol
      rw [← Db.get?_stored, Db.stored, hcol]
      exact Map.get?_empty k
    refine wp_mono (hcommit db₁ [] h₁) (fun _ db₂ h₂ => ?_) fun _ _ h => h
    refine ⟨fun c' k => ?_, h₂.collections, h₂.indexes, h₂.inStep, h₂.world⟩
    rw [h₂.bytes, if_neg (fun hk => List.not_mem_nil hk.2)]
    split_ifs with hk
    · rw [hk.1, hnone]
    · rfl

/-! ## Deleting the first matches -/

section

variable {col : DashMap Bytes}

/-- The first of the pairs of the matches are those of the first matches. -/
theorem Numbered.leading (h : Numbered col) {P : Predicate} {asc : Bool}
    {first rest : List (UInt64 × String)} (hpairs : seqPairs col P asc = first ++ rest) :
    Leading col P asc (first.map Prod.snd) := by
  have hearlier := h.earlier P asc
  have hpair : ∀ p ∈ first, ∃ b, col[p.2]? = some b ∧ P p.2 b = true ∧ readMsgpackSeqToken b = p.1 :=
    fun p hp => mem_seqPairs.1 (hpairs ▸ List.mem_append_left rest hp)
  rw [hpairs, List.pairwise_append] at hearlier
  obtain ⟨hfirst, -, hrest⟩ := hearlier
  refine ⟨?_, fun k hk => ?_, fun k hk k' hk' b b' hb hb' hpass => ?_⟩
  · rw [List.nodup_iff_pairwise_ne, List.pairwise_map]
    refine hfirst.imp_of_mem fun {p q} hp hq hpq heq => ?_
    obtain ⟨b, hb, -, hbp⟩ := hpair p hp
    obtain ⟨b', hb', -, hbq⟩ := hpair q hq
    rw [← heq, hb] at hb'
    rw [← hbp, ← hbq, Option.some.inj hb'] at hpq
    cases asc <;> exact UInt64.lt_irrefl _ hpq
  · obtain ⟨p, hp, rfl⟩ := List.mem_map.1 hk
    obtain ⟨b, hb, hpass, -⟩ := hpair p hp
    exact ⟨b, hb, hpass⟩
  · obtain ⟨p, hp, rfl⟩ := List.mem_map.1 hk
    obtain ⟨b₁, hb₁, -, hseq⟩ := hpair p hp
    rw [hb] at hb₁
    obtain rfl := Option.some.inj hb₁
    have hmem : (readMsgpackSeqToken b', k') ∈ first ++ rest :=
      hpairs ▸ mem_seqPairs.2 ⟨b', hb', hpass, rfl⟩
    rcases List.mem_append.1 hmem with hin | hin
    · exact absurd (List.mem_map_of_mem hin) hk'
    · rw [hseq]
      exact hrest p hp _ hin

/-- The index has the numbers and keys of all documents, in order. -/
theorem Indexes.toList_eq {idx : Map UInt64 String} (h : Indexes idx col) (hnum : Numbered col)
    (asc : Bool) : (if asc then idx.toList else idx.toList.reverse) =
      seqPairs col (fun _ _ => true) asc := by
  rw [← h.filter_pairPasses hnum, eq_comm, List.filter_eq_self]
  rintro ⟨seq, k⟩ hp
  have hmem : (seq, k) ∈ idx.toList := by
    cases asc
    · exact List.mem_reverse.1 hp
    · exact hp
  obtain ⟨b, hb, -⟩ := (h seq k).1 (Map.mem_toList.1 hmem)
  rw [pairPasses, hb]
  rfl

/-- The number of documents that pass the test. -/
def numPassing (col : DashMap Bytes) (P : Predicate) : ℕ :=
  (col.toList.filter fun e => P e.1 e.2).length

theorem length_seqPairs (P : Predicate) (asc : Bool) :
    (seqPairs col P asc).length = numPassing col P := by
  rw [seqPairs, sortBySeq_eq, List.length_insertionSort, matchingPairs, List.length_map, numPassing]

end

theorem wp_deleteKeys_without (h : db.InStep) (keys : List String) :
    wp (Operations.deleteKeys c keys) (fun n db' => n = keys.length ∧ db.Without c keys db')
      (fun _ _ => ¬ db.world.Calm) db := by
  unfold Operations.deleteKeys
  split_ifs with hnil
  · rw [List.length_eq_zero_iff] at hnil
    subst hnil
    exact ⟨rfl, .refl h c⟩
  · rw [wp_bind]
    exact wp_mono (wp_delete_without h keys) (fun _ _ h => ⟨rfl, h⟩) fun _ _ h => h

/-- Time passes before the keys are deleted. -/
theorem wp_deleteKeys_tick (h : db.InStep) (n : ℕ) (keys : List String) :
    wp (Operations.deleteKeys c keys) (fun n db' => n = keys.length ∧ db.Without c keys db')
      (fun _ _ => ¬ db.world.Calm) { db with tick := n } := by
  have htick : Db.InStep { db with tick := n } := h
  refine wp_mono (wp_deleteKeys_without htick keys)
    (fun _ db' hdb' => ⟨hdb'.1, ?_⟩) fun _ _ h => h
  have hsame : db.Without c [] { db with tick := n } := (Db.Without.refl h c).of_same rfl rfl rfl
  exact hsame.trans hdb'.2

/-- **A filtered delete removes the first matches**, as many as the limit allows. -/
theorem wp_deleteFiltered_without (h : db.InStep) (P : Predicate)
    (limit : Option ℕ) (asc : Bool) :
    wp (Operations.deleteFiltered c P limit asc)
      (fun n db' => ∃ keys, n = keys.length ∧
        keys.length = limit.elim id min (numPassing (db.stored c) P) ∧
        Leading (db.stored c) P asc keys ∧ db.Without c keys db') (fun _ _ => ¬ db.world.Calm) db := by
  simp only [Operations.deleteFiltered, wp_bind, wp_get]
  cases hcol : db.col c with
  | none =>
    have hstored : db.stored c = ∅ := by rw [Db.stored, hcol, Option.getD_none]
    have hnone : numPassing (∅ : DashMap Bytes) P = 0 := rfl
    refine ⟨[], rfl, ?_, ⟨List.nodup_nil, fun _ hk => ?_, fun _ hk => ?_⟩, .refl h c⟩
    · rw [hstored, hnone]
      cases limit with
      | none => rfl
      | some n => exact (Nat.min_zero n).symm
    · exact absurd hk List.not_mem_nil
    · exact absurd hk List.not_mem_nil
  | some col =>
    obtain ⟨hnum, -⟩ := h c col hcol
    have hstored : db.stored c = col := by rw [Db.stored, hcol, Option.getD_some]
    rw [wp_bind, hstored]
    refine wp_walk fun ks n hks => ?_
    -- the order of the walk does not matter
    have hpairs : Operations.sortBySeq asc (((col.inOrder ks).filter fun e => P e.1 e.2).map fun e =>
        (readMsgpackSeqToken e.2, e.1)) = seqPairs col P asc :=
      hnum.sortBySeq_perm_eq asc P (Map.inOrder_perm hks) (.refl _)
    rw [hpairs]
    have hkeys : ∀ limit, ∃ first rest, seqPairs col P asc = first ++ rest ∧
        Operations.truncate limit ((seqPairs col P asc).map Prod.snd) = first.map Prod.snd ∧
        first.length = limit.elim id min (numPassing col P) := by
      rintro (_ | m)
      · exact ⟨_, [], (List.append_nil _).symm, rfl, length_seqPairs P asc⟩
      · refine ⟨_, _, (List.take_append_drop m _).symm, List.map_take.symm, ?_⟩
        rw [List.length_take, length_seqPairs]
        rfl
    obtain ⟨first, rest, hsplit, htruncate, hlen⟩ := hkeys limit
    rw [htruncate]
    refine wp_mono (wp_deleteKeys_tick h n _) (fun _ db' hdb' => ?_) fun _ _ h => h
    refine ⟨_, hdb'.1, ?_, hnum.leading hsplit, hdb'.2⟩
    rw [List.length_map, hlen]

/-- The keys at one end come from the index, or from a scan. -/
theorem wp_endKeys (h : db.InStep) {col : DashMap Bytes} (hcol : db.col c = some col) (n : ℕ)
    (asc : Bool) : wp (Operations.endKeys c col n asc)
      (fun keys db' => keys = ((seqPairs col (fun _ _ => true) asc).take n).map Prod.snd ∧
        ∃ m, db' = { db with tick := m }) (fun _ _ => False) db := by
  obtain ⟨hnum, hidx⟩ := h c col hcol
  simp only [Operations.endKeys, wp_bind, wp_get]
  cases hi : db.seqIndex[c]? with
  | some idx =>
    rw [hi, Option.getD_some] at hidx
    refine ⟨?_, db.tick, rfl⟩
    rw [hidx.toList_eq hnum]
  | none =>
    rw [wp_bind]
    refine wp_walk fun ks m hks => ⟨?_, m, rfl⟩
    have hall : matchingPairs (fun _ _ => true) (col.inOrder ks) =
        (col.inOrder ks).map fun e => (readMsgpackSeqToken e.2, e.1) := by
      rw [matchingPairs, List.filter_true]
    rw [← hall, hnum.sortBySeq_perm_eq asc _ (Map.inOrder_perm hks) (.refl _)]
    rfl

/-- **A counted delete removes the documents at one end.** -/
theorem wp_deleteN_without (h : db.InStep) (n : ℕ) (asc : Bool) :
    wp (Operations.deleteN c n asc)
      (fun m db' => ∃ keys, m = keys.length ∧ keys.length = min n (db.count c) ∧
        Leading (db.stored c) (fun _ _ => true) asc keys ∧ db.Without c keys db')
      (fun _ _ => ¬ db.world.Calm) db := by
  have hnone : min n (db.count c) = 0 → ∃ keys : List String, 0 = keys.length ∧
      keys.length = min n (db.count c) ∧ Leading (db.stored c) (fun _ _ => true) asc keys ∧
        db.Without c keys db := by
    intro hzero
    refine ⟨[], rfl, hzero.symm, ⟨List.nodup_nil, fun _ hk => ?_, fun _ hk => ?_⟩, .refl h c⟩
    · exact absurd hk List.not_mem_nil
    · exact absurd hk List.not_mem_nil
  unfold Operations.deleteN
  split_ifs with hn
  · exact hnone (by rw [hn, Nat.zero_min])
  · simp only [wp_bind, wp_get]
    cases hcol : db.col c with
    | none => exact hnone (by rw [Db.count, hcol, Option.map_none, Option.getD_none, Nat.min_zero])
    | some col =>
      have hstored : db.stored c = col := by rw [Db.stored, hcol, Option.getD_some]
      have hcount : (seqPairs col (fun _ _ => true) asc).length = db.count c := by
        rw [length_seqPairs, numPassing, List.filter_true, Std.ExtTreeMap.length_toList, Db.count,
          hcol]
        rfl
      rw [wp_bind, hstored]
      refine wp_mono (wp_endKeys h hcol n asc) (fun keys db₁ h₁ => ?_) fun _ _ h => h.elim
      obtain ⟨rfl, m, rfl⟩ := h₁
      refine wp_mono (wp_deleteKeys_tick h m _) (fun _ db' hdb' => ?_) fun _ _ h => h
      refine ⟨_, hdb'.1, ?_, (h c col hcol).1.leading (List.take_append_drop n _).symm, hdb'.2⟩
      rw [List.length_map, List.length_take, hcount]

/-- **The deletes remove exactly what they say**, and return the number of what they remove. -/
theorem deletes_exact (hcalm : db.world.Calm) (h : db.InStep) (c : String) :
    (∀ keys, ∃ db', Operations.delete c keys db = (.ok (), db') ∧ db.Without c keys db') ∧
    (∀ P limit asc, ∃ keys db', Operations.deleteFiltered c P limit asc db = (.ok keys.length, db') ∧
      keys.length = limit.elim id min (numPassing (db.stored c) P) ∧
      Leading (db.stored c) P asc keys ∧ db.Without c keys db') ∧
    (∀ n asc, ∃ keys db', Operations.deleteN c n asc db = (.ok keys.length, db') ∧
      keys.length = min n (db.count c) ∧ Leading (db.stored c) (fun _ _ => true) asc keys ∧
      db.Without c keys db') := by
  have hno : ∀ {α : Type} {m : Op α} {Q : α → Db → Prop},
      wp m Q (fun _ _ => ¬ db.world.Calm) db → wp m Q (fun _ _ => False) db := fun hm =>
    wp_mono hm (fun _ _ h => h) fun _ _ h => h hcalm
  refine ⟨fun keys => ?_, fun P limit asc => ?_, fun n asc => ?_⟩
  · obtain ⟨_, db', hrun, hdb'⟩ := exists_of_wp (hno (wp_delete_without h keys))
    exact ⟨db', hrun, hdb'⟩
  · obtain ⟨_, db', hrun, keys, rfl, hkeys⟩ :=
      exists_of_wp (hno (wp_deleteFiltered_without h P limit asc))
    exact ⟨keys, db', hrun, hkeys⟩
  · obtain ⟨_, db', hrun, keys, rfl, hkeys⟩ := exists_of_wp (hno (wp_deleteN_without h n asc))
    exact ⟨keys, db', hrun, hkeys⟩

end

theorem ofTwoDocuments_inStep :
    letI := Crates.plain
    ofTwoDocuments.InStep := by
  let _ := Crates.plain
  intro c col hcol
  have hc : c = "c" := by
    by_contra hne
    rw [Db.col, ofTwoDocuments, Map.get?_insert, if_neg hne] at hcol
    cases hcol
  subst hc
  refine ⟨ofTwoDocuments_synced.numbered col hcol, ?_⟩
  have hindex : ofTwoDocuments.seqIndex["c"]? =
      some (((∅ : Map UInt64 String).insert 1 "a").insert 2 "b") := by
    rw [ofTwoDocuments, Map.get?_insert, if_pos rfl]
  rw [hindex]
  exact ofTwoDocuments_synced.indexes col _ hcol hindex

/-- The newer of two documents is removed by a test that both pass. -/
theorem deletes_exact_newer :
    letI := Crates.plain
    ∃ keys db', Operations.deleteFiltered "c" (fun _ _ => true) (some 1) false ofTwoDocuments =
        (.ok keys.length, db') ∧
      keys.length = min 1 (numPassing (ofTwoDocuments.stored "c") fun _ _ => true) ∧
      Leading (ofTwoDocuments.stored "c") (fun _ _ => true) false keys ∧
      ofTwoDocuments.Without "c" keys db' := by
  let _ := Crates.plain
  exact (deletes_exact (plain_calm 0) ofTwoDocuments_inStep "c").2.1 (fun _ _ => true) (some 1) false

end MoltenDB
