/-
  An update and a delete of one document at the same time: what they leave in the log.

  Map, index and log agree afterwards exactly if the update stores before the delete
  removes and logs in the same order, or finds nothing and does not begin its transaction
  inside that of the delete (`consistent_iff`).
-/
import MoltenDB.Proof.UpdateDelete

namespace MoltenDB

open Wire Prog Prog.Eff Operations LogCommand Journal Schedule

namespace UpdateDelete

open Step

section

variable [Crates] {x : Calls} {now : UInt64} {s : Shared} {T A B : List Step} {bytes : Bytes}
  {doc : Json}

/-- The records that steps append to the log. -/
def logged (x : Calls) (o : Option Json) (T : List Step) : List (Rec String LogEntry) :=
  T.filterMap fun a => (entry x o a).map LogEntry.toRec

omit [Crates] in
theorem logged_append (o : Option Json) :
    logged x o (A ++ B) = logged x o A ++ logged x o B := List.filterMap_append

theorem recs_run_of_found (h : lookup ∉ B) :
    (run x s B).log.map LogEntry.toRec = s.log.map LogEntry.toRec ++ logged x s.found B := by
  induction B generalizing s with
  | nil => simp [run, logged]
  | cons a B ih =>
    have hfound : (step x s a).found = s.found := by
      cases a with
      | lookup => exact absurd List.mem_cons_self h
      | _ => rfl
    rw [run_cons, ih fun hmem => h (List.mem_cons_of_mem _ hmem), hfound]
    cases a with
    | lookup => exact absurd List.mem_cons_self h
    | logInsert => cases hf : s.found <;> simp [step, entry, logged, hf]
    | _ => simp [step, entry, logged]

theorem recs_run_of_notMem (h : logInsert ∉ A) (o : Option Json) :
    (run x s A).log.map LogEntry.toRec = s.log.map LogEntry.toRec ++ logged x o A := by
  induction A generalizing s with
  | nil => simp [run, logged]
  | cons a A ih =>
    rw [run_cons, ih fun hmem => h (List.mem_cons_of_mem _ hmem)]
    cases a with
    | logInsert => exact absurd List.mem_cons_self h
    | _ => simp [step, entry, logged]

theorem Returned.recs_eq (h : Returned x s T) {o : Option Json}
    (ho : (run x s T).looked = some (.ok o)) :
    (run x s T).log.map LogEntry.toRec = s.log.map LogEntry.toRec ++ logged x o T := by
  have hall : ∀ found, lookup ∈ updateSteps found ∧
      (logInsert ∈ updateSteps found → [lookup, logInsert].Sublist (updateSteps found)) := by decide
  have hnodup := h.nodup
  obtain ⟨A, B, rfl⟩ := List.append_of_mem ((h.mem_update ho rfl).2 (hall _).1)
  have hB : lookup ∉ B := notMem_right hnodup
  have hA : logInsert ∉ A := by
    intro hmem
    have hin := (h.mem_update ho (a := logInsert) rfl).1 (List.mem_append_left _ hmem)
    exact (h.before_update ho ((hall _).2 hin)).asymm hnodup (before_of_left hmem)
  have hfound : (step x (run x s A) lookup).found = o := by
    rw [run_append, run_cons, looked_run hB] at ho
    simp [Shared.found, ho]
  rw [run_append, run_cons, recs_run_of_found hB, hfound, logged_append]
  show (run x s A).log.map LogEntry.toRec ++ _ = _
  rw [recs_run_of_notMem hA o, List.append_assoc]
  rfl

omit [Crates] in
/-- A begin of a transaction that is logged is that of one of the calls. -/
theorem opening_of_logged {o : Option Json} {id : String} (h : .opening id ∈ logged x o B) :
    beginUpdate ∈ B ∧ id = x.updateId ∨ beginDelete ∈ B ∧ id = x.deleteId := by
  obtain ⟨a, ha, hrec⟩ := List.mem_filterMap.1 h
  cases a with
  | beginUpdate => exact Or.inl ⟨ha, (Rec.opening.inj (Option.some.inj hrec)).symm⟩
  | beginDelete => exact Or.inr ⟨ha, (Rec.opening.inj (Option.some.inj hrec)).symm⟩
  | logInsert =>
    cases o with
    | none => cases hrec
    | some v => cases Option.some.inj hrec
  | lookup | store | unindex | remove => cases hrec
  | commitUpdate | logDelete | commitDelete => cases Option.some.inj hrec

omit [Crates] in
theorem commit_of_logged {o : Option Json} {id : String} (h : .commit id ∈ logged x o B) :
    commitUpdate ∈ B ∧ id = x.updateId ∨ commitDelete ∈ B ∧ id = x.deleteId := by
  obtain ⟨a, ha, hrec⟩ := List.mem_filterMap.1 h
  cases a with
  | commitUpdate => exact Or.inl ⟨ha, (Rec.commit.inj (Option.some.inj hrec)).symm⟩
  | commitDelete => exact Or.inr ⟨ha, (Rec.commit.inj (Option.some.inj hrec)).symm⟩
  | logInsert =>
    cases o with
    | none => cases hrec
    | some v => cases Option.some.inj hrec
  | lookup | store | unindex | remove => cases hrec
  | beginUpdate | logDelete | beginDelete => cases Option.some.inj hrec

omit [Crates] in
theorem ops_logged {o : Option Json} (hi : logInsert ∉ B) (hd : logDelete ∉ B) :
    ops (logged x o B) = [] := by
  refine List.eq_nil_iff_forall_not_mem.2 fun e he => ?_
  obtain ⟨a, ha, hrec⟩ := List.mem_filterMap.1 (mem_ops.1 he)
  cases a with
  | logInsert => exact hi ha
  | logDelete => exact hd ha
  | lookup | store | unindex | remove => cases hrec
  | beginUpdate | commitUpdate | beginDelete | commitDelete => cases Option.some.inj hrec

omit [Crates] in
/-- The last entry that a call logged between its markers comes last. -/
theorem ops_logged_last {o : Option Json} {a : Step} {e : LogEntry}
    (ha : (entry x o a).map LogEntry.toRec = some (.op e)) (hi : logInsert ∉ B)
    (hd : logDelete ∉ B) :
    ops (logged x o (A ++ a :: B)) = ops (logged x o A) ++ [e] := by
  have hcons : logged x o (a :: B) = .op e :: logged x o B := List.filterMap_cons_some ha
  rw [logged_append, ops_append, hcons, ops, ops_logged hi hd]

/-- The slot of the reader after the log, opened last by the step `b`. -/
theorem Returned.reader_eq (h : Returned x s (A ++ B)) {o : Option Json}
    (ho : (run x s (A ++ B)).looked = some (.ok o)) {b : Step} {id : String} {B' : List Step}
    (hB : B = b :: B') (hb : (entry x o b).map LogEntry.toRec = some (.opening id))
    (hu : beginUpdate ∉ B') (hd : beginDelete ∉ B') (hc : .commit id ∈ logged x o B') :
    effects (run x s (A ++ B)).log =
      ((Reader.start.run (s.log.map LogEntry.toRec)).run (logged x o A)).applied ++
        ops (logged x o B') := by
  subst hB
  have hcons : logged x o (b :: B') = .opening id :: logged x o B' := List.filterMap_cons_some hb
  have hopen : ∀ id', .opening id' ∉ logged x o B' := by
    intro id' hmem
    rcases opening_of_logged hmem with hmem | hmem
    · exact hu hmem.1
    · exact hd hmem.1
  rw [effects, h.recs_eq ho, logged_append, hcons, Journal.effects, Reader.run_append,
    Reader.run_append, Reader.run_committed _ hopen hc]

/-- The begin of the call that takes the step. -/
def Step.begin (a : Step) : Step := if a.ofUpdate then beginUpdate else beginDelete

theorem Returned.begin_before (h : Returned x s T) {a : Step} (ha : a ∈ T) :
    a = a.begin ∨ Before T a.begin a := by
  obtain ⟨o, ho, -⟩ := h.update
  have hall : ∀ found, ∀ a ∈ updateSteps found, a.begin = beginUpdate ∧
      (a = beginUpdate ∨ [beginUpdate, a].Sublist (updateSteps found)) := by decide
  have hall' : ∀ a ∈ deleteSteps, a.begin = beginDelete ∧
      (a = beginDelete ∨ [beginDelete, a].Sublist deleteSteps) := by decide
  cases hof : a.ofUpdate with
  | true =>
    obtain ⟨hbegin, heq | hsub⟩ := hall _ a ((h.mem_update ho hof).1 ha)
    · exact Or.inl (heq.trans hbegin.symm)
    · exact Or.inr (hbegin ▸ h.before_update ho hsub)
  | false =>
    obtain ⟨hbegin, heq | hsub⟩ := hall' a ((h.mem_delete hof).1 ha)
    · exact Or.inl (heq.trans hbegin.symm)
    · exact Or.inr (hbegin ▸ h.before_delete hsub)

theorem Returned.mem_begin (h : Returned x s T) : beginUpdate ∈ T ∧ beginDelete ∈ T := by
  obtain ⟨o, ho, -⟩ := h.update
  have hall : ∀ found, beginUpdate ∈ updateSteps found := by decide
  exact ⟨(h.mem_update ho rfl).2 (hall _), (h.mem_delete rfl).2 (by decide)⟩

/-- **What is logged last takes effect last**, if both transactions were begun before. -/
theorem Returned.effects_last (h : Returned x s T) {o : Option Json}
    (ho : (run x s T).looked = some (.ok o)) {a : Step} {e : LogEntry} (haT : a ∈ T)
    (ha : (entry x o a).map LogEntry.toRec = some (.op e)) (hu : Before T beginUpdate a)
    (hd : Before T beginDelete a) (hi : ¬ Before T a logInsert) (hl : ¬ Before T a logDelete) :
    ∃ L, effects (run x s T).log = L ++ [e] := by
  have hall : ∀ found, [beginUpdate, commitUpdate].Sublist (updateSteps found) := by decide
  have hnodup := h.nodup
  -- the steps after the last begin
  have hsplit : ∀ {A B : List Step} {b : Step} {id : String}, T = A ++ b :: B →
      (entry x o b).map LogEntry.toRec = some (.opening id) → Before T b a → beginUpdate ∉ B →
        beginDelete ∉ B → .commit id ∈ logged x o B → ∃ L, effects (run x s T).log = L ++ [e] := by
    rintro A B b id rfl hb hba huB hdB hc
    rw [h.reader_eq ho rfl hb huB hdB hc]
    obtain ⟨B₁, B₂, rfl⟩ := List.append_of_mem (mem_right_of_before hnodup hba)
    have hlate : ∀ c ∈ B₂, Before (A ++ b :: (B₁ ++ a :: B₂)) a c := by
      intro c hc
      have hrw : A ++ b :: (B₁ ++ a :: B₂) = (A ++ b :: B₁) ++ a :: B₂ := by simp
      rw [hrw]
      exact before_of_right hc
    rw [ops_logged_last ha (fun hmem => hi (hlate _ hmem)) fun hmem => hl (hlate _ hmem),
      ← List.append_assoc]
    exact ⟨_, rfl⟩
  obtain ⟨huT, hdT⟩ := h.mem_begin
  rcases before_or_before huT hdT (by decide) with hud | hdu
  · obtain ⟨A, B, rfl⟩ := List.append_of_mem hdT
    refine hsplit rfl rfl hd (fun hmem => ?_) (notMem_right hnodup) ?_
    · exact hud.asymm hnodup (before_of_right hmem)
    · refine List.mem_filterMap.2 ⟨commitDelete, ?_, rfl⟩
      exact mem_right_of_before hnodup (h.before_delete (by decide))
  · obtain ⟨A, B, rfl⟩ := List.append_of_mem huT
    refine hsplit rfl rfl hu (notMem_right hnodup) (fun hmem => ?_) ?_
    · exact hdu.asymm hnodup (before_of_right hmem)
    · refine List.mem_filterMap.2 ⟨commitUpdate, ?_, rfl⟩
      exact mem_right_of_before hnodup (h.before_update ho (hall _))

/-- A document is rebuilt or not as the last effect of the log has it. -/
theorem rebuilt_of_effects {L : List LogEntry} {e : LogEntry} (hlog : effects s.log = L ++ [e])
    (hc : e.collection = x.collection) (hk : e.key = x.key) :
    (e.cmd = IKEY_INSERT → s.Rebuilt x now) ∧ (e.cmd = IKEY_DELETE → ¬ s.Rebuilt x now) := by
  have hdoc : (x.collection, x.key) = (e.collection, e.key) := by rw [hc, hk]
  constructor
  · intro hcmd
    have hbytes := bytes_applyEntry now (L.foldl (applyEntry now) .empty) (Or.inl hcmd)
      (x.collection, x.key)
    rw [LogEntry.stores, if_pos hdoc, if_pos hcmd] at hbytes
    have hsome : (rebuild now s.log).state.bytes x.collection x.key =
        some (valueToMsgpack e.value) := by
      rw [rebuild_eq, hlog, List.foldl_append]
      exact hbytes
    simp [Shared.Rebuilt, hsome]
  · intro hcmd
    have hbytes := bytes_applyEntry now (L.foldl (applyEntry now) .empty) (Or.inr hcmd)
      (x.collection, x.key)
    have hne : e.cmd ≠ IKEY_INSERT := by rw [hcmd]; decide
    rw [LogEntry.stores, if_pos hdoc, if_neg hne, if_pos hcmd] at hbytes
    have hnone : (rebuild now s.log).state.bytes x.collection x.key = none := by
      rw [rebuild_eq, hlog, List.foldl_append]
      exact hbytes
    simp [Shared.Rebuilt, hnone]

/-- Nothing is taken before both calls begin. -/
theorem Returned.nil_of_notBegun (h : Returned x s (A ++ B)) (hu : beginUpdate ∉ A)
    (hd : beginDelete ∉ A) : A = [] := by
  refine List.eq_nil_iff_forall_not_mem.2 fun a ha => ?_
  have hnodup := h.nodup
  have hbegin : a.begin ∉ A := by
    unfold Step.begin
    split_ifs
    · exact hu
    · exact hd
  rcases h.begin_before (List.mem_append_left _ ha) with heq | hb
  · exact hbegin (heq ▸ ha)
  · obtain ⟨A₁, A₂, rfl⟩ := List.append_of_mem ha
    rw [List.append_assoc, List.cons_append] at hb hnodup
    exact hbegin (List.mem_append_left _ (mem_left_of_before hnodup hb))

section Begun

variable {A₁ A₂ : List Step}

/-- If the update found nothing, the log takes effect as the reader has applied it at the begin of
    the update. -/
theorem Returned.effects_begun (h : Returned x s (A₁ ++ beginDelete :: A₂ ++ beginUpdate :: B))
    (ho : (run x s (A₁ ++ beginDelete :: A₂ ++ beginUpdate :: B)).looked = some (.ok none))
    (hl : logDelete ∈ A₂) :
    effects (run x s (A₁ ++ beginDelete :: A₂ ++ beginUpdate :: B)).log =
      (((Reader.start.run (s.log.map LogEntry.toRec)).run (logged x none A₁)).run
        (.opening x.deleteId :: logged x none A₂)).applied := by
  have hnodup := h.nodup
  have hright : ∀ {a}, a ∈ A₁ ++ beginDelete :: A₂ → a ∉ B := fun ha hmem =>
    List.disjoint_of_nodup_append hnodup ha (List.mem_cons_of_mem _ hmem)
  have hiB : logInsert ∉ B := by
    intro hmem
    exact absurd ((h.mem_update ho (a := logInsert) rfl).1 (by simp [hmem])) (by decide)
  have hcommit : commitUpdate ∈ B := mem_right_of_before hnodup
    (h.before_update ho (show [beginUpdate, commitUpdate].Sublist (updateSteps false) by decide))
  have hlogged : logged x none (A₁ ++ beginDelete :: A₂) =
      logged x none A₁ ++ .opening x.deleteId :: logged x none A₂ := logged_append none
  rw [h.reader_eq ho rfl rfl (notMem_right hnodup) (hright (by simp))
    (List.mem_filterMap.2 ⟨commitUpdate, hcommit, rfl⟩),
    ops_logged hiB (hright (by simp [hl])), List.append_nil, hlogged, Reader.run_append]

/-- A delete that was committed before the update began took effect last. -/
theorem Returned.not_rebuilt_of_committed
    (h : Returned x s (A₁ ++ beginDelete :: A₂ ++ beginUpdate :: B))
    (ho : (run x s (A₁ ++ beginDelete :: A₂ ++ beginUpdate :: B)).looked = some (.ok none))
    (hl : logDelete ∈ A₂) (hopen : ∀ id, .opening id ∉ logged x none A₂) (hc : commitDelete ∈ A₂) :
    ¬ (run x s (A₁ ++ beginDelete :: A₂ ++ beginUpdate :: B)).Rebuilt x now := by
  have hnodup := h.nodup
  have heff := h.effects_begun ho hl
  rw [Reader.run_committed _ hopen (List.mem_filterMap.2 ⟨commitDelete, hc, rfl⟩)] at heff
  obtain ⟨A₃, A₄, rfl⟩ := List.append_of_mem hl
  have hlA₄ : logDelete ∉ A₄ := by
    have hA₂ : (A₁ ++ beginDelete :: (A₃ ++ logDelete :: A₄)).Nodup :=
      hnodup.sublist (List.sublist_append_left _ _)
    exact notMem_right (List.nodup_cons.1 (List.nodup_append.1 hA₂).2.1).2
  have hiA₄ : logInsert ∉ A₄ := by
    intro hmem
    exact absurd ((h.mem_update ho (a := logInsert) rfl).1 (by simp [hmem])) (by decide)
  have hrec : (entry x none logDelete).map LogEntry.toRec =
      some (.op ⟨IKEY_DELETE, x.collection, x.key, .null, x.clock logDelete⟩) := rfl
  rw [ops_logged_last hrec hiA₄ hlA₄, ← List.append_assoc] at heff
  exact (rebuilt_of_effects heff rfl rfl).2 rfl

/-- A delete that was cut off by the begin of the update takes no effect. -/
theorem Returned.rebuilt_of_cut (h : Returned x s (A₁ ++ beginDelete :: A₂ ++ beginUpdate :: B))
    (hsync : InSync x now s bytes doc)
    (ho : (run x s (A₁ ++ beginDelete :: A₂ ++ beginUpdate :: B)).looked = some (.ok none))
    (hl : logDelete ∈ A₂) (hopen : ∀ id, .opening id ∉ logged x none A₂) (hc : commitDelete ∉ A₂) :
    (run x s (A₁ ++ beginDelete :: A₂ ++ beginUpdate :: B)).Rebuilt x now := by
  have hnodup := h.nodup
  have heff := h.effects_begun ho hl
  have hcommit : .commit x.deleteId ∉ logged x none A₂ := by
    intro hmem
    rcases commit_of_logged hmem with hmem | hmem
    · have hcu := h.before_update ho
        (show [beginUpdate, commitUpdate].Sublist (updateSteps false) by decide)
      exact hcu.asymm hnodup (before_of_left (by simp [hmem.1]))
    · exact hc hmem.1
  have hnil : A₁ = [] := by
    have huA : beginUpdate ∉ A₁ ++ beginDelete :: A₂ := notMem_left hnodup
    rw [List.append_assoc, List.cons_append] at h hnodup
    exact h.nil_of_notBegun (fun hmem => huA (by simp [hmem])) (notMem_left hnodup)
  rw [hnil, Reader.applied_run_uncommitted _ hopen hcommit] at heff
  have hlog := hsync.log
  rw [Shared.Rebuilt, rebuild_eq] at hlog ⊢
  rw [hnil]
  exact heff ▸ hlog

/-- A delete that is logged before the update begins its transaction takes effect only if it was
    committed by then. -/
theorem Returned.rebuilt_of_begun (h : Returned x s T) (hsync : InSync x now s bytes doc)
    (ho : (run x s T).looked = some (.ok none)) (hb : Before T logDelete beginUpdate) :
    (run x s T).Rebuilt x now ↔ Before T beginUpdate commitDelete := by
  have hnodup := h.nodup
  obtain ⟨huT, hdT⟩ := h.mem_begin
  have hbd : Before T beginDelete logDelete := h.before_delete (by decide)
  have hdc : Before T logDelete commitDelete := h.before_delete (by decide)
  obtain ⟨A, B, rfl⟩ := List.append_of_mem huT
  obtain ⟨A₁, A₂, rfl⟩ := List.append_of_mem (mem_left_of_before hnodup (hbd.trans hnodup hb))
  have hinner : (A₁ ++ beginDelete :: A₂).Nodup := hnodup.sublist (List.sublist_append_left _ _)
  have hafter : ∀ {a}, Before (A₁ ++ beginDelete :: A₂ ++ beginUpdate :: B) beginDelete a →
      a ∈ A₁ ++ beginDelete :: A₂ → a ∈ A₂ := by
    intro a hba hmem
    rw [List.append_assoc, List.cons_append] at hba hnodup
    rcases List.mem_append.1 hmem with hmem | hmem
    · exact absurd hba (Before.asymm hnodup (before_of_left hmem))
    · refine (List.mem_cons.1 hmem).resolve_left ?_
      rintro rfl
      exact hba.asymm hnodup hba
  have hlA₂ : logDelete ∈ A₂ := hafter hbd (mem_left_of_before hnodup hb)
  have hopen : ∀ id, .opening id ∉ logged x none A₂ := by
    intro id hmem
    rcases opening_of_logged hmem with hmem | hmem
    · exact notMem_left hnodup (by simp [hmem.1])
    · exact notMem_right hinner hmem.1
  by_cases hc : commitDelete ∈ A₂
  · refine iff_of_false (h.not_rebuilt_of_committed ho hlA₂ hopen hc) ?_
    exact Before.asymm hnodup (before_of_left (by simp [hc]))
  · refine iff_of_true (h.rebuilt_of_cut hsync ho hlA₂ hopen hc) ?_
    refine (before_or_before hdc.mem.2 huT (by decide)).resolve_left fun hcut => hc ?_
    exact hafter (hbd.trans hnodup hdc) (mem_left_of_before hnodup hcut)

end Begun

/-- What the log rebuilds if the update found nothing. -/
theorem Returned.rebuilt_of_none (h : Returned x s T) (hsync : InSync x now s bytes doc)
    (ho : (run x s T).looked = some (.ok none)) :
    (run x s T).Rebuilt x now ↔
      Before T logDelete beginUpdate ∧ Before T beginUpdate commitDelete := by
  have hnodup := h.nodup
  have hiT : logInsert ∉ T := fun hmem => absurd ((h.mem_update ho rfl).1 hmem) (by decide)
  have hlT : logDelete ∈ T := (h.mem_delete rfl).2 (by decide)
  rcases before_or_before hlT h.mem_begin.1 (by decide) with hb | hb
  · rw [h.rebuilt_of_begun hsync ho hb]
    exact (and_iff_right hb).symm
  · obtain ⟨L, hL⟩ := h.effects_last ho (e := ⟨IKEY_DELETE, x.collection, x.key, .null,
      x.clock logDelete⟩) hlT rfl hb (h.before_delete (by decide))
      (fun hbi => hiT hbi.mem.2) fun hbl => hbl.asymm hnodup hbl
    refine iff_of_false ((rebuilt_of_effects hL rfl rfl).2 rfl) ?_
    exact fun hcut => hb.asymm hnodup hcut.1

/-- What the log rebuilds if the update stored a document: the entry that is logged last. -/
theorem Returned.rebuilt_of_some (h : Returned x s T) {v : Json}
    (ho : (run x s T).looked = some (.ok (some v))) :
    (run x s T).Rebuilt x now ↔ Before T logDelete logInsert := by
  have hnodup := h.nodup
  have hiT : logInsert ∈ T := (h.mem_update ho rfl).2 (show logInsert ∈ updateSteps true by decide)
  have hlT : logDelete ∈ T := (h.mem_delete rfl).2 (by decide)
  have hui : Before T beginUpdate logInsert :=
    h.before_update ho (show [beginUpdate, logInsert].Sublist (updateSteps true) by decide)
  have hdl : Before T beginDelete logDelete := h.before_delete (by decide)
  rcases before_or_before hlT hiT (by decide) with hb | hb
  · obtain ⟨L, hL⟩ := h.effects_last ho (e := ⟨IKEY_INSERT, x.collection, x.key, v,
      x.clock logInsert⟩) hiT rfl hui (hdl.trans hnodup hb) (fun hbi => hbi.asymm hnodup hbi)
      (hb.asymm hnodup)
    exact iff_of_true ((rebuilt_of_effects hL rfl rfl).1 rfl) hb
  · obtain ⟨L, hL⟩ := h.effects_last ho (e := ⟨IKEY_DELETE, x.collection, x.key, .null,
      x.clock logDelete⟩) hlT rfl (hui.trans hnodup hb) hdl (hb.asymm hnodup)
      fun hbl => hbl.asymm hnodup hbl
    exact iff_of_false ((rebuilt_of_effects hL rfl rfl).2 rfl) (hb.asymm hnodup)

/-- **An update and a delete of one document leave map, index and log consistent** exactly if
    their steps are in order. -/
theorem consistent_iff (hsync : InSync x now s bytes doc) (h : Returned x s T) :
    Consistent x now (run x s T) ↔ InOrder x bytes doc T := by
  have hnodup := h.nodup
  obtain ⟨o, ho, -⟩ := h.update
  have hindex := h.index_iff hsync ho
  rcases h.looked_eq hsync ho with ⟨hrl, rfl⟩ | ⟨hlr, rfl⟩
  · have hsT : store ∉ T := fun hmem => absurd ((h.mem_update ho rfl).1 hmem) (by decide)
    have hnone : ¬ ∃ seq : UInt64, (run x s T).index[seq]? = some x.key :=
      fun hex => hsT (hindex.1 hex).1.mem.1
    rw [Consistent, h.doc_removed (Or.inl hsT), h.rebuilt_of_none hsync ho, InOrder]
    simp only [Option.isSome_none, Bool.false_eq_true, false_iff, hnone, true_and]
    refine ⟨fun hcut => Or.inr ⟨hrl, hcut⟩, ?_⟩
    rintro (⟨hsr, -⟩ | ⟨-, hcut⟩)
    · exact absurd hsr.mem.1 hsT
    · exact hcut
  · have hsT : store ∈ T := (h.mem_update ho rfl).2 (show store ∈ updateSteps true by decide)
    have hiT : logInsert ∈ T :=
      (h.mem_update ho rfl).2 (show logInsert ∈ updateSteps true by decide)
    have hlT : logDelete ∈ T := (h.mem_delete rfl).2 (by decide)
    have hur : Before T unindex remove := h.before_delete (by decide)
    have hrl : ¬ Before T remove lookup := hlr.asymm hnodup
    rcases before_or_before hsT h.mem_remove (by decide) with hsr | hrs
    · have hlog : ¬ Before T logDelete logInsert ↔ Before T logInsert logDelete :=
        ⟨(before_or_before hlT hiT (by decide)).resolve_left, fun hb => hb.asymm hnodup⟩
      rw [Consistent, h.doc_removed (Or.inr hsr), h.rebuilt_of_some ho, hindex, InOrder]
      simp only [Option.isSome_none, Bool.false_eq_true, false_iff, hlog, hsr, hrl, true_and,
        false_and, or_false, not_and, not_not]
      exact and_comm
    · have hdoc : (run x s T).doc = some (valueToMsgpack (mergeAt doc x.updates
          (x.clock lookup))) := by
        have happ : T ++ [] = T := List.append_nil T
        have hret : Returned x s (T ++ []) := happ.symm ▸ h
        refine hret.doc_stored (happ.symm ▸ ho) hsT fun A₁ A₂ heq hmem => ?_
        exact hrs.asymm hnodup (heq ▸ before_of_right hmem)
      have hsr := hrs.asymm hnodup
      refine iff_of_false (fun hcons => ?_) ?_
      · have hsu := (hindex.1 (hcons.1.1 (by rw [hdoc]; rfl))).1
        exact hsr (hsu.trans hnodup hur)
      · rintro (⟨hsr', -⟩ | ⟨hrl', -⟩)
        · exact hsr hsr'
        · exact hrl hrl'

end

/-! ## Two interleavings -/

/-- A document of version 1 and number 5. -/
def numbered : Json := .obj [("-1", .ofU64 1), ("-3", .ofU64 5)]

/-- The document in the map, in the index and in the log. -/
def atStart : Shared :=
  ⟨some (valueToMsgpack numbered), (∅ : Map UInt64 String).insert 5 "a",
    (insertTx "tx1" "a").entries, none⟩

/-- An update of the document that sets a field, and its delete. -/
def twoCalls : Calls :=
  ⟨"c", "a", .obj [("x", .str "y")], "tx2", "tx3", fun _ => true, fun _ => 0⟩

theorem atStart_inSync : @InSync Crates.plain twoCalls 0 atStart (valueToMsgpack numbered)
    numbered := by
  let _ := Crates.plain
  have hseq : readMsgpackSeqToken (valueToMsgpack numbered) = 5 := by decide +kernel
  refine ⟨rfl, by decide +kernel, fun seq => ?_, ?_⟩
  · rw [hseq]
    show ((∅ : Map UInt64 String).insert 5 "a")[seq]? = some "a" ↔ seq = 5
    rw [Map.get?_insert]
    by_cases h : seq = 5 <;> simp [h]
  · show ((rebuild 0 atStart.log).state.bytes "c" "a").isSome = true
    decide +kernel

/-- The update, then the delete. -/
def oneByOne : List Step := updateSteps true ++ deleteSteps

/-- The update stores after the document it looked up was removed. -/
def overtaken : List Step :=
  [beginUpdate, lookup, beginDelete, unindex, remove, logDelete, commitDelete, store, logInsert,
    commitUpdate]

/-- In both orders the update finds the document and both calls return. -/
theorem twoCalls_returned : ∀ T ∈ [oneByOne, overtaken], @Returned Crates.plain twoCalls atStart T := by
  let _ := Crates.plain
  intro T hT
  have hlooked : (run twoCalls atStart T).looked =
      some (lookUp twoCalls.valid (valueToMsgpack numbered) twoCalls.updates 0) := by
    rcases List.mem_cons.1 hT with rfl | hT
    · rfl
    · rw [List.mem_singleton.1 hT]
      rfl
  have hok : lookUp twoCalls.valid (valueToMsgpack numbered) twoCalls.updates 0 =
      .ok (some (mergeAt numbered twoCalls.updates 0)) := by
    have hread : msgpackToValue (valueToMsgpack numbered) = some numbered := by decide +kernel
    have hholds : guardHolds numbered twoCalls.updates = true := by decide +kernel
    simp [lookUp, hread, hholds, show twoCalls.valid = fun _ => true from rfl]
  refine ⟨⟨_, hlooked.trans (congrArg some hok), ?_⟩, ?_⟩
  · rcases List.mem_cons.1 hT with rfl | hT
    · rfl
    · rw [List.mem_singleton.1 hT]
      rfl
  · rcases List.mem_cons.1 hT with rfl | hT
    · rfl
    · rw [List.mem_singleton.1 hT]
      rfl

theorem consistent_iff_oneByOne :
    @Consistent Crates.plain twoCalls 0 (@run Crates.plain twoCalls atStart oneByOne) ↔
      @InOrder Crates.plain twoCalls (valueToMsgpack numbered) numbered oneByOne :=
  @consistent_iff Crates.plain twoCalls 0 atStart oneByOne (valueToMsgpack numbered) numbered
    atStart_inSync (twoCalls_returned oneByOne (by simp))

/-- **A deleted document comes back without its index entry**: the update stores it after the
    delete removed it from the index and the map. -/
theorem overtaken_inconsistent :
    ∃ (x : Calls) (s : Shared) (bytes : Bytes) (doc : Json) (T : List Step),
      @InSync Crates.plain x 0 s bytes doc ∧ @Returned Crates.plain x s T ∧
      (@run Crates.plain x s T).doc.isSome ∧ (@run Crates.plain x s T).index.toList = [] ∧
      ¬ @Consistent Crates.plain x 0 (@run Crates.plain x s T) := by
  have hdoc : (@run Crates.plain twoCalls atStart overtaken).doc.isSome = true := by decide +kernel
  have hindex : (@run Crates.plain twoCalls atStart overtaken).index.toList = [] := by
    decide +kernel
  refine ⟨twoCalls, atStart, _, _, overtaken, atStart_inSync, twoCalls_returned overtaken (by simp),
    hdoc, hindex, fun hcons => ?_⟩
  obtain ⟨seq, hseq⟩ := hcons.1.1 hdoc
  have hmem := Map.mem_toList.2 hseq
  rw [hindex] at hmem
  cases hmem

end UpdateDelete

end MoltenDB
