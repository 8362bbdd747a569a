/-
  Journals that several writers append to at the same time.

  A reader has one slot for an open transaction, so an operation is lost if the
  transaction opened last is not committed before another one is opened
  (`CommitsNext`).  Where no write to a register is lost, the register holds what
  was written last (`last_run`).
-/
import MoltenDB.Lib.Journal
import MoltenDB.Lib.Overwrite

namespace Journal

variable {I E : Type}

/-- The transaction `id` is opened last in the journal, and not committed since. -/
def Opened (id : I) (A : List (Rec I E)) : Prop :=
  ∃ A₁ A₂, A = A₁ ++ .opening id :: A₂ ∧ .commit id ∉ A₂ ∧ ∀ id', .opening id' ∉ A₂

/-- In the journal `id` is committed before a transaction is opened. -/
def CommitsNext (id : I) : List (Rec I E) → Prop
  | [] => False
  | .opening _ :: _ => False
  | .commit id' :: B => id' = id ∨ CommitsNext id B
  | .op _ :: B => CommitsNext id B

instance CommitsNext.decidable [DecidableEq I] (id : I) : ∀ B : List (Rec I E),
    Decidable (CommitsNext id B)
  | [] => isFalse fun h => h
  | .opening _ :: _ => isFalse fun h => h
  | .commit id' :: B =>
    have := CommitsNext.decidable id B
    inferInstanceAs (Decidable (id' = id ∨ CommitsNext id B))
  | .op _ :: B => CommitsNext.decidable id B

theorem opened_append_singleton {id : I} {A : List (Rec I E)} {x : Rec I E} :
    Opened id (A ++ [x]) ↔
      x = .opening id ∨ Opened id A ∧ x ≠ .commit id ∧ ∀ id', x ≠ .opening id' := by
  constructor
  · rintro ⟨A₁, A₂, heq, hc, ho⟩
    rcases List.eq_nil_or_concat A₂ with rfl | ⟨A₃, y, rfl⟩
    · obtain ⟨-, h⟩ := List.append_inj' heq (by simp)
      exact Or.inl (by simpa using h)
    · rw [List.concat_eq_append] at heq hc ho
      rw [show A₁ ++ .opening id :: (A₃ ++ [y]) = (A₁ ++ .opening id :: A₃) ++ [y] by simp] at heq
      obtain ⟨h, hx⟩ := List.append_inj' heq (by simp)
      simp only [List.cons.injEq, and_true] at hx
      subst hx
      simp only [List.mem_append, List.mem_singleton, not_or] at hc ho
      exact Or.inr ⟨⟨A₁, A₃, h, hc.1, fun id' => (ho id').1⟩, Ne.symm hc.2,
        fun id' => Ne.symm (ho id').2⟩
  · rintro (rfl | ⟨⟨A₁, A₂, rfl, hc, ho⟩, hx, hx'⟩)
    · exact ⟨A, [], rfl, by simp, by simp⟩
    · exact ⟨A₁, A₂ ++ [x], by simp, by simpa using ⟨hc, Ne.symm hx⟩,
        by simpa using fun id' => ⟨ho id', Ne.symm (hx' id')⟩⟩

variable [DecidableEq I]

/-- The slot of the reader holds the transaction that is open. -/
theorem active_run {id : I} (A : List (Rec I E)) :
    (Reader.start.run A).active = some id ↔ Opened id A := by
  induction A using List.reverseRecOn with
  | nil => simp [Reader.start, Opened]
  | append_singleton A x ih =>
    rw [Reader.run_append, Reader.run_cons, Reader.run_nil, opened_append_singleton, ← ih]
    cases x with
    | opening id' => simp [Reader.step]
    | commit id' =>
      by_cases h : (Reader.start.run A).active = some id'
      · simp [Reader.step, h, eq_comm]
      · simp only [Reader.step, if_neg h]
        grind
    | op e => by_cases h : (Reader.start.run A).active.isSome <;> simp [Reader.step, h]

/-- The reader buffers nothing while no transaction is open. -/
theorem buffer_run (A : List (Rec I E)) (h : (Reader.start.run A).active = none) :
    (Reader.start.run A).buffer = [] := by
  induction A using List.reverseRecOn with
  | nil => rfl
  | append_singleton A x ih =>
    rw [Reader.run_append, Reader.run_cons, Reader.run_nil] at h ⊢
    cases x with
    | opening id => rfl
    | commit id =>
      by_cases ha : (Reader.start.run A).active = some id
      · simp [Reader.step, ha]
      · simp only [Reader.step, if_neg ha] at h ⊢
        exact ih h
    | op e =>
      cases ha : (Reader.start.run A).active with
      | none =>
        simp only [Reader.step, ha, Option.isSome_none, Bool.false_eq_true, if_false]
        exact ih ha
      | some id => simp [Reader.step, ha] at h

theorem effects_op (e : E) (B : List (Rec I E)) : effects (.op e :: B) = e :: effects B := by
  rw [effects, Reader.run_cons, Reader.run_applied]
  rfl

theorem effects_commit (id : I) (B : List (Rec I E)) : effects (.commit id :: B) = effects B := rfl

/-- What is buffered takes effect if its transaction is committed next, and what follows as if it
    came first. -/
theorem applied_run_commitsNext {id : I} {r : Reader I E} {B : List (Rec I E)}
    (h : CommitsNext id B) (ha : r.active = some id) :
    (r.run B).applied = r.applied ++ (r.buffer ++ effects B) := by
  induction B generalizing r with
  | nil => exact h.elim
  | cons x B ih =>
    rw [Reader.run_cons]
    cases x with
    | opening id' => exact h.elim
    | commit id' =>
      rw [effects_commit]
      by_cases hid : id' = id
      · have hstep : r.step (.commit id') = ⟨r.applied ++ r.buffer, none, []⟩ := by
          simp [Reader.step, ha, hid]
        rw [hstep, Reader.run_applied, List.append_assoc]
        rfl
      · have hstep : r.step (.commit id') = r := by simp [Reader.step, ha, Ne.symm hid]
        rw [hstep]
        exact ih (h.resolve_left hid) ha
    | op e =>
      have hstep : r.step (.op e) = { r with buffer := r.buffer ++ [e] } := by
        simp [Reader.step, ha]
      rw [hstep, ih (r := { r with buffer := r.buffer ++ [e] }) h ha, effects_op]
      simp

/-- The operations before the first opening. -/
def head : List (Rec I E) → List E
  | .commit _ :: B => head B
  | .op e :: B => e :: head B
  | _ => []

/-- The journal from its first opening on. -/
def fromOpening : List (Rec I E) → List (Rec I E)
  | .opening id :: B => .opening id :: B
  | _ :: B => fromOpening B
  | [] => []

theorem effects_eq_head (B : List (Rec I E)) : effects B = head B ++ effects (fromOpening B) := by
  induction B with
  | nil => rfl
  | cons x B ih =>
    cases x with
    | opening id => rfl
    | commit id => exact ih
    | op e =>
      rw [effects_op, ih]
      rfl

/-- What is open and not committed next takes no effect, and neither do the operations up to the
    next opening. -/
theorem applied_run_cut {id : I} {r : Reader I E} {B : List (Rec I E)} (h : ¬ CommitsNext id B)
    (ha : r.active = some id) : (r.run B).applied = r.applied ++ effects (fromOpening B) := by
  induction B generalizing r with
  | nil => simp [fromOpening, effects, Reader.start]
  | cons x B ih =>
    cases x with
    | opening id' =>
      rw [fromOpening, effects, Reader.run_cons, Reader.run_cons, Reader.run_applied]
      rfl
    | commit id' =>
      obtain ⟨hne, hB⟩ := not_or.1 h
      have hstep : r.step (.commit id') = r := by simp [Reader.step, ha, Ne.symm hne]
      rw [Reader.run_cons, hstep]
      exact ih hB ha
    | op e =>
      have hstep : r.step (.op e) = { r with buffer := r.buffer ++ [e] } := by
        simp [Reader.step, ha]
      rw [Reader.run_cons, hstep]
      exact ih h ha

/-- **An operation that is cut off takes no effect**: it could as well be missing. -/
theorem effects_cut {id : I} {A B : List (Rec I E)} (e : E) (hA : Opened id A)
    (hB : ¬ CommitsNext id B) : effects (A ++ .op e :: B) = effects (A ++ B) := by
  have ha := (active_run A).2 hA
  have hstep : ((Reader.start.run A).step (.op e)).active = some id := by simp [Reader.step, ha]
  rw [effects, effects, Reader.run_append, Reader.run_append, Reader.run_cons,
    applied_run_cut hB ha, applied_run_cut hB hstep]
  simp [Reader.step, ha]

variable {R V : Type} {act : E → R → Option V}

/-- **Where no write to a register is lost, it holds what was written last.** -/
theorem last_run (reg : R) (r : Reader I E) (L : List (Rec I E))
    (hbuf : (∃ e ∈ r.buffer, act e reg ≠ none) → ∃ id, r.active = some id ∧ CommitsNext id L)
    (hops : ∀ A e B, L = A ++ .op e :: B → act e reg ≠ none →
      ∀ id, (r.run A).active = some id → CommitsNext id B) :
    Overwrite.last act (r.run L).applied reg =
      Overwrite.last act (r.applied ++ (r.buffer ++ ops L)) reg := by
  have hnone : ∀ es : List E, (¬ ∃ e ∈ es, act e reg ≠ none) → Overwrite.last act es reg = none :=
    fun es h => Overwrite.last_eq_none.2 (by simpa using h)
  induction L generalizing r with
  | nil =>
    have hb := hnone r.buffer fun h => by obtain ⟨id, -, hn⟩ := hbuf h; exact hn
    simp [ops, Overwrite.last_append, hb]
  | cons x L ih =>
    have hops' : ∀ A e B, L = A ++ .op e :: B → act e reg ≠ none →
        ∀ id, ((r.step x).run A).active = some id → CommitsNext id B :=
      fun A e B heq => hops (x :: A) e B (by rw [heq]; rfl)
    rw [Reader.run_cons]
    cases x with
    | opening id =>
      have hb := hnone r.buffer fun h => by obtain ⟨id, -, hn⟩ := hbuf h; exact hn
      rw [ih _ (by simp [Reader.step]) hops']
      simp [Reader.step, ops, Overwrite.last_append, hb]
    | commit id =>
      by_cases ha : r.active = some id
      · rw [ih _ (by simp [Reader.step, ha]) hops']
        simp [Reader.step, ha, ops]
      · have hstep : r.step (.commit id) = r := by simp [Reader.step, ha]
        rw [hstep] at hops' ⊢
        refine ih r (fun h => ?_) hops'
        obtain ⟨id', h1, h2 | h2⟩ := hbuf h
        · exact absurd (h2 ▸ h1) ha
        · exact ⟨id', h1, h2⟩
    | op e =>
      cases ha : r.active with
      | none =>
        have hb := hnone r.buffer fun h => by obtain ⟨id, hid, -⟩ := hbuf h; simp [ha] at hid
        have hstep : r.step (.op e) = { r with applied := r.applied ++ [e] } := by
          simp [Reader.step, ha]
        rw [hstep] at hops' ⊢
        rw [ih { r with applied := r.applied ++ [e] } (fun h => ?_) hops']
        · simp [ops, Overwrite.last_append, Overwrite.last_cons, hb]
        · obtain ⟨id, hid, -⟩ := hbuf h
          simp [ha] at hid
      | some id =>
        have hstep : r.step (.op e) = { r with buffer := r.buffer ++ [e] } := by
          simp [Reader.step, ha]
        rw [hstep] at hops' ⊢
        rw [ih { r with buffer := r.buffer ++ [e] } (fun h => ⟨id, ha, ?_⟩) hops']
        · simp [ops]
        · obtain ⟨e', he', hw⟩ := h
          rcases List.mem_append.1 he' with he' | he'
          · obtain ⟨id', h1, h2⟩ := hbuf ⟨e', he', hw⟩
            rw [ha, Option.some.injEq] at h1
            rw [h1]
            exact h2
          · rw [List.mem_singleton.1 he'] at hw
            exact hops [] e L rfl hw id ha

end Journal

/-! ## Interleavings -/

namespace Interleaving

variable {ι X : Type} [DecidableEq ι]

/-- What the writer `i` appended, in order. -/
def of (i : ι) (T : List (ι × X)) : List X := (T.filter fun x => x.1 = i).map Prod.snd

theorem of_append (i : ι) (T T' : List (ι × X)) : of i (T ++ T') = of i T ++ of i T' := by
  simp [of]

theorem of_eq_nil {i : ι} {T : List (ι × X)} (h : ∀ x, (i, x) ∉ T) : of i T = [] := by
  rw [of, List.map_eq_nil_iff, List.filter_eq_nil_iff]
  rintro ⟨j, x⟩ hx
  simp only [decide_eq_true_eq]
  rintro rfl
  exact h x hx

theorem of_map_mk (i : ι) (xs : List X) : of i (xs.map (Prod.mk i)) = xs := by
  rw [of, List.filter_eq_self.2 (by simp), List.map_map]
  exact List.map_id xs

theorem mem_of {i : ι} {T : List (ι × X)} {x : X} : x ∈ of i T ↔ (i, x) ∈ T := by
  simp [of]

/-- A register that one writer writes holds what that writer wrote last. -/
theorem last_of {R V : Type} {act : X → R → Option V} {r : R} {i : ι} {T : List (ι × X)}
    (h : ∀ x ∈ T, act x.2 r ≠ none → x.1 = i) :
    Overwrite.last act (T.map Prod.snd) r = Overwrite.last act (of i T) r := by
  induction T with
  | nil => rfl
  | cons x T ih =>
    have ih' := ih fun y hy => h y (List.mem_cons_of_mem _ hy)
    rw [List.map_cons, Overwrite.last_cons, ih']
    by_cases hx : x.1 = i
    · simp [of, hx, Overwrite.last_cons]
    · have hn : act x.2 r = none := by
        by_contra hn
        exact hx (h x List.mem_cons_self hn)
      simp [of, hx, hn]

open Journal

/-- **The operations that one writer appends together** take no effect if a transaction is open
    then that is not committed next, and otherwise all of them do. -/
theorem of_effects_block {I : Type} [DecidableEq I] {i : ι} {A B : List (Rec I (ι × X))}
    (hA : ∀ x, .op (i, x) ∉ A) (hB : ∀ x, .op (i, x) ∉ B) (xs : List X) :
    of i (effects (A ++ ((xs.map (Prod.mk i)).map .op ++ B))) = [] ∧
        (∃ id, Opened id A ∧ ¬ CommitsNext id B) ∨
      of i (effects (A ++ ((xs.map (Prod.mk i)).map .op ++ B))) = xs ∧
        ¬ ∃ id, Opened id A ∧ ¬ CommitsNext id B := by
  set r := Reader.start.run A with hr
  have happlied : of i r.applied = [] := of_eq_nil fun x hx => by
    simpa [Reader.start, hA] using Reader.start.mem_run A (Or.inl hx)
  have hbuffer : of i r.buffer = [] := of_eq_nil fun x hx => by
    simpa [Reader.start, hA] using Reader.start.mem_run A (Or.inr hx)
  have hrun : effects (A ++ ((xs.map (Prod.mk i)).map .op ++ B)) =
      ((r.run ((xs.map (Prod.mk i)).map .op)).run B).applied := by
    rw [effects, Reader.run_append, Reader.run_append]
  rw [hrun]
  cases hactive : r.active with
  | none =>
    refine Or.inr ⟨?_, ?_⟩
    · rw [Reader.run_ops_idle hactive, Reader.run_applied, of_append, of_append, happlied,
        of_map_mk, List.nil_append]
      refine (congrArg (xs ++ ·) (of_eq_nil fun x hx => ?_)).trans (List.append_nil xs)
      rcases Reader.mem_run _ B (Or.inl hx) with h | h | h
      · exact absurd h List.not_mem_nil
      · rw [← mem_of, hbuffer] at h
        exact List.not_mem_nil h
      · exact hB x h
    · rintro ⟨id, hopened, -⟩
      rw [← active_run, ← hr, hactive] at hopened
      cases hopened
  | some id =>
    have hopened : Opened id A := (active_run A).1 hactive
    rw [Reader.run_ops_active (by rw [hactive]; rfl)]
    by_cases hcommits : CommitsNext id B
    · refine Or.inr ⟨?_, ?_⟩
      · have hrest : of i (effects B) = [] := of_eq_nil fun x hx => hB x (mem_effects hx)
        rw [applied_run_commitsNext hcommits
          (r := { r with buffer := r.buffer ++ xs.map (Prod.mk i) }) hactive]
        simp only [of_append, happlied, hbuffer, hrest, of_map_mk, List.nil_append, List.append_nil]
      · rintro ⟨id', hopened', hnot⟩
        rw [← active_run, ← hr, hactive] at hopened'
        cases hopened'
        exact hnot hcommits
    · refine Or.inl ⟨?_, id, hopened, hcommits⟩
      rw [applied_run_cut hcommits (r := { r with buffer := r.buffer ++ xs.map (Prod.mk i) })
        hactive, of_append, happlied, List.nil_append]
      refine of_eq_nil fun x hx => hB x (mem_effects ?_)
      rw [effects_eq_head]
      exact List.mem_append_right _ hx

end Interleaving
