/-
  The nesting of stored documents.

  A request is checked to be nested in at most 32 levels, so its documents are in at most 30.
  A document that it embeds is one level deeper than it was stored: if those it embeds are in
  at most 31, all stored documents stay in 32 (`documents_within_limit`).
-/
import MoltenDB.Proof.UpdateMerges

namespace MoltenDB

open Wire Prog Prog.Eff

/-! ## The measure of the check -/

theorem tooDeepItems_eq (n k : ℕ) (xs : List Json) :
    tooDeepItems n k xs = (xs.map (tooDeep n (k + 1))).any id := by
  induction xs with
  | nil => rfl
  | cons x xs ih => rw [tooDeepItems, ih, List.map_cons, List.any_cons, id]

theorem tooDeepFields_eq (n k : ℕ) (fs : List (String × Json)) :
    tooDeepFields n k fs = (fs.map fun p => tooDeep n (k + 1) p.2).any id := by
  induction fs with
  | nil => rfl
  | cons p fs ih => rw [tooDeepFields, ih, List.map_cons, List.any_cons, id]

/-- One more level around the value, and one more allowed. -/
theorem tooDeep_succ (n k : ℕ) (v : Json) : tooDeep (n + 1) (k + 1) v = tooDeep n k v := by
  induction v generalizing k with
  | null | bool | num | str => simp [tooDeep]
  | arr xs ih =>
    simp only [tooDeep, tooDeepItems_eq, Nat.add_lt_add_iff_right]
    rw [List.map_congr_left fun x hx => ih x hx (k + 1)]
  | obj fs ih =>
    simp only [tooDeep, tooDeepFields_eq, Nat.add_lt_add_iff_right]
    rw [List.map_congr_left fun p hp => ih p hp (k + 1)]

namespace Json

/-- The value passes the check of its nesting with the bound `n`. -/
def Within (n : ℕ) (v : Json) : Prop := validateJsonDepth v n = .ok ()

theorem within_iff {n : ℕ} {v : Json} : v.Within n ↔ tooDeep n 0 v = false := by
  unfold Within validateJsonDepth
  cases tooDeep n 0 v <;> simp

instance (n : ℕ) (v : Json) : Decidable (v.Within n) := decidable_of_iff _ within_iff.symm

/-- A part of a value has one level less. -/
theorem within_part {n : ℕ} {v : Json} : tooDeep n 1 v = false ↔ 0 < n ∧ v.Within (n - 1) := by
  cases n with
  | zero => cases v <;> simp [tooDeep]
  | succ n => rw [tooDeep_succ, within_iff]; simp

theorem within_arr {n : ℕ} {xs : List Json} :
    (arr xs).Within n ↔ ∀ x ∈ xs, 0 < n ∧ x.Within (n - 1) := by
  have hany : (arr xs).Within n ↔ ∀ x ∈ xs, tooDeep n 1 x = false := by
    simp [within_iff, tooDeep, tooDeepItems_eq]
  exact hany.trans (forall₂_congr fun x _ => within_part)

theorem within_obj {n : ℕ} {fs : List (String × Json)} :
    (obj fs).Within n ↔ ∀ p ∈ fs, 0 < n ∧ p.2.Within (n - 1) := by
  have hany : (obj fs).Within n ↔ ∀ p ∈ fs, tooDeep n 1 p.2 = false := by
    simp [within_iff, tooDeep, tooDeepFields_eq]
  exact hany.trans (forall₂_congr fun p _ => within_part)

theorem Within.mono {m n : ℕ} {v : Json} (h : v.Within m) (hle : m ≤ n) : v.Within n := by
  induction v generalizing m n with
  | null | bool | num | str => simp [within_iff, tooDeep]
  | arr xs ih =>
    rw [within_arr] at h ⊢
    intro x hx
    exact ⟨(h x hx).1.trans_le hle, ih x hx (h x hx).2 (Nat.sub_le_sub_right hle 1)⟩
  | obj fs ih =>
    rw [within_obj] at h ⊢
    intro p hp
    exact ⟨(h p hp).1.trans_le hle, ih p hp (h p hp).2 (Nat.sub_le_sub_right hle 1)⟩

/-- Decoding makes no value deeper. -/
theorem Within.canon {n : ℕ} {v : Json} (h : v.Within n) : v.canon.Within n := by
  induction v generalizing n with
  | null | bool | num | str => exact h
  | arr xs ih =>
    rw [within_arr] at h
    rw [canon_arr, within_arr]
    intro y hy
    obtain ⟨x, hx, rfl⟩ := List.mem_map.1 hy
    exact ⟨(h x hx).1, ih x hx (h x hx).2⟩
  | obj fs ih =>
    rw [within_obj] at h
    rw [canon_obj, within_obj]
    intro p hp
    obtain ⟨q, hq, rfl⟩ := exists_internalName hp
    exact ⟨(h q hq).1, ih q hq (h q hq).2⟩

/-- A field of a value is set to one with a level less. -/
theorem Within.set {n : ℕ} {v x : Json} {k : String} (h : v.Within (n + 1)) (hx : x.Within n) :
    (v.set k x).Within (n + 1) := by
  cases v with
  | obj fs =>
    rw [set_obj, within_obj]
    rintro ⟨a, w⟩ hp
    rcases Fields.mem_insert.1 hp with ⟨-, rfl⟩ | ⟨-, hp⟩
    · exact ⟨Nat.succ_pos n, hx⟩
    · exact within_obj.1 h _ hp
  | _ => exact h

theorem within_ofU64 (n : ℕ) (u : UInt64) : (ofU64 u).Within n := by
  simp [ofU64, within_iff, tooDeep]

end Json

/-! ## What is stored -/

theorem within_stampWith {v : Json} (h : v.Within 32) (ver created now seq : UInt64) :
    (stampWith v ver created now seq).Within 32 :=
  (((h.set (Json.within_ofU64 31 _)).set (Json.within_ofU64 31 _)).set
    (Json.within_ofU64 31 _)).set (Json.within_ofU64 31 _)

theorem within_merged {docObj updateObj : List (String × Json)} (h : (Json.obj docObj).Within 32)
    (hupdate : (Json.obj updateObj).Within 32) (now : UInt64) :
    (merged docObj updateObj now).Within 32 := by
  refine Json.Within.set (Json.Within.set (Json.within_obj.2 fun p hp => ?_)
    (Json.within_ofU64 31 _)) (Json.within_ofU64 31 _)
  rcases Fields.mem_of_mem_insertAll hp with hp | hp
  · exact Json.within_obj.1 hupdate p (List.mem_of_mem_filter hp)
  · exact Json.within_obj.1 h p hp

/-- The stored document that a reference `collection.key` names. -/
def Db.referenced (db : Db) (reference : Json) : Option Json :=
  (reference.asStr.bind cutAtDot).bind fun p => (db.get p.1 [p.2])[p.2]?

theorem embedReference_eq (db : Db) (result : List (String × Json)) (name : String)
    (reference : Json) : embedReference db result name reference =
      ((db.referenced reference).map fun v => Fields.insert name v result).getD result := by
  unfold embedReference Db.referenced
  cases reference.asStr.bind cutAtDot with
  | none => rfl
  | some p =>
    simp only [Option.bind_some]
    cases (db.get p.1 [p.2])[p.2]? <;> rfl

/-- The documents that `doc` embeds are nested in at most 31 levels. -/
def EmbedsShallow (db : Db) (doc : Json) : Prop :=
  ∀ fs refs, doc = .obj fs → fs.lookup "extends" = some (.obj refs) →
    ∀ p ∈ refs, ∀ v, db.referenced p.2 = some v → v.Within 31

/-- **A document with what it embeds** is nested in at most 32 levels. -/
theorem within_resolveExtends {db : Db} {doc : Json} (h : doc.Within 32)
    (hrefs : EmbedsShallow db doc) : (resolveExtends db doc).Within 32 := by
  cases doc with
  | obj fs =>
    rw [resolveExtends]
    cases hext : (fs.lookup "extends").bind Json.asObject with
    | none => exact h
    | some refs =>
      obtain ⟨v, hlook, hobj⟩ := Option.bind_eq_some_iff.1 hext
      obtain rfl : v = .obj refs := by
        cases v <;> simp_all [Json.asObject]
      have hshallow := hrefs fs refs rfl hlook
      -- the fields so far have 31 levels, and each embedded document too
      have hfold : ∀ (rest : List (String × Json)) (result : List (String × Json)),
          (∀ p ∈ rest, p ∈ refs) → (Json.obj result).Within 32 →
            (Json.obj (rest.foldl (fun result p => embedReference db result p.1 p.2)
              result)).Within 32 := by
        intro rest
        induction rest with
        | nil => exact fun _ _ h => h
        | cons p rest ih =>
          intro result hrest hresult
          refine ih _ (fun q hq => hrest q (List.mem_cons_of_mem _ hq)) ?_
          dsimp only
          rw [embedReference_eq]
          cases href : db.referenced p.2 with
          | none => exact hresult
          | some v => exact hresult.set (hshallow p (hrest p List.mem_cons_self) v href)
      refine hfold refs _ (fun _ hp => hp) (Json.within_obj.2 fun p hp => ?_)
      exact Json.within_obj.1 h p (List.mem_of_mem_filter hp)
  | _ => exact h

/-- The documents of an accepted set have two levels less than its payload. -/
theorem within_setDocs {payload doc : Json} (h : payload.Within 32) (hdoc : doc ∈ setDocs payload) :
    doc.Within 30 := by
  have hfield : ∀ data, payload.field .data = some data → data.Within 31 := by
    intro data hdata
    cases payload with
    | obj fs => exact (Json.within_obj.1 h _ (Fields.mem_of_lookup hdata)).2
    | _ => cases hdata
  unfold setDocs at hdoc
  split at hdoc
  · rename_i data hdata
    obtain ⟨p, hp, rfl⟩ := List.mem_map.1 hdoc
    exact (Json.within_obj.1 (hfield _ hdata) p hp).2
  · rename_i data hdata
    exact (Json.within_arr.1 (hfield _ hdata) doc hdoc).2
  · cases hdoc

/-! ## Runs -/

namespace ClientRequest

variable [Crates]

/-- The lengths in stored values fit their headers, and no document of a set embeds one that is
    nested in more than 31 levels. -/
def Shallow (db : Db) (r : ClientRequest) : Prop :=
  r.Fitting db ∧ ∀ payload, r = .set payload → ∀ doc ∈ setDocs payload, EmbedsShallow db doc

variable [Lowercase] [FloatText] {maxBodySize maxKeysPerRequest : ℕ} {db : Db}

theorem within_next {r : ClientRequest} (h : db.AllDocs fun v => v.Fits ∧ v.Within 32)
    (hr : r.Shallow db) :
    (next maxBodySize maxKeysPerRequest db r).AllDocs fun v => v.Fits ∧ v.Within 32 := by
  obtain ⟨hfitting, hshallow⟩ := hr
  refine allDocs_next _ _ (fun v hv => ⟨hv.1, hv.1.canon, hv.2.canon⟩) h r ?_ ?_ ?_
  · rintro payload rfl hok doc hdoc -
    obtain ⟨hfits, hlen⟩ := hfitting doc hdoc
    have hdoc30 := within_setDocs (requestAccepted_of_ok hok).depth hdoc
    have hwithin : (resolveExtends db doc).Within 32 :=
      within_resolveExtends (hdoc30.mono (by omega)) (hshallow payload rfl doc hdoc)
    exact ⟨fun _ => ⟨hfits, hwithin⟩, fun ver created now seq =>
      ⟨fits_stampWith hfits hlen ver created now seq, within_stampWith hwithin ver created now seq⟩⟩
  · rintro payload rfl hok data hdata
    obtain ⟨hnodup, hfit⟩ := hfitting data hdata
    refine ⟨hnodup, fun p hp docObj updateObj hdoc hold hupdates now => ?_⟩
    have hmem : p.2 ∈ setDocs payload := by
      rw [setDocs, hdata]
      exact List.mem_map_of_mem hp
    have hupdate := within_setDocs (requestAccepted_of_ok hok).depth hmem
    rw [hupdates] at hupdate
    exact ⟨hfit p hp docObj updateObj hdoc hupdates now,
      within_merged hold.2 (hupdate.mono (by omega)) now⟩
  · rintro rfl
    exact hfitting

end ClientRequest

section

variable [Crates] [Lowercase] [FloatText] {maxBodySize maxKeysPerRequest : ℕ}

/-- **Stored documents stay within the limit**, in every state that any requests lead to, if no
    set embeds a document that is nested in 32 levels. -/
theorem documents_within_limit {db : Db} {rs : List ClientRequest} (hdb : db.NoDocs)
    (hrun : Runs.Along (ClientRequest.next maxBodySize maxKeysPerRequest) ClientRequest.Shallow
      db rs) {c k : String} {b : Bytes}
    (hb : (Runs.after (ClientRequest.next maxBodySize maxKeysPerRequest) db rs).bytes c k =
      some b) : ∃ v, msgpackToValue b = some v ∧ v.Within 32 := by
  have hall := hrun.keeps (I := Db.AllDocs fun v => v.Fits ∧ v.Within 32)
    (fun _ _ h hr => ClientRequest.within_next h hr) (hdb.allDocs _)
  obtain ⟨v, rfl, hfits, hwithin⟩ := hall.bytes c k b hb
  exact ⟨v.canon, msgpackToValue_valueToMsgpack hfits, hwithin.canon⟩

end

/-! ## A chain of embedded documents -/

section

/-- A value nested in `n` arrays. -/
def nested : ℕ → Json
  | 0 => .null
  | n + 1 => .arr [nested n]

/-- The request to store a document that embeds another one. -/
def embedRequest (key reference : String) : ClientRequest :=
  .set (oneDocPayload key (.obj [("extends", .obj [("x", .str reference)])]))

/-- A document as deep as a request may have one, embedded three times over. -/
def embedChain : List ClientRequest :=
  [.set (oneDocPayload "a" (.obj [("x", nested 29)])), embedRequest "b" "c.a",
    embedRequest "d" "c.b", embedRequest "e" "c.d"]

/-- A document, and another one that embeds it. -/
def embedOnce : List ClientRequest :=
  [.set (oneDocPayload "a" (.obj [("x", .null)])), embedRequest "b" "c.a"]

theorem documents_within_limit_once :
    letI := Crates.plain
    letI := Lowercase.ascii
    letI := FloatText.plain
    ∃ b v, (Runs.after (ClientRequest.next 1000 10) (Db.blank (World.plain 1000 []) 0)
      embedOnce).bytes "c" "b" = some b ∧ msgpackToValue b = some v ∧ v.Within 32 := by
  let _ := Crates.plain
  let _ := Lowercase.ascii
  let _ := FloatText.plain
  have hempty : (Db.blank (World.plain 1000 []) 0).NoDocs :=
    ⟨fun c k => by simp [Db.blank, Db.bytes], by simp [Db.blank]⟩
  have hrun : Runs.Along (ClientRequest.next 1000 10) ClientRequest.Shallow
      (Db.blank (World.plain 1000 []) 0) embedOnce := by
    refine ⟨⟨fun doc hdoc => ?_, ?_⟩, ⟨fun doc hdoc => ?_, ?_⟩, trivial⟩
    · rw [List.mem_singleton.1 hdoc]
      refine ⟨by decide +kernel, ?_⟩
      rintro fs hfs
      rw [← Json.obj.inj hfs]
      decide +kernel
    · rintro payload hp doc hdoc fs refs hobj hlook
      obtain rfl := ClientRequest.set.inj hp
      obtain rfl := List.mem_singleton.1 hdoc
      rw [← Json.obj.inj hobj] at hlook
      cases hlook
    · rw [List.mem_singleton.1 hdoc]
      refine ⟨by decide +kernel, ?_⟩
      rintro fs hfs
      rw [← Json.obj.inj hfs]
      decide +kernel
    · rintro payload hp doc hdoc fs refs hobj hlook p hpmem v hv
      obtain rfl := ClientRequest.set.inj hp
      obtain rfl := List.mem_singleton.1 hdoc
      rw [← Json.obj.inj hobj] at hlook
      obtain rfl := Json.obj.inj (Option.some.inj hlook)
      obtain rfl := List.mem_singleton.1 hpmem
      have hall : ((ClientRequest.next 1000 10 (Db.blank (World.plain 1000 []) 0)
          (.set (oneDocPayload "a" (.obj [("x", .null)])))).referenced (.str "c.a")).all
            (fun v => decide (v.Within 31)) = true := by decide +kernel
      exact of_decide_eq_true ((Option.all_eq_true _ _).1 hall v hv)
  have hsome : ((Runs.after (ClientRequest.next 1000 10) (Db.blank (World.plain 1000 []) 0)
      embedOnce).bytes "c" "b").isSome = true := by decide +kernel
  obtain ⟨b, hb⟩ := Option.isSome_iff_exists.1 hsome
  obtain ⟨v, hv⟩ := documents_within_limit hempty hrun hb
  exact ⟨b, v, hb, hv⟩

/-- Four accepted sets store a document that is nested in 33 levels. -/
theorem embedChain_too_deep :
    letI := Crates.plain
    letI := Lowercase.ascii
    letI := FloatText.plain
    Runs.Along (ClientRequest.next 1000 10) (fun db r => ∃ payload, r = .set payload ∧
        ((processSet payload 1000 10 db).1.toOption.map Prod.fst) = some 200)
      (Db.blank (World.plain 1000 []) 0) embedChain ∧
    ∃ b v, (Runs.after (ClientRequest.next 1000 10) (Db.blank (World.plain 1000 []) 0)
      embedChain).bytes "c" "e" = some b ∧ msgpackToValue b = some v ∧ ¬ v.Within 32 := by
  let _ := Crates.plain
  let _ := Lowercase.ascii
  let _ := FloatText.plain
  refine ⟨⟨⟨_, rfl, by decide +kernel⟩, ⟨_, rfl, by decide +kernel⟩, ⟨_, rfl, by decide +kernel⟩,
    ⟨_, rfl, by decide +kernel⟩, trivial⟩, ?_⟩
  have hdeep : (((Runs.after (ClientRequest.next 1000 10) (Db.blank (World.plain 1000 []) 0)
      embedChain).bytes "c" "e").bind msgpackToValue).map (fun v => decide (v.Within 32)) =
        some false := by decide +kernel
  obtain ⟨v, hv, hnot⟩ := Option.map_eq_some_iff.1 hdeep
  obtain ⟨b, hb, hdec⟩ := Option.bind_eq_some_iff.1 hv
  exact ⟨b, v, hb, hdec, of_decide_eq_false hnot⟩

end

end MoltenDB
