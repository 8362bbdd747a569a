/-
  The expiry of a fresh insert.

  The expiry is the time of the insert and the TTL in milliseconds, in 64-bit arithmetic.
  It lies ahead exactly if the wrapped product is not zero and the sum does not wrap
  (`fresh_insert_live_iff`).
-/
import MoltenDB.Engine.Clock
import MoltenDB.Engine.Settings
import MoltenDB.Handlers.Rules
import MoltenDB.Proof.ExpiredReads

namespace MoltenDB

open Wire Prog Prog.Eff

/-- The TTL in milliseconds, as a `u64`. -/
def ttlMillis (secs : UInt64) : ℕ := secs.toNat * 1000 % 2 ^ 64

/-- A sum of `u64`s is above its first summand if the second one counts and nothing wraps. -/
theorem lt_add_ttl_iff {now secs : UInt64} :
    now < now + secs * 1000 ↔ 0 < ttlMillis secs ∧ now.toNat + ttlMillis secs < 2 ^ 64 := by
  have hnow := now.toNat_lt
  have hmillis : ttlMillis secs < 2 ^ 64 := Nat.mod_lt _ (by norm_num)
  rw [UInt64.lt_iff_toNat_lt, UInt64.toNat_add, UInt64.toNat_mul]
  change now.toNat < (now.toNat + ttlMillis secs) % 2 ^ 64 ↔ _
  rcases Nat.lt_or_ge (now.toNat + ttlMillis secs) (2 ^ 64) with hlt | hge
  · rw [Nat.mod_eq_of_lt hlt]
    omega
  · rw [Nat.mod_eq_sub_mod hge, Nat.mod_eq_of_lt (by omega)]
    omega

variable {db : Db} {c : String} {secs : UInt64}

/-- The expiry is reset from the reading of the clock that it draws. -/
theorem wp_resetExpiry_at (hsecs : db.ttlDefaults[c]? = some secs) :
    wp (Db.resetExpiry c)
      (fun _ db' => ∃ now ∈ db.readings, db'.ttlExpiry[c]? = some (now + secs * 1000))
      (fun _ _ => True) db := by
  simp only [Db.resetExpiry, wp_bind, wp_get, hsecs, wp_modify, wp_outcome, wp_send]
  change wp (writeNew _ _ _ _) _ _ { db with tick := db.tick + 1, ttlExpiry := _ }
  have hnow : db.world.clock db.tick ∈ db.readings := ⟨db.tick, le_rfl, rfl⟩
  refine wp_writeNew (fun t n => ⟨_, hnow, ?_⟩) fun err n => ⟨_, hnow, ?_⟩
  · rw [Map.get?_insert, if_pos rfl]
  · rw [Map.get?_insert, if_pos rfl]

/-- The collection of a query is answered as expired only if it has expired. -/
theorem parseGetParams_expired {now : UInt64} {payload : Json}
    (h : parseGetParams db now payload = .error GetError.collectionExpired.intoResponse) :
    db.expiredAt now ((namedCollection payload).getD "default") = true := by
  unfold parseGetParams at h
  dsimp only at h
  split_ifs at h with hcount hexp
  · have hstatus := congrArg Prod.fst (Except.error.inj h)
    exact absurd hstatus (show 400 ≠ 404 by decide)
  · exact hexp

/-- No query for the collection is answered as expired, at this reading of the clock. -/
def Db.Readable (db : Db) (now : UInt64) (c : String) : Prop :=
  ∀ payload, (namedCollection payload).getD "default" = c →
    parseGetParams db now payload ≠ .error GetError.collectionExpired.intoResponse

theorem Db.readable_of_lt {now exp : UInt64} (hexp : db.ttlExpiry[c]? = some exp) (h : now < exp) :
    db.Readable now c := by
  rintro payload rfl herr
  have hexpired := parseGetParams_expired herr
  rw [Db.expiredAt, hexp, Option.any_some, collectionIsExpired, decide_eq_true_eq] at hexpired
  exact absurd h (UInt64.not_lt.2 hexpired)

variable [Crates]

theorem wp_insert_expiry (hsecs : db.ttlDefaults[c]? = some secs) (items : List (String × Json)) :
    wp (Db.insert c items)
      (fun _ db' => ∃ now ∈ db.readings, db'.ttlExpiry[c]? = some (now + secs * 1000))
      (fun _ _ => True) db := by
  -- what comes before the reset keeps the TTL, and time goes on
  have hkeep : ∀ {m : Op Unit} {db₁ : Db}, Steps Db.SameSettings m → Steps Db.GoesOn m →
      db.SameSettings db₁ ∧ db.GoesOn db₁ →
        wp m (fun _ db₂ => db.SameSettings db₂ ∧ db.GoesOn db₂) (fun _ _ => True) db₁ := by
    intro m db₁ hsettings hgoes h₁
    refine wp_mono (wp_and (wp_settings hsettings db₁) (wp_goesOn hgoes db₁)) (fun _ db₂ h₂ => ?_)
      fun _ _ _ => trivial
    exact ⟨h₁.1.trans h₂.1, h₁.2.trans h₂.2⟩
  simp only [Db.insert, wp_bind]
  refine wp_mono (hkeep settings_checkFault goesOn_checkFault ⟨.refl db, .refl db⟩)
    (fun _ db₁ h₁ => ?_) fun _ _ h => h
  refine wp_mono (hkeep Db.settings_evictExpired Db.goesOn_evictExpired h₁)
    (fun _ db₂ h₂ => ?_) fun _ _ h => h
  refine wp_mono (hkeep (withinDocs_insert items).within.settings (Operations.goesOn_insert items)
    h₂) (fun _ db₃ h₃ => ?_) fun _ _ h => h
  refine wp_mono (hkeep Db.settings_evictOverflow Db.goesOn_evictOverflow h₃)
    (fun _ db₄ h₄ => ?_) fun _ _ h => h
  obtain ⟨hsame, hgoes⟩ := h₄
  refine wp_mono (wp_resetExpiry_at (hsame.ttlDefaults ▸ hsecs)) (fun _ db₅ h₅ => ?_)
    fun _ _ h => h
  obtain ⟨now, hnow, hexp⟩ := h₅
  exact ⟨now, hgoes.readings hnow, hexp⟩

/-- **A fresh insert is not born expired** exactly if its TTL in milliseconds does not wrap to
    zero, and does not make the sum with the clock wrap. -/
theorem fresh_insert_live_iff {items : List (String × Json)} {db' : Db}
    (hsecs : db.ttlDefaults[c]? = some secs) (hok : Db.insert c items db = (.ok (), db')) :
    ∃ now ∈ db.readings, ∃ exp, db'.ttlExpiry[c]? = some exp ∧ exp = now + secs * 1000 ∧
      (now < exp ∧ db'.Readable now c ↔
        0 < ttlMillis secs ∧ now.toNat + ttlMillis secs < 2 ^ 64) := by
  obtain ⟨now, hnow, hexp⟩ := wp_of_ok (wp_insert_expiry hsecs items) hok
  refine ⟨now, hnow, _, hexp, rfl, ?_⟩
  rw [← lt_add_ttl_iff]
  exact ⟨fun h => h.1, fun h => ⟨h, Db.readable_of_lt hexp h⟩⟩

/-! ## A long TTL -/

section

/-- A database whose clock stands still. -/
def stillDb : Db := Db.blank { World.plain 1000 [] with clock := fun _ => 1000 } 0

/-- A set with a TTL. -/
def ttlPayload (secs : UInt64) : Json :=
  .obj [("collection", .str "c"), ("data", .obj [("k", .obj [])]), ("ttl", .ofU64 secs)]

omit [Crates] in
/-- A TTL of `2 ^ 61` seconds is zero milliseconds: what is set is expired at once. -/
theorem ttlPayload_born_expired :
    letI := Crates.plain
    letI := Lowercase.ascii
    letI := FloatText.plain
    let run := processSet (ttlPayload 2305843009213693952) 1000 10 stillDb
    run.1.toOption.map Prod.fst = some 200 ∧ run.2.ttlExpiry["c"]? = some 1000 ∧
      (processGet (.obj [("collection", .str "c")]) 1000 10 run.2).1 =
        .ok GetError.collectionExpired.intoResponse := by
  decide +kernel

/-- A database with a TTL of one minute. -/
def minuteDb : Db := { stillDb with ttlDefaults := (∅ : DashMap UInt64).insert "c" 60 }

omit [Crates] in
theorem fresh_insert_live_iff_minute :
    letI := Crates.plain
    let run := Db.insert "c" [("k", .obj [])] minuteDb
    ∃ now exp, run.2.ttlExpiry["c"]? = some exp ∧ now < exp ∧ run.2.Readable now "c" := by
  let _ := Crates.plain
  have hsecs : minuteDb.ttlDefaults["c"]? = some 60 := by decide +kernel
  generalize hrun : Db.insert "c" [("k", .obj [])] minuteDb = run
  obtain ⟨r, db'⟩ := run
  have hok : (Db.insert "c" [("k", .obj [])] minuteDb).1 = .ok () := by decide +kernel
  rw [hrun] at hok
  obtain rfl : r = .ok () := hok
  obtain ⟨now, ⟨i, -, hnow⟩, exp, hexp, -, hlive⟩ := fresh_insert_live_iff hsecs hrun
  have hfits : 0 < ttlMillis 60 ∧ now.toNat + ttlMillis 60 < 2 ^ 64 := by
    rw [hnow, show minuteDb.world.clock i = 1000 from rfl]
    decide
  exact ⟨now, exp, hexp, hlive.2 hfits⟩

end

end MoltenDB
