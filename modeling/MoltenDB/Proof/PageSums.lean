/-
  The sums of offset and count.

  The offset of a query is any 64-bit number, and the count that is added to it is at most
  1000.  The sums of a query fit a 64-bit `usize` exactly if `offset + count` does wherever it
  is made, and one more on the sorted path over a collection that exists (`page_sums_iff`).
-/
import MoltenDB.Handlers.Sums
import MoltenDB.Proof.Builds

namespace MoltenDB

open Wire Prog Prog.Eff Prog.Noted

/-- The sum fits a 64-bit `usize`. -/
def SumFits (s : ℕ × ℕ) : Prop := s.1 + s.2 < 2 ^ 64

namespace GetParams

/-- The query takes the path of sorted scans. -/
def fastPath (p : GetParams) : Bool :=
  p.sortSpecs.isSome && p.keys.isNone && !p.hasJoins && !p.hasPrefix

/-- The query asks for one key. -/
def singleKey (p : GetParams) : Bool :=
  match p.keys with
  | some (.str _) => true
  | _ => false

/-- The query scans the collection up to its last document of the page. -/
def unsortedScan (p : GetParams) : Bool :=
  p.sortSpecs.isNone && match p.keys with
    | some (.str _) | some (.arr _) => false
    | _ => true

variable [Crates] [Lowercase]

/-- Documents are left for the response. -/
def Returns (p : GetParams) (db : Db) : Prop :=
  wp (fetchDocuments p) (fun raw db' => ∃ d results, filterAndJoinDocs db' p raw = .ok (d :: results))
    (fun _ _ => False) db

/-- The sums that the query reaches fit. -/
def SumsFit (p : GetParams) (db : Db) : Prop :=
  if p.fastPath then
    p.offset + p.countLimit < 2 ^ 64 ∧
      ((db.col p.colName).isSome → p.offset + p.countLimit + 1 < 2 ^ 64)
  else
    p.unsortedScan = true ∨ p.singleKey = false ∧ p.Returns db →
      p.offset + p.countLimit < 2 ^ 64

end GetParams

namespace Sums

variable {db : Db} {params : GetParams}

theorem sumFits_zero_left (a b : ℕ) : SumFits (0, usizeAdd a b) := by
  have hlt : usizeAdd a b < 2 ^ 64 := Nat.mod_lt _ (by norm_num)
  simpa [SumFits] using hlt

@[simp] theorem all_sum {P : ℕ × ℕ → Prop} (a b : ℕ) : All P (sum a b) db ↔ P (a, b) := by
  simp [sum]

/-- The slack of a heap fits exactly if the sum has one more to spare. -/
theorem sumFits_slack {a b : ℕ} (h : SumFits (a, b)) :
    SumFits (usizeAdd a b, 1) ↔ a + b + 1 < 2 ^ 64 := by
  rw [SumFits, usizeAdd, Nat.mod_eq_of_lt h]

variable [Crates]

theorem all_scanTopNRawCoalesced {c : String} {predicate : Predicate} {field : String}
    {descending : Bool} {cap : ℕ} {P : ℕ × ℕ → Prop} :
    All P (scanTopNRawCoalesced c predicate field descending cap) db ↔
      ((db.col c).isSome → P (cap, 1)) := by
  simp only [scanTopNRawCoalesced, all_bind, all_lift, true_and, forget_lift, wp_get, all_note,
    forget_note, wp_pure, and_true]
  split_ifs with h <;> simp [h]

omit [Crates] in
theorem all_scanTopN {c : String} {predicate : Predicate} {cmp : Json → Json → Ordering} {cap : ℕ}
    {P : ℕ × ℕ → Prop} :
    All P (scanTopN c predicate cmp cap) db ↔ (cap ≠ 0 → (db.col c).isSome → P (cap, 1)) := by
  simp only [scanTopN, all_bind, all_lift, true_and, forget_lift, wp_get, all_note,
    forget_note, wp_pure, and_true, ← and_imp]
  split_ifs with h <;> simp [h]

/-- The limit of a scan is added to nothing. -/
theorem all_getFiltered {p : Db.GetFilteredParams} {P : ℕ × ℕ → Prop} :
    All P (getFiltered p) db ↔
      ((db.col p.collection).isSome → ∀ lim, p.count = some lim → P (p.offset, lim)) := by
  simp only [getFiltered, all_bind, all_lift, true_and, forget_lift, wp_get, all_note,
    forget_note, wp_pure, and_true]
  split_ifs with h <;> simp [h]

variable [Lowercase]

/-- A scan without keys makes the sum if there is no order; the limit of the scan is then the
    wrapped sum, to which nothing is added. -/
theorem all_scanDocuments :
    All SumFits (scanDocuments params) db ↔
      (params.sortSpecs = none → SumFits (params.offset, params.countLimit)) := by
  unfold scanDocuments
  cases params.sortSpecs with
  | some specs =>
    cases params.hasJoins <;> cases params.whereClause <;> cases params.hasPrefix <;>
      simp [all_getFiltered]
  | none =>
    have hlim : ∀ a b, SumFits (0, usizeAdd a b) := sumFits_zero_left
    cases params.hasJoins <;> cases params.whereClause <;> cases params.hasPrefix <;>
      simp [all_getFiltered, hlim]

theorem all_fetchDocuments :
    All SumFits (fetchDocuments params) db ↔
      (params.unsortedScan = true → SumFits (params.offset, params.countLimit)) := by
  have hscan : All SumFits (scanDocuments params) db ↔ _ := all_scanDocuments
  unfold fetchDocuments GetParams.unsortedScan
  rcases params.keys with _ | _ | _ | _ | _ | _ | _ <;> simp [hscan]

variable [FloatText]

omit [Crates] [Lowercase] in
theorem all_shapeAndReturn {d : Found} {results : List Found} {P : ℕ × ℕ → Prop} :
    All P (shapeAndReturn params (d :: results)) db ↔
      (params.singleKey = false → P (params.offset, params.countLimit)) := by
  unfold shapeAndReturn GetParams.singleKey
  rcases params.keys with _ | _ | _ | _ | _ | _ | _ <;> simp

/-- A sorted scan makes the sum, and the slack of its heap if the collection exists. -/
theorem all_fastSorted {specs : List Json} :
    All SumFits (fastSorted params specs) db ↔
      params.offset + params.countLimit < 2 ^ 64 ∧
        ((db.col params.colName).isSome → params.offset + params.countLimit + 1 < 2 ^ 64) := by
  rw [fastSorted, all_bind, all_sum]
  refine and_congr_right fun hfits => ?_
  have hslack := sumFits_slack hfits
  have hraw : ((db.col params.colName).isSome →
      SumFits (usizeAdd params.offset params.countLimit, 1)) ↔
        ((db.col params.colName).isSome → params.offset + params.countLimit + 1 < 2 ^ 64) :=
    imp_congr_right fun _ => hslack
  have hgeneral : (usizeAdd params.offset params.countLimit ≠ 0 → (db.col params.colName).isSome →
      SumFits (usizeAdd params.offset params.countLimit, 1)) ↔
        ((db.col params.colName).isSome → params.offset + params.countLimit + 1 < 2 ^ 64) := by
    rw [← hraw]
    refine ⟨fun h hcol => ?_, fun h _ => h⟩
    by_cases hzero : usizeAdd params.offset params.countLimit = 0
    · rw [hzero, SumFits]
      norm_num
    · exact h hzero hcol
  rw [forget_sum, wp_pure]
  split
  · dsimp only
    split_ifs
    · exact all_scanTopN.trans hgeneral
    · exact all_scanTopNRawCoalesced.trans hraw
  · exact all_scanTopN.trans hgeneral

/-- The general path makes the sum where it scans without an order, and where it has documents
    to truncate. -/
theorem all_runGeneralPath :
    All SumFits (runGeneralPath params) db ↔
      (params.unsortedScan = true ∨ params.singleKey = false ∧ params.Returns db →
        params.offset + params.countLimit < 2 ^ 64) := by
  rw [runGeneralPath, all_bind, all_fetchDocuments, forget_fetchDocuments, or_imp]
  refine and_congr_right fun _ => ?_
  rw [and_imp, GetParams.Returns]
  unfold wp
  rcases MoltenDB.fetchDocuments params db with ⟨e | raw, db'⟩
  · simp
  · simp only [all_bind, all_lift, true_and, forget_lift, wp_get]
    rcases filterAndJoinDocs db' params raw with e | _ | ⟨d, results⟩
    · simp
    · simp
    · rw [all_shapeAndReturn]
      simp [SumFits]

theorem all_runFastSortPath {specs : List Json} {P : ℕ × ℕ → Prop} :
    All P (runFastSortPath params specs) db ↔ All P (fastSorted params specs) db := by
  rw [runFastSortPath, all_bind]
  refine and_iff_left ?_
  exact wp_intro (fun _ _ _ => (all_pure _).2 trivial) fun _ _ _ => trivial

end Sums

section

variable [Crates] [Lowercase] [FloatText] {db : Db} {payload : Json} {params : GetParams}
  {maxBodySize maxKeysPerRequest : ℕ}

/-- **The sums of a query fit** exactly where offset and count leave room for them.  The sums
    are those of the handler, and the clock has been read once when they are made. -/
theorem page_sums_iff
    (hvalid : validateGetRequest payload maxBodySize maxKeysPerRequest = .ok ())
    (hparse : parseGetParams { db with tick := db.tick + 1 } (db.world.clock db.tick) payload =
      .ok params) :
    (Sums.processGet payload maxBodySize maxKeysPerRequest).forget =
        processGet payload maxBodySize maxKeysPerRequest ∧
      ((∀ s ∈ (Sums.processGet payload maxBodySize maxKeysPerRequest).notes db,
          s.1 + s.2 < 2 ^ 64) ↔
        params.SumsFit { db with tick := db.tick + 1 }) := by
  refine ⟨Sums.forget_processGet payload maxBodySize maxKeysPerRequest, ?_⟩
  change All SumFits (Sums.processGet payload maxBodySize maxKeysPerRequest) db ↔ _
  obtain ⟨hkeys, -, -, -⟩ := parseGetParams_fits hparse
  rw [Sums.processGet, hvalid]
  simp only [all_bind, all_lift, true_and, forget_lift, wp_get]
  unfold wp nowMs
  simp only [hparse]
  rw [GetParams.SumsFit, GetParams.fastPath, ← hkeys]
  cases hsort : params.sortSpecs with
  | none => simpa using Sums.all_runGeneralPath
  | some specs =>
    rw [Option.isSome_some, Bool.true_and]
    split_ifs
    · exact Sums.all_runFastSortPath.trans Sums.all_fastSorted
    · exact Sums.all_runGeneralPath

end

/-! ## A large offset -/

section

/-- A query for a page beyond all documents. -/
def farPage (offset : UInt64) : Json :=
  .obj [("collection", .str "c"), ("offset", .ofU64 offset)]

/-- The offset of a page that `parse_get_params` accepts is added to the count, and wraps. -/
theorem farPage_wraps :
    letI := Crates.plain
    letI := Lowercase.ascii
    letI := FloatText.plain
    let payload := farPage (UInt64.ofNat (2 ^ 64 - 1))
    let db := Db.blank (World.plain 0 []) 0
    validateGetRequest payload 1000 10 = .ok () ∧
      (parseGetParams { db with tick := 1 } (db.world.clock 0) payload).toOption.isSome ∧
      ∃ s ∈ (Sums.processGet payload 1000 10).notes db, ¬ s.1 + s.2 < 2 ^ 64 := by
  let _ := Crates.plain
  let _ := Lowercase.ascii
  let _ := FloatText.plain
  refine ⟨by decide +kernel, by decide +kernel, (2 ^ 64 - 1, 100), ?_, by norm_num⟩
  have hnotes : (Sums.processGet (farPage (UInt64.ofNat (2 ^ 64 - 1))) 1000 10).notes
      (Db.blank (World.plain 0 []) 0) = [(2 ^ 64 - 1, 100)] := by decide +kernel
  rw [hnotes]
  exact List.mem_singleton.2 rfl

theorem page_sums_iff_second :
    letI := Crates.plain
    letI := Lowercase.ascii
    letI := FloatText.plain
    let notes := (Sums.processGet (farPage 100) 1000 10).notes (Db.blank (World.plain 0 []) 0)
    notes = [(100, 100)] ∧ ∀ s ∈ notes, s.1 + s.2 < 2 ^ 64 := by
  let _ := Crates.plain
  let _ := Lowercase.ascii
  let _ := FloatText.plain
  have hparse : parseGetParams { Db.blank (World.plain 0 []) 0 with tick := 1 } 0 (farPage 100) =
      .ok ⟨"c", none, none, none, 100, 100, none, none, none, none, none, false⟩ := rfl
  refine ⟨by decide +kernel, (page_sums_iff (by decide +kernel) hparse).2.2 ?_⟩
  intro _
  norm_num

end

end MoltenDB
