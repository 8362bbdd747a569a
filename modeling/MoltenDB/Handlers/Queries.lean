/-
  Queries change nothing: they only draw answers of the world.
-/
import MoltenDB.Engine.Steps
import MoltenDB.Handlers.Get

namespace MoltenDB

open Wire Prog Prog.Eff

/-- Answers of the world were drawn, and nothing else happened. -/
def Db.Drew (db db' : Db) : Prop := ∃ n, db' = { db with tick := n }

theorem drew_nowMs : Steps Db.Drew nowMs := fun _ => wp_nowMs fun _ n => .single ⟨n, rfl⟩

theorem drew_walk {α : Type} (m : DashMap α) : Steps Db.Drew (walk m) := fun _ =>
  wp_walk fun _ n _ => .single ⟨n, rfl⟩

/-- A pass over a collection, if it exists. -/
theorem drew_pass {α : Type} (collection : String)
    (result : DashMap Bytes → List (String × Bytes) → List α) :
    Steps Db.Drew (do
      let db ← Eff.get
      match db.col collection with
      | none => return []
      | some col => do
        let entries ← walk col
        return result col entries : Op (List α)) := by
  refine steps_get.bind fun db => ?_
  cases db.col collection with
  | none => exact steps_pure _
  | some col => exact (drew_walk col).bind fun _ => steps_pure _

variable [Crates]

theorem drew_getFiltered (p : Db.GetFilteredParams) : Steps Db.Drew (Db.getFiltered p) := by
  refine steps_get.bind fun db => ?_
  cases db.col p.collection with
  | none => exact steps_pure _
  | some col =>
    refine Steps.bind ?_ fun _ => steps_pure _
    unfold Db.filterCollection
    cases p.count with
    | none =>
      refine (drew_walk col).bind fun _ => ?_
      dsimp only
      split_ifs
      · exact steps_pure _
      · exact (drew_walk col).bind fun _ => steps_pure _
    | some lim =>
      dsimp only
      split_ifs
      · exact (drew_walk col).bind fun _ => steps_pure _
      · refine Steps.bind ?_ fun _ => steps_pure _
        refine steps_get.bind fun db => ?_
        cases db.seqIndex[p.collection]? with
        | some idx => exact steps_pure _
        | none => exact (drew_walk col).bind fun _ => steps_pure _

variable [Lowercase]

theorem drew_fetchDocuments (params : GetParams) : Steps Db.Drew (fetchDocuments params) := by
  have hscan : Steps Db.Drew (scanDocuments params) := by
    unfold scanDocuments
    dsimp only
    split
    · exact drew_pass _ _
    · exact drew_getFiltered _
    · exact drew_getFiltered _
    · exact drew_getFiltered _
  have hkeys : ∀ keys, Steps Db.Drew (fetchKeys params keys) := fun keys =>
    steps_get.bind fun _ => drew_walk _
  unfold fetchDocuments
  split
  · exact hkeys _
  · exact hkeys _
  · exact hscan

variable [FloatText]

theorem drew_runGeneralPath (params : GetParams) : Steps Db.Drew (runGeneralPath params) := by
  refine (drew_fetchDocuments params).bind fun raw => steps_get.bind fun db => ?_
  split
  · exact steps_pure _
  · exact steps_pure _
  · exact steps_pure _

theorem drew_runFastSortPath (params : GetParams) (specs : List Json) :
    Steps Db.Drew (runFastSortPath params specs) := by
  refine Steps.bind ?_ fun _ => steps_pure _
  unfold fastSorted
  dsimp only
  split
  · split_ifs
    · exact drew_pass _ _
    · exact drew_pass _ _
  · exact drew_pass _ _

/-- **A query changes nothing.** -/
theorem drew_processGet (payload : Json) (maxBodySize maxKeysPerRequest : ℕ) :
    Steps Db.Drew (processGet payload maxBodySize maxKeysPerRequest) := by
  unfold processGet
  cases validateGetRequest payload maxBodySize maxKeysPerRequest with
  | error e => exact steps_pure _
  | ok u =>
    refine drew_nowMs.bind fun queryTime => steps_get.bind fun db => ?_
    cases parseGetParams db queryTime payload with
    | error e => exact steps_pure _
    | ok params =>
      dsimp only
      cases params.sortSpecs with
      | none => exact drew_runGeneralPath params
      | some specs =>
        dsimp only
        split_ifs
        · exact drew_runFastSortPath params specs
        · exact drew_runGeneralPath params

end MoltenDB
