/-
  The log entry codec: an entry is read back with its command as a token, or as it was written if it
  has none, and the system names in its value renamed.
-/
import MoltenDB.Common.LogEntry
import MoltenDB.Proof.DocumentCodec

namespace MoltenDB

open Wire LogCommand

/-- The numeric string of a known command, in either spelling; any other command as it is. -/
def numericCmd (cmd : String) : String := if toIkey cmd = "" then cmd else toIkey cmd

/-- A command is read back as its numeric string. -/
theorem canon_eq_numericCmd (cmd : String) : LogCommand.canon cmd = numericCmd cmd := by
  unfold LogCommand.canon
  cases h : token cmd with
  | none =>
    unfold token at h
    split_ifs at h with h1 h2 h3 h4 h5 h6 h7 h8
    simp only [not_or] at h1 h2 h3 h4 h5 h6 h7 h8
    simp [numericCmd, toIkey, h1, h2, h3, h4, h5, h6, h7, h8]
  | some t =>
    unfold token at h
    split_ifs at h with h1 h2 h3 h4 h5 h6 h7 h8 <;> cases h
    · rcases h1 with rfl | rfl <;> rfl
    · rcases h2 with rfl | rfl <;> rfl
    · rcases h3 with rfl | rfl <;> rfl
    · rcases h4 with rfl | rfl <;> rfl
    · rcases h5 with rfl | rfl <;> rfl
    · rcases h6 with rfl | rfl <;> rfl
    · rcases h7 with rfl | rfl <;> rfl
    · rcases h8 with rfl | rfl <;> rfl

/-- **The log entry codec round-trips.** -/
theorem log_entry_roundTrip [Crates] {e : LogEntry} (h : e.Fits) (ho : e.value.Ordered)
    (hu : e.value.Unambiguous) :
    logEntryFromMsgpack (logEntryToMsgpack e) =
      some ⟨numericCmd e.cmd, e.collection, e.key, e.value.rename, e._t⟩ := by
  rw [logEntryFromMsgpack_logEntryToMsgpack h, LogEntry.canon, canon_eq_numericCmd,
    Json.canon_eq_rename ho hu]

theorem log_entry_roundTrip_ttl :
    letI := Crates.plain
    logEntryFromMsgpack (logEntryToMsgpack ⟨"TTL_EXPIRY", "c", "k", nestedDoc, 5⟩) =
      some ⟨numericCmd "TTL_EXPIRY", "c", "k", nestedDoc.rename, 5⟩ := by
  let _ := Crates.plain
  exact log_entry_roundTrip (by decide +kernel) (by decide +kernel) (by decide +kernel)

example : ["INSERT", "-10", "TTL_EXPIRY", "-18", ""].map numericCmd =
    ["-10", "-10", "TTL_EXPIRY", "-18", ""] := by decide

/-! ## Lengths above 32 bits -/

/-- **An entry whose value is an array of `2 ^ 32` nulls is not read back**: the first of them is
    taken for the name of the next field. -/
theorem log_entry_lost :
    letI := Crates.plain
    longNulls.Ordered ∧ longNulls.Unambiguous ∧
      logEntryFromMsgpack (logEntryToMsgpack ⟨"INSERT", "c", "k", longNulls, 0⟩) = none := by
  let _ := Crates.plain
  refine ⟨every_longNulls rfl rfl, every_longNulls rfl rfl, ?_⟩
  obtain ⟨rest, hlong⟩ := writeValue_longNulls
  rw [logEntryFromMsgpack]
  simp only [logEntryToMsgpack, List.append_assoc, hlong]
  rw [readMapHeader_writeMapHeader (by decide), Option.bind_eq_bind, Option.bind_some,
    readEntryFields_cmd _ _ _ (by decide), readEntryFields_collection _ _ _ (by decide),
    readEntryFields_key _ _ _ (by decide), readEntryFields, readString_writeStr (by decide),
    Option.bind_eq_bind, Option.bind_some]
  have hvalue : ∀ rest : Bytes, readValue ([0xdd, 0, 0, 0, 0] ++ rest).length
      ([0xdd, 0, 0, 0, 0] ++ rest) = some (.arr [], rest) := fun _ => rfl
  dsimp only
  rw [if_neg (by decide), if_neg (by decide), if_neg (by decide), if_pos rfl, hvalue,
    Option.bind_eq_bind, Option.bind_some]
  rfl

end MoltenDB
