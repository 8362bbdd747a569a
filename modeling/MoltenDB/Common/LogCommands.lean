/-
  The commands of log entries: the public name, the one-byte token in the log,
  and the name in memory.
-/
import MoltenDB.Common.Msgpack

namespace MoltenDB

open Wire

namespace LogCommand

def INSERT := "INSERT"
def DELETE := "DELETE"
def DROP := "DROP"
def INDEX := "INDEX"
def SCHEMA := "SCHEMA"
def ENC := "ENC"
def TX_BEGIN := "TX_BEGIN"
def TX_COMMIT := "TX_COMMIT"

def TOKEN_INSERT : ℤ := -10
def TOKEN_DELETE : ℤ := -11
def TOKEN_DROP : ℤ := -12
def TOKEN_INDEX : ℤ := -13
def TOKEN_SCHEMA : ℤ := -14
def TOKEN_ENC : ℤ := -15
def TOKEN_TX_BEGIN : ℤ := -16
def TOKEN_TX_COMMIT : ℤ := -17

def IKEY_INSERT := "-10"
def IKEY_DELETE := "-11"
def IKEY_DROP := "-12"
def IKEY_INDEX := "-13"
def IKEY_SCHEMA := "-14"
def IKEY_ENC := "-15"
def IKEY_TX_BEGIN := "-16"
def IKEY_TX_COMMIT := "-17"

/-- The name in memory of a public command name, or `""`. -/
def toIkey (cmd : String) : String :=
  if cmd = INSERT then IKEY_INSERT
  else if cmd = DELETE then IKEY_DELETE
  else if cmd = DROP then IKEY_DROP
  else if cmd = INDEX then IKEY_INDEX
  else if cmd = SCHEMA then IKEY_SCHEMA
  else if cmd = ENC then IKEY_ENC
  else if cmd = TX_BEGIN then IKEY_TX_BEGIN
  else if cmd = TX_COMMIT then IKEY_TX_COMMIT
  else ""

/-- The public name of a command, from its name in memory. -/
def fromIkey (ikey : String) : Option String :=
  if ikey = IKEY_INSERT then some INSERT
  else if ikey = IKEY_DELETE then some DELETE
  else if ikey = IKEY_DROP then some DROP
  else if ikey = IKEY_INDEX then some INDEX
  else if ikey = IKEY_SCHEMA then some SCHEMA
  else if ikey = IKEY_ENC then some ENC
  else if ikey = IKEY_TX_BEGIN then some TX_BEGIN
  else if ikey = IKEY_TX_COMMIT then some TX_COMMIT
  else none

/-- The token written for a command, under either of its names. -/
def token (cmd : String) : Option ℤ :=
  if cmd = INSERT ∨ cmd = IKEY_INSERT then some TOKEN_INSERT
  else if cmd = DELETE ∨ cmd = IKEY_DELETE then some TOKEN_DELETE
  else if cmd = DROP ∨ cmd = IKEY_DROP then some TOKEN_DROP
  else if cmd = INDEX ∨ cmd = IKEY_INDEX then some TOKEN_INDEX
  else if cmd = SCHEMA ∨ cmd = IKEY_SCHEMA then some TOKEN_SCHEMA
  else if cmd = ENC ∨ cmd = IKEY_ENC then some TOKEN_ENC
  else if cmd = TX_BEGIN ∨ cmd = IKEY_TX_BEGIN then some TOKEN_TX_BEGIN
  else if cmd = TX_COMMIT ∨ cmd = IKEY_TX_COMMIT then some TOKEN_TX_COMMIT
  else none

/-- The command that a token is read as. -/
def ofToken (token : ℤ) : String :=
  if token = TOKEN_INSERT then IKEY_INSERT
  else if token = TOKEN_DELETE then IKEY_DELETE
  else if token = TOKEN_DROP then IKEY_DROP
  else if token = TOKEN_INDEX then IKEY_INDEX
  else if token = TOKEN_SCHEMA then IKEY_SCHEMA
  else if token = TOKEN_ENC then IKEY_ENC
  else if token = TOKEN_TX_BEGIN then IKEY_TX_BEGIN
  else if token = TOKEN_TX_COMMIT then IKEY_TX_COMMIT
  else toString token

/-- A command read as text: a name in memory becomes the public one, a public name
    becomes the one in memory, and other commands stay. -/
def normalise (cmd : String) : String :=
  match fromIkey cmd with
  | some name => name
  | none => if toIkey cmd = "" then cmd else toIkey cmd

/-- What a written command is read back as. -/
def canon (cmd : String) : String := ((token cmd).map ofToken).getD cmd

theorem token_mem {cmd : String} {t : ℤ} (h : token cmd = some t) :
    t ∈ [TOKEN_INSERT, TOKEN_DELETE, TOKEN_DROP, TOKEN_INDEX, TOKEN_SCHEMA, TOKEN_ENC,
      TOKEN_TX_BEGIN, TOKEN_TX_COMMIT] := by
  unfold token at h
  split_ifs at h <;> simp only [Option.some.injEq] at h <;> subst h <;> simp

theorem length_of_token {cmd : String} {t : ℤ} (h : token cmd = some t) :
    (utf8 cmd).length < 2 ^ 32 := by
  unfold token at h
  split_ifs at h with h1 h2 h3 h4 h5 h6 h7 h8
  · rcases h1 with rfl | rfl <;> decide
  · rcases h2 with rfl | rfl <;> decide
  · rcases h3 with rfl | rfl <;> decide
  · rcases h4 with rfl | rfl <;> decide
  · rcases h5 with rfl | rfl <;> decide
  · rcases h6 with rfl | rfl <;> decide
  · rcases h7 with rfl | rfl <;> decide
  · rcases h8 with rfl | rfl <;> decide

theorem normalise_of_token_none {cmd : String} (h : token cmd = none) : normalise cmd = cmd := by
  unfold token at h
  split_ifs at h with h1 h2 h3 h4 h5 h6 h7 h8
  simp only [not_or] at h1 h2 h3 h4 h5 h6 h7 h8
  simp [normalise, fromIkey, toIkey, h1, h2, h3, h4, h5, h6, h7, h8]

@[simp] theorem canon_canon (cmd : String) : canon (canon cmd) = canon cmd := by
  unfold canon
  cases h : token cmd with
  | none => simp [h]
  | some t =>
    have ht := token_mem h
    simp only [List.mem_cons, List.not_mem_nil, or_false] at ht
    rcases ht with rfl | rfl | rfl | rfl | rfl | rfl | rfl | rfl <;> rfl

end LogCommand

end MoltenDB
