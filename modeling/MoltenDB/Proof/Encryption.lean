/-
  What the encrypting storage hands to the storage behind it: ciphertexts, as long as it
  does not compact.
-/
import MoltenDB.Engine.Storage.Encrypted
import MoltenDB.Lib.Hex

namespace MoltenDB

open Wire LogCommand

namespace EncryptedStorage

/-- Two runs in which the cipher returned the same, call by call. -/
def SameOutputs (cipher cipher' : Cipher) (calls calls' : List (Draw × EncryptedStorage.Call)) :
    Prop :=
  calls.map (fun p => (p.1, output cipher p.1 p.2)) =
    calls'.map fun p => (p.1, output cipher' p.1 p.2)

/-- Whatever is encrypted in place of it, what the run hands on is the same. -/
def Covered [Base64] (cipher : Cipher) (calls : List (Draw × EncryptedStorage.Call)) : Prop :=
  ∀ cipher' calls', SameOutputs cipher cipher' calls calls' →
    handed cipher calls = handed cipher' calls'

/-- What is handed on for an entry is made of what the cipher returned. -/
theorem hand_eq_of_output [Base64] {cipher cipher' : Cipher} {draw : Draw}
    {call call' : EncryptedStorage.Call}
    (h : output cipher draw call = output cipher' draw call') (hcall : ¬ call.IsCompaction) :
    hand cipher draw call = hand cipher' draw call' := by
  cases call with
  | compactFromMaps state schemas => exact absurd trivial hcall
  | writeEntry entry =>
    cases call' with
    | compactFromMaps state schemas => cases h
    | writeEntry entry' =>
      have henc : cipher.encrypt draw.nonce (logEntryToMsgpack entry) =
          cipher'.encrypt draw.nonce (logEntryToMsgpack entry') := Option.some.inj h
      rw [hand, hand, encryptEntry, encryptEntry, henc]

/-- **One call and a run**: without compactions the run is covered. -/
theorem covered_of_no_compaction [Base64] {cipher : Cipher}
    {calls : List (Draw × EncryptedStorage.Call)}
    (h : ∀ p ∈ calls, ¬ p.2.IsCompaction) : Covered cipher calls := by
  intro cipher' calls' hsame
  induction calls generalizing calls' with
  | nil =>
    obtain rfl : calls' = [] := by simpa [SameOutputs] using hsame.symm
    rfl
  | cons p calls ih =>
    cases calls' with
    | nil => cases hsame
    | cons p' calls' =>
      obtain ⟨draw, call⟩ := p
      obtain ⟨draw', call'⟩ := p'
      obtain ⟨hhead, htail⟩ := List.cons.inj hsame
      obtain ⟨rfl, hout⟩ := Prod.mk.inj hhead
      have hone := hand_eq_of_output hout (h _ List.mem_cons_self)
      have hrest := ih (fun p hp => h p (List.mem_cons_of_mem _ hp)) calls' htail
      simp only [handed, List.filterMap_cons] at hrest ⊢
      rw [hone, hrest]

theorem length_snapshotEntries (draw : Draw) (schemas : DashMap Schema) :
    (snapshotEntries draw ∅ schemas).length = schemas.size := by
  have hcols : (∅ : State).inOrder (draw.collections.order (∅ : State).keys) = [] := by
    rw [List.eq_nil_iff_forall_not_mem]
    rintro ⟨c, col⟩ hmem
    simpa using (Map.mem_inOrder.1 hmem).2
  rw [snapshotEntries, hcols, List.flatMap_nil, List.nil_append, List.length_map,
    Map.length_inOrder (draw.schemas.perm _)]

/-- Whatever a snapshot has, other maps have another one. -/
theorem exists_snapshotEntries_ne (draw : Draw) (es : List LogEntry) :
    ∃ schemas, snapshotEntries draw ∅ schemas ≠ es := by
  by_cases hes : es = []
  · refine ⟨(∅ : DashMap Schema).insert "c" ⟨.null, fun _ => true⟩, fun heq => ?_⟩
    have hlen := length_snapshotEntries draw ((∅ : DashMap Schema).insert "c" ⟨.null, fun _ => true⟩)
    rw [heq, hes, Std.ExtTreeMap.size_insert] at hlen
    simp at hlen
  · refine ⟨∅, fun heq => hes ?_⟩
    rw [← heq, ← List.length_eq_zero_iff, length_snapshotEntries]
    exact Std.ExtTreeMap.size_empty

/-- A compaction is not covered: other maps are handed on as something else. -/
theorem not_covered_of_compaction [Base64] {cipher : Cipher}
    {calls : List (Draw × EncryptedStorage.Call)} {p : Draw × EncryptedStorage.Call}
    (hp : p ∈ calls) (hcall : p.2.IsCompaction) : ¬ Covered cipher calls := by
  intro hcovered
  obtain ⟨before, after, rfl⟩ := List.append_of_mem hp
  obtain ⟨draw, call⟩ := p
  cases call with
  | writeEntry entry => cases hcall
  | compactFromMaps state schemas =>
    obtain ⟨other, hne⟩ := exists_snapshotEntries_ne draw (snapshotEntries draw state schemas)
    have hsame : SameOutputs cipher cipher (before ++ (draw, .compactFromMaps state schemas) :: after)
        (before ++ (draw, .compactFromMaps ∅ other) :: after) := by
      simp [SameOutputs, output]
    have heq := hcovered cipher _ hsame
    simp only [handed, List.filterMap_append, List.filterMap_cons, hand] at heq
    obtain ⟨hsnap, -⟩ := List.cons.inj (List.append_cancel_left heq)
    exact hne (Handed.snapshot.inj hsnap).symm

end EncryptedStorage

open EncryptedStorage

/-- **Encryption at rest** covers exactly the runs that do not compact: what they hand to
    the inner backend is the same for all plaintexts with the same ciphertexts. -/
theorem encryption_covers_iff [Base64] (cipher : Cipher)
    (calls : List (Draw × EncryptedStorage.Call)) :
    Covered cipher calls ↔ ∀ p ∈ calls, ¬ p.2.IsCompaction :=
  ⟨fun h _ hp hcall => not_covered_of_compaction hp hcall h, covered_of_no_compaction⟩

/-- A cipher to evaluate the model with: the nonce is put in front. -/
def prefixCipher : Cipher where
  encrypt nonce plain := some (nonce ++ plain)
  decrypt nonce text := some (text.drop nonce.length)
  decrypt_encrypt h := by
    obtain rfl := Option.some.inj h
    simp

def plainDraw : Draw where
  nonce := List.replicate 24 0
  nonce_length := rfl
  now := 0
  collections := .plain
  docs _ := .plain
  schemas := .plain

/-- A run that compacts one document. -/
def compactOne (doc : Json) : List (Draw × EncryptedStorage.Call) :=
  [(plainDraw, .compactFromMaps
    ((∅ : State).insert "c" ((∅ : DashMap Bytes).insert "k" (valueToMsgpack doc))) ∅)]

/-- Two runs that encrypt nothing: their documents are handed on as they are. -/
theorem compaction_hands_documents :
    letI : Base64 := ⟨Hex.encode, Hex.decode, Hex.decode_encode⟩
    SameOutputs prefixCipher prefixCipher (compactOne (.str "a")) (compactOne (.str "b")) ∧
      handed prefixCipher (compactOne (.str "a")) =
        [.snapshot [⟨IKEY_INSERT, "c", "k", .str "a", 0⟩]] ∧
      handed prefixCipher (compactOne (.str "a")) ≠ handed prefixCipher (compactOne (.str "b")) := by
  refine ⟨rfl, ?_, ?_⟩ <;> decide +kernel

end MoltenDB
