/-
  The decoder is safe on any bytes.

  It reads at a position what the decoder of a byte list reads from there on, so that it has an
  outcome and never panics, whatever the bytes announce. After a binary blob the position may be
  past the end, by less than `2 ^ 32`: what reads next finds nothing. The loop over the log hands on
  the entries of the whole records.
-/
import MoltenDB.Engine.Storage.LogReader

namespace MoltenDB

open Wire (Bytes forall_byte ofLe ofLe_lt readFrame frames frames_of_some frames_of_none frames_nil)
open Buffer (Res Reads reads_pure reads_readBe reads_readUtf8 reads_readSeq reads_ofOption_bind
  advance_eq sub_eq index_eq slice_eq indexes_eq takeN_drop takeN_drop_of_lt)

/-! ## Widths -/

/-- The length is below `2 ^ 32`, or in one to four bytes. -/
def Len.narrow : Len → Bool
  | .here n => n < 2 ^ 32
  | .next w => 0 < w && w ≤ 4

/-- What is announced is in at most eight bytes, a length in at most four. -/
def Head.narrow : Head → Bool
  | .uint w | .int w => 0 < w && w ≤ 8
  | .str l | .array l | .map l => l.narrow
  | .bin w => Len.narrow (.next w)
  | _ => true

theorem head_narrow (byte : UInt8) : (head byte).narrow := by
  refine forall_byte (p := fun byte => (head byte).narrow) ?_ byte
  decide +kernel

theorem Len.narrow.small {l : Len} (h : l.narrow) : l.small := by
  cases l with
  | here n => exact h
  | next w =>
    simp only [Len.narrow, Bool.and_eq_true] at h
    exact h.2

/-! ## Values -/

theorem readInt_eq (w : ℕ) (bs : Bytes) :
    Wire.readInt w bs = Wire.readBe w bs >>= fun p => some ((p.1 : ℤ).bmod (256 ^ w), p.2) := rfl

variable {buf : Bytes} {pos : ℕ}

theorem readByte_eq (hlen : buf.length < 2 ^ 63) (h : pos < buf.length) :
    Decoder.readByte buf pos = .ok (buf[pos], pos + 1) := by
  rw [Decoder.readByte, if_neg (by omega), index_eq h, Res.ok_bind, advance_eq (by omega)]
  rfl

theorem readByte_of_le (h : buf.length ≤ pos) : Decoder.readByte buf pos = .none := if_pos h

theorem reads_readLen (hlen : buf.length < 2 ^ 63) {l : Len} (hl : l.narrow)
    (hpos : pos ≤ buf.length) :
    Reads buf pos 0 (Decoder.readLen buf l pos) (readLen l (buf.drop pos)) := by
  cases l with
  | here n => exact reads_pure n le_rfl (by omega)
  | next w =>
    simp only [Len.narrow, Bool.and_eq_true, decide_eq_true_eq] at hl
    exact reads_readBe hl.1 (by omega)

variable {α : Type} {k : ℕ}

/-- A length, and then what reads from the position after it. -/
theorem reads_readLen_bind (hlen : buf.length < 2 ^ 63) {l : Len} (hl : l.narrow)
    (hpos : pos ≤ buf.length) {f : ℕ × ℕ → Res (α × ℕ)} {g : ℕ × Bytes → Option (α × Bytes)}
    (hf : ∀ len q, len < 2 ^ 32 → pos ≤ q → q ≤ buf.length →
      Reads buf q k (f (len, q)) (g (len, buf.drop q))) :
    Reads buf pos k (Decoder.readLen buf l pos >>= f) (readLen l (buf.drop pos) >>= g) := by
  refine (reads_readLen hlen hl hpos).bind fun len q hread hq hle => ?_
  exact (hf len q (readLen_lt (Len.narrow.small hl) hread) hq hle).from_le hq

/-- An integer, and then what reads from the position after it. -/
theorem reads_readBe_bind (hlen : buf.length < 2 ^ 63) {w : ℕ} (hw : 0 < w ∧ w ≤ 8)
    (hpos : pos ≤ buf.length) {f : ℕ × ℕ → Res (α × ℕ)} {g : ℕ × Bytes → Option (α × Bytes)}
    (hf : ∀ n q, q ≤ buf.length → Reads buf q k (f (n, q)) (g (n, buf.drop q))) :
    Reads buf pos k (Buffer.readBe buf w pos >>= f) (Wire.readBe w (buf.drop pos) >>= g) :=
  (reads_readBe hw.1 (by omega)).bind fun n q _ hq hle => (hf n q hle).from_le hq

/-- A key is read as from the bytes, if the values from there on are. -/
theorem reads_readMapKey (hlen : buf.length < 2 ^ 63) {rd : ℕ → Res (Json × ℕ)}
    {rd' : Bytes → Option (Json × Bytes)}
    (hrd : ∀ q, pos ≤ q → Reads buf q (2 ^ 32) (rd q) (rd' (buf.drop q))) :
    Reads buf pos (2 ^ 32) (Decoder.readMapKey buf rd pos) (readMapKey rd' (buf.drop pos)) := by
  by_cases h : pos < buf.length
  · have hread := hrd pos le_rfl
    rw [List.drop_eq_getElem_cons h] at hread ⊢
    rw [readMapKey, Decoder.readMapKey, readByte_eq hlen h, Res.ok_bind]
    dsimp only
    by_cases hbyte : 0xe0 ≤ buf[pos]
    · rw [if_pos hbyte, if_pos hbyte]
      exact reads_pure _ (by omega) (by omega)
    · rw [if_neg hbyte, if_neg hbyte, sub_eq (by omega), Nat.add_sub_cancel, Res.ok_bind]
      cases hval : rd' (buf[pos] :: buf.drop (pos + 1)) with
      | none =>
        rw [hval] at hread
        rw [show rd pos = .none from hread]
        rfl
      | some p =>
        obtain ⟨v, rest⟩ := p
        rw [hval] at hread
        obtain ⟨q, hq, hrest, hstart, hle⟩ := hread
        rw [hq, Res.ok_bind]
        cases v with
        | str s => exact ⟨q, rfl, hrest, hstart, hle⟩
        | _ => rfl
  · rw [Decoder.readMapKey, readByte_of_le (by omega), List.drop_eq_nil_of_le (by omega)]
    rfl

theorem reads_readField (hlen : buf.length < 2 ^ 63) {rd : ℕ → Res (Json × ℕ)}
    {rd' : Bytes → Option (Json × Bytes)}
    (hrd : ∀ q, pos ≤ q → Reads buf q (2 ^ 32) (rd q) (rd' (buf.drop q))) :
    Reads buf pos (2 ^ 32) (Decoder.readField buf rd pos) (readField rd' (buf.drop pos)) := by
  refine (reads_readMapKey hlen hrd).bind fun key q _ hq _ => ?_
  refine ((hrd q hq).from_le hq).bind fun val q' _ hq' hle => ?_
  exact reads_pure (key, val) hq' hle

/-- **A value is read at a position as from the bytes**, if there is fuel for what is left. -/
theorem reads_readValue (hlen : buf.length < 2 ^ 63) {fuel fuel' : ℕ}
    (hfuel : buf.length - pos < fuel) (hfuel' : buf.length - pos ≤ fuel') :
    Reads buf pos (2 ^ 32) (Decoder.readValue buf fuel pos) (readValue fuel' (buf.drop pos)) := by
  induction fuel generalizing pos fuel' with
  | zero => omega
  | succ fuel ih =>
    by_cases h : pos < buf.length
    · obtain ⟨fuel', rfl⟩ : ∃ m, fuel' = m + 1 := ⟨fuel' - 1, by omega⟩
      have hitem : ∀ q, pos + 1 ≤ q →
          Reads buf q (2 ^ 32) (Decoder.readValue buf fuel q) (readValue fuel' (buf.drop q)) :=
        fun q hq => ih (by omega) (by omega)
      refine Reads.from_le ?_ (Nat.le_succ pos)
      have hnarrow := head_narrow buf[pos]
      rw [List.drop_eq_getElem_cons h, readValue, Decoder.readValue, readByte_eq hlen h,
        Res.ok_bind]
      dsimp only
      cases hhead : head buf[pos] with
      | null => exact reads_pure _ le_rfl (by omega)
      | bool b => exact reads_pure _ le_rfl (by omega)
      | num n => exact reads_pure _ le_rfl (by omega)
      | uint w =>
        have hw : 0 < w ∧ w ≤ 8 := by simpa [hhead, Head.narrow] using hnarrow
        exact reads_readBe_bind hlen hw h fun n q hq => reads_pure _ le_rfl (by omega)
      | int w =>
        have hw : 0 < w ∧ w ≤ 8 := by simpa [hhead, Head.narrow] using hnarrow
        dsimp only
        rw [readInt_eq, bind_assoc]
        exact reads_readBe_bind hlen hw h fun n q hq => reads_pure _ le_rfl (by omega)
      | float32 =>
        refine reads_readBe_bind hlen (by omega) h fun n q hq => ?_
        exact reads_ofOption_bind _ fun x => reads_pure _ le_rfl (by omega)
      | float64 =>
        refine reads_readBe_bind hlen (by omega) h fun n q hq => ?_
        exact reads_ofOption_bind _ fun x => reads_pure _ le_rfl (by omega)
      | str l =>
        rw [hhead] at hnarrow
        refine reads_readLen_bind hlen hnarrow h fun len q hlt _ hq => ?_
        refine (reads_readUtf8 hq (by omega)).bind fun s q' _ hq' hle => ?_
        exact reads_pure _ hq' (by omega)
      | array l =>
        rw [hhead] at hnarrow
        refine reads_readLen_bind hlen hnarrow h fun len q _ hstart hq => ?_
        refine (reads_readSeq (fun q' h' _ => hitem q' h') len hstart (by omega)).bind ?_
        exact fun xs q' _ hq' hle => reads_pure _ hq' hle
      | map l =>
        rw [hhead] at hnarrow
        refine reads_readLen_bind hlen hnarrow h fun len q _ hstart hq => ?_
        have hfield : ∀ q', pos + 1 ≤ q' → q' ≤ buf.length + 2 ^ 32 →
            Reads buf q' (2 ^ 32) (Decoder.readField buf (Decoder.readValue buf fuel) q')
              (readField (readValue fuel') (buf.drop q')) :=
          fun q' h' _ => reads_readField hlen fun q'' h'' => hitem q'' (h'.trans h'')
        refine (reads_readSeq hfield len hstart (by omega)).bind ?_
        exact fun fs q' _ hq' hle => reads_pure _ hq' hle
      | bin w =>
        have hw : (Len.next w).narrow := by simpa [hhead, Head.narrow] using hnarrow
        refine reads_readLen_bind hlen hw h fun len q hlt _ hq => ?_
        -- the blob may end past the buffer
        dsimp only
        rw [advance_eq (by omega), Res.ok_bind, List.drop_drop]
        exact reads_pure _ (by omega) (by omega)
      | reserved => rfl
    · rw [Decoder.readValue, readByte_of_le (by omega), List.drop_eq_nil_of_le (by omega)]
      cases fuel' <;> rfl

/-! ## Log entries -/

theorem reads_readMapHeader (hlen : buf.length < 2 ^ 63) :
    Reads buf pos 0 (Decoder.readMapHeader buf pos) (readMapHeader (buf.drop pos)) := by
  by_cases h : pos < buf.length
  · have hnarrow := head_narrow buf[pos]
    rw [List.drop_eq_getElem_cons h, readMapHeader, Decoder.readMapHeader, readByte_eq hlen h,
      Res.ok_bind]
    dsimp only
    cases hhead : head buf[pos] with
    | map l =>
      rw [hhead] at hnarrow
      exact (reads_readLen hlen hnarrow (by omega)).from_le (by omega)
    | _ => rfl
  · rw [Decoder.readMapHeader, readByte_of_le (by omega), List.drop_eq_nil_of_le (by omega)]
    rfl

theorem reads_readString (hlen : buf.length < 2 ^ 63) :
    Reads buf pos 0 (Decoder.readString buf pos) (readString (buf.drop pos)) := by
  by_cases h : pos < buf.length
  · have hnarrow := head_narrow buf[pos]
    rw [List.drop_eq_getElem_cons h, readString, Decoder.readString, readByte_eq hlen h,
      Res.ok_bind]
    dsimp only
    cases hhead : head buf[pos] with
    | str l =>
      rw [hhead] at hnarrow
      refine (reads_readLen_bind hlen hnarrow h ?_).from_le (Nat.le_succ pos)
      exact fun len q hlt _ hq => reads_readUtf8 hq (by omega)
    | _ => rfl
  · rw [Decoder.readString, readByte_of_le (by omega), List.drop_eq_nil_of_le (by omega)]
    rfl

theorem reads_readUintAt (hlen : buf.length < 2 ^ 63) :
    Reads buf pos 0 (Decoder.readUintAt buf pos) (readUintAt (buf.drop pos)) := by
  by_cases h : pos < buf.length
  · have hnarrow := head_narrow buf[pos]
    have hget : Buffer.get buf pos = .ok buf[pos] := by
      rw [Buffer.get, List.getElem?_eq_getElem h]
      rfl
    rw [List.drop_eq_getElem_cons h, readUintAt, Decoder.readUintAt, hget, Res.ok_bind,
      advance_eq (by omega), Res.ok_bind]
    dsimp only
    cases hhead : head buf[pos] with
    | num n =>
      cases n with
      | posInt u => exact reads_pure u (by omega) (by omega)
      | _ => rfl
    | uint w =>
      rw [hhead] at hnarrow
      have hw : 0 < w ∧ w ≤ 8 := by simpa [Head.narrow] using hnarrow
      refine (reads_readBe_bind hlen hw h ?_).from_le (Nat.le_succ pos)
      exact fun n q hq => reads_pure _ le_rfl (by omega)
    | _ => rfl
  · have hget : Buffer.get buf pos = .none := by
      rw [Buffer.get, List.getElem?_eq_none (by omega)]
      rfl
    rw [Decoder.readUintAt, hget, List.drop_eq_nil_of_le (by omega)]
    rfl

theorem reads_readCmd (hlen : buf.length < 2 ^ 63) :
    Reads buf pos 0 (Decoder.readCmd buf pos) (readCmd (buf.drop pos)) := by
  have hread : Reads buf pos 0 (Decoder.readString buf pos) (readString (buf.drop pos)) :=
    reads_readString hlen
  by_cases h : pos < buf.length
  · have htoken : Decoder.atToken buf pos = .ok (decide (0xe0 ≤ buf[pos])) := by
      rw [Decoder.atToken, if_pos h, index_eq h]
      rfl
    rw [Decoder.readCmd, htoken, Res.ok_bind]
    rw [List.drop_eq_getElem_cons h] at hread ⊢
    rw [readCmd]
    by_cases hbyte : 0xe0 ≤ buf[pos]
    · rw [if_pos hbyte, if_pos (decide_eq_true hbyte), index_eq h, Res.ok_bind,
        advance_eq (by omega)]
      exact reads_pure _ (by omega) (by omega)
    · rw [if_neg hbyte, if_neg (by simpa using hbyte)]
      exact hread.bind fun cmd q _ hq hle => reads_pure _ hq hle
  · have htoken : Decoder.atToken buf pos = .ok false := by
      rw [Decoder.atToken, if_neg h]
    rw [List.drop_eq_nil_of_le (by omega)] at hread ⊢
    rw [Decoder.readCmd, htoken, Res.ok_bind, if_neg (by decide)]
    rw [show Decoder.readString buf pos = .none from hread]
    rfl

/-! ## Records -/

/-- There is no whole record at `pos` if the buffer ends in its header. -/
theorem frames_of_header (h : buf.length < pos + 4) : frames (buf.drop pos) = [] := by
  refine frames_of_none ?_
  rw [readFrame, takeN_drop_of_lt (Or.inl (by omega)) h]
  rfl

/-- There is none either if the buffer ends before the record does. -/
theorem frames_of_payload (h : pos + 4 ≤ buf.length)
    (hlt : buf.length < pos + 4 + ofLe ((buf.drop pos).take 4)) : frames (buf.drop pos) = [] := by
  refine frames_of_none ?_
  rw [readFrame, takeN_drop h, Option.bind_eq_bind, Option.bind_some]
  exact takeN_drop_of_lt (Or.inr h) hlt

theorem frames_of_whole (h : pos + 4 ≤ buf.length) {len : ℕ}
    (hlen : len = ofLe ((buf.drop pos).take 4)) (hle : pos + 4 + len ≤ buf.length) :
    frames (buf.drop pos) =
      (buf.drop (pos + 4)).take len :: frames (buf.drop (pos + 4 + len)) := by
  subst hlen
  refine frames_of_some ?_
  rw [readFrame, takeN_drop h, Option.bind_eq_bind, Option.bind_some]
  exact takeN_drop hle

/-! ## The fields of an entry -/

section Skipper

variable [Crates]

/-- What the skipper leaves is the end of the slice that it was given. -/
def LeavesSuffix : Prop :=
  ∀ bytes rest : Bytes, bytes.length < 2 ^ 63 → Crates.ignoredAny bytes = some rest →
    rest <:+ bytes

theorem reads_skipMsgpackValue (hskip : LeavesSuffix) (hlen : buf.length < 2 ^ 63)
    (hpos : pos ≤ buf.length) :
    Reads buf pos 0 (Decoder.skipMsgpackValue buf pos)
      ((Crates.ignoredAny (buf.drop pos)).map fun rest => ((), rest)) := by
  have htake : (buf.drop pos).take (buf.length - pos) = buf.drop pos :=
    List.take_of_length_le (by simp)
  rw [Decoder.skipMsgpackValue, slice_eq hpos le_rfl, Res.ok_bind, htake]
  cases hrest : Crates.ignoredAny (buf.drop pos) with
  | none => rfl
  | some rest =>
    obtain ⟨pre, hpre⟩ := hskip _ _ (by rw [List.length_drop]; omega) hrest
    have hsum := congrArg List.length hpre
    rw [List.length_append, List.length_drop] at hsum
    have hdrop : rest = buf.drop (buf.length - rest.length) := by
      have hpos' : buf.length - rest.length = pos + pre.length := by omega
      rw [hpos', ← List.drop_drop, ← hpre, List.drop_left]
    refine ⟨buf.length - rest.length, ?_, hdrop, by omega, by omega⟩
    show (Res.ok rest >>= _) = _
    rw [Res.ok_bind, sub_eq (by omega)]
    rfl

/-- **The fields of an entry are read at a position as from the bytes.** -/
theorem readEntryFields_eq (hskip : LeavesSuffix) (hlen : buf.length < 2 ^ 63) (n : ℕ)
    (e : LogEntry) :
    Decoder.readEntryFields buf n e pos = .ofOption (readEntryFields n e (buf.drop pos)) := by
  induction n generalizing e pos with
  | zero => rfl
  | succ n ih =>
    rw [Decoder.readEntryFields, readEntryFields]
    refine (reads_readString hlen).bind_ofOption fun name q _ _ hq => ?_
    dsimp only
    split_ifs
    · exact (reads_readCmd hlen).bind_ofOption fun _ _ _ _ _ => ih _
    · exact (reads_readString hlen).bind_ofOption fun _ _ _ _ _ => ih _
    · exact (reads_readString hlen).bind_ofOption fun _ _ _ _ _ => ih _
    · have hfuel : buf.length - q ≤ (buf.drop q).length := List.length_drop.ge
      exact (reads_readValue hlen (by omega) hfuel).bind_ofOption fun _ _ _ _ _ => ih _
    · exact (reads_readUintAt hlen).bind_ofOption fun _ _ _ _ _ => ih _
    · have hread := reads_skipMsgpackValue hskip hlen hq
      have hmap : (Crates.ignoredAny (buf.drop q) >>= fun rest => readEntryFields n e rest) =
          (Crates.ignoredAny (buf.drop q)).map (fun rest => ((), rest)) >>=
            fun p => readEntryFields n e p.2 := by
        cases Crates.ignoredAny (buf.drop q) <;> rfl
      rw [hmap]
      exact hread.bind_ofOption fun _ _ _ _ _ => ih _

theorem decodeEntry_eq (hskip : LeavesSuffix) (hlen : buf.length < 2 ^ 63) :
    Decoder.logEntryFromMsgpack buf = .ofOption (logEntryFromMsgpack buf) := by
  have hread : Reads buf 0 0 (Decoder.readMapHeader buf 0) (readMapHeader (buf.drop 0)) :=
    reads_readMapHeader hlen
  rw [List.drop_zero] at hread
  exact hread.bind_ofOption fun _ _ _ _ _ => readEntryFields_eq hskip hlen _ _

/-! ## The log -/

variable {σ : Type} {skipLines : ℕ} {f : σ → LogEntry × UInt32 → ControlFlow σ}

/-- The entry of one record is handed on, and then those of the others. -/
theorem handOver_cons (p : Bytes) (ps : List Bytes) (s : σ) :
    handOver f ((p :: ps).filterMap Decoder.sized) s =
      (handOver f (Decoder.sized p).toList s).andThen
        (handOver f (ps.filterMap Decoder.sized)) := by
  cases hp : Decoder.sized p with
  | none => rw [List.filterMap_cons_none hp]; rfl
  | some e =>
    rw [List.filterMap_cons_some hp, handOver, Option.toList_some, handOver]
    cases f s e <;> rfl

theorem onRecord_eq (hskip : LeavesSuffix) {payload : Bytes} {len : ℕ}
    (hlen : payload.length < 2 ^ 63) (hsize : payload.length = len) (s : σ) :
    Decoder.onRecord f payload len s = .ok (handOver f (Decoder.sized payload).toList s) := by
  rw [Decoder.onRecord, decodeEntry_eq hskip hlen, Res.attempt_ofOption, Res.ok_bind,
    Decoder.sized]
  cases logEntryFromMsgpack payload with
  | none => rfl
  | some entry =>
    dsimp only
    rw [advance_eq (by omega), Res.ok_bind, ← hsize, Option.map_some, Option.toList_some, handOver]
    cases f s (entry, UInt32.ofNat (payload.length + 4)) <;> rfl

/-- **The loop hands on the entries of the whole records** that are left, from the first one on
    that is not skipped. -/
theorem streamLoop_eq (hskip : LeavesSuffix) (hlen : buf.length < 2 ^ 63) {fuel idx : ℕ} {s : σ}
    (hfuel : buf.length - pos < fuel) (hpos : pos ≤ buf.length) (hidx : idx ≤ pos) :
    Decoder.streamLoop buf skipLines f fuel pos idx s =
      .ok (handOver f (((frames (buf.drop pos)).drop (skipLines - idx)).filterMap
        Decoder.sized) s) := by
  induction fuel generalizing pos idx s with
  | zero => omega
  | succ fuel ih =>
    rw [Decoder.streamLoop, advance_eq (by omega), Res.ok_bind]
    by_cases hhdr : buf.length < pos + 4
    · rw [if_pos hhdr, frames_of_header hhdr, List.drop_nil]
      rfl
    have hle : pos + 4 ≤ buf.length := not_lt.1 hhdr
    have hlt : ofLe ((buf.drop pos).take 4) < 2 ^ 32 := by
      have hbound := ofLe_lt ((buf.drop pos).take 4)
      rw [List.length_take, List.length_drop, Nat.min_eq_left (by omega)] at hbound
      exact hbound
    rw [if_neg hhdr, indexes_eq hle, Res.ok_bind]
    obtain ⟨len, hlen'⟩ : ∃ n, n = ofLe ((buf.drop pos).take 4) := ⟨_, rfl⟩
    rw [← hlen'] at hlt ⊢
    dsimp only
    rw [Res.ok_bind, advance_eq (by omega), Res.ok_bind]
    by_cases hpay : buf.length < pos + 4 + len
    · rw [if_pos hpay, frames_of_payload hle (hlen' ▸ hpay), List.drop_nil]
      rfl
    have hend : pos + 4 + len ≤ buf.length := not_lt.1 hpay
    rw [if_neg hpay, slice_eq (by omega) hend, Res.ok_bind, Res.ok_bind, Nat.add_sub_cancel_left,
      frames_of_whole hle hlen' hend]
    obtain ⟨payload, hpayload⟩ : ∃ p, p = (buf.drop (pos + 4)).take len := ⟨_, rfl⟩
    have hsize : payload.length = len := by
      rw [hpayload, List.length_take, List.length_drop, Nat.min_eq_left (by omega)]
    rw [← hpayload]
    by_cases hskipped : idx < skipLines
    · rw [if_pos hskipped, advance_eq (by omega), Res.ok_bind, ih (by omega) hend (by omega),
        show skipLines - idx = skipLines - (idx + 1) + 1 by omega, List.drop_succ_cons]
    · have hzero : skipLines - idx = 0 := by omega
      rw [if_neg hskipped, hzero, List.drop_zero, onRecord_eq hskip (by omega) hsize, Res.ok_bind,
        handOver_cons]
      cases handOver f (Decoder.sized payload).toList s with
      | stop s => rfl
      | goOn s =>
        dsimp only
        rw [advance_eq (by omega), Res.ok_bind, ih (by omega) hend (by omega),
          show skipLines - (idx + 1) = 0 by omega, List.drop_zero]
        rfl

/-- **The decoder is safe on any bytes**, and so is the reader of the log, on a file with any
    contents: they end, and no read or slice is outside the buffer. A slice holds less than
    `2 ^ 63` bytes. -/
theorem decoder_safe (hskip : LeavesSuffix) (buf : Bytes) (hlen : buf.length < 2 ^ 63) :
    (Decoder.logEntryFromMsgpack buf).Safe ∧
    Decoder.logEntryFromMsgpack buf = .ofOption (logEntryFromMsgpack buf) ∧
    ∀ {σ : Type} (f : σ → LogEntry × UInt32 → ControlFlow σ) (skipLines : ℕ) (s : σ),
      (Decoder.streamLogEntries skipLines f (some buf) s).Safe ∧
      Decoder.streamLogEntries skipLines f (some buf) s =
        .ok (handOver f (((frames buf).drop skipLines).filterMap Decoder.sized) s) := by
  have hentry := decodeEntry_eq hskip hlen
  have hstream : ∀ {σ : Type} (f : σ → LogEntry × UInt32 → ControlFlow σ) (skipLines : ℕ) (s : σ),
      Decoder.streamLogEntries skipLines f (some buf) s =
        .ok (handOver f (((frames buf).drop skipLines).filterMap Decoder.sized) s) := by
    intro σ f skipLines s
    rw [Decoder.streamLogEntries]
    split_ifs with hempty
    · rw [hempty, frames_nil, List.drop_nil]
      rfl
    · rw [streamLoop_eq hskip hlen (by omega) (Nat.zero_le _) le_rfl, List.drop_zero, Nat.sub_zero]
  refine ⟨?_, hentry, fun f skipLines s => ⟨?_, hstream f skipLines s⟩⟩
  · rw [hentry]
    exact Res.safe_ofOption _
  · rw [hstream]
    exact Res.safe_ok _

end Skipper

theorem leavesSuffix_plain : @LeavesSuffix Crates.plain := by
  intro bytes rest hlen hrest
  obtain ⟨⟨v, rest'⟩, hread, rfl⟩ := Option.map_eq_some_iff.1 hrest
  have hreads : Reads bytes 0 (2 ^ 32) (Decoder.readValue bytes (bytes.length + 1) 0)
      (readValue bytes.length (bytes.drop 0)) := reads_readValue hlen (by omega) (by omega)
  rw [List.drop_zero, hread] at hreads
  obtain ⟨pos, -, hdrop, -⟩ := hreads
  rw [hdrop]
  exact List.drop_suffix pos bytes

/-- An entry of two fields that ends in the header of a blob. -/
def blobEntry : Bytes := writeMapHeader 2 ++ writeStr "value" ++ [0xc6, 0xff, 0xff, 0xff, 0xff]

/-- The position is past the end when the second field is looked for; as a log, the bytes announce
    a record that is not there. -/
theorem decoder_safe_blob :
    letI := Crates.plain
    (Decoder.logEntryFromMsgpack blobEntry).Safe ∧
      Decoder.logEntryFromMsgpack blobEntry = .none ∧
      Decoder.streamLogEntries 0 (fun n _ => .goOn (n + 1)) (some blobEntry) 0 = .ok (.goOn 0) := by
  let _ := Crates.plain
  obtain ⟨hsafe, hentry, hstream⟩ := decoder_safe leavesSuffix_plain blobEntry (by decide)
  refine ⟨hsafe, hentry.trans ?_, (hstream _ _ _).2.trans ?_⟩
  · have hnone : logEntryFromMsgpack blobEntry = none := by decide +kernel
    rw [hnone]
    rfl
  · have hframes : frames blobEntry = [] := by decide +kernel
    rw [hframes]
    rfl

end MoltenDB
