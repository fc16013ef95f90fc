import TxBase.Transaction.Wal

/-! Framing survives a torn tail.  A log file is the concatenation `frames` of
its frames; whatever strict prefix of a further frame follows them, the parser
returns exactly the whole frames and points at the end of the last one. -/
namespace TxBase.Transaction
open Lib List

def frames (lsn : Lsn) : List Bytes → Bytes
  | [] => []
  | payload :: rest => frame lsn payload ++ frames (lsn + 1) rest

def numbered (lsn : Lsn) : List Bytes → List (Lsn × Bytes)
  | [] => []
  | payload :: rest => (lsn, payload) :: numbered (lsn + 1) rest

/-- Where the frame of the `count`-th payload ends. -/
def frameEnd (payloads : List Bytes) (count : Nat) : Nat :=
  ((payloads.take count).map fun payload => walHeaderSize + payload.length).sum

@[simp] theorem frameHeader_length (length lsn : Nat) :
    (frameHeader length lsn).length = walHeaderSize := by
  simp [frameHeader, walMagic, walHeaderSize]

@[simp] theorem frame_length (lsn : Lsn) (record : Bytes) :
    (frame lsn record).length = walHeaderSize + record.length := by
  simp [frame]

theorem frames_length (lsn : Lsn) (payloads : List Bytes) :
    (frames lsn payloads).length = frameEnd payloads payloads.length := by
  induction payloads generalizing lsn with
  | nil => rfl
  | cons payload rest ih => simp_all [frames, frameEnd]

theorem frames_append (lsn : Nat) (left right : List Bytes) :
    frames lsn (left ++ right) = frames lsn left ++ frames (lsn + left.length) right := by
  induction left generalizing lsn with
  | nil => simp [frames]
  | cons payload rest ih =>
    simp only [cons_append, frames, ih, append_assoc, length_cons]
    rw [show lsn + 1 + rest.length = lsn + (rest.length + 1) by omega]

theorem numbered_append (lsn : Nat) (left right : List Bytes) :
    numbered lsn (left ++ right) = numbered lsn left ++ numbered (lsn + left.length) right := by
  induction left generalizing lsn with
  | nil => simp [numbered]
  | cons payload rest ih =>
    simp only [cons_append, numbered, ih, length_cons]
    rw [show lsn + 1 + rest.length = lsn + (rest.length + 1) by omega]

@[simp] theorem numbered_payloads (lsn : Lsn) (payloads : List Bytes) :
    (numbered lsn payloads).map Prod.snd = payloads := by
  induction payloads generalizing lsn with
  | nil => rfl
  | cons payload rest ih => simp [numbered, ih]

theorem numbered_getLast (payloads : List Bytes) :
    (numbered 0 payloads).getLast?.map Prod.fst =
      if payloads.length = 0 then none else some (payloads.length - 1) := by
  rcases eq_nil_or_concat payloads with rfl | ⟨init, last, rfl⟩
  · rfl
  · simp [numbered_append, numbered]

theorem length_le_frames (lsn : Nat) (payloads : List Bytes) :
    walHeaderSize * payloads.length ≤ (frames lsn payloads).length := by
  induction payloads generalizing lsn with
  | nil => simp
  | cons payload rest ih =>
    have hrest := ih (lsn + 1)
    simp only [frames, length_append, frame_length, length_cons, walHeaderSize] at *
    omega

theorem header_fields (length lsn : Nat) (rest : Bytes) :
    slice (frameHeader length lsn ++ rest) 0 4 = walMagic ∧
    slice (frameHeader length lsn ++ rest) 4 8 = toLeBytes 4 length ∧
    slice (frameHeader length lsn ++ rest) 8 16 = toLeBytes 8 lsn := by
  have hlength := slice_append_middle walMagic (toLeBytes 4 length) (toLeBytes 8 lsn ++ rest)
  have hlsn := slice_append_middle (walMagic ++ toLeBytes 4 length) (toLeBytes 8 lsn) rest
  simp only [length_append, toLeBytes_length, append_assoc] at hlength hlsn
  simp only [frameHeader, append_assoc]
  exact ⟨by simp [slice, walMagic], hlength, hlsn⟩

variable {record : Bytes}

private theorem decoded_length (h : record.length ≤ maxWalRecordSize) :
    fromLeBytes (toLeBytes 4 record.length) = record.length := by
  apply fromLeBytes_toLeBytes
  unfold maxWalRecordSize at h
  omega

variable {lsn offset : Nat} {tail : Bytes}

theorem parseWalFrom_frame (records : List (Lsn × Bytes)) (hsize : record.length ≤ maxWalRecordSize)
    (hoffset : offset + walHeaderSize + record.length < u64Size) (hlsn : lsn + 1 < u64Size) :
    parseWalFrom (frame lsn record ++ tail) offset lsn records =
      parseWalFrom tail (offset + walHeaderSize + record.length) (lsn + 1)
        (records ++ [(lsn, record)]) := by
  obtain ⟨hmagic, hlength, hlsnField⟩ := header_fields record.length lsn (record ++ tail)
  rw [← append_assoc, ← frame] at hmagic hlength hlsnField
  have hlsnValue : fromLeBytes (toLeBytes 8 lsn) = lsn := by
    apply fromLeBytes_toLeBytes
    unfold u64Size at hlsn
    omega
  have hdrop : (frame lsn record ++ tail).drop (walHeaderSize + record.length) = tail := by
    rw [← frame_length lsn record]
    exact drop_left
  have hpayload : slice (frame lsn record ++ tail) walHeaderSize
      (walHeaderSize + record.length) = record := by
    have hmiddle := slice_append_middle (frameHeader record.length lsn) record tail
    rwa [frameHeader_length, ← append_assoc] at hmiddle
  have hlong : ¬ (frame lsn record ++ tail).length < walHeaderSize + record.length := by
    simp only [length_append, frame_length]
    omega
  rw [parseWalFrom]
  simp only [hmagic, hlength, hlsnField, decoded_length hsize, hlsnValue, hdrop, hpayload]
  rw [if_neg (by omega), if_neg (by simp), if_neg (by omega), if_neg (by omega), if_neg hlong,
    if_neg (by simp), if_neg (by omega), Nat.add_assoc]

/-- A strict prefix of a frame ends the loop without an error, wherever the cut
falls: in the magic, the length, the LSN or the payload. -/
theorem parseWalFrom_torn (records : List (Lsn × Bytes)) (hsize : record.length ≤ maxWalRecordSize)
    (hoffset : offset + walHeaderSize + record.length < u64Size) (htail : tail <+: frame lsn record)
    (hcut : tail.length < (frame lsn record).length) :
    parseWalFrom tail offset lsn records = .ok ⟨records, offset⟩ := by
  rw [parseWalFrom]
  by_cases hshort : tail.length < walHeaderSize
  · rw [if_pos hshort]
  · rw [if_neg hshort]
    -- The header is whole, so its length field is the one that was written.
    obtain ⟨suffix, hsuffix⟩ := htail
    have htake : tail.take walHeaderSize = frameHeader record.length lsn := by
      have hinit := congrArg (List.take walHeaderSize) hsuffix
      rw [take_append_of_le_length (by omega), frame] at hinit
      rw [hinit, take_append_of_le_length (by simp)]
      exact take_of_length_le (by simp)
    have hsplit : tail = frameHeader record.length lsn ++ tail.drop walHeaderSize := by
      rw [← htake, take_append_drop]
    obtain ⟨hmagic, hlength, -⟩ := header_fields record.length lsn (tail.drop walHeaderSize)
    rw [← hsplit] at hmagic hlength
    rw [frame_length] at hcut
    simp only [hmagic, hlength, decoded_length hsize]
    rw [if_neg (by simp), if_neg (by omega), if_neg (by omega), if_pos hcut]

theorem parseWalFrom_frames (payloads : List Bytes) (tail : Bytes) (records : List (Lsn × Bytes))
    (hsize : ∀ payload ∈ payloads, payload.length ≤ maxWalRecordSize)
    (hoffset : offset + (frames lsn payloads).length < u64Size)
    (hlsn : lsn + payloads.length < u64Size) :
    parseWalFrom (frames lsn payloads ++ tail) offset lsn records =
      parseWalFrom tail (offset + (frames lsn payloads).length) (lsn + payloads.length)
        (records ++ numbered lsn payloads) := by
  induction payloads generalizing lsn offset records with
  | nil => simp [frames, numbered]
  | cons payload rest ih =>
    simp only [frames, length_append, frame_length, length_cons] at hoffset hlsn ⊢
    rw [append_assoc, parseWalFrom_frame records (hsize payload (by simp)) (by omega) (by omega),
      ih _ (fun p hp => hsize p (by simp [hp])) (by omega) (by omega)]
    simp only [numbered, append_assoc, cons_append, nil_append]
    rw [show offset + walHeaderSize + payload.length + (frames (lsn + 1) rest).length =
        offset + (walHeaderSize + payload.length + (frames (lsn + 1) rest).length) by omega,
      show lsn + 1 + rest.length = lsn + (rest.length + 1) by omega]

/-- A tail that the parser drops after `count` frames: nothing, or a frame that
was being appended when the write stopped. -/
def Torn (count : Nat) (tail : Bytes) : Prop :=
  tail = [] ∨ ∃ record, record.length ≤ maxWalRecordSize ∧
    tail <+: frame count record ∧ tail.length < (frame count record).length

theorem parseWal_frames_torn {payloads : List Bytes}
    (hsize : ∀ payload ∈ payloads, payload.length ≤ maxWalRecordSize)
    (hfit : (frames 0 payloads).length ≤ maxLength) (htail : Torn payloads.length tail) :
    parseWal (frames 0 payloads ++ tail) =
      .ok ⟨numbered 0 payloads, (frames 0 payloads).length⟩ := by
  have hcount := length_le_frames 0 payloads
  have hlimit : maxLength + walHeaderSize + maxWalRecordSize < u64Size := by decide
  unfold parseWal
  rw [parseWalFrom_frames payloads tail [] hsize (by omega)
    (by unfold walHeaderSize at *; omega)]
  simp only [Nat.zero_add, nil_append]
  rcases htail with rfl | ⟨record, hrecord, hinit, hcut⟩
  · rw [parseWalFrom]
    simp [walHeaderSize]
  · exact parseWalFrom_torn _ hrecord (by omega) hinit hcut

/-- How many payloads have their whole frame in the first `cut` bytes. -/
def wholeFrames : List Bytes → Nat → Nat
  | [], _ => 0
  | payload :: rest, cut =>
      if walHeaderSize + payload.length ≤ cut then
        wholeFrames rest (cut - (walHeaderSize + payload.length)) + 1
      else 0

theorem wholeFrames_le (payloads : List Bytes) (cut : Nat) :
    wholeFrames payloads cut ≤ payloads.length := by
  induction payloads generalizing cut with
  | nil => simp [wholeFrames]
  | cons payload rest ih =>
    unfold wholeFrames
    split
    · exact Nat.succ_le_succ (ih _)
    · exact Nat.zero_le _

theorem lt_wholeFrames_iff (payloads : List Bytes) (cut index : Nat) :
    index < wholeFrames payloads cut ↔
      index < payloads.length ∧ frameEnd payloads (index + 1) ≤ cut := by
  induction payloads generalizing cut index with
  | nil => simp [wholeFrames]
  | cons payload rest ih =>
    have hend : frameEnd (payload :: rest) (index + 1) =
        walHeaderSize + payload.length + frameEnd rest index := by simp [frameEnd]
    unfold wholeFrames
    rw [hend, length_cons]
    cases index with
    | zero =>
      have hzero : frameEnd rest 0 = 0 := by simp [frameEnd]
      split <;> simp [hzero] <;> omega
    | succ index =>
      split
      · have hrest := ih (cut - (walHeaderSize + payload.length)) index
        rw [Nat.succ_lt_succ_iff, Nat.succ_lt_succ_iff, hrest]
        constructor <;> rintro ⟨hlt, hle⟩ <;> exact ⟨hlt, by omega⟩
      · constructor
        · intro hlt
          omega
        · rintro ⟨-, hle⟩
          omega

theorem frames_take (payloads : List Bytes) (lsn cut : Nat)
    (hsize : ∀ payload ∈ payloads, payload.length ≤ maxWalRecordSize) :
    ∃ tail, Torn (lsn + wholeFrames payloads cut) tail ∧
      (frames lsn payloads).take cut =
        frames lsn (payloads.take (wholeFrames payloads cut)) ++ tail := by
  induction payloads generalizing lsn cut with
  | nil => exact ⟨[], .inl rfl, by simp [frames, wholeFrames]⟩
  | cons payload rest ih =>
    have hrest : ∀ p ∈ rest, p.length ≤ maxWalRecordSize := fun p hp => hsize p (by simp [hp])
    unfold wholeFrames
    split
    · rename_i hwhole
      obtain ⟨tail, htorn, htake⟩ := ih (lsn + 1) (cut - (walHeaderSize + payload.length)) hrest
      refine ⟨tail, ?_, ?_⟩
      · rwa [Nat.add_comm _ 1, ← Nat.add_assoc]
      · rw [take_succ_cons, frames, frames, take_append, frame_length, htake,
          take_of_length_le (by simpa using hwhole), append_assoc]
    · rename_i hcut
      refine ⟨(frame lsn payload).take cut, .inr ⟨payload, hsize payload (by simp), ?_, ?_⟩, ?_⟩
      · exact take_prefix _ _
      · simp only [Nat.add_zero, length_take, frame_length]
        omega
      · simp only [take_zero, frames, nil_append]
        exact take_append_of_le_length (by rw [frame_length]; omega)

theorem frames_take_length (payloads : List Bytes) (lsn count : Nat) :
    (frames lsn (payloads.take count)).length = frameEnd payloads count := by
  rw [frames_length]
  simp only [frameEnd, take_length]

variable {rest : Bytes}

theorem frame_of_header (hmagic : slice rest 0 4 = walMagic)
    (hlsn : fromLeBytes (slice rest 8 16) = lsn)
    (hwhole : walHeaderSize + fromLeBytes (slice rest 4 8) ≤ rest.length) :
    frame lsn (slice rest walHeaderSize (walHeaderSize + fromLeBytes (slice rest 4 8))) =
      rest.take (walHeaderSize + fromLeBytes (slice rest 4 8)) := by
  generalize hlength : fromLeBytes (slice rest 4 8) = length at *
  have hsixteen : (16 : Nat) ≤ rest.length := by unfold walHeaderSize at hwhole; omega
  have hpayload : (slice rest walHeaderSize (walHeaderSize + length)).length = length := by
    rw [slice_length hwhole]
    omega
  unfold frame frameHeader
  rw [hpayload, ← hmagic, ← hlength, toLeBytes_slice (by omega) (by omega), ← hlsn,
    toLeBytes_slice (by omega) (by omega), hlength, slice_append_slice _ (by omega) (by omega),
    slice_append_slice _ (by omega) (by omega)]
  unfold walHeaderSize
  rw [slice_append_slice _ (by omega) (by omega)]
  simp [slice]

theorem parseWalFrom_sound {records : List (Lsn × Bytes)} {parsed : ParsedWal}
    (h : parseWalFrom rest offset lsn records = .ok parsed) :
    ∃ payloads, parsed.records = records ++ numbered lsn payloads ∧
      parsed.validBytes = offset + (frames lsn payloads).length ∧
      frames lsn payloads <+: rest ∧
      ∀ payload ∈ payloads, payload.length ≤ maxWalRecordSize := by
  fun_induction parseWalFrom rest offset lsn records with
  | case1 => cases h; exact ⟨[], by simp [numbered], by simp [frames], by simp [frames], by simp⟩
  | case2 => cases h
  | case3 => cases h
  | case4 => cases h
  | case5 => cases h; exact ⟨[], by simp [numbered], by simp [frames], by simp [frames], by simp⟩
  | case6 => cases h
  | case7 => cases h
  | case8 rest offset lsn records hlong hmagic hlimit hoverflow hwhole hlsn hnext stop ih =>
    obtain ⟨payloads, hrecords, hvalid, hinit, hsizes⟩ := ih h
    have hframe := frame_of_header (not_not.mp hmagic) (not_not.mp hlsn) (Nat.le_of_not_lt hwhole)
    refine ⟨slice rest walHeaderSize stop :: payloads, ?_, ?_, ?_, ?_⟩
    · simpa [numbered] using hrecords
    · rw [hvalid, frames, length_append, hframe, length_take,
        Nat.min_eq_left (Nat.le_of_not_lt hwhole)]
      omega
    · rw [frames, hframe]
      obtain ⟨suffix, hsuffix⟩ := hinit
      exact ⟨suffix, by rw [append_assoc, hsuffix, take_append_drop]⟩
    · intro payload hpayload
      rcases mem_cons.mp hpayload with rfl | hpayload
      · rw [slice_length (Nat.le_of_not_lt hwhole)]
        omega
      · exact hsizes payload hpayload

end TxBase.Transaction
