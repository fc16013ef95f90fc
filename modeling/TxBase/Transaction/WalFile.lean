import TxBase.Transaction.WalFraming

/-! An open log file under faults.  `Represents` ties the file's bytes to the
in-memory records; one append either keeps the file at a frame boundary or
leaves a torn frame behind, and only the former can be appended to safely. -/
namespace TxBase.Transaction
open Lib List

/-- The log holds `payloads`, and `tail` is what a failed append left after them. -/
structure Represents (wal : FileWal) (payloads : List Bytes) (tail : Bytes) : Prop where
  file : wal.file = frames 0 payloads ++ tail
  records : wal.records = numbered 0 payloads
  lastLsn : wal.lastLsn = if payloads.length = 0 then none else some (payloads.length - 1)
  sizes : ∀ payload ∈ payloads, payload.length ≤ maxWalRecordSize
  torn : Torn payloads.length tail

variable {payloads : List Bytes} {tail : Bytes} {wal : FileWal}

theorem Represents.payloads_eq (h : Represents wal payloads tail) : wal.payloads = payloads := by
  rw [FileWal.payloads, h.records, numbered_payloads]

theorem open_frames_torn (hsize : ∀ payload ∈ payloads, payload.length ≤ maxWalRecordSize)
    (hfit : (frames 0 payloads).length ≤ maxLength) (htail : Torn payloads.length tail) :
    ∃ wal, FileWal.open (frames 0 payloads ++ tail) = .ok wal ∧ Represents wal payloads [] := by
  refine ⟨⟨frames 0 payloads, numbered 0 payloads, (numbered 0 payloads).getLast?.map Prod.fst⟩,
    ?_, ⟨?_, rfl, numbered_getLast payloads, hsize, .inl rfl⟩⟩
  · unfold FileWal.open
    rw [parseWal_frames_torn hsize hfit htail]
    simp only [bind, Except.bind, length_append, take_left]
    split
    · rfl
    · rw [eq_nil_of_length_eq_zero (show tail.length = 0 by omega), append_nil]
  · simp

theorem open_represents {bytes : Bytes} (h : FileWal.open bytes = .ok wal) :
    Represents wal wal.payloads [] := by
  unfold FileWal.open at h
  cases hparse : parseWal bytes with
  | error error => simp [hparse, bind, Except.bind] at h
  | ok parsed =>
    obtain ⟨payloads, hrecords, hvalid, ⟨suffix, hsuffix⟩, hsizes⟩ := parseWalFrom_sound hparse
    simp only [nil_append, Nat.zero_add] at hrecords hvalid
    simp only [hparse, bind, Except.bind, Except.ok.injEq] at h
    subst h
    have hpayloads : (numbered 0 payloads).map Prod.snd = payloads := numbered_payloads 0 payloads
    simp only [FileWal.payloads, hrecords, hpayloads]
    refine ⟨?_, rfl, numbered_getLast payloads, hsizes, .inl rfl⟩
    -- Truncation, when it happens, is exactly to the end of the last frame.
    rw [hvalid, ← hsuffix, take_left, append_nil, length_append]
    split
    · rfl
    · have hempty : suffix = [] := eq_nil_of_length_eq_zero (by omega)
      simp [hempty]

theorem nextLsn_represents (h : Represents wal payloads tail) (hcount : payloads.length < u64Size) :
    nextLsn wal.lastLsn = .ok payloads.length := by
  rw [h.lastLsn]
  by_cases hzero : payloads.length = 0
  · simp [hzero, nextLsn]
  · have hsum : payloads.length - 1 + 1 = payloads.length := by omega
    simp [hzero, nextLsn, checkedAdd, hsum, hcount]

theorem append_of_lsn {record : Bytes} {lsn : Nat} (room : Option Nat)
    (hsize : record.length ≤ maxWalRecordSize)
    (hlsn : nextLsn wal.lastLsn = .ok lsn) :
    wal.append record room =
      if fits room (frame lsn record).length then
        (⟨wal.file ++ frame lsn record, wal.records ++ [(lsn, record)], some lsn⟩, .ok lsn)
      else
        ({ wal with file := wal.file ++ (frame lsn record).take (room.getD 0) },
          .error (.io "write failed")) := by
  have hu32 : ¬ u32Size ≤ record.length := by
    have hsmall : maxWalRecordSize < u32Size := by decide
    omega
  have hvalid : validateRecordSize record = .ok () := by
    unfold validateRecordSize
    rw [if_neg (by omega)]
  unfold FileWal.append
  rw [hvalid, hlsn]
  simp only [hu32, if_false]
  cases room with
  | none => simp [writeAll, fits, frame]
  | some room =>
    simp only [writeAll, fits, frame_length, frameHeader_length, Option.getD_some, Option.map_some,
      decide_eq_true_eq]
    by_cases hheader : walHeaderSize ≤ room
    · by_cases hrecord : record.length ≤ room - walHeaderSize
      · have hframe : walHeaderSize + record.length ≤ room := by omega
        simp [hheader, hrecord, hframe, frame]
      · have hframe : ¬ walHeaderSize + record.length ≤ room := by omega
        have htake : (frameHeader record.length lsn ++ record).take room =
            frameHeader record.length lsn ++ record.take (room - walHeaderSize) := by
          rw [take_append, frameHeader_length,
            take_of_length_le (by rw [frameHeader_length]; exact hheader)]
        simp [hheader, hrecord, hframe, frame, htake]
    · have hframe : ¬ walHeaderSize + record.length ≤ room := by omega
      have htake : (frameHeader record.length lsn ++ record).take room =
          (frameHeader record.length lsn).take room :=
        take_append_of_le_length (by rw [frameHeader_length]; omega)
      simp [hheader, hframe, frame, htake]

/-- What one append does at a frame boundary: it is refused, it adds the record,
or it fails and leaves a strict prefix of the record's frame. -/
theorem append_cases (record : Bytes) (room : Option Nat) (h : Represents wal payloads []) :
    (∃ error, wal.append record room = (wal, .error error)) ∨
    (∃ next, wal.append record room = (next, .ok payloads.length) ∧
      Represents next (payloads ++ [record]) []) ∨
    (∃ next tail error, wal.append record room = (next, .error error) ∧
      Represents next payloads tail) := by
  by_cases hlimit : record.length ≤ maxWalRecordSize
  · by_cases hcount : payloads.length < u64Size
    · rw [append_of_lsn room hlimit (nextLsn_represents h hcount)]
      split
      · refine .inr (.inl ⟨_, rfl, ?_, ?_, ?_, ?_, .inl rfl⟩)
        · simp [h.file, frames_append, frames]
        · simp [h.records, numbered_append, numbered]
        · simp
        · intro payload hpayload
          rcases mem_append.mp hpayload with hold | hnew
          · exact h.sizes payload hold
          · rwa [mem_singleton.mp hnew]
      · rename_i hroom
        obtain ⟨room, rfl⟩ : ∃ value, room = some value := by
          cases room with
          | none => simp [fits] at hroom
          | some room => exact ⟨room, rfl⟩
        simp only [fits, decide_eq_true_eq] at hroom
        refine .inr (.inr ⟨_, (frame payloads.length record).take room, _, rfl, ?_, h.records,
          h.lastLsn, h.sizes, .inr ⟨record, hlimit, take_prefix _ _, ?_⟩⟩)
        · simp [h.file]
        · rw [length_take]
          omega
    · refine .inl ⟨.invalid "WAL LSN overflows", ?_⟩
      have hpos : payloads.length ≠ 0 := by
        have hone : 0 < u64Size := by decide
        omega
      have hsum : ¬ payloads.length - 1 + 1 < u64Size := by omega
      simp [FileWal.append, validateRecordSize, Nat.not_lt.mpr hlimit, h.lastLsn, hpos, nextLsn,
        checkedAdd, hsum]
  · refine .inl ⟨.invalid "WAL record exceeds the configured size limit", ?_⟩
    simp [FileWal.append, validateRecordSize, Nat.lt_of_not_le hlimit]

/-- One call of `append` and the fault of the device during it. -/
structure AppendCall where
  record : Bytes
  room : Option Nat

/-- A sequence of appends on one open log, with the payloads whose append
returned `Ok`, in order. -/
def FileWal.run (wal : FileWal) : List AppendCall → FileWal × List Bytes
  | [] => (wal, [])
  | call :: rest =>
      match wal.append call.record call.room with
      | (next, .ok _) =>
          let (last, accepted) := next.run rest
          (last, call.record :: accepted)
      | (next, .error _) => next.run rest

/-- Every call finds the file ending where its last record ends, that is, no
earlier call failed with some of its bytes written. -/
def FileWal.AtBoundaries (wal : FileWal) : List AppendCall → Prop
  | [] => True
  | call :: rest =>
      wal.file.length = frameEnd wal.payloads wal.payloads.length ∧
        (wal.append call.record call.room).1.AtBoundaries rest

theorem Represents.tail_nil (h : Represents wal payloads tail)
    (hend : wal.file.length = frameEnd wal.payloads wal.payloads.length) : tail = [] := by
  rw [h.payloads_eq, h.file, length_append, frames_length] at hend
  exact eq_nil_of_length_eq_zero (by omega)

/-- A run whose calls all start at a boundary ends with the accepted payloads and
at most one torn frame. -/
theorem run_represents (calls : List AppendCall) (h : Represents wal payloads tail)
    (hcalls : wal.AtBoundaries calls) :
    ∃ tail, Represents (wal.run calls).1 (payloads ++ (wal.run calls).2) tail := by
  induction calls generalizing wal payloads tail with
  | nil => exact ⟨tail, by simpa [FileWal.run] using h⟩
  | cons call rest ih =>
    obtain ⟨hend, hrest⟩ := hcalls
    rw [h.tail_nil hend] at h
    unfold FileWal.run
    rcases append_cases call.record call.room h with
      ⟨error, heq⟩ | ⟨next, heq, hnext⟩ | ⟨next, torn, error, heq, hnext⟩
    · rw [heq] at hrest ⊢
      exact ih h hrest
    · rw [heq] at hrest ⊢
      obtain ⟨torn, hlast⟩ := ih hnext hrest
      exact ⟨torn, by simpa using hlast⟩
    · rw [heq] at hrest ⊢
      exact ih hnext hrest

def faultless (payloads : List Bytes) : List AppendCall :=
  payloads.map fun payload => ⟨payload, none⟩

theorem run_faultless (more : List Bytes) (h : Represents wal payloads [])
    (hsize : ∀ payload ∈ more, payload.length ≤ maxWalRecordSize)
    (hcount : payloads.length + more.length ≤ u64Size) :
    Represents (wal.run (faultless more)).1 (payloads ++ more) [] ∧
      (wal.run (faultless more)).2 = more := by
  induction more generalizing wal payloads with
  | nil => exact ⟨by simpa [faultless, FileWal.run] using h, rfl⟩
  | cons record rest ih =>
    simp only [length_cons] at hcount
    have happend := append_of_lsn none (hsize record (by simp))
      (nextLsn_represents h (by omega))
    simp only [fits, if_true] at happend
    have hnext : Represents (wal.append record none).1 (payloads ++ [record]) [] := by
      rcases append_cases record none h with
        ⟨error, heq⟩ | ⟨next, heq, hnext⟩ | ⟨next, tail, error, heq, -⟩
      · simp [heq] at happend
      · rwa [heq]
      · simp [heq] at happend
    rw [happend] at hnext
    obtain ⟨hlast, haccepted⟩ := ih hnext (fun payload hp => hsize payload (by simp [hp]))
      (by simp only [length_append, length_singleton]; omega)
    simp only [faultless, map_cons, FileWal.run, happend] at hlast haccepted ⊢
    exact ⟨by simpa using hlast, by rw [haccepted]⟩

theorem encodeRecordsFrom_eq (payloads : List Bytes) (index : Nat) (bytes : Bytes)
    (hsize : ∀ payload ∈ payloads, payload.length ≤ maxWalRecordSize)
    (hcount : index + payloads.length ≤ u64Size) :
    encodeRecordsFrom index bytes payloads = .ok (bytes ++ frames index payloads) := by
  induction payloads generalizing index bytes with
  | nil => simp [encodeRecordsFrom, frames]
  | cons record rest ih =>
    have hrecord := hsize record (by simp)
    have hu32 : ¬ u32Size ≤ record.length := by
      have hsmall : maxWalRecordSize < u32Size := by decide
      omega
    simp only [length_cons] at hcount
    have hindex : ¬ u64Size ≤ index := by omega
    simp only [encodeRecordsFrom, validateRecordSize, Nat.not_lt.mpr hrecord, hu32, hindex,
      if_false, bind, Except.bind]
    rw [ih _ _ (fun payload hp => hsize payload (by simp [hp])) (by omega), frames,
      append_assoc]

private theorem count_le_of_fit (hfit : (frames 0 payloads).length ≤ maxLength) :
    payloads.length ≤ u64Size := by
  have hcount := length_le_frames 0 payloads
  have hlimit : maxLength < u64Size := by decide
  unfold walHeaderSize at hcount
  omega

theorem represents_empty : Represents ⟨[], [], none⟩ [] [] :=
  ⟨rfl, rfl, rfl, by simp, .inl rfl⟩

/-- A log of appended payloads survives every cut.  Both writers produce the same
bytes; cut at `cut`, they parse to the payloads whose frame ends by the cut, and
the reopened log takes further payloads after them. -/
theorem torn_tail (payloads more : List Bytes) (cut : Nat)
    (hsize : ∀ payload ∈ payloads, payload.length ≤ maxWalRecordSize)
    (hmore : ∀ payload ∈ more, payload.length ≤ maxWalRecordSize)
    (hfit : frameEnd payloads payloads.length ≤ maxLength)
    (hnew : frameEnd payloads (wholeFrames payloads cut) + frameEnd more more.length ≤ maxLength) :
    let bytes := (FileWal.run ⟨[], [], none⟩ (faultless payloads)).1.file
    let whole := wholeFrames payloads cut
    encodeRecords payloads = .ok bytes ∧
    parseWal (bytes.take cut) =
      .ok ⟨numbered 0 (payloads.take whole), frameEnd payloads whole⟩ ∧
    (∀ index, index < whole ↔ index < payloads.length ∧ frameEnd payloads (index + 1) ≤ cut) ∧
    ∃ wal, FileWal.open (bytes.take cut) = .ok wal ∧
      (wal.run (faultless more)).2 = more ∧
      parseWal (wal.run (faultless more)).1.file =
        .ok ⟨numbered 0 (payloads.take whole ++ more),
          (wal.run (faultless more)).1.file.length⟩ := by
  intro bytes whole
  rw [← frames_length 0] at hfit
  have hcount := count_le_of_fit hfit
  obtain ⟨hrun, -⟩ := run_faultless payloads represents_empty hsize (by simpa using hcount)
  have hbytes : bytes = frames 0 payloads := by simpa using hrun.file
  obtain ⟨tail, htorn, htake⟩ := frames_take payloads 0 cut hsize
  have hinit : (payloads.take whole).length = whole :=
    length_take_of_le (wholeFrames_le payloads cut)
  replace htorn : Torn (payloads.take whole).length tail := by
    rwa [hinit, ← Nat.zero_add whole]
  have hpart : ∀ payload ∈ payloads.take whole, payload.length ≤ maxWalRecordSize :=
    fun payload hp => hsize payload (mem_of_mem_take hp)
  rw [← frames_take_length payloads 0, ← frames_length (0 + (payloads.take whole).length),
    ← length_append, ← frames_append] at hnew
  have hold : (frames 0 (payloads.take whole)).length ≤ maxLength := by
    rw [frames_append, length_append] at hnew
    exact Nat.le_of_add_right_le hnew
  rw [hbytes, htake]
  refine ⟨?_, ?_, lt_wholeFrames_iff payloads cut, ?_⟩
  · simpa [encodeRecords] using encodeRecordsFrom_eq payloads 0 [] hsize (by omega)
  · rw [parseWal_frames_torn hpart hold htorn, frames_take_length]
  · obtain ⟨wal, hopen, hwal⟩ := open_frames_torn hpart hold htorn
    obtain ⟨hlast, haccepted⟩ := run_faultless more hwal hmore
      (by rw [← length_append]; exact count_le_of_fit hnew)
    refine ⟨wal, hopen, haccepted, ?_⟩
    rw [hlast.file, append_nil]
    simpa using parseWal_frames_torn hlast.sizes hnew (.inl rfl)

/-- Two payloads cut inside the second frame's header, then one more. -/
theorem torn_tail_second_frame :
    ∃ wal, FileWal.open ((frame 0 [0x61] ++ frame 1 [0x62]).take 25) = .ok wal ∧
      parseWal (wal.run (faultless [[0x63]])).1.file = .ok ⟨[(0, [0x61]), (1, [0x63])], 34⟩ := by
  obtain ⟨-, -, -, wal, hopen, -, hparse⟩ :=
    torn_tail [[0x61], [0x62]] [[0x63]] 25 (by decide) (by decide) (by decide) (by decide)
  refine ⟨wal, hopen, ?_⟩
  have hwal : wal = ⟨frame 0 [0x61], [(0, [0x61])], some 0⟩ := by
    have heq : FileWal.open ((frame 0 [0x61] ++ frame 1 [0x62]).take 25) =
      .ok ⟨frame 0 [0x61], [(0, [0x61])], some 0⟩ := by decide +kernel
    exact Except.ok.inj (hopen.symm.trans heq)
  subst hwal
  exact hparse

/-- Reopening after appends that each started at a frame boundary yields the
payloads whose append returned `Ok`. -/
theorem reopen_after_boundary_appends {bytes : Bytes} {wal : FileWal} (calls : List AppendCall)
    (hopen : FileWal.open bytes = .ok wal) (hcalls : wal.AtBoundaries calls)
    (hfit : (wal.run calls).1.file.length ≤ maxLength) :
    ∃ reopened, FileWal.open (wal.run calls).1.file = .ok reopened ∧
      reopened.payloads = wal.payloads ++ (wal.run calls).2 := by
  obtain ⟨tail, hlast⟩ := run_represents calls (open_represents hopen) hcalls
  rw [hlast.file, length_append] at hfit
  obtain ⟨reopened, heq, hreopened⟩ := open_frames_torn hlast.sizes (by omega) hlast.torn
  exact ⟨reopened, by rw [hlast.file, heq], hreopened.payloads_eq⟩

/-- One accepted append and one that stops after nine bytes. -/
theorem reopen_after_boundary_appends_torn :
    ∃ reopened, FileWal.open
        (FileWal.run ⟨[], [], none⟩ [⟨[0x61], none⟩, ⟨[0x62], some 9⟩]).1.file = .ok reopened ∧
      reopened.payloads = [[0x61]] := by
  have hopen : FileWal.open [] = .ok ⟨[], [], none⟩ := by decide +kernel
  exact reopen_after_boundary_appends [⟨[0x61], none⟩, ⟨[0x62], some 9⟩] hopen
    (by simp only [FileWal.AtBoundaries]; decide +kernel) (by decide +kernel)

/-- A failed append that left the four bytes of its magic makes the next append,
which succeeds, unreadable: the file cannot be opened again. -/
theorem reopen_after_debris :
    (FileWal.run ⟨[], [], none⟩ [⟨[0x61], some 4⟩, ⟨[0x62], none⟩]).2 = [[0x62]] ∧
    FileWal.open (FileWal.run ⟨[], [], none⟩ [⟨[0x61], some 4⟩, ⟨[0x62], none⟩]).1.file =
      .error (.invalid "WAL record exceeds the configured size limit") := by
  decide +kernel

end TxBase.Transaction
