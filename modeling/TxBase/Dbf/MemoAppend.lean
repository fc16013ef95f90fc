import TxBase.Dbf.Memo

/-! Appending to a memo file: the new block holds what was appended.  The blocks before it keep
their contents in the two formats that store a length; a dBASE III memo ends at a marker, and
one without a double marker of its own is read on into the appended blocks. -/
namespace TxBase.Dbf
open Lib List
variable {data bytes : Bytes} {memo after : MemoFile} {block start : Nat} {content : Option Bytes}
  {format : MemoFormat}

namespace MemoFile

section Markers
variable {left right : Bytes} {stop : Nat}

theorem doubleMarker_append_of_some (h : doubleMarker left = some stop) :
    doubleMarker (left ++ right) = some stop := by
  induction left generalizing stop with
  | nil => cases h
  | cons first rest ih =>
    cases rest with
    | nil => cases h
    | cons second rest =>
      rw [cons_append, cons_append, doubleMarker]
      rw [doubleMarker] at h
      split
      · rename_i hpair
        rw [if_pos hpair] at h
        exact h
      · rename_i hpair
        rw [if_neg hpair] at h
        obtain ⟨stop, hstop, rfl⟩ := Option.map_eq_some_iff.mp h
        rw [← cons_append, ih hstop]
        rfl

/-- Two texts without a double marker of the first: the next one is that of the second, unless
a marker ends the first and another starts the second. -/
theorem doubleMarker_append_of_none (h : doubleMarker left = none)
    (hapart : left.getLast? = some eofMarker → right.head? ≠ some eofMarker) :
    doubleMarker (left ++ right) = (doubleMarker right).map (· + left.length) := by
  induction left with
  | nil => simp
  | cons first rest ih =>
    cases rest with
    | nil =>
      cases right with
      | nil => rfl
      | cons second right =>
        have hpair : ¬ (first = eofMarker ∧ second = eofMarker) := by
          rintro ⟨rfl, rfl⟩
          exact hapart rfl rfl
        rw [singleton_append, doubleMarker, if_neg hpair]
        rfl
    | cons second rest =>
      rw [doubleMarker] at h
      split at h
      · cases h
      · rename_i hpair
        have hrest := ih (Option.map_eq_none_iff.mp h) (by simpa [getLast?_cons_cons] using hapart)
        rw [cons_append, cons_append, doubleMarker, if_neg hpair, ← cons_append, hrest,
          Option.map_map]
        congr 1

theorem doubleMarker_append_of_touching (h : doubleMarker left = none)
    (hlast : left.getLast? = some eofMarker) (hhead : right.head? = some eofMarker) :
    doubleMarker (left ++ right) = some (left.length - 1) := by
  induction left with
  | nil => cases hlast
  | cons first rest ih =>
    cases rest with
    | nil =>
      cases right with
      | nil => cases hhead
      | cons second right =>
        rw [singleton_append, doubleMarker, if_pos ⟨by simpa using hlast, by simpa using hhead⟩]
        rfl
    | cons second rest =>
      rw [doubleMarker] at h
      split at h
      · cases h
      · rename_i hpair
        rw [cons_append, cons_append, doubleMarker, if_neg hpair, ← cons_append,
          ih (Option.map_eq_none_iff.mp h) (by simpa [getLast?_cons_cons] using hlast)]
        rfl

theorem doubleMarker_le (h : doubleMarker data = some stop) : stop ≤ data.length := by
  induction data generalizing stop with
  | nil => cases h
  | cons first rest ih =>
    cases rest with
    | nil => cases h
    | cons second rest =>
      rw [doubleMarker] at h
      split at h
      · cases h
        omega
      · obtain ⟨stop, hstop, rfl⟩ := Option.map_eq_some_iff.mp h
        have hle := ih hstop
        rw [length_cons]
        omega

theorem doubleMarker_eq_none_of_notMem (h : eofMarker ∉ data) : doubleMarker data = none := by
  induction data with
  | nil => rfl
  | cons first rest ih =>
    cases rest with
    | nil => rfl
    | cons second rest =>
      rw [doubleMarker, if_neg (fun hpair => h (by simp [hpair.1])), ih (not_mem_of_not_mem_cons h)]
      rfl

theorem doubleMarker_terminated (h : breaksDbase3 data = false) (padding : Bytes) :
    doubleMarker (data ++ [eofMarker, eofMarker] ++ padding) = some data.length := by
  simp only [breaksDbase3, decide_eq_false_iff_not, not_or, Option.not_isSome_iff_eq_none] at h
  apply doubleMarker_append_of_some
  rw [doubleMarker_append_of_none h.2 (fun hlast => absurd hlast h.1)]
  simp [doubleMarker]

end Markers

/-- The zeros that bring a file to a block boundary. -/
def gap (memo : MemoFile) : Nat := memo.blocks memo.bytes.length * memo.blockSize - memo.bytes.length

theorem le_blocks (memo : MemoFile) (length : Nat) :
    length ≤ memo.blocks length * memo.blockSize := by
  have hpos := memo.blockSize_pos
  have hsplit := Nat.div_add_mod length memo.blockSize
  have hmod := Nat.mod_lt length hpos
  rw [Nat.mul_comm] at hsplit
  unfold blocks
  split
  · rw [Nat.add_mul]
    omega
  · rw [Nat.add_mul]
    omega

theorem length_add_gap (memo : MemoFile) :
    memo.bytes.length + memo.gap = memo.blocks memo.bytes.length * memo.blockSize := by
  have hle := memo.le_blocks memo.bytes.length
  unfold gap
  omega

theorem gap_eq_zero (memo : MemoFile) : memo.gap = 0 ↔ memo.bytes.length % memo.blockSize = 0 := by
  have hpos := memo.blockSize_pos
  have hsplit := Nat.div_add_mod memo.bytes.length memo.blockSize
  have hmod := Nat.mod_lt memo.bytes.length hpos
  have hgap := memo.length_add_gap
  rw [Nat.mul_comm] at hsplit
  unfold blocks at hgap
  split at hgap
  · rw [Nat.add_mul] at hgap
    omega
  · rw [Nat.add_mul, Nat.zero_mul] at hgap
    omega

/-- A file after a payload was appended at `block`. -/
structure Appended (memo : MemoFile) (payload : Bytes) (after : MemoFile) (block : Nat) : Prop where
  format : after.format = memo.format
  blockSize : after.blockSize = memo.blockSize
  place : block = memo.blocks memo.bytes.length
  numbered : block < u32Size
  long : 4 ≤ memo.bytes.length
  bytes : ∃ header padding, header.length = 4 ∧
    after.bytes = header ++ memo.bytes.drop 4 ++ List.replicate memo.gap 0 ++ (payload ++ padding)

theorem appendPayload_appended {payload : Bytes}
    (h : memo.appendPayload payload = .ok (after, block)) :
    Appended memo payload after block := by
  simp only [appendPayload, bind_eq_ok, reject_eq_ok] at h
  obtain ⟨-, hlong, -, -, -, -, -, hnumbered, h⟩ := h
  cases h
  have hlong : 4 ≤ memo.bytes.length := by omega
  refine ⟨rfl, rfl, rfl, by omega, hlong,
    if memo.format = .dbase4 then toLeBytes 4
      (memo.blocks memo.bytes.length + memo.blocks payload.length)
      else toBeBytes 4 (memo.blocks memo.bytes.length + memo.blocks payload.length),
    List.replicate (memo.blocks payload.length * memo.blockSize - payload.length)
      (if memo.format = .foxPro then 0 else 0x20), ?_, ?_⟩
  · split <;> simp [toBeBytes]
  · rw [append_assoc memo.bytes, drop_append_of_le_length hlong]
    simp only [gap, append_assoc]

namespace Appended
variable {payload : Bytes}

theorem drop_bytes (h : Appended memo payload after block) (hstart : 4 ≤ start)
    (hinside : start ≤ memo.bytes.length) :
    ∃ padding, after.bytes.drop start =
      memo.bytes.drop start ++ List.replicate memo.gap 0 ++ (payload ++ padding) := by
  obtain ⟨header, padding, hheader, hbytes⟩ := h.bytes
  refine ⟨padding, ?_⟩
  obtain ⟨more, rfl⟩ := Nat.exists_eq_add_of_le hstart
  rw [hbytes, append_assoc, append_assoc, ← hheader, drop_append, hheader,
    drop_append_of_le_length (by rw [length_drop]; omega), drop_drop,
    drop_eq_nil_of_le (by omega), Nat.add_sub_cancel_left, nil_append, append_assoc]

theorem drop_block (h : Appended memo payload after block) :
    ∃ padding, after.bytes.drop (block * after.blockSize) = payload ++ padding := by
  obtain ⟨header, padding, hheader, hbytes⟩ := h.bytes
  refine ⟨padding, ?_⟩
  have hlength : (header ++ memo.bytes.drop 4 ++ List.replicate memo.gap 0).length =
      block * after.blockSize := by
    have hgap := memo.length_add_gap
    have hlong := h.long
    rw [h.blockSize, h.place]
    simp only [length_append, length_drop, length_replicate, hheader]
    omega
  rw [hbytes, ← hlength, drop_left]

end Appended

section Sized
variable {length : Bytes → Checked Nat}

theorem slice_drop (bytes : Bytes) (start first last : Nat) :
    slice (bytes.drop start) first last = slice bytes (start + first) (start + last) := by
  unfold slice
  rw [drop_drop, Nat.add_sub_add_left]

theorem readSized_eq_ok (hinside : start < memo.bytes.length) :
    memo.readSized start length = .ok content ↔
      ∃ count, start + 8 + count < u64Size ∧ 8 + count ≤ (memo.bytes.drop start).length ∧
        length (slice (memo.bytes.drop start) 4 8) = .ok count ∧
        content = some (slice (memo.bytes.drop start) 8 (8 + count)) := by
  simp only [readSized, bind_eq_ok, reject_eq_ok, slice_drop, length_drop, Except.ok.injEq]
  constructor
  · rintro ⟨-, hfirst, -, hheader, count, hcount, -, hlast, -, hdata, hcontent⟩
    exact ⟨count, by omega, by omega, hcount, by rw [← hcontent, Nat.add_assoc]⟩
  · rintro ⟨count, hlast, hdata, hcount, hcontent⟩
    exact ⟨⟨⟩, by omega, ⟨⟩, by omega, count, hcount, ⟨⟩, by omega, ⟨⟩, by omega,
      by rw [hcontent, Nat.add_assoc]⟩

end Sized

/-- What an opened file says about its blocks. -/
structure Sized (memo : MemoFile) : Prop where
  header : 8 ≤ memo.blockSize
  whole : memo.blockSize ≤ memo.bytes.length
  small : memo.blockSize < 2 ^ 16

theorem fromBytes_sized (h : fromBytes bytes format = .ok memo) : Sized memo := by
  have htwo : ∀ first last, last - first ≤ 2 → fromLeBytes (slice bytes first last) < 2 ^ 16 := by
    intro first last hwidth
    have hlength : (slice bytes first last).length ≤ 2 :=
      (length_take_le _ _).trans hwidth
    exact lt_of_lt_of_le (fromLeBytes_lt _) (Nat.pow_le_pow_right (by decide) hlength)
  unfold fromBytes at h
  cases format with
  | foxPro =>
    have hsmall : fromBeBytes (slice bytes 6 8) < 2 ^ 16 := by
      have hlength : (slice bytes 6 8).reverse.length ≤ 2 := by
        rw [length_reverse]
        exact length_take_le _ _
      exact lt_of_lt_of_le (fromLeBytes_lt _) (Nat.pow_le_pow_right (by decide) hlength)
    dsimp only at h
    split at h
    · cases h
    · split at h
      · cases h
      · cases h
        exact ⟨by dsimp only; omega, by dsimp only; omega, hsmall⟩
  | dbase3 =>
    dsimp only at h
    split at h
    · cases h
    · cases h
      unfold dbtBlockSize at *
      exact ⟨by dsimp only; omega, by dsimp only; omega, by dsimp only; omega⟩
  | dbase4 =>
    have hsmall : dbase4BlockSize bytes < 2 ^ 16 := by
      dsimp only [dbase4BlockSize]
      split
      · decide
      · exact htwo 20 22 (by decide)
    dsimp only at h
    split at h
    · cases h
    · split at h
      · cases h
      · cases h
        refine ⟨?_, by dsimp only; omega, hsmall⟩
        unfold dbtBlockSize at *
        dsimp only
        omega

/-- What the data at an offset holds, in the format of its file. -/
def Holds (format : MemoFormat) (start : Nat) (data : Bytes) (content : Option Bytes) : Prop :=
  match format with
  | .dbase3 => content = some (data.take (dbase3End data))
  | .dbase4 => ∃ count, start + 8 + count < u64Size ∧ 8 + count ≤ data.length ∧
      fromLeBytes (slice data 4 8) = count + 8 ∧ content = some (slice data 8 (8 + count))
  | .foxPro => ∃ count, start + 8 + count < u64Size ∧ 8 + count ≤ data.length ∧
      fromBeBytes (slice data 4 8) = count ∧ content = some (slice data 8 (8 + count))

theorem read_eq_ok (hblock : block ≠ 0) :
    memo.read block = .ok content ↔ block * memo.blockSize < u64Size ∧
      block * memo.blockSize < memo.bytes.length ∧
      Holds memo.format (block * memo.blockSize)
        (memo.bytes.drop (block * memo.blockSize)) content := by
  unfold read
  simp only [if_neg hblock]
  split
  · exact ⟨nofun, fun h => by omega⟩
  split
  · exact ⟨nofun, fun h => by omega⟩
  have hinside : block * memo.blockSize < memo.bytes.length := by omega
  simp only [show block * memo.blockSize < u64Size by omega, hinside, true_and]
  cases hformat : memo.format with
  | dbase3 =>
    show Except.ok _ = Except.ok content ↔ content = _
    rw [Except.ok.injEq, eq_comm]
  | dbase4 =>
    rw [readSized_eq_ok hinside]
    refine exists_congr fun count => and_congr_right fun _ => and_congr_right fun _ =>
      and_congr_left fun _ => ?_
    split
    · exact ⟨nofun, fun h => by omega⟩
    · rw [Except.ok.injEq]
      omega
  | foxPro =>
    rw [readSized_eq_ok hinside]
    simp only [Except.ok.injEq]
    rfl

/-- The text or the binary data `data` was appended. -/
def Appends (memo : MemoFile) (data : Bytes) (after : MemoFile) (block : Nat) : Prop :=
  memo.appendText data = .ok (after, block) ∨ memo.appendBinary data = .ok (after, block)

/-- How a format stores data. -/
def Stores (format : MemoFormat) (data payload : Bytes) : Prop :=
  match format with
  | .dbase3 => breaksDbase3 data = false ∧ payload = data ++ [eofMarker, eofMarker]
  | .dbase4 => data.length + 8 < u32Size ∧ ∃ kind : Bytes, kind.length = 4 ∧
      payload = kind ++ toLeBytes 4 (data.length + 8) ++ data
  | .foxPro => data.length < u32Size ∧ ∃ kind : Bytes, kind.length = 4 ∧
      payload = kind ++ toBeBytes 4 data.length ++ data

theorem breaksDbase3_of_notMem (h : eofMarker ∉ data) : breaksDbase3 data = false := by
  simp only [breaksDbase3, doubleMarker_eq_none_of_notMem h, decide_eq_false_iff_not, not_or]
  exact ⟨fun hlast => h (mem_of_getLast? hlast), by simp⟩

theorem Appends.payload (h : Appends memo data after block) :
    ∃ payload, Stores memo.format data payload ∧ Appended memo payload after block := by
  unfold Stores
  rcases h with h | h
  · unfold appendText invalid at h
    cases hformat : memo.format with
    | dbase3 =>
      simp only [hformat] at h
      split at h
      · cases h
      · rename_i hmarker
        exact ⟨_, ⟨breaksDbase3_of_notMem (by simpa using hmarker), rfl⟩, appendPayload_appended h⟩
    | dbase4 | foxPro =>
      simp only [hformat] at h
      split at h
      · cases h
      · exact ⟨_, ⟨by omega, _, rfl, rfl⟩, appendPayload_appended h⟩
  · unfold appendBinary invalid at h
    split at h
    · cases h
    cases hformat : memo.format with
    | dbase3 =>
      simp only [hformat] at h
      split at h
      · cases h
      · rename_i hbreaks
        exact ⟨_, ⟨by simpa using hbreaks, rfl⟩, appendPayload_appended h⟩
    | dbase4 =>
      simp only [hformat] at h
      split at h
      · cases h
      · exact ⟨_, ⟨by omega, _, rfl, rfl⟩, appendPayload_appended h⟩
    | foxPro =>
      simp only [hformat] at h
      exact ⟨_, ⟨by omega, _, rfl, rfl⟩, appendPayload_appended h⟩

theorem dbase3End_of_some {stop : Nat} (h : doubleMarker data = some stop) :
    dbase3End data = stop := by
  unfold dbase3End
  rw [h]

theorem dbase3End_terminated (h : breaksDbase3 data = false) (padding : Bytes) :
    dbase3End (data ++ [eofMarker, eofMarker] ++ padding) = data.length :=
  dbase3End_of_some (doubleMarker_terminated h padding)

theorem Stores.holds {payload : Bytes} (h : Stores format data payload)
    (hstart : start + 2 ^ 33 ≤ u64Size)
    (padding : Bytes) :
    Holds format start (payload ++ padding) (some data) := by
  cases format with
  | dbase3 =>
    obtain ⟨hbreaks, rfl⟩ := h
    show some data = some _
    rw [dbase3End_terminated hbreaks, append_assoc, take_left]
  | dbase4 =>
    obtain ⟨hlength, kind, hkind, rfl⟩ := h
    have hfield : slice (kind ++ toLeBytes 4 (data.length + 8) ++ data ++ padding) 4 8 =
        toLeBytes 4 (data.length + 8) :=
      slice_of_eq kind (by rw [append_assoc, append_assoc]) hkind (by simp)
    have hdata : slice (kind ++ toLeBytes 4 (data.length + 8) ++ data ++ padding) 8
        (8 + data.length) = data :=
      slice_of_eq (kind ++ toLeBytes 4 (data.length + 8)) (append_assoc _ _ _)
        (by simp [hkind]) rfl
    unfold u32Size at hlength
    refine ⟨data.length, by omega, by simp [hkind]; omega, ?_, by rw [hdata]⟩
    rw [hfield, fromLeBytes_toLeBytes (by omega)]
  | foxPro =>
    obtain ⟨hlength, kind, hkind, rfl⟩ := h
    have hfield : slice (kind ++ toBeBytes 4 data.length ++ data ++ padding) 4 8 =
        toBeBytes 4 data.length :=
      slice_of_eq kind (by rw [append_assoc, append_assoc]) hkind (by simp [toBeBytes])
    have hdata : slice (kind ++ toBeBytes 4 data.length ++ data ++ padding) 8
        (8 + data.length) = data :=
      slice_of_eq (kind ++ toBeBytes 4 data.length) (append_assoc _ _ _)
        (by simp [hkind, toBeBytes]) rfl
    unfold u32Size at hlength
    refine ⟨data.length, by omega, by simp [hkind, toBeBytes]; omega, ?_, by rw [hdata]⟩
    rw [hfield, fromBeBytes, toBeBytes, reverse_reverse, fromLeBytes_toLeBytes (by omega)]

theorem Holds.append (hformat : format ≠ .dbase3) (h : Holds format start data content)
    (more : Bytes) :
    Holds format start (data ++ more) content := by
  cases format with
  | dbase3 => exact absurd rfl hformat
  | dbase4 | foxPro =>
    obtain ⟨count, hlast, hlength, hcount, rfl⟩ := h
    refine ⟨count, hlast, by rw [length_append]; omega, ?_, ?_⟩
    · rw [slice_append_left (by omega), hcount]
    · rw [slice_append_left hlength]

/-- A marker with nothing but padding behind it: `dbase3End` stops there when no double marker
follows. -/
def paddedAfterMarker (data : Bytes) : Bool :=
  (data.findIdx? (· = eofMarker)).any fun index =>
    (data.drop (index + 1)).all fun byte => byte = 0 ∨ byte = 0x20 ∨ byte = eofMarker

/-- Whether a dBASE III memo still ends where it did after `data` was appended to its file: it has
a double marker; or the file is a whole number of blocks, and the markers of the appended block
happen to end the memo in the same place. -/
def endsBefore (memo : MemoFile) (data old : Bytes) : Bool :=
  (doubleMarker old).isSome ||
    (decide (memo.bytes.length % memo.blockSize = 0) &&
      if old.getLast? = some eofMarker then
        data.head?.all (· = eofMarker) && decide
          (old.findIdx? (· = eofMarker) = some (old.length - 1))
      else data.isEmpty && !paddedAfterMarker old)

variable {old : Bytes}

theorem dbase3End_of_none (h : doubleMarker old = none) :
    dbase3End old = if paddedAfterMarker old then (old.findIdx? (· = eofMarker)).getD 0
      else old.length := by
  unfold dbase3End paddedAfterMarker
  rw [h]
  cases old.findIdx? (· = eofMarker) with
  | none => rfl
  | some index => rfl

theorem dbase3End_le (data : Bytes) : dbase3End data ≤ data.length := by
  unfold dbase3End
  split
  · rename_i stop hstop
    exact doubleMarker_le hstop
  · split
    · exact le_rfl
    · rename_i index hindex
      have hlt := (findIdx?_eq_some_iff_findIdx_eq.mp hindex).1
      split
      · omega
      · exact le_rfl

section
variable (hnone : doubleMarker old = none)
include hnone

theorem doubleMarker_extended (hbreaks : breaksDbase3 data = false) (count : Nat)
    (padding : Bytes) :
    doubleMarker (old ++ List.replicate count 0 ++ (data ++ [eofMarker, eofMarker] ++ padding)) =
      some (if count = 0 ∧ old.getLast? = some eofMarker ∧
        data.head?.all (· = eofMarker) then old.length - 1
        else old.length + count + data.length) := by
  have hhead : (data ++ [eofMarker, eofMarker] ++ padding).head? = some eofMarker ↔
      data.head?.all (· = eofMarker) = true := by
    cases data with
    | nil => simp
    | cons first rest => simp
  cases count with
  | zero =>
    rw [replicate_zero, append_nil]
    split
    · rename_i htouching
      exact doubleMarker_append_of_touching hnone htouching.2.1 (hhead.mpr htouching.2.2)
    · rename_i hapart
      rw [doubleMarker_append_of_none hnone
        (fun hlast hfirst => hapart ⟨rfl, hlast, hhead.mp hfirst⟩),
        doubleMarker_terminated hbreaks, Option.map_some, Nat.add_zero, Nat.add_comm]
  | succ count =>
    have hzero : (0 : UInt8) ≠ eofMarker := by decide
    have hzeros : doubleMarker (List.replicate (count + 1) 0) = none :=
      doubleMarker_eq_none_of_notMem (fun hmem => hzero (eq_of_mem_replicate hmem).symm)
    have hgap : doubleMarker (old ++ List.replicate (count + 1) 0) = none := by
      rw [doubleMarker_append_of_none hnone (by simp [replicate_succ, hzero]), hzeros]
      rfl
    have hlast : (old ++ List.replicate (count + 1) 0).getLast? ≠ some eofMarker := by
      rw [replicate_succ', ← append_assoc, getLast?_concat]
      exact fun heq => hzero (Option.some.inj heq)
    rw [if_neg (by simp), doubleMarker_append_of_none hgap (fun h => absurd h hlast),
      doubleMarker_terminated hbreaks]
    simp only [Option.map_some, length_append, length_replicate, Option.some.injEq]
    omega

theorem dbase3End_of_last (hlast : old.getLast? = some eofMarker) :
    dbase3End old = old.length - 1 ↔ old.findIdx? (· = eofMarker) = some (old.length - 1) := by
  rw [dbase3End_of_none hnone]
  obtain ⟨index, hindex⟩ : ∃ index, old.findIdx? (· = eofMarker) = some index := by
    rw [← Option.isSome_iff_exists, findIdx?_isSome, any_eq_true]
    exact ⟨eofMarker, mem_of_getLast? hlast, by simp⟩
  have hlt := (findIdx?_eq_some_iff_findIdx_eq.mp hindex).1
  rw [hindex, Option.some.injEq, Option.getD_some]
  split
  · rfl
  · rename_i hpadded
    refine ⟨fun h => by omega, fun h => absurd ?_ hpadded⟩
    unfold paddedAfterMarker
    rw [hindex, Option.any_some, drop_eq_nil_of_le (by omega)]
    rfl

theorem dbase3End_eq_length :
    dbase3End old = old.length ↔ paddedAfterMarker old = false := by
  rw [dbase3End_of_none hnone]
  split
  · rename_i hpadded
    have hpadded' := hpadded
    unfold paddedAfterMarker at hpadded'
    obtain ⟨index, hindex, -⟩ := (Option.any_eq_true _ _).mp hpadded'
    have hlt := (findIdx?_eq_some_iff_findIdx_eq.mp hindex).1
    rw [hindex, Option.getD_some, hpadded]
    exact ⟨fun h => by omega, fun h => by cases h⟩
  · rename_i hpadded
    simpa using hpadded

end

/-- A memo of a dBASE III file reads the same after an append exactly when it still ends where
it did. -/
theorem dbase3End_extended (hbreaks : breaksDbase3 data = false) (padding : Bytes) :
    dbase3End (old ++ List.replicate memo.gap 0 ++ (data ++ [eofMarker, eofMarker] ++ padding)) =
        dbase3End old ↔ endsBefore memo data old = true := by
  unfold endsBefore
  cases hold : doubleMarker old with
  | some stop =>
    have hnew : doubleMarker (old ++ List.replicate memo.gap 0 ++
      (data ++ [eofMarker, eofMarker] ++ padding)) =
        some stop := by
      rw [List.append_assoc]
      exact doubleMarker_append_of_some hold
    rw [dbase3End_of_some hold, dbase3End_of_some hnew]
    simp
  | none =>
    have hle := dbase3End_le old
    have hnew := doubleMarker_extended hold hbreaks memo.gap padding
    rw [dbase3End_of_some hnew]
    simp only [Option.isSome_none, Bool.false_or, Bool.and_eq_true, decide_eq_true_eq,
      ← memo.gap_eq_zero]
    by_cases hlast : old.getLast? = some eofMarker
    · simp only [hlast, true_and, if_true, Bool.and_eq_true, decide_eq_true_eq]
      split
      · rename_i htouching
        rw [eq_comm, dbase3End_of_last hold hlast]
        tauto
      · rename_i hapart
        refine ⟨fun h => absurd ?_ hapart, fun h => absurd ⟨h.1, h.2.1⟩ hapart⟩
        have hnil : data = [] := List.eq_nil_of_length_eq_zero (by omega)
        exact ⟨by omega, by rw [hnil]; rfl⟩
    · simp only [hlast, false_and, and_false, if_false, Bool.and_eq_true, Bool.not_eq_true',
        List.isEmpty_iff]
      rw [← dbase3End_eq_length hold]
      constructor
      · intro h
        exact ⟨by omega, List.eq_nil_of_length_eq_zero (by omega), by omega⟩
      · rintro ⟨hgap, rfl, hend⟩
        rw [hgap, hend]
        rfl

section Reads
theorem read_appended (hmemo : Sized memo) (h : Appends memo data after block) :
    after.read block = .ok (some data) := by
  obtain ⟨payload, hstores, happended⟩ := h.payload
  obtain ⟨padding, hdrop⟩ := happended.drop_block
  have hblock : block ≠ 0 := by
    rw [happended.place, blocks]
    have hone := Nat.div_pos hmemo.whole memo.blockSize_pos
    omega
  have hoffset : block * after.blockSize < 2 ^ 48 := by
    rw [happended.blockSize]
    calc block * memo.blockSize < u32Size * 2 ^ 16 := Nat.mul_lt_mul'' happended.numbered hmemo.small
      _ = 2 ^ 48 := by decide
  have hsome : payload ++ padding ≠ [] := by
    cases format : memo.format with
    | dbase3 =>
      rw [format] at hstores
      rw [hstores.2]
      simp
    | dbase4 =>
      rw [format] at hstores
      obtain ⟨-, kind, -, rfl⟩ := hstores
      simp [toLeBytes]
    | foxPro =>
      rw [format] at hstores
      obtain ⟨-, kind, -, rfl⟩ := hstores
      simp [toBeBytes, toLeBytes]
  rw [read_eq_ok hblock, hdrop, happended.format]
  refine ⟨lt_trans hoffset (by decide), ?_, hstores.holds (by unfold u64Size; omega) padding⟩
  by_contra hinside
  rw [drop_eq_nil_of_le (by omega)] at hdrop
  exact hsome hdrop.symm

variable {old : Nat}

theorem read_before (hmemo : Sized memo) {payload : Bytes} (h : Appended memo payload after block)
    (hold : old ≠ 0)
    (hinside : old * memo.blockSize < memo.bytes.length) :
    ∃ padding, after.bytes.drop (old * after.blockSize) =
        memo.bytes.drop (old * memo.blockSize) ++ List.replicate memo.gap 0 ++ (payload ++ padding) ∧
      old * after.blockSize < after.bytes.length := by
  have hlow : 4 ≤ old * memo.blockSize := by
    have hheader := hmemo.header
    exact le_trans (by omega) (Nat.le_mul_of_pos_left memo.blockSize (by omega))
  obtain ⟨padding, hdrop⟩ := h.drop_bytes hlow hinside.le
  refine ⟨padding, by rw [h.blockSize, hdrop], ?_⟩
  by_contra hoff
  have hlength := congrArg List.length hdrop
  rw [h.blockSize] at hoff
  simp only [length_append, length_drop] at hlength
  omega

theorem read_kept (hmemo : Sized memo) (hformat : memo.format ≠ .dbase3)
    (h : Appends memo data after block)
    (hread : memo.read old = .ok content) :
    after.read old = .ok content := by
  obtain ⟨payload, -, happended⟩ := h.payload
  by_cases hold : old = 0
  · subst hold
    exact hread
  · obtain ⟨hoffset, hinside, hholds⟩ := (read_eq_ok hold).mp hread
    obtain ⟨padding, hdrop, hafter⟩ := read_before hmemo happended hold hinside
    rw [read_eq_ok hold, hdrop, happended.format, append_assoc, happended.blockSize]
    exact ⟨hoffset, happended.blockSize ▸ hafter, hholds.append hformat _⟩

theorem read_dbase3_kept_iff (hmemo : Sized memo) (hformat : memo.format = .dbase3)
    (h : Appends memo data after block) (hold : old ≠ 0)
    (hinside : old * memo.blockSize < memo.bytes.length)
    (hoffset : old * memo.blockSize < u64Size) :
    after.read old = memo.read old ↔
      endsBefore memo data (memo.bytes.drop (old * memo.blockSize)) = true := by
  obtain ⟨payload, hstores, happended⟩ := h.payload
  rw [hformat] at hstores
  obtain ⟨hbreaks, rfl⟩ := hstores
  obtain ⟨padding, hdrop, hafter⟩ := read_before hmemo happended hold hinside
  have hbefore : memo.read old = .ok (some ((memo.bytes.drop (old * memo.blockSize)).take
      (dbase3End (memo.bytes.drop (old * memo.blockSize))))) := by
    rw [read_eq_ok hold, hformat]
    exact ⟨hoffset, hinside, rfl⟩
  rw [hbefore, read_eq_ok hold, hdrop, happended.format, hformat, happended.blockSize,
    ← dbase3End_extended hbreaks padding]
  generalize memo.bytes.drop (old * memo.blockSize) = text
  have hle := dbase3End_le text
  constructor
  · rintro ⟨-, -, hholds⟩
    have hlength := congrArg List.length (Option.some.inj hholds)
    rw [length_take_of_le hle, length_take_of_le (dbase3End_le _)] at hlength
    exact hlength.symm
  · intro hend
    refine ⟨hoffset, happended.blockSize ▸ hafter, ?_⟩
    show some _ = some _
    rw [hend, append_assoc, take_append_of_le_length hle]

end Reads

end MemoFile

/-- An append gives a new block with the appended data, and leaves the blocks before it readable as
they were exactly when none of them is a dBASE III memo that the new block would continue. -/
theorem append_keeps_memos_iff {bytes data : Bytes} {format : MemoFormat}
    {memo after : MemoFile} {block : Nat}
    (hmemo : MemoFile.fromBytes bytes format = .ok memo) (h : memo.Appends data after block) :
    (after.read block = .ok (some data) ∧
        ∀ old content, memo.read old = .ok content → after.read old = .ok content) ↔
      (memo.format = .dbase3 → ∀ old, old ≠ 0 → old * memo.blockSize < memo.bytes.length →
        memo.endsBefore data (memo.bytes.drop (old * memo.blockSize)) = true) := by
  have hsized := MemoFile.fromBytes_sized hmemo
  constructor
  · rintro ⟨-, hkept⟩ hformat old hold hinside
    obtain ⟨payload, -, happended⟩ := h.payload
    have hoffset : old * memo.blockSize < u64Size := by
      have hlength := memo.length_add_gap
      have hplace := happended.place
      calc old * memo.blockSize < block * memo.blockSize := by rw [hplace]; omega
        _ < u32Size * 2 ^ 16 := Nat.mul_lt_mul'' happended.numbered hsized.small
        _ < u64Size := by decide
    rw [← MemoFile.read_dbase3_kept_iff hsized hformat h hold hinside hoffset]
    have hread : memo.read old = .ok (some ((memo.bytes.drop (old * memo.blockSize)).take
        (MemoFile.dbase3End (memo.bytes.drop (old * memo.blockSize))))) :=
      (MemoFile.read_eq_ok hold).mpr ⟨hoffset, hinside, by rw [hformat]; rfl⟩
    rw [hread, hkept old _ hread]
  · intro hends
    refine ⟨MemoFile.read_appended hsized h, fun old content hread => ?_⟩
    by_cases hformat : memo.format = .dbase3
    · by_cases hold : old = 0
      · subst hold
        exact hread
      · obtain ⟨hoffset, hinside, -⟩ := (MemoFile.read_eq_ok hold).mp hread
        rw [(MemoFile.read_dbase3_kept_iff hsized hformat h hold hinside hoffset).mpr
          (hends hformat old hold hinside), hread]
    · exact MemoFile.read_kept hsized hformat h hread

/-- A dBASE III file with one memo, padded with spaces. -/
def dbase3Image (text : Bytes) : Bytes :=
  List.replicate 512 0 ++ text ++ List.replicate (512 - text.length) 0x20

/-- A memo that ends in a single marker, as dBASE III files do, grows when another one is appended. -/
theorem append_continues_single_marker :
    ∃ memo after, MemoFile.fromBytes (dbase3Image [0x61, 0x1a]) .dbase3 = .ok memo ∧
      memo.appendText [0x62] = .ok (after, 2) ∧ memo.read 1 = .ok (some [0x61]) ∧
      after.read 1 = .ok (some ([0x61, 0x1a] ++ List.replicate 510 0x20 ++ [0x62])) := by
  refine ⟨⟨dbase3Image [0x61, 0x1a], 512, .dbase3, by decide⟩,
    ⟨toBeBytes 4 3 ++ (dbase3Image [0x61, 0x1a]).drop 4 ++ [0x62, 0x1a, 0x1a] ++
      List.replicate 509 0x20, 512,
      .dbase3, by decide⟩, ?_, ?_, ?_, ?_⟩ <;> decide +kernel

theorem append_keeps_terminated_memo :
    ∃ memo after, MemoFile.fromBytes (dbase3Image [0x61, 0x1a, 0x1a]) .dbase3 = .ok memo ∧
      memo.appendText [0x62] = .ok (after, 2) ∧ after.read 2 = .ok (some [0x62]) ∧
      ∀ old content, memo.read old = .ok content → after.read old = .ok content := by
  have hmemo : MemoFile.fromBytes (dbase3Image [0x61, 0x1a, 0x1a]) .dbase3 =
      .ok ⟨dbase3Image [0x61, 0x1a, 0x1a], 512, .dbase3, by decide⟩ := by decide +kernel
  obtain ⟨after, happend⟩ : ∃ after, MemoFile.appendText ⟨dbase3Image [0x61, 0x1a, 0x1a], 512,
    .dbase3, by decide⟩
      [0x62] = .ok (after, 2) :=
    ⟨⟨toBeBytes 4 3 ++ (dbase3Image [0x61, 0x1a, 0x1a]).drop 4 ++ [0x62, 0x1a, 0x1a] ++
      List.replicate 509 0x20,
      512, .dbase3, by decide⟩, by decide +kernel⟩
  refine ⟨_, after, hmemo, happend, (append_keeps_memos_iff hmemo (.inl happend)).mpr ?_⟩
  intro _ old hold hinside
  have hlength : (dbase3Image [0x61, 0x1a, 0x1a]).length = 1024 := by decide +kernel
  have hone : old = 1 := by
    dsimp only at hinside
    omega
  subst hone
  decide +kernel

end TxBase.Dbf
