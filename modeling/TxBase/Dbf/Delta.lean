import TxBase.Dbf.Types

/-! Byte deltas of `src/dbf/wal_delta.rs`: the runs in which two images differ, with
lengths and checksums of both images, and their encoding in a log record. -/
namespace TxBase.Dbf
open Lib List

structure BytePatch where
  offset : Nat
  bytes : Bytes
  deriving DecidableEq

structure ByteDelta where
  baseLength : Nat
  targetLength : Nat
  baseHash : UInt64
  targetHash : UInt64
  patches : List BytePatch
  deriving DecidableEq

def deltaHash (bytes : Bytes) : UInt64 :=
  bytes.foldl (fun hash byte => (hash ^^^ byte.toUInt64) * 0x100000001b3) 0xcbf29ce484222325

/-- The inner loop of `ByteDelta::new`: how far the images keep differing. -/
def differing : Bytes → Bytes → Nat
  | left :: base, right :: target => if left = right then 0 else differing base target + 1
  | _, _ => 0

/-- The outer loop of `ByteDelta::new` from `offset` on, and the appended tail. -/
def patchesFrom (offset : Nat) (base target : Bytes) : List BytePatch :=
  match base, target with
  | _, [] => []
  | [], right :: target => [⟨offset, right :: target⟩]
  | left :: base, right :: target =>
      if left = right then patchesFrom (offset + 1) base target
      else
        let run := differing base target
        ⟨offset, right :: target.take run⟩ ::
          patchesFrom (offset + 1 + run) (base.drop run) (target.drop run)
termination_by base.length

def ByteDelta.new (base target : Bytes) : Checked ByteDelta :=
  if u64Size ≤ base.length then invalid "WAL base length overflows u64"
  else if u64Size ≤ target.length then invalid "WAL target length overflows u64"
  else .ok ⟨base.length, target.length, deltaHash base, deltaHash target, patchesFrom 0 base target⟩

def encodePatches : List BytePatch → Checked Bytes
  | [] => .ok []
  | patch :: rest => do
      if u64Size ≤ patch.offset then invalid "WAL patch offset overflows u64"
      if u32Size ≤ patch.bytes.length then invalid "WAL patch length overflows u32"
      let encoded ← encodePatches rest
      .ok (toLeBytes 8 patch.offset ++ (toLeBytes 4 patch.bytes.length ++ (patch.bytes ++ encoded)))

/-- The bytes that `encode_byte_delta` adds to a payload. -/
def encodeByteDelta (delta : ByteDelta) : Checked Bytes := do
  if u32Size ≤ delta.patches.length then invalid "WAL patch count overflows u32"
  let patches ← encodePatches delta.patches
  .ok (toLeBytes 8 delta.baseLength ++ (toLeBytes 8 delta.targetLength ++
    (toLeBytes 8 delta.baseHash.toNat ++ (toLeBytes 8 delta.targetHash.toNat ++
      (toLeBytes 4 delta.patches.length ++ patches)))))

def takeDeltaBytes (payload : Bytes) (cursor length : Nat) : Checked (Bytes × Nat) :=
  match checkedAdd cursor length u64Size with
  | none => invalid "WAL delta length overflows"
  | some stop =>
      if payload.length < stop then invalid "WAL delta is truncated"
      else .ok (slice payload cursor stop, stop)

def takeDeltaU8 (payload : Bytes) (cursor : Nat) : Checked (UInt8 × Nat) := do
  let (bytes, cursor) ← takeDeltaBytes payload cursor 1
  .ok (bytes.headD 0, cursor)

def takeDeltaU32 (payload : Bytes) (cursor : Nat) : Checked (Nat × Nat) := do
  let (bytes, cursor) ← takeDeltaBytes payload cursor 4
  .ok (fromLeBytes bytes, cursor)

def takeDeltaU64 (payload : Bytes) (cursor : Nat) : Checked (Nat × Nat) := do
  let (bytes, cursor) ← takeDeltaBytes payload cursor 8
  .ok (fromLeBytes bytes, cursor)

def decodePatches (payload : Bytes) (cursor : Nat) : Nat → Checked (List BytePatch × Nat)
  | 0 => .ok ([], cursor)
  | count + 1 => do
      let (offset, cursor) ← takeDeltaU64 payload cursor
      let (length, cursor) ← takeDeltaU32 payload cursor
      let (bytes, cursor) ← takeDeltaBytes payload cursor length
      let (patches, cursor) ← decodePatches payload cursor count
      .ok (⟨offset, bytes⟩ :: patches, cursor)

def decodeByteDelta (payload : Bytes) (cursor : Nat) : Checked (ByteDelta × Nat) := do
  let (baseLength, cursor) ← takeDeltaU64 payload cursor
  let (targetLength, cursor) ← takeDeltaU64 payload cursor
  let (baseHash, cursor) ← takeDeltaU64 payload cursor
  let (targetHash, cursor) ← takeDeltaU64 payload cursor
  let (patchCount, cursor) ← takeDeltaU32 payload cursor
  if patchCount > (payload.length - cursor) / 12 then invalid "WAL patch count is unreasonable"
  let (patches, cursor) ← decodePatches payload cursor patchCount
  .ok (⟨baseLength, targetLength, .ofNat baseHash, .ofNat targetHash, patches⟩, cursor)

def resize (bytes : Bytes) (length : Nat) : Bytes :=
  bytes.take length ++ List.replicate (length - bytes.length) 0

def applyPatches (label : String) (output : Bytes) (previousEnd : Nat) :
    List BytePatch → Checked Bytes
  | [] => .ok output
  | patch :: rest =>
      match checkedAdd patch.offset patch.bytes.length u64Size with
      | none => invalid s!"{label} patch range overflows"
      | some stop =>
          if patch.bytes = [] ∨ patch.offset < previousEnd ∨ output.length < stop then
            invalid s!"{label} contains an invalid patch range"
          else
            applyPatches label (output.take patch.offset ++ patch.bytes ++
              output.drop stop) stop rest

def applyByteDelta (current : Bytes) (delta : ByteDelta) (label : String) : Checked Bytes := do
  if u64Size ≤ current.length then invalid s!"{label} length overflows u64"
  if current.length = delta.targetLength ∧ deltaHash current = delta.targetHash then .ok current
  else if current.length ≠ delta.baseLength ∨ deltaHash current ≠ delta.baseHash then
    invalid s!"{label} does not match the DBF delta base"
  else do
    let output ← applyPatches label (resize current delta.targetLength) 0 delta.patches
    if deltaHash output ≠ delta.targetHash then invalid s!"{label} delta checksum does not match"
    .ok output

theorem resize_length (bytes : Bytes) (length : Nat) : (resize bytes length).length = length := by
  simp only [resize, length_append, length_take, length_replicate]
  omega

theorem resize_cons (byte : UInt8) (bytes : Bytes) (length : Nat) :
    resize (byte :: bytes) (length + 1) = byte :: resize bytes length := by
  simp [resize]

theorem resize_drop (bytes : Bytes) (length count : Nat) (h : count ≤ length) :
    (resize bytes length).drop count = resize (bytes.drop count) (length - count) := by
  induction count generalizing bytes length with
  | zero => simp
  | succ count ih =>
    obtain ⟨length, rfl⟩ : ∃ rest, length = rest + 1 := ⟨length - 1, by omega⟩
    cases bytes with
    | nil => simp [resize]
    | cons byte bytes =>
      rw [resize_cons, drop_succ_cons, ih bytes length (by omega)]
      simp

theorem differing_le (base target : Bytes) : differing base target ≤ target.length := by
  induction base generalizing target with
  | nil => simp [differing]
  | cons left base ih =>
    cases target with
    | nil => simp [differing]
    | cons right target =>
      unfold differing
      split
      · exact Nat.zero_le _
      · exact Nat.succ_le_succ (ih target)

/-- The patches of two images, applied to the first image cut or filled to the
length of the second, give the second.  `done` is the part already rebuilt. -/
theorem applyPatches_patchesFrom (label : String) (base target done : Bytes) (previousEnd : Nat)
    (hprevious : previousEnd ≤ done.length) (hfit : done.length + target.length < u64Size) :
    applyPatches label (done ++ resize base target.length) previousEnd
      (patchesFrom done.length base target) = .ok (done ++ target) := by
  induction hlength : base.length using Nat.strong_induction_on
    generalizing base target done previousEnd with
  | _ size ih =>
    match base, target with
    | base, [] => simp [patchesFrom, applyPatches, resize]
    | [], right :: target =>
      simp only [length_cons] at hfit
      rw [patchesFrom]
      simp only [applyPatches, length_cons, checkedAdd, if_pos hfit]
      rw [if_neg (by rw [length_append, resize_length]; simpa using hprevious)]
      simp [resize]
    | left :: base, right :: target =>
      simp only [length_cons] at hfit hlength
      rw [patchesFrom]
      split
      · rename_i heq
        have hrest := ih base.length (by omega) base target (done ++ [left]) previousEnd
          (by simp; omega) (by simp; omega) rfl
        simpa [resize_cons, heq] using hrest
      · -- A run of differing bytes: one patch, then the rest of both images.
        generalize hrun : differing base target = run
        have hle : run ≤ target.length := hrun ▸ differing_le base target
        have hstop : done.length + (run + 1) < u64Size := by omega
        have htake : (target.take run).length = run := length_take_of_le hle
        have houtput : (done ++ resize (left :: base) (target.length + 1)).take done.length ++
              (right :: target.take run) ++
              (done ++ resize (left :: base) (target.length + 1)).drop (done.length + (run + 1)) =
            (done ++ right :: target.take run) ++
              resize (base.drop run) (target.drop run).length := by
          rw [take_left, drop_length_add_append, resize_cons,
            drop_succ_cons, resize_drop _ _ _ hle, length_drop]
        have hdone : (done ++ right :: target.take run).length = done.length + 1 + run := by
          simp only [length_append, length_cons, htake]
          omega
        have hrest := ih (base.drop run).length (by simp only [length_drop]; omega)
          (base.drop run) (target.drop run) (done ++ right :: target.take run)
          (done.length + (run + 1)) (by omega)
          (by rw [hdone, length_drop]; omega) rfl
        simp only [applyPatches, length_cons, htake, checkedAdd, if_pos hstop]
        rw [if_neg (by rw [length_append, resize_length]; simp; omega), houtput, ← hdone, hrest]
        simp

/-- The checksum tells the two images apart, unless they are the same. -/
def NoCollision (base target : Bytes) : Prop :=
  base.length = target.length → deltaHash base = deltaHash target → base = target

variable {delta : ByteDelta} {target base : Bytes}

theorem ByteDelta.new_eq_ok (h : ByteDelta.new base target = .ok delta) :
    base.length < u64Size ∧ target.length < u64Size ∧
      delta = ⟨base.length, target.length, deltaHash base, deltaHash target,
        patchesFrom 0 base target⟩ := by
  unfold ByteDelta.new invalid at h
  split at h
  · cases h
  · split at h
    · cases h
    · cases h
      exact ⟨by omega, by omega, rfl⟩

theorem applyByteDelta_target (label : String) (h : ByteDelta.new base target = .ok delta) :
    applyByteDelta target delta label = .ok target := by
  obtain ⟨-, htarget, rfl⟩ := ByteDelta.new_eq_ok h
  unfold applyByteDelta
  simp [Nat.not_le.mpr htarget]

theorem applyByteDelta_base (label : String) (h : ByteDelta.new base target = .ok delta)
    (hhash : NoCollision base target) : applyByteDelta base delta label = .ok target := by
  obtain ⟨hbase, htarget, rfl⟩ := ByteDelta.new_eq_ok h
  unfold applyByteDelta
  simp only [Nat.not_le.mpr hbase, if_false, bind, Except.bind]
  split
  · rename_i hsame
    rw [hhash hsame.1 hsame.2]
  · have hpatches := applyPatches_patchesFrom label base target [] 0 (Nat.zero_le _) (by simpa)
    simp only [nil_append, length_nil] at hpatches
    simp [hpatches]

/-- The cursor stands in the payload, before `rest`. -/
structure At (payload : Bytes) (cursor : Nat) (rest : Bytes) : Prop where
  bound : payload.length < u64Size
  le : cursor ≤ payload.length
  rest : payload.drop cursor = rest

variable {rest payload : Bytes} {cursor : Nat}

theorem takeDeltaBytes_at {field : Bytes} {length : Nat} (h : At payload cursor (field ++ rest))
    (hlength : field.length = length) :
    takeDeltaBytes payload cursor length = .ok (field, cursor + length) ∧
      At payload (cursor + length) rest := by
  have htotal : payload.length = cursor + (length + rest.length) := by
    have hdrop := congrArg List.length h.rest
    rw [length_drop, length_append, hlength] at hdrop
    have hle := h.le
    omega
  have hbound := h.bound
  refine ⟨?_, h.bound, by omega, ?_⟩
  · unfold takeDeltaBytes checkedAdd
    rw [if_pos (by omega)]
    simp only
    rw [if_neg (by omega)]
    simp only [slice, Nat.add_sub_cancel_left]
    rw [h.rest, ← hlength, take_left]
  · rw [← drop_drop, h.rest, ← hlength, drop_left]

theorem takeDeltaU8_at {byte : UInt8} (h : At payload cursor (byte :: rest)) :
    takeDeltaU8 payload cursor = .ok (byte, cursor + 1) ∧ At payload (cursor + 1) rest := by
  have hone : At payload cursor ([byte] ++ rest) := h
  obtain ⟨htake, hnext⟩ := takeDeltaBytes_at hone rfl
  rw [length_singleton] at htake hnext
  exact ⟨by simp [takeDeltaU8, htake, bind, Except.bind], hnext⟩

variable {value : Nat}

theorem takeDeltaU32_at (h : At payload cursor (toLeBytes 4 value ++ rest))
    (hvalue : value < u32Size) :
    takeDeltaU32 payload cursor = .ok (value, cursor + 4) ∧ At payload (cursor + 4) rest := by
  obtain ⟨htake, hnext⟩ := takeDeltaBytes_at h (toLeBytes_length 4 value)
  refine ⟨?_, hnext⟩
  simp only [takeDeltaU32, htake, bind, Except.bind]
  rw [fromLeBytes_toLeBytes (by simpa [u32Size] using hvalue)]

theorem takeDeltaU64_at (h : At payload cursor (toLeBytes 8 value ++ rest))
    (hvalue : value < u64Size) :
    takeDeltaU64 payload cursor = .ok (value, cursor + 8) ∧ At payload (cursor + 8) rest := by
  obtain ⟨htake, hnext⟩ := takeDeltaBytes_at h (toLeBytes_length 8 value)
  refine ⟨?_, hnext⟩
  simp only [takeDeltaU64, htake, bind, Except.bind]
  rw [fromLeBytes_toLeBytes (by simpa [u64Size] using hvalue)]

variable {encoded : Bytes} {patches : List BytePatch}

theorem encodePatches_cons {patch : BytePatch} (h : encodePatches (patch :: patches) = .ok encoded) :
    patch.offset < u64Size ∧ patch.bytes.length < u32Size ∧
      ∃ rest, encodePatches patches = .ok rest ∧
        encoded = toLeBytes 8 patch.offset ++
          (toLeBytes 4 patch.bytes.length ++ (patch.bytes ++ rest)) := by
  simp only [encodePatches, invalid, bind, Except.bind] at h
  split at h
  · cases h
  · rename_i hoffset
    split at h
    · cases h
    · rename_i hlength
      split at h
      · cases h
      · rename_i rest hrest
        cases h
        exact ⟨by omega, by omega, rest, hrest, rfl⟩

/-- Every patch takes at least twelve bytes, so the decoder's count check passes. -/
theorem encodePatches_length (h : encodePatches patches = .ok encoded) :
    12 * patches.length ≤ encoded.length := by
  induction patches generalizing encoded with
  | nil => simp
  | cons patch patches ih =>
    obtain ⟨-, -, rest, hrest, rfl⟩ := encodePatches_cons h
    have hlength := ih hrest
    simp only [length_append, toLeBytes_length, length_cons]
    omega

theorem decodePatches_at (hencode : encodePatches patches = .ok encoded)
    (h : At payload cursor (encoded ++ rest)) :
    decodePatches payload cursor patches.length = .ok (patches, cursor + encoded.length) ∧
      At payload (cursor + encoded.length) rest := by
  induction patches generalizing encoded cursor with
  | nil =>
    cases hencode
    exact ⟨rfl, h⟩
  | cons patch patches ih =>
    obtain ⟨hoffset, hlength, tail, htail, rfl⟩ := encodePatches_cons hencode
    simp only [append_assoc] at h
    obtain ⟨hread, h⟩ := takeDeltaU64_at h hoffset
    obtain ⟨hreadLength, h⟩ := takeDeltaU32_at h hlength
    obtain ⟨hreadBytes, h⟩ := takeDeltaBytes_at h rfl
    obtain ⟨hreadRest, h⟩ := ih htail h
    have hcursor : cursor + (toLeBytes 8 patch.offset ++ (toLeBytes 4 patch.bytes.length ++
        (patch.bytes ++ tail))).length = cursor + 8 + 4 + patch.bytes.length + tail.length := by
      simp only [length_append, toLeBytes_length]
      omega
    rw [hcursor]
    refine ⟨?_, h⟩
    simp only [length_cons, decodePatches, hread, hreadLength, hreadBytes, hreadRest, bind,
      Except.bind]

theorem decodeByteDelta_at (hencode : encodeByteDelta delta = .ok encoded)
    (hbase : delta.baseLength < u64Size)
    (htarget : delta.targetLength < u64Size) (h : At payload cursor (encoded ++ rest)) :
    decodeByteDelta payload cursor = .ok (delta, cursor + encoded.length) ∧
      At payload (cursor + encoded.length) rest := by
  simp only [encodeByteDelta, invalid, bind, Except.bind] at hencode
  split at hencode
  · cases hencode
  · rename_i hcount
    split at hencode
    · cases hencode
    · rename_i tail htail
      cases hencode
      simp only [append_assoc] at h
      obtain ⟨hread₁, h⟩ := takeDeltaU64_at h hbase
      obtain ⟨hread₂, h⟩ := takeDeltaU64_at h htarget
      obtain ⟨hread₃, h⟩ := takeDeltaU64_at h delta.baseHash.toNat_lt
      obtain ⟨hread₄, h⟩ := takeDeltaU64_at h delta.targetHash.toNat_lt
      obtain ⟨hread₅, h⟩ := takeDeltaU32_at h (Nat.lt_of_not_le hcount)
      obtain ⟨hread₆, hnext⟩ := decodePatches_at htail h
      have hroom : ¬ delta.patches.length >
          (payload.length - (cursor + 8 + 8 + 8 + 8 + 4)) / 12 := by
        have hremaining := congrArg List.length h.rest
        have htwelve := encodePatches_length htail
        rw [length_drop, length_append] at hremaining
        omega
      have hcursor : cursor + (toLeBytes 8 delta.baseLength ++ (toLeBytes 8 delta.targetLength ++
          (toLeBytes 8 delta.baseHash.toNat ++ (toLeBytes 8 delta.targetHash.toNat ++
            (toLeBytes 4 delta.patches.length ++ tail))))).length =
          cursor + 8 + 8 + 8 + 8 + 4 + tail.length := by
        simp only [length_append, toLeBytes_length]
        omega
      rw [hcursor]
      refine ⟨?_, hnext⟩
      simp only [decodeByteDelta, hread₁, hread₂, hread₃, hread₄, hread₅, hread₆, hroom, if_false,
        bind, Except.bind, UInt64.ofNat_toNat]

end TxBase.Dbf
