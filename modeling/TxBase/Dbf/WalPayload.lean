import TxBase.Dbf.Delta

/-! The records of a table's log, `src/dbf/wal.rs`: full images of the DBF and its
memo file, deltas against the images the table was loaded from, and the markers
that accompany them.  Recovery reads a redo record beside whatever the two files
hold, so a redo record must give the target from either image of each file. -/
namespace TxBase.Dbf
open Lib List

/-- The bytes `TXDB`, `TXDM`, `TXDP`, `TXOP`, `TXTI` and `TXPK`. -/
def snapshotMagic : Bytes := [0x54, 0x58, 0x44, 0x42]
def memoSnapshotMagic : Bytes := [0x54, 0x58, 0x44, 0x4d]
def deltaMagic : Bytes := [0x54, 0x58, 0x44, 0x50]
def operationMagic : Bytes := [0x54, 0x58, 0x4f, 0x50]
def transactionIdMagic : Bytes := [0x54, 0x58, 0x54, 0x49]
def layoutChangeMagic : Bytes := [0x54, 0x58, 0x50, 0x4b]

def afterMagic (magic payload : Bytes) : Option Bytes :=
  if magic.isPrefixOf payload then some (payload.drop magic.length) else none

structure RecoverySnapshot where
  dbf : Bytes
  memo : Option MemoSnapshot
  deriving DecidableEq

def snapshotPayload (dbf : Bytes) : Bytes := snapshotMagic ++ dbf

def transactionIdPayload (transactionId : Nat) : Bytes :=
  transactionIdMagic ++ 1 :: toLeBytes 8 transactionId

def layoutChangePayload : Bytes := layoutChangeMagic ++ [1]

def decodeLayoutChangePayload (payload : Bytes) : Checked (Option Bool) :=
  match afterMagic layoutChangeMagic payload with
  | none => .ok none
  | some [] => invalid "layout-change WAL payload is truncated"
  | some [version] =>
      if version = 1 then .ok (some true)
      else invalid s!"unknown layout-change WAL version {version}"
  | some _ => invalid "layout-change WAL payload is truncated"

def decodeTransactionIdPayload (payload : Bytes) : Checked (Option Nat) :=
  match afterMagic transactionIdMagic payload with
  | none => .ok none
  | some body =>
      if body.length ≠ 9 then invalid "transaction ID WAL payload is truncated"
      else if body.headD 0 ≠ 1 then
        invalid s!"unknown transaction ID WAL version {body.headD 0}"
      else if fromLeBytes (slice body 1 9) = 0 then
        invalid "transaction ID WAL payload must be positive"
      else .ok (some (fromLeBytes (slice body 1 9)))

def memoSnapshotPayload (dbf : Bytes) (memo : MemoSnapshot) : Checked Bytes :=
  if u64Size ≤ dbf.length then invalid "DBF snapshot length overflows u64"
  else if u64Size ≤ memo.bytes.length then invalid "memo snapshot length overflows u64"
  else
    .ok (memoSnapshotMagic ++ memo.format.tag ::
      (toLeBytes 8 dbf.length ++ (toLeBytes 8 memo.bytes.length ++ (dbf ++ memo.bytes))))

def decodeSnapshot (payload : Bytes) : Checked (Option RecoverySnapshot) :=
  match afterMagic snapshotMagic payload with
  | some dbf => .ok (some ⟨dbf, none⟩)
  | none =>
    match afterMagic memoSnapshotMagic payload with
    | none => .ok none
    | some body => do
        if body.length < 17 then invalid "memo snapshot header is truncated"
        let format ← MemoFormat.fromTag (body.headD 0)
        let dbfLength := fromLeBytes (slice body 1 9)
        let memoLength := fromLeBytes (slice body 9 17)
        let memoStart ← match checkedAdd 17 dbfLength u64Size with
          | some start => .ok start
          | none => invalid "memo snapshot length overflows usize"
        let stop ← match checkedAdd memoStart memoLength u64Size with
          | some stop => .ok stop
          | none => invalid "memo snapshot length overflows usize"
        if stop ≠ body.length then invalid "memo snapshot length does not match payload"
        .ok (some ⟨slice body 17 memoStart, some ⟨format, slice body memoStart stop⟩⟩)

/-- The memo part of a delta record: a flag, then the format and the delta. -/
def encodeMemoDelta (base : Option Bytes) (memo : Option MemoSnapshot) : Checked Bytes :=
  match memo with
  | none => .ok [0]
  | some memo => do
      let delta ← ByteDelta.new (base.getD []) memo.bytes
      let encoded ← encodeByteDelta delta
      .ok (1 :: memo.format.tag :: encoded)

/-- The redo record as a delta, when the table was loaded from `path` and the
delta is the shorter of the two. -/
def deltaPayload (source : Option PersistedState) (bytes : Bytes) (path : String)
    (memo : Option MemoSnapshot) (fullPayloadLength : Nat) : Checked (Option Bytes) :=
  match source with
  | none => .ok none
  | some source =>
    if source.path ≠ path ∨ (memo.isSome ∧ source.memo.isNone) then .ok none
    else do
      let dbfDelta ← ByteDelta.new source.dbf bytes
      let dbfEncoded ← encodeByteDelta dbfDelta
      let memoEncoded ← encodeMemoDelta source.memo memo
      let payload := deltaMagic ++ 1 :: (dbfEncoded ++ memoEncoded)
      .ok (if payload.length < fullPayloadLength then some payload else none)

def fullPayload (bytes : Bytes) : Option MemoSnapshot → Checked Bytes
  | some memo => memoSnapshotPayload bytes memo
  | none => .ok (snapshotPayload bytes)

/-- The redo record that a save logs: the delta if there is one, else the images. -/
def redoPayload (source : Option PersistedState) (bytes : Bytes) (path : String)
    (memo : Option MemoSnapshot) : Checked Bytes := do
  let full ← fullPayload bytes memo
  let delta ← deltaPayload source bytes path memo full.length
  .ok (delta.getD full)

/-- The two images a redo record is read beside. -/
structure TableFiles where
  dbf : Option Bytes
  memo : Option Bytes
  deriving DecidableEq

def readFile (file : Option Bytes) : Checked Bytes :=
  match file with
  | some bytes => .ok bytes
  | none => .error (.io "No such file or directory")

def decodeDeltaPayload (files : TableFiles) (payload : Bytes) :
    Checked (Option RecoverySnapshot) := do
  let (version, cursor) ← takeDeltaU8 payload deltaMagic.length
  if version ≠ 1 then invalid s!"unknown DBF delta version {version}"
  let (dbfDelta, cursor) ← decodeByteDelta payload cursor
  let (memoPresent, cursor) ← takeDeltaU8 payload cursor
  let (memoDelta, cursor) ← match memoPresent.toNat with
    | 0 => .ok (none, cursor)
    | 1 => do
        let (tag, cursor) ← takeDeltaU8 payload cursor
        let format ← MemoFormat.fromTag tag
        let (delta, cursor) ← decodeByteDelta payload cursor
        .ok (some (format, delta), cursor)
    | value => invalid s!"invalid DBF delta memo flag {value}"
  if cursor ≠ payload.length then invalid "DBF delta has trailing bytes"
  let currentDbf ← readFile files.dbf
  let dbf ← applyByteDelta currentDbf dbfDelta "DBF"
  let memo ← match memoDelta with
    | none => .ok none
    | some (format, delta) => do
        let currentMemo ← readFile files.memo
        let bytes ← applyByteDelta currentMemo delta "memo sidecar"
        .ok (some ⟨format, bytes⟩)
  .ok (some ⟨dbf, memo⟩)

section Operation
variable [Serde]

def operationPayload (operation : OperationIr) : Checked Bytes :=
  match Serde.operationToVec operation with
  | .error error => invalid s!"operation WAL encoding failed: {error}"
  | .ok body =>
      if u32Size ≤ body.length then invalid "operation WAL payload is too large"
      else .ok (operationMagic ++ 1 :: (toLeBytes 4 body.length ++ body))

def decodeOperationPayload (payload : Bytes) : Checked (Option OperationIr) :=
  match afterMagic operationMagic payload with
  | none => .ok none
  | some [] => invalid "operation WAL header is truncated"
  | some (version :: body) =>
      if version ≠ 1 then invalid s!"unknown operation WAL version {version}"
      else if body.length < 4 then invalid "operation WAL length is truncated"
      else if (body.drop 4).length ≠ fromLeBytes (body.take 4) then
        invalid "operation WAL length does not match payload"
      else
        match Serde.operationFromSlice (body.drop 4) with
        | .ok operation => .ok (some operation)
        | .error error => invalid s!"operation WAL decoding failed: {error}"

def decodeWalPayload (files : TableFiles) (payload : Bytes) : Checked (Option RecoverySnapshot) :=
  if deltaMagic.isPrefixOf payload then decodeDeltaPayload files payload
  else if operationMagic.isPrefixOf payload then do
    let _ ← decodeOperationPayload payload
    .ok none
  else if transactionIdMagic.isPrefixOf payload then do
    let _ ← decodeTransactionIdPayload payload
    .ok none
  else if layoutChangeMagic.isPrefixOf payload then do
    let _ ← decodeLayoutChangePayload payload
    .ok none
  else decodeSnapshot payload

end Operation

@[simp] theorem afterMagic_append (magic body : Bytes) :
    afterMagic magic (magic ++ body) = some body := by
  simp [afterMagic]

theorem not_isPrefixOf {magic other body : Bytes} (hlength : magic.length = other.length)
    (hne : magic ≠ other) : magic.isPrefixOf (other ++ body) = false := by
  rw [Bool.eq_false_iff]
  intro h
  have hinit := prefix_of_prefix_length_le (List.isPrefixOf_iff_prefix.mp h)
    (prefix_append other body) (by omega)
  exact hne (hinit.eq_of_length hlength)

section Redo
variable {payload : Bytes} {limit : Nat} {path : String} {target : Bytes}
  {memo : Option MemoSnapshot}

theorem deltaPayload_eq_some {source : Option PersistedState}
    (h : deltaPayload source target path memo limit = .ok (some payload)) :
    ∃ state dbfDelta dbfEncoded, source = some state ∧ state.path = path ∧
      ByteDelta.new state.dbf target = .ok dbfDelta ∧ encodeByteDelta dbfDelta = .ok dbfEncoded ∧
      ((memo = none ∧ payload = deltaMagic ++ 1 :: (dbfEncoded ++ [0])) ∨
        ∃ snapshot base memoDelta memoEncoded, memo = some snapshot ∧ state.memo = some base ∧
          ByteDelta.new base snapshot.bytes = .ok memoDelta ∧
          encodeByteDelta memoDelta = .ok memoEncoded ∧
          payload = deltaMagic ++ 1 :: (dbfEncoded ++
            (1 :: snapshot.format.tag :: memoEncoded))) := by
  unfold deltaPayload at h
  cases source with
  | none => cases h
  | some state =>
    simp only at h
    split at h
    · cases h
    · rename_i hsource
      obtain ⟨hpath, hmemo⟩ := not_or.mp hsource
      obtain ⟨dbfDelta, hdelta, h⟩ := bind_eq_ok.mp h
      obtain ⟨dbfEncoded, hencoded, h⟩ := bind_eq_ok.mp h
      obtain ⟨memoPart, hpart, h⟩ := bind_eq_ok.mp h
      have hpayload : payload = deltaMagic ++ 1 :: (dbfEncoded ++ memoPart) := by
        split at h
        · exact (Option.some.inj (Except.ok.inj h)).symm
        · cases h
      refine ⟨state, dbfDelta, dbfEncoded, rfl, not_not.mp hpath, hdelta, hencoded, ?_⟩
      cases memo with
      | none =>
        cases hpart
        exact .inl ⟨rfl, hpayload⟩
      | some snapshot =>
        obtain ⟨memoDelta, hmemoDelta, hpart⟩ := bind_eq_ok.mp hpart
        obtain ⟨memoEncoded, hmemoEncoded, hpart⟩ := bind_eq_ok.mp hpart
        cases hpart
        cases hbase : state.memo with
        | none => simp [hbase] at hmemo
        | some base =>
          rw [hbase] at hmemoDelta
          exact .inr ⟨snapshot, base, memoDelta, memoEncoded, rfl, rfl, hmemoDelta, hmemoEncoded,
            hpayload⟩

variable [Serde]

theorem decodeWalPayload_snapshot (files : TableFiles) (dbf : Bytes) :
    decodeWalPayload files (snapshotPayload dbf) = .ok (some ⟨dbf, none⟩) := by
  unfold decodeWalPayload decodeSnapshot snapshotPayload
  rw [not_isPrefixOf (by decide) (by decide), not_isPrefixOf (by decide) (by decide),
    not_isPrefixOf (by decide) (by decide), not_isPrefixOf (by decide) (by decide),
    afterMagic_append]
  rfl

theorem decodeWalPayload_memoSnapshot (files : TableFiles) {dbf : Bytes} {memo : MemoSnapshot}
    (hpayload : memoSnapshotPayload dbf memo = .ok payload) (hfit : payload.length ≤ maxLength) :
    decodeWalPayload files payload = .ok (some ⟨dbf, some memo⟩) := by
  unfold memoSnapshotPayload invalid at hpayload
  split at hpayload
  · cases hpayload
  · rename_i hdbf
    split at hpayload
    · cases hpayload
    · rename_i hmemo
      cases hpayload
      generalize hbody : memo.format.tag :: (toLeBytes 8 dbf.length ++
        (toLeBytes 8 memo.bytes.length ++ (dbf ++ memo.bytes))) = body at hfit
      have hlength : body.length = 17 + dbf.length + memo.bytes.length := by
        rw [← hbody]
        simp only [length_cons, length_append, toLeBytes_length]
        omega
      -- The four fields of the body, each cut out of its middle.
      have hfields : slice body 1 9 = toLeBytes 8 dbf.length ∧
          slice body 9 17 = toLeBytes 8 memo.bytes.length ∧
          slice body 17 (17 + dbf.length) = dbf ∧
          slice body (17 + dbf.length) (17 + dbf.length + memo.bytes.length) = memo.bytes := by
        have hone := slice_append_middle [memo.format.tag] (toLeBytes 8 dbf.length)
          (toLeBytes 8 memo.bytes.length ++ (dbf ++ memo.bytes))
        have htwo := slice_append_middle (memo.format.tag :: toLeBytes 8 dbf.length)
          (toLeBytes 8 memo.bytes.length) (dbf ++ memo.bytes)
        have hthree := slice_append_middle (memo.format.tag :: (toLeBytes 8 dbf.length ++
          toLeBytes 8 memo.bytes.length)) dbf memo.bytes
        have hfour := slice_append_middle (memo.format.tag :: (toLeBytes 8 dbf.length ++
          (toLeBytes 8 memo.bytes.length ++ dbf))) memo.bytes []
        simp only [length_cons, length_append, toLeBytes_length, cons_append,
          append_assoc, append_nil, length_nil, nil_append,
          hbody] at hone htwo hthree hfour
        refine ⟨hone, htwo, hthree, ?_⟩
        rwa [show 8 + (8 + dbf.length) + 1 = 17 + dbf.length by omega] at hfour
      obtain ⟨hone, htwo, hthree, hfour⟩ := hfields
      have hlimit : maxLength < u64Size := by decide
      have htotal : memoSnapshotMagic.length + body.length ≤ maxLength := by
        rwa [length_append] at hfit
      have hread : ∀ length : Nat, length < u64Size →
          fromLeBytes (toLeBytes 8 length) = length := fun length hlt =>
        fromLeBytes_toLeBytes (by simpa [u64Size] using hlt)
      have hhead : body.headD 0 = memo.format.tag := by rw [← hbody]; rfl
      unfold decodeWalPayload decodeSnapshot
      rw [not_isPrefixOf (by decide) (by decide), not_isPrefixOf (by decide) (by decide),
        not_isPrefixOf (by decide) (by decide), not_isPrefixOf (by decide) (by decide)]
      simp only [Bool.false_eq_true, if_false, afterMagic_append]
      rw [afterMagic, not_isPrefixOf (by decide) (by decide)]
      simp only [Bool.false_eq_true, if_false, hone, htwo, hread _ (Nat.lt_of_not_le hdbf),
        hread _ (Nat.lt_of_not_le hmemo), hhead, MemoFormat.fromTag_tag, checkedAdd]
      rw [if_neg (by omega), if_pos (by omega)]
      simp only [bind, Except.bind]
      rw [if_pos (by omega)]
      simp only
      rw [if_neg (by omega)]
      simp only [hthree, hfour]

theorem decodeWalPayload_delta {files : TableFiles} {state : PersistedState}
    (hpayload : deltaPayload (some state) target path memo limit = .ok (some payload))
    (hfit : payload.length ≤ maxLength)
    (hdbf : (files.dbf = some state.dbf ∨ files.dbf = some target) ∧ NoCollision state.dbf target)
    (hmemo : ∀ snapshot base, memo = some snapshot → state.memo = some base → (files.memo =
      some base ∨ files.memo = some snapshot.bytes) ∧ NoCollision base snapshot.bytes) :
    decodeWalPayload files payload = .ok (some ⟨target, memo⟩) := by
  obtain ⟨state', dbfDelta, dbfEncoded, hstate, -, hdelta, hencoded, hcases⟩ :=
    deltaPayload_eq_some hpayload
  cases hstate
  obtain ⟨hbaseLength, htargetLength, hdeltaEq⟩ := ByteDelta.new_eq_ok hdelta
  have hbound : payload.length < u64Size := by
    have hlimit : maxLength < u64Size := by decide
    omega
  -- Either image of a file gives its target.
  have hdbfResult : ∃ current, files.dbf = some current ∧
      applyByteDelta current dbfDelta "DBF" = .ok target := by
    rcases hdbf with ⟨hbase | htarget, hhash⟩
    · exact ⟨_, hbase, applyByteDelta_base _ hdelta hhash⟩
    · exact ⟨_, htarget, applyByteDelta_target _ hdelta⟩
  obtain ⟨current, hcurrent, happly⟩ := hdbfResult
  rcases hcases with ⟨rfl, rfl⟩ |
    ⟨snapshot, base, memoDelta, memoEncoded, rfl, hbase, hmemoDelta, hmemoEncoded, rfl⟩
  · have hat : At (deltaMagic ++ 1 :: (dbfEncoded ++ [0])) deltaMagic.length
        (1 :: (dbfEncoded ++ [0])) := ⟨hbound, by simp, by simp⟩
    obtain ⟨hversion, hat⟩ := takeDeltaU8_at hat
    obtain ⟨hdecode, hat⟩ := decodeByteDelta_at hencoded (by simp [hdeltaEq, hbaseLength])
      (by simp [hdeltaEq, htargetLength]) hat
    obtain ⟨hflag, hat⟩ := takeDeltaU8_at hat
    have hend : deltaMagic.length + 1 + dbfEncoded.length + 1 =
        (deltaMagic ++ 1 :: (dbfEncoded ++ [0])).length := by
      simp only [length_append, length_cons, length_nil]
      omega
    unfold decodeWalPayload decodeDeltaPayload
    rw [if_pos (by simp)]
    simp only [hversion, hdecode, hflag, hcurrent, readFile, happly, bind, Except.bind]
    simp [hend]
  · obtain ⟨hmemoBase, hmemoTarget, hmemoEq⟩ := ByteDelta.new_eq_ok hmemoDelta
    have hmemoResult : ∃ current, files.memo = some current ∧
        applyByteDelta current memoDelta "memo sidecar" = .ok snapshot.bytes := by
      rcases hmemo snapshot base rfl hbase with ⟨hold | hnew, hhash⟩
      · exact ⟨_, hold, applyByteDelta_base _ hmemoDelta hhash⟩
      · exact ⟨_, hnew, applyByteDelta_target _ hmemoDelta⟩
    obtain ⟨currentMemo, hcurrentMemo, happlyMemo⟩ := hmemoResult
    have hat : At (deltaMagic ++ 1 :: (dbfEncoded ++ (1 :: snapshot.format.tag :: memoEncoded)))
        deltaMagic.length (1 :: (dbfEncoded ++ (1 :: snapshot.format.tag :: memoEncoded))) :=
      ⟨hbound, by simp, by simp⟩
    obtain ⟨hversion, hat⟩ := takeDeltaU8_at hat
    obtain ⟨hdecode, hat⟩ := decodeByteDelta_at hencoded (by simp [hdeltaEq, hbaseLength])
      (by simp [hdeltaEq, htargetLength]) hat
    obtain ⟨hflag, hat⟩ := takeDeltaU8_at hat
    obtain ⟨htag, hat⟩ := takeDeltaU8_at hat
    rw [← append_nil memoEncoded] at hat
    obtain ⟨hdecodeMemo, -⟩ := decodeByteDelta_at hmemoEncoded (by simp [hmemoEq, hmemoBase])
      (by simp [hmemoEq, hmemoTarget]) hat
    rw [append_nil] at hdecodeMemo
    have hend : deltaMagic.length + 1 + dbfEncoded.length + 1 + 1 + memoEncoded.length =
        (deltaMagic ++ 1 :: (dbfEncoded ++ (1 :: snapshot.format.tag :: memoEncoded))).length := by
      simp only [length_append, length_cons]
      omega
    unfold decodeWalPayload decodeDeltaPayload
    rw [if_pos (by simp)]
    simp only [hversion, hdecode, hflag, htag, hdecodeMemo, MemoFormat.fromTag_tag, hcurrent,
      hcurrentMemo, readFile, happly, happlyMemo, bind, Except.bind]
    simp [hend]

/-- Whichever redo record a save logs, it decodes to the target images beside
every mixture of base and target files; and a delta takes its base, of any
length, to its target. -/
theorem redo_reproduces_target (source : Option PersistedState) (target payload : Bytes)
    (path : String) (memo : Option MemoSnapshot) (files : TableFiles)
    (hpayload : redoPayload source target path memo = .ok payload)
    (hfit : payload.length ≤ maxLength)
    (hdbf : ∀ state, source = some state → state.path = path →
      (files.dbf = some state.dbf ∨ files.dbf = some target) ∧ NoCollision state.dbf target)
    (hmemo : ∀ state snapshot base, source = some state → state.path = path →
      memo = some snapshot → state.memo = some base →
      (files.memo = some base ∨ files.memo = some snapshot.bytes) ∧
        NoCollision base snapshot.bytes) :
    decodeWalPayload files payload = .ok (some ⟨target, memo⟩) ∧
    ∀ (base image : Bytes) (label : String), base.length ≤ maxLength → image.length ≤ maxLength →
      NoCollision base image → ∃ delta, ByteDelta.new base image = .ok delta ∧
        applyByteDelta base delta label = .ok image := by
  refine ⟨?_, ?_⟩
  · obtain ⟨full, hfull, hrest⟩ := bind_eq_ok.mp hpayload
    obtain ⟨delta, hdelta, hchoice⟩ := bind_eq_ok.mp hrest
    cases delta with
    | some delta =>
      cases hchoice
      obtain ⟨state, -, -, rfl, hpath, -⟩ := deltaPayload_eq_some hdelta
      exact decodeWalPayload_delta hdelta hfit (hdbf state rfl hpath)
        fun snapshot base => hmemo state snapshot base rfl hpath
    | none =>
      cases hchoice
      cases memo with
      | none =>
        cases hfull
        exact decodeWalPayload_snapshot files target
      | some memo => exact decodeWalPayload_memoSnapshot files hfull hfit
  · intro base image label hbase himage hhash
    have hlimit : maxLength < u64Size := by decide
    have hnew : ByteDelta.new base image = .ok ⟨base.length, image.length, deltaHash base,
        deltaHash image, patchesFrom 0 base image⟩ := by
      unfold ByteDelta.new
      rw [if_neg (by omega), if_neg (by omega)]
    exact ⟨_, hnew, applyByteDelta_base label hnew hhash⟩

end Redo

/-- A delta record beside the old DBF and the new memo file. -/
theorem redo_reproduces_target_mixed :
    ∃ payload, redoPayload (some ⟨"t.dbf", List.replicate 80 0, some (List.replicate 80 2), none,
        none⟩) (1 :: List.replicate 79 0) "t.dbf" (some ⟨.foxPro, List.replicate 81 2⟩) =
          .ok payload ∧ deltaMagic <+: payload ∧
      @decodeWalPayload .refusing ⟨some (List.replicate 80 0), some (List.replicate 81 2)⟩ payload =
        .ok (some ⟨1 :: List.replicate 79 0, some ⟨.foxPro, List.replicate 81 2⟩⟩) := by
  have hpayload : (match redoPayload (some ⟨"t.dbf", List.replicate 80 0,
        some (List.replicate 80 2), none, none⟩) (1 :: List.replicate 79 0) "t.dbf"
        (some ⟨.foxPro, List.replicate 81 2⟩) with
      | .ok payload => deltaMagic.isPrefixOf payload && decide (payload.length ≤ maxLength)
      | .error _ => false) = true := by decide +kernel
  split at hpayload
  · rename_i payload heq
    rw [Bool.and_eq_true, isPrefixOf_iff_prefix, decide_eq_true_eq] at hpayload
    refine ⟨payload, heq, hpayload.1, (@redo_reproduces_target .refusing _ _ _ _ _
      ⟨some (List.replicate 80 0), some (List.replicate 81 2)⟩ heq hpayload.2 ?_ ?_).1⟩
    · intro state hstate _
      cases hstate
      exact ⟨.inl rfl, fun _ hhash => absurd hhash (by decide +kernel)⟩
    · intro state snapshot base hstate _ hsnapshot hbase
      cases hstate
      cases hsnapshot
      cases hbase
      exact ⟨.inr rfl, fun hlength => absurd hlength (by decide)⟩
  · cases hpayload

end TxBase.Dbf
