import TxBase.Dbf.Parser

/-! Memo files, `src/dbf/memo_file.rs`, and the pointers and pending contents of the
fields that refer to them, `src/dbf/memo_value.rs`. -/
namespace TxBase.Dbf
open Lib Json

def dbtBlockSize : Nat := 512

def fromBeBytes (bytes : Bytes) : Nat := fromLeBytes bytes.reverse

def toBeBytes (count value : Nat) : Bytes := (toLeBytes count value).reverse

namespace MemoFile

/-- The block size of a dBASE IV file; zero stands for the default. -/
def dbase4BlockSize (bytes : Bytes) : Nat :=
  let declared := fromLeBytes (slice bytes 20 22)
  if declared = 0 then dbtBlockSize else declared

def fromBytes (bytes : Bytes) (format : MemoFormat) : Checked MemoFile :=
  match format with
  | .foxPro =>
      let blockSize := fromBeBytes (slice bytes 6 8)
      if bytes.length < 8 then invalid "FPT header is truncated"
      else if h : blockSize < 8 ∨ bytes.length < blockSize then
        invalid "FPT block size or header is invalid"
      else .ok ⟨bytes, blockSize, format, by omega⟩
  | .dbase3 =>
      if bytes.length < dbtBlockSize then invalid "DBT header is truncated"
      else .ok ⟨bytes, dbtBlockSize, format, by decide⟩
  | .dbase4 =>
      let blockSize := dbase4BlockSize bytes
      if bytes.length < dbtBlockSize then invalid "DBT header is truncated"
      else if h : blockSize < dbtBlockSize ∨ blockSize % dbtBlockSize ≠ 0 ∨
          bytes.length < blockSize then
        invalid "dBASE DBT block size or header is invalid"
      else .ok ⟨bytes, blockSize, format, by unfold dbtBlockSize at *; omega⟩

/-- The first index at which two end markers stand side by side. -/
def doubleMarker : Bytes → Option Nat
  | first :: second :: rest =>
      if first = eofMarker ∧ second = eofMarker then some 0
      else (doubleMarker (second :: rest)).map (· + 1)
  | _ => none

/-- Where the text of a dBASE III block ends. -/
def dbase3End (data : Bytes) : Nat :=
  match doubleMarker data with
  | some stop => stop
  | none =>
    match data.findIdx? (· = eofMarker) with
    | none => data.length
    | some index =>
        if (data.drop (index + 1)).all fun byte =>
            byte = 0 ∨ byte = 0x20 ∨ byte = eofMarker then index
        else data.length

/-- The data after an eight-byte block header at `start`. -/
def readSized (memo : MemoFile) (start : Nat) (length : Bytes → Checked Nat) :
    Checked (Option Bytes) := do
  reject (u64Size ≤ start + 8) "memo header overflows usize"
  reject (memo.bytes.length < start + 8) "memo block header is truncated"
  let length ← length (slice memo.bytes (start + 4) (start + 8))
  reject (u64Size ≤ start + 8 + length) "memo data length overflows usize"
  reject (memo.bytes.length < start + 8 + length) "memo data is truncated"
  .ok (some (slice memo.bytes (start + 8) (start + 8 + length)))

def read (memo : MemoFile) (block : Nat) : Checked (Option Bytes) :=
  if block = 0 then .ok none
  else
    let start := block * memo.blockSize
    if u64Size ≤ start then invalid "memo block offset overflows usize"
    else if memo.bytes.length ≤ start then
      invalid s!"memo block {block} is outside the sidecar"
    else
      match memo.format with
      | .dbase3 =>
          let data := memo.bytes.drop start
          .ok (some (data.take (dbase3End data)))
      | .dbase4 => memo.readSized start fun field =>
          if fromLeBytes field < 8 then invalid "dBASE IV memo length is smaller than its header"
          else .ok (fromLeBytes field - 8)
      | .foxPro => memo.readSized start fun field => .ok (fromBeBytes field)

def blocks (memo : MemoFile) (length : Nat) : Nat :=
  length / memo.blockSize + if length % memo.blockSize ≠ 0 then 1 else 0

/-- The file after a payload, and the block at which the payload starts. -/
def appendPayload (memo : MemoFile) (payload : Bytes) : Checked (MemoFile × Nat) := do
  reject (memo.bytes.length < 4) "memo header is truncated"
  let startBlock := memo.blocks memo.bytes.length
  reject (u64Size ≤ startBlock * memo.blockSize) "memo block offset overflows usize"
  let blockCount := memo.blocks payload.length
  reject (u64Size ≤ blockCount * memo.blockSize) "memo text is too long"
  let padding : UInt8 := if memo.format = .foxPro then 0 else 0x20
  let aligned := memo.bytes ++
    List.replicate (startBlock * memo.blockSize - memo.bytes.length) 0
  let padded := payload ++ List.replicate (blockCount * memo.blockSize - payload.length) padding
  let nextBlock := startBlock + blockCount
  reject (u32Size ≤ nextBlock) "memo block number overflows u32"
  let nextBlockBytes := if memo.format = .dbase4 then toLeBytes 4 nextBlock
    else toBeBytes 4 nextBlock
  .ok ({ memo with bytes := nextBlockBytes ++ (aligned ++ padded).drop 4 }, startBlock)

/-- Two end markers side by side, or one at the end. -/
def breaksDbase3 (data : Bytes) : Bool :=
  data.getLast? = some eofMarker ∨ (doubleMarker data).isSome

def appendText (memo : MemoFile) (data : Bytes) : Checked (MemoFile × Nat) :=
  match memo.format with
  | .dbase3 =>
      if data.contains eofMarker then invalid "dBASE III memo text contains the end marker"
      else memo.appendPayload (data ++ [eofMarker, eofMarker])
  | .dbase4 =>
      if u32Size ≤ data.length + 8 then invalid "memo text is too long"
      else memo.appendPayload ([0xff, 0xff, 0x08, 0x00] ++ toLeBytes 4 (data.length + 8) ++ data)
  | .foxPro =>
      if u32Size ≤ data.length then invalid "memo text is too long"
      else memo.appendPayload (toBeBytes 4 1 ++ toBeBytes 4 data.length ++ data)

def appendBinary (memo : MemoFile) (data : Bytes) : Checked (MemoFile × Nat) :=
  if u32Size ≤ data.length then invalid "binary data is too long"
  else
    match memo.format with
    | .dbase3 =>
        if breaksDbase3 data then
          invalid "dBASE III binary data cannot contain its 0x1a1a terminator"
        else memo.appendPayload (data ++ [eofMarker, eofMarker])
    | .dbase4 =>
        if u32Size ≤ data.length + 8 then invalid "binary data is too long"
        else memo.appendPayload ([0xff, 0xff, 0x08, 0x00] ++ toLeBytes 4 (data.length + 8) ++ data)
    | .foxPro => memo.appendPayload (toBeBytes 4 0 ++ toBeBytes 4 data.length ++ data)

variable {memo : MemoFile}

theorem fromBytes_eq_ok {bytes : Bytes} {format : MemoFormat}
    (h : fromBytes bytes format = .ok memo) :
    memo.bytes = bytes ∧ memo.format = format := by
  unfold fromBytes invalid at h
  cases format with
  | dbase3 =>
    dsimp only at h
    split at h <;> cases h
    exact ⟨rfl, rfl⟩
  | dbase4 | foxPro =>
    dsimp only at h
    split at h
    · cases h
    · split at h <;> cases h
      exact ⟨rfl, rfl⟩

variable {after : MemoFile} {block : Nat}

theorem appendPayload_format {payload : Bytes}
    (h : memo.appendPayload payload = .ok (after, block)) :
    after.format = memo.format := by
  simp only [appendPayload, bind_eq_ok] at h
  obtain ⟨-, -, -, -, -, -, -, -, h⟩ := h
  cases h
  rfl

variable {data : Bytes}

theorem appendText_format (h : memo.appendText data = .ok (after, block)) :
    after.format = memo.format := by
  unfold appendText invalid at h
  split at h
  all_goals
    split at h
    · cases h
    · exact appendPayload_format h

theorem appendBinary_format (h : memo.appendBinary data = .ok (after, block)) :
    after.format = memo.format := by
  unfold appendBinary invalid at h
  split at h
  · cases h
  · split at h
    · split at h
      · cases h
      · exact appendPayload_format h
    · split at h
      · cases h
      · exact appendPayload_format h
    · exact appendPayload_format h

end MemoFile

def memoIndex (bytes : Bytes) : Checked (Option Nat) :=
  if bytes.all isPadding then .ok none
  else if bytes.length = 4 then .ok (some (fromLeBytes bytes))
  else do
    let text ← required (fromUtf8? (trimPadding bytes)) "memo block number is not ASCII"
    let text := trimMatches (fun c => c = ' ' ∨ c.toNat = 0) text
    let block ← required (parseUnsigned u32Size text) "memo block number is not an integer"
    .ok (some block)

def isSidecarField (field : FieldDescriptor) : Bool :=
  field.kind = .m ∨ field.kind = .g ∨ field.kind = .p ∨ field.kind = .w ∨
    (field.kind = .b ∧ field.width ≠ 8)

def emptyMemoValue (field : FieldDescriptor) : Value :=
  if field.width = 4 then .int 0 else .string ""

section Values
variable [Runtime]

def storageValueWithoutSidecar (value : Value) (field : FieldDescriptor) : Checked Value := do
  let empty ← if field.isBinary then do
      let bytes ← binaryValue value field
      .ok bytes.isEmpty
    else do
      let text ← valueText value field
      .ok text.isEmpty
  if empty then .ok (emptyMemoValue field)
  else invalid s!"memo sidecar is missing for non-empty field {field.name}"

def sidecarUpdate (value : Value) (field : FieldDescriptor) (format : MemoFormat) :
    Checked (Option MemoUpdate) :=
  if field.isBinary then do
    let bytes ← binaryValue value field
    if bytes.isEmpty then .ok none
    else if format = .dbase3 ∧ MemoFile.breaksDbase3 bytes then
      invalid "dBASE III binary data cannot contain its 0x1a1a terminator"
    else .ok (some (.binary bytes))
  else do
    let text ← valueText value field
    .ok (if text.isEmpty then none else some (.text text))

end Values

def encodeMemoPointer (field : FieldDescriptor) (block : Nat) : Res Bytes :=
  if field.width = 4 then .ok (toLeBytes 4 block)
  else
    let text := utf8 (toString block)
    if text.length > field.width then
      Outcome.fail (.invalid
        s!"memo block number for {field.name} exceeds field width {field.length}")
    else fillRight 0x20 field.width text

end TxBase.Dbf
