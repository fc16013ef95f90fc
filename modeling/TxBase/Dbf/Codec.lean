import TxBase.Dbf.Scalar

/-! The fixed-width encoding of a field, `src/dbf/codec_encode.rs`, and its decoding,
`src/dbf/codec_decode.rs`.  Every encoder fills exactly the width of its field. -/
namespace TxBase.Dbf
open Lib Json
open Outcome (Safe Yields safe_copyFromSlice copyFromSlice_length lift fail copyFromSlice)

variable [Runtime]

/-- `bytes` at the left of `length` bytes of `fill`. -/
def fillLeft (fill : UInt8) (length : Nat) (bytes : Bytes) : Res Bytes :=
  copyFromSlice (List.replicate length fill) 0 bytes.length bytes

/-- `bytes` at the right of `length` bytes of `fill`. -/
def fillRight (fill : UInt8) (length : Nat) (bytes : Bytes) : Res Bytes := do
  let start ← Outcome.sub length bytes.length
  copyFromSlice (List.replicate length fill) start length bytes

def unsupportedType (field : FieldDescriptor) : Res Bytes :=
  fail (.invalid s!"writing field type 0x{hex [asciiUpper field.fieldType]} is unsupported")

def exceedsWidth (field : FieldDescriptor) : Res Bytes :=
  fail (.invalid s!"value for {field.name} exceeds field width {field.length}")

def encodeVariableField (value : Value) (field : FieldDescriptor) (languageDriver : UInt8)
    (encodingOverride : Option String) : Res Bytes := do
  let length := field.width
  if length = 0 then fail (.invalid s!"variable field {field.name} must not be empty")
  else if value.isNull then .ok (List.replicate length 0)
  else do
    let data ← lift (if field.isBinary then binaryValue value field
      else encodeCharacterWithEncoding value field languageDriver encodingOverride)
    let tooLong : Res Bytes :=
      fail (.invalid s!"value for {field.name} exceeds variable field width {field.length}")
    if data.length > length - 1 then tooLong
    else do
      let output ← fillLeft (if field.isBinary then 0 else 0x20) length data
      if 256 ≤ data.length then tooLong
      else copyFromSlice output (length - 1) length [UInt8.ofNat data.length]

def logicalMarker (value : Value) (field : FieldDescriptor) : Checked UInt8 := do
  let required : Checked UInt8 :=
    invalid s!"logical field {field.name} requires boolean, one-byte text, or null"
  let marker ← match value with
    | .null => .ok 0x20
    | .bool true => .ok 0x54
    | .bool false => .ok 0x46
    | .string text =>
        match utf8 text with
        | [byte] => .ok (asciiUpper byte)
        | _ => required
    | _ => required
  if marker = 0x20 ∨ marker = 0x54 ∨ marker = 0x46 ∨ marker = 0x59 ∨ marker = 0x4e then .ok marker
  else invalid s!"invalid logical marker for {field.name}"

/-- A text of at most the field's width, padded with blanks at the right. -/
def encodePaddedText (value : Value) (field : FieldDescriptor) : Res Bytes := do
  let text ← lift (valueText value field)
  if (utf8 text).length > field.width then exceedsWidth field
  else fillLeft 0x20 field.width (utf8 text)

def encodeTimestamp (value : Value) (field : FieldDescriptor) : Res Bytes := do
  if value.isNull then
    .ok (List.replicate field.width (if field.kind = .t then 0 else 0x20))
  else do
    let datetime ← lift (match value.asStr with
      | some text =>
          if field.kind = .t ∧ field.width = 8 then foxproDatetimeBytes text else .ok none
      | none => .ok none)
    match datetime with
    | some bytes => .ok bytes
    | none => do
        let bytes ← lift (binaryValue value field)
        if bytes.length ≠ field.width then
          fail (.invalid s!"timestamp field {field.name} requires exactly {field.width} bytes")
        else .ok bytes

def encodeCharacterField (field : FieldDescriptor) (value : Value) (languageDriver : UInt8)
    (encodingOverride : Option String) : Res Bytes := do
  let bytes ← lift (if field.isBinary then binaryValue value field
    else encodeCharacterWithEncoding value field languageDriver encodingOverride)
  if bytes.length > field.width then exceedsWidth field
  else fillLeft (if field.isBinary then 0 else 0x20) field.width bytes

def encodeDouble (value : Value) (field : FieldDescriptor) : Res Bytes := do
  let number ← lift (valueF64 value field)
  .ok number.toLeBytes

def encodeBlock (value : Value) (field : FieldDescriptor) : Res Bytes := do
  let number ← lift (valueU32 value field)
  .ok (toLeBytes 4 number)

def encodeCurrency (value : Value) (field : FieldDescriptor) : Res Bytes :=
  if field.width ≠ 8 then fail (.invalid s!"currency field {field.name} must be eight bytes")
  else do
    let amount ← lift (currencyI64 value field)
    .ok (signedToLeBytes 8 amount)

def encodeDate (value : Value) (field : FieldDescriptor) : Res Bytes :=
  if field.width ≠ 8 then fail (.invalid s!"date field {field.name} must be eight bytes")
  else do
    let text ← lift (valueText value field)
    if text.isEmpty then .ok (List.replicate field.width 0x20)
    else if (utf8 text).length ≠ field.width ∨ ¬ (utf8 text).all isAsciiDigit then
      fail (.invalid s!"date field {field.name} requires YYYYMMDD or null")
    else .ok (utf8 text)

def encodeNumber (value : Value) (field : FieldDescriptor) : Res Bytes := do
  let text ← lift (numericFieldText value field)
  if (utf8 text).length > field.width then exceedsWidth field
  else fillRight 0x20 field.width (utf8 text)

def encodeLogical (value : Value) (field : FieldDescriptor) : Res Bytes := do
  let marker ← lift (logicalMarker value field)
  .ok (List.replicate field.width marker)

def encodeInteger (value : Value) (field : FieldDescriptor) : Res Bytes :=
  if field.width ≠ 4 then fail (.invalid s!"integer field {field.name} must be four bytes")
  else do
    let integer ← lift (valueI64 value field)
    if integer < -2 ^ 31 ∨ 2 ^ 31 ≤ integer then
      fail (.invalid s!"integer value for {field.name} is out of range")
    else .ok (signedToLeBytes 4 integer)

def encodeFieldWithEncoding (field : FieldDescriptor) (value : Value) (languageDriver : UInt8)
    (encodingOverride : Option String) : Res Bytes :=
  match field.kind with
  | .q | .v => encodeVariableField value field languageDriver encodingOverride
  | .c => encodeCharacterField field value languageDriver encodingOverride
  | .b =>
      if field.width = 8 then encodeDouble value field
      else if field.width = 4 then encodeBlock value field
      else encodePaddedText value field
  | .y => encodeCurrency value field
  | .g | .m => if field.width = 4 then encodeBlock value field else encodePaddedText value field
  | .p | .w => if field.width = 4 then encodeBlock value field else unsupportedType field
  | .d => encodeDate value field
  | .at | .t => encodeTimestamp value field
  | .n | .f => encodeNumber value field
  | .l => encodeLogical value field
  | .i | .plus => encodeInteger value field
  | .o =>
      if field.width ≠ 8 then fail (.invalid s!"double field {field.name} must be eight bytes")
      else encodeDouble value field
  | .other _ => unsupportedType field

/-- The number in a text field, or its text when it is not one. -/
def numeric (bytes : Bytes) : Value :=
  let text := trim (plainText bytes)
  if text.isEmpty then .null
  else
    match parseSigned 64 text with
    | some integer => .int integer
    | none =>
      match (Runtime.parseF64 text).bind Number.fromF64 with
      | some number => .number number
      | none => .string text

def decodeDouble (bytes : Bytes) : Value :=
  match Number.fromF64 (F64.ofLeBytes (bytes.take 8)) with
  | some number => .number number
  | none => .null

def decodeLogical : Bytes → Value
  | [] => .null
  | byte :: _ =>
      if asciiUpper byte = 0x54 ∨ asciiUpper byte = 0x59 then .bool true
      else if asciiUpper byte = 0x46 ∨ asciiUpper byte = 0x4e then .bool false
      else .null

def decodeFoxproDatetime (bytes : Bytes) : Value :=
  if fromLeBytes (bytes.take 4) = 0 then .null
  else
    match foxproDatetimeText bytes with
    | some text => .string text
    | none => .string (hex bytes)

def decodeFieldWithEncoding (fieldType : UInt8) (bytes : Bytes) (languageDriver : UInt8)
    (memoFormat : Option MemoFormat) (encodingOverride : Option String) : Value :=
  let text : Value := .string (textWithEncoding bytes languageDriver encodingOverride)
  let block : Value := .int (fromLeBytes bytes)
  match FieldKind.ofByte fieldType with
  | .c => text
  | .d => if bytes.all isPadding then .null else .string (plainText bytes)
  | .t =>
      if memoFormat = some .foxPro ∧ bytes.length ≥ 8 then decodeFoxproDatetime bytes
      else .string (hex bytes)
  | .y => if bytes.length ≥ 8 then .string (currencyText bytes) else text
  | .b =>
      if memoFormat.isSome ∧ memoFormat ≠ some .foxPro ∧ bytes.length ≠ 4 then numeric bytes
      else if bytes.length ≥ 8 then decodeDouble bytes
      else if bytes.length = 4 then block
      else .string (plainText bytes)
  | .g | .m | .p | .w => if bytes.length = 4 then block else .string (plainText bytes)
  | .f | .n => numeric bytes
  | .l => decodeLogical bytes
  | .i | .plus => if bytes.length ≥ 4 then .int (signedOfLeBytes (bytes.take 4)) else text
  | .o => if bytes.length ≥ 8 then decodeDouble bytes else text
  | .at => .string (hex bytes)
  | .q | .v | .other _ => text

def flagIsSet (flags : Bytes) (bit : Nat) : Bool :=
  match flags[bit / 8]? with
  | some byte => byte &&& ((1 : UInt8) <<< UInt8.ofNat (bit % 8)) ≠ 0
  | none => false

/-- `flags` are the bytes of the null-flag field, if the table has one. -/
def nullBitIsSet (nullFlags : Option Bytes) (bit : Option Nat) : Bool :=
  match bit, nullFlags with
  | some bit, some flags => flagIsSet flags bit
  | _, _ => false

def decodeRecordFieldWithEncoding (field : FieldDescriptor) (bytes : Bytes)
    (languageDriver : UInt8) (nullFlags : Option Bytes) (flagBits : Option NullFlagBits)
    (encodingOverride : Option String) : Value :=
  if nullBitIsSet nullFlags (flagBits.bind NullFlagBits.nullable) then .null
  else
    let length := (bytes.getLast?.map UInt8.toNat).getD 0
    let data :=
      if nullBitIsSet nullFlags (flagBits.bind NullFlagBits.varlength) ∧ bytes ≠ [] ∧
          length ≤ bytes.length - 1 then bytes.take length
      else bytes
    if field.isBinary then .string (hex data)
    else .string (textWithEncoding data languageDriver encodingOverride)

/-- An encoder that does not panic, and whose output is `width` bytes long. -/
abbrev Fills (width : Nat) (outcome : Res Bytes) : Prop :=
  Yields outcome fun output => output.length = width

namespace Fills
variable {width : Nat}

omit [Runtime] in
theorem copy {target source : Bytes} {start stop : Nat} (hle : start ≤ stop)
    (hstop : stop ≤ target.length) (hsource : source.length = stop - start)
    (htarget : target.length = width) : Fills width (copyFromSlice target start stop source) :=
  ⟨safe_copyFromSlice hle hstop hsource,
    fun _ houtput => (copyFromSlice_length houtput).trans htarget⟩

variable {bytes : Bytes}

omit [Runtime] in
theorem fillLeft (fill : UInt8) (h : bytes.length ≤ width) :
    Fills width (Dbf.fillLeft fill width bytes) :=
  copy (Nat.zero_le _) (by simpa using h) rfl (by simp)

omit [Runtime] in
theorem fillRight (fill : UInt8) (h : bytes.length ≤ width) :
    Fills width (Dbf.fillRight fill width bytes) := by
  refine .bind (P := fun start => start = width - bytes.length) ?_ ?_
  · refine ⟨by simp [Safe, Outcome.sub, h, Outcome.panicked], fun start hstart => ?_⟩
    exact (Outcome.sub_eq_ok.mp hstart).2
  rintro start rfl
  exact copy (Nat.sub_le _ _) (by simp) (by omega) (by simp)

variable (value : Value) (field : FieldDescriptor)

theorem variableField (driver : UInt8) (encoding : Option String) :
    Fills field.width (encodeVariableField value field driver encoding) := by
  unfold encodeVariableField
  simp only
  split
  · exact .fail _
  · split
    · exact Yields.ok (by simp)
    · refine .bindLift fun data _ => ?_
      split
      · exact .fail _
      · refine .bind (fillLeft _ (by omega)) fun filled hlength => ?_
        split
        · exact .fail _
        · exact copy (by omega) (by omega) (by simp; omega) hlength

theorem paddedText : Fills field.width (encodePaddedText value field) := by
  refine .bindLift fun text _ => ?_
  split
  · exact .fail _
  · exact fillLeft _ (by omega)

omit [Runtime] in
theorem foxproDatetime {text : String} (h : foxproDatetimeBytes text = .ok (some bytes)) :
    bytes.length = 8 := by
  unfold foxproDatetimeBytes at h
  simp only at h
  split at h
  · cases h
  · obtain ⟨year, -, h⟩ := bind_eq_ok.mp h
    obtain ⟨month, -, h⟩ := bind_eq_ok.mp h
    obtain ⟨day, -, h⟩ := bind_eq_ok.mp h
    obtain ⟨hour, -, h⟩ := bind_eq_ok.mp h
    obtain ⟨minute, -, h⟩ := bind_eq_ok.mp h
    obtain ⟨second, -, h⟩ := bind_eq_ok.mp h
    simp only [Bind.bind, Except.bind] at h
    split at h
    · cases h
    · split at h
      · cases h
      · split at h
        · cases h
        · cases h
          simp

omit [Runtime] in
theorem timestamp : Fills field.width (encodeTimestamp value field) := by
  unfold encodeTimestamp
  split
  · exact Yields.ok (by simp)
  · refine .bindLift fun datetime hdatetime => ?_
    cases datetime with
    | some bytes =>
      refine .ok ?_
      split at hdatetime
      · split at hdatetime
        · rename_i hkind
          rw [foxproDatetime hdatetime, hkind.2]
        · cases hdatetime
      · cases hdatetime
    | none =>
      refine .bindLift fun bytes _ => ?_
      split
      · exact .fail _
      · exact .ok (not_not.mp ‹_›)

theorem characterField (field : FieldDescriptor) (value : Value) (driver : UInt8)
    (encoding : Option String) :
    Fills field.width (encodeCharacterField field value driver encoding) := by
  refine .bindLift fun bytes _ => ?_
  split
  · exact .fail _
  · exact fillLeft _ (by omega)

theorem double {field : FieldDescriptor} (value : Value) (h : field.width = 8) :
    Fills field.width (encodeDouble value field) :=
  Yields.bindLift fun number _ => Yields.ok (by simp [F64.toLeBytes, h])

omit [Runtime] in
theorem block {field : FieldDescriptor} (value : Value) (h : field.width = 4) :
    Fills field.width (encodeBlock value field) :=
  Yields.bindLift fun number _ => Yields.ok (by simp [h])

theorem currency : Fills field.width (encodeCurrency value field) := by
  unfold encodeCurrency
  split
  · exact .fail _
  · exact Yields.bindLift fun amount _ => Yields.ok (by simp [signedToLeBytes, not_not.mp ‹_›])

theorem date : Fills field.width (encodeDate value field) := by
  unfold encodeDate
  split
  · exact .fail _
  · refine .bindLift fun text _ => ?_
    split
    · exact Yields.ok (by simp)
    · split
      · exact .fail _
      · exact .ok (not_not.mp (not_or.mp ‹_›).1)

theorem number : Fills field.width (encodeNumber value field) := by
  refine .bindLift fun text _ => ?_
  split
  · exact .fail _
  · exact fillRight _ (by omega)

omit [Runtime] in
theorem integer : Fills field.width (encodeInteger value field) := by
  unfold encodeInteger
  split
  · exact .fail _
  · refine .bindLift fun integer _ => ?_
    split
    · exact .fail _
    · exact Yields.ok (by simp [signedToLeBytes, not_not.mp ‹_›])

theorem encodeField (field : FieldDescriptor) (value : Value) (driver : UInt8)
    (encoding : Option String) :
    Fills field.width (encodeFieldWithEncoding field value driver encoding) := by
  unfold encodeFieldWithEncoding
  split
  case h_1 | h_2 => exact variableField value field driver encoding
  case h_3 => exact characterField field value driver encoding
  case h_4 =>
    split
    · exact double value ‹_›
    · split
      · exact block value ‹_›
      · exact paddedText value field
  case h_5 => exact currency value field
  case h_6 | h_7 =>
    split
    · exact block value ‹_›
    · exact paddedText value field
  case h_8 | h_9 =>
    split
    · exact block value ‹_›
    · exact .fail _
  case h_10 => exact date value field
  case h_11 | h_12 => exact timestamp value field
  case h_13 | h_14 => exact number value field
  case h_15 => exact Yields.bindLift fun marker _ => Yields.ok (by simp)
  case h_16 | h_17 => exact integer value field
  case h_18 =>
    split
    · exact .fail _
    · exact double value (not_not.mp ‹_›)
  case h_19 => exact .fail _

end Fills

end TxBase.Dbf
