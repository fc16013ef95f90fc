import TxBase.Dbf.Codec

/-! Reading a table from its image: the field descriptors and null flags of
`src/dbf/codec_fields.rs` and the parser of `src/dbf/parser.rs`. -/
namespace TxBase.Dbf
open Lib Json

def classicHeaderSize : Nat := 32
def classicDescriptorSize : Nat := 32
def level7HeaderSize : Nat := 68
def level7DescriptorSize : Nat := 48
def fieldTerminator : UInt8 := 0x0d
def eofMarker : UInt8 := 0x1a
def activeRecord : UInt8 := 0x20
def deletedRecord : UInt8 := 0x2a

def readU16 (bytes : Bytes) (offset : Nat) : Checked Nat :=
  if bytes.length < offset + 2 then invalid "header is truncated"
  else .ok (fromLeBytes (slice bytes offset (offset + 2)))

def readU32 (bytes : Bytes) (offset : Nat) : Checked Nat :=
  if bytes.length < offset + 4 then invalid "header is truncated"
  else .ok (fromLeBytes (slice bytes offset (offset + 4)))

/-- Where the type, length, decimals and flags of a descriptor are. -/
structure DescriptorShape where
  size : Nat
  nameSize : Nat
  typeOffset : Nat
  lengthOffset : Nat
  decimalOffset : Nat
  flagsOffset : Option Nat
  deriving DecidableEq

def classicShape : DescriptorShape := ⟨classicDescriptorSize, 11, 11, 16, 17, some 18⟩
def level7Shape : DescriptorShape := ⟨level7DescriptorSize, 32, 32, 33, 34, none⟩

def isLevel7 (version : UInt8) : Bool := version &&& 0x07 = 4

/-- Where the descriptors start, and their shape. -/
def descriptorArea (version : UInt8) : Nat × DescriptorShape :=
  if isLevel7 version then (level7HeaderSize, level7Shape) else (classicHeaderSize, classicShape)

section Fields
variable [Runtime]

/-- One descriptor; the field starts at `offset` in its record. -/
def parseDescriptor (shape : DescriptorShape) (descriptor : Bytes) (languageDriver : UInt8)
    (encodingOverride : Option String) (offset : Nat) : FieldDescriptor where
  name :=
    trim (textWithEncoding ((descriptor.take shape.nameSize).takeWhile (· ≠ 0)) languageDriver
      encodingOverride)
  fieldType := descriptor.getD shape.typeOffset 0
  length := descriptor.getD shape.lengthOffset 0
  decimalCount := descriptor.getD shape.decimalOffset 0
  flags := match shape.flagsOffset with
    | some flagsOffset => descriptor.getD flagsOffset 0
    | none => 0
  offset := offset

/-- The loop of `parse_fields` over `count` descriptors from `start` on. -/
def parseFieldsFrom (bytes : Bytes) (shape : DescriptorShape) (languageDriver : UInt8)
    (encodingOverride : Option String) (start : Nat) (names : List String) (offset : Nat) :
    Nat → Checked (List FieldDescriptor)
  | 0 => .ok []
  | count + 1 =>
      let descriptor := slice bytes start (start + shape.size)
      let field := parseDescriptor shape descriptor languageDriver encodingOverride offset
      if field.name.isEmpty ∨ field.name ∈ names then
        invalid "field names must be non-empty and unique"
      else if field.length = 0 then invalid s!"field {field.name} has zero width"
      else
        match checkedAdd offset field.width u64Size with
        | none => invalid "field offsets overflow usize"
        | some next => do
            let rest ← parseFieldsFrom bytes shape languageDriver encodingOverride
              (start + shape.size) (field.name :: names) next count
            .ok (field :: rest)

def parseFields (bytes : Bytes) (start stop : Nat) (shape : DescriptorShape)
    (languageDriver : UInt8) (encodingOverride : Option String) : Checked (List FieldDescriptor) :=
  if (stop - start) % shape.size ≠ 0 then invalid "field descriptor area is misaligned"
  else
    parseFieldsFrom bytes shape languageDriver encodingOverride start [] 1
      ((stop - start) / shape.size)

end Fields

/-- The bits of each field, counted from `nextBit` on. -/
def nullFlagLayoutFrom (nextBit : Nat) : List FieldDescriptor → List (Option NullFlagBits)
  | [] => []
  | field :: rest =>
      if field.isSystem then none :: nullFlagLayoutFrom nextBit rest
      else
        let varlength := if field.isVariable then some nextBit else none
        let afterVarlength := nextBit + if field.isVariable then 1 else 0
        let nullable := if field.isNullable then some afterVarlength else none
        let afterNullable := afterVarlength + if field.isNullable then 1 else 0
        (if varlength.isSome ∨ nullable.isSome then some ⟨varlength, nullable⟩ else none) ::
          nullFlagLayoutFrom afterNullable rest

def nullFlagLayout (fields : List FieldDescriptor) : List (Option NullFlagBits) :=
  nullFlagLayoutFrom 0 fields

/-- The field that holds the null flags, the first system field. -/
def systemField (fields : List FieldDescriptor) : Option FieldDescriptor :=
  fields.find? FieldDescriptor.isSystem

/-- The first offset of the grid that holds the terminator. -/
def findTerminator (bytes : Bytes) (step stop offset : Nat) : Option Nat :=
  if offset < stop ∧ 0 < step then
    if bytes[offset]? = some fieldTerminator then some offset
    else findTerminator bytes step stop (offset + step)
  else none
termination_by stop - offset

def memoFormatForVersion (version : UInt8) : Option MemoFormat :=
  match version.toNat with
  | 0x83 => some .dbase3
  | 0x8b => some .dbase4
  | 0x30 | 0x31 | 0x32 | 0xf5 => some .foxPro
  | _ => none

def isFoxproTable (version : UInt8) : Bool := 0x30 ≤ version ∧ version ≤ 0x32

section Parse
variable [Runtime]

/-- The header and the fields of an image, and the size of its record area. -/
def parseLayout (bytes : Bytes) (encodingOverride : Option String) :
    Checked (DbfHeader × List FieldDescriptor) := do
  reject (bytes.length < classicHeaderSize) "header is truncated"
  let recordCount ← readU32 bytes 4
  let headerLength ← readU16 bytes 8
  let recordLength ← readU16 bytes 10
  let header : DbfHeader :=
    { version := bytes.getD 0 0, lastUpdate := slice bytes 1 4, recordCount, headerLength,
      recordLength, languageDriver := bytes.getD 29 0 }
  reject (headerLength < classicHeaderSize + 1 ∨ bytes.length < headerLength)
    s!"header length {headerLength} is outside the file"
  reject (recordLength = 0) "record length is zero"
  let (descriptorStart, shape) := descriptorArea header.version
  reject (headerLength ≤ descriptorStart) "field descriptor area is missing"
  let terminator ← required (findTerminator bytes shape.size headerLength descriptorStart)
    "field descriptor terminator is missing"
  let fields ← parseFields bytes descriptorStart terminator shape header.languageDriver
    encodingOverride
  let expected := (fields.map FieldDescriptor.width).sum + 1
  reject (expected ≠ recordLength)
    s!"record length {recordLength} does not match fields ({expected})"
  reject (u64Size ≤ headerLength + recordCount * recordLength) "record area overflows usize"
  reject (bytes.length < headerLength + recordCount * recordLength) "record area is truncated"
  .ok (header, fields)

def recordNullFlags (fields : List FieldDescriptor) (record : Bytes) : Option Bytes :=
  match systemField fields with
  | some field =>
      if field.stop ≤ record.length then some (slice record field.offset field.stop) else none
  | none => none

def decodeValue (header : DbfHeader) (encodingOverride : Option String) (nullFlags : Option Bytes)
    (record : Bytes) (field : FieldDescriptor) (bits : Option NullFlagBits) : Value :=
  let stored := slice record field.offset field.stop
  if isFoxproTable header.version ∧
      nullBitIsSet nullFlags (bits.bind NullFlagBits.nullable) then .null
  else if header.version = 0x32 ∧ field.isVariable then
    decodeRecordFieldWithEncoding field stored header.languageDriver nullFlags bits encodingOverride
  else if field.kind = .c ∧ field.isBinary then .string (hex stored)
  else
    decodeFieldWithEncoding field.fieldType stored header.languageDriver
      (memoFormatForVersion header.version) encodingOverride

def decodeValues (header : DbfHeader) (fields : List FieldDescriptor)
    (encodingOverride : Option String) (record : Bytes) : Map :=
  OrderedMap.ofList (((fields.zip (nullFlagLayout fields)).filter fun entry =>
    !entry.1.isSystem).map fun entry =>
      (entry.1.name, decodeValue header encodingOverride (recordNullFlags fields record) record
        entry.1 entry.2))

def recordSlice (bytes : Bytes) (header : DbfHeader) (index : Nat) : Bytes :=
  slice bytes (header.headerLength + index * header.recordLength)
    (header.headerLength + index * header.recordLength + header.recordLength)

def parseRecord (bytes : Bytes) (header : DbfHeader) (fields : List FieldDescriptor)
    (encodingOverride : Option String) (index : Nat) : Checked DbfRecord :=
  let record := recordSlice bytes header index
  let marker := record.headD 0
  let parsed := fun deleted : Bool =>
    (⟨index + 1, deleted, decodeValues header fields encodingOverride record⟩ : DbfRecord)
  if marker = activeRecord then .ok (parsed false)
  else if marker = deletedRecord then .ok (parsed true)
  else invalid s!"record {index + 1} has unknown deletion marker 0x{hex [marker]}"

def parseRecordsFrom (bytes : Bytes) (header : DbfHeader) (fields : List FieldDescriptor)
    (encodingOverride : Option String) (index : Nat) : Nat → Checked (List DbfRecord)
  | 0 => .ok []
  | count + 1 => do
      let record ← parseRecord bytes header fields encodingOverride index
      let rest ← parseRecordsFrom bytes header fields encodingOverride (index + 1) count
      .ok (record :: rest)

def fromBytesWithEncoding (bytes : Bytes) (encodingOverride : Option String) :
    Checked DbfTable := do
  let (header, fields) ← parseLayout bytes encodingOverride
  let records ← parseRecordsFrom bytes header fields encodingOverride 0 header.recordCount
  .ok
    { header, fields, records, storedValues := records.map DbfRecord.values, bytes, memo := none,
      schema := none, encodingOverride, memoUpdates := [], transactionId := none, source := none,
      historicalSnapshot := false, layoutChanged := false }

def fromBytes (bytes : Bytes) : Checked DbfTable := fromBytesWithEncoding bytes none

end Parse

end TxBase.Dbf
