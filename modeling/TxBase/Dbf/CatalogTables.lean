import TxBase.Dbf.IndexFile
import TxBase.Dbf.RowMvcc
import TxBase.Json.Text

/-! What a catalog asks of a table: its relationships and constraint modes
(`src/dbf/schema_metadata/constraints.rs`), its description and its tag (`src/dbf/schema.rs`,
`src/dbf/types.rs`), and the images that a catalog transaction stages
(`src/dbf/persistence.rs`, `src/dbf/mvcc.rs`). -/
namespace TxBase.Dbf
open Lib Json
open Outcome (lift)

inductive ConstraintMode where
  | immediate
  | deferred
  deriving DecidableEq

def ConstraintMode.of (deferred : Bool) : ConstraintMode :=
  if deferred then .deferred else .immediate

namespace SchemaMetadata

def hasUniqueKey (schema : SchemaMetadata) (fields : List String) : Bool :=
  let matchesKey (key : List String) : Bool :=
    key.length = fields.length && key.all fun field => fields.contains field
  (fields.length = 1 && (schema.fields.get? (fields.headD "")).any fun metadata =>
      metadata.primary || metadata.unique) ||
    matchesKey schema.constraints.primary || schema.constraints.unique.any matchesKey ||
    schema.constraints.deferrable.any fun constraint =>
      (constraint.kind = .primaryKey || constraint.kind = .unique) && matchesKey constraint.fields

def localDeferrableConstraintModes (schema : SchemaMetadata) : OrderedMap String ConstraintMode :=
  OrderedMap.ofList (schema.constraints.deferrable.map fun constraint =>
    (constraint.name, .of constraint.deferred))

def deferrableConstraintModes (schema : SchemaMetadata) :
    Checked (OrderedMap String ConstraintMode) := do
  let keys ← schema.foreignKeys
  .ok (OrderedMap.extend schema.localDeferrableConstraintModes
    ((keys.filter ForeignKey.deferrable).map fun key => (key.name, .of key.deferred)))

end SchemaMetadata

/-- The derived serialisation of schema metadata, as `json!` embeds it. -/
class SchemaJson where
  json : SchemaMetadata → Value

/-- A description without metadata, for tables that have none. -/
@[reducible] def SchemaJson.none : SchemaJson := ⟨fun _ => .null⟩

structure PreparedSnapshot where
  dbf : Bytes
  memo : Option MemoSnapshot
  indexPayload : Option Bytes
  deriving DecidableEq

namespace DbfTable

def foreignKeys (table : DbfTable) : Checked (List ForeignKey) :=
  match table.schema with
  | none => .ok []
  | some schema => schema.foreignKeys

def hasUniqueKey (table : DbfTable) (fields : List String) : Bool :=
  table.schema.any fun schema => schema.hasUniqueKey fields

def deferrableConstraintModes (table : DbfTable) : Checked (OrderedMap String ConstraintMode) :=
  match table.schema with
  | none => .ok []
  | some schema => schema.deferrableConstraintModes

def activeRecords (table : DbfTable) : List DbfRecord :=
  table.records.filter fun record => !record.deleted

section Description
variable [Runtime] [SchemaJson]

def fieldJson (table : DbfTable) (field : FieldDescriptor) : Value :=
  .ofMembers
    [("name", .string field.name),
     ("type", .string (fromUtf8Lossy [field.fieldType])),
     ("offset", .ofNat field.offset),
     ("length", .ofNat field.length.toNat),
     ("decimal_count", .ofNat field.decimalCount.toNat),
     ("flags", .ofNat field.flags.toNat),
     ("system", .bool field.isSystem),
     ("nullable", .bool field.isNullable),
     ("variable", .bool field.isVariable),
     ("binary", .bool field.isBinary),
     ("auto_increment", .bool (field.isAutoIncrement table.header.version))]

def encodingSource (table : DbfTable) : String :=
  if table.encodingOverride.isSome then "explicit-override"
  else if (encodingName table.header.languageDriver).isSome then "language-driver"
  else "fallback"

def schemaJson (table : DbfTable) : Value :=
  let declared := encodingName table.header.languageDriver
  .ofMembers
    [("format", .string "dbf"),
     ("version", .ofNat table.header.version.toNat),
     ("last_update", .array (table.header.lastUpdate.map fun byte => .ofNat byte.toNat)),
     ("language_driver", .ofNat table.header.languageDriver.toNat),
     ("encoding", .ofOption declared),
     ("encoding_override", .ofOption table.encodingOverride),
     ("encoding_metadata", .ofMembers
       [("declared", .ofOption declared),
        ("effective", .ofOption (table.encodingOverride.or declared)),
        ("source", .string table.encodingSource)]),
     ("schema_metadata", (table.schema.map SchemaJson.json).getD .null),
     ("header_length", .ofNat table.header.headerLength),
     ("record_length", .ofNat table.header.recordLength),
     ("record_count", .ofNat table.header.recordCount),
     ("active_record_count", .ofNat table.activeRecords.length),
     ("memo_sidecar", .bool table.memo.isSome),
     ("fields", .array (table.fields.map table.fieldJson))]

def activeJson (table : DbfTable) : List Value :=
  table.activeRecords.map fun record => .object record.values

def representationHash (table : DbfTable) : Nat :=
  fnv1a (table.bytes ++ (Value.array table.activeJson).toVec)

end Description

section Images
variable [Runtime] [Filters] [Serde]

/-- The table without pending memos, and the files that its commit stages. -/
def prepareSnapshot [Indexing] (table : DbfTable) (path : String) (disk : Disk) :
    Res (DbfTable × PreparedSnapshot) := do
  let table ← table.bindSchemaIfPresent disk
  lift (table.ensureSourceCurrent path disk)
  let (table, memo) ← table.applyMemoUpdates disk.memo
  let indexPayload ← lift (indexed (pendingSnapshotPayload disk table table.bytes
    (memo.map MemoSnapshot.bytes)))
  .ok (table, ⟨table.bytes, memo, indexPayload⟩)

/-- The memo file of a catalog snapshot, with the tag of its format. -/
def memoPart (table : DbfTable) : Option (UInt8 × Bytes) :=
  table.memo.map fun memo => (memo.format.tag, memo.bytes)

/-- A table of a catalog snapshot; it is read-only. -/
def fromCatalogSnapshot (dbf : Bytes) (memo : Option (UInt8 × Bytes)) (schema : Option Bytes) :
    Res DbfTable := do
  let memo ← lift (match memo with
    | none => .ok none
    | some (tag, bytes) => do
        let format ← MemoFormat.fromTag tag
        .ok (some (MemoSnapshot.mk format bytes)))
  let table ← fromSnapshot ⟨dbf, memo, schema, 1, none⟩
  .ok { table with historicalSnapshot := true }

end Images

end DbfTable

end TxBase.Dbf
