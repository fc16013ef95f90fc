import TxBase.Dbf.IndexFile

/-! Secondary indexes, `src/index/types.rs` and `src/collation.rs`: what an index file holds, and
the key under which a record is filed. -/
namespace TxBase.Index
open Lib Json Dbf

inductive Collation where
  | unicodeLowercase
  | unicodeNfkcLowercase
  | icu4x211Ja
  | icu4x211Zh
  | icu4x211Ko
  deriving DecidableEq

/-- Unicode tables and the collators of ICU4X. -/
class Collators where
  /-- `char::to_lowercase`. -/
  toLowercase : Char → List Char
  /-- `nfkc`. -/
  nfkc : String → List Char
  japanese : String → String → Ordering
  chinese : String → String → Ordering
  korean : String → String → Ordering

@[reducible] def Collators.ascii : Collators where
  toLowercase char := [char.toLower]
  nfkc text := text.toList
  japanese := compare
  chinese := compare
  korean := compare

namespace Collation
variable [Collators]

def key (collation : Collation) (value : String) : String :=
  match collation with
  | .unicodeLowercase => String.ofList (value.toList.flatMap Collators.toLowercase)
  | .unicodeNfkcLowercase => String.ofList ((Collators.nfkc value).flatMap Collators.toLowercase)
  | .icu4x211Ja | .icu4x211Zh | .icu4x211Ko => value

def compare (collation : Collation) (left right : String) : Ordering :=
  match collation with
  | .unicodeLowercase | .unicodeNfkcLowercase =>
      Ord.compare (collation.key left) (collation.key right)
  | .icu4x211Ja => Collators.japanese left right
  | .icu4x211Zh => Collators.chinese left right
  | .icu4x211Ko => Collators.korean left right

end Collation

structure IndexDefinition where
  name : String
  fields : List String
  directions : List Int
  collation : Option Collation
  deriving DecidableEq

inductive IndexKey where
  | missing
  | null
  | scalar (value : Value)
  | compound (parts : List IndexKey)

inductive IndexError where
  | io (message : String)
  | json (message : String)
  | dbf (error : DbfError)
  | invalid (message : String)
  | stale (path : String)
  deriving DecidableEq

def IndexError.display : IndexError → String
  | .io message => s!"index I/O error: {message}"
  | .json message => s!"invalid index JSON: {message}"
  | .dbf error => let error := error.display; s!"indexed DBF error: {error}"
  | .invalid message => s!"invalid index: {message}"
  | .stale path => s!"index sidecar is stale: {path}"

abbrev Indexed (α : Type) := Except IndexError α

namespace IndexKey

mutual

/-- `==` on keys, in which values are compared as JSON. -/
def eqv : IndexKey → IndexKey → Bool
  | .missing, .missing => true
  | .null, .null => true
  | .scalar left, .scalar right => left.eqv right
  | .compound left, .compound right => eqvList left right
  | _, _ => false

def eqvList : List IndexKey → List IndexKey → Bool
  | [], [] => true
  | left :: lefts, right :: rights => left.eqv right && eqvList lefts rights
  | _, _ => false

end

section Key
variable [Collators]

def fromValue (value : Option Value) (collation : Option Collation) : Indexed IndexKey :=
  match value with
  | none => .ok .missing
  | some .null => .ok .null
  | some (.bool value) => .ok (.scalar (.bool value))
  | some (.number value) => .ok (.scalar (.number value))
  | some (.string value) => .ok (.scalar
    (.string (collation.elim value fun collation => collation.key value)))
  | some (.array _) | some (.object _) => .error (.invalid "only scalar values can be indexed")

def fromValues (values : List (Option Value)) (collation : Option Collation) : Indexed IndexKey :=
  match values with
  | [value] => fromValue value collation
  | values => do
      let parts ← values.mapM fun value => fromValue value collation
      .ok (.compound parts)

end Key

end IndexKey

structure IndexEntry where
  key : IndexKey
  records : List Nat

structure SecondaryIndex where
  definition : IndexDefinition
  entries : List IndexEntry

structure HistogramBucket where
  lower : IndexKey
  upper : IndexKey
  distinctKeyCount : Nat
  recordCount : Nat

structure IndexStatistics where
  name : String
  histogram : List HistogramBucket

structure CollectionStatistics where
  activeRecordCount : Nat
  indexes : Option (List IndexStatistics)

structure IndexFile where
  format : String
  version : Nat
  source : SourceFingerprint
  statistics : Option CollectionStatistics
  indexes : List SecondaryIndex

def indexFormat : String := "txbase-index"

def indexVersion : Nat := 4

def eqvBy {α : Type} (eqv : α → α → Bool) : List α → List α → Bool
  | [], [] => true
  | left :: lefts, right :: rights => eqv left right && eqvBy eqv lefts rights
  | _, _ => false

def IndexEntry.eqv (left right : IndexEntry) : Bool :=
  left.key.eqv right.key && left.records == right.records

def SecondaryIndex.eqv (left right : SecondaryIndex) : Bool :=
  left.definition == right.definition && eqvBy IndexEntry.eqv left.entries right.entries

def HistogramBucket.eqv (left right : HistogramBucket) : Bool :=
  left.lower.eqv right.lower && left.upper.eqv right.upper &&
    left.distinctKeyCount == right.distinctKeyCount && left.recordCount == right.recordCount

def IndexStatistics.eqv (left right : IndexStatistics) : Bool :=
  left.name == right.name && eqvBy HistogramBucket.eqv left.histogram right.histogram

/-- `serde_json` on index files and on keys. -/
class IndexSerde where
  toVecPretty : IndexFile → Except String Bytes
  fromSlice : Bytes → Except String IndexFile
  keyText : IndexKey → Except String String

def CollectionStatistics.eqv (left right : CollectionStatistics) : Bool :=
  left.activeRecordCount == right.activeRecordCount &&
    match left.indexes, right.indexes with
    | none, none => true
    | some left, some right => eqvBy IndexStatistics.eqv left right
    | _, _ => false

def IndexFile.eqv (left right : IndexFile) : Bool :=
  left.format == right.format && left.version == right.version && left.source == right.source &&
    (match left.statistics, right.statistics with
    | none, none => true
    | some left, some right => left.eqv right
    | _, _ => false) &&
    eqvBy SecondaryIndex.eqv left.indexes right.indexes

/-- A codec for the index files and keys that a closed run meets, each written as its position; a
file starts as an object does. -/
@[reducible] def IndexSerde.listed (files : List IndexFile) (keys : List IndexKey) : IndexSerde where
  toVecPretty file := match files.findIdx? file.eqv with
    | some position => .ok (0x7b :: toLeBytes 2 position)
    | none => .error "unknown file"
  fromSlice
    | 0x7b :: position => documentAt files position
    | _ => .error "expected an object"
  keyText key := match keys.findIdx? key.eqv with
    | some position => .ok (String.ofList (List.replicate position 'k'))
    | none => .error "unknown key"

end TxBase.Index
