import TxBase.Index.Types

/-! The order of index keys, `src/index/ordering.rs`. -/
namespace TxBase.Index
open Json

def scalarTypeRank : Value → Nat
  | .null => 0
  | .bool _ => 1
  | .number _ => 2
  | .string _ => 3
  | .array _ => 4
  | .object _ => 5

section Comparison
variable [Runtime] [Collators]

def compareScalars (collation : Option Collation) (left right : Value) : Ordering :=
  match left, right, collation with
  | .string left, .string right, some collation => collation.compare left right
  | left, right, _ => (compareScalarValues left right).getD
    (compare (scalarTypeRank left) (scalarTypeRank right))

mutual

def compareKeysWithCollation (collation : Option Collation) : IndexKey → IndexKey → Ordering
  | .missing, .missing | .null, .null => .eq
  | .missing, _ => .lt
  | _, .missing => .gt
  | .null, _ => .lt
  | _, .null => .gt
  | .scalar left, .scalar right => compareScalars collation left right
  | .compound left, .compound right => compareParts collation left right
  | .compound _, _ => .gt
  | _, .compound _ => .lt

/-- The first part that differs, then the lengths. -/
def compareParts (collation : Option Collation) : List IndexKey → List IndexKey → Ordering
  | [], [] => .eq
  | [], _ :: _ => .lt
  | _ :: _, [] => .gt
  | left :: lefts, right :: rights =>
      (compareKeysWithCollation collation left right).then (compareParts collation lefts rights)

end

/-- An order, or its reverse for the direction -1. -/
def directed (direction : Option Int) (ordering : Ordering) : Ordering :=
  if direction = some (-1) then ordering.swap else ordering

def compareDirected (collation : Option Collation) :
    List Int → List IndexKey → List IndexKey → Ordering
  | _, [], [] => .eq
  | _, [], _ :: _ => .lt
  | _, _ :: _, [] => .gt
  | directions, left :: lefts, right :: rights =>
      (directed directions.head? (compareKeysWithCollation collation left right)).then
        (compareDirected collation directions.tail lefts rights)

def compareIndexKeys (left right : IndexKey) (directions : List Int)
    (collation : Option Collation) : Ordering :=
  match left, right with
  | .compound left, .compound right => compareDirected collation directions left right
  | left, right => compareKeysWithCollation collation left right

end Comparison

def valueDomain : Value → Nat
  | .null => 1
  | .bool _ => 2
  | .number _ => 3
  | .string _ => 4
  | .array _ => 5
  | .object _ => 6

def keyDomain : IndexKey → Nat
  | .missing => 0
  | .null => 1
  | .scalar value => valueDomain value
  | .compound _ => 5

end TxBase.Index
