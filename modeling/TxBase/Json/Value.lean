import TxBase.Lib.OrderedMap
import TxBase.Lib.Text

/-! JSON values as `serde_json` keeps them: integers of the `i64` or `u64` range,
finite doubles and objects in key order; and the order of scalars.  What the model takes from the platform
(decimal conversion of doubles, multi-byte encodings) is the class `Runtime`. -/
namespace TxBase.Json
open Lib

/-- An IEEE double, as its bits. -/
structure F64 where
  bits : UInt64
  deriving DecidableEq

namespace F64

def isFinite (value : F64) : Bool := (value.bits >>> 52) &&& 0x7ff ≠ 0x7ff

def zero : F64 := ⟨0⟩

/-- Both zeros, `0.0` and `-0.0`, have no bit set but the sign. -/
def isZero (value : F64) : Bool := value.bits &&& 0x7fffffffffffffff = 0

def eqv (left right : F64) : Bool := left = right ∨ (left.isZero ∧ right.isZero)

def toLeBytes (value : F64) : Bytes := Lib.toLeBytes 8 value.bits.toNat

def ofLeBytes (bytes : Bytes) : F64 := ⟨UInt64.ofNat (fromLeBytes bytes)⟩

end F64

inductive Number where
  | int (value : { value : Int // -2 ^ 63 ≤ value ∧ value < 2 ^ 64 })
  | float (value : { value : F64 // value.isFinite = true })
  deriving DecidableEq

inductive Value where
  | null
  | bool (value : Bool)
  | number (value : Number)
  | string (value : String)
  | array (values : List Value)
  | object (entries : List (String × Value))
  deriving Inhabited

/-- `serde_json::Map` without `preserve_order`. -/
abbrev Map := OrderedMap String Value

namespace Number

def ofInt? (value : Int) : Option Number :=
  if h : -2 ^ 63 ≤ value ∧ value < 2 ^ 64 then some (.int ⟨value, h⟩) else none

def fromF64 (value : F64) : Option Number :=
  if h : value.isFinite = true then some (.float ⟨value, h⟩) else none

def asI64 : Number → Option Int
  | .int value => if value.val < 2 ^ 63 then some value.val else none
  | .float _ => none

def asU64 : Number → Option Nat
  | .int value => if 0 ≤ value.val then some value.val.toNat else none
  | .float _ => none

def eqv : Number → Number → Bool
  | .int left, .int right => left = right
  | .float left, .float right => left.val.eqv right.val
  | _, _ => false

end Number

namespace Value

def int (value : Int) : Value :=
  match Number.ofInt? value with
  | some integer => .number integer
  | none => .null

def isNull : Value → Bool
  | .null => true
  | _ => false

def isCompound : Value → Bool
  | .array _ | .object _ => true
  | _ => false

def asStr : Value → Option String
  | .string text => some text
  | _ => none

def asObject : Value → Option Map
  | .object entries => some entries
  | _ => none

mutual

/-- `==` on values: structural, except that the two zeros are equal. -/
def eqv : Value → Value → Bool
  | .null, .null => true
  | .bool left, .bool right => left = right
  | .number left, .number right => left.eqv right
  | .string left, .string right => left = right
  | .array left, .array right => eqvList left right
  | .object left, .object right => eqvEntries left right
  | _, _ => false

def eqvList : List Value → List Value → Bool
  | [], [] => true
  | left :: lefts, right :: rights => left.eqv right && eqvList lefts rights
  | _, _ => false

def eqvEntries : List (String × Value) → List (String × Value) → Bool
  | [], [] => true
  | (key, left) :: lefts, (other, right) :: rights =>
      key = other && left.eqv right && eqvEntries lefts rights
  | _, _ => false

end

mutual

def decEq : (left right : Value) → Decidable (left = right)
  | .null, .null => isTrue rfl
  | .bool left, .bool right => decidable_of_iff (left = right) (by simp)
  | .number left, .number right => decidable_of_iff (left = right) (by simp)
  | .string left, .string right => decidable_of_iff (left = right) (by simp)
  | .array left, .array right =>
      match decEqList left right with
      | isTrue h => isTrue (by rw [h])
      | isFalse h => isFalse (by simpa using h)
  | .object left, .object right =>
      match decEqEntries left right with
      | isTrue h => isTrue (by rw [h])
      | isFalse h => isFalse (by simpa using h)
  | .null, .bool _ | .null, .number _ | .null, .string _ | .null, .array _ | .null, .object _
  | .bool _, .null | .bool _, .number _ | .bool _, .string _ | .bool _, .array _
  | .bool _, .object _ | .number _, .null | .number _, .bool _ | .number _, .string _
  | .number _, .array _ | .number _, .object _ | .string _, .null | .string _, .bool _
  | .string _, .number _ | .string _, .array _ | .string _, .object _ | .array _, .null
  | .array _, .bool _ | .array _, .number _ | .array _, .string _ | .array _, .object _
  | .object _, .null | .object _, .bool _ | .object _, .number _ | .object _, .string _
  | .object _, .array _ => isFalse (by simp)

def decEqList : (left right : List Value) → Decidable (left = right)
  | [], [] => isTrue rfl
  | left :: lefts, right :: rights =>
      match decEq left right, decEqList lefts rights with
      | isTrue hhead, isTrue htail => isTrue (by rw [hhead, htail])
      | isFalse hhead, _ => isFalse (by simp [hhead])
      | _, isFalse htail => isFalse (by simp [htail])
  | [], _ :: _ | _ :: _, [] => isFalse (by simp)

def decEqEntries : (left right : List (String × Value)) → Decidable (left = right)
  | [], [] => isTrue rfl
  | (key, left) :: lefts, (other, right) :: rights =>
      if hkey : key = other then
        match decEq left right, decEqEntries lefts rights with
        | isTrue hhead, isTrue htail => isTrue (by rw [hkey, hhead, htail])
        | isFalse hhead, _ => isFalse (by simp [hhead])
        | _, isFalse htail => isFalse (by simp [htail])
      else isFalse (by simp [hkey])
  | [], _ :: _ | _ :: _, [] => isFalse (by simp)

end

instance : DecidableEq Value := decEq

end Value

/-- The encodings of `encoding_rs` that the code pages name. -/
inductive Encoding where
  | big5
  | eucJp
  | eucKr
  | gb18030
  | gbk
  | iso2022Jp
  | shiftJis
  deriving DecidableEq

/-- What the program takes from outside the repository, left open here. -/
class Runtime where
  parseF64 : String → Option F64
  /-- The shortest decimal form, as `serde_json` prints a double. -/
  displayF64 : F64 → String
  f64OfInt : Int → F64
  addF64 : F64 → F64 → F64
  /-- `String::from_utf8_lossy` on bytes that are not valid UTF-8. -/
  utf8Lossy : Bytes → String
  /-- `decode_without_bom_handling`: the text and whether there were errors. -/
  decode : Encoding → Bytes → String × Bool
  encode : Encoding → String → Bytes × Bool

/-- A platform without floating point and without encodings, for runs that need neither. -/
@[reducible] def Runtime.bare : Runtime where
  parseF64 _ := none
  displayF64 _ := ""
  f64OfInt _ := .zero
  addF64 _ _ := .zero
  utf8Lossy _ := ""
  decode _ _ := ("", true)
  encode _ _ := ([], true)

variable [Runtime]

def Number.asF64 : Number → F64
  | .int value => Runtime.f64OfInt value.val
  | .float value => value.val

def Number.display : Number → String
  | .int value => toString value.val
  | .float value => Runtime.displayF64 value.val

def fromUtf8Lossy (bytes : Bytes) : String :=
  match fromUtf8? bytes with
  | some text => text
  | none => Runtime.utf8Lossy bytes

theorem fromUtf8Lossy_utf8 (text : String) : fromUtf8Lossy (utf8 text) = text := by
  rw [fromUtf8Lossy, fromUtf8?_utf8]

/-- A number that orders finite doubles as `partial_cmp` does: the magnitude bits
with their sign, so that both zeros are 0. -/
def F64.rank (value : F64) : Int :=
  let magnitude := (value.bits &&& 0x7fffffffffffffff).toNat
  if value.bits >>> 63 = 0 then magnitude else -(magnitude : Int)

def compareNumbers (left right : Number) : Option Ordering :=
  match left.asI64, right.asI64, left.asU64, right.asU64 with
  | some left, some right, _, _ => some (compare left right)
  | _, _, some left, some right => some (compare left right)
  | some left, _, _, some right => some (if left < 0 then .lt else compare left.toNat right)
  | _, some right, some left, _ => some (if right < 0 then .gt else compare left right.toNat)
  | _, _, _, _ => some (compare left.asF64.rank right.asF64.rank)

def compareScalarValues (left right : Value) : Option Ordering :=
  match left, right with
  | .null, .null => some .eq
  | .bool left, .bool right => some (compare left right)
  | .number left, .number right => compareNumbers left right
  | .string left, .string right => some (compare left right)
  | _, _ => none

end TxBase.Json
