import TxBase.Json.Value

/-! `==` on JSON values is an equivalence: two values are equal when they are the same
after every zero has lost its sign. -/
namespace TxBase.Json

/-- The number with a positive zero. -/
def Number.canonical : Number → Number
  | .int value => .int value
  | .float value => if value.val.isZero then .float ⟨.zero, by decide⟩ else .float value

theorem Number.eqv_iff (left right : Number) :
    left.eqv right = true ↔ left.canonical = right.canonical := by
  cases left with
  | int left =>
    cases right with
    | int right => simp [eqv, canonical]
    | float right =>
      simp only [eqv, canonical]
      split <;> simp
  | float left =>
    cases right with
    | int right =>
      simp only [eqv, canonical]
      split <;> simp
    | float right =>
      obtain ⟨left, hleft⟩ := left
      obtain ⟨right, hright⟩ := right
      have hzero : F64.zero.isZero = true := by decide
      simp only [eqv, F64.eqv, canonical, decide_eq_true_eq]
      by_cases hl : left.isZero = true <;> by_cases hr : right.isZero = true <;> simp [hl, hr]
      · constructor
        · rintro rfl
          exact absurd hl hr
        · rintro rfl
          exact absurd hzero hr
      · constructor
        · rintro rfl
          exact absurd hr hl
        · rintro rfl
          exact absurd hzero hl

namespace Value

mutual

def canonical : Value → Value
  | .null => .null
  | .bool value => .bool value
  | .number value => .number value.canonical
  | .string value => .string value
  | .array values => .array (canonicalList values)
  | .object entries => .object (canonicalEntries entries)

def canonicalList : List Value → List Value
  | [] => []
  | value :: rest => value.canonical :: canonicalList rest

def canonicalEntries : List (String × Value) → List (String × Value)
  | [] => []
  | (key, value) :: rest => (key, value.canonical) :: canonicalEntries rest

end

mutual

theorem eqv_iff : (left right : Value) → (left.eqv right = true ↔ left.canonical = right.canonical)
  | .null, right => by cases right <;> simp [eqv, canonical]
  | .bool left, right => by cases right <;> simp [eqv, canonical]
  | .number left, right => by cases right <;> simp [eqv, canonical, Number.eqv_iff]
  | .string left, right => by cases right <;> simp [eqv, canonical]
  | .array left, right => by cases right <;> simp [eqv, canonical, eqvList_iff left]
  | .object left, right => by cases right <;> simp [eqv, canonical, eqvEntries_iff left]

theorem eqvList_iff : (left right : List Value) →
    (eqvList left right = true ↔ canonicalList left = canonicalList right)
  | [], right => by cases right <;> simp [eqvList, canonicalList]
  | head :: rest, right => by
      cases right <;> simp [eqvList, canonicalList, eqv_iff head, eqvList_iff rest]

theorem eqvEntries_iff : (left right : List (String × Value)) →
    (eqvEntries left right = true ↔ canonicalEntries left = canonicalEntries right)
  | [], right => by cases right <;> simp [eqvEntries, canonicalEntries]
  | (key, head) :: rest, right => by
      cases right <;>
        simp [eqvEntries, canonicalEntries, eqv_iff head, eqvEntries_iff rest, and_assoc]

end

theorem null_eqv_iff {value : Value} : Value.null.eqv value = true ↔ value = .null := by
  cases value <;> simp [eqv]

theorem eqv_refl (value : Value) : value.eqv value = true := (eqv_iff value value).mpr rfl

theorem eqv_symm {left right : Value} (h : left.eqv right = true) : right.eqv left = true :=
  (eqv_iff right left).mpr ((eqv_iff left right).mp h).symm

theorem eqv_trans {left middle right : Value} (h : left.eqv middle = true)
    (h' : middle.eqv right = true) : left.eqv right = true :=
  (eqv_iff left right).mpr (((eqv_iff left middle).mp h).trans ((eqv_iff middle right).mp h'))

end Value

end TxBase.Json
