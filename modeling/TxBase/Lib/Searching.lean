import Mathlib.Data.List.Sort

/-! Searching and sorting lists by a comparison, as the standard library of the source does. -/
namespace TxBase.Lib
variable {α : Type}

/-- The position at which the probes stop being below, in at most `fuel` halvings. -/
def bisect (probe : Nat → Ordering) : (fuel size base : Nat) → Nat
  | 0, _, base => base
  | fuel + 1, size, base =>
      if size ≤ 1 then base
      else bisect probe fuel (size - size / 2)
        (if probe (base + size / 2) = .gt then base else base + size / 2)

def binarySearchBy (probe : α → Ordering) (items : List α) : Option Nat :=
  let at? := fun i => (items[i]?).elim Ordering.gt probe
  let position := bisect at? items.length items.length 0
  if at? position = .eq then some position else none

def sortBy (order : α → α → Ordering) (items : List α) : List α :=
  items.insertionSort fun left right => order left right ≠ .gt

end TxBase.Lib
