import Mathlib.Data.List.Basic
import Mathlib.Tactic.Ring

/-! Byte strings as lists, and fixed-width little-endian integers.  Integers
are naturals here; a width is the number of bytes an encoding occupies, and
`fromLeBytes_toLeBytes` is the only place where a width has to be large enough. -/
namespace TxBase.Lib
open List

abbrev Bytes := List UInt8

/-- First value outside `u64`, and outside the `usize` of a 64-bit target. -/
def u64Size : Nat := 2 ^ 64
def u32Size : Nat := 2 ^ 32

/-- `isize::MAX`, the most bytes a slice, a vector or a file can hold. -/
def maxLength : Nat := 2 ^ 63 - 1

def checkedAdd (left right limit : Nat) : Option Nat :=
  if left + right < limit then some (left + right) else none

def toLeBytes : (width value : Nat) → Bytes
  | 0, _ => []
  | width + 1, value => UInt8.ofNat value :: toLeBytes width (value / 256)

def fromLeBytes : Bytes → Nat
  | [] => 0
  | byte :: rest => byte.toNat + 256 * fromLeBytes rest

theorem getElem?_concat_eq_some {α : Type} {items : List α} {last found : α} {i : Nat}
    (h : (items ++ [last])[i]? = some found) :
    items[i]? = some found ∨ i = items.length ∧ found = last := by
  rw [getElem?_append] at h
  split at h
  · exact .inl h
  · obtain ⟨hi, rfl⟩ := List.getElem?_eq_some_iff.mp h
    exact .inr ⟨by simp at hi; omega, List.getElem_singleton _⟩

@[simp] theorem toLeBytes_length (width value : Nat) : (toLeBytes width value).length = width := by
  induction width generalizing value with
  | zero => rfl
  | succ width ih => simp [toLeBytes, ih]

theorem fromLeBytes_toLeBytes_mod (width value : Nat) :
    fromLeBytes (toLeBytes width value) = value % 256 ^ width := by
  induction width generalizing value with
  | zero => simp [toLeBytes, fromLeBytes, Nat.mod_one]
  | succ width ih =>
    have hlow : (UInt8.ofNat value).toNat = value % 256 := UInt8.toNat_ofNat'
    rw [toLeBytes, fromLeBytes, ih, hlow, show 256 ^ (width + 1) = 256 * 256 ^ width by ring]
    exact Nat.mod_mul.symm

variable {width : Nat}

theorem fromLeBytes_toLeBytes {value : Nat} (h : value < 256 ^ width) :
    fromLeBytes (toLeBytes width value) = value := by
  rw [fromLeBytes_toLeBytes_mod, Nat.mod_eq_of_lt h]

theorem fromLeBytes_lt (bytes : Bytes) : fromLeBytes bytes < 256 ^ bytes.length := by
  induction bytes with
  | nil => simp [fromLeBytes]
  | cons byte rest ih =>
    have hbyte : byte.toNat < 256 := byte.toNat_lt
    simp only [fromLeBytes, length_cons, Nat.pow_succ]
    omega

theorem toLeBytes_fromLeBytes (bytes : Bytes) :
    toLeBytes bytes.length (fromLeBytes bytes) = bytes := by
  induction bytes with
  | nil => rfl
  | cons byte rest ih =>
    have hbyte : byte.toNat < 256 := byte.toNat_lt
    have hdiv : (byte.toNat + 256 * fromLeBytes rest) / 256 = fromLeBytes rest := by omega
    simp only [length_cons, toLeBytes, fromLeBytes, hdiv, ih]
    congr 1
    apply UInt8.toNat_inj.mp
    rw [UInt8.toNat_ofNat']
    omega

def slice (bytes : Bytes) (start stop : Nat) : Bytes :=
  (bytes.drop start).take (stop - start)

variable {stop start : Nat} {bytes : Bytes}

theorem slice_length (h : stop ≤ bytes.length) :
    (slice bytes start stop).length = stop - start := by
  simp only [slice, length_take, length_drop]
  omega

theorem getElem?_slice (bytes : Bytes) (start stop i : Nat) :
    (slice bytes start stop)[i]? = if start + i < stop then bytes[start + i]? else none := by
  unfold slice
  rw [getElem?_take, getElem?_drop]
  by_cases hi : i < stop - start
  · rw [if_pos hi, if_pos (by omega)]
  · rw [if_neg hi, if_neg (by omega)]

theorem slice_slice (bytes : Bytes) {first last : Nat} (h : start + last ≤ stop) :
    slice (slice bytes start stop) first last = slice bytes (start + first) (start + last) := by
  apply ext_getElem?
  intro i
  rw [getElem?_slice, getElem?_slice, getElem?_slice, ← Nat.add_assoc]
  by_cases hi : first + i < last
  · rw [if_pos hi, if_pos (by omega), if_pos (by omega)]
  · rw [if_neg hi, if_neg (by omega)]

theorem slice_append_right (left right : Bytes) (start stop : Nat) :
    slice (left ++ right) (left.length + start) (left.length + stop) = slice right start stop := by
  unfold slice
  rw [drop_append, drop_eq_nil_of_le (by omega), nil_append]
  congr 1
  · omega
  · congr 1
    omega

variable {left right : Bytes}

theorem slice_append_left (h : stop ≤ left.length) :
    slice (left ++ right) start stop = slice left start stop := by
  unfold slice
  by_cases hs : start ≤ left.length
  · rw [drop_append_of_le_length hs, take_append_of_le_length]
    simp only [length_drop]
    omega
  · have hz : stop - start = 0 := by omega
    simp [hz]

theorem slice_append_middle (left middle right : Bytes) :
    slice (left ++ (middle ++ right)) left.length (left.length + middle.length) = middle := by
  simp [slice]

variable {middle : Bytes}

theorem slice_of_eq (left : Bytes) (h : bytes = left ++ (middle ++ right))
    (hstart : left.length = start)
    (hstop : start + middle.length = stop) : slice bytes start stop = middle := by
  subst h hstart hstop
  exact slice_append_middle left middle right

theorem slice_append_slice (bytes : Bytes) {middle : Nat} (hleft : start ≤ middle)
    (hright : middle ≤ stop) :
    slice bytes start middle ++ slice bytes middle stop = slice bytes start stop := by
  unfold slice
  rw [show bytes.drop middle = (bytes.drop start).drop (middle - start) by
      rw [drop_drop, Nat.add_sub_of_le hleft],
    show stop - start = (middle - start) + (stop - middle) by omega, take_add]

/-- Two byte strings have the same bytes, or both none, at the positions that `kept`
describes. -/
def Agree (kept : Nat → Prop) (left right : Bytes) : Prop :=
  ∀ i, kept i → left[i]? = right[i]?

theorem Agree.refl (kept : Nat → Prop) (bytes : Bytes) : Agree kept bytes bytes :=
  fun _ _ => rfl

variable {kept : Nat → Prop}

theorem Agree.trans (h : Agree kept left middle) (h' : Agree kept middle right) :
    Agree kept left right :=
  fun i hi => (h i hi).trans (h' i hi)

theorem Agree.mono {fewer : Nat → Prop} (h : Agree kept left right)
    (hfewer : ∀ i, fewer i → kept i) :
    Agree fewer left right :=
  fun i hi => h i (hfewer i hi)

theorem Agree.slice (h : Agree kept left right) (start stop : Nat)
    (hkept : ∀ i, start ≤ i → i < stop → kept i) :
    slice left start stop = slice right start stop := by
  apply ext_getElem?
  intro i
  rw [getElem?_slice, getElem?_slice]
  split
  · exact h _ (hkept _ (by omega) (by assumption))
  · rfl

theorem Agree.getD (h : Agree kept left right) {i : Nat} (hi : kept i) :
    left.getD i 0 = right.getD i 0 := by
  rw [getD_eq_getElem?_getD, getD_eq_getElem?_getD, h i hi]

theorem fromLeBytes_slice (width : Nat) {value : Nat} (left : Bytes)
    (h : left ++ toLeBytes width value <+: bytes)
    (hstart : left.length = start) (hstop : start + width = stop) (hvalue : value < 256 ^ width) :
    fromLeBytes (slice bytes start stop) = value := by
  obtain ⟨right, rfl⟩ := h
  rw [append_assoc, slice_of_eq left rfl hstart (by rwa [toLeBytes_length]),
    fromLeBytes_toLeBytes hvalue]

theorem toLeBytes_slice (hwidth : start + width = stop) (h : stop ≤ bytes.length) :
    toLeBytes width (fromLeBytes (slice bytes start stop)) = slice bytes start stop := by
  have hlength : (slice bytes start stop).length = width := by
    rw [slice_length h]
    omega
  rw [← hlength]
  exact toLeBytes_fromLeBytes _

end TxBase.Lib
