import Mathlib.Data.List.Induction
import TxBase.Lib.Text

/-! Decimal numerals: the value of a run of digits, and a value as digits of a given width. -/
namespace TxBase.Lib
open List

def Digits (chars : List Char) : Prop := ∀ c ∈ chars, c.isDigit = true

def numeralValue (chars : List Char) : Nat := Nat.ofDigitChars 10 chars 0

variable {chars left right : List Char} {width value : Nat} {c : Char}

theorem numeralValue_concat (chars : List Char) (c : Char) :
    numeralValue (chars ++ [c]) = 10 * numeralValue chars + (c.toNat - '0'.toNat) := by
  simp [numeralValue, Nat.ofDigitChars_eq_foldl]

theorem Digits.concat (h : Digits (chars ++ [c])) : Digits chars ∧ c.isDigit = true :=
  ⟨fun other hother => h other (mem_append_left _ hother), h c (by simp)⟩

theorem digitValue_isSome (c : Char) : (digitValue c).isSome = c.isDigit := by
  simp only [digitValue, Char.isDigit, ← Char.le_def]
  split <;> simp_all

theorem digits_iff_all : Digits chars ↔ chars.all (fun c => (digitValue c).isSome) = true := by
  simp [Digits, digitValue_isSome]

theorem digitValue_eq (h : c.isDigit = true) : digitValue c = some (c.toNat - '0'.toNat) := by
  rw [← digitValue_isSome] at h
  unfold digitValue at h ⊢
  split
  · rfl
  · simp_all

theorem parseDigits_eq (hne : chars ≠ []) (h : Digits chars) :
    parseDigits chars = some (numeralValue chars) := by
  have hfold : ∀ start, chars.foldlM (fun value c => (digitValue c).map (value * 10 + ·)) start =
      some (Nat.ofDigitChars 10 chars start) := by
    clear hne
    induction chars with
    | nil => intro start; rfl
    | cons c rest ih =>
      intro start
      rw [foldlM_cons, digitValue_eq (h c mem_cons_self)]
      have hrest := ih (forall_mem_cons.mp h).2
        (start * 10 + (c.toNat - '0'.toNat))
      simpa [Nat.ofDigitChars_eq_foldl, Nat.mul_comm] using hrest
  rw [parseDigits, if_neg (by simpa using hne), hfold]
  rfl

theorem numeralValue_lt (h : Digits chars) : numeralValue chars < 10 ^ chars.length := by
  induction chars using List.reverseRecOn with
  | nil => decide
  | append_singleton chars c ih =>
    obtain ⟨hchars, hc⟩ := h.concat
    have hdigit := Char.isDigit_iff_toNat.mp hc
    have hlt := ih hchars
    rw [numeralValue_concat, length_append, length_singleton, Nat.pow_succ]
    simp only [Char.reduceToNat] at hdigit ⊢
    omega

theorem Digits.inj (hleft : Digits left) (hright : Digits right)
    (hlength : left.length = right.length)
    (hvalue : numeralValue left = numeralValue right) : left = right := by
  induction left using List.reverseRecOn generalizing right with
  | nil => exact (eq_nil_of_length_eq_zero hlength.symm).symm
  | append_singleton left c ih =>
    rcases eq_nil_or_concat' right with rfl | ⟨right, d, rfl⟩
    · simp at hlength
    · obtain ⟨hleft, hc⟩ := hleft.concat
      obtain ⟨hright, hd⟩ := hright.concat
      rw [Char.isDigit_iff_toNat] at hc hd
      rw [numeralValue_concat, numeralValue_concat] at hvalue
      simp only [Char.reduceToNat] at hc hd hvalue
      rw [ih hleft hright (by simpa using hlength) (by omega),
        Char.toNat_inj.mp (show c.toNat = d.toNat by omega)]

theorem decimalPadded_toList (width value : Nat) : (decimalPadded width value).toList =
    List.replicate (width - (Nat.toDigits 10 value).length) '0' ++ Nat.toDigits 10 value := by
  simp only [decimalPadded, Nat.toString_eq_ofList_toDigits, String.toList_append,
    String.toList_ofList,
    String.length_ofList]

theorem digits_toDigits (value : Nat) : Digits (Nat.toDigits 10 value) := fun _ hc =>
  Nat.isDigit_of_mem_toDigits (by decide) (by decide) hc

theorem digits_decimalPadded (width value : Nat) : Digits (decimalPadded width value).toList := by
  intro c hc
  rw [decimalPadded_toList, mem_append] at hc
  rcases hc with hc | hc
  · rw [(mem_replicate.mp hc).2]
    rfl
  · exact digits_toDigits value c hc

theorem numeralValue_decimalPadded (width value : Nat) :
    numeralValue (decimalPadded width value).toList = value := by
  rw [decimalPadded_toList, numeralValue]
  induction width - (Nat.toDigits 10 value).length with
  | zero => exact Nat.ofDigitChars_ten_toDigits
  | succ count ih => exact ih

theorem length_decimalPadded (hwidth : 0 < width) (hvalue : value < 10 ^ width) :
    (decimalPadded width value).toList.length = width := by
  have hle := (Nat.length_toDigits_le_iff (by decide) hwidth).mpr hvalue
  rw [decimalPadded_toList, length_append, length_replicate]
  omega

theorem decimalPadded_numeralValue (hchars : Digits chars) (hne : 0 < chars.length) :
    (decimalPadded chars.length (numeralValue chars)).toList = chars :=
  (digits_decimalPadded _ _).inj hchars (length_decimalPadded hne (numeralValue_lt hchars))
    (numeralValue_decimalPadded _ _)

/-- The digit that an ASCII byte stands for. -/
def digitOf (byte : UInt8) : Char := Char.ofNat byte.toNat

theorem digitOf_ofNat (h : c.isDigit = true) : digitOf (UInt8.ofNat c.toNat) = c ∧
    isAsciiDigit (UInt8.ofNat c.toNat) = true := by
  rw [Char.isDigit_iff_toNat] at h
  simp only [Char.reduceToNat] at h
  have hbyte : (UInt8.ofNat c.toNat).toNat = c.toNat := by
    rw [UInt8.toNat_ofNat', Nat.mod_eq_of_lt (by omega)]
  constructor
  · rw [digitOf, hbyte, Char.ofNat_toNat]
  · simp only [isAsciiDigit, UInt8.le_iff_toNat_le, hbyte, decide_eq_true_eq]
    exact h

theorem utf8_digits (h : Digits chars) :
    utf8 (String.ofList chars) = chars.map fun c => UInt8.ofNat c.toNat := by
  rw [utf8_ofList]
  induction chars with
  | nil => rfl
  | cons c rest ih =>
    have hdigit := Char.isDigit_iff_toNat.mp (h c mem_cons_self)
    have hsize : c.utf8Size = 1 := by
      rw [Char.utf8Size_eq_one_iff, UInt32.le_iff_toNat_le]
      exact hdigit.2.trans (by decide)
    rw [flatMap_cons, map_cons, String.utf8EncodeChar_eq_singleton hsize,
      ih (forall_mem_cons.mp h).2]
    rfl

theorem bytes_of_digits (h : Digits chars) : (utf8 (String.ofList chars)).map digitOf = chars ∧
    (utf8 (String.ofList chars)).all isAsciiDigit = true := by
  rw [utf8_digits h, map_map, all_map]
  constructor
  · conv_rhs => rw [← map_id chars]
    exact map_congr_left fun c hc => (digitOf_ofNat (h c hc)).1
  · exact all_eq_true.mpr fun c hc => (digitOf_ofNat (h c hc)).2

theorem digits_of_bytes {bytes : Bytes} (h : bytes.all isAsciiDigit = true) :
    Digits (bytes.map digitOf) ∧ utf8 (String.ofList (bytes.map digitOf)) = bytes := by
  have hchar : ∀ byte ∈ bytes, (digitOf byte).isDigit = true ∧
      (digitOf byte).toNat = byte.toNat := by
    intro byte hbyte
    have hdigit := all_eq_true.mp h byte hbyte
    simp only [isAsciiDigit, UInt8.le_iff_toNat_le, decide_eq_true_eq] at hdigit
    have hascii : ∀ code < 58, (Char.ofNat code).toNat = code := by decide
    have hnat : (digitOf byte).toNat = byte.toNat := hascii _ (Nat.lt_succ_of_le hdigit.2)
    rw [Char.isDigit_iff_toNat, hnat]
    exact ⟨hdigit, rfl⟩
  have hdigits : Digits (bytes.map digitOf) := by
    intro c hc
    obtain ⟨byte, hbyte, rfl⟩ := mem_map.mp hc
    exact (hchar byte hbyte).1
  refine ⟨hdigits, ?_⟩
  rw [utf8_digits hdigits, map_map]
  conv_rhs => rw [← map_id bytes]
  apply map_congr_left
  intro byte hbyte
  rw [Function.comp_apply, (hchar byte hbyte).2, UInt8.ofNat_toNat, id]

end TxBase.Lib
