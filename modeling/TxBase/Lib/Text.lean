import TxBase.Lib.Bytes

/-! The text operations of the Rust standard library that the model needs: UTF-8,
ASCII case, trimming, and the decimal and hexadecimal forms of integers. -/
namespace TxBase.Lib
open List
open String (ofList fromUTF8?)

/-- The UTF-8 bytes of a text, `str::as_bytes`. -/
def utf8 (text : String) : Bytes := text.toUTF8.data.toList

def fromUtf8? (bytes : Bytes) : Option String := fromUTF8? ⟨bytes.toArray⟩

def asciiUpper (byte : UInt8) : UInt8 :=
  if 0x61 ≤ byte ∧ byte ≤ 0x7a then byte - 0x20 else byte

def asciiLowerChar (c : Char) : Char :=
  if 'A' ≤ c ∧ c ≤ 'Z' then Char.ofNat (c.toNat + 0x20) else c

def asciiLower (text : String) : String := ofList (text.toList.map asciiLowerChar)

def eqIgnoreAsciiCase (left right : String) : Bool := asciiLower left = asciiLower right

/-- `char::is_whitespace`, the Unicode property `White_Space`. -/
def isWhitespace (c : Char) : Bool :=
  (0x09 ≤ c.toNat ∧ c.toNat ≤ 0x0d) ∨ c.toNat = 0x20 ∨ c.toNat = 0x85 ∨ c.toNat = 0xa0 ∨
    c.toNat = 0x1680 ∨ (0x2000 ≤ c.toNat ∧ c.toNat ≤ 0x200a) ∨ c.toNat = 0x2028 ∨
    c.toNat = 0x2029 ∨ c.toNat = 0x202f ∨ c.toNat = 0x205f ∨ c.toNat = 0x3000

/-- Both ends of a text without the characters that satisfy `drop`. -/
def trimMatches (drop : Char → Bool) (text : String) : String :=
  ofList ((text.toList.dropWhile drop).reverse.dropWhile drop).reverse

def trim (text : String) : String := trimMatches isWhitespace text

def isAsciiDigit (byte : UInt8) : Bool := 0x30 ≤ byte ∧ byte ≤ 0x39

def digitValue (c : Char) : Option Nat :=
  if '0' ≤ c ∧ c ≤ '9' then some (c.toNat - '0'.toNat) else none

/-- The value of a non-empty run of decimal digits. -/
def parseDigits (digits : List Char) : Option Nat :=
  if digits.isEmpty then none
  else digits.foldlM (fun value c => (digitValue c).map (value * 10 + ·)) 0

def parseUnsigned (limit : Nat) (text : String) : Option Nat :=
  let digits := match text.toList with
    | '+' :: rest => rest
    | chars => chars
  (parseDigits digits).filter (· < limit)

def parseSigned (bits : Nat) (text : String) : Option Int :=
  let value := match text.toList with
    | '+' :: rest => (parseDigits rest).map Int.ofNat
    | '-' :: rest => (parseDigits rest).map fun value => -Int.ofNat value
    | chars => (parseDigits chars).map Int.ofNat
  value.filter fun value => -(2 ^ (bits - 1) : Int) ≤ value ∧ value < (2 ^ (bits - 1) : Int)

def splitChars (separator : Char) : List Char → List (List Char)
  | [] => [[]]
  | c :: rest =>
      if c = separator then [] :: splitChars separator rest
      else
        match splitChars separator rest with
        | [] => [[c]]
        | first :: others => (c :: first) :: others

/-- The decimal form of a natural, at least `width` characters. -/
def decimalPadded (width value : Nat) : String :=
  let digits := toString value
  ofList (List.replicate (width - digits.length) '0') ++ digits

def hexDigitChar (nibble : Nat) : Char :=
  if nibble < 10 then Char.ofNat (0x30 + nibble) else Char.ofNat (0x61 + nibble - 10)

def hexByte (byte : UInt8) : List Char :=
  [hexDigitChar (byte.toNat / 16), hexDigitChar (byte.toNat % 16)]

def hex (bytes : Bytes) : String := ofList (bytes.flatMap hexByte)

def hexDigit (byte : UInt8) : Option UInt8 :=
  if 0x30 ≤ byte ∧ byte ≤ 0x39 then some (byte - 0x30)
  else if 0x61 ≤ byte ∧ byte ≤ 0x66 then some (byte - 0x61 + 10)
  else if 0x41 ≤ byte ∧ byte ≤ 0x46 then some (byte - 0x41 + 10)
  else none

theorem trimMatches_of_none {drop : Char → Bool} {text : String}
    (h : ∀ c ∈ text.toList, drop c = false) : trimMatches drop text = text := by
  have hkept : ∀ chars : List Char, (∀ c ∈ chars, drop c = false) →
      chars.dropWhile drop = chars := by
    intro chars hchars
    cases chars with
    | nil => rfl
    | cons c rest => rw [dropWhile_cons_of_neg (by simp [hchars c])]
  unfold trimMatches
  rw [hkept _ h, hkept _ (by simpa using h), reverse_reverse, String.ofList_toList]

theorem splitChars_of_notMem {separator : Char} {chars : List Char} (h : separator ∉ chars) :
    splitChars separator chars = [chars] := by
  induction chars with
  | nil => rfl
  | cons c rest ih =>
    rw [mem_cons, not_or] at h
    rw [splitChars, if_neg (Ne.symm h.1), ih h.2]

theorem splitChars_append {separator : Char} {front : List Char} {rest : List Char}
    (h : separator ∉ front) :
    splitChars separator (front ++ separator :: rest) = front :: splitChars separator rest := by
  induction front with
  | nil => rw [nil_append, splitChars, if_pos rfl]
  | cons c front ih =>
    rw [mem_cons, not_or] at h
    rw [cons_append, splitChars, if_neg (Ne.symm h.1), ih h.2]

theorem splitChars_joined (separator : Char) (chars : List Char) :
    ∃ first others, splitChars separator chars = first :: others ∧
      first ++ others.flatMap (separator :: ·) = chars := by
  induction chars with
  | nil => exact ⟨[], [], rfl, rfl⟩
  | cons c rest ih =>
    obtain ⟨first, others, hsplit, hjoin⟩ := ih
    rw [splitChars, hsplit]
    by_cases hc : c = separator
    · refine ⟨[], first :: others, if_pos hc, ?_⟩
      simp [hc, hjoin]
    · refine ⟨c :: first, others, if_neg hc, ?_⟩
      rw [cons_append, hjoin]

theorem parseDigits_zeros (count : Nat) {digits : List Char} (h : digits ≠ []) :
    parseDigits (List.replicate count '0' ++ digits) = parseDigits digits := by
  have hzeros : (List.replicate count '0' ++ digits).foldlM
      (fun value c => (digitValue c).map (value * 10 + ·)) 0 =
      digits.foldlM (fun value c => (digitValue c).map (value * 10 + ·)) 0 := by
    induction count with
    | zero => rfl
    | succ count ih =>
      rw [replicate_succ, cons_append, foldlM_cons]
      exact ih
  unfold parseDigits
  rw [hzeros, if_neg (by simp [h]), if_neg (by simp [h])]

theorem toString_inj {left right : Nat} (h : toString left = toString right) : left = right := by
  have hdigits : Nat.toDigits 10 left = Nat.toDigits 10 right := by
    have hlist := congrArg String.toList h
    simpa [toString, Nat.repr] using hlist
  have hvalue := congrArg (Nat.ofDigitChars 10 · 0) hdigits
  simpa [Nat.ofDigitChars_toDigits] using hvalue

theorem utf8_append (left right : String) : utf8 (left ++ right) = utf8 left ++ utf8 right := by
  simp [utf8]

theorem utf8_inj {left right : String} (h : utf8 left = utf8 right) : left = right := by
  simp only [utf8, Array.toList_inj] at h
  exact String.toByteArray_inj.mp (ByteArray.ext h)

theorem utf8_ofList (chars : List Char) :
    utf8 (ofList chars) = chars.flatMap String.utf8EncodeChar := by
  simp [utf8, List.utf8Encode]

theorem utf8_length (text : String) : (utf8 text).length = (text.toList.map Char.utf8Size).sum := by
  rw [← String.ofList_toList (s := text), utf8_ofList, length_flatMap, String.toList_ofList]
  simp only [String.length_utf8EncodeChar]

theorem utf8_length_bounds (text : String) :
    text.length ≤ (utf8 text).length ∧ (utf8 text).length ≤ 4 * text.length := by
  rw [utf8_length, ← String.length_toList]
  induction text.toList with
  | nil => simp
  | cons c rest ih =>
    simp only [map_cons, sum_cons, length_cons]
    have hpos := Char.utf8Size_pos c
    have hsize := Char.utf8Size_le_four c
    omega

theorem fromUtf8?_utf8 (text : String) : fromUtf8? (utf8 text) = some text := by
  unfold fromUtf8? utf8
  have hbytes : (⟨text.toUTF8.data.toList.toArray⟩ : ByteArray) = text.toByteArray := by simp
  rw [hbytes]
  simp only [fromUTF8?]
  split
  · congr 1
  · rename_i h
    exact absurd (by simpa using text.isValidUTF8) h

end TxBase.Lib
