import Mathlib.Tactic.FieldSimp
import TxBase.Dbf.Scalar
import TxBase.Lib.Numerals

/-! Currency fields hold ten-thousandths in an `i64`: `currency_i64` and `currency_text` of
`src/dbf/codec_temporal.rs` against the decimal numerals that they stand for. -/
namespace TxBase.Dbf
open Lib Json List

/-- A decimal numeral with at most four digits behind its point and at least one digit; the
sign, the point and the digits on one side of it may be missing. -/
structure Amount where
  sign : Option Char
  whole : List Char
  fraction : Option (List Char)
  signed : ∀ c ∈ sign, c = '-' ∨ c = '+'
  digits : Digits (whole ++ fraction.getD [])
  nonempty : whole ++ fraction.getD [] ≠ []
  short : (fraction.getD []).length ≤ 4

namespace Amount

def body (amount : Amount) : List Char :=
  amount.whole ++ amount.fraction.elim [] ('.' :: ·)

def text (amount : Amount) : List Char := amount.sign.toList ++ amount.body

def isNegative (amount : Amount) : Bool := amount.sign = some '-'

def value (amount : Amount) : Rat :=
  (if amount.isNegative then -1 else 1) *
    (numeralValue amount.whole +
      numeralValue (amount.fraction.getD []) / 10 ^ (amount.fraction.getD []).length)

/-- The ten-thousandths of an amount, without its sign. -/
def magnitude (amount : Amount) : Nat :=
  numeralValue amount.whole * currencyScale +
    numeralValue (amount.fraction.getD []) * 10 ^ (4 - (amount.fraction.getD []).length)

def scaled (amount : Amount) : Int :=
  if amount.isNegative then -(amount.magnitude : Int) else amount.magnitude

variable (amount : Amount)

theorem value_mul_scale : amount.value * 10000 = amount.scaled := by
  have hpow : (10 : Rat) ^ (4 - (amount.fraction.getD []).length) *
      10 ^ (amount.fraction.getD []).length = 10000 := by
    rw [← pow_add, Nat.sub_add_cancel amount.short]
    norm_num
  have hne : (10 : Rat) ^ (amount.fraction.getD []).length ≠ 0 := pow_ne_zero _ (by norm_num)
  unfold value scaled magnitude currencyScale
  split
  all_goals
    push_cast
    field_simp
    rw [← hpow]
    ring

theorem scaled_bounds : (-2 ^ 63 ≤ amount.scaled ∧ amount.scaled < 2 ^ 63) ↔
    amount.magnitude ≤ 2 ^ 63 - 1 + if amount.isNegative then 1 else 0 := by
  unfold scaled
  split <;> omega

theorem digits_whole : Digits amount.whole := fun c hc =>
  amount.digits c (mem_append_left _ hc)

theorem digits_fraction : Digits (amount.fraction.getD []) := fun c hc =>
  amount.digits c (mem_append_right _ hc)

theorem currencyParts_body :
    currencyParts amount.body = some (amount.whole, amount.fraction.getD []) := by
  have hpoint : ∀ chars, Digits chars → '.' ∉ chars := fun chars h hmem =>
    absurd (h '.' hmem) (by decide)
  have hwhole := amount.digits_whole
  have hfraction := amount.digits_fraction
  have hnonempty := amount.nonempty
  have hshort := amount.short
  unfold currencyParts body
  cases hpart : amount.fraction with
  | none =>
    rw [hpart, Option.getD_none, List.append_nil] at hnonempty
    rw [Option.elim_none, List.append_nil, splitChars_of_notMem (hpoint _ hwhole)]
    simp [hnonempty, digits_iff_all.mp hwhole]
  | some fraction =>
    rw [hpart, Option.getD_some] at hfraction hnonempty hshort
    rw [Option.elim_some, splitChars_append (hpoint _ hwhole),
      splitChars_of_notMem (hpoint _ hfraction)]
    simp only [digits_iff_all.mp hwhole, digits_iff_all.mp hfraction]
    rw [if_neg]
    · rfl
    · simp only [List.isEmpty_iff, not_true_eq_false, gt_iff_lt, false_or, not_or, not_lt]
      exact ⟨fun hempty => hnonempty (by rw [hempty.1, hempty.2]; rfl), hshort⟩

end Amount

theorem exists_amount {sign : Option Char} {digits whole fraction : List Char}
    (hsign : ∀ c ∈ sign, c = '-' ∨ c = '+') (h : currencyParts digits = some (whole, fraction)) :
    ∃ amount : Amount, amount.sign = sign ∧ amount.body = digits := by
  obtain ⟨first, others, hsplit, hjoin⟩ := splitChars_joined '.' digits
  unfold currencyParts at h
  rw [hsplit] at h
  dsimp only at h
  split at h
  · rename_i part hparts
    cases hparts
    split at h
    · cases h
    · rename_i hcheck
      cases h
      rw [not_or, not_not] at hcheck
      refine ⟨⟨sign, whole, none, hsign, ?_, ?_, by decide⟩, rfl, ?_⟩
      · simpa using digits_iff_all.mpr hcheck.2
      · simpa using hcheck.1
      · simpa [Amount.body] using hjoin
  · rename_i front rest hparts
    cases hparts
    split at h
    · cases h
    · rename_i hcheck
      cases h
      simp only [not_or, not_not, not_lt, not_and] at hcheck
      refine ⟨⟨sign, whole, some fraction, hsign, ?_, ?_, hcheck.2.2.2⟩, rfl, ?_⟩
      · intro c hc
        exact (mem_append.mp hc).elim (digits_iff_all.mpr hcheck.2.1 c)
          (digits_iff_all.mpr hcheck.2.2.1 c)
      · intro hempty
        obtain ⟨hwhole, hfraction⟩ := append_eq_nil_iff.mp hempty
        exact hcheck.1 (by simp [hwhole]) (by simpa using hfraction)
      · simpa [Amount.body] using hjoin
  · cases h

/-- The sign in front of an amount, whether it is a minus, and the rest. -/
def splitSign (chars : List Char) : Bool × List Char :=
  match chars with
  | '-' :: rest => (true, rest)
  | '+' :: rest => (false, rest)
  | chars => (false, chars)

theorem Amount.mem_body (amount : Amount) {c : Char} (hc : c ∈ amount.body) :
    c.isDigit = true ∨ c = '.' := by
  unfold body at hc
  rcases mem_append.mp hc with hc | hc
  · exact .inl (amount.digits_whole c hc)
  · cases hpart : amount.fraction with
    | none => simp [hpart] at hc
    | some fraction =>
      rw [hpart, Option.elim_some] at hc
      rcases mem_cons.mp hc with rfl | hc
      · exact .inr rfl
      · exact .inl (amount.digits_fraction c (by rw [hpart]; exact hc))

theorem Amount.splitSign_text (amount : Amount) :
    splitSign amount.text = (amount.isNegative, amount.body) := by
  unfold text isNegative
  cases hsign : amount.sign with
  | none =>
    rw [Option.toList_none, nil_append]
    unfold splitSign
    split <;> rename_i heq
    · exact absurd (amount.mem_body (c := '-') (by simp [heq])) (by decide)
    · exact absurd (amount.mem_body (c := '+') (by simp [heq])) (by decide)
    · rfl
  | some c => rcases amount.signed c hsign with rfl | rfl <;> rfl

theorem Amount.trim_text {amount : Amount} {text : String} (h : text.toList = amount.text) :
    trim text = text := by
  apply trimMatches_of_none
  intro c hc
  rw [h, Amount.text, mem_append] at hc
  rcases hc with hc | hc
  · rcases amount.signed c (Option.mem_toList.mp hc) with rfl | rfl <;> decide
  · rcases amount.mem_body hc with hdigit | rfl
    · rw [Char.isDigit_iff_toNat] at hdigit
      simp only [Char.reduceToNat] at hdigit
      simp only [isWhitespace, decide_eq_false_iff_not]
      omega
    · decide

/-- The amount that `currency_text` writes. -/
def amountOf (value : Int) : Amount where
  sign := if value < 0 then some '-' else none
  whole := Nat.toDigits 10 (value.natAbs / currencyScale)
  fraction := some (decimalPadded 4 (value.natAbs % currencyScale)).toList
  signed := by
    intro c hc
    split at hc
    · cases hc
      exact .inl rfl
    · cases hc
  digits := by
    intro c hc
    rcases mem_append.mp hc with hc | hc
    · exact digits_toDigits _ c hc
    · exact digits_decimalPadded _ _ c hc
  nonempty := by simp
  short := (length_decimalPadded (by decide) (Nat.mod_lt _ (by decide))).le

theorem scaled_amountOf (value : Int) : (amountOf value).scaled = value := by
  have hlength : (decimalPadded 4 (value.natAbs % currencyScale)).toList.length = 4 :=
    length_decimalPadded (by decide) (Nat.mod_lt _ (by decide))
  have hwhole : numeralValue (Nat.toDigits 10 (value.natAbs / currencyScale)) =
      value.natAbs / currencyScale := Nat.ofDigitChars_ten_toDigits
  have hmagnitude : (amountOf value).magnitude = value.natAbs := by
    simp only [Amount.magnitude, amountOf, Option.getD_some, numeralValue_decimalPadded,
      hlength, hwhole]
    unfold currencyScale
    omega
  unfold Amount.scaled
  rw [hmagnitude]
  by_cases hneg : value < 0
  · simp only [Amount.isNegative, amountOf, hneg, if_true]
    rw [if_pos (by simp)]
    omega
  · simp only [Amount.isNegative, amountOf, hneg, if_false]
    rw [if_neg (by simp)]
    omega

theorem exists_sign (chars : List Char) : ∃ sign : Option Char, (∀ c ∈ sign, c = '-' ∨ c = '+') ∧
    chars = sign.toList ++ (splitSign chars).2 := by
  unfold splitSign
  split
  · exact ⟨some '-', by simp, rfl⟩
  · exact ⟨some '+', by simp, rfl⟩
  · exact ⟨none, by simp, rfl⟩

section Codec
theorem parseDigits_getD {chars : List Char} (h : Digits chars) :
    (parseDigits chars).getD 0 = numeralValue chars := by
  cases chars with
  | nil => rfl
  | cons c rest => rw [parseDigits_eq (by simp) h, Option.getD_some]

variable [Runtime] {field : FieldDescriptor} {text : String}

theorem currencyI64_eq (hne : trim text ≠ "") : currencyI64 (.string text) field =
    match currencyParts (splitSign (trim text).toList).2 with
    | none =>
        invalid (s!"currency field {field.name} requires a fixed-point number with at most " ++
          "four decimals or null")
    | some (wholeText, fractionText) =>
        let whole := (parseDigits wholeText).getD 0
        let fraction := (parseDigits fractionText).getD 0
        let scale := 10 ^ (4 - fractionText.length)
        let outOfRange : Checked Int := invalid s!"currency field {field.name} is out of range"
        if u64Size ≤ whole then outOfRange
        else if u64Size ≤ whole * currencyScale + fraction * scale then outOfRange
        else
          let magnitude := whole * currencyScale + fraction * scale
          if magnitude > 2 ^ 63 - 1 + (if (splitSign (trim text).toList).1 then 1
            else 0) then outOfRange
          else .ok (if (splitSign (trim text).toList).1 then -(magnitude : Int) else magnitude) := by
  unfold currencyI64 splitSign
  simp only [valueText, bind, Except.bind]
  refine (if_neg (by simpa using hne)).trans ?_
  cases currencyParts _ with
  | none => rfl
  | some parts => rfl

theorem currencyI64_amount (amount : Amount) (htext : (trim text).toList = amount.text) :
    currencyI64 (.string text) field =
      if -2 ^ 63 ≤ amount.scaled ∧ amount.scaled < 2 ^ 63 then .ok amount.scaled
      else invalid s!"currency field {field.name} is out of range" := by
  have hne : trim text ≠ "" := by
    intro hempty
    have hnonempty := amount.nonempty
    rw [hempty] at htext
    obtain ⟨-, hbody⟩ := append_eq_nil_iff.mp htext.symm
    obtain ⟨hwhole, hfraction⟩ := append_eq_nil_iff.mp hbody
    cases hpart : amount.fraction with
    | none => simp [hwhole, hpart] at hnonempty
    | some fraction => simp [hpart] at hfraction
  rw [currencyI64_eq hne, htext, amount.splitSign_text, amount.currencyParts_body]
  dsimp only
  rw [parseDigits_getD amount.digits_whole, parseDigits_getD amount.digits_fraction,
    if_congr amount.scaled_bounds rfl rfl]
  have hwhole : numeralValue amount.whole ≤ amount.magnitude := by
    unfold Amount.magnitude currencyScale
    omega
  have hlimit : 2 ^ 63 - 1 + (if amount.isNegative then 1 else 0) < u64Size := by
    unfold u64Size
    split <;> omega
  change (if u64Size ≤ numeralValue amount.whole then _ else if u64Size ≤ amount.magnitude then _
    else if amount.magnitude > _ then _ else Except.ok amount.scaled) = _
  by_cases hrange : amount.magnitude ≤ 2 ^ 63 - 1 + if amount.isNegative then 1 else 0
  · rw [if_neg (by omega), if_neg (by omega), if_neg (by omega), if_pos hrange]
  · -- Beyond the words of the checked operations the amount is out of range as well.
    rw [if_neg hrange]
    split
    · rfl
    · split
      · rfl
      · rw [if_pos (by omega)]

theorem currencyI64_eq_ok {result : Int} : currencyI64 (.string text) field = .ok result ↔
    (trim text = "" ∧ result = 0) ∨ ∃ amount : Amount, (trim text).toList = amount.text ∧
      result = amount.scaled ∧ -2 ^ 63 ≤ amount.scaled ∧ amount.scaled < 2 ^ 63 := by
  constructor
  · intro h
    by_cases hempty : trim text = ""
    · have hzero : currencyI64 (.string text) field = .ok 0 := by
        simp [currencyI64, valueText, bind, Except.bind, hempty]
      rw [hzero] at h
      cases h
      exact .inl ⟨hempty, rfl⟩
    · obtain ⟨sign, hsign, hchars⟩ := exists_sign (trim text).toList
      have hparts := h
      rw [currencyI64_eq hempty] at hparts
      split at hparts
      · cases hparts
      · rename_i whole fraction hsome
        obtain ⟨amount, rfl, hbody⟩ := exists_amount hsign hsome
        have htext : (trim text).toList = amount.text := by rw [Amount.text, hbody, ← hchars]
        rw [currencyI64_amount amount htext] at h
        split at h
        · rename_i hrange
          cases h
          exact .inr ⟨amount, htext, rfl, hrange⟩
        · cases h
  · rintro (⟨hempty, rfl⟩ | ⟨amount, htext, rfl, hrange⟩)
    · simp [currencyI64, valueText, bind, Except.bind, hempty]
    · rw [currencyI64_amount amount htext, if_pos hrange]

theorem currencyI64_currencyText {amount : Int} (hrange : -2 ^ 63 ≤ amount ∧ amount < 2 ^ 63) :
    currencyI64 (.string (currencyText (signedToLeBytes 8 amount))) field = .ok amount := by
  have hslice : slice (signedToLeBytes 8 amount) 0 8 = signedToLeBytes 8 amount :=
    take_of_length_le (toLeBytes_length 8 _).le
  have hvalue : signedOfLeBytes (slice (signedToLeBytes 8 amount) 0 8) = amount := by
    rw [hslice]
    exact signedOfLeBytes_signedToLeBytes (by omega) (by omega)
  have htext : (currencyText (signedToLeBytes 8 amount)).toList = (amountOf amount).text := by
    unfold currencyText
    rw [hvalue]
    by_cases hneg : amount < 0 <;> simp [Amount.text, Amount.body, amountOf, hneg]
  rw [currencyI64_amount (amountOf amount) (by rw [Amount.trim_text htext, htext]), scaled_amountOf,
    if_pos hrange]

/-- Amounts are written and read without loss.  Exactly the texts that are empty or an amount
whose ten-thousandths fit an `i64` are read, as these ten-thousandths; and the product that is
not checked, that of the fraction and its scale, is small. -/
theorem currency_codec_exact (field : FieldDescriptor) :
    (∀ amount : Int, -2 ^ 63 ≤ amount → amount < 2 ^ 63 →
      currencyI64 (.string (currencyText (signedToLeBytes 8 amount))) field = .ok amount) ∧
    (∀ (text : String) (result : Int), currencyI64 (.string text) field = .ok result ↔
      (trim text = "" ∧ result = 0) ∨ ∃ amount : Amount, (trim text).toList = amount.text ∧
        (result : Rat) = amount.value * 10000 ∧
        -2 ^ 63 ≤ amount.value * 10000 ∧ amount.value * 10000 < 2 ^ 63) ∧
    ∀ digits whole fraction, currencyParts digits = some (whole, fraction) →
      (parseDigits fraction).getD 0 * 10 ^ (4 - fraction.length) < currencyScale := by
  refine ⟨?_, ?_, ?_⟩
  · exact fun amount hlow hhigh => currencyI64_currencyText ⟨hlow, hhigh⟩
  · intro text result
    have hlow (scaled : Int) : (-2 ^ 63 : Rat) ≤ scaled ↔ -2 ^ 63 ≤ scaled := by
      rw [show (-2 ^ 63 : Rat) = ((-2 ^ 63 : Int) : Rat) by norm_num, Int.cast_le]
    have hhigh (scaled : Int) : (scaled : Rat) < 2 ^ 63 ↔ scaled < 2 ^ 63 := by
      rw [show (2 ^ 63 : Rat) = ((2 ^ 63 : Int) : Rat) by norm_num, Int.cast_lt]
    simp only [currencyI64_eq_ok, Amount.value_mul_scale, hlow, hhigh, Int.cast_inj]
  · intro digits whole fraction h
    obtain ⟨amount, -, rfl⟩ := @exists_amount none _ _ _ (by simp) h
    rw [amount.currencyParts_body] at h
    cases h
    rw [parseDigits_getD amount.digits_fraction]
    calc _ < 10 ^ (amount.fraction.getD []).length * 10 ^ (4 - (amount.fraction.getD []).length) :=
          Nat.mul_lt_mul_of_pos_right (numeralValue_lt amount.digits_fraction)
            (Nat.pow_pos (by decide))
      _ = currencyScale := by rw [← pow_add, Nat.add_sub_cancel' amount.short]; rfl

end Codec

/-- The least amount, written and read. -/
theorem currency_codec_exact_least :
    letI := Runtime.bare
    let field : FieldDescriptor := ⟨"A", 0x59, 8, 4, 0, 1⟩
    currencyI64 (.string (currencyText (signedToLeBytes 8 (-2 ^ 63)))) field = .ok (-2 ^ 63) :=
  letI := Runtime.bare
  (currency_codec_exact _).1 (-2 ^ 63) (by decide) (by decide)

end TxBase.Dbf
