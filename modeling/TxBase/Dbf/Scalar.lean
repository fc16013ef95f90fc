import TxBase.Dbf.CodePages

/-! What a field accepts of a JSON value: texts, integers, doubles, binary data,
currency and FoxPro datetimes, from `src/dbf/codec_values.rs`,
`src/dbf/codec_temporal.rs` and `src/dbf/memo_value.rs`. -/
namespace TxBase.Dbf
open Lib Json

section Values
variable [Runtime]

def valueText (value : Value) (field : FieldDescriptor) : Checked String :=
  match value with
  | .null => .ok ""
  | .string text => .ok text
  | .number number => .ok number.display
  | .bool boolean => .ok (if boolean then "true" else "false")
  | _ => invalid s!"field {field.name} requires a scalar value"

def numericFieldText (value : Value) (field : FieldDescriptor) : Checked String := do
  let text ← valueText value field
  if text.isEmpty then .ok text
  else
    let text := trim text
    match Runtime.parseF64 text with
    | none => invalid s!"numeric field {field.name} requires a finite number or null"
    | some number =>
        if number.isFinite then .ok text
        else invalid s!"numeric field {field.name} requires a finite number or null"

def valueI64 (value : Value) (field : FieldDescriptor) : Checked Int :=
  let required : Checked Int := invalid s!"field {field.name} requires an integer"
  match value with
  | .null => .ok 0
  | .number number => number.asI64.elim required .ok
  | .string text => (parseSigned 64 (trim text)).elim required .ok
  | _ => required

def valueU32 (value : Value) (field : FieldDescriptor) : Checked Nat :=
  let required : Checked Nat := invalid s!"field {field.name} requires a uint32"
  match value with
  | .null => .ok 0
  | .number number => (number.asU64.filter (· < u32Size)).elim required .ok
  | .string text => (parseUnsigned u32Size (trim text)).elim required .ok
  | _ => required

def valueF64 (value : Value) (field : FieldDescriptor) : Checked F64 := do
  let number ← match value with
    | .null => .ok F64.zero
    | .number number => .ok number.asF64
    | .string text =>
        match Runtime.parseF64 (trim text) with
        | some number => .ok number
        | none => invalid s!"field {field.name} requires a finite number"
    | _ => invalid s!"field {field.name} requires a number"
  if number.isFinite then .ok number
  else invalid s!"field {field.name} requires a finite number"

def hexPairs (field : FieldDescriptor) : Bytes → Checked Bytes
  | high :: low :: rest => do
      match hexDigit high, hexDigit low with
      | some high, some low => do
          let bytes ← hexPairs field rest
          .ok (((high <<< 4) ||| low) :: bytes)
      | _, _ => invalid s!"binary field {field.name} contains a non-hexadecimal character"
  | _ => .ok []

def binaryValue (value : Value) (field : FieldDescriptor) : Checked Bytes :=
  match value with
  | .string text =>
      if (utf8 text).length % 2 ≠ 0 then
        invalid s!"binary field {field.name} requires an even-length hexadecimal string"
      else hexPairs field (utf8 text)
  | .null => .ok []
  | _ =>
      invalid s!"binary field {field.name} requires an even-length hexadecimal string or null"

def encodeCharacterWithEncoding (value : Value) (field : FieldDescriptor) (languageDriver : UInt8)
    (encodingOverride : Option String) : Checked Bytes := do
  let text ← valueText value field
  match encodeText text languageDriver encodingOverride with
  | some bytes => .ok bytes
  | none =>
      let page := codePageName languageDriver encodingOverride
      invalid s!"value for {field.name} contains a character outside {page}"

end Values

def currencyScale : Nat := 10000
def millisecondsPerDay : Nat := 86400000
def julianDayUnixEpoch : Int := 2440588

/-- The result of `i64` arithmetic; there is none if a value on the way, or an argument, is no
`i64`. -/
def i64Result {α : Type} (steps : List Int) (result : α) : Option α :=
  if ∀ step ∈ steps, -2 ^ 63 ≤ step ∧ step < 2 ^ 63 then some result else none

/-- Days since 1970-01-01; division truncates as in Rust. -/
def daysFromCivil (year month day : Int) : Option Int :=
  let adjustedYear := year - if month ≤ 2 then 1 else 0
  let start := if adjustedYear ≥ 0 then adjustedYear else adjustedYear - 399
  let era := start.tdiv 400
  let yearOfEra := adjustedYear - era * 400
  let monthPrime := month + if month > 2 then -3 else 9
  let dayOfYear := (153 * monthPrime + 2).tdiv 5 + day - 1
  let leapDays := yearOfEra * 365 + yearOfEra.tdiv 4
  let dayOfEra := leapDays - yearOfEra.tdiv 100 + dayOfYear
  let days := era * 146097 + dayOfEra - 719468
  i64Result [year, month, day, adjustedYear, start, era * 400, yearOfEra, monthPrime,
    153 * monthPrime, 153 * monthPrime + 2, (153 * monthPrime + 2).tdiv 5 + day, dayOfYear,
    yearOfEra * 365, leapDays, leapDays - yearOfEra.tdiv 100, dayOfEra, era * 146097,
    era * 146097 + dayOfEra, days] days

def civilFromDays (days : Int) : Option (Int × Int × Int) :=
  let shifted := days + 719468
  let start := if shifted ≥ 0 then shifted else shifted - 146096
  let era := start.tdiv 146097
  let dayOfEra := shifted - era * 146097
  let leapDays := dayOfEra - dayOfEra.tdiv 1460 + dayOfEra.tdiv 36524
  let yearOfEra := (leapDays - dayOfEra.tdiv 146096).tdiv 365
  let year := yearOfEra + era * 400
  let yearDay := 365 * yearOfEra + yearOfEra.tdiv 4
  let dayOfYear := dayOfEra - (yearDay - yearOfEra.tdiv 100)
  let monthPrime := (5 * dayOfYear + 2).tdiv 153
  let day := dayOfYear - (153 * monthPrime + 2).tdiv 5 + 1
  let month := monthPrime + if monthPrime < 10 then 3 else -9
  let civilYear := year + if month ≤ 2 then 1 else 0
  i64Result [days, shifted, start, era * 146097, dayOfEra, dayOfEra - dayOfEra.tdiv 1460, leapDays,
    leapDays - dayOfEra.tdiv 146096, era * 400, year, 365 * yearOfEra, yearDay,
    yearDay - yearOfEra.tdiv 100, dayOfYear, 5 * dayOfYear, 5 * dayOfYear + 2, 153 * monthPrime,
    153 * monthPrime + 2, day - 1, day, month, civilYear] (civilYear, month, day)

def datetimePart (bytes : Bytes) (start stop : Nat) : Checked Int :=
  let part := slice bytes start stop
  match if part.all isAsciiDigit then parseDigits (part.map fun byte => Char.ofNat byte.toNat)
    else none with
  | some value => .ok value
  | none => invalid "datetime field requires YYYY-MM-DDTHH:MM:SS"

def foxproDatetimeBytes (text : String) : Checked (Option Bytes) :=
  let bytes := utf8 text
  if bytes.length ≠ 19 ∨ bytes.getD 4 0 ≠ 0x2d ∨ bytes.getD 7 0 ≠ 0x2d ∨
      ¬ (bytes.getD 10 0 = 0x54 ∨ bytes.getD 10 0 = 0x20) ∨ bytes.getD 13 0 ≠ 0x3a ∨
      bytes.getD 16 0 ≠ 0x3a then .ok none
  else do
    let year ← datetimePart bytes 0 4
    let month ← datetimePart bytes 5 7
    let day ← datetimePart bytes 8 10
    let hour ← datetimePart bytes 11 13
    let minute ← datetimePart bytes 14 16
    let second ← datetimePart bytes 17 19
    reject (¬ (1 ≤ year ∧ year ≤ 9999) ∨ ¬ (0 ≤ hour ∧ hour ≤ 23) ∨
        ¬ (0 ≤ minute ∧ minute ≤ 59) ∨ ¬ (0 ≤ second ∧ second ≤ 59))
      "datetime field is outside the supported range"
    -- Parts of at most four digits do not overflow.
    let days := (daysFromCivil year month day).getD 0
    reject (some (year, month, day) ≠ civilFromDays days) "datetime field contains an invalid date"
    let milliseconds := (hour * 3600000 + minute * 60000 + second * 1000).toNat
    let julianDay := days + julianDayUnixEpoch
    reject (julianDay < 0 ∨ (u32Size : Int) ≤ julianDay) "datetime field date is out of range"
    .ok (some (toLeBytes 4 julianDay.toNat ++ toLeBytes 4 milliseconds))

def foxproDatetimeText (bytes : Bytes) : Option String :=
  let julianDay := fromLeBytes (slice bytes 0 4)
  let milliseconds := fromLeBytes (slice bytes 4 8)
  if julianDay = 0 ∨ milliseconds ≥ millisecondsPerDay then none
  else do
    -- The day is a `u32`, so that nothing overflows.
    let (year, month, day) ← civilFromDays ((julianDay : Int) - julianDayUnixEpoch)
    if ¬ (1 ≤ year ∧ year ≤ 9999) then none
    else
      some (decimalPadded 4 year.toNat ++ "-" ++ decimalPadded 2 month.toNat ++ "-" ++
        decimalPadded 2 day.toNat ++ "T" ++ decimalPadded 2 (milliseconds / 3600000) ++ ":" ++
        decimalPadded 2 (milliseconds / 60000 % 60) ++ ":" ++
        decimalPadded 2 (milliseconds / 1000 % 60))

/-- The two's complement value of little-endian bytes. -/
def signedOfLeBytes (bytes : Bytes) : Int :=
  let value := fromLeBytes bytes
  if 2 * value < 256 ^ bytes.length then value else (value : Int) - 256 ^ bytes.length

/-- The two's complement bytes of a signed integer. -/
def signedToLeBytes (count : Nat) (value : Int) : Bytes :=
  toLeBytes count (value % (256 ^ count : Int)).toNat

theorem signedOfLeBytes_signedToLeBytes {count : Nat} {value : Int}
    (hlow : -(256 ^ count : Int) ≤ 2 * value) (hhigh : 2 * value < 256 ^ count) :
    signedOfLeBytes (signedToLeBytes count value) = value := by
  have hcast : ((256 ^ count : Nat) : Int) = 256 ^ count := Int.natCast_pow 256 count
  have hpos : (0 : Int) < 256 ^ count := Int.pow_pos (by decide)
  have hmod : value % (256 ^ count : Int) = if 0 ≤ value then value else value + 256 ^ count := by
    split
    · exact Int.emod_eq_of_lt ‹_› (by omega)
    · rw [← Int.add_emod_right]
      exact Int.emod_eq_of_lt (by omega) (by omega)
  unfold signedOfLeBytes signedToLeBytes
  dsimp only
  rw [hmod, toLeBytes_length, fromLeBytes_toLeBytes]
  · split <;> split <;> omega
  · split <;> omega

def currencyText (bytes : Bytes) : String :=
  let value := signedOfLeBytes (slice bytes 0 8)
  let magnitude := value.natAbs
  let text := toString (magnitude / currencyScale) ++ "." ++
    decimalPadded 4 (magnitude % currencyScale)
  if value < 0 then "-" ++ text else text

def currencyParts (digits : List Char) : Option (List Char × List Char) :=
  let isDigits := fun part : List Char => part.all fun c => (digitValue c).isSome
  match splitChars '.' digits with
  | [whole] => if whole.isEmpty ∨ ¬ isDigits whole then none else some (whole, [])
  | [whole, fraction] =>
      if (whole.isEmpty ∧ fraction.isEmpty) ∨ ¬ isDigits whole ∨ ¬ isDigits fraction ∨
          fraction.length > 4 then none
      else some (whole, fraction)
  | _ => none

def currencyI64 [Runtime] (value : Value) (field : FieldDescriptor) : Checked Int := do
  let text := trim (← valueText value field)
  if text.isEmpty then .ok 0
  else
    let outOfRange : Checked Int := invalid s!"currency field {field.name} is out of range"
    let (negative, digits) := match text.toList with
      | '-' :: rest => (true, rest)
      | '+' :: rest => (false, rest)
      | chars => (false, chars)
    match currencyParts digits with
    | none =>
        invalid (s!"currency field {field.name} requires a fixed-point number with at most " ++
          "four decimals or null")
    | some (wholeText, fractionText) =>
        let whole := (parseDigits wholeText).getD 0
        let fraction := (parseDigits fractionText).getD 0
        let scale := 10 ^ (4 - fractionText.length)
        if u64Size ≤ whole then outOfRange
        else if u64Size ≤ whole * currencyScale + fraction * scale then outOfRange
        else
          let magnitude := whole * currencyScale + fraction * scale
          if magnitude > 2 ^ 63 - 1 + (if negative then 1 else 0) then outOfRange
          else .ok (if negative then -(magnitude : Int) else magnitude)

end TxBase.Dbf
