import TxBase.Dbf.Currency
import TxBase.Dbf.Datetimes
import TxBase.Dbf.Memo
import TxBase.Dbf.Slots
import TxBase.Json.Equality

/-! The values that a field gives back.  For each kind of field this is a condition on the value
alone: which JSON values its encoder and its decoder carry over without a change. -/
namespace TxBase.Dbf
open Lib Json List
open Outcome (lift_eq_ok ite_fail_eq_ok copyFromSlice_eq_ok)

section Condition
variable [Runtime]

/-- A text that its code page gives back.  A page of the repository carries over every text that it
can write, except for the padding at its end; for the others this is up to `encoding_rs`. -/
def Legible (languageDriver : UInt8) (text : String) : Prop :=
  match driverEncoding languageDriver with
  | some encoding =>
      (∀ last ∈ (Runtime.encode encoding text).1.getLast?, isPadding last = false) ∧
        (Runtime.decode encoding (Runtime.encode encoding text).1).1 = text
  | none => ∀ last ∈ text.toList.getLast?, last ≠ ' ' ∧ last ≠ '\x00'

/-- A double whose printed form has no blanks, is no integer, and is read as this double. -/
def PrintsBack (number : F64) : Prop :=
  let text := Runtime.displayF64 number
  text ≠ "" ∧ (∀ c ∈ text.toList, isWhitespace c = false ∧ c ≠ '\x00') ∧
    parseSigned 64 text = none ∧ Runtime.parseF64 text = some number

/-- The lower-case hexadecimal form of as many bytes as the field has. -/
def IsHex (field : FieldDescriptor) (value : Value) : Prop :=
  ∃ bytes : Bytes, bytes.length = field.width ∧ value = .string (hex bytes)

/-- An integer of the range of `i64`. -/
def IsInteger (value : Value) : Prop :=
  ∃ integer : Int, value = .int integer ∧ -2 ^ 63 ≤ integer ∧ integer < 2 ^ 63

/-- The values that a field of the record itself gives back as they were given. -/
def GivesBack (header : DbfHeader) (field : FieldDescriptor) (value : Value) : Prop :=
  (value = .null ∧ field.isNullable = true ∧ isFoxproTable header.version = true) ∨
  match field.kind with
  | .c =>
      if field.isBinary then IsHex field value
      else ∃ text, value = .string text ∧ Legible header.languageDriver text
  -- In a table of another version the length byte is read as a part of the text.
  | .q | .v => header.version = 0x32 ∧
      if field.isBinary then ∃ bytes, value = .string (hex bytes)
      else ∃ text, value = .string text ∧ Legible header.languageDriver text
  | .d => value = .null ∨ ∃ text, value = .string text ∧ text ≠ ""
  | .t =>
      if memoFormatForVersion header.version = some .foxPro ∧ field.width ≥ 8 then
        value = .null ∨ (∃ moment : Moment, field.width = 8 ∧ value = .string (moment.text 'T')) ∨
          ∃ bytes : Bytes, bytes.length = field.width ∧ value = .string (hex bytes) ∧
            fromLeBytes (bytes.take 4) ≠ 0 ∧ foxproDatetimeText bytes = none
      else IsHex field value
  | .at => IsHex field value
  | .y => ∃ amount : Int, (-2 ^ 63 ≤ amount ∧ amount < 2 ^ 63) ∧
      value = .string (currencyText (signedToLeBytes 8 amount))
  -- Beside a dBASE memo file a double is read as a text.
  | .b => memoFormatForVersion header.version ∈ [none, some .foxPro] ∧
      ∃ number, value = .number (.float number)
  | .o => ∃ number, value = .number (.float number)
  | .n | .f => value = .null ∨ IsInteger value ∨
      ∃ number, value = .number (.float number) ∧ PrintsBack number.val
  | .l => value = .null ∨ ∃ boolean, value = .bool boolean
  | .i | .plus => IsInteger value
  | .g | .m | .p | .w | .other _ => True

end Condition

section Padding
variable {bytes : Bytes}

theorem trimPadding_append (bytes : Bytes) {padding : Bytes}
    (h : ∀ byte ∈ padding, isPadding byte = true) :
    trimPadding (bytes ++ padding) = trimPadding bytes := by
  unfold trimPadding
  rw [reverse_append, dropWhile_append_of_pos (by simpa using h)]

theorem trimPadding_of_last (h : ∀ last ∈ bytes.getLast?, isPadding last = false) :
    trimPadding bytes = bytes := by
  rcases eq_nil_or_concat' bytes with rfl | ⟨front, last, rfl⟩
  · rfl
  · simp [trimPadding, h last (by simp)]

theorem fillLeft_eq_ok {fill : UInt8} {length : Nat} {output : Bytes}
    (h : fillLeft fill length bytes = .ok output) :
    output = bytes ++ List.replicate (length - bytes.length) fill := by
  obtain ⟨-, -, -, rfl⟩ := copyFromSlice_eq_ok h
  simp

theorem fillRight_eq_ok {fill : UInt8} {length : Nat} {output : Bytes}
    (h : fillRight fill length bytes = .ok output) :
    output = List.replicate (length - bytes.length) fill ++ bytes := by
  obtain ⟨start, hstart, h⟩ := bind_eq_ok.mp h
  obtain ⟨-, -, -, rfl⟩ := copyFromSlice_eq_ok h
  obtain ⟨hle, rfl⟩ := Outcome.sub_eq_ok.mp hstart
  simp

theorem utf8_last {text : String} (h : ∀ last ∈ text.toList.getLast?, last ≠ ' ' ∧ last ≠ '\x00') :
    ∀ last ∈ (utf8 text).getLast?, isPadding last = false := by
  rw [← String.ofList_toList (s := text), utf8_ofList]
  rcases eq_nil_or_concat' text.toList with hnil | ⟨front, c, hconcat⟩
  · simp [hnil]
  · obtain ⟨hblank, hnul⟩ := h c (by simp [hconcat])
    have hne : c.val.toNat ≠ 32 ∧ c.val.toNat ≠ 0 :=
      ⟨fun heq => hblank (Char.toNat_inj.mp heq), fun heq => hnul (Char.toNat_inj.mp heq)⟩
    intro last hlast
    rw [hconcat, flatMap_append, flatMap_singleton, getLast?_append] at hlast
    -- The bytes behind the first one of a character are at least 0x80.
    unfold String.utf8EncodeChar at hlast
    dsimp only at hlast
    have hbyte : ∃ code < 256, last = UInt8.ofNat code ∧ code ≠ 32 ∧ code ≠ 0 := by
      split at hlast
      · exact ⟨c.val.toNat, by omega, by simpa using hlast.symm, hne⟩
      · refine ⟨c.val.toNat % 64 + 128, by omega, ?_, by omega⟩
        split at hlast
        · simpa using hlast.symm
        · split at hlast <;> simpa using hlast.symm
    obtain ⟨code, hcode, rfl, h32, h0⟩ := hbyte
    simp only [isPadding, decide_eq_false_iff_not, ← UInt8.toNat_inj, UInt8.toNat_ofNat',
      Nat.mod_eq_of_lt hcode, UInt8.reduceToNat]
    omega

end Padding

section Pages
variable {bytes : Bytes} {text : String}

/-- A page that reads what it writes, byte by byte. -/
theorem page_reads {encode : Char → Option UInt8} {decode : UInt8 → Char}
    (hread : ∀ c byte, encode c = some byte → decode byte = c)
    (hpadding : decode 0x20 = ' ' ∧ decode 0 = '\x00')
    (hlast : ∀ last ∈ text.toList.getLast?, last ≠ ' ' ∧ last ≠ '\x00')
    (h : text.toList.mapM encode = some bytes) :
    trimPadding bytes = bytes ∧ String.ofList (bytes.map decode) = text := by
  have hmap : ∀ (chars : List Char) (bytes : Bytes), chars.mapM encode = some bytes →
    bytes.map decode = chars := by
    intro chars
    induction chars with
    | nil =>
      intro bytes h
      cases h
      rfl
    | cons c rest ih =>
      intro bytes h
      simp only [mapM_cons, bind_eq_some, Option.pure_def, Option.some.injEq] at h
      obtain ⟨byte, hbyte, others, hothers, rfl⟩ := h
      rw [map_cons, hread c byte hbyte, ih others hothers]
  have hchars := hmap _ _ h
  refine ⟨trimPadding_of_last fun last hmem => ?_, by rw [hchars, String.ofList_toList]⟩
  have hne := hlast (decode last) (by rw [← hchars, getLast?_map, Option.mem_def.mp hmem]; rfl)
  simp only [isPadding, decide_eq_false_iff_not, not_or]
  exact ⟨fun heq => hne.1 (by rw [heq, hpadding.1]), fun heq => hne.2 (by rw [heq, hpadding.2])⟩

theorem toNat_ofNat_of_lt {code : Nat} (h : code < 256) : (UInt8.ofNat code).toNat = code := by
  rw [UInt8.toNat_ofNat', Nat.mod_eq_of_lt h]

theorem encodeCodepageChar_reads (upper : String) (c : Char) (byte : UInt8)
    (h : encodeCodepageChar upper c = some byte) :
    (if byte < 0x80 then Char.ofNat byte.toNat
      else upper.toList.getD (byte.toNat - 0x80) replacement) = c := by
  simp only [encodeCodepageChar] at h
  split at h
  · cases h
    have hbyte := toNat_ofNat_of_lt (show c.toNat < 256 by omega)
    rw [if_pos (by simp only [UInt8.lt_iff_toNat_lt, hbyte, UInt8.reduceToNat]; omega), hbyte,
      Char.ofNat_toNat]
  · split at h
    · rename_i index hindex
      split at h
      · cases h
        have hbyte := toNat_ofNat_of_lt ‹index + 0x80 < 256›
        obtain ⟨hlt, hfound, -⟩ := findIdx?_eq_some_iff_getElem.mp hindex
        rw [if_neg (by simp only [UInt8.lt_iff_toNat_lt, hbyte, UInt8.reduceToNat]; omega), hbyte,
          Nat.add_sub_cancel, getD_eq_getElem?_getD,
          getElem?_eq_getElem hlt, Option.getD_some]
        exact of_decide_eq_true hfound
      · cases h
    · cases h

theorem encodeWindows1252Char_reads (c : Char) (byte : UInt8)
    (h : encodeWindows1252Char c = some byte) :
    (if 0x80 ≤ byte ∧ byte ≤ 0x9f then
      windows1252Extended.toList.getD (byte.toNat - 0x80) replacement
    else Char.ofNat byte.toNat) = c := by
  unfold encodeWindows1252Char at h
  split at h
  · cases h
    have hbyte := toNat_ofNat_of_lt (show c.toNat < 256 by omega)
    rw [if_neg (by simp only [UInt8.le_iff_toNat_le, hbyte, UInt8.reduceToNat]; omega), hbyte,
      Char.ofNat_toNat]
  · split at h
    · cases h
    · obtain ⟨index, hindex, rfl⟩ := Option.map_eq_some_iff.mp h
      obtain ⟨hlt, hfound, -⟩ := findIdx?_eq_some_iff_getElem.mp hindex
      have hlength : windows1252Extended.toList.length = 32 := by decide
      have hbyte := toNat_ofNat_of_lt (show index + 0x80 < 256 by omega)
      rw [if_pos (by simp only [UInt8.le_iff_toNat_le, hbyte, UInt8.reduceToNat]; omega), hbyte,
        Nat.add_sub_cancel, getD_eq_getElem?_getD,
          getElem?_eq_getElem hlt, Option.getD_some]
      exact of_decide_eq_true hfound

variable {driver : UInt8}

theorem codePage_of_driverEncoding {encoding : Encoding}
    (h : driverEncoding driver = some encoding) :
    codePage driver = none := by
  unfold driverEncoding at h
  unfold codePage
  split at h <;> simp_all

variable [Runtime]

/-- A legible text is read from its bytes, with or without padding behind them. -/
theorem Legible.reads (hlegible : Legible driver text) (h : encodeText text driver none = some bytes)
    {padding : Bytes} (hpadding : ∀ byte ∈ padding, isPadding byte = true) :
    textWithEncoding (bytes ++ padding) driver none = text := by
  unfold textWithEncoding decodeCjk
  rw [trimPadding_append bytes hpadding]
  dsimp only
  rw [if_neg (by decide), chosenEncoding]
  unfold Legible at hlegible
  cases hdriver : driverEncoding driver with
  | some encoding =>
    rw [hdriver] at hlegible
    simp only [encodeText, codePage_of_driverEncoding hdriver, hdriver, encodeCjk,
      chosenEncoding] at h
    rw [if_neg (by decide)] at h
    split at h
    · cases h
    · cases h
      rw [trimPadding_of_last hlegible.1]
      exact hlegible.2
  | none =>
    rw [hdriver] at hlegible
    rw [Option.map_none]
    dsimp only
    unfold encodeText at h
    rw [hdriver] at h
    cases hpage : codePage driver with
    | none =>
      rw [hpage] at h
      cases h
      rw [trimPadding_of_last (utf8_last hlegible), fromUtf8Lossy_utf8]
    | some page =>
      rw [hpage] at h
      cases page with
      | table name upper =>
        obtain ⟨htrim, hread⟩ := page_reads (encodeCodepageChar_reads upper) ⟨rfl, rfl⟩ hlegible h
        rw [htrim]
        exact hread
      | windows1252 =>
        obtain ⟨htrim, hread⟩ := page_reads encodeWindows1252Char_reads ⟨rfl, rfl⟩ hlegible h
        rw [htrim]
        exact hread

end Pages

section Texts
variable {field : FieldDescriptor}

theorem hexDigit_reads : ∀ nibble < 16,
    (String.utf8EncodeChar (hexDigitChar nibble)).map hexDigit = [some (UInt8.ofNat nibble)] := by
  decide

theorem nibbles_join (byte : UInt8) :
    UInt8.ofNat (byte.toNat / 16) <<< 4 ||| UInt8.ofNat (byte.toNat % 16) = byte := by
  have hall : ∀ code < 256, UInt8.ofNat (code / 16) <<< 4 ||| UInt8.ofNat (code % 16) =
      UInt8.ofNat code := by
    decide +kernel
  rw [hall byte.toNat byte.toNat_lt, UInt8.ofNat_toNat]

theorem hexPairs_hex (field : FieldDescriptor) (bytes : Bytes) :
    (utf8 (hex bytes)).length = 2 * bytes.length ∧
      hexPairs field (utf8 (hex bytes)) = .ok bytes := by
  unfold hex
  rw [utf8_ofList]
  induction bytes with
  | nil => exact ⟨rfl, rfl⟩
  | cons byte rest ih =>
    have hbyte := byte.toNat_lt
    obtain ⟨high, hhigh, hhighDigit⟩ :=
      map_eq_singleton_iff.mp (hexDigit_reads (byte.toNat / 16) (by omega))
    obtain ⟨low, hlow, hlowDigit⟩ :=
      map_eq_singleton_iff.mp (hexDigit_reads (byte.toNat % 16) (by omega))
    have hpair : ((byte :: rest).flatMap hexByte).flatMap String.utf8EncodeChar =
        high :: low :: (rest.flatMap hexByte).flatMap String.utf8EncodeChar := by
      simp [hexByte, hhigh, hlow]
    rw [hpair, hexPairs, hhighDigit, hlowDigit]
    refine ⟨by simp [ih.1]; omega, ?_⟩
    dsimp only
    rw [ih.2, nibbles_join]
    rfl

theorem binaryValue_hex (field : FieldDescriptor) (bytes : Bytes) :
    binaryValue (.string (hex bytes)) field = .ok bytes := by
  obtain ⟨hlength, hpairs⟩ := hexPairs_hex field bytes
  unfold binaryValue
  dsimp only
  rw [if_neg (by omega), hpairs]

theorem toString_toList (integer : Int) : (toString integer).toList =
    (if integer < 0 then ['-'] else []) ++ Nat.toDigits 10 integer.natAbs := by
  cases integer <;> simp [Int.toString_eq_repr, Int.repr, Nat.repr, Int.negSucc_lt_zero]

theorem toString_chars (integer : Int) :
    ∀ c ∈ (toString integer).toList, isWhitespace c = false ∧ c ≠ '\x00' := by
  intro c hc
  rw [toString_toList, mem_append] at hc
  rcases hc with hc | hc
  · split at hc
    · cases mem_singleton.mp hc
      decide
    · cases hc
  · have hdigit := Char.isDigit_iff_toNat.mp (digits_toDigits _ c hc)
    simp only [Char.reduceToNat] at hdigit
    refine ⟨by simp only [isWhitespace, decide_eq_false_iff_not]; omega, ?_⟩
    rintro rfl
    simp at hdigit

theorem parseSigned_toString {integer : Int} (h : -2 ^ 63 ≤ integer ∧ integer < 2 ^ 63) :
    parseSigned 64 (toString integer) = some integer := by
  have hparse : parseDigits (Nat.toDigits 10 integer.natAbs) = some integer.natAbs := by
    rw [parseDigits_eq Nat.toDigits_ne_nil (digits_toDigits _), numeralValue,
      Nat.ofDigitChars_ten_toDigits]
  unfold parseSigned
  rw [toString_toList]
  by_cases hneg : integer < 0
  · rw [if_pos hneg]
    change Option.filter _ ((parseDigits (Nat.toDigits 10 integer.natAbs)).map _) = _
    rw [hparse, Option.map_some, Int.ofNat_eq_natCast,
      show -(integer.natAbs : Int) = integer by omega]
    simpa using h
  · rw [if_neg hneg, nil_append]
    dsimp only
    -- The first digit is no sign.
    split
    · rename_i hsign
      have hdigit := digits_toDigits integer.natAbs '+' (by simp [hsign])
      simp at hdigit
    · rename_i hsign
      have hdigit := digits_toDigits integer.natAbs '-' (by simp [hsign])
      simp at hdigit
    · rw [hparse, Option.map_some, Int.ofNat_eq_natCast,
        show (integer.natAbs : Int) = integer by omega]
      simpa using h

variable [Runtime]

theorem plainText_utf8 {text : String} (h : ∀ last ∈ (utf8 text).getLast?, isPadding last = false) :
    plainText (utf8 text) = text := by
  have hplain : plainText (utf8 text) = fromUtf8Lossy (trimPadding (utf8 text)) := rfl
  rw [hplain, trimPadding_of_last h, fromUtf8Lossy_utf8]

theorem trim_plainText_blanks {text : String} (count : Nat) (hne : text ≠ "")
    (h : ∀ c ∈ text.toList, isWhitespace c = false ∧ c ≠ '\x00') :
    trim (plainText (List.replicate count 0x20 ++ utf8 text)) = text := by
  have hblanks : List.replicate count 0x20 ++ utf8 text =
      utf8 (String.ofList (List.replicate count ' ') ++ text) := by
    rw [utf8_append, utf8_ofList]
    congr 1
    induction count with
    | zero => rfl
    | succ count ih => simp [replicate_succ, ih]; rfl
  obtain ⟨front, last, hlast⟩ := (eq_nil_or_concat' text.toList).resolve_left (by simpa using hne)
  rw [hblanks, plainText_utf8]
  · have htrim : trim text = text := trimMatches_of_none fun c hc => (h c hc).1
    conv_rhs => rw [← htrim]
    unfold trim trimMatches
    rw [String.toList_append, String.toList_ofList, dropWhile_append_of_pos]
    intro c hc
    rw [(mem_replicate.mp hc).2]
    decide
  · apply utf8_last
    intro c hc
    have hc : c = last := by simpa [hlast] using hc.symm
    obtain ⟨hwhite, hnul⟩ := h c (by simp [hlast, hc])
    refine ⟨?_, hnul⟩
    rintro rfl
    cases hwhite

end Texts

section Kinds
variable {field : FieldDescriptor} {header : DbfHeader} {value : Value} {stored : Bytes}
  {encoding : Option String}

theorem int_eq {integer : Int} (h : -2 ^ 63 ≤ integer ∧ integer < 2 ^ 63) :
    Value.int integer = .number (.int ⟨integer, by omega⟩) := by
  unfold Value.int Number.ofInt?
  rw [dif_pos (by omega)]

theorem integer_given (h : IsInteger value) (hstored : encodeInteger value field = .ok stored) :
    stored.length = 4 ∧ Value.int (signedOfLeBytes (stored.take 4)) = value := by
  obtain ⟨integer, rfl, hrange⟩ := h
  have hi64 : valueI64 (.int integer) field = .ok integer := by
    rw [int_eq hrange]
    unfold valueI64 Number.asI64
    dsimp only
    rw [if_pos hrange.2]
    rfl
  simp only [encodeInteger, ite_fail_eq_ok, bind_eq_ok, lift_eq_ok, hi64, Except.ok.injEq] at hstored
  obtain ⟨-, _, rfl, hbounds, rfl⟩ := hstored
  have hlength : (signedToLeBytes 4 integer).length = 4 := toLeBytes_length _ _
  refine ⟨hlength, ?_⟩
  rw [take_of_length_le hlength.le, signedOfLeBytes_signedToLeBytes (by omega) (by omega)]

theorem logical_given (h : value = .null ∨ ∃ boolean, value = .bool boolean)
    (hwidth : 0 < field.width)
    (hstored : encodeLogical value field = .ok stored) : decodeLogical stored = value := by
  obtain ⟨marker, hmarker, hstored⟩ := bind_eq_ok.mp hstored
  obtain ⟨count, hcount⟩ := Nat.exists_eq_succ_of_ne_zero hwidth.ne'
  cases hstored
  rw [hcount, replicate_succ]
  rcases h with rfl | ⟨_ | _, rfl⟩ <;> cases hmarker <;> rfl

theorem timestamp_hex {bytes : Bytes} (hlength : bytes.length = field.width)
    (hstored : encodeTimestamp (.string (hex bytes)) field = .ok stored) : stored = bytes := by
  have hdatetime : (if field.kind = .t ∧ field.width = 8 then foxproDatetimeBytes (hex bytes)
      else .ok none) = .ok none := by
    split
    · have heven := (hexPairs_hex field bytes).1
      unfold foxproDatetimeBytes
      dsimp only
      rw [if_pos (.inl (by omega))]
    · rfl
  unfold encodeTimestamp at hstored
  simp only [Value.isNull, Value.asStr, hdatetime, binaryValue_hex] at hstored
  simp [Outcome.lift, bind, Except.bind, hlength] at hstored
  exact hstored.symm

theorem datetime_given
    (h : value = .null ∨ (∃ moment : Moment, field.width = 8 ∧ value = .string (moment.text 'T')) ∨
      ∃ bytes : Bytes, bytes.length = field.width ∧ value = .string (hex bytes) ∧
        fromLeBytes (bytes.take 4) ≠ 0 ∧ foxproDatetimeText bytes = none)
    (hkind : field.kind = .t) (hstored : encodeTimestamp value field = .ok stored) :
    decodeFoxproDatetime stored = value := by
  unfold decodeFoxproDatetime
  rcases h with rfl | ⟨moment, hwidth, rfl⟩ | ⟨bytes, hlength, rfl, hday, htext⟩
  · have hzeros : ∀ count, fromLeBytes (List.replicate count 0) = 0 := by
      intro count
      induction count with
      | zero => rfl
      | succ count ih => simp [replicate_succ, fromLeBytes, ih]
    cases hstored
    rw [hkind, if_pos rfl, take_replicate, hzeros, if_pos rfl]
  · have hbytes : foxproDatetimeBytes (moment.text 'T') = .ok (some moment.bytes) :=
      foxproDatetimeBytes_eq_ok.mpr ⟨moment, ⟨'T', .inl rfl, rfl⟩, rfl⟩
    simp only [encodeTimestamp, Value.isNull, Value.asStr, hkind, hwidth, and_self, if_true, hbytes,
      Bool.false_eq_true, if_false, Outcome.lift, bind, Except.bind, Except.ok.injEq] at hstored
    rw [← hstored, moment.foxproDatetimeText_bytes]
    have hday : fromLeBytes (moment.bytes.take 4) = moment.julianDay := moment.words_bytes.1
    rw [hday, if_neg moment.julianDay_bounds.1.ne']
  · rw [timestamp_hex hlength hstored, if_neg hday, htext]

variable [Runtime]

theorem double_given {number : { value : F64 // value.isFinite = true }}
    (hstored : encodeDouble (.number (.float number)) field = .ok stored) :
    stored.length = 8 ∧ decodeDouble stored = .number (.float number) := by
  have hnumber : valueF64 (.number (.float number)) field = .ok number.val := if_pos number.property
  simp only [encodeDouble, bind_eq_ok, lift_eq_ok, hnumber, Except.ok.injEq] at hstored
  obtain ⟨_, rfl, rfl⟩ := hstored
  have hlength : number.val.toLeBytes.length = 8 := toLeBytes_length _ _
  have hread : F64.ofLeBytes number.val.toLeBytes = number.val := by
    unfold F64.ofLeBytes F64.toLeBytes
    rw [fromLeBytes_toLeBytes number.val.bits.toNat_lt, UInt64.ofNat_toNat]
  refine ⟨hlength, ?_⟩
  rw [decodeDouble, take_of_length_le hlength.le, hread, Number.fromF64, dif_pos number.property]

theorem number_given (h : value = .null ∨ IsInteger value ∨
      ∃ number, value = .number (.float number) ∧ PrintsBack number.val)
    (hstored : encodeNumber value field = .ok stored) : numeric stored = value := by
  simp only [encodeNumber, exceedsWidth, numericFieldText, bind_eq_ok, lift_eq_ok,
    ite_fail_eq_ok] at hstored
  obtain ⟨text, ⟨given, hgiven, htext⟩, -, hstored⟩ := hstored
  rw [fillRight_eq_ok hstored]
  clear hstored
  rcases h with rfl | h
  · cases hgiven
    cases htext
    have hblank : plainText (List.replicate (field.width - (utf8 "").length) 0x20 ++ utf8 "") =
        "" := by
      have hpadding : ∀ byte ∈ List.replicate (field.width - (utf8 "").length) 0x20 ++ utf8 "",
          isPadding byte = true := by simp [utf8, isPadding]
      have hplain (bytes : Bytes) : plainText bytes = fromUtf8Lossy (trimPadding bytes) := rfl
      rw [hplain, ← nil_append (List.replicate _ _ ++ _), trimPadding_append _ hpadding]
      exact fromUtf8Lossy_utf8 ""
    rw [numeric, hblank]
    rfl
  · -- The printed form is stored as it is, and it is read as what was printed.
    have hread : given ≠ "" ∧ (∀ c ∈ given.toList, isWhitespace c = false ∧ c ≠ '\x00') ∧
        (parseSigned 64 given).elim (((Runtime.parseF64 given).bind Number.fromF64).elim
          (.string given) .number) .int = value := by
      rcases h with ⟨integer, rfl, hrange⟩ | ⟨number, rfl, hne, hchars, hsigned, hparse⟩
      · rw [int_eq hrange] at hgiven ⊢
        cases hgiven
        rw [Number.display, parseSigned_toString hrange]
        refine ⟨fun hempty => ?_, toString_chars integer, int_eq hrange⟩
        have hsome := parseSigned_toString hrange
        rw [hempty] at hsome
        cases hsome
      · cases hgiven
        rw [Number.display, hsigned, hparse, Option.bind_some, Number.fromF64,
          dif_pos number.property]
        exact ⟨hne, hchars, rfl⟩
    obtain ⟨hne, hchars, hvalue⟩ := hread
    have htrim : trim given = given := trimMatches_of_none fun c hc => (hchars c hc).1
    rw [if_neg (by simpa using hne), htrim] at htext
    split at htext
    · cases htext
    · split at htext
      · cases htext
        rw [numeric, trim_plainText_blanks _ hne hchars, if_neg (by simpa using hne), ← hvalue]
        cases parseSigned 64 text with
        | some integer => rfl
        | none => cases (Runtime.parseF64 text).bind Number.fromF64 <;> rfl
      · cases htext

theorem encodeCharacter_eq_ok {text : String} {driver : UInt8}
    (h : encodeCharacterWithEncoding (.string text) field driver none = .ok stored) :
    encodeText text driver none = some stored := by
  obtain ⟨_, htext, h⟩ := bind_eq_ok.mp h
  cases htext
  split at h
  · rename_i hencode
    cases h
    exact hencode
  · cases h

theorem date_given (h : value = .null ∨ ∃ text, value = .string text ∧ text ≠ "")
    (hstored : encodeDate value field = .ok stored) :
    (if stored.all isPadding then .null else .string (plainText stored)) = value := by
  simp only [encodeDate, ite_fail_eq_ok, bind_eq_ok, lift_eq_ok] at hstored
  obtain ⟨-, given, hgiven, hdate⟩ := hstored
  rcases h with rfl | ⟨_, rfl, hne⟩
  · cases hgiven
    cases hdate
    rw [if_pos (by simp [isPadding])]
  · cases hgiven
    rw [if_neg (by simpa using hne), ite_fail_eq_ok, not_or, not_not, not_not] at hdate
    obtain ⟨hdigits, ⟨⟩⟩ := hdate
    have hdigit : ∀ byte ∈ utf8 given, isPadding byte = false := by
      intro byte hbyte
      have hcode := all_eq_true.mp hdigits.2 byte hbyte
      simp only [isAsciiDigit, isPadding, UInt8.le_iff_toNat_le, decide_eq_true_eq,
        decide_eq_false_iff_not, ← UInt8.toNat_inj, UInt8.reduceToNat] at hcode ⊢
      omega
    have hlast := fun last (hlast : last ∈ (utf8 given).getLast?) =>
      hdigit last (mem_of_getLast? hlast)
    obtain ⟨byte, hbyte⟩ := exists_mem_of_ne_nil (utf8 given) fun hnil =>
      hne (utf8_inj (hnil.trans rfl))
    have hsome : ¬ (utf8 given).all isPadding = true := fun hall =>
      Bool.false_ne_true ((hdigit byte hbyte).symm.trans (all_eq_true.mp hall byte hbyte))
    rw [if_neg hsome, plainText_utf8 hlast]

theorem character_given
    (h : if field.isBinary then IsHex field value
      else ∃ text, value = .string text ∧ Legible header.languageDriver text)
    (hstored : encodeCharacterField field value header.languageDriver none = .ok stored) :
    (if field.isBinary then .string (hex stored)
      else .string (textWithEncoding stored header.languageDriver none)) = value := by
  simp only [encodeCharacterField, exceedsWidth, bind_eq_ok, lift_eq_ok, ite_fail_eq_ok] at hstored
  obtain ⟨bytes, hbytes, -, hstored⟩ := hstored
  rw [fillLeft_eq_ok hstored]
  split at h
  · rename_i hbinary
    obtain ⟨given, hlength, rfl⟩ := h
    rw [if_pos hbinary, binaryValue_hex] at hbytes
    cases hbytes
    rw [if_pos hbinary, hlength, Nat.sub_self, replicate_zero, append_nil]
  · rename_i hbinary
    obtain ⟨text, rfl, hlegible⟩ := h
    rw [if_neg hbinary] at hbytes ⊢
    rw [hlegible.reads (encodeCharacter_eq_ok hbytes) (by simp [isPadding])]

theorem variable_given
    (h : if field.isBinary then ∃ bytes, value = .string (hex bytes)
      else ∃ text, value = .string text ∧ Legible header.languageDriver text)
    (hstored : encodeVariableField value field header.languageDriver none = .ok stored) :
    let data := stored.take ((stored.getLast?.map UInt8.toNat).getD 0)
    stored ≠ [] ∧ (stored.getLast?.map UInt8.toNat).getD 0 ≤ stored.length - 1 ∧
      (if field.isBinary then .string (hex data)
        else .string (textWithEncoding data header.languageDriver none)) = value := by
  have hnull : value.isNull = false := by
    split at h
    · obtain ⟨_, rfl⟩ := h
      rfl
    · obtain ⟨_, rfl, -⟩ := h
      rfl
  simp only [encodeVariableField, hnull, Bool.false_eq_true, if_false, bind_eq_ok, lift_eq_ok,
    ite_fail_eq_ok] at hstored
  obtain ⟨hpositive, bytes, hbytes, hfits, output, houtput, hsmall, hstored⟩ := hstored
  obtain ⟨-, hlength, -, hstored⟩ := copyFromSlice_eq_ok hstored
  -- The data, padding, and the length of the data in the last byte.
  have hlast : (stored.getLast?.map UInt8.toNat).getD 0 = bytes.length := by
    rw [hstored, drop_eq_nil_of_le (by rw [Outcome.copyFromSlice_length houtput]; simp)]
    simpa using toNat_ofNat_of_lt (by omega)
  have hdata : stored.take bytes.length = bytes := by
    rw [hstored, fillLeft_eq_ok houtput, append_assoc, take_append_of_le_length (by simp; omega),
      take_take, Nat.min_eq_left (by omega), take_left]
  have hwidth : stored.length = field.width := by
    rw [hstored, fillLeft_eq_ok houtput]
    simp
    omega
  dsimp only
  rw [hlast, hdata]
  refine ⟨fun hnil => ?_, by omega, ?_⟩
  · rw [hnil, length_nil] at hwidth
    omega
  split at h
  · rename_i hbinary
    obtain ⟨given, rfl⟩ := h
    rw [if_pos hbinary, binaryValue_hex] at hbytes
    cases hbytes
    rw [if_pos hbinary]
  · rename_i hbinary
    obtain ⟨text, rfl, hlegible⟩ := h
    rw [if_neg hbinary] at hbytes ⊢
    rw [← append_nil bytes, hlegible.reads (encodeCharacter_eq_ok hbytes) (by simp)]

theorem currency_given {amount : Int} (hrange : -2 ^ 63 ≤ amount ∧ amount < 2 ^ 63)
    (hstored : encodeCurrency (.string (currencyText (signedToLeBytes 8 amount))) field =
      .ok stored) :
    stored = signedToLeBytes 8 amount := by
  simp only [encodeCurrency, ite_fail_eq_ok, bind_eq_ok, lift_eq_ok, currencyI64_currencyText hrange,
    Except.ok.injEq] at hstored
  obtain ⟨-, _, rfl, rfl⟩ := hstored
  rfl

/-- Outside the character and the variable fields the kind alone decides how a field is read. -/
theorem representable_of_kind {kind : FieldKind} (hkind : field.kind = kind)
    (hfixed : kind ≠ .c ∧ kind ≠ .q ∧ kind ≠ .v)
    (h : ∀ stored, encodeFieldWithEncoding field value header.languageDriver encoding = .ok stored →
      decodeFieldWithEncoding field.fieldType stored header.languageDriver
        (memoFormatForVersion header.version) encoding = value) :
    Representable header encoding field value := by
  intro stored hstored
  unfold decodeStored
  split
  · rename_i hnull
    cases value <;> simp_all [Value.isNull, Value.eqv]
  · rw [if_neg (by simp [FieldDescriptor.isVariable, hkind, hfixed]),
      if_neg (by simp [hkind, hfixed]),
      h stored hstored]
    exact Value.eqv_refl _

theorem representable_integer (hkind : field.kind = .i ∨ field.kind = .plus) (h : IsInteger value) :
    Representable header encoding field value := by
  have hofByte : FieldKind.ofByte field.fieldType = field.kind := rfl
  rcases hkind with hkind | hkind
  all_goals
    refine representable_of_kind hkind (by simp) fun stored hstored => ?_
    rw [encodeFieldWithEncoding, hkind] at hstored
    rw [decodeFieldWithEncoding, hofByte, hkind]
    obtain ⟨hlength, hvalue⟩ := integer_given h hstored
    exact (if_pos hlength.ge).trans hvalue

/-- What a field gives back, it reads from what it writes. -/
theorem GivesBack.representable (h : GivesBack header field value)
    (hsidecar : isSidecarField field = false)
    (hwidth : 0 < field.width) : Representable header none field value := by
  rcases h with ⟨rfl, hnullable, hfoxpro⟩ | h
  · intro stored _
    simp [decodeStored, hnullable, hfoxpro, Value.isNull, Value.eqv]
  have hofByte : FieldKind.ofByte field.fieldType = field.kind := rfl
  cases hkind : field.kind
  case c =>
    rw [hkind] at h
    intro stored hstored
    rw [encodeFieldWithEncoding, hkind] at hstored
    have hgiven := character_given h hstored
    have hnull : value.isNull = false := by
      rw [← hgiven]
      split <;> rfl
    unfold decodeStored decodeFieldWithEncoding
    rw [hnull, Bool.and_false, if_neg (by simp),
      if_neg (by simp [FieldDescriptor.isVariable, hkind]),
      hofByte, hkind]
    simp only [true_and]
    rw [hgiven]
    exact Value.eqv_refl _
  case q | v =>
    rw [hkind] at h
    intro stored hstored
    rw [encodeFieldWithEncoding, hkind] at hstored
    obtain ⟨hne, hle, hgiven⟩ := variable_given h.2 hstored
    have hnull : value.isNull = false := by
      rw [← hgiven]
      split <;> rfl
    have hvariable : field.isVariable = true := by simp [FieldDescriptor.isVariable, hkind]
    unfold decodeStored
    rw [hnull, Bool.and_false, if_neg (by simp), if_pos ⟨h.1, hvariable⟩, if_neg (by simp)]
    simp only [hvariable, hne, hle, ne_eq, not_false_eq_true, and_self, if_true, hgiven]
    exact Value.eqv_refl _
  case g | m | p | w => simp [isSidecarField, hkind] at hsidecar
  case i | plus =>
    rw [hkind] at h
    exact representable_integer (by simp [hkind]) h
  case other =>
    intro stored hstored
    rw [encodeFieldWithEncoding, hkind] at hstored
    cases hstored
  all_goals
    rw [hkind] at h
    refine representable_of_kind hkind (by simp) fun stored hstored => ?_
    rw [encodeFieldWithEncoding, hkind] at hstored
    rw [decodeFieldWithEncoding, hofByte, hkind]
    dsimp only at h hstored ⊢
  case d => exact date_given h hstored
  case n | f => exact number_given h hstored
  case l => exact logical_given h hwidth hstored
  case b =>
    have hwidth : field.width = 8 := by simpa [isSidecarField, hkind] using hsidecar
    rw [if_pos hwidth] at hstored
    obtain ⟨hformat, number, rfl⟩ := h
    obtain ⟨hlength, hvalue⟩ := double_given hstored
    rw [if_neg, if_pos hlength.ge, hvalue]
    rcases mem_pair.mp hformat with hnone | hfoxpro <;> simp [*]
  case o =>
    obtain ⟨number, rfl⟩ := h
    split at hstored
    · cases hstored
    · obtain ⟨hlength, hvalue⟩ := double_given hstored
      rw [if_pos hlength.ge, hvalue]
  case y =>
    obtain ⟨amount, hrange, rfl⟩ := h
    rw [currency_given hrange hstored]
    exact if_pos (toLeBytes_length 8 _).ge
  case «at» =>
    obtain ⟨bytes, hlength, rfl⟩ := h
    rw [timestamp_hex hlength hstored]
  case t =>
    have hlength := (Fills.timestamp value field).2 stored hstored
    rw [hlength]
    split at h
    · rename_i hfoxpro
      rw [if_pos hfoxpro, datetime_given h hkind hstored]
    · rename_i hfoxpro
      obtain ⟨bytes, hbytes, rfl⟩ := h
      rw [if_neg hfoxpro, timestamp_hex hbytes hstored]

end Kinds

end TxBase.Dbf
