import Mathlib.Data.List.Lex
import Mathlib.Tactic.IntervalCases
import Mathlib.Tactic.Linarith
import TxBase.Dbf.Scalar
import TxBase.Lib.Numerals

/-! FoxPro datetimes, `foxpro_datetime_bytes` and `foxpro_datetime_text` of
`src/dbf/codec_temporal.rs`: a Julian day and the milliseconds of the day.  Whether a date is
real is left to a round trip through the day number, so the calendar comes first. -/
namespace TxBase.Dbf
open Lib List

section Calendar
variable {year month day : Int}

def isLeapYear (year : Int) : Bool := year % 4 = 0 ∧ (year % 100 ≠ 0 ∨ year % 400 = 0)

def daysInMonth (year month : Int) : Int :=
  if month = 2 then if isLeapYear year then 29 else 28
  else if month = 4 ∨ month = 6 ∨ month = 9 ∨ month = 11 then 30 else 31

/-- A real date of the proleptic Gregorian calendar. -/
structure IsDate (year month day : Int) : Prop where
  month_pos : 1 ≤ month
  month_le : month ≤ 12
  day_pos : 1 ≤ day
  day_le : day ≤ daysInMonth year month

/-- Truncating division, shifted as the source does it, rounds down. -/
theorem tdiv_era (n x : Int) (hn : 0 < n) :
    (if x ≥ 0 then x else x - (n - 1)).tdiv n = x / n := by
  split
  · exact Int.tdiv_eq_ediv_of_nonneg ‹_›
  · rename_i hneg
    rw [show x - (n - 1) = -(n - 1 - x) by ring, Int.neg_tdiv, Int.tdiv_eq_ediv_of_nonneg (by omega)]
    have hlow := Int.mul_ediv_self_le (x := n - 1 - x) (k := n) hn.ne'
    have hhigh := Int.lt_mul_ediv_self_add (x := n - 1 - x) (k := n) hn
    rw [eq_comm, Int.ediv_eq_iff_of_pos hn]
    constructor <;> linarith

/-- The days before the year that starts in March. -/
def yearDays (year : Int) : Int := 365 * year + year / 4 - year / 100 + year / 400

/-- The days since 1970-01-01. -/
def dayNumber (year month day : Int) : Int :=
  if month ≤ 2 then yearDays (year - 1) + (153 * (month + 9) + 2) / 5 + day - 719469
  else yearDays year + (153 * (month - 3) + 2) / 5 + day - 719469

/-- The days that the source can count: behind them `days + 719_468` overflows. -/
def Countable (days : Int) : Prop := -2 ^ 63 ≤ days ∧ days < 2 ^ 63 - 719468

theorem IsDate.day_le_31 (h : IsDate year month day) : day ≤ 31 := by
  have hle := h.day_le
  unfold daysInMonth at hle
  split at hle <;> split at hle <;> omega

theorem i64Result_eq_some {α : Type} {steps : List Int} {value result : α} :
    i64Result steps value = some result ↔
      (∀ step ∈ steps, -2 ^ 63 ≤ step ∧ step < 2 ^ 63) ∧ value = result := by
  unfold i64Result
  rw [Option.ite_none_right_eq_some, Option.some.injEq]

/-- The days of the years before one, era by era. -/
theorem yearDays_split (year : Int) : ∃ era ofEra leaps centuries, year / 400 = era ∧
    year - era * 400 = ofEra ∧
    ofEra / 4 = leaps ∧ ofEra / 100 = centuries ∧ 0 ≤ ofEra ∧ ofEra ≤ 399 ∧ 0 ≤ leaps ∧ leaps ≤ 99 ∧
    0 ≤ centuries ∧ centuries ≤ 3 ∧ yearDays year =
      era * 146097 + (ofEra * 365 + leaps - centuries) := by
  refine ⟨_, _, _, _, rfl, rfl, rfl, rfl, ?_⟩
  unfold yearDays
  omega

theorem daysFromCivil_eq_some (h : IsDate year month day) {days : Int} :
    daysFromCivil year month day = some days ↔ Countable days ∧ dayNumber year month day = days := by
  have hday := h.day_le_31
  obtain ⟨hlow, hhigh, hfirst, -⟩ := h
  have hera (x : Int) : (if x ≥ 0 then x else x - 399).tdiv 400 = x / 400 :=
    tdiv_era 400 x (by decide)
  have hstart (x : Int) : x - 399 ≤ (if x ≥ 0 then x else x - 399) ∧
      (if x ≥ 0 then x else x - 399) ≤ x := by
    split <;> omega
  unfold daysFromCivil dayNumber Countable
  dsimp only
  rw [i64Result_eq_some, hera]
  simp only [forall_mem_cons, not_mem_nil, false_imp_iff, implies_true, and_true]
  obtain ⟨start, prime, hyear, hprime⟩ : ∃ start prime, year - (if month ≤ 2 then 1 else 0) = start ∧
      month + (if month > 2 then -3 else 9) = prime := ⟨_, _, rfl, rfl⟩
  have hnumber : (if month ≤ 2 then yearDays (year - 1) + (153 * (month + 9) + 2) / 5 + day - 719469
      else yearDays year + (153 * (month - 3) + 2) / 5 + day - 719469) =
        yearDays start + (153 * prime + 2) / 5 + day - 719469 := by
    subst hyear hprime
    rcases le_or_gt month 2 with hearly | hlate
    · rw [if_pos hearly, if_pos hearly, if_neg (by omega)]
    · rw [if_neg (by omega), if_neg (by omega), if_pos hlate, Int.sub_zero]
      rfl
  have hprimes : 0 ≤ prime ∧ prime ≤ 11 := by
    split at hprime <;> omega
  have hyears : start ≤ year ∧ year ≤ start + 1 := by
    split at hyear <;> omega
  obtain ⟨era, ofEra, leaps, centuries, hquotient, hrest, hleaps, hcenturies, hbounds⟩ :=
    yearDays_split start
  have hshift := hstart start
  rw [hyear, hprime, hnumber, hquotient, hrest, Int.tdiv_eq_ediv_of_nonneg (by omega),
    Int.tdiv_eq_ediv_of_nonneg (by omega), Int.tdiv_eq_ediv_of_nonneg (by omega), hleaps, hcenturies]
  generalize (if start ≥ 0 then start else start - 399) = shifted at hshift ⊢
  clear hnumber hleaps hcenturies hquotient
  constructor
  · intro hsteps
    omega
  · intro hdays
    omega

/-- The year of a day in its era of 400 years.  Its 366th day is a leap day. -/
theorem yearOfEra_bounds (hlow : 0 ≤ day) (hhigh : day ≤ 146096)
    (hyear : year = (day - day / 1460 + day / 36524 - day / 146096) / 365) :
    0 ≤ year ∧ year ≤ 399 ∧ 365 * year + year / 4 - year / 100 ≤ day ∧
      day ≤ 365 * year + year / 4 - year / 100 + 365 ∧
    (day = 365 * year + year / 4 - year / 100 + 365 → (year + 1) % 4 = 0 ∧
      ((year + 1) % 100 ≠ 0 ∨ year = 399)) := by
  rcases eq_or_ne day 146096 with rfl | hne
  · subst hyear; decide
  have hzero : day / 146096 = 0 := by omega
  rw [hzero] at hyear
  have hcentury : day / 36524 = 0 ∨ day / 36524 = 1 ∨ day / 36524 = 2 ∨ day / 36524 = 3 := by omega
  have hhundred : year / 100 = day / 36524 := by
    rcases hcentury with h | h | h | h <;> rw [h] at hyear ⊢ <;> omega
  have hmod : year % 4 = 0 ∨ year % 4 = 1 ∨ year % 4 = 2 ∨ year % 4 = 3 := by omega
  have hfour : day / 1460 = year / 4 - 1 ∨ day / 1460 = year / 4 ∨
    day / 1460 = year / 4 + 1 := by omega
  rcases hcentury with h | h | h | h <;> rw [h] at hyear hhundred <;>
    rcases hfour with h | h | h <;> rcases hmod with h' | h' | h' | h' <;> omega

theorem yearDays_era (era : Int) (hlow : 0 ≤ year) (hhigh : year ≤ 399) :
    yearDays (year + era * 400) = 365 * year + year / 4 - year / 100 + era * 146097 := by
  unfold yearDays
  omega

theorem yearDays_lt {left right : Int} (h : left < right) :
    yearDays left + (if isLeapYear (left + 1) then 366 else 365) ≤ yearDays right := by
  unfold yearDays isLeapYear
  simp only [decide_eq_true_eq]
  split <;> omega

theorem dayOfMonth_bounds {offset : Int} (hlow : 0 ≤ offset) (hhigh : offset ≤ 365)
    (hmonth : month = (5 * offset + 2) / 153) (hday : day = offset - (153 * month + 2) / 5 + 1) :
    0 ≤ month ∧ month ≤ 11 ∧ 1 ≤ day ∧ day ≤ 31 ∧
      (month = 1 ∨ month = 3 ∨ month = 6 ∨ month = 8 → day ≤ 30) ∧
      (month = 11 → day ≤ 28 ∨ day = 29 ∧ offset = 365) := by
  omega

/-- Every day number is that of the real date it is taken for. -/
theorem civilFromDays_spec (days : Int) : ∃ year month day, IsDate year month day ∧
    dayNumber year month day = days ∧
      ∀ result, civilFromDays days = some result ↔ Countable days ∧ (year, month, day) = result := by
  have hera (x : Int) : (if x ≥ 0 then x else x - 146096).tdiv 146097 = x / 146097 :=
    tdiv_era 146097 x (by decide)
  unfold civilFromDays
  dsimp only
  rw [hera]
  have hlow : 0 ≤ days + 719468 - (days + 719468) / 146097 * 146097 := by omega
  have hhigh : days + 719468 - (days + 719468) / 146097 * 146097 ≤ 146096 := by omega
  generalize (days + 719468) / 146097 = era at hlow hhigh ⊢
  generalize hday : days + 719468 - era * 146097 = day at hlow hhigh ⊢
  rw [Int.tdiv_eq_ediv_of_nonneg hlow, Int.tdiv_eq_ediv_of_nonneg hlow,
    Int.tdiv_eq_ediv_of_nonneg hlow,
    Int.tdiv_eq_ediv_of_nonneg (a := day - day / 1460 + day / 36524 - day / 146096) (by omega)]
  generalize hyear : (day - day / 1460 + day / 36524 - day / 146096) / 365 = year
  obtain ⟨hyearLow, hyearHigh, hfirst, hlast, hleap⟩ := yearOfEra_bounds hlow hhigh hyear.symm
  clear hlow hhigh hyear
  rw [Int.tdiv_eq_ediv_of_nonneg hyearLow, Int.tdiv_eq_ediv_of_nonneg hyearLow]
  generalize hoffset : day - (365 * year + year / 4 - year / 100) = offset
  rw [Int.tdiv_eq_ediv_of_nonneg (a := 5 * offset + 2) (by omega)]
  generalize hmonth : (5 * offset + 2) / 153 = month
  rw [Int.tdiv_eq_ediv_of_nonneg (a := 153 * month + 2) (by omega)]
  generalize hdate : offset - (153 * month + 2) / 5 + 1 = date
  obtain ⟨hmonthLow, hmonthHigh, hdateLow, hdateHigh, hthirty, hfebruary⟩ :=
    dayOfMonth_bounds (by omega) (by omega) hmonth.symm hdate.symm
  clear hmonth
  refine ⟨year + era * 400 + if (month + if month < 10 then 3 else -9) ≤ 2 then 1 else 0,
    month + if month < 10 then 3 else -9, date, ?_, ?_, fun result => ?_⟩
  · refine ⟨by split <;> omega, by split <;> omega, hdateLow, ?_⟩
    unfold daysInMonth isLeapYear
    simp only [decide_eq_true_eq]
    split <;> omega
  · unfold dayNumber
    have hera := yearDays_era era hyearLow hyearHigh
    by_cases hearly : month < 10
    · simp only [if_pos hearly, if_neg (show ¬ month + 3 ≤ 2 by omega), Int.add_zero]
      omega
    · simp only [if_neg hearly, if_pos (show month + -9 ≤ 2 by omega), Int.add_sub_cancel]
      omega
  · -- All values on the way are near the day or small.
    have hstart : days + 719468 - 146096 ≤
      (if days + 719468 ≥ 0 then days + 719468 else days + 719468 - 146096) ∧
        (if days + 719468 ≥ 0 then days + 719468 else days + 719468 - 146096) ≤ days + 719468 := by
      split <;> omega
    have hmonth : -9 ≤ (if month < 10 then 3 else -9 : Int) ∧
        (if month < 10 then 3 else -9 : Int) ≤ 3 := by
      split <;> omega
    rw [i64Result_eq_some]
    refine and_congr ?_ Iff.rfl
    simp only [forall_mem_cons, not_mem_nil, false_imp_iff, implies_true, and_true]
    generalize (if days + 719468 ≥ 0 then days + 719468 else days + 719468 - 146096) =
      start at hstart ⊢
    generalize (if month < 10 then 3 else -9 : Int) = shift at hmonth ⊢
    have hyear : 0 ≤ (if month + shift ≤ 2 then 1 else 0 : Int) ∧
      (if month + shift ≤ 2 then 1 else 0 : Int) ≤ 1 := by
      split <;> omega
    generalize (if month + shift ≤ 2 then 1 else 0 : Int) = one at hyear ⊢
    have hsmall : 0 ≤ day ∧ day ≤ 146096 ∧ 0 ≤ offset ∧ offset ≤ 365 := by omega
    have hparts : 0 ≤ day / 1460 ∧ day / 1460 ≤ 100 ∧ 0 ≤ day / 36524 ∧ day / 36524 ≤ 4 ∧
      0 ≤ day / 146096 ∧
        day / 146096 ≤ 1 ∧ 0 ≤ year / 4 ∧ year / 4 ≤ 99 ∧ 0 ≤ year / 100 ∧ year / 100 ≤ 3 := by omega
    generalize day / 1460 = quads, day / 36524 = centuries, day / 146096 = last, year / 4 = leaps,
      year / 100 = hundreds at hparts ⊢
    clear hthirty hfebruary hleap hfirst hlast hoffset hdate
    unfold Countable
    constructor
    · intro hsteps
      omega
    · intro hdays
      and_intros <;> omega

/-- Later dates have greater day numbers. -/
theorem dayNumber_lt {year' month' day' : Int} (hleft : IsDate year month day)
    (hright : IsDate year' month' day')
    (h : year < year' ∨ year = year' ∧ (month < month' ∨ month = month' ∧ day < day')) :
    dayNumber year month day < dayNumber year' month' day' := by
  obtain ⟨hlow, hhigh, hfirst, hlast⟩ := hleft
  obtain ⟨hlow', hhigh', hfirst', -⟩ := hright
  have hyear := yearDays_lt (show year - 1 < year by omega)
  rw [Int.sub_add_cancel] at hyear
  have hsame : year = year' → yearDays year' = yearDays year ∧
      yearDays (year' - 1) = yearDays (year - 1) := by
    rintro rfl
    exact ⟨rfl, rfl⟩
  have hlater : year < year' → yearDays year + 365 ≤ yearDays year' ∧
      yearDays year ≤ yearDays (year' - 1) := by
    unfold yearDays
    omega
  unfold dayNumber
  unfold daysInMonth at hlast
  by_cases hleap : isLeapYear year
  · rw [if_pos hleap] at hyear hlast
    interval_cases month <;> norm_num at hlast ⊢ <;> split <;> omega
  · rw [if_neg hleap] at hyear hlast
    interval_cases month <;> norm_num at hlast ⊢ <;> split <;> omega

theorem civilFromDays_dayNumber (h : IsDate year month day)
    (hcount : Countable (dayNumber year month day)) :
    civilFromDays (dayNumber year month day) = some (year, month, day) := by
  obtain ⟨year', month', day', hdate, hdays, hresult⟩ :=
    civilFromDays_spec (dayNumber year month day)
  refine (hresult _).mpr ⟨hcount, ?_⟩
  -- Were the two dates not the same, one of them would be later.
  by_contra hne
  simp only [Prod.mk.injEq, not_and] at hne
  by_cases hlt : year < year' ∨ year = year' ∧ (month < month' ∨ month = month' ∧ day < day')
  · exact absurd hdays (dayNumber_lt h hdate hlt).ne'
  · exact absurd hdays (dayNumber_lt hdate h (by omega)).ne

end Calendar

/-- A second of the years 1 to 9999. -/
structure Moment where
  year : Nat
  month : Nat
  day : Nat
  hour : Nat
  minute : Nat
  second : Nat
  year_pos : 1 ≤ year
  year_le : year ≤ 9999
  isDate : IsDate year month day
  hour_lt : hour < 24
  minute_lt : minute < 60
  second_lt : second < 60

namespace Moment

def text (moment : Moment) (mark : Char) : String :=
  decimalPadded 4 moment.year ++ "-" ++ decimalPadded 2 moment.month ++ "-" ++
    decimalPadded 2 moment.day ++ mark.toString ++ decimalPadded 2 moment.hour ++ ":" ++
    decimalPadded 2 moment.minute ++ ":" ++ decimalPadded 2 moment.second

def NamedBy (moment : Moment) (text : String) : Prop :=
  ∃ mark, (mark = 'T' ∨ mark = ' ') ∧ text = moment.text mark

def fields (moment : Moment) : List Nat :=
  [moment.year, moment.month, moment.day, moment.hour, moment.minute, moment.second]

def julianDay (moment : Moment) : Nat :=
  (dayNumber moment.year moment.month moment.day + julianDayUnixEpoch).toNat

def milliseconds (moment : Moment) : Nat :=
  moment.hour * 3600000 + moment.minute * 60000 + moment.second * 1000

def bytes (moment : Moment) : Bytes :=
  toLeBytes 4 moment.julianDay ++ toLeBytes 4 moment.milliseconds

variable (moment : Moment)

theorem julianDay_bounds : 0 < moment.julianDay ∧ moment.julianDay < u32Size ∧
    (moment.julianDay : Int) = dayNumber moment.year moment.month moment.day + julianDayUnixEpoch := by
  have hyear := moment.year_pos
  have hyear' := moment.year_le
  have hday := moment.isDate.day_le_31
  have hmonth := moment.isDate.month_pos
  have hmonth' := moment.isDate.month_le
  unfold julianDay julianDayUnixEpoch u32Size dayNumber yearDays
  split <;> omega

theorem countable : Countable (dayNumber moment.year moment.month moment.day) := by
  obtain ⟨-, hlt, heq⟩ := moment.julianDay_bounds
  unfold julianDayUnixEpoch at heq
  unfold u32Size at hlt
  unfold Countable
  omega

theorem milliseconds_lt : moment.milliseconds < millisecondsPerDay := by
  have hhour := moment.hour_lt
  have hminute := moment.minute_lt
  have hsecond := moment.second_lt
  unfold milliseconds millisecondsPerDay
  omega

theorem civilFromDays_julianDay :
    civilFromDays ((moment.julianDay : Int) - julianDayUnixEpoch) =
      some ((moment.year : Int), (moment.month : Int), (moment.day : Int)) := by
  rw [moment.julianDay_bounds.2.2, Int.add_sub_cancel,
    civilFromDays_dayNumber moment.isDate moment.countable]

theorem words_bytes : fromLeBytes (slice moment.bytes 0 4) = moment.julianDay ∧
    fromLeBytes (slice moment.bytes 4 8) = moment.milliseconds := by
  have hday := moment.julianDay_bounds.2.1
  have htime := moment.milliseconds_lt
  unfold u32Size at hday
  unfold millisecondsPerDay at htime
  exact ⟨fromLeBytes_slice 4 [] (prefix_append _ _) rfl rfl (by omega),
    fromLeBytes_slice 4 (toLeBytes 4 moment.julianDay) prefix_rfl
      (toLeBytes_length 4 _) rfl (by omega)⟩

theorem foxproDatetimeText_bytes : foxproDatetimeText moment.bytes = some (moment.text 'T') := by
  have hyear := moment.year_pos
  have hyear' := moment.year_le
  have hhour : moment.milliseconds / 3600000 = moment.hour ∧
      moment.milliseconds / 60000 % 60 = moment.minute ∧
      moment.milliseconds / 1000 % 60 = moment.second := by
    have hminute := moment.minute_lt
    have hsecond := moment.second_lt
    unfold milliseconds
    omega
  unfold foxproDatetimeText
  dsimp only
  rw [moment.words_bytes.1, moment.words_bytes.2, if_neg, moment.civilFromDays_julianDay]
  · rw [Option.bind_eq_bind, Option.bind_some, if_neg (by omega), hhour.1, hhour.2.1, hhour.2.2]
    rfl
  · have hpos := moment.julianDay_bounds.1
    have htime := moment.milliseconds_lt
    omega

end Moment

section Parts
variable {bytes : Bytes} {start stop width : Nat}

/-- A part of digits is a number of as many digits. -/
theorem exists_number {value : Int} (width : Nat) (hpos : 0 < width)
    (hwidth : (slice bytes start stop).length = width)
    (h : datetimePart bytes start stop = .ok value) :
    ∃ number : Nat, value = number ∧ slice bytes start stop = utf8 (decimalPadded width number) := by
  unfold datetimePart at h
  dsimp only at h
  generalize slice bytes start stop = part at hwidth h ⊢
  subst hwidth
  split at h
  · rename_i number hnumber
    cases h
    split at hnumber
    · rename_i hall
      obtain ⟨hdigits, hbytes⟩ := digits_of_bytes hall
      have hlength : (part.map digitOf).length = part.length := length_map _
      change parseDigits (part.map digitOf) = _ at hnumber
      rw [parseDigits_eq (ne_nil_of_length_pos (by omega)) hdigits, Option.some.injEq] at hnumber
      have hpadded := decimalPadded_numeralValue hdigits (by omega)
      rw [hlength, hnumber] at hpadded
      exact ⟨number, rfl, by rw [← String.ofList_toList (s := decimalPadded _ _), hpadded, hbytes]⟩
    · cases hnumber
  · cases h

variable {number : Nat}

theorem utf8_length_decimalPadded (hpos : 0 < width) (h : number < 10 ^ width) :
    (utf8 (decimalPadded width number)).length = width := by
  rw [← String.ofList_toList (s := decimalPadded _ _), utf8_digits (digits_decimalPadded _ _),
    length_map, length_decimalPadded hpos h]

theorem datetimePart_of_slice (hpos : 0 < width) (hlt : number < 10 ^ width)
    (h : slice bytes start stop = utf8 (decimalPadded width number)) :
    datetimePart bytes start stop = .ok number := by
  have hdigits := digits_decimalPadded width number
  have hlength := length_decimalPadded hpos hlt
  obtain ⟨hchars, hall⟩ := bytes_of_digits hdigits
  rw [String.ofList_toList] at hchars hall
  have hmap : (utf8 (decimalPadded width number)).map (fun byte => Char.ofNat byte.toNat) =
      (decimalPadded width number).toList := hchars
  unfold datetimePart
  dsimp only
  rw [h, if_pos hall, hmap, parseDigits_eq (ne_nil_of_length_pos (by omega)) hdigits,
    numeralValue_decimalPadded]

end Parts

theorem split_datetime {bytes : Bytes} (h : bytes.length = 19) :
    bytes = slice bytes 0 4 ++ bytes.getD 4 0 :: (slice bytes 5 7 ++ bytes.getD 7 0 ::
      (slice bytes 8 10 ++ bytes.getD 10 0 :: (slice bytes 11 13 ++ bytes.getD 13 0 ::
        (slice bytes 14 16 ++ bytes.getD 16 0 :: slice bytes 17 19)))) := by
  match bytes, h with
  | [_, _, _, _, _, _, _, _, _, _, _, _, _, _, _, _, _, _, _], _ => rfl

theorem Moment.utf8_text (moment : Moment) {mark : Char} {byte : UInt8}
    (hmark : utf8 mark.toString = [byte]) : utf8 (moment.text mark) =
      utf8 (decimalPadded 4 moment.year) ++ 0x2d :: (utf8 (decimalPadded 2 moment.month) ++ 0x2d ::
        (utf8 (decimalPadded 2 moment.day) ++ byte :: (utf8 (decimalPadded 2 moment.hour) ++ 0x3a ::
          (utf8 (decimalPadded 2 moment.minute) ++
            0x3a :: utf8 (decimalPadded 2 moment.second))))) := by
  have hdash : utf8 "-" = [0x2d] := rfl
  have hcolon : utf8 ":" = [0x3a] := rfl
  simp only [text, utf8_append, hdash, hcolon, hmark, append_assoc, cons_append,
    nil_append]

theorem joined_datetime {year month day hour minute second : Bytes} (mark : UInt8)
    (hyear : year.length = 4) (hmonth : month.length = 2) (hday : day.length = 2)
    (hhour : hour.length = 2) (hminute : minute.length = 2) (hsecond : second.length = 2) :
    let bytes := year ++ 0x2d :: (month ++ 0x2d :: (day ++ mark :: (hour ++ 0x3a ::
      (minute ++ 0x3a :: second))))
    bytes.length = 19 ∧ bytes.getD 4 0 = 0x2d ∧ bytes.getD 7 0 = 0x2d ∧ bytes.getD 10 0 = mark ∧
      bytes.getD 13 0 = 0x3a ∧ bytes.getD 16 0 = 0x3a ∧ slice bytes 0 4 = year ∧
      slice bytes 5 7 = month ∧ slice bytes 8 10 = day ∧ slice bytes 11 13 = hour ∧
      slice bytes 14 16 = minute ∧ slice bytes 17 19 = second := by
  match year, hyear, month, hmonth, day, hday, hour, hhour, minute, hminute, second, hsecond with
  | [_, _, _, _], _, [_, _], _, [_, _], _, [_, _], _, [_, _], _, [_, _], _ =>
    exact ⟨rfl, rfl, rfl, rfl, rfl, rfl, rfl, rfl, rfl, rfl, rfl, rfl⟩

def IsMark (mark : Char) (byte : UInt8) : Prop :=
  mark = 'T' ∧ byte = 0x54 ∨ mark = ' ' ∧ byte = 0x20

theorem IsMark.utf8 {mark : Char} {byte : UInt8} (h : IsMark mark byte) :
    TxBase.Lib.utf8 mark.toString = [byte] := by
  rcases h with ⟨rfl, rfl⟩ | ⟨rfl, rfl⟩ <;> rfl

/-- The texts that are accepted are those of moments. -/
theorem foxproDatetimeBytes_eq_ok {text : String} {bytes : Bytes} :
    foxproDatetimeBytes text = .ok (some bytes) ↔
      ∃ moment : Moment, moment.NamedBy text ∧ bytes = moment.bytes := by
  constructor
  · intro h
    unfold foxproDatetimeBytes at h
    dsimp only at h
    split at h
    · cases h
    · rename_i hshape
      simp only [not_or, not_not] at hshape
      obtain ⟨hlength, hdash, hdash', hmark, hcolon, hcolon'⟩ := hshape
      obtain ⟨mark, hmark⟩ : ∃ mark, IsMark mark ((utf8 text).getD 10 0) := by
        by_contra hno
        exact hmark ⟨fun heq => hno ⟨'T', .inl ⟨rfl, heq⟩⟩, fun heq => hno ⟨' ', .inr ⟨rfl, heq⟩⟩⟩
      have hwidth {start stop : Nat} (hstop : stop ≤ 19) :
          (slice (utf8 text) start stop).length = stop - start := slice_length (by omega)
      simp only [bind_eq_ok, reject_eq_ok, exists_const, not_or, not_not] at h
      obtain ⟨year, hyear, month, hmonth, day, hday, hour, hhour, minute, hminute, second, hsecond,
        hrange, hdate, -, hbytes⟩ := h
      obtain ⟨year, rfl, hyears⟩ := exists_number 4 (by decide) (hwidth (by decide)) hyear
      obtain ⟨month, rfl, hmonths⟩ := exists_number 2 (by decide) (hwidth (by decide)) hmonth
      obtain ⟨day, rfl, hdays⟩ := exists_number 2 (by decide) (hwidth (by decide)) hday
      obtain ⟨hour, rfl, hhours⟩ := exists_number 2 (by decide) (hwidth (by decide)) hhour
      obtain ⟨minute, rfl, hminutes⟩ := exists_number 2 (by decide) (hwidth (by decide)) hminute
      obtain ⟨second, rfl, hseconds⟩ := exists_number 2 (by decide) (hwidth (by decide)) hsecond
      obtain ⟨_, _, _, hisDate, hnumber, hcivil⟩ :=
        civilFromDays_spec ((daysFromCivil year month day).getD 0)
      cases ((hcivil _).mp hdate.symm).2
      rw [← hnumber] at hbytes
      cases hbytes
      refine ⟨⟨year, month, day, hour, minute, second, by omega, by omega, hisDate,
        by omega, by omega,
        by omega⟩, ⟨mark, hmark.imp And.left And.left, utf8_inj ?_⟩, rfl⟩
      rw [Moment.utf8_text _ hmark.utf8]
      refine (split_datetime hlength).trans ?_
      rw [hdash, hdash', hcolon, hcolon', hyears, hmonths, hdays, hhours, hminutes, hseconds]
  · rintro ⟨moment, ⟨mark, hmark, rfl⟩, rfl⟩
    have hfields : moment.year < 10 ^ 4 ∧ moment.month < 10 ^ 2 ∧ moment.day < 10 ^ 2 ∧
        moment.hour < 10 ^ 2 ∧ moment.minute < 10 ^ 2 ∧ moment.second < 10 ^ 2 := by
      have hyear := moment.year_le
      have hmonth := moment.isDate.month_le
      have hday := moment.isDate.day_le_31
      have hhour := moment.hour_lt
      have hminute := moment.minute_lt
      have hsecond := moment.second_lt
      omega
    obtain ⟨hyear, hmonth, hday, hhour, hminute, hsecond⟩ := hfields
    obtain ⟨byte, hmark⟩ : ∃ byte, IsMark mark byte :=
      hmark.elim (fun heq => ⟨0x54, .inl ⟨heq, rfl⟩⟩) fun heq => ⟨0x20, .inr ⟨heq, rfl⟩⟩
    have hparts := joined_datetime byte (utf8_length_decimalPadded (by decide) hyear)
      (utf8_length_decimalPadded (by decide) hmonth) (utf8_length_decimalPadded (by decide) hday)
      (utf8_length_decimalPadded (by decide) hhour) (utf8_length_decimalPadded (by decide) hminute)
      (utf8_length_decimalPadded (by decide) hsecond)
    rw [← moment.utf8_text hmark.utf8] at hparts
    obtain ⟨hlength, hdash, hdash', hten, hcolon, hcolon', hparts⟩ := hparts
    unfold foxproDatetimeBytes
    dsimp only
    rw [hlength, hdash, hdash', hten, hcolon, hcolon',
      if_neg (by simp [hmark.imp And.right And.right])]
    have hbounds := moment.julianDay_bounds
    have hdays := (daysFromCivil_eq_some moment.isDate).mpr ⟨moment.countable, rfl⟩
    simp only [bind_eq_ok, reject_eq_ok, exists_const, not_or, not_not]
    refine ⟨_, datetimePart_of_slice (by decide) hyear hparts.1,
      _, datetimePart_of_slice (by decide) hmonth hparts.2.1,
      _, datetimePart_of_slice (by decide) hday hparts.2.2.1,
      _, datetimePart_of_slice (by decide) hhour hparts.2.2.2.1,
      _, datetimePart_of_slice (by decide) hminute hparts.2.2.2.2.1,
      _, datetimePart_of_slice (by decide) hsecond hparts.2.2.2.2.2, ?_, ?_⟩
    rotate_left
    · rw [hdays, Option.getD_some]
      exact ⟨(civilFromDays_dayNumber moment.isDate moment.countable).symm, by omega, rfl⟩
    have hpos := moment.year_pos
    have hle := moment.year_le
    have hhour := moment.hour_lt
    have hminute := moment.minute_lt
    have hsecond := moment.second_lt
    omega

/-- The two words that eight bytes hold. -/
def datetimeWords (bytes : Bytes) : List Nat :=
  [fromLeBytes (slice bytes 0 4), fromLeBytes (slice bytes 4 8)]

namespace Moment
variable {left right : Moment}

theorem words_lt (h : left.fields < right.fields) :
    datetimeWords left.bytes < datetimeWords right.bytes := by
  have hleft := left.julianDay_bounds.2.2
  have hright := right.julianDay_bounds.2.2
  have hminute := left.minute_lt
  have hsecond := left.second_lt
  simp only [fields, cons_lt_cons_iff, lt_irrefl, and_false, or_false] at h
  simp only [datetimeWords, left.words_bytes, right.words_bytes, cons_lt_cons_iff, lt_irrefl,
    and_false, or_false]
  by_cases hdate : left.year = right.year ∧ left.month = right.month ∧ left.day = right.day
  · obtain ⟨hyear, hmonth, hday⟩ := hdate
    rw [hyear, hmonth, hday, ← hright] at hleft
    unfold milliseconds
    omega
  · have hlt := dayNumber_lt left.isDate right.isDate (by omega)
    omega

theorem bytes_eq (h : left.fields = right.fields) : left.bytes = right.bytes := by
  simp only [fields, List.cons.injEq] at h
  obtain ⟨hyear, hmonth, hday, hhour, hminute, hsecond, -⟩ := h
  unfold bytes julianDay milliseconds
  rw [hyear, hmonth, hday, hhour, hminute, hsecond]

theorem words_lt_iff : datetimeWords left.bytes < datetimeWords right.bytes ↔
    left.fields < right.fields := by
  refine ⟨fun h => ?_, words_lt⟩
  rcases lt_trichotomy left.fields right.fields with hlt | heq | hgt
  · exact hlt
  · rw [bytes_eq heq] at h
    exact absurd h (lt_irrefl _)
  · exact absurd h (words_lt hgt).asymm

end Moment

/-- The codec of FoxPro datetimes.  Exactly the texts of moments of the years 1 to 9999 are
accepted, and read back with a `T`; the words of the bytes are ordered as the moments; and the
two calendar functions are inverse to each other where nothing overflows. -/
theorem foxpro_datetime_codec :
    (∀ text, (∃ bytes, foxproDatetimeBytes text = .ok (some bytes)) ↔
      ∃ moment : Moment, moment.NamedBy text) ∧
    (∀ (moment : Moment) (text : String) (bytes : Bytes), moment.NamedBy text →
      foxproDatetimeBytes text = .ok (some bytes) →
      foxproDatetimeText bytes = some (moment.text 'T')) ∧
    (∀ (left right : Moment) (leftText rightText : String) (leftBytes rightBytes : Bytes),
      left.NamedBy leftText → right.NamedBy rightText →
      foxproDatetimeBytes leftText = .ok (some leftBytes) →
      foxproDatetimeBytes rightText = .ok (some rightBytes) →
      (datetimeWords leftBytes < datetimeWords rightBytes ↔ left.fields < right.fields) ∧
      (leftBytes = rightBytes ↔ left.fields = right.fields)) ∧
    (∀ days, Countable days → ∃ year month day, civilFromDays days = some (year, month, day) ∧
      IsDate year month day ∧ daysFromCivil year month day = some days) ∧
    ∀ year month day days, IsDate year month day → daysFromCivil year month day = some days →
      civilFromDays days = some (year, month, day) := by
  have hbytes {moment : Moment} {text : String} {bytes : Bytes} (hnamed : moment.NamedBy text)
      (h : foxproDatetimeBytes text = .ok (some bytes)) : bytes = moment.bytes := by
    rw [foxproDatetimeBytes_eq_ok.mpr ⟨moment, hnamed, rfl⟩] at h
    cases h
    rfl
  refine ⟨?_, ?_, ?_, ?_, ?_⟩
  · intro text
    simp only [foxproDatetimeBytes_eq_ok]
    exact ⟨fun ⟨_, moment, hnamed, _⟩ => ⟨moment, hnamed⟩,
      fun ⟨moment, hnamed⟩ => ⟨_, moment, hnamed, rfl⟩⟩
  · intro moment text bytes hnamed h
    rw [hbytes hnamed h, moment.foxproDatetimeText_bytes]
  · intro left right _ _ _ _ hleft hright h h'
    rw [hbytes hleft h, hbytes hright h']
    refine ⟨Moment.words_lt_iff, ?_, Moment.bytes_eq⟩
    intro heq
    rcases lt_trichotomy left.fields right.fields with hlt | hsame | hgt
    · exact absurd (heq ▸ Moment.words_lt hlt) (lt_irrefl _)
    · exact hsame
    · exact absurd (heq ▸ Moment.words_lt hgt) (lt_irrefl _)
  · intro days hcount
    obtain ⟨year, month, day, hdate, hnumber, hcivil⟩ := civilFromDays_spec days
    exact ⟨year, month, day, (hcivil _).mpr ⟨hcount, rfl⟩, hdate,
      (daysFromCivil_eq_some hdate).mpr ⟨hcount, hnumber⟩⟩
  · intro year month day days hdate h
    obtain ⟨hcount, rfl⟩ := (daysFromCivil_eq_some hdate).mp h
    exact civilFromDays_dayNumber hdate hcount

/-- The bytes of a later day may be smaller, and the last days of an `i64` have no date. -/
theorem foxpro_datetime_bytes_not_ordered : ∃ earlier later,
    foxproDatetimeBytes "2000-06-15T00:00:00" = .ok (some earlier) ∧
      foxproDatetimeBytes "2000-06-16T00:00:00" = .ok (some later) ∧ later < earlier ∧
      civilFromDays (2 ^ 63 - 1) = none := by
  refine ⟨[0xff, 0x68, 0x25, 0, 0, 0, 0, 0], [0, 0x69, 0x25, 0, 0, 0, 0, 0], ?_⟩
  decide +kernel

/-- The last second of a leap day. -/
def leapSecond : Moment :=
  ⟨2024, 2, 29, 23, 59, 59, by decide, by decide, ⟨by decide, by decide, by decide, by decide⟩,
    by decide, by decide, by decide⟩

theorem foxpro_datetime_codec_leap_second : ∃ bytes,
    foxproDatetimeBytes (leapSecond.text ' ') = .ok (some bytes) ∧
      foxproDatetimeText bytes = some (leapSecond.text 'T') := by
  have hnamed : leapSecond.NamedBy (leapSecond.text ' ') := ⟨' ', .inr rfl, rfl⟩
  obtain ⟨bytes, hbytes⟩ := (foxpro_datetime_codec.1 _).mpr ⟨leapSecond, hnamed⟩
  exact ⟨bytes, hbytes, foxpro_datetime_codec.2.1 leapSecond _ bytes hnamed hbytes⟩

end TxBase.Dbf
