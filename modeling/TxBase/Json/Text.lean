import Mathlib.Data.Nat.Digits.Defs
import TxBase.Json.Value

/-! The compact text of a JSON value, as `serde_json` writes it. -/
namespace TxBase.Json
open Lib List

def escapeChar (c : Char) : Bytes :=
  if c = '"' then utf8 "\\\""
  else if c = '\\' then utf8 "\\\\"
  else if c.toNat = 8 then utf8 "\\b"
  else if c.toNat = 9 then utf8 "\\t"
  else if c.toNat = 10 then utf8 "\\n"
  else if c.toNat = 12 then utf8 "\\f"
  else if c.toNat = 13 then utf8 "\\r"
  else if c.toNat < 32 then utf8 (String.ofList ("\\u00".toList ++ hexByte (UInt8.ofNat c.toNat)))
  else utf8 (String.singleton c)

def quoted (text : String) : Bytes := utf8 "\"" ++ text.toList.flatMap escapeChar ++ utf8 "\""

theorem escapeChar_length_pos (c : Char) : 0 < (escapeChar c).length := by
  have hpos : ∀ text : String, 0 < text.length → 0 < (utf8 text).length :=
    fun text h => h.trans_le (utf8_length_bounds text).1
  unfold escapeChar
  repeat' split
  all_goals
    apply hpos
    first | decide | simp [hexByte]

theorem length_le_quoted (text : String) : text.length ≤ (quoted text).length := by
  have hchars : ∀ chars : List Char, chars.length ≤ (chars.flatMap escapeChar).length := by
    intro chars
    induction chars with
    | nil => simp
    | cons c rest ih =>
      have hpos := escapeChar_length_pos c
      rw [flatMap_cons, length_append, length_cons]
      omega
  have hle := hchars text.toList
  rw [String.length_toList] at hle
  unfold quoted
  simp only [length_append]
  omega

def separated : List Bytes → Bytes
  | [] => []
  | [text] => text
  | text :: rest => text ++ utf8 "," ++ separated rest

def arrayText (elements : List Bytes) : Bytes := utf8 "[" ++ separated elements ++ utf8 "]"

/-- The text of a structure, whose members stand in the order of its declaration. -/
def structText (members : List (String × Bytes)) : Bytes :=
  utf8 "\x7b" ++ separated (members.map fun member => quoted member.1 ++ utf8 ":" ++ member.2) ++
    utf8 "\x7d"

def natText (value : Nat) : Bytes := utf8 (toString value)

variable {texts : List Bytes} {bound : Nat}

theorem separated_length_le (h : ∀ text ∈ texts, text.length ≤ bound) :
    (separated texts).length ≤ texts.length * (bound + 1) := by
  fun_induction separated texts with
  | case1 => simp
  | case2 text => exact (h text (by simp)).trans (by simp)
  | case3 text rest _ ih =>
    have hfirst := h text (by simp)
    have hrest := ih (forall_mem_cons.mp h).2
    have hcomma : (utf8 ",").length = 1 := by decide
    simp only [length_append, length_cons, Nat.add_mul] at hrest ⊢
    omega

variable {members : List (String × Bytes)}

theorem structText_length_le
    (h : ∀ member ∈ members, (quoted member.1).length + member.2.length ≤ bound) :
    (structText members).length ≤ members.length * (bound + 2) + 2 := by
  have hmembers := @separated_length_le
    (members.map fun member => quoted member.1 ++ utf8 ":" ++ member.2) (bound + 1) (by
      intro text hmem
      obtain ⟨member, hmember, rfl⟩ := mem_map.mp hmem
      have hcolon : (utf8 ":").length = 1 := by decide
      have hbound := h member hmember
      simp only [length_append]
      omega)
  rw [length_map, show bound + 1 + 1 = bound + 2 from rfl] at hmembers
  have hopen : (utf8 "\x7b").length = 1 := by decide
  have hclose : (utf8 "\x7d").length = 1 := by decide
  unfold structText
  simp only [length_append]
  omega

variable {text : Bytes}

theorem length_le_separated (h : text ∈ texts) : text.length ≤ (separated texts).length := by
  fun_induction separated texts with
  | case1 => cases h
  | case2 only => rw [mem_singleton.mp h]
  | case3 first rest _ ih =>
    simp only [length_append]
    rcases mem_cons.mp h with rfl | h
    · omega
    · have hle := ih h
      omega

theorem length_le_structText {name : String} (h : (name, text) ∈ members) :
    text.length ≤ (structText members).length := by
  have hle := length_le_separated (mem_map_of_mem
    (f := fun member : String × Bytes => quoted member.1 ++ utf8 ":" ++ member.2) h)
  unfold structText
  simp only [length_append] at hle ⊢
  omega

theorem length_le_arrayText {elements : List Bytes} {element : Bytes} (h : element ∈ elements) :
    element.length ≤ (arrayText elements).length := by
  have hle := length_le_separated h
  unfold arrayText
  simp only [length_append]
  omega

theorem natText_length_le {value : Nat} (h : value < u64Size) : (natText value).length ≤ 80 := by
  have hlength := (utf8_length_bounds (toString value)).2
  have hdigits : (Nat.toDigits 10 value).length ≤ 20 :=
    Nat.toDigits_length 10 value 20 (by decide) (lt_of_lt_of_le h (by decide))
  have heq : (toString value).length = (Nat.toDigits 10 value).length := by simp [toString, Nat.repr]
  unfold natText
  omega

def optionText (value : Option Bytes) : Bytes := value.getD (utf8 "null")

namespace Value
variable [Runtime]

mutual

def toVec : Value → Bytes
  | .null => utf8 "null"
  | .bool true => utf8 "true"
  | .bool false => utf8 "false"
  | .number value => utf8 value.display
  | .string value => quoted value
  | .array values => utf8 "[" ++ toVecList true values ++ utf8 "]"
  | .object entries => utf8 "\x7b" ++ toVecEntries true entries ++ utf8 "\x7d"

def toVecList (first : Bool) : List Value → Bytes
  | [] => []
  | value :: rest => (if first then [] else utf8 ",") ++ toVec value ++ toVecList false rest

def toVecEntries (first : Bool) : List (String × Value) → Bytes
  | [] => []
  | (key, value) :: rest =>
      (if first then [] else utf8 ",") ++ quoted key ++ utf8 ":" ++ toVec value ++
        toVecEntries false rest

end

def ofNat (value : Nat) : Value := .int value

/-- The object that `json!` makes of its members. -/
def ofMembers (members : List (String × Value)) : Value := .object (OrderedMap.ofList members)

def ofOption (value : Option String) : Value :=
  match value with
  | some text => .string text
  | none => .null

end Value

end TxBase.Json
