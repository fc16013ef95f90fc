import TxBase.Dbf.Types

/-! Code pages: the single-byte tables of `src/dbf/codepages.rs`, the choice of a
multi-byte encoding in `src/dbf/codec_cjk.rs`, and the two directions between the
bytes of a character field and its text. -/
namespace TxBase.Dbf
open Lib Json

def cp437Upper : String :=
  "ÇüéâäàåçêëèïîìÄÅ" ++
  "ÉæÆôöòûùÿÖÜ¢£¥₧ƒ" ++
  "áíóúñÑªº¿⌐¬½¼¡«»" ++
  "░▒▓│┤╡╢╖╕╣║╗╝╜╛┐" ++
  "└┴┬├─┼╞╟╚╔╩╦╠═╬╧" ++
  "╨╤╥╙╘╒╓╫╪┘┌█▄▌▐▀" ++
  "αßΓπΣσµτΦΘΩδ∞φε∩" ++
  "≡±≥≤⌠⌡÷≈°∙·√ⁿ²■\xa0"

def cp850Upper : String :=
  "ÇüéâäàåçêëèïîìÄÅ" ++
  "ÉæÆôöòûùÿÖÜø£Ø×ƒ" ++
  "áíóúñÑªº¿®¬½¼¡«»" ++
  "░▒▓│┤ÁÂÀ©╣║╗╝¢¥┐" ++
  "└┴┬├─┼ãÃ╚╔╩╦╠═╬¤" ++
  "ðÐÊËÈıÍÎÏ┘┌█▄¦Ì▀" ++
  "ÓßÔÒõÕµþÞÚÛÙýÝ¯´" ++
  "\xad±‗¾¶§÷¸°¨·¹³²■\xa0"

def cp852Upper : String :=
  "ÇüéâäůćçłëŐőîŹÄĆ" ++
  "ÉĹĺôöĽľŚśÖÜŤťŁ×č" ++
  "áíóúĄąŽžĘę¬źČş«»" ++
  "░▒▓│┤ÁÂĚŞ╣║╗╝Żż┐" ++
  "└┴┬├─┼Ăă╚╔╩╦╠═╬¤" ++
  "đĐĎËďŇÍÎě┘┌█▄ŢŮ▀" ++
  "ÓßÔŃńňŠšŔÚŕŰýÝţ´" ++
  "\xad˝˛ˇ˘§÷¸°¨˙űŘř■\xa0"

def cp866Upper : String :=
  "АБВГДЕЖЗИЙКЛМНОП" ++
  "РСТУФХЦЧШЩЪЫЬЭЮЯ" ++
  "абвгдежзийклмноп" ++
  "░▒▓│┤╡╢╖╕╣║╗╝╜╛┐" ++
  "└┴┬├─┼╞╟╚╔╩╦╠═╬╧" ++
  "╨╤╥╙╘╒╓╫╪┘┌█▄▌▐▀" ++
  "рстуфхцчшщъыьэюя" ++
  "ЁёЄєЇїЎў°∙·√№¤■\xa0"

def cp1250Upper : String :=
  "€\ufffd‚\ufffd„…†‡\ufffd‰Š‹ŚŤŽŹ" ++
  "\ufffd‘’“”•–—\ufffd™š›śťžź" ++
  "\xa0ˇ˘Ł¤Ą¦§¨©Ş«¬\xad®Ż" ++
  "°±˛ł´µ¶·¸ąş»Ľ˝ľż" ++
  "ŔÁÂĂÄĹĆÇČÉĘËĚÍÎĎ" ++
  "ĐŃŇÓÔŐÖ×ŘŮÚŰÜÝŢß" ++
  "ŕáâăäĺćçčéęëěíîď" ++
  "đńňóôőö÷řůúűüýţ˙"

def cp1251Upper : String :=
  "ЂЃ‚ѓ„…†‡€‰Љ‹ЊЌЋЏ" ++
  "ђ‘’“”•–—\ufffd™љ›њќћџ" ++
  "\xa0ЎўЈ¤Ґ¦§Ё©Є«¬\xad®Ї" ++
  "°±Ііґµ¶·ё№є»јЅѕї" ++
  "АБВГДЕЖЗИЙКЛМНОП" ++
  "РСТУФХЦЧШЩЪЫЬЭЮЯ" ++
  "абвгдежзийклмноп" ++
  "рстуфхцчшщъыьэюя"

def cp1253Upper : String :=
  "€\ufffd‚ƒ„…†‡\ufffd‰\ufffd‹\ufffd\ufffd\ufffd\ufffd" ++
  "\ufffd‘’“”•–—\ufffd™\ufffd›\ufffd\ufffd\ufffd\ufffd" ++
  "\xa0΅Ά£¤¥¦§¨©\ufffd«¬\xad®―" ++
  "°±²³΄µ¶·ΈΉΊ»Ό½ΎΏ" ++
  "ΐΑΒΓΔΕΖΗΘΙΚΛΜΝΞΟ" ++
  "ΠΡ\ufffdΣΤΥΦΧΨΩΪΫάέήί" ++
  "ΰαβγδεζηθικλμνξο" ++
  "πρςστυφχψωϊϋόύώ\ufffd"

def cp1254Upper : String :=
  "€\ufffd‚ƒ„…†‡ˆ‰Š‹Œ\ufffd\ufffd\ufffd" ++
  "\ufffd‘’“”•–—\ufffd™š›œ\ufffd\ufffdŸ" ++
  "\xa0¡¢£¤¥¦§¨©ª«¬\xad®¯" ++
  "°±²³´µ¶·¸¹º»¼½¾¿" ++
  "ÀÁÂÃÄÅÆÇÈÉÊËÌÍÎÏ" ++
  "ĞÑÒÓÔÕÖ×ØÙÚÛÜİŞß" ++
  "àáâãäåæçèéêëìíîï" ++
  "ğñòóôõö÷øùúûüışÿ"

def cp1255Upper : String :=
  "€\ufffd‚ƒ„…†‡ˆ‰\ufffd‹\ufffd\ufffd\ufffd\ufffd" ++
  "\ufffd‘’“”•–—˜™\ufffd›\ufffd\ufffd\ufffd\ufffd" ++
  "\xa0¡¢£₪¥¦§¨©×«¬\xad®¯" ++
  "°±²³´µ¶·¸¹÷»¼½¾¿" ++
  "\u05b0\u05b1\u05b2\u05b3\u05b4\u05b5\u05b6\u05b7\u05b8\u05b9\ufffd\u05bb\u05bc\u05bd\u05be\u05bf" ++
  "\u05c0\u05c1\u05c2\u05c3\u05f0\u05f1\u05f2\u05f3\u05f4\ufffd\ufffd\ufffd\ufffd\ufffd\ufffd\ufffd" ++
  "\u05d0\u05d1\u05d2\u05d3\u05d4\u05d5\u05d6\u05d7\u05d8\u05d9\u05da\u05db\u05dc\u05dd\u05de\u05df" ++
  "\u05e0\u05e1\u05e2\u05e3\u05e4\u05e5\u05e6\u05e7\u05e8\u05e9\u05ea\ufffd\ufffd\u200e\u200f\ufffd"

def cp1256Upper : String :=
  "€\u067e‚ƒ„…†‡ˆ‰\u0679‹Œ\u0686\u0698\u0688" ++
  "\u06af‘’“”•–—\u06a9™\u0691›œ\u200c\u200d\u06ba" ++
  "\xa0،¢£¤¥¦§¨©\u06be«¬\xad®¯" ++
  "°±²³´µ¶·¸¹\u061b»¼½¾\u061f" ++
  "\u06c1\u0621\u0622\u0623\u0624\u0625\u0626\u0627\u0628\u0629\u062a\u062b\u062c\u062d\u062e\u062f" ++
  "\u0630\u0631\u0632\u0633\u0634\u0635\u0636×\u0637\u0638\u0639\u063a\u0640\u0641\u0642\u0643" ++
  "à\u0644â\u0645\u0646\u0647\u0648çèéêë\u0649\u064aîï" ++
  "\u064b\u064c\u064d\u064eô\u064f\u0650÷\u0651ù\u0652ûü\u200e\u200f\u06d2"

/-- The characters of bytes `0x80..=0x9f` in Windows-1252. -/
def windows1252Extended : String :=
  "€\ufffd‚ƒ„…†‡ˆ‰Š‹Œ\ufffdŽ\ufffd" ++
  "\ufffd‘’“”•–—˜™š›œ\ufffdžŸ"

def replacement : Char := '\ufffd'

def decodeCodepage (bytes : Bytes) (upper : String) : String :=
  String.ofList (bytes.map fun byte =>
    if byte < 0x80 then Char.ofNat byte.toNat
    else upper.toList.getD (byte.toNat - 0x80) replacement)

def encodeCodepageChar (upper : String) (character : Char) : Option UInt8 :=
  if character.toNat ≤ 0x7f then some (UInt8.ofNat character.toNat)
  else
    match upper.toList.findIdx? (· = character) with
    | some index => if index + 0x80 < 256 then some (UInt8.ofNat (index + 0x80)) else none
    | none => none

def encodeCodepage (text upper : String) : Option Bytes :=
  text.toList.mapM (encodeCodepageChar upper)

def decodeWindows1252 (bytes : Bytes) : String :=
  String.ofList (bytes.map fun byte =>
    if 0x80 ≤ byte ∧ byte ≤ 0x9f then
      windows1252Extended.toList.getD (byte.toNat - 0x80) replacement
    else Char.ofNat byte.toNat)

def encodeWindows1252Char (character : Char) : Option UInt8 :=
  if character.toNat ≤ 0x7f ∨ (0xa0 ≤ character.toNat ∧ character.toNat ≤ 0xff) then
    some (UInt8.ofNat character.toNat)
  -- The unassigned positions hold the replacement character, which has no byte.
  else if character = replacement then none
  else (windows1252Extended.toList.findIdx? (· = character)).map (UInt8.ofNat <| · + 0x80)

def encodeWindows1252 (text : String) : Option Bytes := text.toList.mapM encodeWindows1252Char

/-- The single-byte page of a language driver. -/
inductive CodePage where
  | table (name upper : String)
  | windows1252

def codePage (languageDriver : UInt8) : Option CodePage :=
  match languageDriver.toNat with
  | 0x01 => some (.table "CP437" cp437Upper)
  | 0x02 => some (.table "CP850" cp850Upper)
  | 0x1f | 0x22 | 0x23 | 0x40 | 0x64 | 0x87 => some (.table "CP852" cp852Upper)
  | 0x26 | 0x65 => some (.table "CP866" cp866Upper)
  | 0xc8 => some (.table "Windows-1250" cp1250Upper)
  | 0xc9 => some (.table "Windows-1251" cp1251Upper)
  | 0xca => some (.table "Windows-1254" cp1254Upper)
  | 0xcb => some (.table "Windows-1253" cp1253Upper)
  | 0x7d => some (.table "Windows-1255" cp1255Upper)
  | 0x7e => some (.table "Windows-1256" cp1256Upper)
  | 0x03 | 0x57 => some .windows1252
  | _ => none

def driverEncoding (languageDriver : UInt8) : Option Encoding :=
  match languageDriver.toNat with
  | 0x4f | 0x78 => some .big5
  | 0x4e | 0x79 => some .eucKr
  | 0x4d | 0x7a => some .gbk
  | 0x13 | 0x7b => some .shiftJis
  | _ => none

def encodingName (languageDriver : UInt8) : Option String :=
  match codePage languageDriver with
  | some (.table name _) => some name
  | some .windows1252 => some "Windows-1252"
  | none =>
    match driverEncoding languageDriver with
    | some .big5 => some "Big5/CP950"
    | some .eucKr => some "EUC-KR/CP949"
    | some .gbk => some "GBK/CP936"
    | some .shiftJis => some "Windows-31J/CP932"
    | _ => none

def strictShiftJis : String := "Shift_JIS"

def canonicalEncodingName (name : String) : Option String :=
  match asciiLower name with
  | "windows-31j" | "cp932" | "windows-31j/cp932" => some "Windows-31J/CP932"
  | "shift_jis" | "shift-jis" | "sjis" => some strictShiftJis
  | "gbk" | "cp936" | "gbk/cp936" => some "GBK/CP936"
  | "gb18030" => some "GB18030"
  | "euc-kr" | "cp949" | "euc-kr/cp949" => some "EUC-KR/CP949"
  | "euc-jp" => some "EUC-JP"
  | "iso-2022-jp" | "iso2022-jp" => some "ISO-2022-JP"
  | "big5" | "cp950" | "big5/cp950" => some "Big5/CP950"
  | _ => none

def isStrictShiftJis (encodingOverride : Option String) : Bool :=
  encodingOverride.bind canonicalEncodingName = some strictShiftJis

/-- `encoding`: an override names an encoding, else the language driver does. -/
def chosenEncoding (languageDriver : UInt8) (encodingOverride : Option String) : Option Encoding :=
  match encodingOverride with
  | none => driverEncoding languageDriver
  | some name =>
    match canonicalEncodingName name with
    | some "Big5/CP950" => some .big5
    | some "EUC-KR/CP949" => some .eucKr
    | some "EUC-JP" => some .eucJp
    | some "GB18030" => some .gb18030
    | some "GBK/CP936" => some .gbk
    | some "ISO-2022-JP" => some .iso2022Jp
    | some "Windows-31J/CP932" => some .shiftJis
    | _ => none

def isShiftJisLead (byte : UInt8) : Bool :=
  (0x81 ≤ byte ∧ byte ≤ 0x9f) ∨ (0xe0 ≤ byte ∧ byte ≤ 0xfc)

def isShiftJisTrail (byte : UInt8) : Bool :=
  (0x40 ≤ byte ∧ byte ≤ 0x7e) ∨ (0x80 ≤ byte ∧ byte ≤ 0xfc)

def shiftJisPairFromEuc : Bytes → Option Bytes
  | [first, second] =>
      if first ≥ 0xf9 ∨ first < 0xa1 ∨ second < 0xa1 then none
      else
        let row := first.toNat - 0xa1
        let cell := second.toNat - 0xa1
        let lead := row / 2 + 0x81
        let lead := if lead ≥ 0xa0 then lead + 0x40 else lead
        let trail :=
          if row % 2 = 0 then
            if cell + 0x40 ≥ 0x7f then cell + 0x41 else cell + 0x40
          else cell + 0x9f
        some [UInt8.ofNat lead, UInt8.ofNat trail]
  | _ => none

section Text
variable [Runtime]

def encodeStrictShiftJisCharacter (character : Char) : Option Bytes :=
  if character.toNat ≤ 0x7f then some [UInt8.ofNat character.toNat]
  else if 0xff61 ≤ character.toNat ∧ character.toNat ≤ 0xff9f then
    some [UInt8.ofNat (0xa1 + (character.toNat - 0xff61))]
  else
    let (euc, eucErrors) := Runtime.encode .eucJp character.toString
    if eucErrors ∨ euc.length ≠ 2 ∨ ¬ euc.all (fun byte => 0xa1 ≤ byte ∧ byte ≤ 0xfe) then none
    else
      match shiftJisPairFromEuc euc with
      | none => none
      | some expected =>
          let (shiftJis, errors) := Runtime.encode .shiftJis character.toString
          if errors ∨ shiftJis ≠ expected then none else some shiftJis

def encodeStrictShiftJis (text : String) : Option Bytes :=
  (text.toList.mapM encodeStrictShiftJisCharacter).map List.flatten

/-- A two-byte character that encodes back to the same pair, or the replacement. -/
def decodeShiftJisPair (pair : Bytes) : Char :=
  let (decoded, errors) := Runtime.decode .shiftJis pair
  match decoded.toList with
  | [character] =>
      if ¬ errors ∧ encodeStrictShiftJisCharacter character = some pair then character
      else replacement
  | _ => replacement

def decodeStrictShiftJisChars : Bytes → List Char
  | [] => []
  | byte :: rest =>
      if byte ≤ 0x7f then Char.ofNat byte.toNat :: decodeStrictShiftJisChars rest
      else if 0xa1 ≤ byte ∧ byte ≤ 0xdf then
        Char.ofNat (0xff61 + (byte.toNat - 0xa1)) :: decodeStrictShiftJisChars rest
      else
        match rest with
        | [] => [replacement]
        | trail :: rest =>
            if isShiftJisLead byte ∧ isShiftJisTrail trail then
              decodeShiftJisPair [byte, trail] :: decodeStrictShiftJisChars rest
            else replacement :: decodeStrictShiftJisChars (trail :: rest)

def decodeCjk (bytes : Bytes) (languageDriver : UInt8) (encodingOverride : Option String) :
    Option String :=
  if isStrictShiftJis encodingOverride then some (String.ofList (decodeStrictShiftJisChars bytes))
  else (chosenEncoding languageDriver encodingOverride).map fun encoding =>
    (Runtime.decode encoding bytes).1

def encodeCjk (text : String) (languageDriver : UInt8) (encodingOverride : Option String) :
    Option Bytes :=
  if isStrictShiftJis encodingOverride then encodeStrictShiftJis text
  else
    match chosenEncoding languageDriver encodingOverride with
    | none => none
    | some encoding =>
        let (bytes, errors) := Runtime.encode encoding text
        if errors then none else some bytes

def isPadding (byte : UInt8) : Bool := byte = 0x20 ∨ byte = 0

/-- The bytes up to the last one that is neither a blank nor a NUL. -/
def trimPadding (bytes : Bytes) : Bytes := (bytes.reverse.dropWhile isPadding).reverse

def textWithEncoding (bytes : Bytes) (languageDriver : UInt8) (encodingOverride : Option String) :
    String :=
  let bytes := trimPadding bytes
  match decodeCjk bytes languageDriver encodingOverride with
  | some text => text
  | none =>
    match codePage languageDriver with
    | some (.table _ upper) => decodeCodepage bytes upper
    | some .windows1252 => decodeWindows1252 bytes
    | none => fromUtf8Lossy bytes

/-- `text`, the decoding without a code page. -/
def plainText (bytes : Bytes) : String := textWithEncoding bytes 0 none

def encodeText (text : String) (languageDriver : UInt8) (encodingOverride : Option String) :
    Option Bytes :=
  match encodingOverride, codePage languageDriver, driverEncoding languageDriver with
  | some name, _, _ => encodeCjk text languageDriver (some name)
  | none, some (.table _ upper), _ => encodeCodepage text upper
  | none, some .windows1252, _ => encodeWindows1252 text
  | none, none, some _ => encodeCjk text languageDriver none
  | none, none, none => some (utf8 text)

def codePageName (languageDriver : UInt8) (encodingOverride : Option String) : String :=
  match encodingOverride.bind canonicalEncodingName with
  | some name => name
  | none => (encodingName languageDriver).getD "the declared code page"

end Text

end TxBase.Dbf
