import VbTidy.Text.Quoted

/-
Encodings of text files. Reading is strict: the first byte that does not fit ends it with a message
on its place and cause.
-/
namespace VbTidy

/-- The content of a file. -/
abbrev Bytes := List UInt8

/-- The encodings known. -/
inductive Encoding where
  | utf8
  /-- UTF-8 with a byte order mark in front. -/
  | utf8Marked
  | ascii
  | latin1
  | utf16le
deriving Repr, DecidableEq

namespace Encoding

/-- The name of an encoding in messages. -/
def label : Encoding → Text
  | utf8 | utf8Marked => "utf-8".toList
  | ascii => "ascii".toList
  | latin1 => "latin-1".toList
  | utf16le => "utf-16-le".toList

/-- The names of an encoding in their plain form. -/
def names : Encoding → List Text
  | utf8 => ["utf_8", "u8", "utf", "utf8", "utf8_ucs2", "utf8_ucs4", "cp65001"].map String.toList
  | utf8Marked => ["utf_8_sig"].map String.toList
  | ascii =>
    ["ascii", "646", "ansi_x3.4_1968", "ansi_x3_4_1968", "ansi_x3.4_1986", "cp367", "csascii",
     "ibm367", "iso646_us", "iso_646.irv_1991", "iso_ir_6", "us", "us_ascii"].map String.toList
  | latin1 =>
    ["latin_1", "8859", "cp819", "csisolatin1", "ibm819", "iso8859", "iso8859_1", "iso_8859_1",
     "iso_8859_1_1987", "iso_ir_100", "l1", "latin", "latin1"].map String.toList
  | utf16le => ["utf_16_le", "unicodelittleunmarked", "utf_16le"].map String.toList

/-- The plain form of a name: lower case, with an underscore for all that stands between letters,
digits and points. `pending` says that an underscore is due before the next of these. -/
def plainName (pending : Bool) : Text → Text
  | [] => []
  | c :: t =>
    if c.isAlphanum || c == '.' then
      (if pending then ['_', c.toLower] else [c.toLower]) ++ plainName false t
    else plainName true t

/-- The encoding of a name in any of its spellings. -/
def ofName? (name : Text) : Option Encoding :=
  let plain := plainName false (name.dropWhile fun c => !(c.isAlphanum || c == '.'))
  let pointless := plain.map fun c => if c == '.' then '_' else c
  [utf8, utf8Marked, ascii, latin1, utf16le].find? fun e =>
    e.names.contains plain || (e.names.contains pointless && pointless != e.names.headD [])

end Encoding

/-- Bytes that are no text in an encoding, or a text that the encoding has no bytes for. -/
inductive CodecFault where
  /-- The bytes from a place on do not fit. -/
  | undecodable (label : Text) (bytes : Bytes) (start : Nat) (reason : Text)
  /-- The characters from a place on have no bytes. -/
  | unencodable (label : Text) (chars : Text) (start : Nat) (reason : Text)
deriving Repr, DecidableEq

namespace CodecFault

/-- A place, or the first and last one of several. -/
def placeText (start count : Nat) : Text :=
  if count == 1 then decimal start else decimal start ++ '-' :: decimal (start + count - 1)

/-- A character by its code point. -/
def codeText (c : Char) : Text :=
  let n := c.toNat
  '\'' :: (if n < 0x100 then '\\' :: 'x' :: hexDigits 2 n
    else if n < 0x10000 then '\\' :: 'u' :: hexDigits 4 n
    else '\\' :: 'U' :: hexDigits 8 n) ++ ['\'']

/-- The text by which a fault is told. -/
def message : CodecFault → Text
  | undecodable label bytes start reason =>
    let what :=
      match bytes with
      | [b] => "byte 0x".toList ++ hexDigits 2 b.toNat
      | _ => "bytes".toList
    '\'' :: label ++ "' codec can't decode ".toList ++ what ++ " in position ".toList ++
      placeText start bytes.length ++ ": ".toList ++ reason
  | unencodable label chars start reason =>
    let what :=
      match chars with
      | [c] => "character ".toList ++ codeText c
      | _ => "characters".toList
    '\'' :: label ++ "' codec can't encode ".toList ++ what ++ " in position ".toList ++
      placeText start chars.length ++ ": ".toList ++ reason

end CodecFault

/-- What stands at the start of bytes: a character and its length, or how many bytes do not fit and
why. -/
abbrev CodeStep := Except (Nat × Text) (Char × Nat)

/-- A byte that continues a character in UTF-8. -/
def isTail (b : UInt8) : Bool :=
  b &&& 0xC0 == 0x80

/-- Whether the second byte of a character may follow the first: no longer form than needed, no
surrogate and nothing beyond the last code point. -/
def isSecond (first second : UInt8) : Bool :=
  isTail second &&
    if first == 0xE0 then 0xA0 ≤ second
    else if first == 0xED then second < 0xA0
    else if first == 0xF0 then 0x90 ≤ second
    else if first == 0xF4 then second < 0x90
    else true

/-- The number of bytes of a character in UTF-8 by its first byte; none for a byte that starts no
character. -/
def utf8Length? (b : UInt8) : Option Nat :=
  if b < 0x80 then some 1
  else if b < 0xC2 then none
  else if b < 0xE0 then some 2
  else if b < 0xF0 then some 3
  else if b < 0xF5 then some 4
  else none

/-- The code point of the bytes of one character in UTF-8. -/
def utf8Value : Bytes → Nat
  | [] => 0
  | b :: tail =>
    let high :=
      match tail.length with
      | 0 => b.toNat
      | 1 => b.toNat % 0x20
      | 2 => b.toNat % 0x10
      | _ => b.toNat % 0x08
    tail.foldl (fun n t => n * 0x40 + t.toNat % 0x40) high

/-- How many bytes at the start belong to one character, at most `n` of them. -/
def utf8Fit (n : Nat) : Bytes → Nat
  | [] => 0
  | b :: rest =>
    match rest with
    | [] => 1
    | second :: rest =>
      if isSecond b second then 2 + ((rest.take (n - 2)).takeWhile isTail).length else 1

/-- The character at the start of UTF-8. -/
def utf8Step (bytes : Bytes) : CodeStep :=
  match bytes with
  | [] => .error (0, [])
  | b :: _ =>
    match utf8Length? b with
    | none => .error (1, "invalid start byte".toList)
    | some 1 => .ok (Char.ofNat b.toNat, 1)
    | some n =>
      let fit := utf8Fit n bytes
      if fit == n then .ok (Char.ofNat (utf8Value (bytes.take n)), n)
      else if fit == bytes.length then .error (fit, "unexpected end of data".toList)
      else .error (fit, "invalid continuation byte".toList)

/-- The character at the start of ASCII. -/
def asciiStep : Bytes → CodeStep
  | [] => .error (0, [])
  | b :: _ =>
    if b < 0x80 then .ok (Char.ofNat b.toNat, 1)
    else .error (1, "ordinal not in range(128)".toList)

/-- The character at the start of Latin-1. -/
def latin1Step : Bytes → CodeStep
  | [] => .error (0, [])
  | b :: _ => .ok (Char.ofNat b.toNat, 1)

/-- The character at the start of UTF-16 with the low byte first. -/
def utf16Step : Bytes → CodeStep
  | [] => .error (0, [])
  | [_] => .error (1, "truncated data".toList)
  | a :: b :: rest =>
    let unit := a.toNat + 0x100 * b.toNat
    if unit < 0xD800 || 0xDFFF < unit then .ok (Char.ofNat unit, 2)
    else if 0xDC00 ≤ unit then .error (2, "illegal encoding".toList)
    else
      match rest with
      | c :: d :: _ =>
        let low := c.toNat + 0x100 * d.toNat
        if 0xDC00 ≤ low && low ≤ 0xDFFF then
          .ok (Char.ofNat (0x10000 + (unit - 0xD800) * 0x400 + (low - 0xDC00)), 4)
        else .error (2, "illegal UTF-16 surrogate".toList)
      | _ => .error (2 + rest.length, "unexpected end of data".toList)

/-- Reads bytes character by character; `skip` bytes belong to the character already read, and
`position` counts the bytes before. -/
def decodeFrom (label : Text) (step : Bytes → CodeStep) : Nat → Nat → Bytes →
    Except CodecFault Text
  | _, _, [] => .ok []
  | position, skip + 1, _ :: rest => decodeFrom label step (position + 1) skip rest
  | position, 0, b :: rest =>
    match step (b :: rest) with
    | .ok (c, n) => (decodeFrom label step (position + 1) (n - 1) rest).map (c :: ·)
    | .error (n, reason) => .error (.undecodable label ((b :: rest).take n) position reason)

namespace Encoding

/-- The byte order mark of UTF-8. -/
def byteOrderMark : Bytes :=
  [0xEF, 0xBB, 0xBF]

/-- Reads bytes as text. A byte order mark, whole or cut short by the end, is no part of the text,
and places are counted after it. -/
def decode (e : Encoding) (bytes : Bytes) : Except CodecFault Text :=
  match e with
  | utf8 => decodeFrom e.label utf8Step 0 0 bytes
  | utf8Marked =>
    if bytes.isPrefixOf byteOrderMark then .ok []
    else
      decodeFrom e.label utf8Step 0 0
        (if byteOrderMark.isPrefixOf bytes then bytes.drop 3 else bytes)
  | ascii => decodeFrom e.label asciiStep 0 0 bytes
  | latin1 => decodeFrom e.label latin1Step 0 0 bytes
  | utf16le => decodeFrom e.label utf16Step 0 0 bytes

/-- The bytes of a character in UTF-8. -/
def utf8Bytes (c : Char) : Bytes :=
  let n := c.toNat
  let tail (i : Nat) : UInt8 := UInt8.ofNat (0x80 + (n >>> (6 * i)) % 0x40)
  if n < 0x80 then [UInt8.ofNat n]
  else if n < 0x800 then [UInt8.ofNat (0xC0 + n / 0x40), tail 0]
  else if n < 0x10000 then [UInt8.ofNat (0xE0 + n / 0x1000), tail 1, tail 0]
  else [UInt8.ofNat (0xF0 + n / 0x40000), tail 2, tail 1, tail 0]

/-- The bytes of a character in UTF-16 with the low byte first. -/
def utf16Bytes (c : Char) : Bytes :=
  let unit (n : Nat) : Bytes := [UInt8.ofNat (n % 0x100), UInt8.ofNat (n / 0x100)]
  let n := c.toNat
  if n < 0x10000 then unit n
  else unit (0xD800 + (n - 0x10000) / 0x400) ++ unit (0xDC00 + (n - 0x10000) % 0x400)

/-- Writes text in an encoding that has the first `limit` code points, one byte each. -/
def encodeBelow (label : Text) (limit : Nat) (t : Text) : Except CodecFault Bytes :=
  let fits (c : Char) : Bool := c.toNat < limit
  match t.dropWhile fits with
  | [] => .ok (t.map fun c => UInt8.ofNat c.toNat)
  | rest =>
    .error (.unencodable label (rest.takeWhile (!fits ·)) (t.length - rest.length)
      ("ordinal not in range(".toList ++ decimal limit ++ [')']))

/-- Writes text as bytes. -/
def encode (e : Encoding) (t : Text) : Except CodecFault Bytes :=
  match e with
  | utf8 => .ok (t.flatMap utf8Bytes)
  | utf8Marked => .ok (byteOrderMark ++ t.flatMap utf8Bytes)
  | ascii => encodeBelow e.label 0x80 t
  | latin1 => encodeBelow e.label 0x100 t
  | utf16le => .ok (t.flatMap utf16Bytes)

end Encoding

end VbTidy
