import DocxTemplate.Text.Name

/-! # Escaping

    * `escape` and `escapeQuoted` write text so that a reader gives it back.
    * `escapeLoneAmpersands` mends text that may hold references already: it escapes
      exactly the ampersands that start none.
-/

namespace DocxTemplate.Xml

/-! ## Whole Texts -/

/-- A byte of character data as it is written. -/
def escapeByte (b : UInt8) : Bytes :=
  if b == '&'.toUInt8 then Bytes.ofString "&amp;"
  else if b == '<'.toUInt8 then Bytes.ofString "&lt;"
  else if b == '>'.toUInt8 then Bytes.ofString "&gt;"
  else [b]

/-- A byte of a double-quoted attribute value as it is written. -/
def escapeQuotedByte (b : UInt8) : Bytes :=
  if b == 0x22 then Bytes.ofString "&quot;" else escapeByte b

/-- Character data as it is written between tags. -/
def escape (text : Bytes) : Bytes := text.flatMap escapeByte

/-- A value as it is written between double quotes. -/
def escapeQuoted (text : Bytes) : Bytes := text.flatMap escapeQuotedByte

/-- An attribute as it is written in a tag, with the space before it. -/
def writeAttribute (key value : String) : Bytes :=
  Bytes.ofString (" " ++ key ++ "=\"") ++ escapeQuoted (Bytes.ofString value)
    ++ Bytes.ofString "\""

/-! ## Ampersands -/

/-- Whether a text starts with one or more bytes of a kind and then a semicolon. -/
def closedRun (p : UInt8 → Bool) (text : Bytes) : Bool :=
  text.head?.any p && (text.dropWhile p).head? == some ';'.toUInt8

/-- Whether the text behind an ampersand makes it a reference: a name, a decimal or a
    hexadecimal number, closed by a semicolon. -/
def startsReference (text : Bytes) : Bool :=
  match text with
  | [] => false
  | b :: rest =>
    if b == '#'.toUInt8 then
      closedRun Name.isDigit rest ||
        (rest.head? == some 'x'.toUInt8 && closedRun Name.isHexDigit (rest.drop 1))
    else
      Name.isStart b && (rest.dropWhile Name.isInner).head? == some ';'.toUInt8

/-- Writes `&amp;` for every ampersand that starts no reference. -/
def escapeLoneAmpersands : Bytes → Bytes
  | [] => []
  | b :: rest =>
    if b == '&'.toUInt8 && !startsReference rest then
      Bytes.ofString "&amp;" ++ escapeLoneAmpersands rest
    else b :: escapeLoneAmpersands rest

end DocxTemplate.Xml
