import DocxTemplate.Xml.Reference

/-! # Attributes

    The attributes in a tag are read one after the other: key, `=` with white space
    allowed around it, quoted value. A key runs up to `=` or white space, and its first
    byte always belongs to it. Two attributes need no white space between them.
-/

namespace DocxTemplate.Xml

/-- White space in markup: space, tab, line feed and carriage return. -/
def isBlank (b : UInt8) : Bool :=
  b == 0x20 || b == 0x09 || b == 0x0A || b == 0x0D

/-- The number of blanks a text starts with. -/
def blanks (text : Bytes) : Nat := (text.takeWhile isBlank).length

/-- An attribute as it is written, and the number of bytes it takes. -/
structure RawAttribute where
  key : Bytes
  value : Bytes
  length : Nat
  deriving DecidableEq, Repr

/-- Reads the attribute a text starts with. `position` is where the text stands in the
    tag, and `seen` holds the keys read before with their positions. -/
def RawAttribute.read (seen : List (Bytes × Nat)) (position : Nat) (text : Bytes) :
    Except AttributeFault RawAttribute :=
  -- The first byte belongs to the key, even if it is `=`.
  let key := text.take 1 ++ (text.drop 1).takeWhile fun b => b != '='.toUInt8 && !isBlank b
  let equalsAt := key.length + blanks (text.drop key.length)
  if (text.drop equalsAt).head? != some '='.toUInt8 then
    .error (.missingEquals (position + equalsAt))
  else
    match seen.lookup key with
    | some first => .error (.duplicate position first)
    | none =>
      let valueAt := equalsAt + 1 + blanks (text.drop (equalsAt + 1))
      match text.drop valueAt with
      | [] => .error (.missingValue (position + valueAt))
      | quote :: rest =>
        if quote == 0x22 || quote == 0x27 then
          match Bytes.indexOf? [quote] rest with
          | some n => .ok { key, value := rest.take n, length := valueAt + 1 + n + 1 }
          | none => .error (.missingQuote (position + text.length) (Char.ofNat quote.toNat))
        else .error (.unquotedValue (position + valueAt))

/-- Keys and values of the attributes from `position` on. -/
def attributesFrom (seen : List (Bytes × Nat)) (position : Nat) :
    Bytes → Except Error (List (String × String))
  | [] => .ok []
  | b :: rest =>
    if isBlank b then attributesFrom seen (position + 1) rest
    else
      match RawAttribute.read seen position (b :: rest) with
      | .error fault => .error (.attributes fault)
      | .ok raw => do
        let value ← readText raw.value
        let others ← attributesFrom ((raw.key, position) :: seen) (position + raw.length)
          (rest.drop (raw.length - 1))
        return (Utf8.decodeLossy raw.key, value) :: others
termination_by text => text.length
decreasing_by all_goals (simp only [List.length_cons, List.length_drop]; omega)

/-- The name of a tag: its content up to the first blank. -/
def tagName (content : Bytes) : Bytes := content.takeWhile fun b => !isBlank b

/-- The attributes of a tag. -/
def tagAttributes (content : Bytes) : Except Error (List (String × String)) :=
  let name := tagName content
  attributesFrom [] name.length (content.drop name.length)

end DocxTemplate.Xml
