import DocxTemplate.Text.Bytes

/-! # Code page 437

    The character set of names in archives that do not say that they use UTF-8: ASCII,
    and one further character for each byte from 128 on.
-/

namespace DocxTemplate.CodePage

/-- The characters of the bytes from 128 on, in order. -/
def upper : Array Char :=
  #['Ç', 'ü', 'é', 'â', 'ä', 'à', 'å', 'ç', 'ê', 'ë', 'è', 'ï', 'î', 'ì', 'Ä', 'Å',
    'É', 'æ', 'Æ', 'ô', 'ö', 'ò', 'û', 'ù', 'ÿ', 'Ö', 'Ü', '¢', '£', '¥', '₧', 'ƒ',
    'á', 'í', 'ó', 'ú', 'ñ', 'Ñ', 'ª', 'º', '¿', '⌐', '¬', '½', '¼', '¡', '«', '»',
    '░', '▒', '▓', '│', '┤', '╡', '╢', '╖', '╕', '╣', '║', '╗', '╝', '╜', '╛', '┐',
    '└', '┴', '┬', '├', '─', '┼', '╞', '╟', '╚', '╔', '╩', '╦', '╠', '═', '╬', '╧',
    '╨', '╤', '╥', '╙', '╘', '╒', '╓', '╫', '╪', '┘', '┌', '█', '▄', '▌', '▐', '▀',
    'α', 'ß', 'Γ', 'π', 'Σ', 'σ', 'µ', 'τ', 'Φ', 'Θ', 'Ω', 'δ', '∞', 'φ', 'ε', '∩',
    '≡', '±', '≥', '≤', '⌠', '⌡', '÷', '≈', '°', '∙', '·', '√', 'ⁿ', '²', '■', '\u00a0']

/-- The character of a byte. -/
def decodeByte (b : UInt8) : Char :=
  if b < 0x80 then Char.ofNat b.toNat else upper[b.toNat - 0x80]?.getD '\ufffd'

/-- The string of a text. -/
def decode (text : Bytes) : String := String.ofList (text.map decodeByte)

/-- Every byte from 128 on has a character. -/
theorem upper_size : upper.size = 128 := by simp [upper]

/-- A string has as many characters as its text has bytes. -/
theorem length_decode (text : Bytes) : (decode text).length = text.length := by
  simp [decode]

end DocxTemplate.CodePage
