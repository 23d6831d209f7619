import DocxTemplate.Text.Bytes

/-! # Letter case

    Case matters for ASCII letters only; all other characters stay as they are.
-/

namespace DocxTemplate.Case

/-- A byte with an ASCII letter in upper case. -/
def upper (b : UInt8) : UInt8 := if 0x61 ≤ b && b ≤ 0x7A then b - 0x20 else b

/-- A string with its ASCII letters in lower case. -/
def lower (s : String) : String := String.ofList (s.toList.map Char.toLower)

end DocxTemplate.Case
