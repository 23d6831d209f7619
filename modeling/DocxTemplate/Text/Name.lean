import DocxTemplate.Text.Bytes

/-! # Names

    The names of variables and of entities: a letter or an underscore, then letters,
    digits, underscores, dots and hyphens. All are ASCII.
-/

namespace DocxTemplate.Name

/-- An ASCII digit. -/
def isDigit (b : UInt8) : Bool := 0x30 ≤ b && b ≤ 0x39

/-- A hexadecimal digit in either case. -/
def isHexDigit (b : UInt8) : Bool :=
  isDigit b || (0x41 ≤ b && b ≤ 0x46) || (0x61 ≤ b && b ≤ 0x66)

/-- A byte that may begin a name. -/
def isStart (b : UInt8) : Bool :=
  (0x41 ≤ b && b ≤ 0x5A) || (0x61 ≤ b && b ≤ 0x7A) || b == '_'.toUInt8

/-- A byte that may go on a name. -/
def isInner (b : UInt8) : Bool :=
  isStart b || isDigit b || b == '.'.toUInt8 || b == '-'.toUInt8

/-- The longest name a text starts with; empty if there is none. -/
def leading : Bytes → Bytes
  | b :: rest => if isStart b then b :: rest.takeWhile isInner else []
  | [] => []

/-- The string of an ASCII text. -/
def toString (name : Bytes) : String :=
  String.ofList (name.map fun b => Char.ofNat b.toNat)

end DocxTemplate.Name
