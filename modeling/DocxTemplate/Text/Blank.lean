import DocxTemplate.Text.Utf8

/-! # Blank characters

    The characters with the Unicode property `White_Space`, and blanks at the two
    ends of a text. This is a wider class than `isSpace`, which knows ASCII only and
    leaves out the vertical tab.
-/

namespace DocxTemplate.Blank

/-- The first and the last code point of every range of `White_Space`. -/
def ranges : List (Nat × Nat) :=
  [(0x09, 0x0D), (0x20, 0x20), (0x85, 0x85), (0xA0, 0xA0), (0x1680, 0x1680),
   (0x2000, 0x200A), (0x2028, 0x2029), (0x202F, 0x202F), (0x205F, 0x205F),
   (0x3000, 0x3000)]

/-- Whether a character is blank. -/
def isBlank (c : Char) : Bool :=
  ranges.any fun (first, last) => first ≤ c.toNat && c.toNat ≤ last

/-! ## Blanks in a Text -/

/-- The width of the blank character a text starts with; 0 if it starts with none. -/
def width (text : Bytes) : Nat :=
  match Utf8.head text with
  | .char c w => if isBlank c then w else 0
  | _ => 0

/-- The number of bytes that the blanks at the start of a text take. -/
def leading : Bytes → Nat
  | [] => 0
  | b :: rest =>
    match width (b :: rest) with
    | 0 => 0
    | w + 1 => w + 1 + leading (rest.drop w)
termination_by text => text.length
decreasing_by simp only [List.length_cons, List.length_drop]; omega

/-- A text without the blanks at its end. -/
def trimEnd : Bytes → Bytes
  | [] => []
  | b :: rest =>
    if leading (b :: rest) = rest.length + 1 then [] else b :: trimEnd rest

/-! ## Blanks in a String -/

/-- The characters between the blanks at both ends. -/
def trimChars (cs : List Char) : List Char :=
  ((cs.dropWhile isBlank).reverse.dropWhile isBlank).reverse

/-- A string without the blanks at its two ends. -/
def trim (s : String) : String :=
  String.ofList (trimChars s.toList)

end DocxTemplate.Blank
