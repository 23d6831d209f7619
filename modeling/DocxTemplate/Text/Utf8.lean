import DocxTemplate.Text.Bytes

/-! # UTF-8

    Reading bytes as characters.

    * `Utf8.head` reads one character, or says how much of the text can belong
      to none: the longest start of a character that the next byte breaks.
    * `Utf8.decode?` accepts exactly the texts made of whole characters and
      names the first fault of any other.
    * `Utf8.decodeLossy` never fails: each fault is read as U+FFFD.
-/

namespace DocxTemplate.Utf8

/-! ## One Character -/

/-- What a leading byte asks for: how many bytes follow it, and the range of the
    first of them. All later ones lie in `0x80` to `0xBF`. -/
structure Lead where
  tails : Nat
  low : UInt8
  high : UInt8
  deriving DecidableEq, Repr

/-- The bytes that may lead a character of several bytes. The ranges exclude
    longer forms than needed, surrogates and values above U+10FFFF. -/
def lead? (b : UInt8) : Option Lead :=
  if 0xC2 ≤ b ∧ b ≤ 0xDF then some ⟨1, 0x80, 0xBF⟩
  else if b = 0xE0 then some ⟨2, 0xA0, 0xBF⟩
  else if b = 0xED then some ⟨2, 0x80, 0x9F⟩
  else if 0xE1 ≤ b ∧ b ≤ 0xEF then some ⟨2, 0x80, 0xBF⟩
  else if b = 0xF0 then some ⟨3, 0x90, 0xBF⟩
  else if 0xF1 ≤ b ∧ b ≤ 0xF3 then some ⟨3, 0x80, 0xBF⟩
  else if b = 0xF4 then some ⟨3, 0x80, 0x8F⟩
  else none

/-- What stands at the start of a text. -/
inductive Head where
  /-- A character written with `width` bytes. -/
  | char (c : Char) (width : Nat)
  /-- `width` bytes that no byte after them can complete. -/
  | broken (width : Nat)
  /-- The text ends inside a character. -/
  | unfinished
  deriving DecidableEq, Repr

/-- Reads the `n` bytes that follow the first `width` bytes of a character whose
    bits so far are `value`. -/
def headTails : (n : Nat) → (low high : UInt8) → (value width : Nat) → Bytes → Head
  | 0, _, _, value, width, _ => .char (Char.ofNat value) width
  | _ + 1, _, _, _, _, [] => .unfinished
  | n + 1, low, high, value, width, b :: rest =>
    if low ≤ b ∧ b ≤ high then
      headTails n 0x80 0xBF (value * 64 + b.toNat % 64) (width + 1) rest
    else .broken width

/-- The character a text starts with, or the fault there. -/
def head : Bytes → Head
  | [] => .unfinished
  | b :: rest =>
    if b < 0x80 then .char (Char.ofNat b.toNat) 1
    else match lead? b with
      | none => .broken 1
      | some l => headTails l.tails l.low l.high (b.toNat % Nat.pow 2 (6 - l.tails)) 1 rest

/-! ## Whole Texts -/

/-- The first fault of a text: where it starts, and how many bytes it spans if the
    text goes on behind it. -/
structure Fault where
  index : Nat
  width? : Option Nat
  deriving DecidableEq, Repr

/-- The wording of a fault. -/
def Fault.message (f : Fault) : String :=
  match f.width? with
  | some w => s!"invalid utf-8 sequence of {w} bytes from index {f.index}"
  | none => s!"incomplete utf-8 byte sequence from index {f.index}"

/-- The characters of a text that starts at position `index`, or its first fault. -/
def decodeFrom (index : Nat) : Bytes → Except Fault (List Char)
  | [] => .ok []
  | b :: rest =>
    match head (b :: rest) with
    | .char c width => (c :: ·) <$> decodeFrom (index + width) (rest.drop (width - 1))
    | .broken width => .error ⟨index, some width⟩
    | .unfinished => .error ⟨index, none⟩
termination_by text => text.length
decreasing_by simp only [List.length_cons, List.length_drop]; omega

/-- The string whose UTF-8 form a text is, or the text's first fault. -/
def decode (text : Bytes) : Except Fault String :=
  String.ofList <$> decodeFrom 0 text

/-- The string of a text that is UTF-8 throughout. -/
def decode? (text : Bytes) : Option String :=
  (decode text).toOption

/-- The characters of a text, with U+FFFD for each fault. -/
def lossyChars : Bytes → List Char
  | [] => []
  | b :: rest =>
    match head (b :: rest) with
    | .char c width => c :: lossyChars (rest.drop (width - 1))
    | .broken width => '\ufffd' :: lossyChars (rest.drop (width - 1))
    | .unfinished => ['\ufffd']
termination_by text => text.length
decreasing_by all_goals (simp only [List.length_cons, List.length_drop]; omega)

/-- The string of a text, with U+FFFD for each fault. -/
def decodeLossy (text : Bytes) : String :=
  String.ofList (lossyChars text)

/-- Whether a position lies between two characters: at the end of the text, or where
    no continuation byte stands. -/
def isBoundary (text : Bytes) (position : Nat) : Bool :=
  position == text.length ||
    match text[position]? with
    | some b => b < 0x80 || 0xC0 ≤ b
    | none => false

end DocxTemplate.Utf8
