import DocxTemplate.Xml.Error

/-! # References

    Text and attribute values write some characters as references: `&name;` for the five
    entities of XML, `&#N;` and `&#xN;` for a code point. `unescape` puts the characters
    in their place. It reads from left to right and stops at the first reference it
    cannot read.
-/

namespace DocxTemplate.Xml

/-! ## Numbers -/

/-- The value of a digit in a base up to 16. -/
def digitValue? (base : Nat) (c : Char) : Option Nat :=
  let value? :=
    if '0' ≤ c ∧ c ≤ '9' then some (c.toNat - '0'.toNat)
    else if 'a' ≤ c ∧ c ≤ 'f' then some (c.toNat - 'a'.toNat + 10)
    else if 'A' ≤ c ∧ c ≤ 'F' then some (c.toNat - 'A'.toNat + 10)
    else none
  value?.filter (· < base)

/-- Goes on reading digits from a value. A value has 32 bits; a character that is no
    digit is reported before the value it would make too large. -/
def digitsFrom (base value : Nat) : List Char → Except NumberFault Nat
  | [] => .ok value
  | c :: rest =>
    match digitValue? base c with
    | none => .error .badDigit
    | some d =>
      if value * base + d < UInt32.size then digitsFrom base (value * base + d) rest
      else .error .tooLarge

/-- Reads a number without a sign. -/
def readNumber (base : Nat) (digits : List Char) : Except NumberFault Nat :=
  match digits with
  | [] => .error .empty
  | c :: _ => if c == '+' || c == '-' then .error .sign else digitsFrom base 0 digits

/-- The character that a reference names by its number, given what follows the `#`. -/
def numberedChar (digits : List Char) : Except NumberFault Char := do
  let code ← match digits with
    | 'x' :: hex => readNumber 16 hex
    | _ => readNumber 10 digits
  if code = 0 then .error .zero
  else if code.isValidChar then .ok (Char.ofNat code)
  else .error (.noCharacter code)

/-! ## Names -/

/-- The character of an entity that every XML text may use. -/
def entity? (name : List Char) : Option Char :=
  match String.ofList name with
  | "lt" => some '<'
  | "gt" => some '>'
  | "amp" => some '&'
  | "apos" => some '\x27'
  | "quot" => some '\x22'
  | _ => none

/-- The number of bytes a list of characters takes. -/
def byteSize : List Char → Nat
  | [] => 0
  | c :: rest => c.utf8Size + byteSize rest

/-- The character of a reference, given what stands between its `&` at `position - 1` and
    its `;`. -/
def dereference (position : Nat) (name : List Char) : Except ReferenceFault Char :=
  match name with
  | '#' :: digits =>
    match numberedChar digits with
    | .ok c => .ok c
    | .error fault => .error (.number fault)
  | _ =>
    match entity? name with
    | some c => .ok c
    | none =>
      .error (.unknownEntity position (position + byteSize name) (String.ofList name))

/-! ## Texts -/

/-- Replaces the references in the part of a text from `position` on; `size` is the size
    of the whole text. -/
def unescapeFrom (size position : Nat) : List Char → Except ReferenceFault (List Char)
  | [] => .ok []
  | c :: rest =>
    if c != '&' then (c :: ·) <$> unescapeFrom size (position + c.utf8Size) rest
    else
      let name := rest.takeWhile fun c => c != '&' && c != ';'
      if (rest.drop name.length).head? == some ';' then do
        let value ← dereference (position + 1) name
        (value :: ·) <$>
          unescapeFrom size (position + byteSize name + 2) (rest.drop (name.length + 1))
      else .error (.unterminated position size)
termination_by text => text.length
decreasing_by all_goals (simp only [List.length_cons, List.length_drop]; omega)

/-- A text with its references replaced. -/
def unescape (text : List Char) : Except ReferenceFault (List Char) :=
  unescapeFrom (byteSize text) 0 text

/-- The string that a text or an attribute value stands for. -/
def readText (raw : Bytes) : Except Error String :=
  match Utf8.decodeFrom 0 raw with
  | .error fault => .error (.encoding fault)
  | .ok text =>
    match unescape text with
    | .error fault => .error (.reference fault)
    | .ok value => .ok (String.ofList value)

end DocxTemplate.Xml
