import DocxTemplate.Json.Number

/-! # Reading JSON

    `JsonValue.read?` accepts exactly the texts that are one value with white space around
    it. Arrays and objects may be nested 127 deep. A string holds no control characters,
    and escapes in it make up whole characters. Of several members with one key the last
    one counts.
-/

namespace DocxTemplate.JsonValue

/-- A text without the white space at its start. -/
def skipSpace (cs : List Char) : List Char :=
  cs.dropWhile fun c => c == ' ' || c == '\n' || c == '\t' || c == '\r'

/-! ## Strings -/

/-- The value of a hexadecimal digit. -/
def hexDigit? (c : Char) : Option Nat :=
  if c.isDigit then some (c.toNat - '0'.toNat)
  else if 'a' ≤ c ∧ c ≤ 'f' then some (c.toNat - 'a'.toNat + 10)
  else if 'A' ≤ c ∧ c ≤ 'F' then some (c.toNat - 'A'.toNat + 10)
  else none

/-- The number that four hexadecimal digits at the start of a text form. -/
def hexUnit? : List Char → Option Nat
  | a :: b :: c :: d :: _ => do
    return ((← hexDigit? a) * 16 + (← hexDigit? b)) * 256 + ((← hexDigit? c) * 16 + (← hexDigit? d))
  | _ => none

/-- Reads what follows `\u`: a character, or the first half of one whose second half has to
    follow. Gives the number of characters read. -/
def readUnicode (cs : List Char) : Option (Char × Nat) := do
  let first ← hexUnit? cs
  if 0xDC00 ≤ first ∧ first ≤ 0xDFFF then none
  else if 0xD800 ≤ first ∧ first ≤ 0xDBFF then
    match cs.drop 4 with
    | '\x5c' :: 'u' :: rest => do
      let second ← hexUnit? rest
      if 0xDC00 ≤ second ∧ second ≤ 0xDFFF then
        return (Char.ofNat (0x10000 + (first - 0xD800) * 0x400 + (second - 0xDC00)), 10)
      else none
    | _ => none
  else return (Char.ofNat first, 4)

/-- The character of a short escape. -/
def shortEscape? (c : Char) : Option Char :=
  match c with
  | '\x22' | '\x5c' | '/' => some c
  | 'b' => some '\x08'
  | 'f' => some '\x0c'
  | 'n' => some '\n'
  | 'r' => some '\r'
  | 't' => some '\t'
  | _ => none

/-- Reads the rest of a string up to its closing quote. -/
def readString : List Char → Option (List Char × List Char)
  | [] => none
  | c :: rest =>
    if c == '\x22' then some ([], rest)
    else if c == '\x5c' then
      match rest with
      | [] => none
      | 'u' :: more => do
        let (first, n) ← readUnicode more
        let (others, left) ← readString (more.drop n)
        return (first :: others, left)
      | e :: more => do
        let first ← shortEscape? e
        let (others, left) ← readString more
        return (first :: others, left)
    -- A control character has to be written with an escape.
    else if c.toNat < 0x20 then none
    else do
      let (others, left) ← readString rest
      return (c :: others, left)
termination_by cs => cs.length
decreasing_by all_goals (simp only [List.length_cons, List.length_drop]; omega)

/-! ## Values -/

/-- A text without a word at its start. -/
def afterWord? (word : String) (cs : List Char) : Option (List Char) :=
  if word.toList.isPrefixOf cs then some (cs.drop word.length) else none

mutual

/-- Reads a value with at most `depth` levels. Of two calls in a row at least one takes a
    character, so `fuel` does not run out if it is more than twice the length of the text. -/
def readValue : (fuel depth : Nat) → List Char → Option (JsonValue × List Char)
  | 0, _, _ => none
  | fuel + 1, depth, cs =>
    match skipSpace cs with
    | [] => none
    | c :: rest =>
      if c == 'n' then (afterWord? "ull" rest).map (null, ·)
      else if c == 't' then (afterWord? "rue" rest).map (bool true, ·)
      else if c == 'f' then (afterWord? "alse" rest).map (bool false, ·)
      else if c == '\x22' then
        (readString rest).map fun (s, left) => (string (String.ofList s), left)
      -- Going into an array or an object takes a level, even if it is empty.
      else if c == '[' then
        match depth, skipSpace rest with
        | 0, _ => none
        | _ + 1, ']' :: left => some (array [], left)
        | depth + 1, _ => (readItems fuel depth rest).map fun (items, left) => (array items, left)
      else if c == '\x7b' then
        match depth, skipSpace rest with
        | 0, _ => none
        | _ + 1, '\x7d' :: left => some (object [], left)
        | depth + 1, _ =>
          (readMembers fuel depth [] rest).map fun (members, left) => (object members, left)
      else (JsonNumber.read? (c :: rest)).map fun (n, left) => (number n, left)

/-- Reads the items of an array up to its end. -/
def readItems : (fuel depth : Nat) → List Char → Option (List JsonValue × List Char)
  | 0, _, _ => none
  | fuel + 1, depth, cs => do
    let (first, left) ← readValue fuel depth cs
    match skipSpace left with
    | ',' :: left => do
      let (others, left) ← readItems fuel depth left
      return (first :: others, left)
    | ']' :: left => return ([first], left)
    | _ => none

/-- Reads the members of an object up to its end, given those before. -/
def readMembers : (fuel depth : Nat) → List (String × JsonValue) → List Char →
    Option (List (String × JsonValue) × List Char)
  | 0, _, _, _ => none
  | fuel + 1, depth, before, cs =>
    match skipSpace cs with
    | '\x22' :: rest => do
      let (key, left) ← readString rest
      match skipSpace left with
      | ':' :: left => do
        let (value, left) ← readValue fuel depth left
        -- Of two members with one key the last is kept.
        let members := insertMember (String.ofList key) value before
        match skipSpace left with
        | ',' :: left => readMembers fuel depth members left
        | '\x7d' :: left => return (members, left)
        | _ => none
      | _ => none
    | _ => none

end

/-- The deepest nesting that is read. -/
def depthLimit : Nat := 127

/-- The value a text consists of. -/
def read? (s : String) : Option JsonValue := do
  let (value, left) ← readValue (2 * s.length + 2) depthLimit s.toList
  if (skipSpace left).isEmpty then some value else none

end DocxTemplate.JsonValue
