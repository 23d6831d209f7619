import DocxTemplate.Toml.Quoted
import DocxTemplate.Toml.Table

/-! # Reading TOML

    `Toml.read?` gives the entries of the root table of a document. A document consists of
    lines: headers of tables, keys with values, comments, and empty ones. A value may go over
    several lines only inside brackets or tripled quotes.

    Keys have fewer than 80 parts, and arrays and inline tables are nested fewer than 80
    deep.
-/

namespace DocxTemplate.Toml

open Quoted (isPlain isGap)

/-- The number that the parts of a key and the levels of nesting stay below. -/
def depthLimit : Nat := 80

/-! ## Gaps -/

/-- Takes the white space inside a line. -/
def skipGap : Reader Unit := do let _ ← Reader.span isGap

/-- Takes white space, line ends and comments. A comment goes to the end of its line. -/
def skipLines (inComment : Bool) : Reader Unit
  | [] => some ((), [])
  | c :: rest =>
    if c == '\n' then skipLines false rest
    else if inComment then if isPlain c then skipLines true rest else none
    else if isGap c then skipLines false rest
    else if c == '#' then skipLines true rest
    else some ((), c :: rest)

/-- Takes the end of a line or of the document. -/
def readLineEnd : Reader Unit := do
  match ← Reader.peek with
  | none => pure ()
  | some _ => Reader.char '\n'

/-- Takes a comment. -/
def readComment : Reader Unit := do
  Reader.char '#'
  let _ ← Reader.span isPlain

/-- Takes what may follow the last word of a line. -/
def finishLine : Reader Unit := do
  skipGap
  let _ ← Reader.maybe readComment
  readLineEnd

/-! ## Keys -/

/-- A character of a key without quotes. -/
def isBare (c : Char) : Bool := c.isAlphanum || c == '_' || c == '-'

/-- Takes one part of a key. -/
def readKeyPart : Reader String := do
  match ← Reader.peek with
  | some '\x22' | some '\x27' => Quoted.readLine
  | _ => return String.ofList ((← Reader.one isBare) :: (← Reader.span isBare))

/-- Takes the parts of a key that follow the first one. -/
def readKeyParts : (fuel : Nat) → Reader (List String)
  | 0 => failure
  | fuel + 1 => do
    skipGap
    match ← Reader.peek with
    | some '.' => do
      Reader.char '.'
      skipGap
      let part ← readKeyPart
      return part :: (← readKeyParts fuel)
    | _ => return []

/-- A dotted key: the last part, and those before. -/
structure Key where
  path : List String
  last : String
  deriving DecidableEq, Repr

/-- Takes a dotted key with the gaps around it. -/
def readKey : Reader Key := do
  skipGap
  let first ← readKeyPart
  let others ← readKeyParts depthLimit
  let parts := first :: others
  Reader.check (parts.length < depthLimit)
  return { path := parts.dropLast, last := parts.getLastD first }

/-! ## Values -/

/-- Takes a value that holds no other ones. -/
def readScalar : Reader Toml := do
  match ← Reader.peek with
  | none => failure
  | some c =>
    if c == '\x22' || c == '\x27' then return string (← Quoted.read)
    else if c == 't' then do Reader.word "true"; return boolean true
    else if c == 'f' then do Reader.word "false"; return boolean false
    else
      (moment <$> Moment.read) <|> (fraction <$> Number.readFraction)
        <|> (integer <$> Number.readInteger)

mutual

/-- Takes a value with fewer than `depth` levels. Of two calls in a row at least one takes a
    character, so `fuel` does not run out if it is more than twice the length of the text. -/
def readValue : (fuel depth : Nat) → Reader Toml
  | 0, _ => failure
  | fuel + 1, depth => do
    match ← Reader.peek, depth with
    | some '[', depth + 2 => do
      Reader.char '['
      return array (← readItems fuel (depth + 1))
    | some '\x7b', depth + 2 => do
      Reader.char '\x7b'
      return table .inline (← readEntries fuel (depth + 1))
    | _, _ => readScalar

/-- Takes the items of an array up to its end. -/
def readItems : (fuel depth : Nat) → Reader (List Toml)
  | 0, _ => failure
  | fuel + 1, depth => do
    skipLines false
    match ← Reader.peek with
    | some ']' => do
      Reader.char ']'
      return []
    | _ => do
      let item ← readValue fuel depth
      skipLines false
      match ← Reader.one fun c => c == ',' || c == ']' with
      | ',' => return item :: (← readItems fuel depth)
      | _ => return [item]

/-- Takes the entries of an inline table up to its end. -/
def readEntries : (fuel depth : Nat) → Reader Entries
  | 0, _ => failure
  | fuel + 1, depth => do
    skipGap
    match ← Reader.peek with
    | some '\x7d' => do
      Reader.char '\x7d'
      return []
    | _ => readMoreEntries fuel depth []

/-- Takes an entry of an inline table and those that follow, given those before. -/
def readMoreEntries : (fuel depth : Nat) → (before : Entries) → Reader Entries
  | 0, _, _ => failure
  | fuel + 1, depth, before => do
    let key ← readKey
    Reader.char '='
    skipGap
    let value ← readValue fuel depth
    skipGap
    match before.insert value key.path key.last with
    | none => failure
    | some entries =>
      match ← Reader.one fun c => c == ',' || c == '\x7d' with
      | ',' => readMoreEntries fuel depth entries
      | _ => return entries

end

/-! ## Documents -/

/-- What is read of a document: the entries so far, and the keys that lead to the table of
    the current header. -/
structure Draft where
  entries : Entries := []
  current : List String := []

/-- Takes a header. -/
def readHeader (draft : Draft) : Reader Draft := do
  Reader.char '['
  let repeated := (← Reader.maybe (Reader.char '[')).isSome
  let key ← readKey
  Reader.word (if repeated then "]]" else "]")
  finishLine
  let start := if repeated then Entries.openRepeated else Entries.openTable
  match start key.path key.last draft.entries with
  | none => failure
  | some entries => return { entries, current := key.path ++ [key.last] }

/-- Takes a key and its value. -/
def readAssignment (fuel : Nat) (draft : Draft) : Reader Draft := do
  let key ← readKey
  Reader.char '='
  skipGap
  let value ← readValue fuel depthLimit
  finishLine
  match draft.entries.within (Entries.insert value key.path key.last) draft.current with
  | none => failure
  | some entries => return { draft with entries }

/-- Takes the lines of a document. Each of them takes a character, so `fuel` that suffices for
    the values suffices here too. -/
def readLines : (fuel : Nat) → Draft → Reader Entries
  | 0, _ => failure
  | fuel + 1, draft => do
    skipLines false
    match ← Reader.peek with
    | none => return draft.entries
    | some '[' => readLines fuel (← readHeader draft)
    | some _ => readLines fuel (← readAssignment fuel draft)

/-- A text in which every line ends with a line feed alone. -/
def unifyLineEnds : List Char → List Char
  | '\r' :: '\n' :: rest => '\n' :: unifyLineEnds rest
  | c :: rest => c :: unifyLineEnds rest
  | [] => []

/-- A text without the mark of byte order at its start. -/
def dropMark : List Char → List Char
  | '\uFEFF' :: rest => rest
  | cs => cs

/-- The entries of the root table of a document. -/
def read? (s : String) : Option Entries :=
  let cs := unifyLineEnds (dropMark s.toList)
  (readLines (2 * cs.length + 2) {}).run cs |>.map (·.1)

end DocxTemplate.Toml
