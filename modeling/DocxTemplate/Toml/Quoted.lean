import DocxTemplate.Text.Reader

/-! # Strings of TOML

    Double quotes enclose text with escapes, single quotes text without. Either may be
    tripled, which allows line ends and single quotes inside; a line end right behind the
    opening quotes does not count.
-/

namespace DocxTemplate.Toml.Quoted

/-- A character that texts may hold: any but the controls, of which the tab is allowed. -/
def isPlain (c : Char) : Bool :=
  c == '\t' || (0x20 ≤ c.toNat && c.toNat ≤ 0x7E) || 0x80 ≤ c.toNat

/-- White space inside a line. -/
def isGap (c : Char) : Bool := c == ' ' || c == '\t'

/-- A text without the line end at its start. -/
def dropLineEnd : List Char → List Char
  | '\n' :: rest => rest
  | cs => cs

/-! ## Escapes -/

/-- The value of a hexadecimal digit. -/
def hexValue? (c : Char) : Option Nat :=
  if c.isDigit then some (c.toNat - '0'.toNat)
  else if 'a' ≤ c ∧ c ≤ 'f' then some (c.toNat - 'a'.toNat + 10)
  else if 'A' ≤ c ∧ c ≤ 'F' then some (c.toNat - 'A'.toNat + 10)
  else none

/-- The character whose number is written with `n` hexadecimal digits at the start of a
    text. -/
def codePoint? (n : Nat) (cs : List Char) : Option Char := do
  let values ← (cs.take n).mapM hexValue?
  let code := values.foldl (fun code value => code * 16 + value) 0
  if values.length = n ∧ code.isValidChar then some (Char.ofNat code) else none

/-- The character of an escape behind its backslash, and how many characters spell it. -/
def escape? : List Char → Option (Char × Nat)
  | [] => none
  | c :: rest =>
    match c with
    | '\x22' | '\x5c' => some (c, 1)
    | 'b' => some ('\x08', 1)
    | 'f' => some ('\x0c', 1)
    | 'n' => some ('\n', 1)
    | 'r' => some ('\r', 1)
    | 't' => some ('\t', 1)
    | 'u' => (codePoint? 4 rest).map (·, 5)
    | 'U' => (codePoint? 8 rest).map (·, 9)
    | _ => none

/-! ## One Line -/

/-- The rest of a text in double quotes, and what stands behind it. -/
def basicRest : List Char → Option (List Char × List Char)
  | [] => none
  | c :: rest =>
    if c == '\x22' then some ([], rest)
    else if c == '\x5c' then do
      let (first, n) ← escape? rest
      let (others, left) ← basicRest (rest.drop n)
      return (first :: others, left)
    else if isPlain c then do
      let (others, left) ← basicRest rest
      return (c :: others, left)
    else none
termination_by cs => cs.length
decreasing_by all_goals (simp only [List.length_cons, List.length_drop]; omega)

/-- The rest of a text in single quotes, and what stands behind it. -/
def literalRest (cs : List Char) : Option (List Char × List Char) :=
  let isInside (c : Char) : Bool := c != '\x27' && isPlain c
  match cs.dropWhile isInside with
  | '\x27' :: left => some (cs.takeWhile isInside, left)
  | _ => none

/-! ## Several Lines -/

/-- How a run of quotes ends a text in tripled quotes: if there are three of them at least.
    Up to two quotes in front of the last three belong to the text. Gives these, and what
    stands behind. -/
def closing? (quote : Char) (cs : List Char) : Option (List Char × List Char) :=
  let run := (cs.takeWhile (· == quote)).length
  if run < 3 then none
  else
    let inside := min (run - 3) 2
    some (List.replicate inside quote, cs.drop (inside + 3))

/-- The text behind a backslash without the white space there, if that goes over a line
    end. -/
def joinedLine? (cs : List Char) : Option (List Char) :=
  match cs.dropWhile isGap with
  | '\n' :: _ => some (cs.dropWhile fun c => isGap c || c == '\n')
  | _ => none

/-- A text without characters at its start is no longer. -/
theorem length_dropWhile_le {α : Type} (p : α → Bool) (l : List α) :
    (l.dropWhile p).length ≤ l.length :=
  (List.dropWhile_suffix p).length_le

/-- Joining lines takes characters away. -/
theorem length_le_of_joinedLine? {cs rest : List Char} (h : joinedLine? cs = some rest) :
    rest.length ≤ cs.length := by
  unfold joinedLine? at h
  split at h
  · simp only [Option.some.injEq] at h
    exact h ▸ length_dropWhile_le _ _
  · simp at h

/-- The rest of a text in tripled double quotes. -/
def longBasicRest : List Char → Option (List Char × List Char)
  | [] => none
  | c :: rest =>
    if c == '\x22' then
      -- One or two quotes that do not close the text belong to it.
      match closing? '\x22' (c :: rest) with
      | some result => some result
      | none => do
        let (others, left) ← longBasicRest rest
        return (c :: others, left)
    else if c == '\x5c' then
      -- A backslash at the end of a line takes the gap to the next word away.
      match _h : joinedLine? rest with
      | some after => longBasicRest after
      | none => do
        let (first, n) ← escape? rest
        let (others, left) ← longBasicRest (rest.drop n)
        return (first :: others, left)
    else if isPlain c || c == '\n' then do
      let (others, left) ← longBasicRest rest
      return (c :: others, left)
    else none
termination_by cs => cs.length
decreasing_by
  · exact Nat.lt_succ_self _
  · exact Nat.lt_succ_of_le (length_le_of_joinedLine? _h)
  · simp only [List.length_cons, List.length_drop]; omega
  · exact Nat.lt_succ_self _

/-- The rest of a text in tripled single quotes. -/
def longLiteralRest : List Char → Option (List Char × List Char)
  | [] => none
  | c :: rest =>
    match if c == '\x27' then closing? '\x27' (c :: rest) else none with
    | some result => some result
    | none =>
      if isPlain c || c == '\n' then do
        let (others, left) ← longLiteralRest rest
        return (c :: others, left)
      else none

/-! ## Readers -/

/-- Takes a string on one line. -/
def readLine : Reader String := do
  let quote ← Reader.one fun c => c == '\x22' || c == '\x27'
  let cs ← if quote == '\x22' then (basicRest : Reader _) else literalRest
  return String.ofList cs

/-- Takes a string that may go over several lines. -/
def readLong : Reader String := do
  let quote ← Reader.one fun c => c == '\x22' || c == '\x27'
  Reader.char quote
  Reader.char quote
  let cs ← fun cs =>
    if quote == '\x22' then longBasicRest (dropLineEnd cs) else longLiteralRest (dropLineEnd cs)
  return String.ofList cs

/-- Takes a string. -/
def read : Reader String := do
  let opening ← fun cs => some (cs.take 3, cs)
  if opening == ['\x22', '\x22', '\x22'] || opening == ['\x27', '\x27', '\x27'] then readLong
  else readLine

end DocxTemplate.Toml.Quoted
