/-! # Readers

    A reader takes what it recognises from the front of a text and gives its meaning, or
    fails. `r <|> s` is `s` on the whole text where `r` fails.
-/

namespace DocxTemplate

/-- Work on the rest of a text that may fail. -/
abbrev Reader (α : Type) := StateT (List Char) Option α

namespace Reader

variable {α : Type}

/-- The next character, which stays. -/
def peek : Reader (Option Char) := fun cs => some (cs.head?, cs)

/-- Takes a character of a class. -/
def one (p : Char → Bool) : Reader Char
  | c :: rest => if p c then some (c, rest) else none
  | [] => none

/-- Takes a certain character. -/
def char (c : Char) : Reader Unit := do let _ ← one (· == c)

/-- Takes a certain word. -/
def word (w : String) : Reader Unit := fun cs =>
  if w.toList.isPrefixOf cs then some ((), cs.drop w.length) else none

/-- Takes characters as long as they are of a class. -/
def span (p : Char → Bool) : Reader (List Char) := fun cs =>
  some (cs.takeWhile p, cs.dropWhile p)

/-- Takes `n` characters of a class. -/
def exactly (n : Nat) (p : Char → Bool) : Reader (List Char) := fun cs =>
  if n ≤ cs.length && (cs.take n).all p then some (cs.take n, cs.drop n) else none

/-- Takes what a reader takes, or nothing where it fails. -/
def maybe (r : Reader α) : Reader (Option α) := some <$> r <|> pure none

/-- Fails unless a condition holds. -/
def check (b : Bool) : Reader Unit := if b then pure () else failure

end Reader

end DocxTemplate
