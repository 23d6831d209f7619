import DocxTemplate.Text.Blank
import DocxTemplate.Text.Name

/-! # Placeholders

    A placeholder is a name between double braces, with blanks allowed around the name.
    `Piece.ofSource` reads a source as literal bytes and placeholders, and loses nothing:
    the pieces put together are the source.
-/

namespace DocxTemplate

/-- A placeholder as it is written. -/
structure Placeholder where
  /-- The blanks before the name. -/
  before : Bytes
  /-- The name, in ASCII. -/
  letters : Bytes
  /-- The blanks after the name. -/
  after : Bytes
  deriving DecidableEq, Repr

namespace Placeholder

/-- What opens a placeholder. -/
def opening : Bytes := Bytes.ofString "\x7b\x7b"

/-- What closes it. -/
def closing : Bytes := Bytes.ofString "\x7d\x7d"

/-- The name that is looked up. -/
def name (p : Placeholder) : String := Name.toString p.letters

/-- The text of a placeholder. -/
def raw (p : Placeholder) : Bytes :=
  opening ++ p.before ++ p.letters ++ p.after ++ closing

/-- The placeholder a text starts with. -/
def read? (text : Bytes) : Option Placeholder :=
  if opening.isPrefixOf text then
    let inner := text.drop opening.length
    let before := inner.take (Blank.leading inner)
    let rest := inner.drop before.length
    let letters := Name.leading rest
    let tail := rest.drop letters.length
    let after := tail.take (Blank.leading tail)
    if !letters.isEmpty && closing.isPrefixOf (tail.drop after.length) then
      some ⟨before, letters, after⟩
    else none
  else none

end Placeholder

/-! ## Pieces of a Source -/

/-- A part of a source: a byte that stands for itself, or a placeholder. -/
inductive Piece where
  | literal (b : UInt8)
  | slot (p : Placeholder)
  deriving DecidableEq, Repr

namespace Piece

/-- The text of a piece. -/
def raw : Piece → Bytes
  | literal b => [b]
  | slot p => p.raw

/-- The name a piece asks a value for. -/
def name? : Piece → Option String
  | literal _ => none
  | slot p => some p.name

/-- The pieces of a source, from left to right. -/
def ofSource : Bytes → List Piece
  | [] => []
  | b :: rest =>
    match Placeholder.read? (b :: rest) with
    | some p => slot p :: ofSource (rest.drop (p.raw.length - 1))
    | none => literal b :: ofSource rest
termination_by source => source.length
decreasing_by all_goals (simp only [List.length_cons, List.length_drop]; omega)

end Piece

/-- The distinct names of the placeholders in a source, in order of first appearance. -/
def placeholderNames (source : Bytes) : List String :=
  ((Piece.ofSource source).filterMap Piece.name?).eraseDups

end DocxTemplate
