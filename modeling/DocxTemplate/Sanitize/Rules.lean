import DocxTemplate.Text.Scan

/-! # Sanitizing rules

    What the passes take out of a document, what they report, and what a pass
    gives back.
-/

namespace DocxTemplate.Sanitize

/-! ## Rules -/

/-- The elements a word processor leaves between runs and that carry no content. -/
def defaultTags : List String :=
  ["w:proofErr", "w:noProof", "w:lang", "w:lastRenderedPageBreak"]

/-- The attributes that name the editing session a piece of text comes from. -/
def defaultAttributes : List String :=
  ["w:rsidR", "w:rsidRPr", "w:rsidRDefault", "w:rsidP", "w:rsidDel", "w:rsidSect", "w:rsidTr"]

/-- What sanitizing removes. -/
structure Rules where
  /-- Names of the elements removed wherever they are empty. -/
  tags : List String := defaultTags
  /-- Names of the attributes removed from every element. -/
  attributes : List String := defaultAttributes
  /-- Whether neighbouring runs that open alike are joined. -/
  mergeRuns : Bool := true
  deriving DecidableEq, Repr

/-! ## Warnings -/

/-- Markup that was left alone because it does not have the expected shape. Offsets are
    positions in the text as it stands when the warning is given. -/
inductive Warning where
  /-- A tag without an end. -/
  | unclosedTag (tag : String) (offset : Nat)
  /-- An element to be removed that is not empty. -/
  | nonEmptyTag (tag : String) (offset : Nat)
  /-- A run without an end tag. -/
  | unclosedRun (offset : Nat)
  /-- A text node without an end tag, or with a run inside it. -/
  | unclosedText (offset : Nat)
  deriving DecidableEq, Repr

namespace Warning

/-- The place a warning is about. -/
def offset : Warning → Nat
  | unclosedTag _ n | nonEmptyTag _ n | unclosedRun n | unclosedText n => n

/-- The tag a warning names. -/
def tag? : Warning → Option String
  | unclosedTag t _ | nonEmptyTag t _ => some t
  | unclosedRun _ | unclosedText _ => none

/-- The wording of a warning. -/
def message : Warning → String
  | unclosedTag t n => s!"tag {t} at byte {n} has no closing '>'"
  | nonEmptyTag t n => s!"tag {t} at byte {n} has content; left in place"
  | unclosedRun n => s!"run at byte {n} is never closed"
  | unclosedText n => s!"text node at byte {n} is never closed"

end Warning

/-! ## Passes -/

/-- The result of one pass. -/
structure Pass where
  text : Bytes
  /-- How many tags, attributes or runs the pass removed. -/
  count : Nat := 0
  /-- How many empty property elements it removed. -/
  collapsed : Nat := 0
  warnings : List Warning := []
  deriving DecidableEq, Repr

/-- A pass at work: where it stands in the text, what it has removed and reported. -/
structure Sweep where
  cursor : Cursor
  count : Nat := 0
  warnings : List Warning := []
  deriving DecidableEq, Repr

namespace Sweep

/-- The start of a sweep over a text. -/
def ofText (text : Bytes) : Sweep := { cursor := .ofText text }

/-- Goes on `n` bytes. -/
def advance (s : Sweep) (n : Nat) : Sweep := { s with cursor := s.cursor.advance n }

/-- Reports a warning. -/
def warn (s : Sweep) (w : Warning) : Sweep := { s with warnings := s.warnings ++ [w] }

/-- Goes back to before the text and keeps what was removed and reported. -/
def rewind (s : Sweep) : Sweep := { s with cursor := .ofText s.cursor.text }

/-- What a sweep has done so far, as a finished pass. -/
def toPass (s : Sweep) : Pass :=
  { text := s.cursor.text, count := s.count, warnings := s.warnings }

/-! Where a sweep stands after each operation. -/

@[simp] theorem cursor_advance (s : Sweep) (n : Nat) :
    (s.advance n).cursor = s.cursor.advance n := rfl

@[simp] theorem cursor_warn (s : Sweep) (w : Warning) : (s.warn w).cursor = s.cursor := rfl

end Sweep

end DocxTemplate.Sanitize
