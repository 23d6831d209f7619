import DocxTemplate.Text.Blank
import DocxTemplate.Text.Split

/-! # Assignments

    An assignment on the command line is a key and a value around the first `=`. Blanks
    around the key do not count; the value is taken as it is.
-/

namespace DocxTemplate

/-- A key and its value. -/
structure Assignment where
  key : String
  value : String
  deriving DecidableEq, Repr

namespace Assignment

/-- Why a text is no assignment. -/
inductive Fault where
  | noEquals
  | emptyKey
  deriving DecidableEq, Repr

/-- The wording of a fault. -/
def Fault.message : Fault → String
  | noEquals => "expected KEY=VALUE"
  | emptyKey => "empty key"

/-- Reads an assignment. -/
def read (s : String) : Except Fault Assignment :=
  match Split.once? '=' s with
  | none => .error .noEquals
  | some (before, value) =>
    let key := Blank.trim before
    if key == "" then .error .emptyKey else .ok { key, value }

end Assignment

end DocxTemplate
