import DocxTemplate.Xml.Event

/-! # Well-formed texts

    A text is well-formed if it can be read and has exactly one outermost element, with
    every element closed.
-/

namespace DocxTemplate.Xml

/-- Why a text is not well-formed. -/
inductive Malformed where
  | unreadable (error : Error)
  | mismatched (closed opened : String)
  | unmatched (closed : String)
  | neverClosed (name : String)
  | noRoot
  | severalRoots (count : Nat)
  deriving DecidableEq, Repr

/-- The wording of a reason. -/
def Malformed.message : Malformed → String
  | unreadable error => error.message
  | mismatched closed opened => s!"</{closed}> closes <{opened}>"
  | unmatched closed => s!"</{closed}> without matching start"
  | neverClosed name => s!"<{name}> is never closed"
  | noRoot => "no root element"
  | severalRoots count => s!"{count} root elements"

/-- The elements that are open, the last one first, and the number of outermost elements
    so far. -/
structure Nesting where
  opened : List String := []
  roots : Nat := 0
  deriving DecidableEq, Repr

namespace Nesting

/-- Counts an element that stands in no other. -/
def enter (n : Nesting) : Nesting :=
  { n with roots := if n.opened.isEmpty then n.roots + 1 else n.roots }

/-- The nesting behind an event. -/
def step (n : Nesting) : Event → Except Malformed Nesting
  | .start name _ => .ok { n.enter with opened := name :: n.opened }
  | .empty _ _ => .ok n.enter
  | .text _ => .ok n
  | .close name =>
    match n.opened with
    | [] => .error (.unmatched name)
    | last :: others =>
      if last = name then .ok { n with opened := others } else .error (.mismatched name last)

/-- Whether a nesting may stand at the end of a text. -/
def finish (n : Nesting) : Except Malformed Unit :=
  match n.opened, n.roots with
  | last :: _, _ => .error (.neverClosed last)
  | [], 1 => .ok ()
  | [], 0 => .error .noRoot
  | [], count => .error (.severalRoots count)

end Nesting

/-- Checks that events have one root and that all its elements are closed. -/
def checkNesting (events : List Event) : Except Malformed Unit := do
  (← events.foldlM Nesting.step {}).finish

/-- Checks a whole text. -/
def check (source : Bytes) : Except Malformed Unit := do
  checkNesting (← (events source).mapError .unreadable)

end DocxTemplate.Xml
