import DocxTemplate.Xml.Markup

/-! # Events

    A text as a sequence of tags and character data. Comments, instructions and
    declarations leave no event. The reader keeps the names of the open elements and
    refuses an end tag that does not close the last of them; elements still open at the
    end are left to `WellFormed`.
-/

namespace DocxTemplate.Xml

/-- A tag or a piece of character data. -/
inductive Event where
  | start (name : String) (attributes : List (String × String))
  | close (name : String)
  | empty (name : String) (attributes : List (String × String))
  | text (content : String)
  deriving DecidableEq, Repr

namespace Event

/-- The elements that are open, the last one first. -/
abbrev Open := List Bytes

/-- A name for a message; empty if it cannot be read. -/
def nameInMessage (name : Bytes) : String := (Utf8.decode? name).getD ""

/-- Closes the last open element. -/
def closeElement (name : Bytes) : Open → Except StructureFault Open
  | [] => .error (.unmatchedEnd (nameInMessage name))
  | last :: others =>
    if name == last then .ok others
    else .error (.mismatchedEnd (nameInMessage last) (nameInMessage name))

/-- The event of a piece of markup, if it has one, and the elements open after it. -/
def ofMarkup (opened : Open) : Markup → Except Error (Option Event × Open)
  | .startTag content => do
    let attributes ← tagAttributes content
    let name := tagName content
    return (some (start (Utf8.decodeLossy name) attributes), name :: opened)
  | .emptyTag content => do
    let attributes ← tagAttributes content
    return (some (empty (Utf8.decodeLossy (tagName content)) attributes), opened)
  | .endTag name => do
    let others ← (closeElement name opened).mapError .structural
    return (some (close (Utf8.decodeLossy name)), others)
  | .cdata content => return (some (text (Utf8.decodeLossy content)), opened)
  | .other => return (none, opened)

/-- The events of a text inside the given open elements. -/
def readFrom (opened : Open) : Bytes → Except Error (List Event)
  | [] => .ok []
  | b :: rest =>
    if b == '<'.toUInt8 then do
      let (markup, n) ← Markup.read rest
      let (event?, opened) ← ofMarkup opened markup
      let events ← readFrom opened (rest.drop n)
      return event?.toList ++ events
    else do
      let more := rest.takeWhile (· != '<'.toUInt8)
      let content ← readText (b :: more)
      let events ← readFrom opened (rest.drop more.length)
      return text content :: events
termination_by source => source.length
decreasing_by all_goals (simp only [List.length_cons, List.length_drop]; omega)

/-- The mark that may stand before a text to say how it is encoded. -/
def byteOrderMark : Bytes := [0xEF, 0xBB, 0xBF]

/-- A text without the mark before it. -/
def skipMark (source : Bytes) : Bytes :=
  if byteOrderMark.isPrefixOf source then source.drop byteOrderMark.length else source

end Event

/-- The events of a text, or its first fault. -/
def events (source : Bytes) : Except Error (List Event) :=
  Event.readFrom [] (Event.skipMark source)

end DocxTemplate.Xml
