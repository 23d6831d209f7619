import DocxTemplate.Sanitize.Token
import DocxTemplate.Text.Blank
import DocxTemplate.Xml.Event

/-! # Tables of a package

    A package keeps tables of entries, each an element inside the table's outermost
    element. They are read as events and extended as text: a new entry is put right behind
    the opening tag of the outermost element, and everything else stays as it is.
-/

namespace DocxTemplate.Table

/-! ## Reading -/

/-- A name without its namespace, which ends at the last colon. -/
def localName (name : String) : String :=
  String.ofList (name.toList.reverse.takeWhile (· != ':')).reverse

/-- The value of the first attribute with this local name. -/
def attribute? (attributes : List (String × String)) (key : String) : Option String :=
  (attributes.find? fun (k, _) => localName k == key).map (·.2)

/-- The attributes of an event that opens an element with this local name. -/
def attributesOf? (element : String) : Xml.Event → Option (List (String × String))
  | .start name attributes | .empty name attributes =>
    if localName name == element then some attributes else none
  | .close _ | .text _ => none

/-- The attributes of all elements with this local name, in order. -/
def entries (element : String) (source : Bytes) :
    Except Xml.Error (List (List (String × String))) :=
  (Xml.events source).map (List.filterMap (attributesOf? element))

/-! ## Extending -/

/-- Why a table cannot be extended. -/
inductive InsertFault where
  | noRoot (root : String)
  | unclosedRoot (root : String)
  deriving DecidableEq, Repr

/-- The wording of the reason. -/
def InsertFault.message : InsertFault → String
  | noRoot root => s!"no {root}> element"
  | unclosedRoot root => s!"{root} tag is not closed"

/-- Puts `fragment` right behind the opening tag of the first element whose tag starts with
    `root`, such as `<Types`. A root without content gets an end tag. -/
def insertAfterRoot (root : String) (fragment text : Bytes) : Except InsertFault Bytes :=
  let token := Bytes.ofString root
  match Sanitize.tokenIndex? token text with
  | none => .error (.noRoot root)
  | some start =>
    match Bytes.indexOf? ['>'.toUInt8] (text.drop start) with
    | none => .error (.unclosedRoot root)
    | some g =>
      let before := text.take (start + g)
      let rest := text.drop (start + g + 1)
      if before.getLast? == some '/'.toUInt8 then
        .ok (Blank.trimEnd before.dropLast ++ Bytes.ofString ">" ++ fragment
          ++ Bytes.ofString "</" ++ token.drop 1 ++ Bytes.ofString ">" ++ rest)
      else .ok (before ++ Bytes.ofString ">" ++ fragment ++ rest)

end DocxTemplate.Table
