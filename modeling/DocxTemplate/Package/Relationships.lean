import DocxTemplate.Package.Table
import DocxTemplate.Xml.Escape

/-! # Relationships

    The main document names the files it refers to by the identifiers of its
    relationships.
-/

namespace DocxTemplate

/-- An entry of a relationships part. -/
structure Relationship where
  id : String
  kind : String
  target : String
  deriving DecidableEq, Repr

namespace Relationship

/-- The kind of a relationship to an image. -/
def imageKind : String :=
  "http://schemas.openxmlformats.org/officeDocument/2006/relationships/image"

/-- A relationship to an image. -/
def image (id target : String) : Relationship := { id, kind := imageKind, target }

/-- The relationship with these attributes. What is missing is empty. -/
def ofAttributes (attributes : List (String × String)) : Relationship :=
  { id := (Table.attribute? attributes "Id").getD ""
    kind := (Table.attribute? attributes "Type").getD ""
    target := (Table.attribute? attributes "Target").getD "" }

/-- The relationships that a part lists, in order. -/
def readAll (source : Bytes) : Except Xml.Error (List Relationship) :=
  (Table.entries "Relationship" source).map (List.map ofAttributes)

/-- The element that states a relationship. -/
def element (r : Relationship) : Bytes :=
  Bytes.ofString "<Relationship" ++ Xml.writeAttribute "Id" r.id
    ++ Xml.writeAttribute "Type" r.kind ++ Xml.writeAttribute "Target" r.target
    ++ Bytes.ofString "/>"

/-- The start of the outermost element of a relationships part. -/
def root : String := "<Relationships"

/-- A relationships part with no entries. -/
def emptyPart : Bytes :=
  Bytes.ofString ("<?xml version=\"1.0\" encoding=\"UTF-8\" standalone=\"yes\"?>\r\n"
    ++ "<Relationships xmlns=\"http://schemas.openxmlformats.org/package/2006/relationships\">"
    ++ "</Relationships>")

end Relationship

end DocxTemplate
