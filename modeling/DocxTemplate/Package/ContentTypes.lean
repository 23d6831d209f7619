import DocxTemplate.Package.Table
import DocxTemplate.Text.Case
import DocxTemplate.Xml.Escape

/-! # Content types

    A package declares a content type for each file extension it uses.
-/

namespace DocxTemplate.ContentTypes

/-- The start of the outermost element of the content types part. -/
def root : String := "<Types"

/-- The content type of an image, by the extension in lower case. -/
def ofExtension? (extension : String) : Option String :=
  match extension with
  | "png" => some "image/png"
  | "jpg" | "jpeg" => some "image/jpeg"
  | "gif" => some "image/gif"
  | "bmp" => some "image/bmp"
  | "tif" | "tiff" => some "image/tiff"
  | "svg" => some "image/svg+xml"
  | "emf" => some "image/x-emf"
  | "wmf" => some "image/x-wmf"
  | _ => none

/-- The extensions a part declares, in order, in lower case and without blanks around. -/
def declared (source : Bytes) : Except Xml.Error (List String) :=
  (Table.entries "Default" source).map
    (List.filterMap fun attributes =>
      (Table.attribute? attributes "Extension").map fun e => Case.lower (Blank.trim e))

/-- The element that declares the type of an extension. -/
def element (extension type : String) : Bytes :=
  Bytes.ofString "<Default" ++ Xml.writeAttribute "Extension" extension
    ++ Xml.writeAttribute "ContentType" type ++ Bytes.ofString "/>"

end DocxTemplate.ContentTypes
