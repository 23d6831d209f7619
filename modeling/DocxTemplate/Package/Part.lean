/-! # Parts of a package

    The parts of a word-processing package that filling a template reads or writes.
-/

namespace DocxTemplate.Part

/-- The main document. -/
def document : String := "word/document.xml"

/-- The table of what the main document refers to. -/
def relationships : String := "word/_rels/document.xml.rels"

/-- The table that gives each part its type. -/
def contentTypes : String := "[Content_Types].xml"

/-- The directory of the embedded images. -/
def media : String := "word/media"

end DocxTemplate.Part
