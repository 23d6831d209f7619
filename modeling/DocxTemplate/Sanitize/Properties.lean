import DocxTemplate.Sanitize.Rules

/-! # Empty properties

    A run or a paragraph may say how it looks. Where sanitizing has emptied such an
    element it is removed, in each of the ways an empty element is written.
-/

namespace DocxTemplate.Sanitize

/-- The written forms of empty run and paragraph properties. -/
def emptyForms : List String :=
  ["<w:rPr></w:rPr>", "<w:pPr></w:pPr>", "<w:rPr/>", "<w:pPr/>"]

/-- Deletes each form in turn, and counts what was deleted. -/
def removeEmptyProperties (text : Bytes) : Pass :=
  emptyForms.foldl
    (fun pass form =>
      let (n, kept) := Bytes.eraseAll (Bytes.ofString form) pass.text
      { pass with text := kept, collapsed := pass.collapsed + n })
    { text }

end DocxTemplate.Sanitize
