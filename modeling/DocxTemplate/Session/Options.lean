import DocxTemplate.Images
import DocxTemplate.Sanitize.Rules
import DocxTemplate.Text.Case
import DocxTemplate.Template.Substitution

/-! # Options of a session

    When a document is sanitized, how placeholders are replaced, and where packages are
    unpacked.
-/

namespace DocxTemplate

/-- When the document is sanitized. -/
inductive SanitizeMode where
  | off
  /-- Before placeholders are replaced. -/
  | before
  /-- After placeholders are replaced. -/
  | after
  deriving DecidableEq, Repr

namespace SanitizeMode

/-- The mode with a name. Blanks around it and the case of its letters do not matter. -/
def ofName? (name : String) : Option SanitizeMode :=
  match Case.lower (Blank.trim name) with
  | "off" | "none" => some off
  | "before" => some before
  | "after" => some after
  | _ => none

/-- The name of a mode. -/
def name : SanitizeMode → String
  | off => "off"
  | before => "before"
  | after => "after"

end SanitizeMode

/-- The options of a session. -/
structure Options where
  sanitize : SanitizeMode := .off
  rules : Sanitize.Rules := {}
  /-- Whether bare ampersands of the template are escaped. -/
  escapeAmpersands : Bool := true
  /-- Whether saving warns of a document that is not well-formed. -/
  verifyMarkup : Bool := true
  images : EmbedOptions := {}
  /-- Where workspaces are made; the directory for temporary files if not given. -/
  workspaceRoot? : Option Path := none
  keepWorkspace : Bool := false
  deriving DecidableEq, Repr

/-- A way to fill the text of a document with data. -/
structure Renderer where
  render : Bytes → Data → Job Bytes

namespace Renderer

/-- The renderer that replaces placeholders. It logs the names that have no value. -/
def ofSubstitution (s : Substitution) : Renderer where
  render := fun source data => do
    let missing := data.missing source
    if !missing.isEmpty then
      Job.log .debug ("no value for placeholders: " ++ ", ".intercalate missing)
    return s.render data source

/-- The renderer that always gives up. -/
def failing (reason : String) : Renderer where
  render := fun _ _ => throw (.template reason)

end Renderer

end DocxTemplate
