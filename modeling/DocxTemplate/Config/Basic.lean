import DocxTemplate.Session.Options
import DocxTemplate.Toml.Table

/-! # Configurations

    A configuration sets the defaults of a session. It is a TOML document with four sections:
    `render`, `sanitize`, `images` and `workspace`. What it does not mention keeps its
    default, and what it mentions beyond that is ignored.

    A section is a table, or an array with its fields in order. A moment in the place of a
    section sets nothing.
-/

namespace DocxTemplate

/-- A sanitizing mode that does not exist, and the setting that names it. -/
structure UnknownMode where
  setting : String
  name : String
  deriving DecidableEq, Repr

/-- The wording of the fault. -/
def UnknownMode.message (fault : UnknownMode) : String :=
  s!"invalid {fault.setting}: {fault.name} (off|before|after)"

/-- The mode that a setting names. -/
def SanitizeMode.ofSetting (setting name : String) : Except UnknownMode SanitizeMode :=
  match SanitizeMode.ofName? name with
  | some mode => .ok mode
  | none => .error { setting, name }

/-- The defaults of a session. -/
structure Config where
  /-- The name of the sanitizing mode. -/
  mode? : Option String := none
  escapeAmpersands : Bool := ({} : Options).escapeAmpersands
  verifyMarkup : Bool := ({} : Options).verifyMarkup
  substitution : Substitution := {}
  rules : Sanitize.Rules := {}
  images : EmbedOptions := {}
  /-- Where workspaces are made, as it is written. -/
  workspaceRoot? : Option Path := none
  keepWorkspace : Bool := ({} : Options).keepWorkspace
  deriving DecidableEq, Repr

/-! ## Values -/

namespace Toml

/-- The value of a string. -/
def asString? : Toml → Option String
  | string s => some s
  | _ => none

/-- The value of a boolean. -/
def asBool? : Toml → Option Bool
  | boolean b => some b
  | _ => none

/-- The values of an array of strings. -/
def asStrings? : Toml → Option (List String)
  | array items => items.mapM asString?
  | _ => none

/-- The fields of a section that are called `names` in this order. -/
def fields? (names : List String) : Toml → Option Entries
  | table _ entries => some entries
  | array items => some (names.zip items)
  | tables elements => some (names.zip (elements.map (table .explicit)))
  | moment _ => some []
  | _ => none

end Toml

namespace Toml.Entries

/-- The value of a key, read by `f`, or a default where the key is missing. -/
def getD? {α : Type} (entries : Entries) (key : String) (f : Toml → Option α) (default : α) :
    Option α :=
  match entries.get? key with
  | none => some default
  | some value => f value

/-- The fields of a section. -/
def section? (entries : Entries) (key : String) (names : List String) : Option Entries :=
  entries.getD? key (Toml.fields? names) []

end Toml.Entries

/-! ## Sections -/

namespace Config

open Toml (asString? asBool? asStrings?)

/-- The fields of the section on rendering. -/
def renderFields : List String :=
  ["sanitize", "escape_ampersands", "escape_values", "keep_unknown", "verify_markup"]

/-- The fields of the section on sanitizing. -/
def sanitizeFields : List String := ["strip_tags", "revision_attributes", "merge_runs"]

/-- The fields of the section on images. -/
def imageFields : List String := ["relationship_id_prefix", "register_content_types"]

/-- The fields of the section on workspaces. -/
def workspaceFields : List String := ["root", "keep"]

/-- The configuration of a document, if its values have the right types. -/
def ofToml? (entries : Toml.Entries) : Option Config := do
  -- A field that is not given keeps its initial value.
  let initial : Config := {}
  let render ← entries.section? "render" renderFields
  let sanitize ← entries.section? "sanitize" sanitizeFields
  let images ← entries.section? "images" imageFields
  let workspace ← entries.section? "workspace" workspaceFields
  return {
    mode? := ← render.getD? "sanitize" (fun v => (asString? v).map some) none
    escapeAmpersands := ← render.getD? "escape_ampersands" asBool? initial.escapeAmpersands
    verifyMarkup := ← render.getD? "verify_markup" asBool? initial.verifyMarkup
    substitution := {
      escapeValues :=
        ← render.getD? "escape_values" asBool? initial.substitution.escapeValues
      keepUnknown := ← render.getD? "keep_unknown" asBool? initial.substitution.keepUnknown }
    rules := {
      tags := ← sanitize.getD? "strip_tags" asStrings? initial.rules.tags
      attributes := ← sanitize.getD? "revision_attributes" asStrings? initial.rules.attributes
      mergeRuns := ← sanitize.getD? "merge_runs" asBool? initial.rules.mergeRuns }
    images := {
      idPrefix := ← images.getD? "relationship_id_prefix" asString? initial.images.idPrefix
      declareTypes :=
        ← images.getD? "register_content_types" asBool? initial.images.declareTypes }
    workspaceRoot? := ← workspace.getD? "root" (fun v => (asString? v).map (some ⟨·⟩)) none
    keepWorkspace := ← workspace.getD? "keep" asBool? initial.keepWorkspace }

/-! ## Options -/

/-- Where workspaces are made if the configuration comes from a directory: a relative path
    starts there. -/
def rootFrom (c : Config) (directory? : Option Path) : Option Path :=
  c.workspaceRoot?.map fun root =>
    match directory? with
    | some directory => directory.join root.text
    | none => root

/-- The options of a session. -/
def options (c : Config) (directory? : Option Path) : Except UnknownMode Options := do
  let sanitize ← match c.mode? with
    | some name => SanitizeMode.ofSetting "[render].sanitize" name
    | none => pure ({} : Options).sanitize
  return {
    sanitize
    rules := c.rules
    escapeAmpersands := c.escapeAmpersands
    verifyMarkup := c.verifyMarkup
    images := c.images
    workspaceRoot? := c.rootFrom directory?
    keepWorkspace := c.keepWorkspace }

end Config

end DocxTemplate
