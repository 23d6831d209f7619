import DocxTemplate.Sanitize.Report
import DocxTemplate.Session.Options
import DocxTemplate.Xml.WellFormed

/-! # Sessions

    A session fills one template at a time. After a successful `render` it holds the
    unpacked package, the new text of the main document and the images to embed, and `save`
    can write them any number of times. A new `render` starts by giving up what the last
    one left.

    Each operation gives the session behind it and its result, so what a failed operation
    leaves is part of its definition.
-/

namespace DocxTemplate

/-- What a session holds. -/
structure Session where
  options : Options := {}
  renderer : Renderer := .ofSubstitution {}
  /-- The unpacked package of the last successful rendering. -/
  workspace? : Option Workspace := none
  /-- The text of its main document. -/
  content? : Option Bytes := none
  /-- The images that the next saving embeds. -/
  images : Images := {}
  /-- The sanitizing warnings of the last rendering. -/
  warnings : List Sanitize.Warning := []

/-- What a template asks for. -/
structure Inspection where
  /-- The names of the placeholders, in order of first appearance. -/
  placeholders : List String
  /-- Those that show only in the sanitized document. -/
  split : List String
  warnings : List Sanitize.Warning
  deriving DecidableEq, Repr

namespace Session

/-! ## Documents -/

/-- Unpacks a template into a new workspace. -/
def unpackTemplate (options : Options) (template : Path) : Job Workspace := do
  let root ← match options.workspaceRoot? with
    | some root => pure root
    | none => Job.ofAct fun w => (w.temporary, w)
  let workspace ← Workspace.create root
  let workspace := { workspace with kept := options.keepWorkspace }
  let _ ← (Package.unpack template workspace.root).onError workspace.release
  return workspace

/-- The text of the main document. -/
def documentText (w : Workspace) : Job Bytes := do
  match ← Job.ask fun d => d.readText w.document with
  | .ok text => return text
  | .error (.system .notFound) => throw (.missingPart Part.document)
  | .error fault => throw (.io w.document fault)

/-- The source of a document: its text, with bare ampersands escaped if asked for. -/
def sourceOf (options : Options) (text : Bytes) : Bytes :=
  if options.escapeAmpersands then Xml.escapeLoneAmpersands text else text

/-- Sanitizes a text and logs what was done. -/
def sanitizeWithLog (rules : Sanitize.Rules) (text : Bytes) :
    Act (List Sanitize.Warning × Bytes) := do
  let report := DocxTemplate.sanitize rules text
  Act.log .debug (s!"sanitized {Part.document}: {report.markers} tag(s), "
    ++ s!"{report.attributes} attribute(s), "
    ++ s!"{report.properties} empty propert(ies), {report.joins} run join(s)")
  report.warnings.forM fun w => Act.log .warn s!"{Part.document}: {w.message}"
  return (report.warnings, report.text)

/-- Sanitizes a text if the options ask for it at this point. -/
def sanitizeAt (point : SanitizeMode) (options : Options) (text : Bytes) :
    Act (List Sanitize.Warning × Bytes) :=
  if options.sanitize = point then sanitizeWithLog options.rules text else return ([], text)

/-- Fills the main document of a workspace. Gives the warnings on the way, also if the
    rendering fails. -/
def fillDocument (s : Session) (w : Workspace) (data : Data) :
    Act (List Sanitize.Warning × Except Error Bytes) := do
  match ← Act.ofJob (documentText w) with
  | .error e => return ([], .error e)
  | .ok text =>
    let (before, source) ← sanitizeAt .before s.options (sourceOf s.options text)
    match ← Act.ofJob (s.renderer.render source data) with
    | .error e => return (before, .error e)
    | .ok rendered =>
      let (after, content) ← sanitizeAt .after s.options rendered
      return (before ++ after, .ok content)

/-! ## Operations -/

/-- The session with nothing rendered. Its workspace is released. -/
def reset (s : Session) : Act Session := do
  match s.workspace? with
  | some w => w.release
  | none => pure ()
  return { options := s.options, renderer := s.renderer }

/-- Fills a template with data, and registers images for the next saving. -/
def render (s : Session) (template : Path) (data : Data) (images : List (String × Path)) :
    Act (Session × Except Error Unit) := do
  if !(← Act.ask fun d => d.isFile template) then
    return (s, .error (.inputNotFound template))
  -- From here on the last document is gone, whether or not this one succeeds.
  let s ← s.reset
  match ← Act.ofJob (Images.ofList images) with
  | .error e => return (s, .error e)
  | .ok table =>
    match ← Act.ofJob (unpackTemplate s.options template) with
    | .error e => return (s, .error e)
    | .ok workspace =>
      match ← s.fillDocument workspace data with
      | (warnings, .error e) =>
        -- The new workspace belongs to no session yet.
        workspace.release
        return ({ s with warnings }, .error e)
      | (warnings, .ok content) =>
        Act.log .info (s!"rendered {template.text} ({data.size} variable(s), "
          ++ s!"{table.size} image(s))")
        return ({ s with
          workspace? := some workspace
          content? := some content
          images := table
          warnings }, .ok ())

/-- Registers an image for the next saving. -/
def register (s : Session) (reference : String) (path : Path) :
    Act (Session × Except Error Unit) := do
  match ← Act.ofJob (s.images.add reference path) with
  | .error e => return (s, .error e)
  | .ok images => return ({ s with images }, .ok ())

/-- Writes a document into its workspace and packs the workspace. -/
def store (options : Options) (w : Workspace) (content : Bytes) (output : Path) : Job Unit := do
  if options.verifyMarkup then
    match Xml.check content with
    | .ok _ => pure ()
    | .error reason =>
      Job.log .warn s!"rendered {Part.document} is not well-formed: {reason.message}"
  Job.write w.document (.plain content)
  let entries ← Package.pack w.root output
  Job.log .info s!"saved {output.text} ({entries} entries)"

/-- Embeds the registered images and writes the document to `output`. Images that are
    embedded are no longer registered, whatever becomes of the output. -/
def save (s : Session) (output : Path) : Act (Session × Except Error Unit) := do
  match s.workspace?, s.content? with
  | some w, some content =>
    match ← Act.ofJob (s.images.embedAll w s.options.images) with
    | .error e => return (s, .error e)
    | .ok _ =>
      let result ← Act.ofJob (store s.options w content output)
      return ({ s with images := {} }, result)
  | _, _ => return (s, .error .notRendered)

/-- What a source asks for, before and after sanitizing. -/
def inspectSource (rules : Sanitize.Rules) (source : Bytes) : Inspection :=
  let raw := DocxTemplate.placeholderNames source
  let report := DocxTemplate.sanitize rules source
  let found := DocxTemplate.placeholderNames report.text
  { placeholders := found
    split := found.filter fun name => !raw.contains name
    warnings := report.warnings }

/-- Tells what a template asks for. -/
def inspect (s : Session) (template : Path) : Job Inspection := do
  if !(← Job.ask fun d => d.isFile template) then throw (.inputNotFound template)
  let workspace ← unpackTemplate s.options template
  let text ← (documentText workspace).ensuring workspace.release
  return inspectSource s.options.rules (sourceOf s.options text)

/-- Gives up what was rendered and removes its workspace, even one that is to be kept. -/
def discard (s : Session) : Act (Session × Except Error Unit) := do
  let rest := { s with content? := none, workspace? := none }
  match s.workspace? with
  | none => return (rest, .ok ())
  | some w =>
    Workspace.release { w with kept := true }
    return (rest, ← Act.ofJob (Package.remove w.root))

/-- Ends a session. -/
def finish (s : Session) : Act Unit :=
  match s.workspace? with
  | some w => w.release
  | none => pure ()

end Session

end DocxTemplate
