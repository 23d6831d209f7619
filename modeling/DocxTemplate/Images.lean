import DocxTemplate.Package.ContentTypes
import DocxTemplate.Package.Relationships
import DocxTemplate.Workspace

/-! # Images

    Images are registered under references and embedded all at once: each file is copied
    into the package, linked from the relationships of the main document and, if asked
    for, given a content type.

    The two tables are extended in memory and written when all images are copied.
-/

namespace DocxTemplate

/-- How images are embedded. -/
structure EmbedOptions where
  /-- What stands before the reference in a relationship's identifier. -/
  idPrefix : String := "docxgen_"
  /-- Whether missing content types are declared. -/
  declareTypes : Bool := true
  deriving DecidableEq, Repr

/-- A registered image. -/
structure Image where
  reference : String
  path : Path
  deriving DecidableEq, Repr

/-- The registered images, in order of registration. -/
structure Images where
  entries : List Image := []
  deriving DecidableEq, Repr

namespace Images

/-- The image with a reference. -/
def get? (t : Images) (reference : String) : Option Image :=
  t.entries.find? (·.reference == reference)

/-- The number of images. -/
def size (t : Images) : Nat := t.entries.length

/-- Registers a file. A reference can be used once. -/
def add (t : Images) (reference : String) (path : Path) : Job Images := do
  if (t.get? reference).isSome then throw (.duplicateReference reference)
  if !(← Job.ask fun d => d.isFile path) then throw (.missingImageFile path)
  Job.log .debug s!"image {reference} -> {path.text}"
  return ⟨t.entries ++ [Image.mk reference path]⟩

/-- The table of some images, registered in order. -/
def ofList (images : List (String × Path)) : Job Images :=
  images.foldlM (fun t (reference, path) => t.add reference path) {}

end Images

namespace Embedding

/-! ## Relationships -/

/-- The relationships part of a workspace. A missing one is started empty. -/
def openRelationships (w : Workspace) : Job Bytes := do
  match ← Job.ask fun d => d.readText w.relationships with
  | .ok text => return text
  | .error (.system .notFound) =>
    Job.log .debug s!"{Part.relationships} missing; starting an empty one"
    match w.relationships.parent? with
    | some parent => Job.createDirectories parent
    | none => pure ()
    return Relationship.emptyPart
  | .error fault => throw (.io w.relationships fault)

/-- The error of a relationships part that cannot be read or extended. -/
def malformedRelationships (reason : String) : Error :=
  .malformedPart Part.relationships reason

/-- The error of a content types part that cannot be read or extended. -/
def malformedTypes (reason : String) : Error := .malformedPart Part.contentTypes reason

/-- Work on the images so far. -/
structure Progress where
  /-- The relationships part with the images linked. -/
  relationships : Bytes
  /-- The files copied, by the name they have in the package. -/
  copied : List (String × Path) := []
  /-- The extensions met, in lower case. -/
  extensions : List String := []

/-- Notes that `path` is now the file called `name`. -/
def Progress.noteCopy (p : Progress) (name : String) (path : Path) : List (String × Path) :=
  (name, path) :: p.copied.filter (·.1 != name)

/-- Notes the extension of a file. -/
def Progress.noteExtension (p : Progress) (path : Path) : List String :=
  match path.extension? with
  | none => p.extensions
  | some e =>
    let e := Case.lower e
    if p.extensions.contains e then p.extensions else p.extensions ++ [e]

/-- Warns if a file takes the place of another one. -/
def warnOverwrite (p : Progress) (name : String) (path : Path) : Job Unit :=
  match p.copied.lookup name with
  | some previous =>
    if previous.components != path.components then
      Job.log .warn s!"media/{name}: {path.text} overwrites {previous.text}"
    else pure ()
  | none => pure ()

/-- The error of a copy that failed. -/
def copyError (image : Image) (target : Path) : FileFault → Error
  | .system .notFound => .missingImageFile image.path
  | fault => .io target fault

/-- Copies and links one image. `existing` are the identifiers the package had before. -/
def embed (w : Workspace) (options : EmbedOptions) (existing : List String) (p : Progress)
    (image : Image) : Job Progress := do
  match image.path.fileName? with
  | none => throw (.missingImageFile image.path)
  | some name =>
    let id := options.idPrefix ++ image.reference
    if existing.contains id then throw (.duplicateReference image.reference)
    warnOverwrite p name image.path
    let target := w.media.join name
    Job.guard (copyError image target) (Act.change fun d => d.copy image.path target)
    let link := (Relationship.image id ("media/" ++ name)).element
    match Table.insertAfterRoot Relationship.root link p.relationships with
    | .error fault => throw (malformedRelationships fault.message)
    | .ok relationships =>
      return { relationships, copied := p.noteCopy name image.path,
               extensions := p.noteExtension image.path }

/-! ## Content Types -/

/-- Declares the types of extensions that are not declared yet, in order. Gives the new
    text and the number of declarations. -/
def declareAll (declared : List String) : List String → Nat × Bytes → Job (Nat × Bytes)
  | [], state => return state
  | e :: rest, (n, text) =>
    if declared.contains e then declareAll declared rest (n, text)
    else
      match ContentTypes.ofExtension? e with
      | none => do
        Job.log .warn s!"no known content type for .{e}; left undeclared"
        declareAll declared rest (n, text)
      | some type =>
        match Table.insertAfterRoot ContentTypes.root (ContentTypes.element e type) text with
        | .error fault => throw (malformedTypes fault.message)
        | .ok text => declareAll declared rest (n + 1, text)

/-- Declares the types of extensions in a workspace. -/
def declareTypes (w : Workspace) (extensions : List String) : Job Unit := do
  match ← Job.ask fun d => d.readText w.contentTypes with
  | .error (.system .notFound) =>
    Job.log .warn s!"{Part.contentTypes} missing; image content types not declared"
  | .error fault => throw (.io w.contentTypes fault)
  | .ok text =>
    match ContentTypes.declared text with
    | .error e => throw (malformedTypes e.message)
    | .ok declared =>
      let (n, text) ← declareAll declared extensions (0, text)
      if 0 < n then Job.write w.contentTypes (.plain text)

end Embedding

/-- Embeds all images of a table into a workspace. Gives their number. -/
def Images.embedAll (t : Images) (w : Workspace) (options : EmbedOptions) : Job Nat := do
  if t.entries.isEmpty then return 0
  Job.createDirectories w.media
  let relationships ← Embedding.openRelationships w
  match Relationship.readAll relationships with
  | .error e => throw (Embedding.malformedRelationships e.message)
  | .ok existing =>
    let done ← t.entries.foldlM (Embedding.embed w options (existing.map (·.id)))
      { relationships }
    Job.write w.relationships (.plain done.relationships)
    if options.declareTypes then Embedding.declareTypes w done.extensions
    Job.log .info s!"added {t.size} image(s) to {Part.relationships}"
    return t.size

end DocxTemplate
