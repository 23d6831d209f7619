import DocxTemplate.Archive.Entry
import DocxTemplate.Disk.Fault

/-! # Errors

    What can keep a template from being filled or saved, and the wording of each cause.
-/

namespace DocxTemplate

/-- Why an archive cannot be opened or written. -/
inductive ArchiveFault where
  | file (fault : FileFault)
  | format (fault : Archive.FormatFault)
  deriving DecidableEq, Repr

/-- What reading an entry with a flaw fails with. -/
def ArchiveFault.ofFlaw : Archive.Flaw → ArchiveFault
  | .unsupported => .format .unsupported
  | .misplaced => .format .invalid
  | .locked => .format .locked
  | .truncated => .file .cutData
  | .corrupt => .file .corruptData

/-- The causes of failure. -/
inductive Error where
  /-- There is no template file. -/
  | inputNotFound (path : Path)
  /-- An archive cannot be opened, or one of its entries is damaged or unsafe. -/
  | archiveOpen (path : Path) (fault : ArchiveFault)
  /-- An archive cannot be written. -/
  | archivePack (path : Path) (fault : ArchiveFault)
  /-- Two images have one reference. -/
  | duplicateReference (reference : String)
  /-- There is no image file. -/
  | missingImageFile (path : Path)
  /-- The package lacks a part. -/
  | missingPart (name : String)
  /-- A part of the package cannot be read or extended. -/
  | malformedPart (part reason : String)
  /-- The renderer gave up. -/
  | template (reason : String)
  /-- There is nothing to save. -/
  | notRendered
  /-- A file operation failed. -/
  | io (path : Path) (fault : FileFault)
  deriving DecidableEq, Repr

/-- What a message about an archive says about the reason. -/
def ArchiveFault.suffix : ArchiveFault → String
  | file _ => ": i/o error"
  | format .locked => ": provided password is incorrect"
  | format .invalid | format .unsupported => ""

/-- The wording of an error. -/
def Error.message : Error → String
  | inputNotFound path => s!"template not found: {path.text}"
  | archiveOpen path fault => s!"cannot open archive {path.text}{fault.suffix}"
  | archivePack path fault => s!"cannot write archive {path.text}{fault.suffix}"
  | duplicateReference reference => s!"image reference already exists: {reference}"
  | missingImageFile path => s!"image file does not exist: {path.text}"
  | missingPart name => s!"package part missing: {name}"
  | malformedPart part reason => s!"malformed package part {part}: {reason}"
  | template reason => s!"template rendering failed: {reason}"
  | notRendered => "no rendered document; call render() first"
  | io path fault => s!"I/O error on {path.text}: {fault.message}"

end DocxTemplate
