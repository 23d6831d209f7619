import DocxTemplate.Package.Archive

/-! # Workspaces

    A workspace is a directory of its own for one unpacked package. It is removed when it
    is released, unless it is to be kept.
-/

namespace DocxTemplate

/-- A directory that holds one package. -/
structure Workspace where
  root : Path
  /-- Whether the directory stays when the workspace is released. -/
  kept : Bool := false
  deriving DecidableEq, Repr

namespace Workspace

/-! ## Names -/

/-- What the names of all workspaces start with. -/
def namePrefix : String := "docxgen_"

/-- A number written with six digits at least. -/
def sixDigits (n : Nat) : String :=
  let digits := (Nat.toDigits 10 n)
  String.ofList (List.replicate (6 - digits.length) '0' ++ digits)

/-- The path of the directory a relative path starts from. -/
def currentPath (d : Disk) : Path := ⟨"/" ++ "/".intercalate d.current⟩

/-- A path that does not depend on the current directory. -/
def absolute (d : Disk) (p : Path) : Path :=
  if p.isAbsolute then p else (currentPath d).join p.text

/-- The number of the first unused name in a directory, counted from `serial` on. More
    names are tried than there are nodes on the disk, so one of them is unused. -/
def unusedSerial (d : Disk) (directory : Path) (serial : Nat) : Nat :=
  let isUnused (n : Nat) : Bool :=
    match d.find (directory.join (namePrefix ++ sixDigits n)) with
    | .error _ => true
    | .ok _ => false
  serial + ((List.range (d.nodes.length + 1)).find? fun i => isUnused (serial + i)).getD 0

/-- An unused path for a workspace in a directory. -/
def freshRoot (directory : Path) : Act Path := fun w =>
  let directory := absolute w.disk directory
  let n := unusedSerial w.disk directory w.serial
  (directory.join (namePrefix ++ sixDigits n), { w with serial := n + 1 })

/-! ## Life -/

/-- Makes an empty workspace in a directory, which is made too if it is missing. -/
def create (directory : Path) : Job Workspace := do
  Job.createDirectories directory
  let root ← Job.ofAct (freshRoot directory)
  Job.guard (Job.systemError directory) (Act.change fun d => d.createDirectory root)
  Job.log .debug s!"created workspace {root.text}"
  return { root }

/-- Gives a workspace up. -/
def release (w : Workspace) : Act Unit := do
  if w.kept then Act.log .info s!"keeping workspace {w.root.text}"
  else
    match ← Act.ofJob (Package.remove w.root) with
    | .ok _ => pure ()
    | .error e => Act.log .warn s!"failed to remove workspace {w.root.text}: {e.message}"

/-! ## Parts -/

/-- Where a part of the package is. -/
def pathOf (w : Workspace) (part : String) : Path :=
  ((Split.on '/' part).filter (· != "")).foldl Path.join w.root

/-- Where the main document is. -/
def document (w : Workspace) : Path := w.pathOf Part.document

/-- Where the relationships of the main document are. -/
def relationships (w : Workspace) : Path := w.pathOf Part.relationships

/-- Where the content types are. -/
def contentTypes (w : Workspace) : Path := w.pathOf Part.contentTypes

/-- Where the images are. -/
def media (w : Workspace) : Path := w.pathOf Part.media

end Workspace

end DocxTemplate
