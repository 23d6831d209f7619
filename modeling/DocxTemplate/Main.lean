import DocxTemplate.CommandLine.Output

/-! # The program

    A run is a function on disks. The program copies what the run may look at from the file
    system into a disk, runs the command there, and copies what has changed back.
-/

namespace DocxTemplate.Host

/-! ## From the File System -/

/-- The name of a location in the file system. -/
def nameOf (l : Location) : String := "/" ++ "/".intercalate l

/-- The content of a file, if it can be read. -/
def readFile? (name : String) : IO (Option ByteArray) := do
  try return some (← IO.FS.readBinFile name)
  catch _ => return none

/-- What exists at a location. -/
def probe? (l : Location) : IO (Option Node) := do
  if ← ((← IO.currentDir) / nameOf l).isDir then return some .directory
  else return (← readFile? (nameOf l)).map fun data => .file (.plain data.toList)

/-- The names in a directory. -/
def namesIn (l : Location) : IO (List String) := do
  try return (← ((← IO.currentDir) / nameOf l).readDir).toList.map (·.fileName)
  catch _ => return []

/-- Copies a location to a disk. -/
def load (d : Disk) (l : Location) : IO Disk := do
  if (d.node? l).isSome then return d
  else
    match ← probe? l with
    | some node => return d.put l node
    | none => return d

/-- The locations on the way of a path. -/
def trail (d : Disk) (p : Path) : List Location :=
  let start := if p.isAbsolute then [] else d.current
  (p.segments.foldl
    (fun (l, passed) segment =>
      let next := Disk.move l segment
      (next, passed ++ [next]))
    (start, [start])).2

/-- Copies what a path leads to, and all on the way, to a disk. -/
def loadPath (d : Disk) (p : Path) : IO Disk := (trail d p).foldlM load d

/-- Notes that something exists at a location. What it is does not matter. -/
def mark (d : Disk) (l : Location) : Disk :=
  if (d.node? l).isSome then d else d.put l .directory

/-- Copies the names in a directory to a disk. What is not there yet becomes a directory. -/
def loadNames (d : Disk) (p : Path) : IO Disk := do
  let d ← loadPath d p
  match d.locate p with
  | .error _ => return d
  | .ok l => return (← namesIn l).foldl (fun d name => mark d (l ++ [name])) d

/-! ## What a Run Looks At -/

/-- The paths that arguments lead to. -/
def pathsOf (environment : String) (a : Arguments) : List Path :=
  let images := a.images.filterMap fun text => (Assignment.read text).toOption.map (·.value)
  let searched := a.template?.toList.flatMap fun template =>
    ConfigSearch.candidates (Command.directory template)
  let output := a.output? <|> a.template?.map Command.defaultOutput
  a.template?.toList ++ output.toList ++ a.data?.toList ++ a.config?.toList
    ++ (⟨environment⟩ :: images.map (⟨·⟩)) ++ searched

/-- Where a run makes its workspace. -/
def workspacesOf (w : World) (environment : String) (a : Arguments) : Path :=
  let root? : Option Path := do
    let template ← a.template?
    let manner ← (Command.mannerOf w.disk environment a template).toOption
    manner.options.workspaceRoot?
  root?.getD w.temporary

/-- A world that holds all that a run looks at. -/
def loadWorld (w : World) (environment : String) (words : List String) : IO World := do
  match Arguments.read? words with
  | some (.run a) => do
    let searched := ConfigSearch.candidates (Workspace.currentPath w.disk)
    let disk ← (searched ++ pathsOf environment a).foldlM loadPath w.disk
    let w := { w with disk }
    let disk ← loadNames disk (workspacesOf w environment a)
    return { w with disk }
  | _ => return w

/-! ## To the File System -/

/-- Copies a node to the file system. -/
def store (l : Location) : Node → IO Unit
  | .directory => IO.FS.createDirAll (nameOf l)
  | .file content => IO.FS.writeBinFile (nameOf l) ⟨content.bytes.toArray⟩

/-- Copies what has changed to the file system. A run removes nothing but its own workspace,
    which was not there before. -/
def storeChanges (before after : Disk) : IO Unit :=
  after.nodes.forM fun (l, node) =>
    if before.node? l = some node then pure () else store l node

end DocxTemplate.Host

open DocxTemplate

/-- Runs the command on the file system. -/
def main (words : List String) : IO UInt32 := do
  let environment := (← IO.getEnv ConfigSearch.variableName).getD ""
  let temporary := (← IO.getEnv "TMPDIR").getD "/tmp"
  let current := (Split.on '/' (← IO.currentDir).toString).filter (· != "")
  let empty : World :=
    { disk := { current }, temporary := ⟨temporary⟩, serial := ← IO.rand 0 999999 }
  let before ← Host.loadWorld empty environment words
  let (outcome, after) := Command.run environment words before
  Host.storeChanges before.disk after.disk
  IO.print outcome.stdout
  IO.eprint outcome.stderr
  return outcome.code
