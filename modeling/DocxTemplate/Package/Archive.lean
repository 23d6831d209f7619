import DocxTemplate.Package.Part
import DocxTemplate.World

/-! # Packages in archives

    A package is unpacked into a directory and packed up again.

    * `unpack` checks every entry before it touches the target directory.
    * `pack` writes the files of a directory in a fixed order: the content types part
      first, the others by name. Media are stored, everything else is deflated.
-/

namespace DocxTemplate

/-! ## Entry Names -/

/-- Whether a path that starts `depth` directories deep stays below the place it is
    counted from. -/
def Path.staysBelow : (depth : Nat) → List Path.Component → Bool
  | _, [] => true
  | _, .root :: _ => false
  | depth, .here :: rest => staysBelow depth rest
  | depth, .name _ :: rest => staysBelow (depth + 1) rest
  | 0, .up :: _ => false
  | depth + 1, .up :: rest => staysBelow depth rest

/-- Whether an entry name leads to a place below the directory it is unpacked to. -/
def Archive.Entry.isSafe (e : Archive.Entry) : Bool :=
  !e.name.toList.contains '\x00' && Path.staysBelow 0 (Path.components ⟨e.name⟩)

namespace Package

/-! ## Opening -/

/-- The entries of an archive, as the disk holds it. -/
def openEntries (d : Disk) (archive : Path) : Except ArchiveFault (List Archive.Entry) :=
  match d.content archive with
  | .error fault => .error (.file (.system fault))
  | .ok content => content.entries.mapError .format

/-- The entries of an archive. -/
def entries (archive : Path) : Job (List Archive.Entry) :=
  Job.guard (.archiveOpen archive) (Act.ask fun d => openEntries d archive)

/-- Refuses an entry whose data are out of reach. -/
def openEntry (e : Archive.Entry) : Except ArchiveFault Unit :=
  match e.flaw? with
  | some flaw => if flaw.isOuter then .error (.ofFlaw flaw) else .ok ()
  | none => .ok ()

/-- The data of an entry, as they were written. -/
def readEntry (e : Archive.Entry) : Except ArchiveFault Bytes :=
  match e.flaw? with
  | some flaw => .error (.ofFlaw flaw)
  | none => if e.intact then .ok e.data else .error (.file .badChecksum)

/-- Refuses an entry that leads out of the target or is damaged. The data of a directory
    do not matter. -/
def checkEntry (e : Archive.Entry) : Except ArchiveFault Unit := do
  openEntry e
  if !e.isSafe then throw (.file (.unsafeName e.name))
  if !e.isDirectory then
    let _ ← readEntry e

/-- Checks entries in order. -/
def checkEntries (entries : List Archive.Entry) : Except ArchiveFault Unit :=
  entries.forM checkEntry

/-! ## Unpacking -/

/-- Removes a directory and everything below it. One that is missing is fine. -/
def remove (p : Path) : Job Unit :=
  Job.guard (Job.systemError p) do
    match ← Act.attempt fun d => d.removeTree p with
    | .error .notFound => return .ok ()
    | result => return result

/-- Writes an entry below a directory, and tells how many files that makes. -/
def unpackEntry (target : Path) (e : Archive.Entry) : Job Nat := do
  let place := target.join e.name
  if e.isDirectory then
    Job.createDirectories place
    return 0
  else
    match place.parent? with
    | some parent => Job.createDirectories parent
    | none => pure ()
    Job.write place (.plain e.data)
    return 1

/-- Writes entries in order, and tells how many files that makes. -/
def unpackEntries (target : Path) : List Archive.Entry → Job Nat
  | [] => return 0
  | e :: rest => do
    let first ← unpackEntry target e
    let others ← unpackEntries target rest
    return first + others

/-- Replaces a directory by the content of an archive. Gives the number of files. -/
def unpack (archive target : Path) : Job Nat := do
  let entries ← entries archive
  Job.guard (.archiveOpen archive) (return checkEntries entries)
  remove target
  Job.createDirectories target
  let written ← unpackEntries target entries
  Job.log .debug s!"extracted {written} entries from {archive.text} into {target.text}"
  return written

/-! ## Packing -/

/-- The entry name of a file below the packed directory. -/
def entryName (names : Location) : String := "/".intercalate names

/-- How an entry is kept. -/
def methodFor (name : String) : Archive.Method :=
  if (Part.media ++ "/").toList.isPrefixOf name.toList then .stored else .deflated

/-- Files by entry name, the content types part before all others. -/
def ordered (files : List (Location × Content)) : List (String × Content) :=
  let named := files.map fun (names, content) => (entryName names, content)
  named.filter (·.1 == Part.contentTypes) ++ named.filter (·.1 != Part.contentTypes)

/-- The entries of the archive that some files make. -/
def entriesOf (files : List (Location × Content)) : List Archive.Entry :=
  (ordered files).map fun (name, content) => .make name (methodFor name) content.bytes

/-- Packs the files of a directory. Gives the number of entries. The archive is emptied
    before the files are read. -/
def pack (source archive : Path) : Job Nat := do
  let packError (fault : FileFault) : Error := .archivePack archive (.file fault)
  let listing (d : Disk) : Except FileFault (List (Location × Content)) :=
    (d.filesAt source).mapError (.listing source)
  let files ← Job.guard packError (Act.ask listing)
  Job.guard (fun fault => packError (.system fault))
    (Act.change fun d => d.write archive (.plain []))
  let files := (← Job.ask fun d => (d.filesAt source).toOption.getD []).filter
    fun (names, _) => files.any (·.1 == names)
  let entries := entriesOf files
  Job.guard (fun fault => packError (.system fault))
    (Act.change fun d => d.write archive (.archive entries))
  Job.log .debug s!"packed {entries.length} entries from {source.text} into {archive.text}"
  return entries.length

/-! ## Looking Inside -/

/-- The data of one entry. -/
def dataOf (archive : Path) (name : String) : Job Bytes := do
  let entries ← entries archive
  match entries.find? (·.name == name) with
  | none => throw (.missingPart name)
  | some e => Job.guard (.archiveOpen archive) (return readEntry e)

/-- The names of the entries, in order. -/
def names (archive : Path) : Job (List String) := do
  return (← entries archive).map (·.name)

end Package

end DocxTemplate
