import DocxTemplate.Archive.Zip.Read
import DocxTemplate.Archive.Zip.Write
import DocxTemplate.Disk.Fault

/-! # Disks

    A disk is a value: the files and directories that exist, each at its location. The
    operations are those of a file system without links and permissions. They take
    paths, which lead to a location step by step through directories that exist.

    * `Disk.locate`: the location a path leads to.
    * `Disk.find`: what exists there.
    * `Disk.write`, `Disk.createDirectory`, `Disk.removeTree`, `Disk.copy`: the disk after a
      change, or the reason why there is none.
    * `Disk.filesBelow`: the files of a tree, in an order that does not depend on how they
      came to be there.
-/

namespace DocxTemplate

/-- A place on a disk: the names that lead to it from the root. -/
abbrev Location := List String

/-- What a file holds. An archive is kept as its entries. -/
inductive Content where
  | plain (data : Bytes)
  | archive (entries : List Archive.Entry)
  deriving DecidableEq, Repr

namespace Content

/-- The bytes of a file. -/
def bytes : Content → Bytes
  | plain data => data
  | archive entries => Archive.Zip.write entries

/-- The entries of a file, if it is an archive. -/
def entries : Content → Except Archive.FormatFault (List Archive.Entry)
  | plain data => (Archive.Zip.read data).map Archive.distinct
  | archive entries => .ok (Archive.distinct entries)

end Content

/-- What exists at a location. -/
inductive Node where
  | directory
  | file (content : Content)
  deriving DecidableEq, Repr

/-- The files and directories that exist, and the directory that paths start from. The
    root directory always exists and is not listed. -/
structure Disk where
  nodes : List (Location × Node) := []
  current : Location := []
  deriving DecidableEq, Repr

namespace Disk

/-! ## Locations -/

/-- What exists at a location. -/
def node? (d : Disk) (l : Location) : Option Node :=
  if l.isEmpty then some .directory else d.nodes.lookup l

/-- Puts a node at a location, in place of what was there. -/
def put (d : Disk) (l : Location) (node : Node) : Disk :=
  if d.nodes.any (·.1 == l) then
    { d with nodes := d.nodes.map fun (k, old) => if k == l then (k, node) else (k, old) }
  else { d with nodes := d.nodes ++ [(l, node)] }

/-- Removes a location and everything below it. -/
def prune (d : Disk) (l : Location) : Disk :=
  { d with nodes := d.nodes.filter fun (k, _) => !l.isPrefixOf k }

/-- Removes everything below a location. -/
def clear (d : Disk) (l : Location) : Disk :=
  { d with nodes := d.nodes.filter fun (k, _) => !l.isPrefixOf k || k == l }

/-! ## Paths -/

/-- Where a segment of a path leads to from a directory. -/
def move (l : Location) (segment : String) : Location :=
  if Path.isVoid segment then l
  else if segment == ".." then l.dropLast
  else l ++ [segment]

/-- The length of the longest name, in bytes. -/
def longestName : Nat := 255

/-- The length of the longest path, in bytes. -/
def longestPath : Nat := 4095

/-- Follows the segments of a path from a location. Each has to start in a directory. -/
def follow (d : Disk) (l : Location) : List String → Except SystemFault Location
  | [] => .ok l
  | segment :: rest =>
    match d.node? l with
    | none => .error .notFound
    | some (.file _) => .error .notDirectory
    | some .directory =>
      if longestName < segment.utf8ByteSize then .error .nameTooLong
      else follow d (move l segment) rest

/-- The location a path leads to. Nothing needs to exist there, but everything on the
    way does. -/
def locate (d : Disk) (p : Path) : Except SystemFault Location :=
  if p.text.toList.contains '\x00' then .error .nulByte
  else if p.text.isEmpty then .error .notFound
  else if longestPath < p.text.utf8ByteSize then .error .nameTooLong
  else if p.isAbsolute then d.follow [] (p.segments.drop 1)
  else d.follow d.current p.segments

/-- What exists where a path leads to. -/
def find (d : Disk) (p : Path) : Except SystemFault (Location × Node) :=
  match d.locate p with
  | .error fault => .error fault
  | .ok l =>
    match d.node? l with
    | none => .error .notFound
    | some node => .ok (l, node)

/-- Whether a path leads to a file. -/
def isFile (d : Disk) (p : Path) : Bool :=
  match d.find p with
  | .ok (_, .file _) => true
  | _ => false

/-- Whether a path leads to a directory. -/
def isDirectory (d : Disk) (p : Path) : Bool :=
  match d.find p with
  | .ok (_, .directory) => true
  | _ => false

/-! ## Reading -/

/-- The content of a file. -/
def content (d : Disk) (p : Path) : Except SystemFault Content :=
  match d.find p with
  | .error fault => .error fault
  | .ok (_, .directory) => .error .isDirectory
  | .ok (_, .file content) => .ok content

/-- The bytes of a file. -/
def read (d : Disk) (p : Path) : Except SystemFault Bytes :=
  (d.content p).map Content.bytes

/-- The bytes of a file that holds UTF-8 text. -/
def readText (d : Disk) (p : Path) : Except FileFault Bytes :=
  match d.read p with
  | .error fault => .error (.system fault)
  | .ok text => if (Utf8.decode? text).isSome then .ok text else .error .notText

/-- Whether one list of names comes before another, name by name. -/
def namesBefore : Location → Location → Bool
  | [], _ => true
  | _ :: _, [] => false
  | a :: as, b :: bs => if a == b then namesBefore as bs else decide (a < b)

/-- The files below a location with the names that lead to them from there, ordered by
    these names. -/
def filesBelow (d : Disk) (l : Location) : List (Location × Content) :=
  let files := d.nodes.filterMap fun (k, node) =>
    match node with
    | .file content => if l.isPrefixOf k then some (k.drop l.length, content) else none
    | .directory => none
  files.mergeSort fun a b => namesBefore a.1 b.1

/-- The files of the tree that a path leads to. -/
def filesAt (d : Disk) (p : Path) : Except SystemFault (List (Location × Content)) :=
  (d.find p).map fun (l, _) => d.filesBelow l

/-- The names in the directory at a location. -/
def children (d : Disk) (l : Location) : List String :=
  d.nodes.filterMap fun (k, _) =>
    if k.dropLast == l && !k.isEmpty then k.getLast? else none

/-! ## Changing -/

/-- Writes a file, which may exist before. The path must not end in a slash. -/
def write (d : Disk) (p : Path) (content : Content) : Except SystemFault Disk :=
  match d.locate (if p.endsInSlash then p.withoutSlashes else p) with
  | .error fault => .error fault
  | .ok l =>
    if p.endsInSlash then .error .isDirectory
    else
      match d.node? l with
      | some .directory => .error .isDirectory
      | _ => .ok (d.put l (.file content))

/-- Makes a directory where nothing exists. -/
def createDirectory (d : Disk) (p : Path) : Except SystemFault Disk :=
  match d.locate p.withoutSlashes with
  | .error fault => .error fault
  | .ok l =>
    match d.node? l with
    | some _ => .error .alreadyExists
    | none => .ok (d.put l .directory)

/-- Makes the first of some paths a directory, given that each is the parent of the one
    before. Missing parents are made too, and stay even if a later step fails. -/
def createAll (d : Disk) : List Path → Disk × Except SystemFault Unit
  | [] => (d, .ok ())
  | p :: parents =>
    if p.text.isEmpty then (d, .ok ())
    else
      -- A fault does not count if there is a directory after all.
      let settle (d : Disk) (fault : SystemFault) : Disk × Except SystemFault Unit :=
        (d, if d.isDirectory p then .ok () else .error fault)
      match d.createDirectory p with
      | .ok d => (d, .ok ())
      | .error .notFound =>
        match createAll d parents with
        | (d, .error fault) => (d, .error fault)
        | (d, .ok _) =>
          match d.createDirectory p with
          | .ok d => (d, .ok ())
          | .error fault => settle d fault
      | .error fault => settle d fault

/-- Makes a directory and its missing parents. One that exists is fine. -/
def createDirectories (d : Disk) (p : Path) : Disk × Except SystemFault Unit :=
  d.createAll p.ancestors

/-- Removes a directory and everything below it. It is emptied first. Then it goes as well,
    unless the path led through something in it or does not name it. -/
def removeTree (d : Disk) (p : Path) : Disk × Except SystemFault Unit :=
  match d.find p with
  | .error fault => (d, .error fault)
  | .ok (_, .file _) => (d, .error .notDirectory)
  | .ok (l, .directory) =>
    let emptied := d.clear l
    match emptied.find p with
    | .error _ => (emptied, .ok ())
    | .ok _ =>
      if p.lastSegment? == some "." then (emptied, .error .invalidArgument)
      else (d.prune l, .ok ())

/-- Copies a file. A file copied onto itself ends up empty, since the target is emptied
    before the source is read. -/
def copy (d : Disk) (source target : Path) : Except FileFault Disk :=
  match d.find source with
  | .error fault => .error (.system fault)
  | .ok (_, .directory) => .error .notRegular
  | .ok (l, .file content) =>
    let isItself := match d.locate target with
      | .error _ => false
      | .ok m => l == m
    (d.write target (if isItself then .plain [] else content)).mapError .system

end Disk

end DocxTemplate
