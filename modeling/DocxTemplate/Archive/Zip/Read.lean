import DocxTemplate.Archive.Entry
import DocxTemplate.Archive.Inflate
import DocxTemplate.Archive.Zip.Line

/-! # Reading zip files

    A file is an archive if one of the places that look like its end leads to a directory
    that can be read, with lines that place all records in front of it; the last such place
    counts. Records of entries are looked at one by one: what is wrong with one of them
    keeps the data of that entry from being read, but no other.
-/

namespace DocxTemplate.Archive.Zip

/-! ## Entries -/

/-- Where the data of the entry start whose record stands at a place. The record has
    lengths of its own for what stands between. -/
def dataStart? (file : Array UInt8) (place : Nat) : Option Nat := do
  guard (hasMark file entryMark place)
  let nameLength ← numberAt file (place + 26) 2
  let extraLength ← numberAt file (place + 28) 2
  return place + 30 + nameLength + extraLength

/-- The flaw of data that cannot be inflated. -/
def flawOf : Inflate.Fault → Flaw
  | .ended => .truncated
  | .broken => .corrupt

/-- The data that are kept by a method. -/
def unpack (method : Method) (kept : Bytes) : Except Flaw Bytes :=
  match method with
  | .stored => .ok kept
  | .deflated => (inflate kept).mapError flawOf

/-- The data of the entry whose record stands at a place. The file may end too early:
    then the data do, too. -/
def dataAt (file : Array UInt8) (place : Nat) (line : Line) : Except Flaw (Method × Bytes) := do
  if line.encrypted then throw .unsupported
  let some start := dataStart? file place | throw .misplaced
  let some method := Method.ofNumber? line.method | throw .unsupported
  if line.keyed then throw .locked
  let data ← unpack method (file.extract start (start + line.packedSize)).toList
  return (method, data)

/-- The entry of a line. -/
def entryOf (file : Array UInt8) (place : Nat) (line : Line) : Entry :=
  match dataAt file place line with
  | .ok (method, data) => { name := line.name, method, data, checksum := line.checksum.toUInt32 }
  | .error flaw => .flawed line.name flaw

/-! ## Archives -/

/-- The entries of the next `n` lines from a position on. Their records have to start in
    front of the directory. -/
def entriesAt (file : Array UInt8) (e : Ending) : (n position : Nat) → Option (List Entry)
  | 0, _ => some []
  | n + 1, position => do
    let (line, next) ← lineAt? file position
    let place := line.offset + e.shift
    guard (place < e.directory)
    let others ← entriesAt file e n next
    return entryOf file place line :: others

/-- The entries of the archive whose last record stands at a place. -/
def entriesOf? (file : Array UInt8) (place : Nat) : Option (List Entry) := do
  let e ← ending? file place
  entriesAt file e e.count e.directory

/-- The entries of the archive in a file. -/
def read (text : Bytes) : Except FormatFault (List Entry) :=
  let file := text.toArray
  match searchDown (entriesOf? file) file.size with
  | some entries => .ok entries
  | none => .error .invalid

end DocxTemplate.Archive.Zip
