import DocxTemplate.Archive.Zip.Basic

/-! # The end of a zip file

    The record at the end says where the directory is. Its numbers count from the start of
    the archive, which need not be the start of the file: the first line of the directory
    shows how far the two are apart.

    An archive with numbers too large for this record has a second, wider one in front of
    it, and between the two a locator that tells where the wider one is.
-/

namespace DocxTemplate.Archive.Zip

/-- What the end of an archive says about it. -/
structure Ending where
  /-- How many bytes the file has in front of the archive. -/
  shift : Nat
  /-- Where the directory starts, counted from the start of the archive. -/
  offset : Nat
  /-- The number of lines in the directory. -/
  count : Nat
  deriving DecidableEq, Repr

/-- Where the directory starts, counted from the start of the file. -/
def Ending.directory (e : Ending) : Nat := e.offset + e.shift

/-- The number that a 16-bit field has if the wider record holds its value. -/
def noNumber16 : Nat := 0xFFFF

/-- The number that a 32-bit field has if the wider record holds its value. -/
def noNumber32 : Nat := 0xFFFFFFFF

/-! ## The Narrow Record -/

/-- The first line of the directory, searched from where it would stand without any bytes
    in front of the archive. -/
def firstLine? (file : Array UInt8) (offset place : Nat) : Option Nat :=
  searchMark file lineMark offset place some

/-- The ending whose record stands at a place. Of the two numbers of entries, the one of
    all disks tells whether there are any, and the one of this disk how many. -/
def narrowEnding? (file : Array UInt8) (place : Nat) : Option Ending := do
  let disk ← numberAt file (place + 4) 2
  let directoryDisk ← numberAt file (place + 6) 2
  let count ← numberAt file (place + 8) 2
  let total ← numberAt file (place + 10) 2
  let offset ← numberAt file (place + 16) 4
  let start ← if total = 0 then some (max place offset) else firstLine? file offset place
  guard (disk = directoryDisk)
  return { shift := start - offset, offset, count }

/-! ## The Wide Record -/

/-- The record that tells where the wide one is. -/
structure Locator where
  place : Nat
  disk : Nat
  offset : Nat
  deriving DecidableEq, Repr

/-- The locator in front of the record at a place. -/
def locator? (file : Array UInt8) (place : Nat) : Option (Locator × Nat) := do
  guard (20 ≤ place && hasMark file locatorMark (place - 20))
  let disk ← numberAt file (place - 16) 4
  let offset ← numberAt file (place - 12) 8
  let disks ← numberAt file (place - 4) 4
  return ({ place := place - 20, disk, offset }, disks)

/-- The wide record at a place, if it agrees with its locator: the record reaches up to it
    and leaves room for the lines of the directory in front. The second value tells whether
    it is on the disk that the directory is on, counts no entry twice, and asks for no newer
    version than the one that wrote it. -/
def wideRecord? (file : Array UInt8) (l : Locator) (place : Nat) : Option (Ending × Bool) := do
  let size ← numberAt file (place + 4) 8
  let version ← numberAt file (place + 12) 2
  let needed ← numberAt file (place + 14) 2
  let disk ← numberAt file (place + 16) 4
  let directoryDisk ← numberAt file (place + 20) 4
  let here ← numberAt file (place + 24) 8
  let count ← numberAt file (place + 32) 8
  let offset ← numberAt file (place + 48) 8
  guard (44 ≤ size && place + 12 + size == l.place && directoryDisk == l.disk
    && count * 46 + offset ≤ place)
  return ({ shift := place - l.offset, offset, count },
    disk == directoryDisk && here ≤ count && needed ≤ version)

/-- The ending whose wide record a locator tells. -/
def wideEnding? (file : Array UInt8) (l : Locator) (disks : Nat) : Option Ending := do
  guard (disks ≤ 1)
  let (ending, sound) ← searchMark file wideEndMark l.offset l.place (wideRecord? file l)
  guard sound
  return ending

/-! ## Both -/

/-- The ending whose last record stands at a place. A comment may follow, but has to end
    with the file. A missing locator is no fault: the narrow record counts then. -/
def ending? (file : Array UInt8) (place : Nat) : Option Ending := do
  guard (hasMark file endMark place)
  let total ← numberAt file (place + 10) 2
  let offset ← numberAt file (place + 16) 4
  let comment ← numberAt file (place + 20) 2
  guard (place + 22 + comment ≤ file.size)
  match if total = noNumber16 ∨ offset = noNumber32 then locator? file place else none with
  | some (l, disks) => wideEnding? file l disks
  | none => narrowEnding? file place

end DocxTemplate.Archive.Zip
