import DocxTemplate.Archive.Checksum

/-! # Archive entries

    An archive is a list of named entries, each with the checksum that its data had when
    it was written. An entry is intact while the two agree.

    An entry name says where the entry belongs below a directory. It is `Safe` if no
    part of it leads out of that directory.
-/

namespace DocxTemplate.Archive

/-- How the data of an entry are kept. -/
inductive Method where
  | stored
  | deflated
  deriving DecidableEq, Repr

/-- The number that stands for a method in files. -/
def Method.number : Method → Nat
  | stored => 0
  | deflated => 8

/-- The method that a number stands for. -/
def Method.ofNumber? : Nat → Option Method
  | 0 => some stored
  | 8 => some deflated
  | _ => none

/-- The number of a method stands for no other method. -/
theorem Method.ofNumber?_number (m : Method) : ofNumber? m.number = some m := by
  cases m <;> rfl

/-- What keeps the data of an entry from being read. -/
inductive Flaw where
  /-- The data are encrypted, or packed by another method. -/
  | unsupported
  /-- The archive has no record of the entry where it says. -/
  | misplaced
  /-- The entry names a key, but its data are not encrypted. -/
  | locked
  /-- The packed data end too early. -/
  | truncated
  /-- The packed data contradict themselves. -/
  | corrupt
  deriving DecidableEq, Repr

/-- Whether a flaw shows before the data are looked at. -/
def Flaw.isOuter : Flaw → Bool
  | truncated | corrupt => false
  | unsupported | misplaced | locked => true

/-- An entry of an archive. One with a flaw is known by its name only. -/
structure Entry where
  name : String
  method : Method
  data : Bytes
  checksum : UInt32
  flaw? : Option Flaw := none
  deriving DecidableEq, Repr

namespace Entry

/-- An entry as it is written. -/
def make (name : String) (method : Method) (data : Bytes) : Entry :=
  { name, method, data, checksum := crc32 data }

/-- An entry whose data cannot be read. -/
def flawed (name : String) (flaw : Flaw) : Entry :=
  { make name .stored [] with flaw? := some flaw }

/-- Whether the data still have the checksum they were written with. -/
def intact (e : Entry) : Bool := crc32 e.data == e.checksum

/-- Whether an entry stands for a directory, which its name shows at its end. -/
def isDirectory (e : Entry) : Bool :=
  match e.name.toList.getLast? with
  | some c => c == '/' || c == '\\'
  | none => false

end Entry

/-- The entries of an archive, by name. Of several entries with one name the last one
    counts, in the place of the first. -/
def distinct (entries : List Entry) : List Entry :=
  entries.foldl
    (fun kept e =>
      if kept.any (·.name == e.name) then kept.map fun k => if k.name == e.name then e else k
      else kept ++ [e])
    []

/-- Why a file cannot be read as an archive. -/
inductive FormatFault where
  /-- It is no archive, or not a whole one. -/
  | invalid
  /-- It uses a feature that is not supported. -/
  | unsupported
  /-- It needs a key. -/
  | locked
  deriving DecidableEq, Repr

end DocxTemplate.Archive
