import DocxTemplate.Archive.Checksum
import DocxTemplate.Archive.Zip.Ending
import DocxTemplate.Text.CodePage
import DocxTemplate.Text.Utf8

/-! # Lines of a zip directory

    A line names an entry and says how and where its data are kept. Extra fields at the
    end of a line replace what its fixed fields cannot hold: large numbers, names in UTF-8
    and the method of encrypted data.

    Extra fields are read one after the other. Where their bytes come to an end too early,
    what was read before counts; a field that contradicts itself spoils the whole archive.
-/

namespace DocxTemplate.Archive.Zip

/-- What a line of the directory says about an entry. -/
structure Line where
  name : String
  /-- The name as it is stored. -/
  rawName : Bytes
  comment : String
  /-- The number of the method. -/
  method : Nat
  encrypted : Bool
  /-- Whether an extra field names a key. -/
  keyed : Bool := false
  checksum : Nat
  packedSize : Nat
  size : Nat
  /-- Where the record of the entry starts, counted from the start of the archive. -/
  offset : Nat
  deriving DecidableEq, Repr

/-! ## Reading Extra Fields -/

/-- Why no more extra fields are read. -/
inductive Stop where
  /-- The bytes come to an end inside a field. -/
  | ended (line : Line)
  /-- A field contradicts itself or the line. -/
  | broken

/-- A line as far as it is known, and the extra fields that are still to be read. -/
structure Unread where
  line : Line
  rest : Bytes

/-- A step of reading extra fields. -/
abbrev Extra := StateT Unread (Except Stop)

/-- Takes the next `n` bytes. -/
def Extra.take (n : Nat) : Extra Bytes := fun u =>
  if n ≤ u.rest.length then .ok (u.rest.take n, { u with rest := u.rest.drop n })
  else .error (.ended u.line)

/-- Takes a number of `width` bytes. -/
def Extra.number (width : Nat) : Extra Nat := do
  let bytes ← Extra.take width
  return bytes.foldr (fun b n => b.toNat + 256 * n) 0

/-- Goes on with another line. -/
def Extra.amend (f : Line → Line) : Extra Unit := modify fun u => { u with line := f u.line }

/-- Refuses a field unless a condition holds. -/
def Extra.require (condition : Bool) : Extra Unit :=
  if condition then pure () else throw .broken

/-! ## Extra Fields -/

/-- Sizes and offset in 64 bits, each only if the line leaves it open or if there is room
    for all three. -/
def wideNumbers (length : Nat) : Extra Unit := do
  let start ← get
  let isOpen (n : Nat) : Bool := 24 ≤ length || n == noNumber32
  if isOpen start.line.size then
    let n ← Extra.number 8
    Extra.amend fun l => { l with size := n }
  if isOpen start.line.packedSize then
    let n ← Extra.number 8
    Extra.amend fun l => { l with packedSize := n }
  if isOpen start.line.offset then
    let n ← Extra.number 8
    Extra.amend fun l => { l with offset := n }
  let used := start.rest.length - (← get).rest.length
  Extra.require (used ≤ length)
  let _ ← Extra.take (length - used)

/-- Three times in 64 bits. -/
def wideTimes (length : Nat) : Extra Unit := do
  Extra.require (length == 32)
  let _ ← Extra.take 4
  Extra.require ((← Extra.number 2) == 1)
  Extra.require ((← Extra.number 2) == 24)
  let _ ← Extra.take 24

/-- Up to three times in 32 bits, with one bit for each that is there; other bits stand for
    no time. A length of 5 means one time whatever the three bits say. -/
def shortTimes (length : Nat) : Extra Unit := do
  let bits ← Extra.number 1
  let count := (List.range 3).countP bits.testBit
  Extra.require (bits < 8)
  Extra.require (length == 5 || length == 1 + 4 * count)
  if length == 5 || bits.testBit 0 then let _ ← Extra.take 4
  if 5 < length && bits.testBit 1 then let _ ← Extra.take 4
  if 5 < length && bits.testBit 2 then let _ ← Extra.take 4

/-- The method of data that are encrypted by a key. -/
def keyedMethod (length : Nat) : Extra Unit := do
  Extra.require (length == 7)
  let version ← Extra.number 2
  let vendor ← Extra.number 2
  let strength ← Extra.number 1
  let method ← Extra.number 2
  Extra.require (vendor == 0x4541)
  Extra.require (version == 1 || version == 2)
  Extra.require (strength == 1 || strength == 2 || strength == 3)
  Extra.amend fun l => { l with method, keyed := true }

/-- A text in UTF-8 that replaces an older one, whose checksum it has to name. -/
def newText (length : Nat) (old : Line → Bytes) : Extra (Bytes × String) := do
  let _ ← Extra.take 1
  let checksum ← Extra.number 4
  Extra.require (5 ≤ length)
  let text ← Extra.take (length - 5)
  Extra.require ((crc32 (old (← get).line)).toNat == checksum)
  match Utf8.decode? text with
  | some s => return (text, s)
  | none => throw .broken

/-- The comment in UTF-8. -/
def newComment (length : Nat) : Extra Unit := do
  let (_, comment) ← newText length fun l => Bytes.ofString l.comment
  Extra.amend fun l => { l with comment }

/-- The name in UTF-8. -/
def newName (length : Nat) : Extra Unit := do
  let (rawName, name) ← newText length fun l => l.rawName
  Extra.amend fun l => { l with rawName, name }

/-- One extra field. -/
def extraField : Extra Unit := do
  let kind ← Extra.number 2
  let length ← Extra.number 2
  match kind with
  | 0x0001 => wideNumbers length
  | 0x000A => wideTimes length
  | 0x5455 => shortTimes length
  | 0x6375 => newComment length
  | 0x7075 => newName length
  | 0x9901 => keyedMethod length
  | _ =>
    let _ ← Extra.take length

/-- All extra fields. Each takes a byte at least, so their length bounds their number. -/
def extraFields : (fuel : Nat) → Extra Unit
  | 0 => pure ()
  | fuel + 1 => do
    if (← get).rest.isEmpty then pure ()
    else
      extraField
      extraFields fuel

/-- A line with what its extra fields say. -/
def Line.extended? (line : Line) (extra : Bytes) : Option Line :=
  match (extraFields extra.length).run { line, rest := extra } with
  | .ok (_, u) => some u.line
  | .error (.ended line) => some line
  | .error .broken => none

/-! ## Lines -/

/-- The method of data that are encrypted by a key, until an extra field tells the one
    they were packed by. -/
def keyedMethodNumber : Nat := 99

/-- The line at a position, and the position behind it. A flag tells whether texts are in
    UTF-8. -/
def lineAt? (file : Array UInt8) (position : Nat) : Option (Line × Nat) := do
  guard (hasMark file lineMark position)
  let flags ← numberAt file (position + 8) 2
  let method ← numberAt file (position + 10) 2
  let checksum ← numberAt file (position + 16) 4
  let packedSize ← numberAt file (position + 20) 4
  let size ← numberAt file (position + 24) 4
  let nameLength ← numberAt file (position + 28) 2
  let extraLength ← numberAt file (position + 30) 2
  let commentLength ← numberAt file (position + 32) 2
  let offset ← numberAt file (position + 42) 4
  let behind := position + 46
  let name ← bytesAt file behind nameLength
  let extra ← bytesAt file (behind + nameLength) extraLength
  let comment ← bytesAt file (behind + nameLength + extraLength) commentLength
  let decode (text : Bytes) : String :=
    if flags.testBit 11 then Utf8.decodeLossy text else CodePage.decode text
  let line : Line :=
    { name := decode name, rawName := name, comment := decode comment, method,
      encrypted := flags.testBit 0, checksum, packedSize, size, offset }
  let line ← line.extended? extra
  guard (line.method ≠ keyedMethodNumber ∨ line.keyed)
  return (line, behind + nameLength + extraLength + commentLength)

end DocxTemplate.Archive.Zip
