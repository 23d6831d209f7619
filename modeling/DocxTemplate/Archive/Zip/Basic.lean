import DocxTemplate.Text.Bytes

/-! # Zip files

    The file form of an archive: a record for each entry with its data, then the directory
    with a line for each entry, then a record that says where the directory is. Records
    and lines start with a mark, and numbers are written with their low byte first.

    This module holds what writing and reading share: numbers, marks and the search for
    a mark.
-/

namespace DocxTemplate.Archive.Zip

/-! ## Numbers -/

/-- A number in `width` bytes. -/
def numberBytes : (width : Nat) → Nat → Bytes
  | 0, _ => []
  | width + 1, n => n.toUInt8 :: numberBytes width (n / 256)

/-- Fields of a record, each with its width and value. -/
def fields (l : List (Nat × Nat)) : Bytes := l.flatMap fun (width, n) => numberBytes width n

/-- The number in the `width` bytes at a position. -/
def numberAt (file : Array UInt8) (position : Nat) : (width : Nat) → Option Nat
  | 0 => some 0
  | width + 1 => do
    let low ← file[position]?
    let high ← numberAt file (position + 1) width
    return low.toNat + 256 * high

/-- `n` bytes from a position on. -/
def bytesAt (file : Array UInt8) (position n : Nat) : Option Bytes :=
  if position + n ≤ file.size then some (file.extract position (position + n)).toList else none

/-- A number takes the width it is given. -/
theorem length_numberBytes (width n : Nat) : (numberBytes width n).length = width := by
  induction width generalizing n with
  | zero => rfl
  | succ width ih => simp [numberBytes, ih]

/-! ## Marks -/

/-- The mark of an entry's record. -/
def entryMark : Nat := 0x04034b50

/-- The mark of a line of the directory. -/
def lineMark : Nat := 0x02014b50

/-- The mark of the record at the end. -/
def endMark : Nat := 0x06054b50

/-- The mark of the record at the end of an archive whose numbers need more room. -/
def wideEndMark : Nat := 0x06064b50

/-- The mark of the record that tells where that one is. -/
def locatorMark : Nat := 0x07064b50

/-- Whether a mark stands at a position. -/
def hasMark (file : Array UInt8) (mark position : Nat) : Bool :=
  numberAt file position 4 == some mark

/-! ## Searching -/

/-- The first success among the `n` positions from `start` on. -/
def searchFrom {α : Type} (f : Nat → Option α) (start : Nat) : (n : Nat) → Option α
  | 0 => none
  | n + 1 =>
    match f start with
    | some a => some a
    | none => searchFrom f (start + 1) n

/-- The first success among the positions below `n`, from the last one down. -/
def searchDown {α : Type} (f : Nat → Option α) : (n : Nat) → Option α
  | 0 => none
  | n + 1 =>
    match f n with
    | some a => some a
    | none => searchDown f n

/-- The first place from `start` on where a mark stands wholly in front of `stop`, if `f`
    accepts that place. -/
def searchMark {α : Type} (file : Array UInt8) (mark start stop : Nat) (f : Nat → Option α) :
    Option α :=
  searchFrom (fun i => if hasMark file mark i then f i else none) start (stop - (start + 3))

end DocxTemplate.Archive.Zip
