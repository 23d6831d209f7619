import DocxTemplate.Archive.Entry
import DocxTemplate.Archive.Zip.Basic

/-! # Writing zip files

    Names are written in UTF-8. Deflated entries are written as stored blocks, which every
    reader accepts.
-/

namespace DocxTemplate.Archive.Zip

/-- Deflated data without compression: blocks of at most 65535 bytes. -/
def storedBlocks (data : Bytes) : Bytes :=
  if _h : 65535 < data.length then
    fields [(1, 0), (2, 65535), (2, 0)] ++ data.take 65535 ++ storedBlocks (data.drop 65535)
  else fields [(1, 1), (2, data.length), (2, 65535 - data.length)] ++ data
termination_by data.length
decreasing_by simp only [List.length_drop]; omega

/-- The data of an entry as they are kept. -/
def packed (e : Entry) : Bytes :=
  match e.method with
  | .stored => e.data
  | .deflated => storedBlocks e.data

/-- What an entry's record and its line in the directory have in common: version, flags for
    names in UTF-8, method, time, checksum, sizes, and the lengths of name and extra field. -/
def commonFields (e : Entry) : Bytes :=
  fields [(2, 20), (2, 0x0800), (2, e.method.number), (2, 0), (2, 0x21),
    (4, e.checksum.toNat), (4, (packed e).length), (4, e.data.length),
    (2, (Bytes.ofString e.name).length), (2, 0)]

/-- The record of an entry, with its data. -/
def entryRecord (e : Entry) : Bytes :=
  fields [(4, entryMark)] ++ commonFields e ++ Bytes.ofString e.name ++ packed e

/-- The line of an entry in the directory. -/
def directoryLine (offset : Nat) (e : Entry) : Bytes :=
  fields [(4, lineMark), (2, 20)] ++ commonFields e
    ++ fields [(2, 0), (2, 0), (2, 0), (4, 0), (4, offset)] ++ Bytes.ofString e.name

/-- The directory of entries whose records start at `offset`. -/
def directory (offset : Nat) : List Entry → Bytes
  | [] => []
  | e :: rest => directoryLine offset e ++ directory (offset + (entryRecord e).length) rest

/-- The file form of an archive. -/
def write (entries : List Entry) : Bytes :=
  let records := entries.flatMap entryRecord
  let listing := directory 0 entries
  records ++ listing
    ++ fields [(4, endMark), (2, 0), (2, 0), (2, entries.length), (2, entries.length),
      (4, listing.length), (4, records.length), (2, 0)]

end DocxTemplate.Archive.Zip
