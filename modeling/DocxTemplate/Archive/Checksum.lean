import DocxTemplate.Text.Bytes

/-! # Checksums

    The 32-bit cyclic redundancy check that an archive stores for each of its entries.
-/

namespace DocxTemplate.Archive

/-- One division step: a bit that falls out subtracts the generator polynomial. -/
def crcBit (crc : UInt32) : UInt32 :=
  if crc &&& 1 == 1 then (crc >>> 1) ^^^ 0xEDB88320 else crc >>> 1

/-- Takes one byte into the remainder. -/
def crcByte (crc : UInt32) (b : UInt8) : UInt32 :=
  Nat.repeat crcBit 8 (crc ^^^ b.toUInt32)

/-- The checksum of a text. -/
def crc32 (text : Bytes) : UInt32 :=
  text.foldl crcByte 0xFFFFFFFF ^^^ 0xFFFFFFFF

end DocxTemplate.Archive
