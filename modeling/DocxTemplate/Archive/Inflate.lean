import DocxTemplate.Text.Bytes

/-! # Inflating

    Unpacks deflated data: blocks that are stored, or coded with a fixed or a given pair
    of prefix codes. The input is a list of bits, the low bit of each byte first. It has to
    hold a last block; what follows that is left alone.

    Data are read strictly in order. Those that end too early are told apart from those
    that contradict themselves, and of the two faults the one that is met first counts.
-/

namespace DocxTemplate.Archive.Inflate

/-- Input that is still to be read. -/
abbrev Bits := List Bool

/-- Why data cannot be unpacked. -/
inductive Fault where
  /-- The input ends before the last block does. -/
  | ended
  /-- The input contradicts itself. -/
  | broken
  deriving DecidableEq, Repr

/-- The bits of a text. -/
def bitsOf (text : Bytes) : Bits :=
  text.flatMap fun b => (List.range 8).map fun i => b.toNat.testBit i

/-- Work on the rest of the input. -/
abbrev BitReader := StateT Bits (Except Fault)

/-- Refuses the input unless a condition holds. -/
def require (condition : Bool) : BitReader Unit :=
  if condition then pure () else throw .broken

/-- Reads one bit. -/
def bit : BitReader Bool
  | [] => .error .ended
  | b :: rest => .ok (b, rest)

/-- Reads a number of `n` bits, the low one first. -/
def number : (n : Nat) → BitReader Nat
  | 0 => return 0
  | n + 1 => do
    let low ← bit
    let high ← number n
    return low.toNat + 2 * high

/-- Reads `count` numbers of `n` bits each. -/
def numbers (n : Nat) : (count : Nat) → BitReader (List Nat)
  | 0 => return []
  | count + 1 => do
    let first ← number n
    let others ← numbers n count
    return first :: others

/-! ## Prefix Codes -/

/-- A prefix code: how many symbols have each code length from 1 on, and the symbols
    in the order of their codes. -/
structure Code where
  counts : List Nat
  symbols : Array Nat

/-- The code that gives symbol `i` a word of `lengths[i]` bits, and none if that is 0. -/
def Code.ofLengths (lengths : List Nat) : Code :=
  let withLength (n : Nat) : List Nat :=
    (lengths.zipIdx.filter fun (l, _) => l == n).map (·.2)
  { counts := (List.range 15).map fun i => (withLength (i + 1)).length
    symbols := ((List.range 15).flatMap fun i => withLength (i + 1)).toArray }

/-- How much of the space of all words of 15 bits a code with given word lengths takes. -/
def Code.weight (lengths : List Nat) : Nat :=
  lengths.foldr (fun l n => if l = 0 then n else Nat.pow 2 (15 - l) + n) 0

/-- Whether a code with given word lengths takes all of the space. -/
def Code.isComplete (lengths : List Nat) : Bool := weight lengths == 32768

/-- Whether a code with given word lengths is complete, or has no word, or a single one of
    one bit. -/
def Code.isUsable (lengths : List Nat) : Bool :=
  let words := lengths.filter (0 < ·)
  isComplete lengths || words == [] || words == [1]

/-- Reads a word bit by bit: `code` is the word so far, `first` the first word of the
    current length and `index` the place of its symbol. Once there are no longer words, the
    bits so far belong to none. -/
def Code.readFrom (symbols : Array Nat) (code first index : Nat) : List Nat → BitReader Nat
  | [] => throw .broken
  | count :: counts => do
    let code := 2 * code + (← bit).toNat
    let first := 2 * first
    if code < first + count then
      let some symbol := symbols[index + (code - first)]? | throw .broken
      return symbol
    else
      require (counts.any (0 < ·))
      readFrom symbols code (first + count) (index + count) counts

/-- Reads one symbol. -/
def Code.read (c : Code) : BitReader Nat := readFrom c.symbols 0 0 0 c.counts

/-- The code for literals and lengths of blocks that give none. -/
def fixedLiterals : Code :=
  .ofLengths (List.replicate 144 8 ++ List.replicate 112 9 ++ List.replicate 24 7
    ++ List.replicate 8 8)

/-- The code for distances of blocks that give none. -/
def fixedDistances : Code := .ofLengths (List.replicate 32 5)

/-- Base value and number of extra bits of the length symbols from 257 on. -/
def lengthTable : Array (Nat × Nat) :=
  #[(3, 0), (4, 0), (5, 0), (6, 0), (7, 0), (8, 0), (9, 0), (10, 0), (11, 1), (13, 1),
    (15, 1), (17, 1), (19, 2), (23, 2), (27, 2), (31, 2), (35, 3), (43, 3), (51, 3), (59, 3),
    (67, 4), (83, 4), (99, 4), (115, 4), (131, 5), (163, 5), (195, 5), (227, 5), (258, 0)]

/-- Base value and number of extra bits of the distance symbols. -/
def distanceTable : Array (Nat × Nat) :=
  #[(1, 0), (2, 0), (3, 0), (4, 0), (5, 1), (7, 1), (9, 2), (13, 2), (17, 3), (25, 3),
    (33, 4), (49, 4), (65, 5), (97, 5), (129, 6), (193, 6), (257, 7), (385, 7), (513, 8),
    (769, 8), (1025, 9), (1537, 9), (2049, 10), (3073, 10), (4097, 11), (6145, 11),
    (8193, 12), (12289, 12), (16385, 13), (24577, 13)]

/-- The order in which a block states the lengths of its code for code lengths. -/
def lengthOrder : List Nat :=
  [16, 17, 18, 0, 8, 7, 9, 6, 10, 5, 11, 4, 12, 3, 13, 2, 14, 1, 15]

/-! ## Blocks -/

/-- Repeats `n` bytes from `distance` bytes back, one after the other. Zeros stand in front
    of the first byte. -/
def copyBack (distance : Nat) : Nat → Array UInt8 → Array UInt8
  | 0, out => out
  | n + 1, out =>
    let b := if distance ≤ out.size then out[out.size - distance]?.getD 0 else 0
    copyBack distance n (out.push b)

/-- Reads a value given by a symbol's base and its extra bits. A symbol without a base is
    refused. -/
def extended (table : Array (Nat × Nat)) (symbol : Nat) : BitReader Nat := do
  let some (base, extra) := table[symbol]? | throw .broken
  return base + (← number extra)

/-- Unpacks a coded block. Each symbol takes at least one bit, so the number of bits bounds
    the number of symbols. -/
def codedBlock (literals distances : Code) :
    (fuel : Nat) → Array UInt8 → BitReader (Array UInt8)
  | 0, _ => throw .ended
  | fuel + 1, out => do
    let symbol ← literals.read
    if symbol < 256 then codedBlock literals distances fuel (out.push symbol.toUInt8)
    else if symbol = 256 then return out
    else
      let length ← extended lengthTable (symbol - 257)
      let distance ← extended distanceTable (← distances.read)
      codedBlock literals distances fuel (copyBack distance length out)

/-- Reads exactly `count` code lengths, which are coded themselves. -/
def codeLengths (code : Code) (count : Nat) :
    (fuel : Nat) → (done : List Nat) → BitReader (List Nat)
  | 0, _ => throw .broken
  | fuel + 1, done => do
    if count ≤ done.length then
      require (count == done.length)
      return done
    else
      let symbol ← code.read
      if symbol < 16 then codeLengths code count fuel (done ++ [symbol])
      else if symbol = 16 then
        let some last := done.getLast? | throw .broken
        let n ← number 2
        codeLengths code count fuel (done ++ List.replicate (n + 3) last)
      else
        let (least, width) := if symbol = 17 then (3, 3) else (11, 7)
        let n ← number width
        codeLengths code count fuel (done ++ List.replicate (n + least) 0)

/-- Reads the two codes of a block that brings its own. -/
def givenCodes : BitReader (Code × Code) := do
  let literalCount := (← number 5) + 257
  let distanceCount := (← number 5) + 1
  let lengthCount := (← number 4) + 4
  require (literalCount ≤ 286 && distanceCount ≤ 30)
  let stated ← numbers 3 lengthCount
  let ordered := lengthOrder.zip (stated ++ List.replicate 19 0)
  let lengths := (List.range 19).map fun i => (ordered.lookup i).getD 0
  require (Code.isComplete lengths)
  let total := literalCount + distanceCount
  let all ← codeLengths (.ofLengths lengths) total (total + 1) []
  let literals := all.take literalCount
  let distances := all.drop literalCount
  require (Code.isUsable literals && Code.isUsable distances)
  return (.ofLengths literals, .ofLengths distances)

/-- Goes on to the start of the next byte. -/
def skipToByte : BitReader Unit := modify fun bits => bits.drop (bits.length % 8)

/-- Unpacks a stored block, which starts at a byte of its own. Its length is given twice,
    the second time with all bits turned over. -/
def storedBlock (out : Array UInt8) : BitReader (Array UInt8) := do
  skipToByte
  let length ← number 16
  let complement ← number 16
  require (length + complement == 65535)
  let data ← numbers 8 length
  return out ++ data.map Nat.toUInt8

/-- Unpacks what a block of a kind adds. -/
def block (kind : Nat) (out : Array UInt8) : BitReader (Array UInt8) := do
  let fuel := (← get).length + 1
  match kind with
  | 0 => storedBlock out
  | 1 => codedBlock fixedLiterals fixedDistances fuel out
  | 2 =>
    let (literals, distances) ← givenCodes
    codedBlock literals distances fuel out
  | _ => throw .broken

/-- Unpacks blocks up to the last one. -/
def blocks : (fuel : Nat) → Array UInt8 → BitReader (Array UInt8)
  | 0, _ => throw .ended
  | fuel + 1, out => do
    let last ← bit
    let kind ← number 2
    let out ← block kind out
    if last then return out else blocks fuel out

end Inflate

/-- The data that `text` holds in deflated form. -/
def inflate (text : Bytes) : Except Inflate.Fault Bytes := do
  let bits := Inflate.bitsOf text
  let (out, _) ← (Inflate.blocks (bits.length + 1) #[]).run bits
  return out.toList

end DocxTemplate.Archive
