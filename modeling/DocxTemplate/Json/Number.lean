import DocxTemplate.Json.Value

/-! # Numbers of JSON

    A number is read digit by digit into a significand of 64 bits. Digits of a whole part
    that no longer fit only raise the exponent, and digits behind the point that no longer
    fit are dropped. A fraction is the significand, rounded, times or divided by a power of
    ten, rounded; powers beyond `10 ^ 308` are divided by in several steps. A fraction that
    is too large is refused.
-/

namespace DocxTemplate.JsonNumber

/-- The first number that needs more than 64 bits. -/
def wordLimit : Nat := UInt64.size

/-- The value of a decimal digit. -/
def digit? (c : Char) : Option Nat :=
  if c.isDigit then some (c.toNat - '0'.toNat) else none

/-- Reads digits into a significand while it fits. Gives the significand, how many digits
    were read, and the rest, which may start with a digit. -/
def takeDigits (significand : Nat) : List Char → Nat × Nat × List Char
  | [] => (significand, 0, [])
  | c :: rest =>
    match digit? c with
    | none => (significand, 0, c :: rest)
    | some d =>
      if significand * 10 + d < wordLimit then
        let (s, n, left) := takeDigits (significand * 10 + d) rest
        (s, n + 1, left)
      else (significand, 0, c :: rest)

/-- The digits a text starts with, and the rest. -/
def spanDigits (cs : List Char) : List Char × List Char :=
  (cs.takeWhile Char.isDigit, cs.dropWhile Char.isDigit)

/-- The largest power of ten that is multiplied or divided by at once. -/
def largestPower : Nat := 308

/-- Divides a magnitude `n` times by another one, or until nothing is left. -/
def divideOften (divisor : Nat) : (n units : Nat) → Option Nat
  | 0, units => some units
  | n + 1, units =>
    if units = 0 then some 0
    else (Binary64.div? units divisor).bind (divideOften divisor n)

/-- Divides a magnitude by a power of ten: first by the largest power as often as it takes,
    then by what is left. -/
def divideByPower (units exponent : Nat) : Option Nat := do
  let large ← Binary64.pow10? largestPower
  let steps := (exponent - 1) / largestPower
  let units ← divideOften large steps units
  Binary64.div? units (← Binary64.pow10? (exponent - steps * largestPower))

/-- The fraction `significand * 10 ^ exponent`. -/
def ofParts? (negative : Bool) (significand : Nat) (exponent : Int) : Option Binary64 := do
  let units ← Binary64.ofNat? significand
  let units ←
    if exponent < 0 then divideByPower units exponent.natAbs
    else if units = 0 then some 0
    else if exponent ≤ largestPower then
      (Binary64.pow10? exponent.natAbs).bind (Binary64.mul? units)
    else none
  return { negative, units }

/-- The first exponent that needs more than 31 bits. -/
def exponentLimit : Nat := Nat.pow 2 31

/-- The nearest exponent of 32 bits, one of which is the sign. -/
def clampExponent (e : Int) : Int :=
  if e < -exponentLimit then -exponentLimit
  else if e < exponentLimit then e
  else exponentLimit - 1

/-- Reads an exponent and finishes a fraction. `start` is the exponent that the digits
    before have led to. -/
def readExponent (negative : Bool) (significand : Nat) (start : Int) (cs : List Char) :
    Option (JsonNumber × List Char) :=
  let (down, cs) := match cs with
    | '+' :: rest => (false, rest)
    | '-' :: rest => (true, rest)
    | _ => (false, cs)
  let (digits, rest) := spanDigits cs
  if digits.isEmpty then none
  else
    let n := digits.foldl (fun n c => n * 10 + (c.toNat - '0'.toNat)) 0
    if exponentLimit ≤ n then
      if significand = 0 ∨ down then some (.fraction { negative, units := 0 }, rest) else none
    else
      let exponent := clampExponent (if down then start - n else start + n)
      (ofParts? negative significand exponent).map fun v => (.fraction v, rest)

/-- Finishes a fraction whose digits are read. -/
def finishFraction (negative : Bool) (significand : Nat) (exponent : Int) (cs : List Char) :
    Option (JsonNumber × List Char) :=
  match cs with
  | 'e' :: rest | 'E' :: rest => readExponent negative significand exponent rest
  | _ => (ofParts? negative significand exponent).map fun v => (.fraction v, cs)

/-- Reads what follows the point. There has to be a digit. -/
def readDecimals (negative : Bool) (significand : Nat) (exponent : Int) (cs : List Char) :
    Option (JsonNumber × List Char) :=
  let (digits, rest) := spanDigits cs
  if digits.isEmpty then none
  else
    let (significand, n, _) := takeDigits significand digits
    finishFraction negative significand (exponent - n) rest

/-- Finishes a number whose whole part is read: `skipped` of its digits did not fit. -/
def finishWhole (negative : Bool) (significand skipped : Nat) (cs : List Char) :
    Option (JsonNumber × List Char) :=
  match cs with
  | '.' :: rest => readDecimals negative significand skipped rest
  | 'e' :: _ | 'E' :: _ => finishFraction negative significand skipped cs
  | _ =>
    if 0 < skipped then finishFraction negative significand skipped cs
    else if !negative then some (.natural significand, cs)
    else if significand = 0 ∨ Nat.pow 2 63 < significand then
      (Binary64.ofNat? significand).map fun units => (.fraction { negative, units }, cs)
    else some (.negative significand, cs)

/-- Reads a number without its sign. A zero before other digits is refused. -/
def readUnsigned (negative : Bool) (cs : List Char) : Option (JsonNumber × List Char) :=
  let (digits, rest) := spanDigits cs
  match digits with
  | [] => none
  | '0' :: _ :: _ => none
  | _ =>
    let (significand, _, left) := takeDigits 0 digits
    finishWhole negative significand left.length rest

/-- Reads the number a text starts with. -/
def read? (cs : List Char) : Option (JsonNumber × List Char) :=
  match cs with
  | '-' :: rest => readUnsigned true rest
  | _ => readUnsigned false cs

end DocxTemplate.JsonNumber
