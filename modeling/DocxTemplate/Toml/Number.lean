import DocxTemplate.Decimal.Binary64
import DocxTemplate.Toml.Moment

/-! # Numbers of TOML

    Digits may have single underscores between them. Integers fit 64 bits with a sign; those
    in another base have none. Fractions are rounded once, to the nearest value; a positive
    one that is too large is refused, a negative one is minus infinity.
-/

namespace DocxTemplate.Toml

/-- A number with a fraction. -/
inductive Fraction where
  | finite (value : Binary64)
  | infinite (negative : Bool)
  | notNumber (negative : Bool)
  deriving DecidableEq, Repr

namespace Number

/-! ## Digits -/

/-- The digits of a class that follow another one, each behind at most one underscore. -/
def moreDigits (p : Char → Bool) : List Char → List Char × List Char
  | '_' :: d :: rest =>
    if p d then
      let (ds, left) := moreDigits p rest
      (d :: ds, left)
    else ([], '_' :: d :: rest)
  | d :: rest =>
    if p d then
      let (ds, left) := moreDigits p rest
      (d :: ds, left)
    else ([], d :: rest)
  | [] => ([], [])

/-- Takes digits of a class. -/
def digits (p : Char → Bool) : Reader (List Char) := do
  let first ← Reader.one p
  return first :: (← fun cs => some (moreDigits p cs))

/-- Takes a sign: whether it is a minus. -/
def sign : Reader Bool := do
  match ← Reader.maybe (Reader.one fun c => c == '+' || c == '-') with
  | some c => return c == '-'
  | none => return false

/-- Takes decimal digits that are a zero or start with none. -/
def whole : Reader (List Char) := do
  match ← Reader.peek with
  | some '0' => return [← Reader.one (· == '0')]
  | _ => digits Char.isDigit

/-! ## Integers -/

/-- The value of a digit, which may be a letter. -/
def digitValue (c : Char) : Nat :=
  if c.isDigit then c.toNat - '0'.toNat
  else if 'a' ≤ c then c.toNat - 'a'.toNat + 10
  else c.toNat - 'A'.toNat + 10

/-- Whether a character is a digit of a base up to 16. -/
def isDigitOf (base : Nat) (c : Char) : Bool :=
  (c.isDigit || ('a' ≤ c && c ≤ 'f') || ('A' ≤ c && c ≤ 'F')) && digitValue c < base

/-- The number that digits form in a base. -/
def ofDigits (base : Nat) (ds : List Char) : Nat :=
  ds.foldl (fun n d => n * base + digitValue d) 0

/-- The first number that needs more than 63 bits. -/
def integerLimit : Nat := Nat.pow 2 63

/-- Takes digits in another base. -/
def readBased (lead : String) (base : Nat) : Reader Int := do
  Reader.word lead
  let n := ofDigits base (← digits (isDigitOf base))
  Reader.check (n < integerLimit)
  return n

/-- Takes a decimal integer. -/
def readDecimal : Reader Int := do
  let negative ← sign
  let n := ofDigits 10 (← whole)
  Reader.check (if negative then n ≤ integerLimit else n < integerLimit)
  return if negative then -n else n

/-- Takes an integer. -/
def readInteger : Reader Int :=
  readBased "0x" 16 <|> readBased "0o" 8 <|> readBased "0b" 2 <|> readDecimal

/-! ## Fractions -/

/-- The value `significand * 10 ^ exponent`; none if it is too large. Digits that stand more
    than 400 places from the point decide by themselves. -/
def units? (significand : Nat) (exponent : Int) : Option Nat :=
  let places := (Nat.toDigits 10 significand).length + exponent
  if significand = 0 ∨ places < -400 then some 0
  else if 400 < places then none
  else if 0 ≤ exponent then
    Binary64.roundUnits? (significand * Nat.pow 10 exponent.toNat * Binary64.one) 1
  else Binary64.roundUnits? (significand * Binary64.one) (Nat.pow 10 exponent.natAbs)

/-- The number that digits before and behind the point and an exponent form. -/
def fraction? (negative : Bool) (before behind : List Char) (exponent : Int) : Option Fraction :=
  match units? (ofDigits 10 (before ++ behind)) (exponent - behind.length) with
  | some units => some (.finite { negative, units })
  | none => if negative then some (.infinite true) else none

/-- Takes what follows the point. -/
def readDecimals : Reader (List Char) := do
  Reader.char '.'
  digits Char.isDigit

/-- Takes an exponent. -/
def readExponent : Reader Int := do
  let _ ← Reader.one fun c => c == 'e' || c == 'E'
  let negative ← sign
  let n : Int := ofDigits 10 (← digits Char.isDigit)
  return if negative then -n else n

/-- Takes a fraction in digits. It has a point or an exponent. -/
def readFinite : Reader Fraction := do
  let negative ← sign
  let before ← whole
  let behind? ← Reader.maybe readDecimals
  let exponent? ← Reader.maybe readExponent
  Reader.check (behind?.isSome || exponent?.isSome)
  match fraction? negative before (behind?.getD []) (exponent?.getD 0) with
  | some f => return f
  | none => failure

/-- Takes the name of a value that has no digits. -/
def readNamed : Reader Fraction := do
  let negative ← sign
  (do Reader.word "inf"; return .infinite negative)
    <|> (do Reader.word "nan"; return .notNumber negative)

/-- Takes a fraction. -/
def readFraction : Reader Fraction := readFinite <|> readNamed

end Number

end DocxTemplate.Toml
