import DocxTemplate.Decimal.Shortest
import DocxTemplate.Text.Split

/-! # JSON values

    Values and their compact text. An object has one value for a key, and its keys are
    ordered.

    A number is whole if it was written without point and exponent and fits 64 bits, with
    a sign or without; all others are binary fractions.
-/

namespace DocxTemplate

/-- A number. -/
inductive JsonNumber where
  | natural (n : Nat)
  | negative (n : Nat)
  | fraction (value : Binary64)
  deriving DecidableEq, Repr

/-- A value. -/
inductive JsonValue where
  | null
  | bool (b : Bool)
  | number (n : JsonNumber)
  | string (s : String)
  | array (items : List JsonValue)
  | object (members : List (String × JsonValue))
  deriving Repr

/-! ## Numbers -/

namespace JsonNumber

/-- How fractions are written: positional if the point comes at most 16 places behind the
    first digit and at most 4 zeros follow it, with `.0` for whole values; otherwise with
    one digit before the point and a signed exponent. -/
def fractionText (v : Binary64) : String :=
  let sign := if v.negative then "-" else ""
  if v.units = 0 then sign ++ "0.0"
  else
    let d := Binary64.shortest v.units
    let digits := ((Nat.toDigits 10 d.digits).reverse.dropWhile (· == '0')).reverse
    let zeros (n : Int) : List Char := List.replicate n.toNat '0'
    let text :=
      if 0 < d.point ∧ d.point ≤ 16 then
        let whole := digits.take d.point.toNat
        let rest := digits.drop d.point.toNat
        whole ++ zeros (d.point - digits.length) ++ '.' :: (if rest.isEmpty then ['0'] else rest)
      else if -5 < d.point ∧ d.point ≤ 0 then '0' :: '.' :: zeros (-d.point) ++ digits
      else
        -- One digit stands before the point, so the exponent is one less.
        let exponent := d.point - 1
        let mantissa := match digits with
          | [] => []
          | [one] => [one]
          | first :: rest => first :: '.' :: rest
        mantissa ++ 'e' :: (if exponent < 0 then '-' else '+') :: Nat.toDigits 10 exponent.natAbs
    sign ++ String.ofList text

/-- The text of a number. -/
def text : JsonNumber → String
  | natural n => toString n
  | negative n => "-" ++ toString n
  | fraction v => fractionText v

end JsonNumber

/-! ## Text -/

namespace JsonValue

/-- A character inside quotes. -/
def escapeChar (c : Char) : List Char :=
  if c == '\x22' || c == '\x5c' then ['\x5c', c]
  else if c == '\x08' then ['\x5c', 'b']
  else if c == '\x0c' then ['\x5c', 'f']
  else if c == '\n' then ['\x5c', 'n']
  else if c == '\r' then ['\x5c', 'r']
  else if c == '\t' then ['\x5c', 't']
  else if c.toNat < 0x20 then
    ['\x5c', 'u', '0', '0', Nat.digitChar (c.toNat / 16), Nat.digitChar (c.toNat % 16)]
  else [c]

/-- A string in quotes. -/
def quoted (s : String) : String :=
  "\x22" ++ String.ofList (s.toList.flatMap escapeChar) ++ "\x22"

mutual

/-- The compact text of a value. -/
def text : JsonValue → String
  | null => "null"
  | bool b => if b then "true" else "false"
  | number n => n.text
  | string s => quoted s
  | array items => "[" ++ ",".intercalate (texts items) ++ "]"
  | object members => "\x7b" ++ ",".intercalate (memberTexts members) ++ "\x7d"

/-- The texts of the items of an array. -/
def texts : List JsonValue → List String
  | [] => []
  | item :: rest => item.text :: texts rest

/-- The texts of the members of an object. -/
def memberTexts : List (String × JsonValue) → List String
  | [] => []
  | (key, value) :: rest => (quoted key ++ ":" ++ value.text) :: memberTexts rest

end

/-- Gives a key a value among members in the order of their keys. -/
def insertMember (key : String) (value : JsonValue) :
    List (String × JsonValue) → List (String × JsonValue)
  | [] => [(key, value)]
  | (k, v) :: rest =>
    if key == k then (key, value) :: rest
    else if key < k then (key, value) :: (k, v) :: rest
    else (k, v) :: insertMember key value rest

end JsonValue

end DocxTemplate
