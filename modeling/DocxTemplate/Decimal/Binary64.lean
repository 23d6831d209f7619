/-! # Binary fractions of 64 bits

    The finite values of the double format, in exact arithmetic. Every one of them is a
    multiple of the smallest, `2 ^ (-1074)`, so a magnitude is a natural number of these
    units. A number counts as a value of the format if it has at most 53 significant bits
    and lies below `2 ^ 1024`.

    Results of arithmetic are rounded to the nearest value, and to an even last bit where
    two are as near.
-/

namespace DocxTemplate

/-- A finite value of the format. -/
structure Binary64 where
  negative : Bool
  /-- The magnitude in units of `2 ^ (-1074)`. -/
  units : Nat
  deriving DecidableEq, Repr

namespace Binary64

/-- How many units are one. -/
def one : Nat := Nat.pow 2 1074

/-- The number of significant bits. -/
def precision : Nat := 53

/-- The distance in units between values of about this magnitude. -/
def spacing (units : Nat) : Nat := Nat.pow 2 (units.log2 + 1 - precision)

/-- The quotient of two numbers, rounded to a whole number, to the even one if two are as
    near. -/
def roundDiv (num den : Nat) : Nat :=
  let q := num / den
  let r := num % den
  if 2 * r < den then q
  else if den < 2 * r then q + 1
  else q + q % 2

/-- The magnitude nearest to `num / den` units; none if that is no finite value. -/
def roundUnits? (num den : Nat) : Option Nat :=
  let step := spacing (num / den)
  let units := roundDiv num (den * step) * step
  if units < Nat.pow 2 1024 * one then some units else none

/-- The magnitude nearest to a natural number. -/
def ofNat? (n : Nat) : Option Nat := roundUnits? (n * one) 1

/-- The magnitude nearest to a power of ten. -/
def pow10? (n : Nat) : Option Nat := ofNat? (Nat.pow 10 n)

/-- The rounded product of two magnitudes. -/
def mul? (a b : Nat) : Option Nat := roundUnits? (a * b) one

/-- The rounded quotient of two magnitudes. -/
def div? (a b : Nat) : Option Nat := roundUnits? (a * one) b

end Binary64

end DocxTemplate
