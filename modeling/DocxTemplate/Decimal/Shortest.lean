import DocxTemplate.Decimal.Binary64

/-! # Shortest decimals

    The digits of a value are the fewest that tell it apart from its neighbours: a
    decimal stands for the value it is nearest to. Of several decimals with that number
    of digits the one nearest to the value is taken, and of two as near the even one.

    For a number of digits the decimals around a value form a grid, and only the two grid
    points next to the value need to be tried.
-/

namespace DocxTemplate.Binary64

/-- A decimal `0.d₁d₂… * 10 ^ point`, given as the number that its digits form. -/
structure Decimal where
  digits : Nat
  point : Int
  deriving DecidableEq, Repr

/-- How many zeros follow the point of a number below one, tried from `n` on. -/
def leadingZeros (units : Nat) : (fuel : Nat) → (n : Nat) → Nat
  | 0, n => n
  | fuel + 1, n => if one ≤ units * Nat.pow 10 (n + 1) then n else leadingZeros units fuel (n + 1)

/-- The number of digits before the point; the zeros behind it count as negative. -/
def pointOf (units : Nat) : Int :=
  if one ≤ units then ((Nat.toDigits 10 (units / one)).length : Int)
  else -(leadingZeros units 330 0 : Int)

/-- Whether the decimal `candidate * scale / grid` units is nearer to the value than to its
    neighbours. The gap below is half as wide where the spacing changes. A decimal in the
    middle belongs to the value with an even last bit. -/
def isNearest (units grid scale candidate : Nat) : Bool :=
  let gap := spacing units
  let gapBelow := if units = Nat.pow 2 units.log2 ∧ 1 < gap then gap else 2 * gap
  let low := (4 * units - gapBelow) * scale
  let high := (4 * units + 2 * gap) * scale
  let middle := 4 * candidate * grid
  if (units / gap) % 2 = 0 then low ≤ middle && middle ≤ high
  else low < middle && middle < high

/-- The decimal with `n` digits that stands for a value, if there is one. -/
def decimalWith? (units : Nat) (point : Int) (n : Nat) : Option Nat :=
  let shift := (n : Int) - point
  let scale := Nat.pow 10 shift.toNat
  let grid := one * Nat.pow 10 (-shift).toNat
  let below := units * scale / grid
  let rest := units * scale % grid
  let fits := isNearest units grid scale
  match fits below, fits (below + 1) with
  | true, true =>
    if 2 * rest < grid then some below
    else if grid < 2 * rest then some (below + 1)
    else some (below + below % 2)
  | true, false => some below
  | false, true => some (below + 1)
  | false, false => none

/-- Tries `n`, `n + 1`, … digits. Seventeen are always enough. -/
def shortestFrom (units : Nat) (point : Int) : (fuel : Nat) → (n : Nat) → Decimal
  | 0, n => ⟨0, (n : Int)⟩
  | fuel + 1, n =>
    match decimalWith? units point n with
    | some digits =>
      -- Rounding up may have led to the next power of ten.
      if digits = Nat.pow 10 n then ⟨1, point + 1⟩ else ⟨digits, point⟩
    | none => shortestFrom units point fuel (n + 1)

/-- The shortest decimal of a positive value. -/
def shortest (units : Nat) : Decimal := shortestFrom units (pointOf units) 17 1

end DocxTemplate.Binary64
