/-!
# Shortest decimals

A binary number is `mantissa · 2 ^ exponent`. The reals that round to it form an interval around
it; the shortest decimal is the nearest point of the coarsest decimal grid that meets this interval.
All tests are made in exact integer arithmetic, on numerators over one common denominator.
-/

namespace StockFlow

/-- A positive binary number with the gap to its neighbours: the gap below is half as wide where the
mantissa is the least of its binade. -/
structure Binary where
  mantissa : Nat
  exponent : Int
  narrowBelow : Bool
  deriving DecidableEq, Repr

inductive Tie where
  | up
  | even
  deriving DecidableEq, Repr

namespace Binary

def twoPower (k : Int) : Nat := Nat.pow 2 k.toNat

def tenPower (k : Int) : Nat := Nat.pow 10 k.toNat

def numerator (b : Binary) : Nat := 4 * b.mantissa * twoPower b.exponent

/-- The common denominator: a quarter of the unit of the mantissa or a quarter of one. -/
def denominator (b : Binary) : Nat := 4 * twoPower (-b.exponent)

/-- The numerator of the lower end of the reals that round to the number. -/
def lowest (b : Binary) : Nat :=
  (4 * b.mantissa - if b.narrowBelow then 1 else 2) * twoPower b.exponent

/-- The numerator of the upper end of the reals that round to the number. -/
def highest (b : Binary) : Nat := (4 * b.mantissa + 2) * twoPower b.exponent

/-- Whether `digits · 10 ^ exponent` rounds to the number: the ends of the interval do exactly if
the mantissa is even. -/
def admits (b : Binary) (digits : Nat) (exponent : Int) : Bool :=
  let point := digits * tenPower exponent * b.denominator
  let low := b.lowest * tenPower (-exponent)
  let high := b.highest * tenPower (-exponent)
  if b.mantissa % 2 = 0 then low ≤ point && point ≤ high else low < point && point < high

/-- The whole part of the number on the grid of multiples of `10 ^ exponent`. -/
def floorOn (b : Binary) (exponent : Int) : Nat :=
  (b.numerator * tenPower (-exponent)) / (b.denominator * tenPower exponent)

/-- Twice the distance to the lower neighbour on the grid against the grid's width. -/
def compareMiddle (b : Binary) (exponent : Int) : Ordering :=
  let width := b.denominator * tenPower exponent
  compare (2 * ((b.numerator * tenPower (-exponent)) % width)) width

/-- The point of one decimal grid that stands for the number, if the grid has one. -/
def onGrid? (b : Binary) (tie : Tie) (exponent : Int) : Option Nat :=
  let low := b.floorOn exponent
  match 0 < low && b.admits low exponent, b.admits (low + 1) exponent with
  | false, false => none
  | true, false => some low
  | false, true => some (low + 1)
  | true, true =>
    match b.compareMiddle exponent, tie with
    | .lt, _ => some low
    | .gt, _ => some (low + 1)
    | .eq, .up => some (low + 1)
    | .eq, .even => some (if low % 2 = 0 then low else low + 1)

def firstGrid (b : Binary) (tie : Tie) : Nat → Int → Nat × Int
  | 0, exponent => (b.floorOn exponent, exponent)
  | more + 1, exponent =>
    match b.onGrid? tie exponent with
    | some digits => (digits, exponent)
    | none => b.firstGrid tie more (exponent - 1)

def magnitude (b : Binary) : Int :=
  let guess : Int := (Nat.toDigits 10 b.numerator).length - (Nat.toDigits 10 b.denominator).length
  if b.denominator * tenPower guess ≤ b.numerator * tenPower (-guess) then guess else guess - 1

/-- Moves trailing zeros of the digits into the exponent. -/
def trim : Nat → Nat × Int → Nat × Int
  | 0, d => d
  | more + 1, (digits, exponent) =>
    if digits % 10 = 0 then trim more (digits / 10, exponent + 1) else (digits, exponent)

/-- The shortest decimal `digits · 10 ^ exponent` that rounds to the number, and of the shortest
the nearest. Seventeen digits always suffice. -/
def shortest (b : Binary) (tie : Tie) : Nat × Int :=
  trim 20 (b.firstGrid tie 17 b.magnitude)

end Binary
end StockFlow
