import StockFlow.Number.Scalar

/-!
# Binary floating point

The 64-bit floats as scalars. What the hardware does not offer is built here from the bits: the
exact remainder, equality up to a few units in the last place, decimal text, and the two ways to
read a decimal (rounded to nearest, and from a 64-bit significand scaled by a power of ten).
-/

namespace StockFlow.Double

/-! ## Bits -/

def isNegative (x : Float) : Bool := decide (Nat.pow 2 63 ≤ x.toBits.toNat)

/-- The magnitude of a finite float as a binary number. -/
def toBinary (x : Float) : Binary :=
  let fraction : Nat := x.toBits.toNat % Nat.pow 2 52
  let biased : Nat := x.toBits.toNat / Nat.pow 2 52 % Nat.pow 2 11
  if biased = 0 then ⟨fraction, -1074, false⟩
  else ⟨Nat.pow 2 52 + fraction, (biased : Int) - 1075, fraction = 0 && 1 < biased⟩

/-- The float `2 ^ k` for `-1074 ≤ k ≤ 1023`. -/
def twoPower (k : Int) : Float :=
  if -1022 ≤ k then Float.ofBits (UInt64.ofNat ((k + 1023).toNat * Nat.pow 2 52))
  else Float.ofBits (UInt64.ofNat (Nat.pow 2 (k + 1074).toNat))

/-- The float `mantissa · 2 ^ exponent`, exact for a mantissa below `2 ^ 53`. -/
def ofBinary (mantissa : Nat) (exponent : Int) : Float :=
  (UInt64.ofNat mantissa).toFloat * twoPower exponent

def signed (negative : Bool) (x : Float) : Float := if negative then -x else x

/-! ## Arithmetic -/

/-- The exact remainder of a truncated division, with the sign of the dividend. -/
def remainder (x y : Float) : Float :=
  if x.isNaN || y.isNaN || x.isInf || y == 0 then 0 / 0
  else if y.isInf || x == 0 then x
  else
    let a := toBinary x
    let b := toBinary y
    let unit := min a.exponent b.exponent
    let rest := (a.mantissa * Nat.pow 2 (a.exponent - unit).toNat) %
      (b.mantissa * Nat.pow 2 (b.exponent - unit).toNat)
    signed (isNegative x) (ofBinary rest unit)

def modulo (x y : Float) : Float :=
  let rest := remainder x y
  if rest < 0 then rest + y.abs else rest

def epsilon : Float := twoPower (-52)

/-- Equal, at most `epsilon` apart, or at most four floats apart. -/
def close (x y : Float) : Bool :=
  x == y || (x - y).abs ≤ epsilon ||
    (let gap := x.toBits - y.toBits; gap ≤ 4 || 0 - gap ≤ 4)

/-- The functions that equations may call, as the mathematics library computes them. -/
def elementary : Elementary → Float → Float
  | .abs => Float.abs
  | .arccos => Float.acos
  | .arcsin => Float.asin
  | .arctan => Float.atan
  | .cos => Float.cos
  | .exp => Float.exp
  | .floor => Float.floor
  | .ln => Float.log
  | .log10 => Float.log10
  | .sin => Float.sin
  | .sqrt => Float.sqrt
  | .tan => Float.tan

/-! ## Reading decimals -/

/-- The float nearest to a decimal. Magnitudes beyond every float need no arithmetic. -/
def ofDecimal (d : Decimal) : Float :=
  let magnitude := d.exponent + (Digits.ofNat d.digits).length
  signed d.negative <|
    if d.digits = 0 ∨ magnitude < -330 then 0
    else if 330 < magnitude then 1 / 0
    else if 0 ≤ d.exponent then Float.ofScientific d.digits false d.exponent.toNat
    else Float.ofScientific d.digits true (-d.exponent).toNat

def ofNat (n : Nat) : Float :=
  if n < Nat.pow 2 64 then (UInt64.ofNat n).toFloat else ofDecimal ⟨false, n, 0⟩

def ofLiteral : Literal → Float
  | .finite d => ofDecimal d
  | .infinite negative => signed negative (1 / 0)
  | .undefined negative => signed negative (0 / 0)

def tenPower (k : Nat) : Float := Float.ofScientific 1 false k

/-- Divides by `10 ^ k`, at most by `10 ^ 308` at a time. -/
def scaleDown : Nat → Float → Nat → Float
  | 0, _, _ => 0
  | steps + 1, x, k =>
    if x == 0 then x
    else if k ≤ 308 then x / tenPower k
    else scaleDown steps (x / tenPower 308) (k - 308)

/-- The value of a number token: a whole number of at most 64 bits rounds to nearest; any other
token is its 64-bit significand scaled by a power of ten, each of the two operations rounded. A
token beyond the largest float has no value. -/
def ofNumeral? (n : Numeral) : Option Float :=
  let (significand, exponent) := n.scaled
  let x := (UInt64.ofNat significand).toFloat
  if exponent < 0 then some (signed n.negative (scaleDown 4 x (-exponent).toNat))
  else if significand = 0 then some (signed n.negative 0)
  else if 308 < exponent then none
  else
    let y := x * tenPower exponent.toNat
    if y.isInf then none else some (signed n.negative y)

/-! ## Writing decimals -/

/-- The text of a float in a number style. -/
def text (style : NumberStyle) (x : Float) : String :=
  if x.isNaN then "NaN"
  else
    let sign := if isNegative x then "-" else ""
    if x.isInf then sign ++ "inf"
    else if x == 0 then sign ++ style.unsigned 0 0
    else
      let (digits, exponent) := (toBinary x).shortest style.tie
      sign ++ style.unsigned digits exponent

def toNumeral (x : Float) : Numeral :=
  if x == 0 then ⟨isNegative x, [0], [], 0, false⟩
  else
    let (digits, exponent) := (toBinary x).shortest .even
    ⟨isNegative x, Digits.ofNat digits, [], exponent, false⟩

instance : Scalar Float where
  ofNat := ofNat
  undefined := 0 / 0
  infinity := 1 / 0
  pi := Float.ofBits 0x400921fb54442d18
  power := Float.pow
  modulo := modulo
  elementary := elementary
  lt x y := x < y
  le x y := x ≤ y
  same x y := x == y
  close := close
  isFinite := Float.isFinite
  isUndefined := Float.isNaN
  count x := x.toUInt64.toNat
  ofLiteral := ofLiteral
  ofNumeral? := ofNumeral?
  toNumeral := toNumeral
  text := text

end StockFlow.Double
