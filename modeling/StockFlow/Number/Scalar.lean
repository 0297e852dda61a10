import StockFlow.Number.Decimal
import StockFlow.Number.Style

/-!
# Scalars

The arithmetic that equations, tables and the integrator use. Everything in this library that
computes does so over any `Scalar`; programs run on binary floating point (`Number/Double.lean`),
and a field with exact operations serves for reasoning about what the arithmetic means.
-/

namespace StockFlow

/-- The functions of one number that equations may call. -/
inductive Elementary where
  | abs
  | arccos
  | arcsin
  | arctan
  | cos
  | exp
  | floor
  | ln
  | log10
  | sin
  | sqrt
  | tan
  deriving DecidableEq, Repr

/-- Numbers to simulate with. Comparisons are Boolean because an undefined number compares with
nothing, not even with itself. -/
class Scalar (α : Type) extends Add α, Sub α, Mul α, Div α where
  ofNat : Nat → α
  undefined : α
  infinity : α
  pi : α
  power : α → α → α
  /-- The remainder of a division that is not below zero. -/
  modulo : α → α → α
  elementary : Elementary → α → α
  lt : α → α → Bool
  le : α → α → Bool
  same : α → α → Bool
  /-- Equality up to a few units in the last place. -/
  close : α → α → Bool
  isFinite : α → Bool
  isUndefined : α → Bool
  /-- The whole part as a count: zero below one, at most the largest machine word. -/
  count : α → Nat
  ofLiteral : Literal → α
  /-- The value of a number token of a document, unless it is out of range. -/
  ofNumeral? : Numeral → Option α
  toNumeral : α → Numeral
  text : NumberStyle → α → String

namespace Scalar

variable {α : Type} [Scalar α]

def zero : α := ofNat 0

def ofInt (n : Int) : α := if n < 0 then zero - ofNat n.natAbs else ofNat n.natAbs

def ofBool (b : Bool) : α := ofNat (if b then 1 else 0)

/-- A number counts as true unless it is close to zero. -/
def isTrue (x : α) : Bool := !close x zero

/-- The larger of two numbers; the second if they do not compare. -/
def maximum (x y : α) : α := if lt y x then x else y

/-- The smaller of two numbers; the second if they do not compare. -/
def minimum (x y : α) : α := if lt x y then x else y

/-- The text of a number in messages and listings. -/
def display (x : α) : String := text .positional x

end Scalar
end StockFlow
