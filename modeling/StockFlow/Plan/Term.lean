import StockFlow.Equation.Basic
import StockFlow.Plan.Row
import StockFlow.Pulse
import StockFlow.Table

/-!
# Terms

An equation made ready for a row: references are slots, calls are built in, tables are at hand. The
value of a term depends on nothing but the row and the length of a step.
-/

namespace StockFlow

inductive Term (α : Type) where
  | constant (value : α)
  | slot (index : Nat)
  | infinity
  | pi
  | elementary (function : Elementary) (argument : Term α)
  | maximum (left right : Term α)
  | minimum (left right : Term α)
  | pulse (volume first interval : Term α)
  /-- A quotient that is zero where the divisor is. -/
  | quotient (left right : Term α)
  /-- A quotient with a value for a divisor of zero. -/
  | quotientOr (left right otherwise : Term α)
  | lookup (name : Name) (table? : Option (Table α)) (argument : Term α)
  | not (operand : Term α)
  | binary (operator : BinaryOperator) (left right : Term α)
  | conditional (condition whenTrue whenFalse : Term α)
  deriving Repr

variable {α : Type} [Scalar α]

/-- The result of an operator; comparisons give one or zero. -/
def BinaryOperator.apply : BinaryOperator → α → α → α
  | add, x, y => x + y
  | sub, x, y => x - y
  | exp, x, y => Scalar.power x y
  | mul, x, y => x * y
  | div, x, y => x / y
  | mod, x, y => Scalar.modulo x y
  | gt, x, y => Scalar.ofBool (Scalar.lt y x)
  | lt, x, y => Scalar.ofBool (Scalar.lt x y)
  | gte, x, y => Scalar.ofBool (Scalar.le y x)
  | lte, x, y => Scalar.ofBool (Scalar.le x y)
  | eq, x, y => Scalar.ofBool (Scalar.close x y)
  | neq, x, y => Scalar.ofBool (!Scalar.close x y)
  | and, x, y => Scalar.ofBool (Scalar.isTrue x && Scalar.isTrue y)
  | or, x, y => Scalar.ofBool (Scalar.isTrue x || Scalar.isTrue y)

/-- The height of a curve; undefined without a table. -/
def Table.lookup? (table? : Option (Table α)) (x : α) : α :=
  match table? with
  | some table => table.lookup x
  | none => Scalar.undefined

namespace Term

/-- The value of a term in a row, at steps of length `dt`. Only the chosen branch of a conditional
counts, and the other value of a quotient only where the divisor is zero. -/
def value (dt : α) (row : Row α) : Term α → α
  | constant x => x
  | slot index => row.get index
  | infinity => Scalar.infinity
  | pi => Scalar.pi
  | elementary function argument => Scalar.elementary function (argument.value dt row)
  | maximum left right => Scalar.maximum (left.value dt row) (right.value dt row)
  | minimum left right => Scalar.minimum (left.value dt row) (right.value dt row)
  | pulse volume first interval =>
    Pulse.height dt row.time (volume.value dt row) (first.value dt row) (interval.value dt row)
  | quotient left right =>
    let divisor := right.value dt row
    if Scalar.same divisor Scalar.zero then Scalar.zero else left.value dt row / divisor
  | quotientOr left right otherwise =>
    let divisor := right.value dt row
    if Scalar.same divisor Scalar.zero then otherwise.value dt row
    else left.value dt row / divisor
  | lookup _ table? argument => Table.lookup? table? (argument.value dt row)
  | not operand => Scalar.ofBool (!Scalar.isTrue (operand.value dt row))
  | binary operator left right => operator.apply (left.value dt row) (right.value dt row)
  | conditional condition whenTrue whenFalse =>
    if Scalar.isTrue (condition.value dt row) then whenTrue.value dt row
    else whenFalse.value dt row

def nonNegative (term : Term α) : Term α := maximum term (constant Scalar.zero)

end Term
end StockFlow
