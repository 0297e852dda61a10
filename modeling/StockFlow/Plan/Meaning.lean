import StockFlow.Plan.Lowering

/-!
# The meaning of equations

The value of an equation in a row, read off its tree without lowering it: this is what lowering has
to preserve. References read the clock or a slot, a minus sign subtracts from zero, and a table is
found by its name.
-/

namespace StockFlow.Scope

variable {α : Type} [Scalar α]

/-- The value that a path leads to; undefined if it leads nowhere. -/
def slotValue (scope : Scope α) (row : Row α) (path : Path) : α :=
  match scope.slot? path with
  | some slot => row.get slot
  | none => Scalar.undefined

def referenceValue (scope : Scope α) (row : Row α) (name : Name) : α :=
  match ClockReference.ofName? name with
  | some .time => row.time
  | some .step => scope.clock.dt
  | some .start => scope.clock.start
  | some .stop => scope.clock.stop
  | none => scope.slotValue row name

def unaryValue (operator : UnaryOperator) (x : α) : α :=
  match operator with
  | .positive => x
  | .negative => Scalar.zero - x
  | .not => Scalar.ofBool (!Scalar.isTrue x)

/-- The quotient of two numbers, or another value where the divisor is zero. -/
def safeQuotient (x y otherwise : α) : α :=
  if Scalar.same y Scalar.zero then otherwise else x / y

/-- The value of a call of a primitive whose arguments have values; undefined if it may not be
made. -/
def callValue (scope : Scope α) (row : Row α) (primitive : Primitive)
    (arguments : List (Equation α)) (values : List α) : α :=
  match primitive, arguments, values with
  | .lookup, .reference name :: _, [_, x] => Table.lookup? (scope.table? name) x
  | .elementary function, _, [x] => Scalar.elementary function x
  | .infinity, _, [] => Scalar.infinity
  | .pi, _, [] => Scalar.pi
  | .maximum, _, [x, y] => Scalar.maximum x y
  | .minimum, _, [x, y] => Scalar.minimum x y
  | .pulse, _, [volume, first] =>
    Pulse.height scope.clock.dt row.time volume first Scalar.zero
  | .pulse, _, [volume, first, interval] =>
    Pulse.height scope.clock.dt row.time volume first interval
  | .safeDivide, _, [x, y] => safeQuotient x y Scalar.zero
  | .safeDivide, _, [x, y, otherwise] => safeQuotient x y otherwise
  | _, _, _ => Scalar.undefined

mutual

def value (scope : Scope α) (row : Row α) : Equation α → α
  | .constant _ x => x
  | .reference name => scope.referenceValue row name
  | .call function arguments =>
    match Primitive.ofName? function with
    | some primitive => scope.callValue row primitive arguments (values scope row arguments)
    | none => Scalar.undefined
  | .group inner => value scope row inner
  | .unary operator operand => unaryValue operator (value scope row operand)
  | .binary operator left right =>
    operator.apply (value scope row left) (value scope row right)
  | .conditional condition whenTrue whenFalse =>
    if Scalar.isTrue (value scope row condition) then value scope row whenTrue
    else value scope row whenFalse

/-- The values of a list of equations in a row. -/
def values (scope : Scope α) (row : Row α) : List (Equation α) → List α
  | [] => []
  | first :: rest => value scope row first :: values scope row rest

end

end StockFlow.Scope
