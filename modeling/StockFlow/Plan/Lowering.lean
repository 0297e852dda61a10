import StockFlow.Plan.Clock
import StockFlow.Plan.Term
import StockFlow.Variable

/-!
# Lowering

From equations to terms. A reference to nothing is undefined when it is read, and is no fault; a
call with a wrong number of arguments is one.
-/

namespace StockFlow

/-- Where an equation stands: whose it is, and what its names mean. -/
structure Scope (α : Type) where
  owner : Name
  slot? : Path → Option Nat
  table? : Name → Option (Table α)
  clock : Clock α

namespace Scope

variable {α : Type} [Scalar α]

/-- The term of a slot, undefined where there is none. -/
def loadSlot (slot? : Option Nat) : Term α :=
  match slot? with
  | some slot => .slot slot
  | none => .constant Scalar.undefined

def load (scope : Scope α) (path : Path) : Term α := loadSlot (scope.slot? path)

/-- The term of a reference: reserved names read the clock. -/
def reference (scope : Scope α) (name : Name) : Term α :=
  match ClockReference.ofName? name with
  | some .time => .slot timeSlot
  | some .step => .constant scope.clock.dt
  | some .start => .constant scope.clock.start
  | some .stop => .constant scope.clock.stop
  | none => scope.load name

/-- A call with arguments that the function does not take. -/
def wrongArguments {β : Type} (scope : Scope α) : Except Fault β :=
  .error (.simulation .wrongArguments scope.owner)

/-- The term of a look-up: its first argument must be the name of the table. -/
def lowerLookup (scope : Scope α) (arguments : List (Equation α)) (position : Term α) :
    Except Fault (Term α) :=
  match arguments with
  | .reference name :: _ => .ok (.lookup name (scope.table? name) position)
  | _ => scope.wrongArguments

/-- The term of a call whose arguments have been lowered to `terms`. -/
def lowerCall (scope : Scope α) (function : Name) (arguments : List (Equation α))
    (terms : List (Term α)) : Except Fault (Term α) :=
  match Primitive.ofName? function with
  | none => .error (.simulation .unknownFunction (scope.owner ++ ": " ++ function))
  | some primitive =>
    match primitive, terms with
    | .lookup, [_, position] => scope.lowerLookup arguments position
    | .elementary f, [x] => .ok (.elementary f x)
    | .infinity, [] => .ok .infinity
    | .pi, [] => .ok .pi
    | .maximum, [x, y] => .ok (.maximum x y)
    | .minimum, [x, y] => .ok (.minimum x y)
    | .pulse, [volume, first] => .ok (.pulse volume first (.constant Scalar.zero))
    | .pulse, [volume, first, interval] => .ok (.pulse volume first interval)
    | .safeDivide, [x, y] => .ok (.quotient x y)
    | .safeDivide, [x, y, otherwise] => .ok (.quotientOr x y otherwise)
    | _, _ => scope.wrongArguments

mutual

/-- The term of an equation. Parentheses and a plus sign leave no trace; a minus sign subtracts from
zero. -/
def lower (scope : Scope α) : Equation α → Except Fault (Term α)
  | .constant _ value => .ok (.constant value)
  | .reference name => .ok (scope.reference name)
  | .call function arguments => do
    let terms ← lowerAll scope arguments
    scope.lowerCall function arguments terms
  | .group inner => lower scope inner
  | .unary .positive operand => lower scope operand
  | .unary .negative operand => do
    let operand ← lower scope operand
    return .binary .sub (.constant Scalar.zero) operand
  | .unary .not operand => do
    let operand ← lower scope operand
    return .not operand
  | .binary operator left right => do
    let left ← lower scope left
    let right ← lower scope right
    return .binary operator left right
  | .conditional condition whenTrue whenFalse => do
    let condition ← lower scope condition
    let whenTrue ← lower scope whenTrue
    let whenFalse ← lower scope whenFalse
    return .conditional condition whenTrue whenFalse

def lowerAll (scope : Scope α) : List (Equation α) → Except Fault (List (Term α))
  | [] => .ok []
  | first :: rest => do
    let first ← lower scope first
    let rest ← lowerAll scope rest
    return first :: rest

end

/-- The sum of flows from left to right; zero without any. -/
def sumFlows (scope : Scope α) : List Name → Term α
  | [] => .constant Scalar.zero
  | first :: rest =>
    rest.foldl (fun sum flow => .binary .add sum (scope.load flow)) (scope.load first)

/-- The next value of a stock: the net flow over a step is added. -/
def stockUpdate (scope : Scope α) (slot : Nat) (stock : Stock α) : Term α :=
  let net := Term.binary .sub (scope.sumFlows stock.inflows) (scope.sumFlows stock.outflows)
  let next := Term.binary .add (.slot slot) (.binary .mul net (.constant scope.clock.dt))
  if stock.nonNegative then next.nonNegative else next

/-- The value of a flow or an auxiliary variable: its equation, read through its table. -/
def formulaTerm (scope : Scope α) (formula : Formula α) : Except Fault (Term α) := do
  let term ← scope.lower formula.equation
  let term :=
    match formula.table? with
    | some table => .lookup formula.name (some table) term
    | none => term
  return if formula.isFlow && formula.nonNegative then term.nonNegative else term

end Scope
end StockFlow
