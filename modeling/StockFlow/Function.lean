import StockFlow.Name
import StockFlow.Number.Scalar

/-!
# Functions that equations call

A `Primitive` is computed from its arguments' present values. A `Stateful` function (a delay, a
smoother or a trend) keeps a past of its own and stands for an instance of a library model. Four
reserved names refer to the clock of a run.
-/

namespace StockFlow

inductive Primitive where
  | lookup
  | elementary (function : Elementary)
  | infinity
  | pi
  | maximum
  | minimum
  | pulse
  | safeDivide
  deriving DecidableEq, Repr

namespace Primitive

def names : List (Name × Primitive) := [
  ("lookup", lookup), ("abs", elementary .abs), ("arccos", elementary .arccos),
  ("arcsin", elementary .arcsin), ("arctan", elementary .arctan), ("cos", elementary .cos),
  ("exp", elementary .exp), ("inf", infinity), ("int", elementary .floor),
  ("ln", elementary .ln), ("log10", elementary .log10), ("max", maximum), ("min", minimum),
  ("pi", pi), ("pulse", pulse), ("safediv", safeDivide), ("sin", elementary .sin),
  ("sqrt", elementary .sqrt), ("tan", elementary .tan)]

def ofName? (name : Name) : Option Primitive := names.lookup name

/-- Whether a primitive may be called with so many arguments. -/
def admits : Primitive → Nat → Bool
  | lookup, n => n == 2
  | elementary _, n => n == 1
  | infinity, n => n == 0
  | pi, n => n == 0
  | maximum, n => n == 2
  | minimum, n => n == 2
  | pulse, n => n == 2 || n == 3
  | safeDivide, n => n == 2 || n == 3

end Primitive

/-- The names that equations call without an expansion. -/
def primitiveNames : List Name := [
  "lookup", "abs", "arccos", "arcsin", "arctan", "cos", "exp", "inf", "int", "ln", "log10", "max",
  "min", "pi", "pulse", "safediv", "sin", "sqrt", "tan"]

def isPrimitive (name : Name) : Bool := primitiveNames.contains name

inductive ClockReference where
  | time
  | step
  | start
  | stop
  deriving DecidableEq, Repr

def ClockReference.ofName? (name : Name) : Option ClockReference :=
  [("time", time), ("dt", step), ("initial_time", start), ("final_time", stop)].lookup name

/-- Whether a name needs no declaration: it calls a primitive or refers to the clock. -/
def isReserved (name : Name) : Bool :=
  isPrimitive name || (ClockReference.ofName? name).isSome

inductive Stateful where
  | delay1
  | delay3
  | smooth1
  | smooth3
  | trend
  deriving DecidableEq, Repr

namespace Stateful

/-- All stateful functions in the order of their names. -/
def all : List Stateful := [delay1, delay3, smooth1, smooth3, trend]

/-- The name under which equations call a stateful function. -/
def name : Stateful → Name
  | delay1 => "delay1"
  | delay3 => "delay3"
  | smooth1 => "smth1"
  | smooth3 => "smth3"
  | trend => "trend"

def ofName? (name : Name) : Option Stateful := all.find? (·.name == name)

/-- The inputs of a stateful function's model, in the order of a call's arguments. -/
def inputs (_ : Stateful) : List Name := ["input", "delay_time", "initial_value"]

/-- The name of the library model behind a function name. -/
def modelName (function : Name) : Name := "stdlib·" ++ function

end Stateful
end StockFlow
