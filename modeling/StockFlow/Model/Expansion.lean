import StockFlow.Library

/-!
# Expanding stateful functions

A call of a stateful function becomes a reference to the output of a module of its own, whose inputs
are the call's arguments. An argument that is no plain reference moves into an auxiliary variable.
The variables so made are named for the variable whose equation held the call and for the number of
the call in that equation.
-/

namespace StockFlow

/-- What is left of equations after expansion, the definitions made on the way, and the number of
the next call. -/
structure Expanded (α β : Type) where
  result : β
  made : List (Document.Variable α)
  calls : Nat

namespace Expansion

variable {α : Type}

/-! ## Names of what is made -/

/-- The beginning of the names made for one call. -/
def stem (owner : Name) (call : Nat) : Name := "$·" ++ owner ++ "·" ++ toString call ++ "·"

/-- The name of the auxiliary variable for an argument. -/
def argumentName (owner : Name) (call index : Nat) : Name :=
  stem owner call ++ "arg" ++ toString index

def moduleName (owner : Name) (call : Nat) (function : Name) : Name := stem owner call ++ function

/-! ## One call -/

def argumentSource (owner : Name) (call index : Nat) : Equation α → Name
  | .reference name => name
  | _ => argumentName owner call index

/-- The auxiliary variable made for an argument, unless it is a plain reference. -/
def argumentVariable (owner : Name) (call index : Nat) : Equation α → List (Document.Variable α)
  | .reference _ => []
  | argument =>
    [.auxiliary ⟨argumentName owner call index, argument.print, some argument, none⟩]

/-- The sources of a call's arguments, which are numbered from `index`. -/
def sources (owner : Name) (call index : Nat) : List (Equation α) → List Name
  | [] => []
  | first :: rest =>
    argumentSource owner call index first :: sources owner call (index + 1) rest

/-- The auxiliary variables made for a call's arguments, which are numbered from `index`. -/
def hoisted (owner : Name) (call index : Nat) : List (Equation α) → List (Document.Variable α)
  | [] => []
  | first :: rest =>
    argumentVariable owner call index first ++ hoisted owner call (index + 1) rest

/-- The module made for a call: its inputs are connected to the arguments in order. -/
def callModule (owner : Name) (call : Nat) (function : Stateful) (arguments : List (Equation α)) :
    Document.Module :=
  let name := moduleName owner call function.name
  let connections := (sources owner call 0 arguments).zip function.inputs
  ⟨name, Stateful.modelName function.name,
    connections.map fun (source, input) => ⟨source, name ++ "." ++ input⟩⟩

def expandCall (owner function : Name) (arguments : Expanded α (List (Equation α))) :
    Except EquationFault (Expanded α (Equation α)) :=
  let given := arguments.result
  if isPrimitive function then .ok { arguments with result := .call function given }
  else
    match Stateful.ofName? function with
    | none => .error ⟨.unknownFunction, some function⟩
    | some stateful =>
      let most := stateful.inputs.length
      if given.length = 0 ∨ most < given.length then
        .error ⟨.wrongArguments, some (function ++ " takes 1 to " ++ toString most ++
          " arguments, not " ++ toString given.length)⟩
      else
        let call := arguments.calls
        .ok {
          result := .reference (moduleName owner call function ++ ".output")
          made := arguments.made ++ hoisted owner call 0 given ++
            [.module (callModule owner call stateful given)]
          calls := call + 1 }

/-! ## Equations -/

mutual

/-- Expands the calls in an equation of the variable `owner`, inner calls first. -/
def expand (owner : Name) : Equation α → Nat → Except EquationFault (Expanded α (Equation α))
  | .constant text value, calls => .ok ⟨.constant text value, [], calls⟩
  | .reference name, calls => .ok ⟨.reference name, [], calls⟩
  | .call function arguments, calls => do
    let arguments ← expandAll owner arguments calls
    expandCall owner function arguments
  | .group inner, calls => do
    let inner ← expand owner inner calls
    return { inner with result := .group inner.result }
  | .unary operator operand, calls => do
    let operand ← expand owner operand calls
    return { operand with result := .unary operator operand.result }
  | .binary operator left right, calls => do
    let left ← expand owner left calls
    let right ← expand owner right left.calls
    return ⟨.binary operator left.result right.result, left.made ++ right.made, right.calls⟩
  | .conditional condition whenTrue whenFalse, calls => do
    let condition ← expand owner condition calls
    let whenTrue ← expand owner whenTrue condition.calls
    let whenFalse ← expand owner whenFalse whenTrue.calls
    return ⟨.conditional condition.result whenTrue.result whenFalse.result,
      condition.made ++ whenTrue.made ++ whenFalse.made, whenFalse.calls⟩

def expandAll (owner : Name) :
    List (Equation α) → Nat → Except EquationFault (Expanded α (List (Equation α)))
  | [], calls => .ok ⟨[], [], calls⟩
  | first :: rest, calls => do
    let first ← expand owner first calls
    let rest ← expandAll owner rest first.calls
    return ⟨first.result :: rest.result, first.made ++ rest.made, rest.calls⟩

end

end Expansion
end StockFlow
