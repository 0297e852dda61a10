import StockFlow.Function
import StockFlow.Keyed

/-!
# Equations

An equation is a tree over constants, references to variables and calls of functions. A constant
keeps the text it was written with beside its value.
-/

namespace StockFlow

inductive UnaryOperator where
  | positive
  | negative
  | not
  deriving DecidableEq, Repr

inductive BinaryOperator where
  | add
  | sub
  | exp
  | mul
  | div
  | mod
  | gt
  | lt
  | gte
  | lte
  | eq
  | neq
  | and
  | or
  deriving DecidableEq, Repr

inductive Equation (α : Type) where
  | constant (text : String) (value : α)
  | reference (name : Name)
  | call (function : Name) (arguments : List (Equation α))
  | group (inner : Equation α)
  | unary (operator : UnaryOperator) (operand : Equation α)
  | binary (operator : BinaryOperator) (left right : Equation α)
  | conditional (condition whenTrue whenFalse : Equation α)
  deriving Repr

namespace Equation

variable {α : Type}

def natural [Scalar α] (n : Nat) : Equation α := constant (toString n) (Scalar.ofNat n)

/-- Whether an equation is a number with signs and parentheses around it. -/
def isConstant : Equation α → Bool
  | constant _ _ => true
  | group inner => inner.isConstant
  | unary _ operand => operand.isConstant
  | _ => false

/-! ## Names in an equation -/

mutual

/-- Applies a function to every name in an equation, of variables and of functions. -/
def mapNames (f : Name → Name) : Equation α → Equation α
  | constant text value => constant text value
  | reference name => reference (f name)
  | call function arguments => call (f function) (mapNamesAll f arguments)
  | group inner => group (mapNames f inner)
  | unary operator operand => unary operator (mapNames f operand)
  | binary operator left right => binary operator (mapNames f left) (mapNames f right)
  | conditional condition whenTrue whenFalse =>
    conditional (mapNames f condition) (mapNames f whenTrue) (mapNames f whenFalse)

def mapNamesAll (f : Name → Name) : List (Equation α) → List (Equation α)
  | [] => []
  | first :: rest => mapNames f first :: mapNamesAll f rest

end

mutual

/-- The names in an equation that need a declaration, from left to right. -/
def declared : Equation α → List Name
  | constant _ _ => []
  | reference name => if isReserved name then [] else [name]
  | call function arguments =>
    (if isPrimitive function then [] else [function]) ++ declaredAll arguments
  | group inner => declared inner
  | unary _ operand => declared operand
  | binary _ left right => declared left ++ declared right
  | conditional condition whenTrue whenFalse =>
    declared condition ++ declared whenTrue ++ declared whenFalse

def declaredAll : List (Equation α) → List Name
  | [] => []
  | first :: rest => declared first ++ declaredAll rest

end

/-- The set of names in an equation that need a declaration. -/
def names (equation : Equation α) : NameSet := NameSet.ofList equation.declared

mutual

/-- The values of the constants in an equation, from left to right. -/
def constants : Equation α → List α
  | constant _ value => [value]
  | reference _ => []
  | call _ arguments => constantsAll arguments
  | group inner => constants inner
  | unary _ operand => constants operand
  | binary _ left right => constants left ++ constants right
  | conditional condition whenTrue whenFalse =>
    constants condition ++ constants whenTrue ++ constants whenFalse

def constantsAll : List (Equation α) → List α
  | [] => []
  | first :: rest => constants first ++ constantsAll rest

end

/-! ## Calls in an equation -/

mutual

/-- The calls in an equation with their arguments; inner calls come after the call around them. -/
def calls : Equation α → List (Name × List (Equation α))
  | constant _ _ => []
  | reference _ => []
  | call function arguments => (function, arguments) :: callsAll arguments
  | group inner => calls inner
  | unary _ operand => calls operand
  | binary _ left right => calls left ++ calls right
  | conditional condition whenTrue whenFalse =>
    calls condition ++ calls whenTrue ++ calls whenFalse

def callsAll : List (Equation α) → List (Name × List (Equation α))
  | [] => []
  | first :: rest => calls first ++ callsAll rest

end

/-- Whether a call may be made: of a primitive, with a number of arguments that it takes; a look-up
needs the name of a table first. -/
def isAdmissible (function : Name) (arguments : List (Equation α)) : Bool :=
  match Primitive.ofName? function, arguments with
  | some .lookup, [reference _, _] => true
  | some .lookup, _ => false
  | some primitive, arguments => primitive.admits arguments.length
  | none, _ => false

end Equation
end StockFlow
