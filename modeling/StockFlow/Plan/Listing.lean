import StockFlow.Equation.Printer
import StockFlow.Plan.Code

/-!
# Listings

The code of a plan as text, instance by instance from the root down.
-/

namespace StockFlow

variable {α : Type} [Scalar α]

def BinaryOperator.listingSign : BinaryOperator → String
  | eq => "=="
  | operator => operator.sign

/-- The name of a function of one number in a listing. -/
def Elementary.listingName : Elementary → String
  | abs => "abs"
  | arccos => "arccos"
  | arcsin => "arcsin"
  | arctan => "arctan"
  | cos => "cos"
  | exp => "exp"
  | floor => "int"
  | ln => "ln"
  | log10 => "log10"
  | sin => "sin"
  | sqrt => "sqrt"
  | tan => "tan"

def listCall (function : String) (arguments : List String) : String :=
  function ++ "(" ++ String.intercalate ", " arguments ++ ")"

def Term.list : Term α → String
  | constant value => Scalar.display value
  | slot index => "curr[" ++ toString index ++ "]"
  | infinity => "∞"
  | pi => "𝜋"
  | elementary function argument => listCall function.listingName [argument.list]
  | maximum left right => listCall "max" [left.list, right.list]
  | minimum left right => listCall "min" [left.list, right.list]
  | pulse volume first interval => listCall "pulse" [volume.list, first.list, interval.list]
  | quotient left right => listCall "safediv" [left.list, right.list, "<None>"]
  | quotientOr left right otherwise => listCall "safediv" [left.list, right.list, otherwise.list]
  | lookup name _ argument => listCall "lookup" [name, argument.list]
  | not operand => "!" ++ operand.list
  | binary operator left right =>
    "(" ++ left.list ++ " " ++ operator.listingSign ++ " " ++ right.list ++ ")"
  | conditional condition whenTrue whenFalse =>
    "if " ++ condition.list ++ " then " ++ whenTrue.list ++ " else " ++ whenFalse.list

def Phase.target : Phase → String
  | initials => "curr"
  | flows => "curr"
  | stocks => "next"

def Instruction.list (phase : Phase) : Instruction α → String
  | assign assignment =>
    phase.target ++ "[" ++ toString assignment.slot ++ "] := " ++ assignment.term.list
  | enter module => "eval<" ++ module ++ ">()"

def Code.listPhase (code : Code α) (title : String) (phase : Phase) : String :=
  title ++ ":\n" ++
    String.join ((code.phase phase).map fun line => "\t" ++ line.list phase ++ "\n")

mutual

/-- The listing of an instance and those below it. -/
def Coded.listing : Coded α → String
  | ⟨name, model, _, _, _, code, children⟩ =>
    "\nMODULE: " ++ name ++ " (" ++ model ++ ")\n" ++ code.listPhase "initials" .initials ++
      code.listPhase "flows" .flows ++ code.listPhase "stocks" .stocks ++ Coded.listings children

def Coded.listings : List (Coded α) → String
  | [] => ""
  | first :: rest => Coded.listing first ++ Coded.listings rest

end
end StockFlow
