import StockFlow.Equation.Basic

/-!
# Printed equations

The text of an equation: operators between operands are always parenthesised, so that the text
shows the tree.
-/

namespace StockFlow

def UnaryOperator.sign : UnaryOperator → String
  | positive => "+"
  | negative => "-"
  | not => "!"

/-- The sign of an operator between operands in the text of an equation. -/
def BinaryOperator.sign : BinaryOperator → String
  | add => "+"
  | sub => "-"
  | exp => "^"
  | mul => "*"
  | div => "/"
  | mod => "%"
  | gt => ">"
  | lt => "<"
  | gte => ">="
  | lte => "<="
  | eq => "="
  | neq => "!="
  | and => "&&"
  | or => "||"

namespace Equation

variable {α : Type}

mutual

def print : Equation α → String
  | constant text _ => text
  | reference name => name
  | call function arguments =>
    function ++ "(" ++ String.intercalate ", " (printAll arguments) ++ ")"
  | group inner => "(" ++ print inner ++ ")"
  | unary operator operand => operator.sign ++ print operand
  | binary operator left right =>
    "(" ++ print left ++ " " ++ operator.sign ++ " " ++ print right ++ ")"
  | conditional condition whenTrue whenFalse =>
    "if (" ++ print condition ++ ") then (" ++ print whenTrue ++ ") else (" ++
      print whenFalse ++ ")"

def printAll : List (Equation α) → List String
  | [] => []
  | first :: rest => print first :: printAll rest

end

end Equation
end StockFlow
