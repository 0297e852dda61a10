import StockFlow.Equation.Basic
import StockFlow.TimeSpec

/-!
# Project documents

What a modeller writes down: models of variables, each with its definition. Names are display
names, and nothing has been checked yet.
-/

namespace StockFlow

/-- A curve given by points: explicit horizontal points, or a range that they divide evenly. -/
structure GraphicalFunction (α : Type) where
  xPoints? : Option (List α)
  yPoints : List α
  xScale? : Option (α × α)
  deriving Repr

namespace Document

/-- The definition of a stock; its equation gives the initial value. -/
structure Stock (α : Type) where
  name : Name
  text : String
  equation? : Option (Equation α)
  inflows : List Name
  outflows : List Name
  nonNegative : Bool
  deriving Repr

structure Flow (α : Type) where
  name : Name
  text : String
  equation? : Option (Equation α)
  graph? : Option (GraphicalFunction α)
  nonNegative : Bool
  deriving Repr

structure Auxiliary (α : Type) where
  name : Name
  text : String
  equation? : Option (Equation α)
  graph? : Option (GraphicalFunction α)
  deriving Repr

/-- A connection of a module: the variable read, and the input that it feeds. -/
structure Connection where
  source : Path
  target : Path
  deriving DecidableEq, Repr

/-- An instance of a model as a variable of another model. -/
structure Module where
  name : Name
  model : Name
  connections : List Connection
  deriving DecidableEq, Repr

inductive Variable (α : Type) where
  | stock (definition : Stock α)
  | flow (definition : Flow α)
  | auxiliary (definition : Auxiliary α)
  | module (definition : Module)
  deriving Repr

def Variable.name {α : Type} : Variable α → Name
  | stock definition => definition.name
  | flow definition => definition.name
  | auxiliary definition => definition.name
  | module definition => definition.name

/-- A model: a name, possibly a time specification of its own, and definitions. -/
structure Model (α : Type) where
  name : Name
  timeSpec? : Option (TimeSpec α)
  definitions : List (Variable α)
  deriving Repr

structure Project (α : Type) where
  name : String
  timeSpec : TimeSpec α
  models : List (Model α)
  deriving Repr

end Document
end StockFlow
