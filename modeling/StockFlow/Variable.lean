import StockFlow.Library
import StockFlow.Table

/-!
# Variables

A definition that has been checked on its own: names are canonical, every variable but a module has
an equation, a graphical function is a table, and the inputs of a module are told apart by where
their sources are looked up.
-/

namespace StockFlow

/-- Where the value of a module input comes from. -/
inductive Source where
  /-- A path that starts in the model that holds the module. -/
  | relative (path : Path)
  | absolute (path : Path)
  deriving DecidableEq, Repr

namespace Source

def path : Source → Path
  | relative path => path
  | absolute path => path

/-- The path, with a leading dot if it starts in the main model. -/
def symbol : Source → Path
  | relative path => path
  | absolute path => "." ++ path

def isAbsolute : Source → Bool
  | relative _ => false
  | absolute _ => true

def ofSymbol (path : Path) : Source :=
  match Path.after? "." path with
  | some path => absolute path
  | none => relative path

end Source

/-- An input of a module: the variable of its model that is overridden, and by what. -/
structure Input where
  source : Source
  target : Name
  deriving DecidableEq, Repr

/-- Reads a connection of the module `name`. A source inside the module itself is passed over; a
target must lie inside it. -/
def Input.resolve (name : Name) (connection : Document.Connection) :
    Except EquationFault (Option Input) :=
  let inside := name ++ "."
  let source := Name.canonical connection.source
  if (Path.after? inside source).isSome then .ok none
  else
    match Path.after? inside (Name.canonical connection.target) with
    | some target =>
      if target = "" then .error ⟨.badInputTarget, some connection.target⟩
      else .ok (some ⟨Source.ofSymbol source, target⟩)
    | none => .error ⟨.badInputTarget, some connection.target⟩

structure Stock (α : Type) where
  name : Name
  text : String
  initial : Equation α
  inflows : List Name
  outflows : List Name
  nonNegative : Bool
  deriving Repr

/-- A quantity that is computed at each step: a flow or an auxiliary variable. -/
structure Formula (α : Type) where
  name : Name
  text : String
  equation : Equation α
  table? : Option (Table α)
  isFlow : Bool
  nonNegative : Bool
  deriving Repr

structure Module where
  name : Name
  model : Name
  inputs : List Input
  deriving DecidableEq, Repr

inductive Variable (α : Type) where
  | stock (stock : Stock α)
  | formula (formula : Formula α)
  | module (module : Module)
  deriving Repr

namespace Variable

variable {α : Type}

/-! ## Views -/

def name : Variable α → Name
  | stock s => s.name
  | formula f => f.name
  | module m => m.name

def equation? : Variable α → Option (Equation α)
  | stock s => some s.initial
  | formula f => some f.equation
  | module _ => none

/-- Puts another equation in place of a variable's own. -/
def withEquation (equation : Equation α) : Variable α → Variable α
  | stock s => stock { s with initial := equation }
  | formula f => formula { f with equation := equation }
  | module m => module m

def table? : Variable α → Option (Table α)
  | stock _ => none
  | formula f => f.table?
  | module _ => none

def isStock : Variable α → Bool
  | stock _ => true
  | formula _ => false
  | module _ => false

def module? : Variable α → Option Module
  | stock _ => none
  | formula _ => none
  | module m => some m

/-- Whether a variable is an instance of a model. -/
def isModule (v : Variable α) : Bool := v.module?.isSome

def flows : Variable α → List Name
  | stock s => s.inflows ++ s.outflows
  | formula _ => []
  | module _ => []

/-- The paths that a variable's value depends on directly: the names in its equation, or the
sources of a module's inputs that are looked up beside it. -/
def sources : Variable α → NameSet
  | stock s => s.initial.names
  | formula f => f.equation.names
  | module m =>
    NameSet.ofList (m.inputs.filterMap fun input =>
      match input.source with
      | .relative path => some path
      | .absolute _ => none)

/-! ## Checking definitions -/

variable [Scalar α]

/-- The equation of a definition: its tree with canonical names, or the number that its text
writes. -/
def readEquation (name : Name) (equation? : Option (Equation α)) (text : String) :
    Except EquationFault (Equation α) :=
  match equation? with
  | some equation => .ok (equation.mapNames Name.canonical)
  | none =>
    let text := Text.trim text
    match Literal.read? text with
    | some literal => .ok (.constant text (Scalar.ofLiteral literal))
    | none =>
      if text = "" then .error ⟨.emptyEquation, some name⟩
      else .error ⟨.emptyEquation, some ("'" ++ text ++ "' needs an expression tree")⟩

/-- The table of a definition. A graphical function with a fault is passed over. -/
def readTable (graph? : Option (GraphicalFunction α)) : Option (Table α) :=
  graph?.bind fun graph => (Table.build graph).toOption

/-- The equation of a definition with a table: where nothing is written, the table is read at the
time. -/
def readFormula (name : Name) (equation? : Option (Equation α)) (text : String)
    (table? : Option (Table α)) : Except EquationFault (Equation α) :=
  if table?.isSome && equation?.isNone && Text.isAllBlank text then .ok (.reference "time")
  else readEquation name equation? text

def ofDefinition : Document.Variable α → Except EquationFault (Variable α)
  | .stock definition => do
    let name := Name.canonical definition.name
    let initial ← readEquation name definition.equation? definition.text
    return stock ⟨name, definition.text, initial, definition.inflows.map Name.canonical,
      definition.outflows.map Name.canonical, definition.nonNegative⟩
  | .flow definition => do
    let name := Name.canonical definition.name
    let table? := readTable definition.graph?
    let equation ← readFormula name definition.equation? definition.text table?
    return formula ⟨name, definition.text, equation, table?, true, definition.nonNegative⟩
  | .auxiliary definition => do
    let name := Name.canonical definition.name
    let table? := readTable definition.graph?
    let equation ← readFormula name definition.equation? definition.text table?
    return formula ⟨name, definition.text, equation, table?, false, false⟩
  | .module definition => do
    let name := Name.canonical definition.name
    let inputs ← definition.connections.mapM (Input.resolve name)
    return module ⟨name, definition.model, inputs.filterMap id⟩

end Variable
end StockFlow
