import StockFlow.Document.Decode

/-!
# Encoding documents

How project documents are written as JSON. Fields that hold what their absence means are left out.
The document of a number is a parameter: `Json.ofScalar` writes numbers as documents do.
-/

namespace StockFlow

namespace Json

def ofNames (names : List Name) : Json := list (names.map text)

def ofScalar {α : Type} [Scalar α] (x : α) : Json := number (Scalar.toNumeral x)

def field (name : String) (value : Json) : List (String × Json) := [(name, value)]

/-- A field that is written if a condition holds. -/
def fieldIf (condition : Bool) (name : String) (value : Json) : List (String × Json) :=
  if condition then [(name, value)] else []

/-- A field that is written if there is a value. -/
def fieldOf {β : Type} (name : String) (encode : β → Json) (value? : Option β) :
    List (String × Json) :=
  match value? with
  | some value => [(name, encode value)]
  | none => []

end Json

def UnaryOperator.name : UnaryOperator → String
  | positive => "positive"
  | negative => "negative"
  | not => "not"

def BinaryOperator.name : BinaryOperator → String
  | add => "add"
  | sub => "sub"
  | exp => "exp"
  | mul => "mul"
  | div => "div"
  | mod => "mod"
  | gt => "gt"
  | lt => "lt"
  | gte => "gte"
  | lte => "lte"
  | eq => "eq"
  | neq => "neq"
  | and => "and"
  | or => "or"

theorem UnaryOperator.ofJson?_name (operator : UnaryOperator) :
    ofJson? (.text operator.name) = some operator := by
  cases operator <;> decide

theorem BinaryOperator.ofJson?_name (operator : BinaryOperator) :
    ofJson? (.text operator.name) = some operator := by
  cases operator <;> decide

variable {α : Type} (scalar : α → Json)

mutual

def Equation.toJson : Equation α → Json
  | constant written value => .object [("const", .list [.text written, scalar value])]
  | reference name => .object [("var", .text name)]
  | call function arguments =>
    .object [("app", .list [.text function, .list (Equation.toJsonAll arguments)])]
  | group inner => .object [("paren", Equation.toJson inner)]
  | unary operator operand =>
    .object [("op1", .list [.text operator.name, Equation.toJson operand])]
  | binary operator left right =>
    .object
      [("op2", .list [.text operator.name, Equation.toJson left, Equation.toJson right])]
  | conditional condition whenTrue whenFalse =>
    .object
      [("if", .list
        [Equation.toJson condition, Equation.toJson whenTrue, Equation.toJson whenFalse])]

def Equation.toJsonAll : List (Equation α) → List Json
  | [] => []
  | first :: rest => Equation.toJson first :: Equation.toJsonAll rest

end

def GraphicalFunction.toJson (graph : GraphicalFunction α) : Json :=
  let points (values : List α) : Json := .list (values.map scalar)
  let range (ends : α × α) : Json := .object [("min", scalar ends.1), ("max", scalar ends.2)]
  .object <|
    Json.fieldOf "x_points" points graph.xPoints? ++
    Json.field "y_points" (points graph.yPoints) ++
    Json.fieldOf "x_scale" range graph.xScale?

def TimeSpec.toJson (spec : TimeSpec α) : Json :=
  .object <|
    Json.field "start" (scalar spec.start) ++
    Json.field "stop" (scalar spec.stop) ++
    Json.field "dt" (scalar spec.dt) ++
    Json.fieldOf "save_step" scalar spec.saveStep?

namespace Document

def Stock.fields (stock : Stock α) : List (String × Json) :=
  Json.field "ident" (.text stock.name) ++
  Json.fieldIf (stock.text != "") "equation" (.text stock.text) ++
  Json.fieldOf "ast" (Equation.toJson scalar) stock.equation? ++
  Json.fieldIf (!stock.inflows.isEmpty) "inflows" (Json.ofNames stock.inflows) ++
  Json.fieldIf (!stock.outflows.isEmpty) "outflows" (Json.ofNames stock.outflows) ++
  Json.fieldIf stock.nonNegative "non_negative" (.boolean true)

def Flow.fields (flow : Flow α) : List (String × Json) :=
  Json.field "ident" (.text flow.name) ++
  Json.fieldIf (flow.text != "") "equation" (.text flow.text) ++
  Json.fieldOf "ast" (Equation.toJson scalar) flow.equation? ++
  Json.fieldOf "gf" (GraphicalFunction.toJson scalar) flow.graph? ++
  Json.fieldIf flow.nonNegative "non_negative" (.boolean true)

def Auxiliary.fields (auxiliary : Auxiliary α) : List (String × Json) :=
  Json.field "ident" (.text auxiliary.name) ++
  Json.fieldIf (auxiliary.text != "") "equation" (.text auxiliary.text) ++
  Json.fieldOf "ast" (Equation.toJson scalar) auxiliary.equation? ++
  Json.fieldOf "gf" (GraphicalFunction.toJson scalar) auxiliary.graph?

def Connection.toJson (connection : Connection) : Json :=
  .object [("src", .text connection.source), ("dst", .text connection.target)]

def Module.fields (module : Module) : List (String × Json) :=
  Json.field "ident" (.text module.name) ++
  Json.field "model_name" (.text module.model) ++
  Json.fieldIf (!module.connections.isEmpty) "references"
    (.list (module.connections.map Connection.toJson))

/-- The document of a variable: its fields after the name of its kind. -/
def Variable.toJson : Variable α → Json
  | stock definition => .object (("type", .text "stock") :: definition.fields scalar)
  | flow definition => .object (("type", .text "flow") :: definition.fields scalar)
  | auxiliary definition => .object (("type", .text "aux") :: definition.fields scalar)
  | module definition => .object (("type", .text "module") :: definition.fields)

def Model.toJson (model : Model α) : Json :=
  .object <|
    Json.field "name" (.text model.name) ++
    Json.fieldOf "sim_specs" (TimeSpec.toJson scalar) model.timeSpec? ++
    Json.fieldIf (!model.definitions.isEmpty) "variables"
      (.list (model.definitions.map (Variable.toJson scalar)))

def Project.toJson (project : Project α) : Json :=
  .object <|
    Json.fieldIf (project.name != "") "name" (.text project.name) ++
    Json.field "sim_specs" (project.timeSpec.toJson scalar) ++
    Json.field "models" (.list (project.models.map (Model.toJson scalar)))

end Document
end StockFlow
