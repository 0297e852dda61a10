import StockFlow.Document.Basic
import StockFlow.Json.Basic

/-!
# Decoding documents

How project documents are written in JSON. Members that no field asks for are passed over, a field
may be given only once, and `null` stands for a value only where the value may be missing.
-/

namespace StockFlow

/-! ## Fields -/

namespace Json

/-- The members of an object, provided that no field is given twice. -/
def fields? (names : List String) (document : Json) : Option (List (String × Json)) :=
  match document.members? with
  | some members =>
    if names.all fun name => (members.filter (·.1 == name)).length ≤ 1 then some members
    else none
  | none => none

def required {β : Type} (members : List (String × Json)) (name : String)
    (decode : Json → Option β) : Option β :=
  (members.lookup name).bind decode

/-- A field that has a value of its own when it is left out. -/
def defaulted {β : Type} (members : List (String × Json)) (name : String) (value : β)
    (decode : Json → Option β) : Option β :=
  match members.lookup name with
  | some document => decode document
  | none => some value

/-- A field that may be left out or `null`. -/
def optional {β : Type} (members : List (String × Json)) (name : String)
    (decode : Json → Option β) : Option (Option β) :=
  match members.lookup name with
  | none => some none
  | some .null => some none
  | some document => (decode document).map some

def listOf {β : Type} (decode : Json → Option β) (document : Json) : Option (List β) :=
  document.list?.bind fun elements => elements.mapM decode

def scalar? {α : Type} [Scalar α] (document : Json) : Option α :=
  document.number?.bind Scalar.ofNumeral?

end Json

/-! ## Equations -/

variable {α : Type} [Scalar α]

def UnaryOperator.names : List (String × UnaryOperator) :=
  [("positive", .positive), ("negative", .negative), ("not", .not)]

def BinaryOperator.names : List (String × BinaryOperator) :=
  [("add", .add), ("sub", .sub), ("exp", .exp), ("mul", .mul), ("div", .div), ("mod", .mod),
    ("gt", .gt), ("lt", .lt), ("gte", .gte), ("lte", .lte), ("eq", .eq), ("neq", .neq),
    ("and", .and), ("or", .or)]

def UnaryOperator.ofJson? (document : Json) : Option UnaryOperator :=
  document.text?.bind (List.lookup · UnaryOperator.names)

def BinaryOperator.ofJson? (document : Json) : Option BinaryOperator :=
  document.text?.bind (List.lookup · BinaryOperator.names)

mutual

/-- An equation: an object whose one member is named for the kind of the tree's root. -/
def Equation.ofJson? : Json → Option (Equation α)
  | .object [(kind, content)] =>
    match kind, content with
    | "const", .list [.text written, .number token] =>
      (Scalar.ofNumeral? token).map (.constant written)
    | "var", .text name => some (.reference name)
    | "app", .list [.text function, .list arguments] =>
      (Equation.ofJsonAll? arguments).map (.call function)
    | "paren", inner => (Equation.ofJson? inner).map .group
    | "op1", .list [operator, operand] => do
      let operator ← UnaryOperator.ofJson? operator
      let operand ← Equation.ofJson? operand
      some (.unary operator operand)
    | "op2", .list [operator, left, right] => do
      let operator ← BinaryOperator.ofJson? operator
      let left ← Equation.ofJson? left
      let right ← Equation.ofJson? right
      some (.binary operator left right)
    | "if", .list [condition, whenTrue, whenFalse] => do
      let condition ← Equation.ofJson? condition
      let whenTrue ← Equation.ofJson? whenTrue
      let whenFalse ← Equation.ofJson? whenFalse
      some (.conditional condition whenTrue whenFalse)
    | _, _ => none
  | _ => none

def Equation.ofJsonAll? : List Json → Option (List (Equation α))
  | [] => some []
  | first :: rest => do
    let first ← Equation.ofJson? first
    let rest ← Equation.ofJsonAll? rest
    some (first :: rest)

end

/-! ## Variables, models and projects -/

def GraphicalFunction.scaleOfJson? (document : Json) : Option (α × α) := do
  let members ← Json.fields? ["min", "max"] document
  let low ← Json.required members "min" Json.scalar?
  let high ← Json.required members "max" Json.scalar?
  some (low, high)

def GraphicalFunction.ofJson? (document : Json) : Option (GraphicalFunction α) := do
  let members ← Json.fields? ["x_points", "y_points", "x_scale"] document
  let xPoints? ← Json.optional members "x_points" (Json.listOf Json.scalar?)
  let yPoints ← Json.required members "y_points" (Json.listOf Json.scalar?)
  let xScale? ← Json.optional members "x_scale" GraphicalFunction.scaleOfJson?
  some ⟨xPoints?, yPoints, xScale?⟩

def Document.Stock.ofJson? (document : Json) : Option (Document.Stock α) := do
  let members ←
    Json.fields? ["ident", "equation", "ast", "inflows", "outflows", "non_negative"] document
  let name ← Json.required members "ident" Json.text?
  let text ← Json.defaulted members "equation" "" Json.text?
  let equation? ← Json.optional members "ast" Equation.ofJson?
  let inflows ← Json.defaulted members "inflows" [] (Json.listOf Json.text?)
  let outflows ← Json.defaulted members "outflows" [] (Json.listOf Json.text?)
  let nonNegative ← Json.defaulted members "non_negative" false Json.boolean?
  some ⟨name, text, equation?, inflows, outflows, nonNegative⟩

def Document.Flow.ofJson? (document : Json) : Option (Document.Flow α) := do
  let members ← Json.fields? ["ident", "equation", "ast", "gf", "non_negative"] document
  let name ← Json.required members "ident" Json.text?
  let text ← Json.defaulted members "equation" "" Json.text?
  let equation? ← Json.optional members "ast" Equation.ofJson?
  let graph? ← Json.optional members "gf" GraphicalFunction.ofJson?
  let nonNegative ← Json.defaulted members "non_negative" false Json.boolean?
  some ⟨name, text, equation?, graph?, nonNegative⟩

def Document.Auxiliary.ofJson? (document : Json) : Option (Document.Auxiliary α) := do
  let members ← Json.fields? ["ident", "equation", "ast", "gf"] document
  let name ← Json.required members "ident" Json.text?
  let text ← Json.defaulted members "equation" "" Json.text?
  let equation? ← Json.optional members "ast" Equation.ofJson?
  let graph? ← Json.optional members "gf" GraphicalFunction.ofJson?
  some ⟨name, text, equation?, graph?⟩

def Document.Connection.ofJson? (document : Json) : Option Document.Connection := do
  let members ← Json.fields? ["src", "dst"] document
  let source ← Json.required members "src" Json.text?
  let target ← Json.required members "dst" Json.text?
  some ⟨source, target⟩

def Document.Module.ofJson? (document : Json) : Option Document.Module := do
  let members ← Json.fields? ["ident", "model_name", "references"] document
  let name ← Json.required members "ident" Json.text?
  let model ← Json.required members "model_name" Json.text?
  let connections ←
    Json.defaulted members "references" [] (Json.listOf Document.Connection.ofJson?)
  some ⟨name, model, connections⟩

def Numeral.inRange (α : Type) [Scalar α] (token : Numeral) : Bool :=
  (Scalar.ofNumeral? token : Option α).isSome

/-- A variable, of the kind that its `type` names. Unlike in other objects, the members passed over
must have values too. -/
def Document.Variable.ofJson? (document : Json) : Option (Document.Variable α) :=
  if document.hasValue (Numeral.inRange α) then do
    let members ← Json.fields? ["type"] document
    match ← Json.required members "type" Json.text? with
    | "stock" => (Document.Stock.ofJson? document).map .stock
    | "flow" => (Document.Flow.ofJson? document).map .flow
    | "aux" => (Document.Auxiliary.ofJson? document).map .auxiliary
    | "module" => (Document.Module.ofJson? document).map .module
    | _ => none
  else none

def TimeSpec.ofJson? (document : Json) : Option (TimeSpec α) := do
  let members ← Json.fields? ["start", "stop", "dt", "save_step"] document
  let start ← Json.required members "start" Json.scalar?
  let stop ← Json.required members "stop" Json.scalar?
  let dt ← Json.required members "dt" Json.scalar?
  let saveStep? ← Json.optional members "save_step" Json.scalar?
  some ⟨start, stop, dt, saveStep?⟩

def Document.Model.ofJson? (document : Json) : Option (Document.Model α) := do
  let members ← Json.fields? ["name", "sim_specs", "variables"] document
  let name ← Json.required members "name" Json.text?
  let timeSpec? ← Json.optional members "sim_specs" TimeSpec.ofJson?
  let definitions ←
    Json.defaulted members "variables" [] (Json.listOf Document.Variable.ofJson?)
  some ⟨name, timeSpec?, definitions⟩

def Document.Project.ofJson? (document : Json) : Option (Document.Project α) := do
  let members ← Json.fields? ["name", "sim_specs", "models"] document
  let name ← Json.defaulted members "name" "" Json.text?
  let timeSpec ← Json.required members "sim_specs" TimeSpec.ofJson?
  let models ← Json.required members "models" (Json.listOf Document.Model.ofJson?)
  some ⟨name, timeSpec, models⟩

end StockFlow
