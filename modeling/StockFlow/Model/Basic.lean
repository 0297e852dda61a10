import StockFlow.Model.Expansion
import StockFlow.Variable

/-!
# Models

A model whose definitions have been checked: its variables, in increasing order of names and each
name once, without calls of stateful functions. What such calls stand for is among the variables.
-/

namespace StockFlow

structure Model (α : Type) where
  name : Name
  timeSpec? : Option (TimeSpec α)
  vars : List (Variable α)
  implicit : Bool
  deriving Repr

namespace Model

variable {α : Type}

/-! ## Views -/

def find? (model : Model α) (name : Name) : Option (Variable α) :=
  findNamed Variable.name name model.vars

def has (model : Model α) (name : Name) : Bool := (model.find? name).isSome

def modules (model : Model α) : List Module := model.vars.filterMap Variable.module?

def tables (model : Model α) : List Name :=
  (model.vars.filter (·.table?.isSome)).map Variable.name

/-- The inputs of a module with the symbols of their sources; of two connections of one input the
later counts. -/
def wires (module : Module) : Keyed Path :=
  Keyed.ofList (module.inputs.map fun input => (input.target, input.source.symbol))

/-- The names of the models that a model instantiates. -/
def instantiated (model : Model α) : NameSet := NameSet.ofList (model.modules.map Module.model)

/-! ## Building -/

variable [Scalar α]

def declare (vars : List (Variable α)) (definition : Document.Variable α) :
    Except Fault (List (Variable α)) := do
  let v ← Fault.attribute definition.name (Variable.ofDefinition definition)
  match insertNamed? Variable.name v vars with
  | some vars => return vars
  | none => .error (.model .duplicateName v.name)

/-- Expands the equation of a variable; returns the variable and the definitions made. -/
def expandVariable (v : Variable α) : Except Fault (Variable α × List (Document.Variable α)) :=
  match v.equation? with
  | none => .ok (v, [])
  | some equation => do
    let expanded ← Fault.attribute v.name (Expansion.expand v.name equation 0)
    return (v.withEquation expanded.result, expanded.made)

def checkFlows (vars : List (Variable α)) : Except Fault Unit :=
  vars.forM fun v =>
    v.flows.forM fun flow =>
      if (findNamed Variable.name flow vars).isSome then .ok ()
      else .error (.model .unknownDependency (v.name ++ ": " ++ flow))

/-- Checks a model: all definitions, then their expansions, then the flows of stocks. -/
def build (document : Document.Model α) (implicit : Bool) : Except Fault (Model α) := do
  let declared ← document.definitions.foldlM declare []
  let expanded ← declared.mapM expandVariable
  let vars ← (expanded.flatMap (·.2)).foldlM declare (expanded.map (·.1))
  checkFlows vars
  return ⟨document.name, document.timeSpec?, vars, implicit⟩

end Model
end StockFlow
