import StockFlow.Document.Decode
import StockFlow.Json.Reader
import StockFlow.Model.Linked

/-!
# Projects

A compiled project: every model it declares and every library model, each linked to the models that
it instantiates. Compiling a project succeeds as a whole or fails with the first fault.
-/

namespace StockFlow

structure Project (α : Type) where
  name : String
  timeSpec : TimeSpec α
  models : List (LinkedModel α)
  deriving Repr

namespace Project

variable {α : Type}

/-! ## The order of models -/

/-- Lists the models instantiated by a model, directly or not, and then the model itself, after
those of `done`. The models of `path` wait for it; they differ, so the number of models bounds the
depth. -/
def visitModel (models : List (Model α)) :
    Nat → List Name → List Name → Name → Except Fault (List Name)
  | 0, _, _, name => .error (.model .circularDependency name)
  | depth + 1, path, done, name =>
    if name ∈ done then .ok done
    else if name ∈ path then .error (.model .circularDependency name)
    else
      match findNamed Model.name name models with
      | none => .error (.model .badModelName name)
      | some model => do
        let done ← model.instantiated.foldlM (visitModel models depth (name :: path)) done
        return done ++ [name]

/-- The names of all models, each after the models that it instantiates. -/
def modelOrder (models : List (Model α)) : Except Fault (List Name) :=
  (models.map Model.name).foldlM (visitModel models (models.length + 1) []) []

/-! ## Compiling -/

/-- Links the models of a list of names one after the other. -/
def linkAll (models : List (Model α)) (order : List Name) :
    Except Fault (List (LinkedModel α)) :=
  order.foldlM (fun linked name =>
    match findNamed Model.name name models with
    | none => .error (.model .badModelName name)
    | some model => do return linked ++ [← LinkedModel.link linked model]) []

variable [Scalar α]

def declareModel (models : List (Model α)) (document : Document.Model α) (implicit : Bool) :
    Except Fault (List (Model α)) := do
  let model ← Model.build document implicit
  match insertNamed? Model.name model models with
  | some models => return models
  | none => .error (.model .duplicateName model.name)

/-- Checks a declared model, after its name and its time specification, and adds it. -/
def declareOwn (models : List (Model α)) (document : Document.Model α) :
    Except Fault (List (Model α)) := do
  if (findNamed Model.name document.name models).isSome then
    .error (.model .duplicateName document.name)
  else
    match document.timeSpec? with
    | some timeSpec => timeSpec.validate
    | none => .ok ()
    declareModel models document false

/-- The checked models of a project: those of the library and its own. -/
def declareAll (document : Document.Project α) : Except Fault (List (Model α)) := do
  let library ← Stateful.all.foldlM
    (fun models function => declareModel models (Library.model function) true) []
  document.models.foldlM declareOwn library

def compile (document : Document.Project α) : Except Fault (Project α) := do
  document.timeSpec.validate
  if document.models.all fun model => model.name != mainModel then
    .error (.model .badModelName ("no '" ++ mainModel ++ "' model"))
  else
    let models ← declareAll document
    let order ← modelOrder models
    let linked ← linkAll models order
    return ⟨document.name, document.timeSpec,
      models.filterMap fun model => LinkedModel.named? linked model.name⟩

/-- The fault of a text or a JSON document that is no project document. -/
def invalid : Fault := .model .generic "invalid project"

/-- Compiles the project of a JSON document; none stands for a text that is not JSON. -/
def ofJson (document? : Option Json) : Except Fault (Project α) :=
  match document?.bind Document.Project.ofJson? with
  | some document => compile document
  | none => .error invalid

def ofText (document : String) : Except Fault (Project α) := ofJson (Json.parse? document)

/-! ## Views -/

omit [Scalar α]

def find? (project : Project α) (name : Name) : Option (LinkedModel α) :=
  LinkedModel.named? project.models name

def main? (project : Project α) : Option (LinkedModel α) := project.find? mainModel

/-- The time specification of a run: the main model's own comes first. -/
def runSpec (project : Project α) : TimeSpec α :=
  (project.main?.bind (·.timeSpec?)).getD project.timeSpec

def without (project : Project α) (names : List Name) : Project α :=
  { project with models := project.models.filter fun model => !names.contains model.name }

end Project
end StockFlow
