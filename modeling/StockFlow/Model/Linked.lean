import StockFlow.Model.Dependencies

/-!
# Linked models

A model among the models that it instantiates: its modules' inputs exist, and it is known what each
variable depends on. Absolute sources are looked up in the main model, so there, and only there, the
modules that read them wait for what they lead to.
-/

namespace StockFlow

def mainModel : Name := "main"

structure LinkedModel (α : Type) extends Model α where
  /-- For each module, the absolute paths read anywhere inside it. -/
  absoluteSources : Keyed NameSet
  /-- The variables with the paths that they depend on directly. -/
  outline : Outline
  stepDependencies : Keyed NameSet
  startDependencies : Keyed NameSet
  deriving Repr

namespace LinkedModel

variable {α : Type}

def named? (models : List (LinkedModel α)) (name : Name) : Option (LinkedModel α) :=
  findNamed (fun model => model.name) name models

def absolutePaths (model : LinkedModel α) : List Path := model.absoluteSources.flatMap (·.2)

/-- The absolute paths read inside a module. Each input must be a variable of the module's
model. -/
def readAbsolute (linked : List (LinkedModel α)) (module : Module) :
    Except Fault (Name × NameSet) :=
  match named? linked module.model with
  | none => .error (.model .badModelName module.model)
  | some model => do
    module.inputs.forM fun input =>
      if model.has input.target then .ok ()
      else .error (.model .badInputTarget (module.name ++ "." ++ input.target))
    let own := module.inputs.filterMap fun input =>
      match input.source with
      | .absolute path => some path
      | .relative _ => none
    return (module.name, NameSet.ofList (model.absolutePaths ++ own))

/-- Whether a path leads from the main model to a variable that dependencies can name. -/
def isRootPath (linked : List (LinkedModel α)) (main : Model α) (path : Path) : Bool :=
  let (head, rest) := Path.split path
  match main.find? head, rest with
  | some _, none => true
  | some v, some rest =>
    match v.module?.bind fun module => named? linked module.model with
    | some model => model.has (Path.head rest)
    | none => false
  | none, _ => false

/-- The absolute paths that a module of the main model waits for: not those back into itself. -/
def awaited (linked : List (LinkedModel α)) (main : Model α) (name : Name) (paths : NameSet) :
    NameSet :=
  paths.filter fun path => Path.head path != name && isRootPath linked main path

/-- The outline of a model in which modules also wait for their absolute sources. -/
def outlineWith (linked : List (LinkedModel α)) (model : Model α)
    (absoluteSources : Keyed NameSet) : Outline :=
  model.vars.map fun v =>
    match absoluteSources.get? v.name with
    | some paths =>
      { v.node with sources := NameSet.insertAll (awaited linked model v.name paths) v.sources }
    | none => v.node

/-- Links a model to the models that it instantiates. -/
def link (linked : List (LinkedModel α)) (model : Model α) : Except Fault (LinkedModel α) := do
  let absoluteSources ← model.modules.mapM (readAbsolute linked)
  let outline :=
    if model.name = mainModel then outlineWith linked model absoluteSources else model.outline
  let outlines := linked.map fun model => (model.name, model.outline)
  let stepDependencies ← Dependencies.closure .step outlines outline
  let startDependencies ← Dependencies.closure .start outlines outline
  return { model with absoluteSources, outline, stepDependencies, startDependencies }

end LinkedModel
end StockFlow
