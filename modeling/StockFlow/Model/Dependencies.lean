import StockFlow.Model.Basic

/-!
# Dependencies

Which variables have to be known before a variable is computed. A stock is known before a step
begins, so at a step nothing waits for it; at the start it is computed like any other variable.
`Dependencies.closure` follows direct dependencies to the set of all of them, and fails on a cycle.
-/

namespace StockFlow

inductive Moment where
  | start
  | step
  deriving DecidableEq, Repr

/-- What the analysis of dependencies sees of a variable. -/
structure Node where
  name : Name
  isStock : Bool
  /-- The model that the variable instantiates, if it is a module. -/
  model? : Option Name
  sources : NameSet
  deriving DecidableEq, Repr

/-- The variables of a model, in increasing order of names. -/
abbrev Outline := List Node

namespace Outline

def find? (outline : Outline) (name : Name) : Option Node := findNamed Node.name name outline

end Outline

def Variable.node {α : Type} (v : Variable α) : Node :=
  ⟨v.name, v.isStock, v.module?.map Module.model, v.sources⟩

def Model.outline {α : Type} (model : Model α) : Outline := model.vars.map Variable.node

namespace Dependencies

/-- Whether a variable is known at a moment before anything is computed. -/
def isGiven (moment : Moment) (node : Node) : Bool := node.isStock && moment = .step

def unknown {β : Type} (name : Name) (source : Path) : Except Fault β :=
  .error (.model .unknownDependency (name ++ ": " ++ source))

/-- The variable beside `name` that has to be computed before it because of a source; none if what
the source leads to is given. A source inside a module makes the module wait, unless it leads to a
stock of the module's model. -/
def resolve (moment : Moment) (models : Keyed Outline) (outline : Outline) (name : Name)
    (source : Path) : Except Fault (Option Node) :=
  match Path.split source with
  | (_, none) =>
    match outline.find? source with
    | none => unknown name source
    | some node => .ok (if isGiven moment node then none else some node)
  | (head, some rest) =>
    match outline.find? head with
    | none => unknown name source
    | some node =>
      match node.model? with
      | none => unknown name source
      | some model =>
        match models.get? model with
        | none => .error (.model .badModelName model)
        | some inner =>
          let output := Path.head rest
          match inner.find? output with
          | none => .error (.model .unknownDependency (node.name ++ "." ++ output))
          | some leaf => .ok (if isGiven moment leaf then none else some node)

abbrev Found := Keyed NameSet

/-- Finds the dependencies of a variable and of all that it depends on, below the variables of
`path`, which wait for it. The depth is bounded by the number of variables, since those on a path
differ. -/
def visit (moment : Moment) (models : Keyed Outline) (outline : Outline) :
    Nat → List Name → Found → Node → Except Fault Found
  | 0, _, _, node => .error (.model .circularDependency node.name)
  | depth + 1, path, found, node =>
    if (found.get? node.name).isSome then .ok found
    else if isGiven moment node then .ok (found.put node.name [])
    else do
      let follow (state : Found × NameSet) (source : Path) : Except Fault (Found × NameSet) := do
        match ← resolve moment models outline node.name source with
        | none => return state
        | some next =>
          if next.name ∈ node.name :: path then
            .error (.model .circularDependency node.name)
          else do
            let found ← visit moment models outline depth (node.name :: path) state.1 next
            let further := (found.get? next.name).getD []
            return (found, NameSet.insertAll further (NameSet.insert next.name state.2))
      let (found, set) ← node.sources.foldlM follow (found, [])
      return found.put node.name set

/-- The names of all variables that each variable depends on at a moment. -/
def closure (moment : Moment) (models : Keyed Outline) (outline : Outline) :
    Except Fault (Keyed NameSet) :=
  outline.foldlM (visit moment models outline outline.length []) []

end Dependencies
end StockFlow
