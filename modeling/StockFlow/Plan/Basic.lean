import StockFlow.Plan.Code

/-!
# Plans

A project made ready to run: a tree of instances with their code, the three programs over one row
that the tree amounts to, and the clock.
-/

namespace StockFlow

structure Plan (α : Type) where
  root : Coded α
  clock : Clock α
  /-- The assignments of each phase in the order in which they are made. -/
  program : Phase → List (Assignment α)
  program_eq : ∀ phase, program phase = root.program phase

namespace Plan

variable {α : Type}

def ofRoot (root : Coded α) (clock : Clock α) : Plan α :=
  let initials := root.program .initials
  let flows := root.program .flows
  let stocks := root.program .stocks
  { root, clock
    program := fun
      | .initials => initials
      | .flows => flows
      | .stocks => stocks
    program_eq := fun phase => by cases phase <;> rfl }

def size (plan : Plan α) : Nat := plan.root.size

/-- The slot of a variable by its path from the main model. -/
def slot? (plan : Plan α) (path : Path) : Option Nat := plan.root.slot? path

/-- The paths of all values of the row, the time first. -/
def names (plan : Plan α) : List Path := "time" :: plan.root.paths ""

def ofProject [Scalar α] (project : Project α) : Except Fault (Plan α) :=
  match project.main? with
  | none =>
    .error (.simulation .notSimulatable ("no model named '" ++ mainModel ++ "' to simulate"))
  | some main => do
    let spec := project.runSpec
    spec.validate
    let clock := Clock.ofSpec spec
    let layout ← Layout.ofProject project main
    let root ← Coded.ofWired project clock layout.wired
    return ofRoot root clock

end Plan
end StockFlow
