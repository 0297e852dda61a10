import StockFlow.Plan.Instance
import StockFlow.Project

/-!
# Layouts

The blocks of the row: the root starts with the time, each instance then lists its own variables in
order of their names and leaves the rest of its block to its modules, one after the other.
-/

namespace StockFlow

/-- A tree of instances with the symbols that their inputs read. -/
abbrev Layout := Instance (Keyed Path)

namespace Layout

variable {α : Type}

/-- The slots of a model's own variables from a first one on. -/
def slotsFrom (first : Nat) (vars : List (Variable α)) : Keyed Nat :=
  (vars.filter (!·.isModule)).zipIdx.map fun (v, i) => (v.name, first + i)

/-- Places instances one after the other from a first slot on. -/
def placeAll (place : Module → Nat → Except Fault Layout) :
    List Module → Nat → Except Fault (List Layout)
  | [], _ => .ok []
  | module :: rest, shift => do
    let first ← place module shift
    let rest ← placeAll place rest (shift + first.size)
    return first :: rest

/-- Places an instance of a model with everything below it. The first slots of its block may be
reserved. No model instantiates itself, so the number of models bounds the depth. -/
def place (project : Project α) :
    Nat → (reserved shift : Nat) → Name → LinkedModel α → Keyed Path → Except Fault Layout
  | 0, _, _, _, model, _ => .error (.simulation .circularDependency model.name)
  | depth + 1, reserved, shift, name, model, wires => do
    let slots := slotsFrom (shift + reserved) model.vars
    let placeModule (module : Module) (shift : Nat) : Except Fault Layout :=
      match project.find? module.model with
      | none => .error (.simulation .badModelName module.model)
      | some inner => place project depth 0 shift module.name inner (Model.wires module)
    let owned := reserved + slots.length
    let children ← placeAll placeModule model.modules (shift + owned)
    let size := owned + (children.map Instance.size).foldr (· + ·) 0
    return ⟨name, model.name, shift, size, slots, wires, children⟩

def ofProject (project : Project α) (main : LinkedModel α) : Except Fault Layout :=
  place project (project.models.length + 1) 1 0 mainModel main []

end Layout

/-- A tree of instances with the slots that their inputs read; none where a symbol leads nowhere. -/
abbrev Wired := Instance (Keyed (Option Nat))

namespace Layout

/-- The slots that symbols lead to: marked ones from the root, others from the instance above. -/
def wire (root above : Layout) (wires : Keyed Path) : Keyed (Option Nat) :=
  wires.map fun (input, symbol) =>
    (input, (if Path.isMarked symbol then root else above).slot? symbol)

mutual

def wiredBelow (root above : Layout) : Layout → Wired
  | ⟨name, model, shift, size, slots, wires, children⟩ =>
    ⟨name, model, shift, size, slots, wire root above wires,
      allWiredBelow root ⟨name, model, shift, size, slots, wires, children⟩ children⟩

def allWiredBelow (root above : Layout) : List Layout → List Wired
  | [] => []
  | first :: rest => wiredBelow root above first :: allWiredBelow root above rest

end

def wired (root : Layout) : Wired := wiredBelow root root root

end Layout
end StockFlow
