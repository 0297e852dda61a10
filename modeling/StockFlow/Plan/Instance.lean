import StockFlow.Keyed
import StockFlow.Plan.Row

/-!
# Instances

A run keeps the values of all variables in one row. The main model and every module below it own a
block of the row; together they form a tree. Each instance carries a note, which grows from the
wires of its inputs to its program as a plan is made. Paths are looked up from an instance down.
-/

namespace StockFlow

structure Instance (β : Type) where
  /-- The name of the module, or of the main model at the root. -/
  name : Name
  model : Name
  shift : Nat
  /-- The length of the block, with the blocks of the instances below. -/
  size : Nat
  slots : Keyed Nat
  note : β
  /-- The modules of the model, in increasing order of names. -/
  children : List (Instance β)

namespace Instance

variable {β : Type}

def child? (node : Instance β) (name : Name) : Option (Instance β) :=
  findNamed Instance.name name node.children

mutual

/-- The slot that a path leads to. The name `time` means the clock wherever it stands; where a path
ends at a module, the variable named like the module is meant. -/
def slot? : Instance β → Path → Option Nat
  | ⟨name, _, _, _, slots, _, children⟩, path =>
    if path = "time" then some timeSlot
    else
      let path := Path.unmarked path
      match slots.get? path with
      | some slot => some slot
      | none =>
        if path = "" then slots.get? name
        else
          let (head, rest) := Path.split path
          childSlot? children head (rest.getD "")

/-- The slot that a path leads to in the instance of a name. -/
def childSlot? : List (Instance β) → Name → Path → Option Nat
  | [], _, _ => none
  | first :: rest, name, path =>
    if first.name = name then first.slot? path else childSlot? rest name path

end

mutual

/-- The paths of all variables of an instance and below, after a common beginning. -/
def paths (lead : String) : Instance β → List Path
  | ⟨_, _, _, _, slots, _, children⟩ =>
    (slots.map fun (name, _) => lead ++ name) ++ childPaths lead children

/-- The paths of all variables of instances and below. -/
def childPaths (lead : String) : List (Instance β) → List Path
  | [] => []
  | first :: rest => first.paths (lead ++ first.name ++ ".") ++ childPaths lead rest

end

/-- The instance that a sequence of module names leads to. -/
def descend? (node : Instance β) : List Name → Option (Instance β)
  | [] => some node
  | name :: rest => (node.child? name).bind (·.descend? rest)

end Instance
end StockFlow
