import StockFlow.Plan.Layout
import StockFlow.Plan.Lowering
import StockFlow.Plan.Order

/-!
# Code

What an instance does in each phase of a step: it assigns slots of its own block and enters the
modules below it. The flows phase follows the dependencies of a step, so each value is assigned
after those it reads. Constants are assigned once, at the start.
-/

namespace StockFlow

inductive Phase where
  | initials
  | flows
  | stocks
  deriving DecidableEq, Repr

/-- Puts the value of a term into a slot. -/
structure Assignment (α : Type) where
  slot : Nat
  term : Term α
  deriving Repr

inductive Instruction (α : Type) where
  | assign (assignment : Assignment α)
  | enter (module : Name)
  deriving Repr

/-- The slots of an instance's inputs, and what it does in each phase. -/
structure Code (α : Type) where
  inputs : Keyed (Option Nat)
  initials : List (Instruction α)
  flows : List (Instruction α)
  stocks : List (Instruction α)
  deriving Repr

def Code.phase {α : Type} (code : Code α) : Phase → List (Instruction α)
  | .initials => code.initials
  | .flows => code.flows
  | .stocks => code.stocks

/-- An instance with its model, while its code is made. -/
structure Site (α : Type) where
  wired : Wired
  model : LinkedModel α
  clock : Clock α

namespace Site

variable {α : Type} [Scalar α]

def inputs (site : Site α) : Keyed (Option Nat) := site.wired.note

def isInput (site : Site α) (name : Name) : Bool := (site.inputs.get? name).isSome

def scope (site : Site α) (owner : Name) : Scope α :=
  ⟨owner, site.wired.slot?, fun name => (site.model.find? name).bind Variable.table?,
    site.clock⟩

def slot (site : Site α) (name : Name) : Except Fault Nat :=
  match site.wired.slots.get? name with
  | some slot => .ok slot
  | none => .error (.simulation .doesNotExist name)

def stockCode (site : Site α) (stock : Stock α) (phase : Phase) :
    Except Fault (List (Instruction α)) := do
  let slot ← site.slot stock.name
  let scope := site.scope stock.name
  match phase with
  | .initials => return [.assign ⟨slot, ← scope.lower stock.initial⟩]
  | .flows => return []
  | .stocks => return [.assign ⟨slot, scope.stockUpdate slot stock⟩]

/-- What is done for an input: it takes the value of its source. -/
def inputCode (site : Site α) (name : Name) (source : Option Nat) (phase : Phase) :
    Except Fault (List (Instruction α)) :=
  match phase with
  | .stocks => .ok []
  | _ => do
    let slot ← site.slot name
    return [.assign ⟨slot, Scope.loadSlot source⟩]

/-- What is done for a variable in a phase. -/
def variableCode (site : Site α) (v : Variable α) (phase : Phase) :
    Except Fault (List (Instruction α)) :=
  match site.inputs.get? v.name with
  | some source => site.inputCode v.name source phase
  | none =>
    match v with
    | .module module => .ok [.enter module.name]
    | .stock stock => site.stockCode stock phase
    | .formula formula => do
      let slot ← site.slot formula.name
      return [.assign ⟨slot, ← (site.scope formula.name).formulaTerm formula⟩]

/-- Whether a variable is computed at every step: inputs are, and whatever is neither a stock nor a
constant without a table. -/
def isFlowing (site : Site α) (v : Variable α) : Bool :=
  site.isInput v.name ||
    match v with
    | .stock _ => false
    | .formula formula => formula.table?.isSome || !formula.equation.isConstant
    | .module _ => true

/-- Whether a variable takes part in writing the next row. -/
def isIntegrating (site : Site α) (v : Variable α) : Bool :=
  !site.isInput v.name && (v.isStock || v.isModule)

def schedule (site : Site α) (phase : Phase) : List Name :=
  let vars := site.model.vars
  match phase with
  | .initials => Order.sort site.model.startDependencies (vars.map Variable.name)
  | .flows =>
    Order.sort site.model.stepDependencies
      ((vars.filter site.isFlowing).map Variable.name)
  | .stocks => (vars.filter site.isIntegrating).map Variable.name

def phaseCode (site : Site α) (phase : Phase) : Except Fault (List (Instruction α)) := do
  let vars := (site.schedule phase).filterMap site.model.find?
  let parts ← vars.mapM fun v => site.variableCode v phase
  return parts.flatten

def code (site : Site α) : Except Fault (Code α) := do
  let initials ← site.phaseCode .initials
  let flows ← site.phaseCode .flows
  let stocks ← site.phaseCode .stocks
  return ⟨site.inputs, initials, flows, stocks⟩

end Site

/-! ## Code of all instances -/

abbrev Coded (α : Type) := Instance (Code α)

namespace Coded

variable {α : Type}

mutual

/-- Makes the code of an instance after that of the instances below it. -/
def ofWired [Scalar α] (project : Project α) (clock : Clock α) :
    Wired → Except Fault (Coded α)
  | ⟨name, model, shift, size, slots, inputs, children⟩ => do
    let coded ← allOfWired project clock children
    match project.find? model with
    | none => .error (.simulation .badModelName model)
    | some linked =>
      let code ← Site.code
        ⟨⟨name, model, shift, size, slots, inputs, children⟩, linked, clock⟩
      return ⟨name, model, shift, size, slots, code, coded⟩

def allOfWired [Scalar α] (project : Project α) (clock : Clock α) :
    List Wired → Except Fault (List (Coded α))
  | [] => .ok []
  | first :: rest => do
    let first ← ofWired project clock first
    let rest ← allOfWired project clock rest
    return first :: rest

end

/-- The assignments of instructions, given those of the modules that they enter. -/
def unfold (modules : Keyed (List (Assignment α))) :
    List (Instruction α) → List (Assignment α)
  | [] => []
  | .assign assignment :: rest => assignment :: unfold modules rest
  | .enter module :: rest => (modules.get? module).getD [] ++ unfold modules rest

mutual

/-- All assignments of a phase in an instance and below, in their order. -/
def program (phase : Phase) : Coded α → List (Assignment α)
  | ⟨_, _, _, _, _, code, children⟩ => unfold (programs phase children) (code.phase phase)

/-- All assignments of a phase in instances and below, under the instances' names. -/
def programs (phase : Phase) : List (Coded α) → Keyed (List (Assignment α))
  | [] => []
  | first :: rest => (first.name, program phase first) :: programs phase rest

end

end Coded
end StockFlow
