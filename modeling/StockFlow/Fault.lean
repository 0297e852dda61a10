import StockFlow.Name

/-!
# Faults

What can be wrong with a project, a run or a request. An `EquationFault` concerns one variable's
definition and does not know whose; a `Fault` says where it arose.
-/

namespace StockFlow

inductive FaultCode where
  | noFault
  | doesNotExist
  | duplicateName
  | unresolvedReference
  | unknownFunction
  | wrongArguments
  | emptyEquation
  | invalidTable
  | badInputTarget
  | badModelName
  | badTimeSpec
  | circularDependency
  | unknownDependency
  | notSimulatable
  | alreadyStepped
  | unknownCommand
  | malformedResult
  | generic
  deriving DecidableEq, Repr

namespace FaultCode

/-- All causes, in the order in which they are numbered. -/
def all : List FaultCode :=
  [noFault, doesNotExist, duplicateName, unresolvedReference, unknownFunction, wrongArguments,
    emptyEquation, invalidTable, badInputTarget, badModelName, badTimeSpec, circularDependency,
    unknownDependency, notSimulatable, alreadyStepped, unknownCommand, malformedResult, generic]

def text : FaultCode → String
  | noFault => "no_error"
  | doesNotExist => "does_not_exist"
  | duplicateName => "duplicate_identifier"
  | unresolvedReference => "unresolved_reference"
  | unknownFunction => "unknown_builtin"
  | wrongArguments => "bad_builtin_args"
  | emptyEquation => "empty_equation"
  | invalidTable => "invalid_table"
  | badInputTarget => "bad_module_input_dst"
  | badModelName => "bad_model_name"
  | badTimeSpec => "bad_sim_specs"
  | circularDependency => "circular_dependency"
  | unknownDependency => "unknown_dependency"
  | notSimulatable => "not_simulatable"
  | alreadyStepped => "already_stepped"
  | unknownCommand => "unknown_command"
  | malformedResult => "malformed_result"
  | generic => "generic"

end FaultCode

inductive FaultKind where
  | model
  | simulation
  | definition
  | protocol
  deriving DecidableEq, Repr

def FaultKind.text : FaultKind → String
  | .model => "ModelError"
  | .simulation => "SimulationError"
  | .definition => "VariableError"
  | .protocol => "ProtocolError"

structure EquationFault where
  code : FaultCode
  details : Option String
  deriving DecidableEq, Repr

def EquationFault.message (fault : EquationFault) : String :=
  match fault.details with
  | some details => fault.code.text ++ ": " ++ details
  | none => fault.code.text

structure Fault where
  kind : FaultKind
  code : FaultCode
  details : Option String
  deriving DecidableEq, Repr

namespace Fault

/-- The place, and in braces the cause with its details. -/
def message (fault : Fault) : String :=
  fault.kind.text ++ "\x7b" ++ (EquationFault.mk fault.code fault.details).message ++ "\x7d"

/-- Attributes the fault of a definition to its variable. -/
def ofEquation (name : Name) (fault : EquationFault) : Fault :=
  ⟨.definition, fault.code, some <|
    match fault.details with
    | some details => name ++ ": " ++ details
    | none => name⟩

def model (code : FaultCode) (details : String) : Fault := ⟨.model, code, some details⟩

def simulation (code : FaultCode) (details : String) : Fault := ⟨.simulation, code, some details⟩

def protocol (code : FaultCode) (details : String) : Fault := ⟨.protocol, code, some details⟩

end Fault

/-- Attributes the fault of a definition to its variable. -/
def Fault.attribute {β : Type} (name : Name) : Except EquationFault β → Except Fault β
  | .ok value => .ok value
  | .error fault => .error (Fault.ofEquation name fault)

end StockFlow
