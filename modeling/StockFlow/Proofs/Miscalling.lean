import StockFlow.Proofs.Catalog
import StockFlow.Proofs.Restoring

/-!
# Calls with the wrong number of arguments

How many arguments a primitive takes is checked where code is made of the variable that holds the call:
the variable whose equation it is, or one made for an argument of a stateful call around it. So such a
call is fatal in every instance of its model where no input takes that variable's place; where there is no
instance, or where an input takes its place in all of them, it is never looked at.
-/

namespace StockFlow

variable {α : Type}

/-! ## The variable that holds a call -/

namespace Equation

mutual

/-- The calls in an equation that expansion leaves in place: those that stand in no argument of a stateful
call. -/
def openCalls : Equation α → List (Name × List (Equation α))
  | constant _ _ => []
  | reference _ => []
  | call function arguments =>
    if (Stateful.ofName? function).isSome then []
    else (function, arguments) :: openCallsAll arguments
  | group inner => openCalls inner
  | unary _ operand => openCalls operand
  | binary _ left right => openCalls left ++ openCalls right
  | conditional condition whenTrue whenFalse =>
    openCalls condition ++ openCalls whenTrue ++ openCalls whenFalse

def openCallsAll : List (Equation α) → List (Name × List (Equation α))
  | [] => []
  | first :: rest => openCalls first ++ openCallsAll rest

end

/-- Whether a call in the equation of the variable `owner` is held by the variable of a name once the
equation is expanded: by the owner, or by the variable made for an argument of a stateful call. -/
inductive Holds (owner : Name) (equation : Equation α) (call : Name × List (Equation α)) : Name → Prop
  | own (left : call ∈ equation.openCalls) : Holds owner equation call owner
  | argument {number index : Nat} {stateful : Stateful} {arguments : List (Equation α)} {argument : Equation α}
    (expansion : equation.expansions[number]? = some (stateful, arguments))
    (here : arguments[index]? = some argument) (left : call ∈ argument.openCalls) :
    Holds owner equation call (Name.canonical (Expansion.argumentName owner number index))

/-- Whether a call is left in place among some calls, or in an argument of some that are expanded. -/
def Stays (left : List (Name × List (Equation α))) (expansions : List (Stateful × List (Equation α)))
    (call : Name × List (Equation α)) : Prop :=
  call ∈ left ∨ ∃ expansion ∈ expansions, ∃ argument ∈ expansion.2, call ∈ argument.openCalls

section

variable {called : Name × List (Equation α)}

theorem stays_append {left more : List (Name × List (Equation α))}
    {expansions others : List (Stateful × List (Equation α))} :
    Stays (left ++ more) (expansions ++ others) called ↔
      Stays left expansions called ∨ Stays more others called := by
  simp only [Stays, List.mem_append, or_and_right, exists_or]
  exact or_or_or_comm

theorem openCallsAll_eq_flatMap (equations : List (Equation α)) :
    openCallsAll equations = equations.flatMap openCalls := by
  induction equations with
  | nil => rfl
  | cons first rest ih => rw [openCallsAll, ih, List.flatMap_cons]

mutual

/-- Every call that is not expanded itself is left in place, at some level of the equation. -/
theorem stays_of_mem_calls (unexpanded : Stateful.ofName? called.1 = none) :
    ∀ {equation : Equation α}, called ∈ equation.calls →
    Stays equation.openCalls equation.expansions called
  | .constant _ _, member => by cases member
  | .reference _, member => by cases member
  | .call function arguments, member => by
    unfold openCalls expansions
    cases known : Stateful.ofName? function with
    | none =>
      rcases List.mem_cons.mp member with here | below
      · exact .inl (here ▸ List.mem_cons_self)
      · rw [Option.map_none, Option.toList_none, List.append_nil]
        exact (stays_of_mem_callsAll unexpanded below).imp_left (List.mem_cons_of_mem _)
    | some stateful =>
      rcases List.mem_cons.mp member with here | below
      · rw [here, known] at unexpanded
        cases unexpanded
      · rcases stays_of_mem_callsAll unexpanded below with left | ⟨expansion, inner, inside⟩
        · rw [openCallsAll_eq_flatMap] at left
          exact .inr ⟨(stateful, arguments), by simp, List.mem_flatMap.mp left⟩
        · exact .inr ⟨expansion, List.mem_append_left _ inner, inside⟩
  | .group inner, member => by
    rw [calls] at member
    have stays := stays_of_mem_calls unexpanded member
    exact stays
  | .unary _ operand, member => by
    rw [calls] at member
    have stays := stays_of_mem_calls unexpanded member
    exact stays
  | .binary _ left right, member => by
    refine stays_append.mpr ((List.mem_append.mp member).imp ?_ ?_)
    · exact stays_of_mem_calls unexpanded
    · exact stays_of_mem_calls unexpanded
  | .conditional condition whenTrue whenFalse, member => by
    refine stays_append.mpr ((List.mem_append.mp member).imp (fun before => ?_) ?_)
    · refine stays_append.mpr ((List.mem_append.mp before).imp ?_ ?_)
      · exact stays_of_mem_calls unexpanded
      · exact stays_of_mem_calls unexpanded
    · exact stays_of_mem_calls unexpanded

theorem stays_of_mem_callsAll (unexpanded : Stateful.ofName? called.1 = none) :
    ∀ {equations : List (Equation α)}, called ∈ callsAll equations →
      Stays (openCallsAll equations) (expansionsAll equations) called
  | [], member => by cases member
  | first :: rest, member => by
    refine stays_append.mpr ((List.mem_append.mp member).imp ?_ ?_)
    · exact stays_of_mem_calls unexpanded
    · exact stays_of_mem_callsAll unexpanded

end

/-- Every call that is not expanded itself is held by some variable. -/
theorem exists_holds (unexpanded : Stateful.ofName? called.1 = none) {equation : Equation α}
    (member : called ∈ equation.calls) (owner : Name) : ∃ holder, Holds owner equation called holder := by
  rcases stays_of_mem_calls unexpanded member with left | ⟨⟨stateful, arguments⟩, inner, argument, among, left⟩
  · exact ⟨owner, .own left⟩
  · obtain ⟨number, expansion⟩ := List.mem_iff_getElem?.mp inner
    obtain ⟨index, here⟩ := List.mem_iff_getElem?.mp among
    exact ⟨_, .argument expansion here left⟩

end

/-- Whether a function is called with a number of arguments among some calls. -/
def Calls (calls : List (Name × List (Equation α))) (function : Name) (number : Nat) : Prop :=
  ∃ arguments, (function, arguments) ∈ calls ∧ arguments.length = number

theorem calls_append {calls others : List (Name × List (Equation α))} {function : Name} {number : Nat} :
    Calls (calls ++ others) function number ↔ Calls calls function number ∨ Calls others function number := by
  simp only [Calls, List.mem_append, or_and_right, exists_or]

end Equation

/-! ## Calls left by expansion -/

namespace Expansion

variable {owner : Name}

open Equation (Calls calls_append openCalls openCallsAll)

mutual

/-- A call that is left in place keeps its function and the number of its arguments. -/
theorem calls_of_openCalls {function : Name} {arguments : List (Equation α)} : ∀ {equation : Equation α}
    {first : Nat} {result : Expanded α (Equation α)}, expand owner equation first = .ok result →
      (function, arguments) ∈ equation.openCalls → Calls result.result.calls function arguments.length
  | .constant _ _, _, _, _, member => by cases member
  | .reference _, _, _, _, member => by cases member
  | .call other inner, _, _, expanded, member => by
    obtain ⟨given, before, expanded⟩ := bind_eq_ok.mp expanded
    unfold openCalls at member
    -- the open calls of a stateful call are none: its arguments move into variables of their own
    cases known : Stateful.ofName? other with
    | some stateful =>
      rw [known] at member
      cases member
    | none =>
      rw [known] at member
      unfold expandCall at expanded
      rw [known] at expanded
      split at expanded
      · cases expanded
        rcases List.mem_cons.mp member with here | below
        · cases here
          exact ⟨given.result, List.mem_cons_self, length_of_expandAll before⟩
        · obtain ⟨arguments', among, same⟩ := calls_of_openCallsAll before below
          exact ⟨arguments', List.mem_cons_of_mem _ among, same⟩
      · cases expanded
  | .group _, _, _, expanded, member => by
    obtain ⟨_, one, expanded⟩ := bind_eq_ok.mp expanded
    cases expanded
    have called := calls_of_openCalls one member
    rwa [Equation.calls]
  | .unary _ _, _, _, expanded, member => by
    obtain ⟨_, one, expanded⟩ := bind_eq_ok.mp expanded
    cases expanded
    have called := calls_of_openCalls one member
    rwa [Equation.calls]
  | .binary _ _ _, _, _, expanded, member => by
    obtain ⟨_, one, expanded⟩ := bind_eq_ok.mp expanded
    obtain ⟨_, two, expanded⟩ := bind_eq_ok.mp expanded
    cases expanded
    refine calls_append.mpr ((List.mem_append.mp member).imp ?_ ?_)
    · exact calls_of_openCalls one
    · exact calls_of_openCalls two
  | .conditional _ _ _, _, _, expanded, member => by
    obtain ⟨_, one, expanded⟩ := bind_eq_ok.mp expanded
    obtain ⟨_, two, expanded⟩ := bind_eq_ok.mp expanded
    obtain ⟨_, three, expanded⟩ := bind_eq_ok.mp expanded
    cases expanded
    refine calls_append.mpr ((List.mem_append.mp member).imp (fun before => ?_) ?_)
    · refine calls_append.mpr ((List.mem_append.mp before).imp ?_ ?_)
      · exact calls_of_openCalls one
      · exact calls_of_openCalls two
    · exact calls_of_openCalls three

theorem calls_of_openCallsAll {function : Name} {arguments : List (Equation α)} :
    ∀ {equations : List (Equation α)} {first : Nat} {result : Expanded α (List (Equation α))},
      expandAll owner equations first = .ok result → (function, arguments) ∈ openCallsAll equations →
        Calls (Equation.callsAll result.result) function arguments.length
  | [], _, _, _, member => by cases member
  | _ :: _, _, _, expanded, member => by
    obtain ⟨_, one, expanded⟩ := bind_eq_ok.mp expanded
    obtain ⟨_, others, expanded⟩ := bind_eq_ok.mp expanded
    cases expanded
    refine calls_append.mpr ((List.mem_append.mp member).imp ?_ ?_)
    · exact calls_of_openCalls one
    · exact calls_of_openCallsAll others

end

/-- What an argument in its place is expanded to. -/
theorem getElem?_of_expandAll {arguments : List (Equation α)} {first index : Nat}
    {given : Expanded α (List (Equation α))} (expanded : expandAll owner arguments first = .ok given)
    {argument : Equation α} (here : arguments[index]? = some argument) :
    ∃ number result, expand owner argument number = .ok result ∧ given.result[index]? = some result.result := by
  induction arguments generalizing first given index with
  | nil => cases here
  | cons other rest ih =>
    obtain ⟨one, begins, expanded⟩ := bind_eq_ok.mp expanded
    obtain ⟨others, after, expanded⟩ := bind_eq_ok.mp expanded
    cases expanded
    cases index with
    | zero =>
      cases here
      exact ⟨first, one, begins, rfl⟩
    | succ index =>
      rw [List.getElem?_cons_succ] at here ⊢
      exact ih after here

end Expansion

namespace Model

variable [Scalar α] {document : Document.Model α} {implicit : Bool} {model : Model α}

/-- The variable that holds a call of a primitive calls it with as many arguments. -/
theorem calls_of_holds (built : build document implicit = .ok model) {definition : Document.Variable α}
    (listed : definition ∈ document.definitions) {equation : Equation α}
    (own : definition.equation? = some equation) {function : Name} {arguments : List (Equation α)}
    (primitive : isPrimitive function = true) {holder : Name}
    (holds : (equation.mapNames Name.canonical).Holds (Name.canonical definition.name)
      (function, arguments) holder) :
    ∃ w ∈ model.vars, w.name = holder ∧ ∃ tree, w.equation? = some tree ∧
      Equation.Calls tree.calls function arguments.length := by
  obtain ⟨v, checked, named, given, -⟩ := Variable.ofDefinition_of_equation? own
  rw [← named] at holds
  cases holds with
  | own left =>
    obtain ⟨other, w, made, same, one, member⟩ := exists_of_build built listed
    obtain rfl := Except.ok.inj (checked.symm.trans same)
    unfold expandVariable at one
    simp only [given, bind_eq_ok, pure_eq_ok, attribute_eq_ok, Prod.mk.injEq] at one
    obtain ⟨result, expands, rfl, -⟩ := one
    refine ⟨_, member, Variable.name_withEquation, result.result, ?_,
      Expansion.calls_of_openCalls expands left⟩
    cases v with
    | stock | formula => rfl
    | module => cases given
  | @argument number index stateful inner argument expansion here left =>
    obtain ⟨result, expands, -, present⟩ := exists_made built listed checked given
    obtain ⟨before, -, -, -, among, -⟩ :=
      (Expansion.covers_of_expand expands).each number stateful inner expansion
    obtain ⟨first, one, begins, place⟩ := Expansion.getElem?_of_expandAll before here
    obtain ⟨arguments', inside, same⟩ := Expansion.calls_of_openCalls begins left
    rw [Nat.zero_add] at among
    -- a call is no plain reference, so the argument has a variable of its own
    obtain ⟨other, moves, itsName, itsEquation⟩ :
        ∃ other ∈ Expansion.argumentVariable v.name number (0 + index) one.result,
          other.name = Expansion.argumentName v.name number index ∧ other.equation? = some one.result := by
      rw [Nat.zero_add]
      cases kept : one.result with
      | reference name =>
        rw [kept] at inside
        cases inside
      | constant | call | group | unary | binary | conditional =>
        exact ⟨_, List.mem_singleton_self _, rfl, rfl⟩
    obtain ⟨w, member, made⟩ := present other (among (Expansion.argumentVariable_subset_hoisted place moves))
    obtain ⟨u, same', named', own', -⟩ := Variable.ofDefinition_of_equation? itsEquation
    obtain rfl := Except.ok.inj (made.symm.trans same')
    rw [itsName] at named'
    refine ⟨w, member, named', _, own', Equation.mapNamesAll Name.canonical arguments', ?_, ?_⟩
    · rw [Equation.calls_mapNames]
      exact List.mem_map.mpr ⟨_, inside, by rw [canonical_of_isPrimitive primitive]⟩
    · rw [Equation.mapNamesAll_eq_map, List.length_map, same]

end Model

/-! ## Instances -/

namespace Document

/-- Whether a run has an instance of a declared model, below the module of another instance unless it is the
main model's. -/
inductive Project.Instantiates (document : Project α) : Option Module → Model α → Prop
  | main {model : Model α} (listed : model ∈ document.models) (named : model.name = mainModel) :
    Instantiates document none model
  | inside {above : Option Module} {model inner : Model α} {module : Module}
    (instantiates : Instantiates document above model) (member : .module module ∈ model.definitions)
    (listed : inner ∈ document.models) (named : inner.name = module.model) :
    Instantiates document (some module) inner

/-- Whether a connection of the module of an instance feeds the variable of a name. -/
def Feeds : Option Module → Name → Prop
  | none, _ => False
  | some module, name => ∃ connection ∈ module.connections, ∃ source,
    Input.resolve (Name.canonical module.name) connection = .ok (some ⟨source, name⟩)

end Document

namespace Project

variable [Scalar α] {document : Document.Project α} {project : Project α}

/-- Each instance that a document says a run has is there, with the inputs that its module feeds. -/
theorem runs_of_instantiates (compiled : compile document = .ok project) {above : Option Document.Module}
    {model : Document.Model α} (instantiates : document.Instantiates above model) :
    ∃ inputs linked, project.Runs inputs linked ∧ Model.build model false = .ok linked.toModel ∧
      ∀ name, (inputs.any fun input => input.target == name) = true → Document.Feeds above name := by
  induction instantiates with
  | main listed named =>
    obtain ⟨linked, found, built⟩ := exists_own compiled listed
    rw [named] at found
    exact ⟨[], linked, .main found, built, fun name fed => by cases fed⟩
  | @inside above model inner module _ member listed named ih =>
    obtain ⟨inputs, linked, runs, built, -⟩ := ih
    obtain ⟨result, found, built'⟩ := exists_own compiled listed
    rw [named] at found
    obtain ⟨v, w, made, checked, one, present⟩ := Model.exists_of_build built member
    obtain ⟨resolved, each, same⟩ := bind_eq_ok.mp checked
    obtain rfl := pure_eq_ok.mp same
    cases one
    refine ⟨_, result, .inside runs (Model.mem_modules.mpr present) found, built', fun name fed => ?_⟩
    obtain ⟨input, among, target⟩ := List.any_eq_true.mp fed
    obtain ⟨_, inside, rfl⟩ := List.mem_filterMap.mp among
    obtain ⟨connection, connected, resolves⟩ := exists_left_of_mem (mapM_eq_ok.mp each) inside
    obtain rfl := beq_iff_eq.mp target
    exact ⟨connection, connected, input.source, resolves⟩

end Project

namespace Simulation

/-- Absolute values of two numbers: in two variables of the model `sub`, one of them for a smoother, and in a
model without instances. -/
def miscalled (connections : List Document.Connection) : Document.Project Float :=
  let wrong : Equation Float := .call "abs" [.reference "time", .reference "time"]
  ⟨"", ⟨0, 3, 1, none⟩, [
    ⟨"main", none, [
      .auxiliary ⟨"x", "", some (.reference "time"), none⟩,
      .module ⟨"m", "sub", connections⟩]⟩,
    ⟨"sub", none, [
      .auxiliary ⟨"y", "", some wrong, none⟩,
      .auxiliary ⟨"v", "", some (.call "smth1" [wrong]), none⟩]⟩,
    ⟨"idle", none, [.auxiliary ⟨"z", "", some wrong, none⟩]⟩]⟩

end Simulation
end StockFlow
