import StockFlow.Proofs.Building
import StockFlow.Proofs.Rerouting

/-!
# Hoisted arguments

A reference among the arguments of a stateful function becomes the source of an input of the module
made for the call; in parentheses it moves into a variable of its own, which the input then reads. So a
main model with one such argument in parentheses is the model without them, with a detour.
-/

namespace StockFlow

variable {α : Type}

/-! ## Arguments in parentheses -/

namespace Equation

/-- How many of some calls call functions that are no primitives, by their canonical names. -/
def statefulCalls (calls : List (Name × List (Equation α))) : Nat :=
  calls.countP fun call => !isPrimitive (Name.canonical call.1)

/-- Whether an equation differs from another one only in that a reference among the arguments of a
stateful function stands in parentheses. The call is given by its number among those calls, inner ones
first, and the argument by its position. -/
inductive Parenthesizes (name : Name) : (call index : Nat) → Equation α → Equation α → Prop
  | argument {function : Name} {before after : List (Equation α)}
    (stateful : isPrimitive (Name.canonical function) = false) :
    Parenthesizes name (statefulCalls (callsAll (before ++ after))) before.length
      (.call function (before ++ .reference name :: after))
      (.call function (before ++ .group (.reference name) :: after))
  | inside {function : Name} {before after : List (Equation α)} {call index : Nat}
    {equation next : Equation α} (inner : Parenthesizes name call index equation next) :
    Parenthesizes name (statefulCalls (callsAll before) + call) index
      (.call function (before ++ equation :: after)) (.call function (before ++ next :: after))
  | group {call index : Nat} {equation next : Equation α}
    (inner : Parenthesizes name call index equation next) :
    Parenthesizes name call index (.group equation) (.group next)
  | unary {operator : UnaryOperator} {call index : Nat} {equation next : Equation α}
    (inner : Parenthesizes name call index equation next) :
    Parenthesizes name call index (.unary operator equation) (.unary operator next)
  | left {operator : BinaryOperator} {call index : Nat} {left next right : Equation α}
    (inner : Parenthesizes name call index left next) :
    Parenthesizes name call index (.binary operator left right) (.binary operator next right)
  | right {operator : BinaryOperator} {call index : Nat} {left right next : Equation α}
    (inner : Parenthesizes name call index right next) :
    Parenthesizes name (statefulCalls left.calls + call) index (.binary operator left right)
      (.binary operator left next)
  | condition {call index : Nat} {condition next whenTrue whenFalse : Equation α}
    (inner : Parenthesizes name call index condition next) :
    Parenthesizes name call index (.conditional condition whenTrue whenFalse)
      (.conditional next whenTrue whenFalse)
  | whenTrue {call index : Nat} {condition whenTrue next whenFalse : Equation α}
    (inner : Parenthesizes name call index whenTrue next) :
    Parenthesizes name (statefulCalls condition.calls + call) index
      (.conditional condition whenTrue whenFalse) (.conditional condition next whenFalse)
  | whenFalse {call index : Nat} {condition whenTrue whenFalse next : Equation α}
    (inner : Parenthesizes name call index whenFalse next) :
    Parenthesizes name (statefulCalls (condition.calls ++ whenTrue.calls) + call) index
      (.conditional condition whenTrue whenFalse) (.conditional condition whenTrue next)

theorem callsAll_append (equations others : List (Equation α)) :
    callsAll (equations ++ others) = callsAll equations ++ callsAll others := by
  induction equations with
  | nil => rfl
  | cons first rest ih => rw [List.cons_append, callsAll, callsAll, ih, List.append_assoc]

theorem statefulCalls_append (calls others : List (Name × List (Equation α))) :
    statefulCalls (calls ++ others) = statefulCalls calls + statefulCalls others :=
  List.countP_append

theorem mapNamesAll_append (f : Name → Name) (equations others : List (Equation α)) :
    mapNamesAll f (equations ++ others) = mapNamesAll f equations ++ mapNamesAll f others := by
  induction equations with
  | nil => rfl
  | cons first rest ih => rw [List.cons_append, mapNamesAll, mapNamesAll, ih, List.cons_append]

end Equation

/-! ## What expansion makes of them -/

namespace Expansion

open Equation (statefulCalls statefulCalls_append)

theorem expandAll_append_cons (owner : Name) (before after : List (Equation α))
    (equation : Equation α) (calls : Nat) :
    expandAll owner (before ++ equation :: after) calls = (do
      let first ← expandAll owner before calls
      let one ← expand owner equation first.calls
      let last ← expandAll owner after one.calls
      return ⟨first.result ++ one.result :: last.result, first.made ++ (one.made ++ last.made),
        last.calls⟩) := by
  induction before generalizing calls with
  | nil => rfl
  | cons other rest ih =>
    simp only [List.cons_append, expandAll, ih, bind_assoc, pure_bind, List.append_assoc]

theorem expand_call (owner function : Name) (before after : List (Equation α)) (argument : Equation α)
    (calls : Nat) :
    expand owner ((Equation.call function (before ++ argument :: after)).mapNames Name.canonical) calls =
      (do
        let first ← expandAll owner (Equation.mapNamesAll Name.canonical before) calls
        let one ← expand owner (argument.mapNames Name.canonical) first.calls
        let last ← expandAll owner (Equation.mapNamesAll Name.canonical after) one.calls
        expandCall owner (Name.canonical function) ⟨first.result ++ one.result :: last.result,
          first.made ++ (one.made ++ last.made), last.calls⟩) := by
  rw [Equation.mapNames, expand, Equation.mapNamesAll_append, Equation.mapNamesAll, expandAll_append_cons]
  simp only [bind_assoc, pure_bind]

theorem calls_of_expandCall {owner function : Name} {arguments : Expanded α (List (Equation α))}
    {result : Expanded α (Equation α)} (expanded : expandCall owner function arguments = .ok result) :
    result.calls = arguments.calls + if isPrimitive function then 0 else 1 := by
  rcases expandCall_eq_ok expanded with ⟨primitive, rfl⟩ | ⟨_, stateful, -, -, -, rfl⟩
  · rw [if_pos primitive]
    rfl
  · rw [if_neg (Bool.eq_false_iff.mp stateful)]

mutual

theorem calls_of_expand {owner : Name} : ∀ {equation : Equation α} {calls : Nat}
    {result : Expanded α (Equation α)},
    expand owner (equation.mapNames Name.canonical) calls = .ok result →
      result.calls = calls + statefulCalls equation.calls
  | .constant _ _, _, _, expanded => by
    cases expanded
    rfl
  | .reference _, _, _, expanded => by
    cases expanded
    rfl
  | .call function arguments, calls, _, expanded => by
    obtain ⟨inner, others, expanded⟩ := bind_eq_ok.mp expanded
    rw [calls_of_expandCall expanded, calls_of_expandAll others, Equation.calls, statefulCalls,
      statefulCalls, List.countP_cons, Nat.add_assoc]
    cases isPrimitive (Name.canonical function) <;> rfl
  | .group _, _, _, expanded => by
    obtain ⟨_, inner, expanded⟩ := bind_eq_ok.mp expanded
    rw [← pure_eq_ok.mp expanded, Equation.calls, ← calls_of_expand inner]
  | .unary _ _, _, _, expanded => by
    obtain ⟨_, inner, expanded⟩ := bind_eq_ok.mp expanded
    rw [← pure_eq_ok.mp expanded, Equation.calls, ← calls_of_expand inner]
  | .binary _ _ _, _, _, expanded => by
    obtain ⟨_, first, expanded⟩ := bind_eq_ok.mp expanded
    obtain ⟨_, second, expanded⟩ := bind_eq_ok.mp expanded
    rw [← pure_eq_ok.mp expanded, Equation.calls, statefulCalls_append, ← Nat.add_assoc,
      ← calls_of_expand first, ← calls_of_expand second]
  | .conditional _ _ _, _, _, expanded => by
    obtain ⟨_, first, expanded⟩ := bind_eq_ok.mp expanded
    obtain ⟨_, second, expanded⟩ := bind_eq_ok.mp expanded
    obtain ⟨_, third, expanded⟩ := bind_eq_ok.mp expanded
    rw [← pure_eq_ok.mp expanded, Equation.calls, statefulCalls_append, statefulCalls_append,
      ← Nat.add_assoc, ← Nat.add_assoc, ← calls_of_expand first, ← calls_of_expand second,
      ← calls_of_expand third]

theorem calls_of_expandAll {owner : Name} : ∀ {equations : List (Equation α)} {calls : Nat}
    {result : Expanded α (List (Equation α))},
    expandAll owner (Equation.mapNamesAll Name.canonical equations) calls = .ok result →
      result.calls = calls + statefulCalls (Equation.callsAll equations)
  | [], _, _, expanded => by
    cases expanded
    rfl
  | _ :: _, _, _, expanded => by
    obtain ⟨_, one, expanded⟩ := bind_eq_ok.mp expanded
    obtain ⟨_, others, expanded⟩ := bind_eq_ok.mp expanded
    rw [← pure_eq_ok.mp expanded, Equation.callsAll, statefulCalls_append, ← Nat.add_assoc,
      ← calls_of_expand one, ← calls_of_expandAll others]

end

theorem length_of_expandAll {owner : Name} {equations : List (Equation α)} {calls : Nat}
    {result : Expanded α (List (Equation α))} (expanded : expandAll owner equations calls = .ok result) :
    result.result.length = equations.length := by
  induction equations generalizing calls result with
  | nil =>
    cases expanded
    rfl
  | cons first rest ih =>
    obtain ⟨_, one, expanded⟩ := bind_eq_ok.mp expanded
    obtain ⟨_, others, expanded⟩ := bind_eq_ok.mp expanded
    rw [← pure_eq_ok.mp expanded, List.length_cons, List.length_cons, ih others]

theorem sources_append (owner : Name) (call index : Nat) (first second : List (Equation α)) :
    sources owner call index (first ++ second) =
      sources owner call index first ++ sources owner call (index + first.length) second := by
  induction first generalizing index with
  | nil => rfl
  | cons equation rest ih =>
    rw [List.cons_append, sources, sources, ih, List.length_cons, List.cons_append, Nat.add_assoc,
      Nat.add_comm 1]

theorem hoisted_append (owner : Name) (call index : Nat) (first second : List (Equation α)) :
    hoisted owner call index (first ++ second) =
      hoisted owner call index first ++ hoisted owner call (index + first.length) second := by
  induction first generalizing index with
  | nil => rfl
  | cons equation rest ih =>
    rw [List.cons_append, hoisted, hoisted, ih, List.length_cons, List.append_assoc, Nat.add_assoc,
      Nat.add_comm 1]

theorem length_sources (owner : Name) (call index : Nat) (equations : List (Equation α)) :
    (sources owner call index equations).length = equations.length := by
  induction equations generalizing index with
  | nil => rfl
  | cons first rest ih => rw [sources, List.length_cons, List.length_cons, ih]

/-- Whether definitions are others in which a connection of a module reads an auxiliary variable of
its own, which stands for the variable that is read in the others. -/
inductive Diverts (via source : Name) : List (Document.Variable α) → List (Document.Variable α) → Prop
  | intro {first second rest : List (Document.Variable α)} {text name model target : String}
    {before after : List Document.Connection} :
    Diverts via source
      (first ++ (second ++ .module ⟨name, model, before ++ ⟨source, target⟩ :: after⟩ :: rest))
      (first ++ .auxiliary ⟨via, text, some (.group (.reference source)), none⟩ ::
        (second ++ .module ⟨name, model, before ++ ⟨via, target⟩ :: after⟩ :: rest))

namespace Diverts

variable {via source : Name} {made other : List (Document.Variable α)}

theorem append_left (diverts : Diverts via source made other) (more : List (Document.Variable α)) :
    Diverts via source (more ++ made) (more ++ other) := by
  cases diverts
  simp only [← List.append_assoc more]
  exact .intro

theorem append_right (diverts : Diverts via source made other) (more : List (Document.Variable α)) :
    Diverts via source (made ++ more) (other ++ more) := by
  cases diverts
  simp only [List.append_assoc, List.cons_append]
  exact .intro

theorem flatMap {β : Type} {f : β → List (Document.Variable α)} {items others : List β}
    (differ : DifferOnce (fun item other => Diverts via source (f item) (f other)) items others) :
    Diverts via source (items.flatMap f) (others.flatMap f) := by
  induction differ with
  | here one => exact one.append_right _
  | there _ ih => exact ih.append_left _

end Diverts

/-- Whether two expansions leave the same, and what one makes is what the other makes, with the source
of one connection in a variable of its own. -/
structure Hoists {β : Type} (via source : Name) (expanded other : Expanded α β) : Prop where
  result : other.result = expanded.result
  calls : other.calls = expanded.calls
  made : Diverts via source expanded.made other.made

/-- An argument in parentheses moves into a variable of its own. -/
theorem agree_expandCall (owner function : Name) (before after : List (Equation α)) (source : Name)
    (made : List (Document.Variable α)) (call : Nat) (stateful : isPrimitive function = false) :
    Agree (Hoists (argumentName owner call before.length) source)
      (expandCall owner function ⟨before ++ .reference source :: after, made, call⟩)
      (expandCall owner function ⟨before ++ .group (.reference source) :: after, made, call⟩) := by
  unfold expandCall
  rw [if_neg (by simp [stateful]), if_neg (by simp [stateful])]
  split
  · exact .error
  · rename_i known _
    have same : (before ++ .group (.reference source) :: after).length =
        (before ++ .reference source :: after).length := by simp
    dsimp only
    rw [same]
    split
    · exact .error
    · rename_i fits
      refine .ok ⟨rfl, rfl, ?_⟩
      obtain ⟨first, target, last, inputs, as⟩ : ∃ first target last,
          known.inputs = first ++ target :: last ∧ first.length = before.length := by
        have within : before.length < known.inputs.length := by
          simp at fits
          omega
        refine ⟨known.inputs.take before.length, known.inputs[before.length],
          known.inputs.drop (before.length + 1), ?_, by simp [within.le]⟩
        rw [List.getElem_cons_drop, List.take_append_drop]
      -- the source of the argument takes its own place among the connections of the module
      have connects : ∀ argument : Equation α, (sources owner call 0 (before ++ argument :: after)).zip
          known.inputs = (sources owner call 0 before).zip first ++
            (argumentSource owner call before.length argument, target) ::
              (sources owner call (before.length + 1) after).zip last := by
        intro argument
        rw [inputs, sources_append, List.zip_append (by rw [length_sources, as]), sources, Nat.zero_add]
        rfl
      simp only [callModule, connects, hoisted_append, hoisted, argumentVariable, argumentSource,
        List.map_append, List.map_cons, Nat.zero_add, List.append_assoc, List.nil_append,
        List.cons_append]
      simp only [← List.append_assoc made]
      exact .intro

/-- What stands around arguments that are expanded alike is expanded alike. -/
theorem Hoists.agree_expandCall {via source : Name} {arguments others : Expanded α (List (Equation α))}
    (hoists : Hoists via source arguments others) (owner function : Name) :
    Agree (Hoists via source) (expandCall owner function arguments)
      (expandCall owner function others) := by
  unfold expandCall
  rw [hoists.result, hoists.calls]
  split
  · exact .ok ⟨rfl, rfl, hoists.made⟩
  · split
    · exact .error
    · dsimp only
      split
      · exact .error
      · refine .ok ⟨rfl, rfl, ?_⟩
        exact (hoists.made.append_right _).append_right _

/-- Equations that are expanded alike are so behind other calls too, which count for the argument. -/
theorem agree_expand_behind {owner name : Name} {call index : Nat} {equation next : Equation α}
    (alike : ∀ calls, Agree (Hoists (argumentName owner (calls + call) index) name)
      (expand owner equation calls) (expand owner next calls)) {start calls count : Nat}
    (counted : start = calls + count) :
    Agree (Hoists (argumentName owner (calls + (count + call)) index) name)
      (expand owner equation start) (expand owner next start) := by
  rw [counted, ← Nat.add_assoc]
  exact alike _

open Equation (Parenthesizes) in
/-- An equation with an argument in parentheses is expanded like the one without them, but for the
variable into which the argument moves. -/
theorem agree_expand (owner : Name) {name : Name} {call index : Nat} {equation next : Equation α}
    (parenthesizes : Parenthesizes name call index equation next) (calls : Nat) :
    Agree (Hoists (argumentName owner (calls + call) index) (Name.canonical name))
      (expand owner (equation.mapNames Name.canonical) calls)
      (expand owner (next.mapNames Name.canonical) calls) := by
  induction parenthesizes generalizing calls with
  | @argument function before after stateful =>
    -- a reference and a group around it are expanded alike; they part where the arguments are hoisted
    rw [expand_call, expand_call]
    refine Agree.bind_same fun first done => ?_
    have moves : Agree (fun one other : Expanded α (Equation α) =>
          one = ⟨.reference (Name.canonical name), [], first.calls⟩ ∧
            other = ⟨.group (.reference (Name.canonical name)), [], first.calls⟩)
        (expand owner (.reference (Name.canonical name)) first.calls)
        (expand owner (.group (.reference (Name.canonical name))) first.calls) := .ok ⟨rfl, rfl⟩
    refine moves.bind ?_
    rintro _ _ ⟨rfl, rfl⟩
    refine Agree.bind_same fun last done' => ?_
    have here : first.result.length = before.length := by
      rw [length_of_expandAll done, Equation.mapNamesAll_eq_map, List.length_map]
    have number : last.calls = calls + statefulCalls (Equation.callsAll (before ++ after)) := by
      rw [calls_of_expandAll done', calls_of_expandAll done, Equation.callsAll_append,
        statefulCalls_append, Nat.add_assoc]
    rw [← number, ← here]
    exact agree_expandCall owner (Name.canonical function) first.result last.result
      (Name.canonical name) (first.made ++ ([] ++ last.made)) last.calls stateful
  | @inside function before after call index equation next inner ih =>
    rw [expand_call, expand_call]
    refine Agree.bind_same fun first done => ?_
    refine (agree_expand_behind ih (calls_of_expandAll done)).bind fun one other hoists => ?_
    rw [hoists.calls, hoists.result]
    refine Agree.bind_same fun last _ => Hoists.agree_expandCall ?_ owner _
    exact ⟨rfl, rfl, (hoists.made.append_right _).append_left _⟩
  | group inner ih =>
    rw [Equation.mapNames, Equation.mapNames, expand, expand]
    exact (ih calls).bind fun one other hoists =>
      .ok ⟨congrArg Equation.group hoists.result, hoists.calls, hoists.made⟩
  | @unary operator _ _ _ _ inner ih =>
    rw [Equation.mapNames, Equation.mapNames, expand, expand]
    exact (ih calls).bind fun one other hoists =>
      .ok ⟨congrArg (Equation.unary operator) hoists.result, hoists.calls, hoists.made⟩
  | @left operator _ _ _ _ right inner ih =>
    rw [Equation.mapNames, Equation.mapNames, expand, expand]
    refine (ih calls).bind fun one other hoists => ?_
    rw [hoists.calls, hoists.result]
    exact Agree.bind_same fun second _ => .ok ⟨rfl, rfl, hoists.made.append_right _⟩
  | @right operator _ _ left _ _ inner ih =>
    rw [Equation.mapNames, Equation.mapNames, expand, expand]
    refine Agree.bind_same fun first done => ?_
    refine (agree_expand_behind ih (calls_of_expand done)).bind fun one other hoists =>
      .ok ⟨?_, hoists.calls, hoists.made.append_left _⟩
    rw [hoists.result]
  | @condition _ _ _ _ whenTrue whenFalse inner ih =>
    rw [Equation.mapNames, Equation.mapNames, expand, expand]
    refine (ih calls).bind fun one other hoists => ?_
    rw [hoists.calls, hoists.result]
    refine Agree.bind_same fun second _ => Agree.bind_same fun third _ => .ok ⟨rfl, rfl, ?_⟩
    exact (hoists.made.append_right _).append_right _
  | @whenTrue _ _ condition _ _ whenFalse inner ih =>
    rw [Equation.mapNames, Equation.mapNames, expand, expand]
    refine Agree.bind_same fun first done => ?_
    refine (agree_expand_behind ih (calls_of_expand done)).bind fun one other hoists => ?_
    rw [hoists.calls, hoists.result]
    refine Agree.bind_same fun third _ => .ok ⟨rfl, rfl, ?_⟩
    exact (hoists.made.append_left _).append_right _
  | @whenFalse _ _ condition whenTrue _ _ inner ih =>
    rw [Equation.mapNames, Equation.mapNames, expand, expand]
    refine Agree.bind_same fun first done => Agree.bind_same fun second done' => ?_
    have number : second.calls = calls + statefulCalls (condition.calls ++ whenTrue.calls) := by
      rw [calls_of_expand done', calls_of_expand done, statefulCalls_append, Nat.add_assoc]
    refine (agree_expand_behind ih number).bind fun one other hoists =>
      .ok ⟨?_, hoists.calls, hoists.made.append_left _⟩
    rw [hoists.result]

end Expansion

/-! ## Definitions -/

namespace Document.Variable

def equation? : Document.Variable α → Option (Equation α)
  | stock definition => definition.equation?
  | flow definition => definition.equation?
  | auxiliary definition => definition.equation?
  | module _ => none

/-- Puts another equation in place of a definition's own. -/
def withEquation (equation : Equation α) : Document.Variable α → Document.Variable α
  | stock definition => stock { definition with equation? := some equation }
  | flow definition => flow { definition with equation? := some equation }
  | auxiliary definition => auxiliary { definition with equation? := some equation }
  | module definition => module definition

/-- Whether a definition is another one with an argument of a stateful call in parentheses. -/
inductive Parenthesizes (name : Name) (call index : Nat) : Document.Variable α → Document.Variable α → Prop
  | intro {definition : Document.Variable α} {equation next : Equation α}
    (own : definition.equation? = some equation)
    (parenthesizes : Equation.Parenthesizes name call index equation next) :
    Parenthesizes name call index definition (definition.withEquation next)

end Document.Variable

/-- Whether a variable, as declared, is another one with an argument of a stateful call in
parentheses. -/
inductive Variable.Parenthesizes (owner name : Name) (call index : Nat) : Variable α → Variable α → Prop
  | intro {v : Variable α} {equation next : Equation α} (named : v.name = owner)
    (own : v.equation? = some (equation.mapNames Name.canonical))
    (parenthesizes : Equation.Parenthesizes name call index equation next) :
    Parenthesizes owner name call index v (v.withEquation (next.mapNames Name.canonical))

theorem Fault.agree_attribute {β γ : Type} {related : β → γ → Prop} {x : Except EquationFault β}
    {y : Except EquationFault γ} (agree : Agree related x y) (name name' : Name) :
    Agree related (Fault.attribute name x) (Fault.attribute name' y) := by
  cases agree with
  | error => exact .error
  | ok both => exact .ok both

namespace Model

variable {name owner : Name} {call index : Nat}

theorem agree_expandVariable {v w : Variable α}
    (parenthesizes : Variable.Parenthesizes owner name call index v w) :
    Agree (fun expanded other => other.1 = expanded.1 ∧
        Expansion.Diverts (Expansion.argumentName owner call index) (Name.canonical name) expanded.2
          other.2)
      (expandVariable v) (expandVariable w) := by
  obtain ⟨rfl, own, parenthesizes⟩ := parenthesizes
  rename_i equation next
  have again : (v.withEquation (next.mapNames Name.canonical)).equation? =
      some (next.mapNames Name.canonical) := by
    cases v with
    | stock | formula => rfl
    | module => cases own
  have twice : ∀ first second : Equation α,
      (v.withEquation first).withEquation second = v.withEquation second := by
    intro first second
    cases v <;> rfl
  unfold expandVariable
  rw [own, again, Variable.name_withEquation]
  have agree := Expansion.agree_expand v.name parenthesizes 0
  rw [Nat.zero_add] at agree
  refine (Fault.agree_attribute agree v.name v.name).bind fun _ _ hoists => .ok ⟨?_, hoists.made⟩
  rw [twice, hoists.result]

end Model

variable [Scalar α] {name : Name} {call index : Nat}

theorem Variable.ofDefinition_of_equation? {definition : Document.Variable α} {equation : Equation α}
    (own : definition.equation? = some equation) : ∃ v, ofDefinition definition = .ok v ∧
      v.name = Name.canonical definition.name ∧ v.equation? = some (equation.mapNames Name.canonical) ∧
        ∀ next, ofDefinition (definition.withEquation next) =
          .ok (v.withEquation (next.mapNames Name.canonical)) := by
  cases definition with
  | stock definition =>
    simp only [Document.Variable.equation?] at own
    simp only [ofDefinition, Document.Variable.withEquation, readEquation, own]
    exact ⟨_, rfl, rfl, rfl, fun _ => rfl⟩
  | flow definition | auxiliary definition =>
    simp only [Document.Variable.equation?] at own
    simp only [ofDefinition, Document.Variable.withEquation, readFormula, readEquation, own,
      Option.isNone_some, Bool.and_false, Bool.false_and, Bool.false_eq_true, if_false]
    exact ⟨_, rfl, rfl, rfl, fun _ => rfl⟩
  | module => cases own

theorem Variable.agree_ofDefinition {definition other : Document.Variable α}
    (parenthesizes : Document.Variable.Parenthesizes name call index definition other) :
    Agree (Variable.Parenthesizes (Name.canonical definition.name) name call index)
      (ofDefinition definition) (ofDefinition other) := by
  obtain ⟨own, parenthesizes⟩ := parenthesizes
  obtain ⟨v, checked, named, given, others⟩ := ofDefinition_of_equation? own
  rw [checked, others]
  exact .ok (.intro named given parenthesizes)

theorem Input.resolve_of_not_dotted {source : Name} (plain : ¬ Path.IsDotted (Name.canonical source))
    (module target : Name) : resolve module ⟨source, target⟩ =
      match Path.after? (module ++ ".") (Name.canonical target) with
      | some inner =>
        if inner = "" then .error ⟨.badInputTarget, some target⟩
        else .ok (some ⟨.relative (Name.canonical source), inner⟩)
      | none => .error ⟨.badInputTarget, some target⟩ := by
  have outside : Path.after? (module ++ ".") (Name.canonical source) = none :=
    Path.after?_of_not_dotted (by simp [Path.IsDotted]) plain
  have beside : Source.ofSymbol (Name.canonical source) = .relative (Name.canonical source) := by
    rw [Source.ofSymbol, Path.after?_of_not_dotted (by decide) plain]
  have isOutside : ¬ (Path.after? (module ++ ".") (Name.canonical source)).isSome = true := by
    rw [outside]
    exact Bool.false_ne_true
  rw [← beside]
  exact if_neg isOutside

section

variable {via source : Name} (plain : ¬ Path.IsDotted (Name.canonical source))
  (plain' : ¬ Path.IsDotted (Name.canonical via))
include plain plain'

/-- The module of a call is checked alike with an input that takes a detour. -/
theorem Variable.agree_module (text : String) (module model target : Name)
    (before after : List Document.Connection) :
    Agree (fun v w : Variable α => ∃ detour : Detour, detour.via = Name.canonical via ∧
        detour.source = Name.canonical source ∧ detour.text = text ∧
        detour.module = Name.canonical module ∧ v = .module detour.straight ∧ w = .module detour.around)
      (ofDefinition (.module ⟨module, model, before ++ ⟨source, target⟩ :: after⟩))
      (ofDefinition (.module ⟨module, model, before ++ ⟨via, target⟩ :: after⟩)) := by
  have one : Agree (fun input other => ∃ inner, input = some ⟨.relative (Name.canonical source), inner⟩ ∧
        other = some ⟨.relative (Name.canonical via), inner⟩)
      (Input.resolve (Name.canonical module) ⟨source, target⟩)
      (Input.resolve (Name.canonical module) ⟨via, target⟩) := by
    rw [Input.resolve_of_not_dotted plain, Input.resolve_of_not_dotted plain']
    split
    · split
      · exact .error
      · exact .ok ⟨_, rfl, rfl⟩
    · exact .error
  simp only [ofDefinition, List.mapM_append, List.mapM_cons, bind_assoc, pure_bind]
  refine Agree.bind_same fun first _ => one.bind ?_
  rintro _ _ ⟨inner, rfl, rfl⟩
  refine Agree.bind_same fun last _ => .ok ⟨⟨Name.canonical via, text, Name.canonical source,
    Name.canonical module, model, first.filterMap id, inner, last.filterMap id⟩, rfl, rfl, rfl, rfl, ?_, ?_⟩
  · simp [Detour.straight, Detour.through]
  · simp [Detour.around, Detour.through]

end

/-- Whether a variable has a certain name or refers to it beside itself. -/
def Variable.Mentions (v : Variable α) (name : Name) : Prop :=
  v.name = name ∨ name ∈ v.sources ∨ name ∈ v.flows

instance {v : Variable α} {name : Name} : Decidable (v.Mentions name) :=
  inferInstanceAs (Decidable (_ ∨ _))

namespace Detour

variable {detour : Detour} {result result' : List (Variable α)} {among made : Variable α → Prop}

omit [Scalar α] in
/-- Where the module and the middle of a detour are added to the same variables, what is there with the
detour is the middle and what is there without it, turned. -/
theorem mem_iff_turn (ordered : Ascending Variable.name result')
    (members : ∀ v, v ∈ result ↔ among v ∨ .module detour.straight = v ∨ made v)
    (members' : ∀ v, v ∈ result' ↔
      among v ∨ .formula detour.formula = v ∨ .module detour.around = v ∨ made v) (v : Variable α) :
    v ∈ result' ↔ v = .formula detour.formula ∨ ∃ w ∈ result, v = detour.turn w := by
  have present := (members (.module detour.straight)).mpr (.inr (.inl rfl))
  have present' := (members' (.module detour.around)).mpr (.inr (.inr (.inl rfl)))
  constructor
  · intro member
    by_cases here : v.name = detour.module
    · obtain rfl := ordered.distinct.eq_of_name_eq member present' here
      exact .inr ⟨_, present, (if_pos rfl).symm⟩
    · have stays : v = detour.turn v := (if_neg here).symm
      rcases (members' v).mp member with own | rfl | rfl | made
      · exact .inr ⟨v, (members v).mpr (.inl own), stays⟩
      · exact .inl rfl
      · exact absurd rfl here
      · exact .inr ⟨v, (members v).mpr (.inr (.inr made)), stays⟩
  · rintro (rfl | ⟨w, member, rfl⟩)
    · exact (members' _).mpr (.inr (.inl rfl))
    · unfold turn
      split
      · exact present'
      · rename_i off
        rcases (members w).mp member with own | rfl | made
        · exact (members' w).mpr (.inl own)
        · exact absurd rfl off
        · exact (members' w).mpr (.inr (.inr (.inr made)))

end Detour

namespace Model

theorem agree_declared {definition other : Document.Variable α}
    (parenthesizes : Document.Variable.Parenthesizes name call index definition other)
    (before after : List (Document.Variable α)) :
    Agree (DifferOnce (Variable.Parenthesizes (Name.canonical definition.name) name call index))
      ((before ++ definition :: after).foldlM declare [])
      ((before ++ other :: after).foldlM declare []) := by
  have named : ∀ {owner} (v w : Variable α), Variable.Parenthesizes owner name call index v w →
      w.name = v.name := by
    rintro _ _ _ ⟨-, -, -⟩
    exact Variable.name_withEquation
  rw [List.foldlM_append, List.foldlM_append]
  refine Agree.bind_same fun vars _ => ?_
  rw [List.foldlM_cons, List.foldlM_cons]
  have one : Agree (DifferOnce (Variable.Parenthesizes (Name.canonical definition.name) name call index))
      (declare vars definition) (declare vars other) := by
    refine (Fault.agree_attribute (Variable.agree_ofDefinition parenthesizes) _ _).bind fun v w both => ?_
    have inserted := rel_insertNamed?_same both (named v w both) vars
    generalize insertNamed? Variable.name v vars = result, insertNamed? Variable.name w vars = result'
      at inserted
    cases inserted with
    | none => exact .error
    | some differ => exact .ok differ
  refine one.bind fun vars others differ => Agree.foldlM (List.forall₂_same.mpr fun _ _ => rfl) differ ?_
  rintro vars others definition _ differ rfl
  refine Agree.bind_same fun v _ => ?_
  have both := differ.rel_insertNamed? named v
  generalize insertNamed? Variable.name v vars = result, insertNamed? Variable.name v others = result'
    at both
  cases both with
  | none => exact .error
  | some inserted => exact .ok inserted

section

variable {vars : List (Variable α)} {made other others : List (Document.Variable α)}
  {definition definition' formula : Document.Variable α}

/-- Definitions in another order, the first one apart, can be declared exactly if the others can and
the first one has another name. -/
theorem exists_declared_cons_iff (ascending : Ascending Variable.name vars)
    (shuffled : made.Perm (definition :: others)) :
    (∃ result, made.foldlM declare vars = .ok result) ↔
      (∃ v, Variable.ofDefinition definition = .ok v) ∧
        (∃ result, others.foldlM declare vars = .ok result) ∧
        (∀ v ∈ vars, v.name ≠ Name.canonical definition.name) ∧
        ∀ inner ∈ others, Name.canonical inner.name ≠ Name.canonical definition.name := by
  rw [exists_declared_iff ascending, exists_declared_iff ascending, (shuffled.map _).nodup_iff]
  simp only [shuffled.mem_iff, List.forall_mem_cons, List.map_cons, List.nodup_cons, List.mem_map,
    not_exists, not_and, forall_and]
  tauto

variable (ascending : Ascending Variable.name vars) (shuffled : made.Perm (definition :: others))
  (shuffled' : other.Perm (formula :: definition' :: others))
include ascending shuffled shuffled'

/-- Definitions of which one is written in another way, with one more, can be declared exactly if the
first ones can, where that one has no name among what they declare. -/
theorem exists_declared_iff_of_detour {middle : Variable α}
    (checks : Variable.ofDefinition formula = .ok middle)
    (alike : (∃ v, Variable.ofDefinition definition = .ok v) ↔
      ∃ v, Variable.ofDefinition definition' = .ok v)
    (named : definition'.name = definition.name)
    (clear : ∀ result, made.foldlM declare vars = .ok result →
      ∀ v ∈ result, v.name ≠ Name.canonical formula.name) :
    (∃ result, made.foldlM declare vars = .ok result) ↔
      ∃ result, other.foldlM declare vars = .ok result := by
  have again : (∃ result, (definition' :: others).foldlM declare vars = .ok result) ↔
      ∃ result, made.foldlM declare vars = .ok result := by
    rw [exists_declared_cons_iff ascending shuffled, exists_declared_cons_iff ascending (.refl _), alike,
      named]
  rw [exists_declared_cons_iff ascending shuffled', again]
  refine ⟨fun ready => ⟨⟨_, checks⟩, ready, ?_⟩, fun ready => ready.2.1⟩
  obtain ⟨result, done⟩ := ready
  have members := (declared done ascending).2
  have known := ((exists_declared_iff ascending).mp ⟨result, done⟩).1
  refine ⟨fun v member => clear result done v ((members v).mpr (.inl member)), ?_⟩
  have each : ∀ inner ∈ made, Name.canonical inner.name ≠ Name.canonical formula.name := by
    intro inner member
    obtain ⟨v, checked⟩ := known inner member
    rw [← Variable.name_of_ofDefinition checked]
    exact clear result done v ((members v).mpr (.inr ⟨inner, member, checked⟩))
  simp only [shuffled.mem_iff, List.forall_mem_cons, named] at each ⊢
  exact each

/-- What is declared with the middle of a detour, and with the module around it, is what is declared
without, with the detour. -/
theorem leads_of_declared {detour : Detour} {result result' : List (Variable α)}
    (checks : Variable.ofDefinition formula = .ok (.formula detour.formula))
    (straight : Variable.ofDefinition definition = .ok (.module detour.straight))
    (around : Variable.ofDefinition definition' = .ok (.module detour.around))
    (done : made.foldlM declare vars = .ok result) (done' : other.foldlM declare vars = .ok result')
    (free : ∀ v ∈ result, ¬ v.Mentions detour.via) (timeSpec? : Option (TimeSpec α)) (implicit : Bool) :
    detour.Leads ⟨mainModel, timeSpec?, result, implicit⟩ ⟨mainModel, timeSpec?, result', implicit⟩ := by
  obtain ⟨ordered, members⟩ := declared done ascending
  obtain ⟨ordered', members'⟩ := declared done' ascending
  simp only [shuffled.mem_iff, shuffled'.mem_iff, List.exists_mem_cons_iff, checks, straight, around,
    Except.ok.injEq] at members members'
  have present := (members (.module detour.straight)).mpr (.inr (.inl rfl))
  exact ⟨rfl, rfl, rfl, ordered, ordered', present, Detour.mem_iff_turn ordered' members members',
    fun v member same => free v member (.inl same),
    fun v member among => free v member (.inr (.inl among)),
    fun v member among => free v member (.inr (.inr among))⟩

end

section

variable {via source : Name} {vars : List (Variable α)} {made other : List (Document.Variable α)}
variable (plain : ¬ Path.IsDotted (Name.canonical source)) (plain' : ¬ Path.IsDotted (Name.canonical via))
include plain plain'

/-- What calls make is declared with a detour exactly if it is without, where nothing mentions the
variable that the detour leads through. -/
theorem agree_made (diverts : Expansion.Diverts via source made other)
    (ascending : Ascending Variable.name vars)
    (free : ∀ result, made.foldlM declare vars = .ok result →
      ∀ v ∈ result, ¬ v.Mentions (Name.canonical via))
    (timeSpec? : Option (TimeSpec α)) (implicit : Bool) :
    Agree (fun result result' => ∃ detour : Detour, detour.via = Name.canonical via ∧
        detour.source = Name.canonical source ∧ detour.Leads ⟨mainModel, timeSpec?, result, implicit⟩
          ⟨mainModel, timeSpec?, result', implicit⟩)
      (made.foldlM declare vars) (other.foldlM declare vars) := by
  obtain ⟨⟩ := diverts
  rename_i first second rest text module model target before after
  have modules := Variable.agree_module (α := α) plain plain' text module model target before after
  generalize straight : (Document.Variable.module ⟨module, model, before ++ ⟨source, target⟩ :: after⟩ :
    Document.Variable α) = definition at *
  generalize around : (Document.Variable.module ⟨module, model, before ++ ⟨via, target⟩ :: after⟩ :
    Document.Variable α) = definition' at *
  have named : definition'.name = definition.name := by
    rw [← straight, ← around]
    rfl
  generalize middle : (Document.Variable.auxiliary ⟨via, text, some (.group (.reference source)), none⟩ :
    Document.Variable α) = formula
  -- the order of definitions does not matter, so those that differ may come first
  have shuffled : (first ++ (second ++ definition :: rest)).Perm
      (definition :: (first ++ (second ++ rest))) := by
    rw [← List.append_assoc, ← List.append_assoc]
    exact List.perm_middle
  have shuffled' : (first ++ formula :: (second ++ definition' :: rest)).Perm
      (formula :: definition' :: (first ++ (second ++ rest))) := by
    refine List.perm_middle.trans (.cons _ ?_)
    rw [← List.append_assoc, ← List.append_assoc]
    exact List.perm_middle
  have checks : Variable.ofDefinition formula =
      .ok (.formula ⟨Name.canonical via, text, .group (.reference (Name.canonical source)), none, false,
        false⟩) := by
    rw [← middle]
    rfl
  refine .of_exists_iff ?_ fun result result' done done' => ?_
  · refine exists_declared_iff_of_detour ascending shuffled shuffled' checks modules.exists_iff named ?_
    rw [← middle]
    exact fun result done v member same => free result done v member (.inl same)
  · obtain ⟨v, checked⟩ := ((exists_declared_iff ascending).mp ⟨result, done⟩).1 definition
      (shuffled.mem_iff.mpr List.mem_cons_self)
    obtain ⟨w, checked'⟩ := modules.exists_iff.mp ⟨v, checked⟩
    obtain ⟨detour, isVia, isSource, isText, -, rfl, rfl⟩ := modules.of_ok checked checked'
    have passes : Variable.ofDefinition formula = .ok (.formula detour.formula) := by
      rw [checks, Detour.formula, isVia, isSource, isText]
    exact ⟨detour, isVia, isSource, leads_of_declared ascending shuffled shuffled' passes checked
      checked' done done' (isVia ▸ free result done) timeSpec? implicit⟩

end

/-- The variables of a model before the flows of its stocks are checked. -/
def desugar (definitions : List (Document.Variable α)) : Except Fault (List (Variable α)) := do
  let declared ← definitions.foldlM declare []
  let expanded ← declared.mapM expandVariable
  (expanded.flatMap (·.2)).foldlM declare (expanded.map (·.1))

theorem build_eq (document : Document.Model α) (implicit : Bool) :
    build document implicit = (do
      let vars ← desugar document.definitions
      checkFlows vars
      return ⟨document.name, document.timeSpec?, vars, implicit⟩) := by
  simp only [build, desugar, bind_assoc]

theorem agree_desugar {definition other : Document.Variable α}
    (parenthesizes : Document.Variable.Parenthesizes name call index definition other)
    (before after : List (Document.Variable α)) {made : Name}
    (isMade : made = Name.canonical (Expansion.argumentName (Name.canonical definition.name) call index))
    (plain : ¬ Path.IsDotted (Name.canonical (Name.canonical name))) (plain' : ¬ Path.IsDotted made)
    (free : ∀ vars, desugar (before ++ definition :: after) = .ok vars → ∀ v ∈ vars, ¬ v.Mentions made)
    (timeSpec? : Option (TimeSpec α)) (implicit : Bool) :
    Agree (fun result result' => ∃ detour : Detour, detour.via = made ∧
        detour.source = Name.canonical (Name.canonical name) ∧
          detour.Leads ⟨mainModel, timeSpec?, result, implicit⟩
            ⟨mainModel, timeSpec?, result', implicit⟩)
      (desugar (before ++ definition :: after)) (desugar (before ++ other :: after)) := by
  subst isMade
  refine (agree_declared parenthesizes before after).with_left.bind ?_
  rintro declared declared' ⟨isDeclared, differ⟩
  refine (differ.agree_mapM fun _ _ => agree_expandVariable).with_left.bind ?_
  rintro expanded expanded' ⟨isExpanded, differ⟩
  have same : expanded'.map (·.1) = expanded.map (·.1) := differ.map_eq fun _ _ both => both.1
  rw [same]
  have ascending : Ascending Variable.name (expanded.map (·.1)) :=
    ascending_of_expanded (mapM_eq_ok.mp isExpanded) (Model.declared isDeclared .nil).1
  refine agree_made plain plain' (.flatMap (differ.mono fun _ _ both => both.2)) ascending ?_ timeSpec?
    implicit
  intro vars done
  refine free vars (bind_eq_ok.mpr ⟨declared, isDeclared, bind_eq_ok.mpr ⟨expanded, isExpanded, done⟩⟩)

end Model

end StockFlow
