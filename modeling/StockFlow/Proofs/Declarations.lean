import StockFlow.Model.Basic
import StockFlow.Proofs.Canonical
import StockFlow.Proofs.Names
import StockFlow.Proofs.Success

/-!
# The variables of checked models

A checked model has its variables in increasing order of names. Each comes from a definition of the
document, or from a definition that the expansion of another's equation made; if the names of the
document's definitions are plain, so are all names.
-/

namespace StockFlow

variable {α : Type} [Scalar α]

/-! ## Declaring -/

theorem attribute_eq_ok {β : Type} {name : Name} {x : Except EquationFault β} {b : β} :
    Fault.attribute name x = .ok b ↔ x = .ok b := by
  cases x <;> simp [Fault.attribute]

theorem Variable.name_of_ofDefinition {definition : Document.Variable α} {v : Variable α}
    (checked : ofDefinition definition = .ok v) : v.name = Name.canonical definition.name := by
  cases definition <;> simp only [ofDefinition, bind_eq_ok, pure_eq_ok] at checked
  case stock s =>
    obtain ⟨initial, -, rfl⟩ := checked
    rfl
  case flow f =>
    obtain ⟨equation, -, rfl⟩ := checked
    rfl
  case auxiliary a =>
    obtain ⟨equation, -, rfl⟩ := checked
    rfl
  case module m =>
    obtain ⟨inputs, -, rfl⟩ := checked
    rfl

namespace Model

theorem declare_eq_ok {vars result : List (Variable α)} {definition : Document.Variable α} :
    declare vars definition = .ok result ↔ ∃ v, Variable.ofDefinition definition = .ok v ∧
      insertNamed? Variable.name v vars = some result := by
  simp only [declare, bind_eq_ok, attribute_eq_ok]
  refine exists_congr fun v => and_congr_right fun _ => ?_
  cases insertNamed? Variable.name v vars <;> simp [pure_eq_ok]

theorem declared {vars result : List (Variable α)} {definitions : List (Document.Variable α)}
    (folded : definitions.foldlM declare vars = .ok result)
    (ascending : Ascending Variable.name vars) :
    Ascending Variable.name result ∧ ∀ v, v ∈ result ↔
      v ∈ vars ∨ ∃ definition ∈ definitions, Variable.ofDefinition definition = .ok v := by
  induction definitions generalizing vars with
  | nil =>
    rw [List.foldlM_nil, pure_eq_ok] at folded
    simpa [← folded] using ascending
  | cons definition rest ih =>
    rw [List.foldlM_cons, bind_eq_ok] at folded
    obtain ⟨next, first, others⟩ := folded
    obtain ⟨w, checked, inserted⟩ := declare_eq_ok.mp first
    obtain ⟨ordered, members⟩ := ih others (ascending.insertNamed? inserted)
    refine ⟨ordered, fun v => ?_⟩
    rw [members, mem_insertNamed? inserted, List.exists_mem_cons_iff, checked, Except.ok.injEq,
      eq_comm, or_assoc, or_left_comm]

/-- Definitions are declared beside variables exactly if each can be checked on its own and all names
differ. -/
theorem exists_declared_iff {vars : List (Variable α)} {definitions : List (Document.Variable α)}
    (ascending : Ascending Variable.name vars) :
    (∃ result, definitions.foldlM declare vars = .ok result) ↔
      (∀ definition ∈ definitions, ∃ v, Variable.ofDefinition definition = .ok v) ∧
      (definitions.map fun definition => Name.canonical definition.name).Nodup ∧
      ∀ v ∈ vars, ∀ definition ∈ definitions, v.name ≠ Name.canonical definition.name := by
  induction definitions generalizing vars with
  | nil => simp [pure_eq_ok]
  | cons definition rest ih =>
    -- the first definition goes in among the variables, and the others into the result
    have step : (∃ result, (definition :: rest).foldlM declare vars = .ok result) ↔
        ∃ w, Variable.ofDefinition definition = .ok w ∧ ∃ next,
          insertNamed? Variable.name w vars = some next ∧
            ∃ result, rest.foldlM declare next = .ok result := by
      simp only [List.foldlM_cons, exists_bind_eq_ok, declare_eq_ok]
      constructor
      · rintro ⟨next, ⟨w, checked, inserted⟩, others⟩
        exact ⟨w, checked, next, inserted, others⟩
      · rintro ⟨w, checked, next, inserted, others⟩
        exact ⟨next, ⟨w, checked, inserted⟩, others⟩
    rw [step]
    constructor
    · rintro ⟨w, checked, next, inserted, others⟩
      have fresh := (exists_insertNamed?_iff ascending).mp ⟨next, inserted⟩
      obtain ⟨each, distinct, apart⟩ := (ih (ascending.insertNamed? inserted)).mp others
      have named := Variable.name_of_ofDefinition checked
      have here := apart w ((mem_insertNamed? inserted).mpr (.inl rfl))
      refine ⟨List.forall_mem_cons.mpr ⟨⟨w, checked⟩, each⟩, ?_, fun v member => ?_⟩
      · refine List.nodup_cons.mpr ⟨fun listed => ?_, distinct⟩
        obtain ⟨other, among, same⟩ := List.mem_map.mp listed
        exact here other among (named.trans same.symm)
      · refine List.forall_mem_cons.mpr ⟨named ▸ fresh v member, ?_⟩
        exact apart v ((mem_insertNamed? inserted).mpr (.inr member))
    · rintro ⟨each, distinct, apart⟩
      obtain ⟨⟨w, checked⟩, each⟩ := List.forall_mem_cons.mp each
      obtain ⟨unlisted, distinct⟩ := List.nodup_cons.mp distinct
      have named := Variable.name_of_ofDefinition checked
      have fresh : ∀ v ∈ vars, v.name ≠ w.name := fun v member =>
        named.symm ▸ apart v member definition List.mem_cons_self
      obtain ⟨next, inserted⟩ := (exists_insertNamed?_iff ascending).mpr fresh
      refine ⟨w, checked, next, inserted, (ih (ascending.insertNamed? inserted)).mpr
        ⟨each, distinct, fun v member other among => ?_⟩⟩
      rcases (mem_insertNamed? inserted).mp member with rfl | before
      · rintro same
        exact unlisted (List.mem_map.mpr ⟨other, among, by rw [← same, named]⟩)
      · exact apart v before other (List.mem_cons_of_mem _ among)

end Model

/-! ## Reserved names -/

theorem primitiveNames_eq : primitiveNames = Primitive.names.map Prod.fst := by decide

theorem mem_names_of_isPrimitive {name : Name} (primitive : isPrimitive name = true) :
    ∃ entry ∈ Primitive.names, entry.1 = name := by
  rw [isPrimitive, primitiveNames_eq, List.contains_iff_mem] at primitive
  exact List.mem_map.mp primitive

/-- The names that need no expansion are those of which a term can be made. -/
theorem isSome_ofName? (name : Name) : (Primitive.ofName? name).isSome = isPrimitive name := by
  rw [Bool.eq_iff_iff]
  constructor
  · intro known
    obtain ⟨found, lookedUp⟩ := Option.isSome_iff_exists.mp known
    rw [isPrimitive, primitiveNames_eq, List.contains_iff_mem]
    exact List.mem_map_of_mem (Keyed.mem_of_get? lookedUp)
  · intro primitive
    obtain ⟨entry, listed, rfl⟩ := mem_names_of_isPrimitive primitive
    revert entry
    decide

theorem Primitive.head_ne_dollar : ∀ entry ∈ names, entry.1.toList.head? ≠ some '$' := by decide

theorem ClockReference.ofName?_of_cons_dollar {name : Name} {cs : List Char}
    (starts : name.toList = '$' :: cs) : ofName? name = none := by
  refine Option.eq_none_iff_forall_ne_some.mpr fun clock found => ?_
  have listed := Keyed.mem_of_get? found
  have clear : ∀ entry ∈ [("time", time), ("dt", step), ("initial_time", start), ("final_time", stop)],
      entry.1.toList.head? ≠ some '$' := by decide
  exact clear _ listed (by rw [starts]; rfl)

theorem ClockReference.canonical_of_ofName? {name : Name} {clock : ClockReference}
    (found : ofName? name = some clock) : Name.canonical name = name := by
  have fixed : ∀ entry ∈ [("time", time), ("dt", step), ("initial_time", start), ("final_time", stop)],
      Name.canonical entry.1 = entry.1 := by decide
  exact fixed (name, clock) (Keyed.mem_of_get? found)

theorem canonical_of_isPrimitive {name : Name} (primitive : isPrimitive name = true) :
    Name.canonical name = name := by
  have fixed : ∀ entry ∈ Primitive.names, Name.canonical entry.1 = entry.1 := by decide
  obtain ⟨entry, listed, rfl⟩ := mem_names_of_isPrimitive primitive
  exact fixed entry listed

/-! ## Expanding -/

section

omit [Scalar α]

namespace Expansion

/-- Whether a definition bears a name made for a call in the equation of the variable `owner`. -/
def MadeFor (owner : Name) (definition : Document.Variable α) : Prop :=
  ∃ call suffix, definition.name = stem owner call ++ suffix ∧ ¬ Path.IsDotted suffix

theorem not_isDotted_toString (n : Nat) : ¬ Path.IsDotted (toString n) := by
  intro dotted
  rw [Path.IsDotted, Nat.toString_eq_ofList_toDigits, String.toList_ofList] at dotted
  exact absurd (Nat.isDigit_of_mem_toDigits (by decide) (by decide) dotted) (by decide)

theorem not_isDotted_append {a b : String} (first : ¬ Path.IsDotted a) (second : ¬ Path.IsDotted b) :
    ¬ Path.IsDotted (a ++ b) := by
  rw [Path.IsDotted, String.toList_append, List.mem_append, not_or]
  exact ⟨first, second⟩

theorem madeFor_of_hoisted {owner : Name} {call index : Nat} {arguments : List (Equation α)} :
    ∀ definition ∈ hoisted owner call index arguments, MadeFor owner definition := by
  induction arguments generalizing index with
  | nil => simp [hoisted]
  | cons first rest ih =>
    intro definition member
    rcases List.mem_append.mp member with own | later
    · unfold argumentVariable at own
      split at own
      · cases own
      · rw [List.mem_singleton.mp own]
        exact ⟨call, "arg" ++ toString index, String.append_assoc,
          not_isDotted_append (by decide) (not_isDotted_toString index)⟩
    · exact ih definition later

/-- What a call is expanded to: a primitive is called as it was, and a stateful function becomes the
output of a module that is made for it, if it takes so many arguments. -/
theorem expandCall_eq_ok {owner function : Name} {arguments : Expanded α (List (Equation α))}
    {result : Expanded α (Equation α)} (expanded : expandCall owner function arguments = .ok result) :
    isPrimitive function = true ∧
      result = ⟨.call function arguments.result, arguments.made, arguments.calls⟩ ∨
    ∃ stateful, isPrimitive function = false ∧ Stateful.ofName? function = some stateful ∧
      arguments.result.length ≠ 0 ∧ arguments.result.length ≤ stateful.inputs.length ∧
      result = ⟨.reference (moduleName owner arguments.calls function ++ ".output"),
        arguments.made ++ hoisted owner arguments.calls 0 arguments.result ++
          [.module (callModule owner arguments.calls stateful arguments.result)],
        arguments.calls + 1⟩ := by
  unfold expandCall at expanded
  split at expanded
  · rename_i primitive
    cases expanded
    exact .inl ⟨primitive, rfl⟩
  · rename_i primitive
    split at expanded
    · cases expanded
    · rename_i stateful known
      dsimp only at expanded
      split at expanded
      · cases expanded
      · rename_i fits
        cases expanded
        rw [not_or, not_lt] at fits
        exact .inr ⟨stateful, Bool.eq_false_iff.mpr primitive, known, fits.1, fits.2, rfl⟩

theorem madeFor_of_expandCall {owner function : Name} {arguments : Expanded α (List (Equation α))}
    {result : Expanded α (Equation α)} (expanded : expandCall owner function arguments = .ok result)
    (made : ∀ definition ∈ arguments.made, MadeFor owner definition) :
    ∀ definition ∈ result.made, MadeFor owner definition := by
  rcases expandCall_eq_ok expanded with ⟨-, rfl⟩ | ⟨stateful, -, -, -, -, rfl⟩
  · exact made
  · simp only [List.forall_mem_append, List.forall_mem_singleton]
    refine ⟨⟨made, madeFor_of_hoisted⟩, arguments.calls, stateful.name, rfl, ?_⟩
    cases stateful <;> decide

mutual

theorem madeFor_of_expand {owner : Name} : ∀ {equation : Equation α} {calls : Nat}
    {result : Expanded α (Equation α)}, expand owner equation calls = .ok result →
      ∀ definition ∈ result.made, MadeFor owner definition
  | .constant _ _, _, _, expanded => by
    cases expanded
    simp
  | .reference _, _, _, expanded => by
    cases expanded
    simp
  | .call _ _, _, _, expanded => by
    simp only [expand, bind_eq_ok] at expanded
    obtain ⟨_, inner, outer⟩ := expanded
    exact madeFor_of_expandCall outer (madeFor_of_expandAll inner)
  | .group _, _, _, expanded => by
    simp only [expand, bind_eq_ok, pure_eq_ok] at expanded
    obtain ⟨_, inner, rfl⟩ := expanded
    exact fun definition member => madeFor_of_expand inner definition member
  | .unary _ _, _, _, expanded => by
    simp only [expand, bind_eq_ok, pure_eq_ok] at expanded
    obtain ⟨_, inner, rfl⟩ := expanded
    exact fun definition member => madeFor_of_expand inner definition member
  | .binary _ _ _, _, _, expanded => by
    simp only [expand, bind_eq_ok, pure_eq_ok] at expanded
    obtain ⟨_, left, _, right, rfl⟩ := expanded
    simp only [List.forall_mem_append]
    exact ⟨madeFor_of_expand left, madeFor_of_expand right⟩
  | .conditional _ _ _, _, _, expanded => by
    simp only [expand, bind_eq_ok, pure_eq_ok] at expanded
    obtain ⟨_, condition, _, whenTrue, _, whenFalse, rfl⟩ := expanded
    simp only [List.forall_mem_append]
    exact ⟨⟨madeFor_of_expand condition, madeFor_of_expand whenTrue⟩, madeFor_of_expand whenFalse⟩

theorem madeFor_of_expandAll {owner : Name} : ∀ {equations : List (Equation α)} {calls : Nat}
    {result : Expanded α (List (Equation α))}, expandAll owner equations calls = .ok result →
      ∀ definition ∈ result.made, MadeFor owner definition
  | [], _, _, expanded => by
    cases expanded
    simp
  | _ :: _, _, _, expanded => by
    simp only [expandAll, bind_eq_ok, pure_eq_ok] at expanded
    obtain ⟨_, first, _, rest, rfl⟩ := expanded
    simp only [List.forall_mem_append]
    exact ⟨madeFor_of_expand first, madeFor_of_expandAll rest⟩

end

/-- What is made for a variable with a plain name has plain names itself: they begin with a dollar
sign, as no primitive's does. -/
theorem isPlain_of_madeFor {owner : Name} {definition : Document.Variable α}
    (plain : ¬ Path.IsDotted owner) (made : MadeFor owner definition) :
    (Name.canonical definition.name).IsPlain := by
  obtain ⟨call, suffix, named, clear⟩ := made
  have starts : definition.name.toList =
      '$' :: ("·" ++ owner ++ "·" ++ toString call ++ "·" ++ suffix).toList := by
    rw [named, stem]
    simp [String.toList_append]
  obtain ⟨rest, canonical⟩ := Name.canonical_cons_dollar starts
  refine ⟨?_, fun dotted => ?_, ?_⟩
  · rintro same
    simp [same] at canonical
  · have written := Name.isDotted_of_canonical dotted
    rw [named] at written
    refine not_isDotted_append ?_ clear written
    unfold stem
    exact not_isDotted_append (not_isDotted_append (not_isDotted_append
      (not_isDotted_append (by decide) plain) (by decide)) (not_isDotted_toString call)) (by decide)
  · refine Bool.eq_false_iff.mpr fun primitive => ?_
    obtain ⟨entry, member, same⟩ := mem_names_of_isPrimitive primitive
    exact Primitive.head_ne_dollar entry member (by rw [same, canonical]; rfl)

end Expansion

/-! ## Building -/

theorem Variable.name_withEquation {v : Variable α} {equation : Equation α} :
    (v.withEquation equation).name = v.name := by
  cases v <;> rfl

namespace Model

variable {v w : Variable α} {made : List (Document.Variable α)}

/-- Expansion changes nothing of a variable but its equation. -/
theorem withEquation_of_expandVariable (expanded : expandVariable v = .ok (w, made)) :
    w = v ∨ ∃ equation, w = v.withEquation equation := by
  unfold expandVariable at expanded
  split at expanded
  · cases expanded
    exact .inl rfl
  · simp only [bind_eq_ok, pure_eq_ok] at expanded
    obtain ⟨_, -, same⟩ := expanded
    cases same
    exact .inr ⟨_, rfl⟩

theorem name_of_expandVariable (expanded : expandVariable v = .ok (w, made)) : w.name = v.name := by
  rcases withEquation_of_expandVariable expanded with rfl | ⟨equation, rfl⟩
  · rfl
  · exact Variable.name_withEquation

theorem isModule_of_expandVariable (expanded : expandVariable v = .ok (w, made)) :
    w.isModule = v.isModule := by
  rcases withEquation_of_expandVariable expanded with rfl | ⟨equation, rfl⟩
  · rfl
  · cases v <;> rfl

theorem madeFor_of_expandVariable (expanded : expandVariable v = .ok (w, made)) :
    ∀ definition ∈ made, Expansion.MadeFor v.name definition := by
  unfold expandVariable at expanded
  split at expanded
  · cases expanded
    simp
  · simp only [bind_eq_ok, pure_eq_ok, attribute_eq_ok] at expanded
    obtain ⟨_, inner, same⟩ := expanded
    cases same
    exact Expansion.madeFor_of_expand inner

end Model
end

namespace Model

variable {document : Document.Model α} {implicit : Bool} {model : Model α}

/-- The stages of a successful check: what is declared, what its expansion leaves and makes, and
all of it declared together. -/
theorem build_eq_ok (built : build document implicit = .ok model) :
    ∃ declared expanded, document.definitions.foldlM declare [] = .ok declared ∧
      List.Forall₂ (fun v e => expandVariable v = .ok e) declared expanded ∧
      (expanded.flatMap Prod.snd).foldlM declare (expanded.map Prod.fst) = .ok model.vars ∧
      model.name = document.name ∧ model.timeSpec? = document.timeSpec? ∧
      checkFlows model.vars = .ok () := by
  simp only [build, bind_eq_ok, pure_eq_ok, mapM_eq_ok] at built
  obtain ⟨declared, first, expanded, each, vars, second, _, checked, rfl⟩ := built
  exact ⟨declared, expanded, first, each, second, rfl, rfl, checked⟩

omit [Scalar α] in
theorem names_of_expanded {declared : List (Variable α)}
    {expanded : List (Variable α × List (Document.Variable α))}
    (each : List.Forall₂ (fun v e => expandVariable v = .ok e) declared expanded) :
    (expanded.map Prod.fst).map Variable.name = declared.map Variable.name := by
  induction each with
  | nil => rfl
  | cons one _ ih =>
    simp only [List.map_cons] at ih ⊢
    rw [name_of_expandVariable one, ih]

omit [Scalar α] in
theorem ascending_of_expanded {declared : List (Variable α)}
    {expanded : List (Variable α × List (Document.Variable α))}
    (each : List.Forall₂ (fun v e => expandVariable v = .ok e) declared expanded)
    (ordered : Ascending Variable.name declared) :
    Ascending Variable.name (expanded.map Prod.fst) := by
  unfold Ascending at ordered ⊢
  rw [← List.pairwise_map (f := Variable.name) (R := (· < ·))] at ordered ⊢
  rwa [names_of_expanded each]

omit [Scalar α] in
theorem checkFlows_eq_ok {vars : List (Variable α)} : checkFlows vars = .ok () ↔
    ∀ v ∈ vars, ∀ flow ∈ v.flows, (findNamed Variable.name flow vars).isSome = true := by
  unfold checkFlows
  simp only [forM_eq_ok]
  refine forall₂_congr fun v _ => forall₂_congr fun flow _ => ?_
  split
  · rename_i known
    simp [known]
  · rename_i unknown
    simp [unknown]

theorem ascending_of_build (built : build document implicit = .ok model) :
    Ascending Variable.name model.vars := by
  obtain ⟨declared, expanded, first, each, second, -⟩ := build_eq_ok built
  exact (Model.declared second (ascending_of_expanded each (Model.declared first .nil).1)).1

/-- Each variable of a model is what expansion leaves of a definition, or is made by it. -/
theorem origin_of_build (built : build document implicit = .ok model) {w : Variable α}
    (member : w ∈ model.vars) : ∃ definition ∈ document.definitions, ∃ v u made,
      Variable.ofDefinition definition = .ok v ∧ expandVariable v = .ok (u, made) ∧
        (w = u ∨ ∃ other ∈ made, Variable.ofDefinition other = .ok w) := by
  obtain ⟨declared, expanded, first, each, second, -⟩ := build_eq_ok built
  have given : ∀ v ∈ declared, ∃ definition ∈ document.definitions,
      Variable.ofDefinition definition = .ok v := fun v here =>
    (((Model.declared first .nil).2 v).mp here).resolve_left List.not_mem_nil
  have ordered := ascending_of_expanded each (Model.declared first .nil).1
  rcases ((Model.declared second ordered).2 w).mp member with own | ⟨other, among, checked⟩
  · obtain ⟨⟨u, made⟩, inner, rfl⟩ := List.mem_map.mp own
    obtain ⟨v, here, one⟩ := exists_left_of_mem each inner
    obtain ⟨definition, listed, checked⟩ := given v here
    exact ⟨definition, listed, v, u, made, checked, one, .inl rfl⟩
  · obtain ⟨⟨u, made⟩, inner, madeHere⟩ := List.mem_flatMap.mp among
    obtain ⟨v, here, one⟩ := exists_left_of_mem each inner
    obtain ⟨definition, listed, first⟩ := given v here
    exact ⟨definition, listed, v, u, made, first, one, .inr ⟨other, madeHere, checked⟩⟩

/-- What expansion leaves of a definition is a variable of the model. -/
theorem exists_of_build (built : build document implicit = .ok model) {definition : Document.Variable α}
    (listed : definition ∈ document.definitions) : ∃ v w made, Variable.ofDefinition definition = .ok v ∧
      expandVariable v = .ok (w, made) ∧ w ∈ model.vars := by
  obtain ⟨declared, expanded, first, each, second, -⟩ := build_eq_ok built
  obtain ⟨v, checked⟩ := ((exists_declared_iff .nil).mp ⟨_, first⟩).1 definition listed
  have here : v ∈ declared := ((Model.declared first .nil).2 v).mpr (.inr ⟨definition, listed, checked⟩)
  obtain ⟨⟨w, made⟩, inner, one⟩ := exists_right_of_mem each here
  have ordered := ascending_of_expanded each (Model.declared first .nil).1
  exact ⟨v, w, made, checked, one,
    ((Model.declared second ordered).2 w).mpr (.inl (List.mem_map_of_mem inner))⟩

/-- If the definitions of a document have plain names, so have all variables of its model. -/
theorem isPlain_of_build (built : build document implicit = .ok model)
    (plain : ∀ definition ∈ document.definitions, (Name.canonical definition.name).IsPlain) :
    ∀ v ∈ model.vars, v.name.IsPlain := by
  intro w member
  obtain ⟨definition, listed, v, u, made, checked, one, origin⟩ := origin_of_build built member
  have here : v.name.IsPlain := Variable.name_of_ofDefinition checked ▸ plain definition listed
  rcases origin with rfl | ⟨other, among, checked⟩
  · rwa [name_of_expandVariable one]
  · rw [Variable.name_of_ofDefinition checked]
    exact Expansion.isPlain_of_madeFor here.2.1 (madeFor_of_expandVariable one other among)

end Model
end StockFlow
