import Mathlib.Data.List.Zip
import StockFlow.Proofs.Hoisting
import StockFlow.Proofs.Relabeling
import StockFlow.Proofs.Spelling

/-!
# What calls are expanded to

The stateful calls in an equation, in the order in which they are expanded, and what is made for each:
variables for the arguments that are no plain references, and a module that is connected to the
arguments in order.
-/

namespace StockFlow

variable {α : Type}

/-! ## Calls in the order of their expansion -/

namespace Equation

mutual

/-- The stateful calls in an equation with their arguments, in the order in which they are expanded:
inner calls come before the call around them. -/
def expansions : Equation α → List (Stateful × List (Equation α))
  | constant _ _ => []
  | reference _ => []
  | call function arguments =>
    expansionsAll arguments ++ ((Stateful.ofName? function).map (·, arguments)).toList
  | group inner => expansions inner
  | unary _ operand => expansions operand
  | binary _ left right => expansions left ++ expansions right
  | conditional condition whenTrue whenFalse =>
    expansions condition ++ expansions whenTrue ++ expansions whenFalse

def expansionsAll : List (Equation α) → List (Stateful × List (Equation α))
  | [] => []
  | first :: rest => expansions first ++ expansionsAll rest

end

mutual

/-- Every stateful call, at whatever depth, is among those that are expanded. -/
theorem mem_expansions {function : Name} {arguments : List (Equation α)} {stateful : Stateful}
    (known : Stateful.ofName? function = some stateful) : ∀ {equation : Equation α},
    (function, arguments) ∈ equation.calls → (stateful, arguments) ∈ equation.expansions
  | constant _ _, member => by cases member
  | reference _, member => by cases member
  | call other inner, member => by
    rcases List.mem_cons.mp member with here | below
    · cases here
      simp [expansions, known]
    · exact List.mem_append_left _ (mem_expansionsAll known below)
  | group inner, member => by
    rw [calls] at member
    rw [expansions]
    exact mem_expansions known member
  | unary _ operand, member => by
    rw [calls] at member
    rw [expansions]
    exact mem_expansions known member
  | binary _ left right, member => by
    simp only [calls, List.mem_append] at member
    simp only [expansions, List.mem_append]
    exact member.imp (mem_expansions known) (mem_expansions known)
  | conditional condition whenTrue whenFalse, member => by
    simp only [calls, List.mem_append] at member
    simp only [expansions, List.mem_append]
    exact member.imp (Or.imp (mem_expansions known) (mem_expansions known)) (mem_expansions known)

theorem mem_expansionsAll {function : Name} {arguments : List (Equation α)} {stateful : Stateful}
    (known : Stateful.ofName? function = some stateful) : ∀ {equations : List (Equation α)},
    (function, arguments) ∈ callsAll equations → (stateful, arguments) ∈ expansionsAll equations
  | [], member => by cases member
  | first :: rest, member => by
    simp only [callsAll, List.mem_append] at member
    simp only [expansionsAll, List.mem_append]
    exact member.imp (mem_expansions known) (mem_expansionsAll known)

end

end Equation

/-! ## What is made for them -/

namespace Stateful

theorem ofName?_of_isPrimitive {name : Name} (primitive : isPrimitive name = true) : ofName? name = none := by
  obtain ⟨entry, member, rfl⟩ := mem_names_of_isPrimitive primitive
  revert entry
  decide

theorem name_of_ofName? {name : Name} {function : Stateful} (known : ofName? name = some function) :
    function.name = name := by
  have same := List.find?_some known
  exact beq_iff_eq.mp same

theorem ofName?_name (function : Stateful) : ofName? function.name = some function := by
  cases function <;> decide

theorem nodup_inputs (function : Stateful) : function.inputs.Nodup := by
  cases function <;> decide

end Stateful

namespace Expansion

variable {owner : Name}

/-- Whether some definitions are what is made for the call of a number, among others: its arguments are
expanded before it, and a module is connected to what that leaves of them. -/
inductive Instantiates (owner : Name) (call : Nat) (function : Stateful) (arguments : List (Equation α))
    (made : List (Document.Variable α)) : Prop
  | intro {first : Nat} {given : Expanded α (List (Equation α))}
    (expanded : expandAll owner arguments first = .ok given) (number : given.calls = call)
    (nonempty : given.result ≠ []) (most : given.result.length ≤ function.inputs.length)
    (hoisted : hoisted owner call 0 given.result ⊆ made)
    (module : .module (callModule owner call function given.result) ∈ made)

theorem Instantiates.mono {call : Nat} {function : Stateful} {arguments : List (Equation α)}
    {made more : List (Document.Variable α)} (instantiates : Instantiates owner call function arguments made)
    (within : made ⊆ more) : Instantiates owner call function arguments more := by
  obtain ⟨expanded, number, nonempty, most, hoisted, module⟩ := instantiates
  exact ⟨expanded, number, nonempty, most, List.Subset.trans hoisted within, within module⟩

/-- Whether calls, numbered from one number up to another, are expanded to definitions among some. -/
structure Covers (owner : Name) (first last : Nat) (expansions : List (Stateful × List (Equation α)))
    (made : List (Document.Variable α)) : Prop where
  last : last = first + expansions.length
  each : ∀ index function arguments, expansions[index]? = some (function, arguments) →
    Instantiates owner (first + index) function arguments made

theorem Covers.nil {first : Nat} {made : List (Document.Variable α)} : Covers owner first first [] made :=
  ⟨rfl, nofun⟩

theorem Covers.append {first middle last : Nat} {before after : List (Stateful × List (Equation α))}
    {made more : List (Document.Variable α)} (covers : Covers owner first middle before made)
    (further : Covers owner middle last after more) :
    Covers owner first last (before ++ after) (made ++ more) := by
  obtain ⟨rfl, each⟩ := covers
  obtain ⟨rfl, others⟩ := further
  refine ⟨by rw [List.length_append, Nat.add_assoc], fun index function arguments here => ?_⟩
  rcases Nat.lt_or_ge index before.length with early | late
  · rw [List.getElem?_append_left early] at here
    exact (each index function arguments here).mono (List.subset_append_left ..)
  · rw [List.getElem?_append_right late] at here
    have instantiates := others _ function arguments here
    rw [Nat.add_assoc, Nat.add_sub_cancel' late] at instantiates
    exact instantiates.mono (List.subset_append_right ..)

theorem covers_of_expandCall {function : Name} {first : Nat} {arguments : List (Equation α)}
    {given : Expanded α (List (Equation α))} {result : Expanded α (Equation α)}
    (inner : expandAll owner arguments first = .ok given)
    (expanded : expandCall owner function given = .ok result)
    (covers : Covers owner first given.calls (Equation.expansionsAll arguments) given.made) :
    Covers owner first result.calls (Equation.call function arguments).expansions result.made := by
  rcases expandCall_eq_ok expanded with ⟨primitive, rfl⟩ | ⟨stateful, -, known, nonempty, most, rfl⟩
  · rwa [Equation.expansions, Stateful.ofName?_of_isPrimitive primitive, Option.map_none,
      Option.toList_none, List.append_nil]
  · obtain rfl := Stateful.name_of_ofName? known
    -- the call itself has the number after those in its arguments
    have here : Covers owner given.calls (given.calls + 1) [(stateful, arguments)]
        (hoisted owner given.calls 0 given.result ++
          [.module (callModule owner given.calls stateful given.result)]) := by
      refine ⟨rfl, fun index function others one => ?_⟩
      obtain ⟨within, same⟩ := List.getElem?_eq_some_iff.mp one
      obtain rfl := Nat.lt_one_iff.mp within
      cases same
      exact ⟨inner, rfl, fun none => nonempty (by rw [none]; rfl), most,
        List.subset_append_left .., List.mem_append_right _ (List.mem_singleton_self _)⟩
    have both := covers.append here
    rw [← List.append_assoc] at both
    rwa [Equation.expansions, known]

mutual

theorem covers_of_expand : ∀ {equation : Equation α} {first : Nat} {result : Expanded α (Equation α)},
    expand owner equation first = .ok result →
      Covers owner first result.calls equation.expansions result.made
  | .constant _ _, _, _, expanded => by
    cases expanded
    exact .nil
  | .reference _, _, _, expanded => by
    cases expanded
    exact .nil
  | .call _ _, _, _, expanded => by
    obtain ⟨_, inner, expanded⟩ := bind_eq_ok.mp expanded
    exact covers_of_expandCall inner expanded (covers_of_expandAll inner)
  | .group inner, _, _, expanded => by
    obtain ⟨_, one, expanded⟩ := bind_eq_ok.mp expanded
    cases expanded
    have covers := covers_of_expand one
    exact covers
  | .unary _ operand, _, _, expanded => by
    obtain ⟨_, one, expanded⟩ := bind_eq_ok.mp expanded
    cases expanded
    have covers := covers_of_expand one
    exact covers
  | .binary _ _ _, _, _, expanded => by
    obtain ⟨_, one, expanded⟩ := bind_eq_ok.mp expanded
    obtain ⟨_, two, expanded⟩ := bind_eq_ok.mp expanded
    cases expanded
    exact (covers_of_expand one).append (covers_of_expand two)
  | .conditional _ _ _, _, _, expanded => by
    obtain ⟨_, one, expanded⟩ := bind_eq_ok.mp expanded
    obtain ⟨_, two, expanded⟩ := bind_eq_ok.mp expanded
    obtain ⟨_, three, expanded⟩ := bind_eq_ok.mp expanded
    cases expanded
    exact ((covers_of_expand one).append (covers_of_expand two)).append (covers_of_expand three)

theorem covers_of_expandAll : ∀ {equations : List (Equation α)} {first : Nat}
    {result : Expanded α (List (Equation α))}, expandAll owner equations first = .ok result →
      Covers owner first result.calls (Equation.expansionsAll equations) result.made
  | [], _, _, expanded => by
    cases expanded
    exact .nil
  | _ :: _, _, _, expanded => by
    obtain ⟨_, one, expanded⟩ := bind_eq_ok.mp expanded
    obtain ⟨_, others, expanded⟩ := bind_eq_ok.mp expanded
    cases expanded
    exact (covers_of_expand one).append (covers_of_expandAll others)

end

/-- A plain reference that expansion leaves of an equation is the equation, or it reads the output of the
module made for a call. -/
theorem reference_of_expand {equation : Equation α} {first : Nat} {result : Expanded α (Equation α)}
    (expanded : expand owner equation first = .ok result) {name : Name}
    (left : result.result = .reference name) : equation = .reference name ∨
      ∃ call < result.calls, ∃ function : Stateful,
        name = moduleName owner call function.name ++ ".output" := by
  cases equation with
  | constant => cases expanded; cases left
  | reference => cases expanded; cases left; exact .inl rfl
  | call function arguments =>
    obtain ⟨given, -, expanded⟩ := bind_eq_ok.mp expanded
    rcases expandCall_eq_ok expanded with ⟨-, rfl⟩ | ⟨stateful, -, known, -, -, rfl⟩
    · cases left
    · cases left
      exact .inr ⟨given.calls, Nat.lt_succ_self _, stateful, by rw [Stateful.name_of_ofName? known]⟩
  | group | unary =>
    obtain ⟨_, -, expanded⟩ := bind_eq_ok.mp expanded
    cases expanded
    cases left
  | binary =>
    obtain ⟨_, -, expanded⟩ := bind_eq_ok.mp expanded
    obtain ⟨_, -, expanded⟩ := bind_eq_ok.mp expanded
    cases expanded
    cases left
  | conditional =>
    obtain ⟨_, -, expanded⟩ := bind_eq_ok.mp expanded
    obtain ⟨_, -, expanded⟩ := bind_eq_ok.mp expanded
    obtain ⟨_, -, expanded⟩ := bind_eq_ok.mp expanded
    cases expanded
    cases left

theorem reference_of_expandAll {arguments : List (Equation α)} {first : Nat}
    {given : Expanded α (List (Equation α))} (expanded : expandAll owner arguments first = .ok given)
    {name : Name} (left : .reference name ∈ given.result) : .reference name ∈ arguments ∨
      ∃ call < given.calls, ∃ function : Stateful,
        name = moduleName owner call function.name ++ ".output" := by
  induction arguments generalizing first given with
  | nil =>
    cases expanded
    cases left
  | cons argument rest ih =>
    obtain ⟨one, here, expanded⟩ := bind_eq_ok.mp expanded
    obtain ⟨others, after, expanded⟩ := bind_eq_ok.mp expanded
    cases expanded
    have later := (covers_of_expandAll after).last
    rcases List.mem_cons.mp left with isHere | below
    · rcases reference_of_expand here isHere.symm with rfl | ⟨call, early, function, rfl⟩
      · exact .inl List.mem_cons_self
      · exact .inr ⟨call, by dsimp only; omega, function, rfl⟩
    · rcases ih after below with among | made
      · exact .inl (List.mem_cons_of_mem _ among)
      · exact .inr made

/-! ## Names that are made -/

section

variable (tame : Name.IsTame owner) (call : Nat)
include tame

theorem isTame_made {rest : String} (isTame : Name.IsTame rest) : Name.IsTame (Name.made owner rest) :=
  ((Name.IsTame.append (by decide) tame).append (by decide)).append isTame

theorem isTame_argumentName (index : Nat) : Name.IsTame (argumentName owner call index) := by
  rw [argumentName_eq]
  exact isTame_made tame (isTame_argument call index)

theorem isTame_moduleName (function : Stateful) : Name.IsTame (moduleName owner call function.name) := by
  rw [moduleName, stem_append]
  exact isTame_made tame (isTame_rest call (by cases function <;> decide))

end

theorem not_isDotted_moduleName {call : Nat} {function : Stateful} (undotted : ¬ Path.IsDotted owner) :
    ¬ Path.IsDotted (moduleName owner call function.name) := by
  rw [moduleName, stem_append, Name.isDotted_made undotted]
  exact not_isDotted_append (not_isDotted_append (not_isDotted_toString call) (by decide))
    (by cases function <;> decide)

/-- The number at the beginning of a name that is made is written up to the next mark. -/
theorem number_append_inj {call other : Nat} {rest rest' : String}
    (same : toString call ++ "·" ++ rest = toString other ++ "·" ++ rest') : call = other ∧ rest = rest' := by
  have parts : ∀ (n : Nat) (name : Name), (toString n ++ "·" ++ name).toList.span (· ≠ '·') =
      (Nat.toDigits 10 n, '·' :: name.toList) := by
    intro n name
    rw [Nat.toString_eq_ofList_toDigits, String.toList_append, String.toList_append, String.toList_ofList,
      List.append_assoc]
    exact Name.span_mark fun member =>
      absurd (Nat.isDigit_of_mem_toDigits (by decide) (by decide) member) (by decide)
  have spans := congrArg (List.span (· ≠ '·') ∘ String.toList) same
  simp only [Function.comp_apply, parts, Prod.mk.injEq, List.cons.injEq, true_and] at spans
  have digits := congrArg (Nat.ofDigitChars 10 · 0) spans.1
  exact ⟨by simpa only [Nat.ofDigitChars_ten_toDigits] using digits, String.toList_inj.mp spans.2⟩

theorem call_eq_of_moduleName_eq {call other : Nat} {function stateful : Stateful}
    (clear : '·' ∉ owner.toList)
    (same : moduleName owner call function.name = moduleName owner other stateful.name) : call = other := by
  rw [moduleName, moduleName, stem_append, stem_append] at same
  exact (number_append_inj (Name.made_inj clear clear same).2).1

/-! ## Connections -/

theorem getElem?_sources (owner : Name) (call first index : Nat) (given : List (Equation α)) :
    (sources owner call first given)[index]? =
      given[index]?.map (argumentSource owner call (first + index)) := by
  induction given generalizing first index with
  | nil => rfl
  | cons argument rest ih =>
    cases index with
    | zero => rfl
    | succ index =>
      rw [sources, List.getElem?_cons_succ, List.getElem?_cons_succ, ih, Nat.add_right_comm, Nat.add_assoc]

theorem mem_sources {call : Nat} {given : List (Equation α)} {source : Name}
    (member : source ∈ sources owner call 0 given) :
    .reference source ∈ given ∨ ∃ index, source = argumentName owner call index := by
  obtain ⟨index, here⟩ := List.mem_iff_getElem?.mp member
  rw [getElem?_sources, Nat.zero_add] at here
  obtain ⟨argument, present, rfl⟩ := Option.map_eq_some_iff.mp here
  cases argument with
  | reference name => exact .inl (List.mem_of_getElem? present)
  | constant | call | group | unary | binary | conditional => exact .inr ⟨index, rfl⟩

theorem argumentSource_mem_sources {call index : Nat} {given : List (Equation α)} {argument : Equation α}
    (present : given[index]? = some argument) :
    argumentSource owner call index argument ∈ sources owner call 0 given := by
  refine List.mem_of_getElem? (i := index) ?_
  rw [getElem?_sources, present, Nat.zero_add]
  rfl

theorem mem_sources_of_reference {call : Nat} {given : List (Equation α)} {name : Name}
    (member : .reference name ∈ given) : name ∈ sources owner call 0 given := by
  obtain ⟨index, here⟩ := List.mem_iff_getElem?.mp member
  exact argumentSource_mem_sources here

/-- No source of a call lies inside the module made for it, if none of the references among its arguments
does: the modules of the calls among them have other names. -/
theorem outward_of_expandAll (identifier : owner.IsIdentifier) {function : Stateful}
    {arguments : List (Equation α)} {first : Nat} {given : Expanded α (List (Equation α))}
    (expanded : expandAll owner arguments first = .ok given)
    (outward : ∀ name, .reference name ∈ arguments →
      Path.after? (moduleName owner given.calls function.name ++ ".") (Name.canonical name) = none) :
    ∀ source ∈ sources owner given.calls 0 given.result,
      Path.after? (moduleName owner given.calls function.name ++ ".") (Name.canonical source) = none := by
  intro source member
  have undotted : ¬ Path.IsDotted owner := identifier.isPlain.2.1
  rcases mem_sources member with left | ⟨index, rfl⟩
  · rcases reference_of_expandAll expanded left with among | ⟨call, early, stateful, rfl⟩
    · exact outward source among
    · -- the output of an earlier call, whose module has another name
      have isTame := (isTame_moduleName identifier.isTame call stateful).append
        (by decide : Name.IsTame ".output")
      rw [isTame.canonical_eq]
      refine Option.eq_none_iff_forall_ne_some.mpr fun rest inside => ?_
      have own := Path.split_of_append (not_isDotted_moduleName undotted)
        (show (moduleName owner call stateful.name ++ ".output").toList =
          (moduleName owner call stateful.name).toList ++ '.' :: "output".toList by
            rw [String.toList_append]; rfl)
      have other := Path.split_of_append (not_isDotted_moduleName undotted)
        (show (moduleName owner call stateful.name ++ ".output").toList =
          (moduleName owner given.calls function.name).toList ++ '.' :: rest.toList by
            rw [Path.after?_eq_some.mp inside, String.toList_append, List.append_assoc]; rfl)
      have same := call_eq_of_moduleName_eq (identifier.notMem (by decide))
        (Prod.mk.inj (own.symm.trans other)).1
      omega
  · -- a variable beside the module
    rw [(isTame_argumentName identifier.isTame given.calls index).canonical_eq]
    refine Path.after?_of_not_dotted (by simp [Path.IsDotted]) ?_
    rw [argumentName_eq, Name.isDotted_made undotted]
    exact not_isDotted_append (not_isDotted_append (not_isDotted_append (not_isDotted_toString _)
      (by decide)) (by decide)) (not_isDotted_toString index)

theorem argumentVariable_subset_hoisted {call first index : Nat} {given : List (Equation α)}
    {argument : Equation α} (here : given[index]? = some argument) :
    argumentVariable owner call (first + index) argument ⊆ hoisted owner call first given := by
  induction given generalizing first index with
  | nil => cases here
  | cons argument rest ih =>
    cases index with
    | zero =>
      cases here
      exact List.subset_append_left ..
    | succ index =>
      rw [← Nat.add_assoc, Nat.add_right_comm]
      exact List.Subset.trans (ih here) (List.subset_append_right ..)

end Expansion

namespace Keyed

variable {β : Type}

theorem get?_ofList {entries : List (Name × β)} (distinct : Distinct Prod.fst entries) (name : Name) :
    (ofList entries).get? name = Keyed.get? entries name := by
  suffices folded : ∀ kept : Keyed β,
      Keyed.get? (entries.foldl (fun kept entry => put entry.1 entry.2 kept) kept) name =
        (Keyed.get? entries name).or (kept.get? name) by
    rw [ofList, folded]
    cases Keyed.get? entries name <;> rfl
  induction entries with
  | nil => exact fun kept => rfl
  | cons entry rest ih =>
    obtain ⟨fresh, distinct⟩ := List.nodup_cons.mp distinct
    intro kept
    rw [List.foldl_cons, ih distinct, get?_put]
    by_cases same : name = entry.1
    · have absent : Keyed.get? rest name = none := get?_eq_none.mpr fun other member equal =>
        fresh (List.mem_map.mpr ⟨other, member, equal.trans same⟩)
      rw [if_pos same, absent, get?, List.lookup_cons, beq_iff_eq.mpr same]
      rfl
    · have later : Keyed.get? (entry :: rest) name = Keyed.get? rest name := by
        rw [get?, List.lookup_cons, beq_eq_false_iff_ne.mpr same]
        rfl
      rw [if_neg same, later]

theorem distinct_zip {names : List Name} (distinct : names.Nodup) (values : List β) :
    Distinct Prod.fst (names.zip values) := by
  induction names generalizing values with
  | nil => exact List.nodup_nil
  | cons first rest ih =>
    obtain ⟨fresh, distinct⟩ := List.nodup_cons.mp distinct
    cases values with
    | nil => exact List.nodup_nil
    | cons value values =>
      refine List.nodup_cons.mpr ⟨fun member => fresh ?_, ih distinct values⟩
      obtain ⟨entry, inside, rfl⟩ := List.mem_map.mp member
      exact (List.of_mem_zip inside).1

theorem get?_zip {names : List Name} (distinct : names.Nodup) {values : List β} {index : Nat} {name : Name}
    (here : names[index]? = some name) : Keyed.get? (names.zip values) name = values[index]? := by
  induction names generalizing values index with
  | nil => cases here
  | cons first rest ih =>
    obtain ⟨fresh, distinct⟩ := List.nodup_cons.mp distinct
    cases values with
    | nil => rfl
    | cons value values =>
      cases index with
      | zero =>
        cases here
        rw [List.zip_cons_cons, get?, List.lookup_cons, beq_self_eq_true]
        rfl
      | succ index =>
        have apart : name ≠ first := fun same => fresh (same ▸ List.mem_of_getElem? here)
        rw [List.zip_cons_cons, get?, List.lookup_cons, beq_eq_false_iff_ne.mpr apart]
        exact ih distinct here

end Keyed

namespace Expansion

variable {owner : Name} {call : Nat} {function : Stateful} {given : List (Equation α)}

/-- The inputs of the module made for a call, if none of its sources lies inside the module. -/
def callInputs (owner : Name) (call : Nat) (function : Stateful) (given : List (Equation α)) : List Input :=
  ((sources owner call 0 given).zip function.inputs).map fun wire =>
    ⟨Source.ofSymbol (Name.canonical wire.1), wire.2⟩

theorem exists_input (most : given.length ≤ function.inputs.length) {source : Name}
    (member : source ∈ sources owner call 0 given) :
    ∃ input ∈ callInputs owner call function given,
      input.source = Source.ofSymbol (Name.canonical source) := by
  obtain ⟨index, within, rfl⟩ := List.getElem_of_mem member
  have fewer : index < function.inputs.length := by
    rw [length_sources] at within
    omega
  have paired : index < ((sources owner call 0 given).zip function.inputs).length := by
    rw [List.length_zip]
    omega
  refine ⟨_, List.mem_map_of_mem (List.getElem_mem paired), ?_⟩
  rw [List.getElem_zip]

theorem isTame_input {name : Name} (input : name ∈ function.inputs) : Name.IsTame name ∧ name ≠ "" := by
  revert name
  cases function <;> decide

theorem ofDefinition_callModule [Scalar α]
    (fixed : Name.canonical (moduleName owner call function.name) = moduleName owner call function.name)
    (outward : ∀ source ∈ sources owner call 0 given,
      Path.after? (moduleName owner call function.name ++ ".") (Name.canonical source) = none) :
    Variable.ofDefinition (.module (callModule owner call function given) : Document.Variable α) =
      .ok (.module ⟨moduleName owner call function.name, Stateful.modelName function.name,
        callInputs owner call function given⟩) := by
  have resolves : ∀ wire ∈ (sources owner call 0 given).zip function.inputs,
      Input.resolve (moduleName owner call function.name)
        ⟨wire.1, moduleName owner call function.name ++ "." ++ wire.2⟩ =
          .ok (some ⟨Source.ofSymbol (Name.canonical wire.1), wire.2⟩) := by
    intro wire member
    have target : wire.2 ∈ function.inputs := (List.of_mem_zip member).2
    have written := isTame_input target
    have canonical : Name.canonical (moduleName owner call function.name ++ "." ++ wire.2) =
        moduleName owner call function.name ++ "." ++ wire.2 := by
      rw [String.append_assoc]
      refine Name.canonical_append fixed (Name.IsTame.append (by decide) written.1) fun c escape first => ?_
      rw [String.toList_append] at first
      cases first
      exact absurd escape (by decide)
    have inside : Path.after? (moduleName owner call function.name ++ ".")
        (moduleName owner call function.name ++ "." ++ wire.2) = some wire.2 :=
      Path.after?_eq_some.mpr (String.toList_append ..)
    rw [Input.resolve, outward wire.1 (List.of_mem_zip member).1, canonical, inside]
    exact if_neg written.2
  have connected : (callModule owner call function given).connections.mapM
      (Input.resolve (moduleName owner call function.name)) =
        .ok ((callInputs owner call function given).map some) := by
    rw [mapM_eq_ok, callInputs, List.map_map, callModule, List.forall₂_map_left_iff,
      List.forall₂_map_right_iff, List.forall₂_same]
    exact resolves
  have named : Name.canonical (callModule owner call function given).name =
      moduleName owner call function.name := fixed
  rw [Variable.ofDefinition, named, connected]
  show Except.ok _ = _
  simp [callModule]

theorem get?_wires {index : Nat} {name : Name} (input : function.inputs[index]? = some name) :
    (Model.wires ⟨moduleName owner call function.name, Stateful.modelName function.name,
      callInputs owner call function given⟩).get? name = given[index]?.map fun argument =>
        (Source.ofSymbol (Name.canonical (argumentSource owner call index argument))).symbol := by
  have distinct := function.nodup_inputs
  have wires : Model.wires ⟨moduleName owner call function.name, Stateful.modelName function.name,
      callInputs owner call function given⟩ =
        Keyed.ofList (function.inputs.zip ((sources owner call 0 given).map fun source =>
          (Source.ofSymbol (Name.canonical source)).symbol)) := by
    rw [Model.wires, callInputs, List.map_map, List.zip_map_right, ← List.zip_swap, List.map_map]
    refine congrArg Keyed.ofList (List.map_congr_left fun ⟨name, source⟩ _ => ?_)
    rw [Function.comp_apply, Function.comp_apply, Prod.map_apply, Prod.swap_prod_mk, id_eq]
  rw [wires, Keyed.get?_ofList (Keyed.distinct_zip distinct _), Keyed.get?_zip distinct input,
    List.getElem?_map, getElem?_sources, Nat.zero_add, Option.map_map, Function.comp_def]

theorem get?_wires_of_notMem {name : Name} (absent : name ∉ function.inputs) :
    (Model.wires ⟨moduleName owner call function.name, Stateful.modelName function.name,
      callInputs owner call function given⟩).get? name = none := by
  refine Option.eq_none_iff_forall_ne_some.mpr fun symbol wired => absent ?_
  obtain ⟨input, inside, same⟩ := List.mem_map.mp (Keyed.mem_of_mem_ofList (Keyed.mem_of_get? wired))
  obtain ⟨wire, member, rfl⟩ := List.mem_map.mp inside
  exact (Prod.mk.inj same).1 ▸ (List.of_mem_zip member).2

end Expansion

/-! ## Models -/

namespace Model

variable [Scalar α] {document : Document.Model α} {implicit : Bool} {model : Model α}
  (built : build document implicit = .ok model)
include built

/-- What is left of a variable and what is made for the calls in its equation are part of the model. -/
theorem exists_made {definition : Document.Variable α} (listed : definition ∈ document.definitions)
    {v : Variable α} (checked : Variable.ofDefinition definition = .ok v) {equation : Equation α}
    (own : v.equation? = some equation) : ∃ expanded, Expansion.expand v.name equation 0 = .ok expanded ∧
      v.withEquation expanded.result ∈ model.vars ∧
      ∀ other ∈ expanded.made, ∃ w ∈ model.vars, Variable.ofDefinition other = .ok w := by
  obtain ⟨declared, expanded, first, each, second, -⟩ := build_eq_ok built
  have here : v ∈ declared := ((Model.declared first .nil).2 v).mpr (.inr ⟨definition, listed, checked⟩)
  obtain ⟨⟨w, made⟩, inner, one⟩ := exists_right_of_mem each here
  unfold expandVariable at one
  simp only [own, bind_eq_ok, pure_eq_ok, attribute_eq_ok, Prod.mk.injEq] at one
  obtain ⟨result, expands, rfl, rfl⟩ := one
  have ordered := ascending_of_expanded each (Model.declared first .nil).1
  refine ⟨result, expands, ?_, fun other among => ?_⟩
  · exact ((Model.declared second ordered).2 _).mpr (.inl (List.mem_map.mpr ⟨_, inner, rfl⟩))
  · have included : other ∈ expanded.flatMap Prod.snd := List.mem_flatMap.mpr ⟨_, inner, among⟩
    obtain ⟨w, checked⟩ := ((exists_declared_iff ordered).mp ⟨_, second⟩).1 other included
    exact ⟨w, ((Model.declared second ordered).2 w).mpr (.inr ⟨other, included, checked⟩), checked⟩

/-- If the definitions of a document have identifiers for names, no variable of its model has a reserved
name. -/
theorem isReserved_of_build
    (identifiers : ∀ definition ∈ document.definitions, (Name.canonical definition.name).IsIdentifier)
    {v : Variable α} (member : v ∈ model.vars) : isReserved v.name = false := by
  obtain ⟨definition, listed, w, u, made, checked, one, origin⟩ := origin_of_build built member
  rcases origin with rfl | ⟨other, among, checked⟩
  · rw [name_of_expandVariable one, Variable.name_of_ofDefinition checked]
    exact (identifiers definition listed).unreserved
  · obtain ⟨call, suffix, named, -⟩ := madeFor_of_expandVariable one other among
    have starts : other.name.toList =
        '$' :: ("·" ++ w.name ++ "·" ++ toString call ++ "·" ++ suffix).toList := by
      rw [named, Expansion.stem]
      simp [String.toList_append]
    obtain ⟨rest, canonical⟩ := Name.canonical_cons_dollar starts
    rw [Variable.name_of_ofDefinition checked]
    exact Name.isReserved_of_cons_dollar canonical

end Model
end StockFlow
