import Mathlib.Logic.Function.Basic
import StockFlow.Proofs.Expanding
import StockFlow.Proofs.Refusals

/-!
# Expansion undone

Nothing of an equation is lost when its stateful calls are expanded: each module that was made tells its
function and its arguments, so that the calls can be put back for the references to the modules' outputs.
This works because no two definitions bear the same name, and none bears a name that the equation refers to.
-/

namespace StockFlow

variable {α : Type}

namespace Equation

/-! ## Equations in place of references -/

mutual

/-- Puts an equation in place of every reference. -/
def substitute (values : Name → Equation α) : Equation α → Equation α
  | constant text value => constant text value
  | reference name => values name
  | call function arguments => call function (substituteAll values arguments)
  | group inner => group (substitute values inner)
  | unary operator operand => unary operator (substitute values operand)
  | binary operator left right => binary operator (substitute values left) (substitute values right)
  | conditional condition whenTrue whenFalse =>
    conditional (substitute values condition) (substitute values whenTrue) (substitute values whenFalse)

def substituteAll (values : Name → Equation α) : List (Equation α) → List (Equation α)
  | [] => []
  | first :: rest => substitute values first :: substituteAll values rest

end

/-! ## Stateful calls and their arguments -/

/-- Whether a call of a function is expanded. -/
def isStateful (call : Name × List (Equation α)) : Bool := (Stateful.ofName? call.1).isSome

/-- Whether an argument needs no variable of its own: it is a reference, or a call that becomes one. -/
def isPassed : Equation α → Bool
  | reference _ => true
  | call function _ => (Stateful.ofName? function).isSome
  | _ => false

/-- The arguments of the stateful ones among some calls that need variables of their own. -/
def moved (calls : List (Name × List (Equation α))) : List (Equation α) :=
  (calls.filter isStateful).flatMap fun call => call.2.filter fun argument => !argument.isPassed

theorem callsAll_eq_flatMap (equations : List (Equation α)) : callsAll equations = equations.flatMap calls := by
  induction equations with
  | nil => rfl
  | cons first rest ih => rw [callsAll, ih, List.flatMap_cons]

theorem moved_append (calls others : List (Name × List (Equation α))) :
    moved (calls ++ others) = moved calls ++ moved others := by
  rw [moved, List.filter_append, List.flatMap_append]
  rfl

/-- Whether a call is refused, with a fault: its function is not known, or it is stateful and has no
arguments or more than three. -/
inductive Refuses : Name → List (Equation α) → EquationFault → Prop
  | function {function : Name} {arguments : List (Equation α)} (primitive : isPrimitive function = false)
    (unknown : Stateful.ofName? function = none) :
    Refuses function arguments ⟨.unknownFunction, some function⟩
  | arguments {function : Name} {arguments : List (Equation α)} {stateful : Stateful}
    (known : Stateful.ofName? function = some stateful)
    (number : arguments.length = 0 ∨ 3 < arguments.length) :
    Refuses function arguments ⟨.wrongArguments,
      some (function ++ " takes 1 to 3 arguments, not " ++ toString arguments.length)⟩

end Equation

namespace Document.Variable

def isModule : Document.Variable α → Bool
  | module _ => true
  | _ => false

def isAuxiliary : Document.Variable α → Bool
  | auxiliary _ => true
  | _ => false

/-- The name under which the value of a definition that was made is referred to. -/
def key : Document.Variable α → Name
  | module definition => definition.name ++ ".output"
  | definition => definition.name

end Document.Variable

namespace Expansion

/-! ## Putting calls back -/

/-- The call for which a module was made, if its sources stand for equations: each input that is connected
is an argument, in the order of the function's inputs. -/
def callOf? (values : Name → Equation α) (module : Document.Module) : Option (Equation α) :=
  (Stateful.all.find? fun function => Stateful.modelName function.name == module.model).map fun function =>
    .call function.name (function.inputs.filterMap fun input =>
      (module.connections.find? (·.target == module.name ++ "." ++ input)).map (values ·.source))

/-- Keeps under the key of a definition what it stands for: an auxiliary variable for its equation, and a
module for the call for which it was made. -/
def restore (values : Name → Equation α) (definition : Document.Variable α) : Name → Equation α :=
  match definition with
  | .auxiliary ⟨name, _, some equation, _⟩ => Function.update values name (equation.substitute values)
  | .module module =>
    match callOf? values module with
    | some call => Function.update values definition.key call
    | none => values
  | _ => values

/-- What names stand for once definitions are put back, in the order in which they were made. -/
def restored (made : List (Document.Variable α)) : Name → Equation α := made.foldl restore .reference

theorem restore_of_ne {values : Name → Equation α} {definition : Document.Variable α} {name : Name}
    (apart : name ≠ definition.key) : restore values definition name = values name := by
  unfold restore
  split
  · exact Function.update_of_ne apart ..
  · rename_i module
    cases callOf? values module with
    | some call => exact Function.update_of_ne apart ..
    | none => rfl
  · rfl

theorem foldl_restore_of_ne {made : List (Document.Variable α)} {values : Name → Equation α} {name : Name}
    (apart : ∀ definition ∈ made, name ≠ definition.key) : made.foldl restore values name = values name := by
  induction made generalizing values with
  | nil => rfl
  | cons definition rest ih =>
    obtain ⟨here, others⟩ := List.forall_mem_cons.mp apart
    rw [List.foldl_cons, ih others, restore_of_ne here]

/-! ## Names by the number of their call -/

variable {owner : Name}

/-- Whether a name begins as the names do that are made for calls numbered from one number up to another. -/
def Numbered (owner : Name) (first last : Nat) (name : Name) : Prop :=
  ∃ call rest, first ≤ call ∧ call < last ∧ name = stem owner call ++ rest

theorem stem_append_inj {call other : Nat} {rest rest' : String}
    (same : stem owner call ++ rest = stem owner other ++ rest') : call = other ∧ rest = rest' := by
  rw [stem_append, stem_append, Name.made, Name.made, String.append_right_inj] at same
  exact number_append_inj same

theorem Numbered.disjoint {first middle last : Nat} {name other : Name}
    (before : Numbered owner first middle name) (after : Numbered owner middle last other) : name ≠ other := by
  obtain ⟨call, rest, -, below, rfl⟩ := before
  obtain ⟨later, rest', above, -, rfl⟩ := after
  intro same
  obtain ⟨rfl, -⟩ := stem_append_inj same
  omega

theorem Numbered.mono {first last least most : Nat} {name : Name} (numbered : Numbered owner first last name)
    (lower : least ≤ first) (upper : last ≤ most) : Numbered owner least most name := by
  obtain ⟨call, rest, above, below, rfl⟩ := numbered
  exact ⟨call, rest, lower.trans above, below.trans_le upper, rfl⟩

theorem Numbered.exists_made {first last : Nat} {name : Name} (numbered : Numbered owner first last name) :
    ∃ rest, name = Name.made owner rest := by
  obtain ⟨call, rest, -, -, rfl⟩ := numbered
  exact ⟨_, stem_append owner call rest⟩

theorem Numbered.key {first last : Nat} {definition : Document.Variable α}
    (numbered : Numbered owner first last definition.name) : Numbered owner first last definition.key := by
  obtain ⟨call, rest, above, below, same⟩ := numbered
  cases definition with
  | stock | flow | auxiliary => exact ⟨call, rest, above, below, same⟩
  | module definition =>
    refine ⟨call, rest ++ ".output", above, below, ?_⟩
    rw [← String.append_assoc, ← same]
    rfl

theorem numbered_argumentName (call index : Nat) :
    Numbered owner call (call + 1) (argumentName owner call index) :=
  ⟨call, _, Nat.le_refl _, Nat.lt_succ_self _, String.append_assoc⟩

theorem numbered_moduleName (call : Nat) (function : Name) :
    Numbered owner call (call + 1) (moduleName owner call function) :=
  ⟨call, _, Nat.le_refl _, Nat.lt_succ_self _, rfl⟩

theorem argumentName_inj {call index other : Nat}
    (same : argumentName owner call index = argumentName owner call other) : index = other := by
  rw [argumentName, argumentName, String.append_right_inj] at same
  -- with a mark after them, the numbers are told apart as those of calls are
  have marked : toString index ++ "·" ++ "" = toString other ++ "·" ++ "" := by rw [same]
  exact (number_append_inj marked).1

theorem argumentName_ne_moduleName (call index : Nat) (function : Stateful) :
    argumentName owner call index ≠ moduleName owner call function.name := by
  intro same
  rw [argumentName, moduleName, String.append_assoc] at same
  have rest := congrArg (List.head? ∘ String.toList) (stem_append_inj same).2
  cases function <;> simp [Stateful.name, String.toList_append] at rest

/-! ## The arguments of one call -/

theorem mem_hoisted {call index : Nat} {given : List (Equation α)} {definition : Document.Variable α}
    (member : definition ∈ hoisted owner call index given) :
    ∃ place argument, index ≤ place ∧ argument ∈ given ∧
      definition = .auxiliary ⟨argumentName owner call place, argument.print, some argument, none⟩ := by
  induction given generalizing index with
  | nil => cases member
  | cons argument rest ih =>
    rcases List.mem_append.mp member with here | later
    · unfold argumentVariable at here
      split at here
      · cases here
      · exact ⟨index, argument, Nat.le_refl _, List.mem_cons_self, List.mem_singleton.mp here⟩
    · obtain ⟨place, other, above, among, rfl⟩ := ih later
      exact ⟨place, other, by omega, List.mem_cons_of_mem _ among, rfl⟩

theorem distinct_hoisted {call index : Nat} {given : List (Equation α)} :
    ((hoisted owner call index given).map Document.Variable.name).Nodup := by
  induction given generalizing index with
  | nil => exact List.nodup_nil
  | cons argument rest ih =>
    rw [hoisted, List.map_append, List.nodup_append]
    refine ⟨?_, ih, ?_⟩
    · unfold argumentVariable
      split
      · exact List.nodup_nil
      · exact List.nodup_singleton _
    · intro name own other later
      obtain ⟨definition, here, rfl⟩ := List.mem_map.mp own
      obtain ⟨definition', after, rfl⟩ := List.mem_map.mp later
      obtain ⟨place, argument', above, -, rfl⟩ := mem_hoisted after
      unfold argumentVariable at here
      split at here
      · cases here
      · obtain rfl := List.mem_singleton.mp here
        intro same
        have := argumentName_inj same
        omega

/-- An argument is left a plain reference exactly if it needs no variable of its own. -/
theorem length_argumentVariable {argument : Equation α} {first : Nat} {result : Expanded α (Equation α)}
    (expanded : expand owner argument first = .ok result) (call index : Nat) :
    (argumentVariable owner call index result.result).length = if argument.isPassed then 0 else 1 := by
  cases argument with
  | constant | reference =>
    cases expanded
    rfl
  | call function arguments =>
    obtain ⟨given, -, expanded⟩ := bind_eq_ok.mp expanded
    rcases expandCall_eq_ok expanded with ⟨primitive, rfl⟩ | ⟨stateful, -, known, -, -, rfl⟩
    · rw [Equation.isPassed, Stateful.ofName?_of_isPrimitive primitive]
      rfl
    · rw [Equation.isPassed, known]
      rfl
  | group | unary =>
    obtain ⟨_, -, expanded⟩ := bind_eq_ok.mp expanded
    cases expanded
    rfl
  | binary =>
    obtain ⟨_, -, expanded⟩ := bind_eq_ok.mp expanded
    obtain ⟨_, -, expanded⟩ := bind_eq_ok.mp expanded
    cases expanded
    rfl
  | conditional =>
    obtain ⟨_, -, expanded⟩ := bind_eq_ok.mp expanded
    obtain ⟨_, -, expanded⟩ := bind_eq_ok.mp expanded
    obtain ⟨_, -, expanded⟩ := bind_eq_ok.mp expanded
    cases expanded
    rfl

theorem length_hoisted {arguments : List (Equation α)} {first : Nat}
    {given : Expanded α (List (Equation α))} (expanded : expandAll owner arguments first = .ok given)
    (call index : Nat) : (hoisted owner call index given.result).length =
      (arguments.filter fun argument => !argument.isPassed).length := by
  induction arguments generalizing first given index with
  | nil =>
    cases expanded
    rfl
  | cons argument rest ih =>
    obtain ⟨one, here, expanded⟩ := bind_eq_ok.mp expanded
    obtain ⟨others, after, expanded⟩ := bind_eq_ok.mp expanded
    cases expanded
    rw [hoisted, List.length_append, length_argumentVariable here, ih after, List.filter_cons]
    cases argument.isPassed with
    | true => exact Nat.zero_add _
    | false => exact Nat.add_comm 1 _

theorem countP_isModule_hoisted (call index : Nat) (given : List (Equation α)) :
    (hoisted owner call index given).countP Document.Variable.isModule = 0 := by
  refine List.countP_eq_zero.mpr fun definition member => ?_
  obtain ⟨place, argument, -, -, rfl⟩ := mem_hoisted member
  exact Bool.false_ne_true

theorem countP_isAuxiliary_hoisted (call index : Nat) (given : List (Equation α)) :
    (hoisted owner call index given).countP Document.Variable.isAuxiliary =
      (hoisted owner call index given).length := by
  refine List.countP_eq_length.mpr fun definition member => ?_
  obtain ⟨place, argument, -, -, rfl⟩ := mem_hoisted member
  rfl

/-- The sources of a call's arguments stand for the arguments, where what was made for the arguments
themselves is put back and no name made for this call occurs in them. -/
theorem map_sources {call index : Nat} {given arguments : List (Equation α)} {values : Name → Equation α}
    (whole : ∀ others : Name → Equation α,
      (∀ name, ¬ Numbered owner call (call + 1) name → others name = values name) →
        Equation.substituteAll others given = arguments) :
    (sources owner call index given).map ((hoisted owner call index given).foldl restore values) =
      arguments := by
  induction given generalizing index arguments values with
  | nil => exact whole values fun _ _ => rfl
  | cons argument rest ih =>
    have here := whole values fun _ _ => rfl
    rw [Equation.substituteAll] at here
    subst here
    -- of the names made for this call, only those of later arguments are given a new value
    have kept : ∀ (others : Name → Equation α) name, (∀ place > index, name ≠ argumentName owner call place) →
        (hoisted owner call (index + 1) rest).foldl restore others name = others name := by
      refine fun others name apart => foldl_restore_of_ne fun definition member => ?_
      obtain ⟨place, other, above, -, rfl⟩ := mem_hoisted member
      exact apart place above
    by_cases plain : ∃ name, argument = .reference name
    · obtain ⟨name, rfl⟩ := plain
      refine List.cons_eq_cons.mpr ⟨?_, ih fun others agrees => (List.cons_eq_cons.mp (whole others agrees)).2⟩
      have left := whole ((hoisted owner call (index + 1) rest).foldl restore values) fun other outside =>
        kept values other fun place _ same => outside (same ▸ numbered_argumentName call place)
      exact (List.cons_eq_cons.mp left).1
    · have moves : argumentVariable owner call index argument =
          [.auxiliary ⟨argumentName owner call index, argument.print, some argument, none⟩] ∧
            argumentSource owner call index argument = argumentName owner call index := by
        cases argument with
        | reference name => exact absurd ⟨name, rfl⟩ plain
        | constant | call | group | unary | binary | conditional => exact ⟨rfl, rfl⟩
      rw [sources, hoisted, moves.1, moves.2, List.singleton_append, List.foldl_cons, List.map_cons]
      refine List.cons_eq_cons.mpr ⟨?_, ih fun others agrees => ?_⟩
      · rw [kept _ _ fun place later same => absurd (argumentName_inj same) (Nat.ne_of_lt later)]
        exact Function.update_self ..
      · refine (List.cons_eq_cons.mp (whole others fun name outside => ?_)).2
        have apart : name ≠ argumentName owner call index := fun same =>
          outside (same ▸ numbered_argumentName call index)
        rw [agrees name outside]
        exact Function.update_of_ne apart ..

theorem filterMap_find?_zip {sources inputs : List Name} (distinct : inputs.Nodup)
    (most : sources.length ≤ inputs.length) (place : Name → Path) (inj : ∀ a b, place a = place b → a = b)
    (values : Name → Equation α) :
    (inputs.filterMap fun input =>
      (((sources.zip inputs).map fun wire => (⟨wire.1, place wire.2⟩ : Document.Connection)).find?
        (·.target == place input)).map (values ·.source)) = sources.map values := by
  induction inputs generalizing sources with
  | nil =>
    rw [List.length_eq_zero_iff.mp (Nat.le_zero.mp most)]
    rfl
  | cons input inputs ih =>
    obtain ⟨fresh, distinct⟩ := List.nodup_cons.mp distinct
    cases sources with
    | nil => simp
    | cons source sources =>
      rw [List.filterMap_cons, List.zip_cons_cons, List.map_cons, List.find?_cons, beq_self_eq_true,
        List.map_cons, ← ih distinct (Nat.le_of_succ_le_succ most)]
      refine congrArg (values source :: ·) (List.filterMap_congr fun other later => ?_)
      have apart : (place input == place other) = false :=
        beq_eq_false_iff_ne.mpr fun same => fresh (inj _ _ same ▸ later)
      rw [List.find?_cons, apart]

/-- The call for which a module was made is read off the module. -/
theorem callOf?_callModule {call : Nat} {function : Stateful} {given : List (Equation α)}
    (most : given.length ≤ function.inputs.length) (values : Name → Equation α) :
    callOf? values (callModule owner call function given) =
      some (.call function.name ((sources owner call 0 given).map values)) := by
  have found : Stateful.all.find? (fun other =>
      Stateful.modelName other.name == Stateful.modelName function.name) = some function := by
    cases function <;> decide
  rw [callOf?, callModule, found, Option.map_some, filterMap_find?_zip function.nodup_inputs
    (by rwa [length_sources]) _ (fun a b same => (String.append_right_inj _).mp same)]

/-! ## Whole equations -/

/-- What the definitions made for some calls, numbered from one number up to another, are like; and that
something holds of the values of names wherever the definitions are put back. -/
structure Undoes (owner : Name) (first last : Nat) (calls : List (Name × List (Equation α)))
    (made : List (Document.Variable α)) (whole : (Name → Equation α) → Prop) : Prop where
  ordered : first ≤ last
  accepted : ∀ call ∈ calls, ∀ fault, ¬ Equation.Refuses call.1 call.2 fault
  named : ∀ definition ∈ made, Numbered owner first last definition.name
  distinct : (made.map Document.Variable.name).Nodup
  kinds : ∀ definition ∈ made, definition.isModule = true ∨
    ∃ equation, definition.isAuxiliary = true ∧ definition.equation? = some equation ∧
      ∀ call ∈ equation.calls, isPrimitive call.1 = true
  modules : made.countP Document.Variable.isModule = calls.countP Equation.isStateful
  auxiliaries : made.countP Document.Variable.isAuxiliary = (Equation.moved calls).length
  whole : ∀ before values : Name → Equation α,
    (∀ name, (∀ rest, name ≠ Name.made owner rest) → before name = .reference name) →
    (∀ name, (∀ rest, name ≠ Name.made owner rest) → values name = .reference name) →
    (∀ name, Numbered owner first last name → values name = made.foldl restore before name) → whole values

namespace Undoes

variable {first middle last : Nat} {calls others : List (Name × List (Equation α))}
  {made more : List (Document.Variable α)} {whole whole' : (Name → Equation α) → Prop}

theorem nil (holds : ∀ values : Name → Equation α,
    (∀ name, (∀ rest, name ≠ Name.made owner rest) → values name = .reference name) → whole values) :
    Undoes owner first first [] [] whole where
  ordered := Nat.le_refl _
  accepted := nofun
  named := nofun
  distinct := List.nodup_nil
  kinds := nofun
  modules := rfl
  auxiliaries := rfl
  whole _ values _ clear _ := holds values clear

theorem mono (undoes : Undoes owner first last calls made whole)
    (holds : ∀ values, whole values → whole' values) : Undoes owner first last calls made whole' :=
  { undoes with
    whole := fun before values clear clear' agrees =>
      holds values (undoes.whole before values clear clear' agrees) }

theorem foldl_restore (undoes : Undoes owner first last calls made whole) {values : Name → Equation α}
    {name : Name} (outside : ¬ Numbered owner first last name) :
    made.foldl restore values name = values name :=
  foldl_restore_of_ne fun definition member same => outside (same ▸ (undoes.named definition member).key)

theorem clear (undoes : Undoes owner first last calls made whole) {before : Name → Equation α}
    (clear : ∀ name, (∀ rest, name ≠ Name.made owner rest) → before name = .reference name) :
    ∀ name, (∀ rest, name ≠ Name.made owner rest) → made.foldl restore before name = .reference name := by
  intro name unmarked
  rw [undoes.foldl_restore fun numbered => numbered.exists_made.elim unmarked, clear name unmarked]

theorem perm (undoes : Undoes owner first last calls made whole) (same : calls.Perm others) :
    Undoes owner first last others made whole :=
  { undoes with
    accepted := fun call member => undoes.accepted call (same.mem_iff.mpr member)
    modules := by rw [undoes.modules, same.countP_eq]
    auxiliaries := by
      rw [undoes.auxiliaries]
      exact ((same.filter _).flatMap_right _).length_eq }

/-- What is made for later calls touches nothing that was made for earlier ones. -/
theorem append (undoes : Undoes owner first middle calls made whole)
    (further : Undoes owner middle last others more whole') :
    Undoes owner first last (calls ++ others) (made ++ more)
      fun values => whole values ∧ whole' values where
  ordered := undoes.ordered.trans further.ordered
  accepted := List.forall_mem_append.mpr ⟨undoes.accepted, further.accepted⟩
  named := List.forall_mem_append.mpr
    ⟨fun definition member => (undoes.named definition member).mono (Nat.le_refl _) further.ordered,
      fun definition member => (further.named definition member).mono undoes.ordered (Nat.le_refl _)⟩
  distinct := by
    rw [List.map_append, List.nodup_append]
    refine ⟨undoes.distinct, further.distinct, fun name own other later => ?_⟩
    obtain ⟨definition, member, rfl⟩ := List.mem_map.mp own
    obtain ⟨definition', member', rfl⟩ := List.mem_map.mp later
    exact (undoes.named definition member).disjoint (further.named definition' member')
  kinds := List.forall_mem_append.mpr ⟨undoes.kinds, further.kinds⟩
  modules := by rw [List.countP_append, List.countP_append, undoes.modules, further.modules]
  auxiliaries := by
    rw [List.countP_append, Equation.moved_append, List.length_append, undoes.auxiliaries,
      further.auxiliaries]
  whole before values clear clear' agrees := by
    rw [List.foldl_append] at agrees
    refine ⟨undoes.whole before values clear clear' fun name numbered => ?_,
      further.whole _ values (undoes.clear clear) clear' fun name numbered => ?_⟩
    · rw [agrees name (numbered.mono (Nat.le_refl _) further.ordered),
        further.foldl_restore fun later => numbered.disjoint later rfl]
    · exact agrees name (numbered.mono undoes.ordered (Nat.le_refl _))

/-- A call of a primitive is left as it is. -/
theorem primitive {function : Name} {arguments : List (Equation α)}
    (undoes : Undoes owner first last calls made whole) (primitive : isPrimitive function = true) :
    Undoes owner first last ((function, arguments) :: calls) made whole where
  ordered := undoes.ordered
  accepted := by
    refine List.forall_mem_cons.mpr ⟨fun fault refuses => ?_, undoes.accepted⟩
    cases refuses with
    | function other => cases primitive.symm.trans other
    | arguments known => cases (Stateful.ofName?_of_isPrimitive primitive).symm.trans known
  named := undoes.named
  distinct := undoes.distinct
  kinds := undoes.kinds
  modules := by
    rw [undoes.modules, List.countP_cons, Equation.isStateful, Stateful.ofName?_of_isPrimitive primitive]
    rfl
  auxiliaries := by
    rw [undoes.auxiliaries, Equation.moved, Equation.moved, List.filter_cons, Equation.isStateful,
      Stateful.ofName?_of_isPrimitive primitive]
    rfl
  whole := undoes.whole

end Undoes

/-- What is made for one stateful call apart from its arguments' own calls: variables for the arguments that
need them, and a module. -/
theorem undoes_own {first : Nat} {arguments : List (Equation α)} {function : Stateful}
    {given : Expanded α (List (Equation α))} (expanded : expandAll owner arguments first = .ok given)
    (primitive : ∀ call ∈ Equation.callsAll given.result, isPrimitive call.1 = true)
    (nonempty : given.result.length ≠ 0) (most : given.result.length ≤ function.inputs.length) :
    Undoes owner given.calls (given.calls + 1) [(function.name, arguments)]
      (hoisted owner given.calls 0 given.result ++
        [.module (callModule owner given.calls function given.result)]) fun _ => True where
  ordered := Nat.le_succ _
  accepted := by
    have length := length_of_expandAll expanded
    refine List.forall_mem_singleton.mpr fun fault refuses => ?_
    cases refuses with
    | function _ unknown => cases (Stateful.ofName?_name function).symm.trans unknown
    -- a call is refused that has no argument or too many, which this one has not
    | arguments _ number =>
      have number : arguments.length = 0 ∨ function.inputs.length < arguments.length := number
      omega
  named := by
    refine List.forall_mem_append.mpr ⟨fun definition member => ?_, ?_⟩
    · obtain ⟨place, argument, -, -, rfl⟩ := mem_hoisted member
      exact numbered_argumentName ..
    · exact List.forall_mem_singleton.mpr (numbered_moduleName ..)
  distinct := by
    rw [List.map_append, List.nodup_append]
    refine ⟨distinct_hoisted, List.nodup_singleton _, fun name own other later => ?_⟩
    obtain ⟨definition, member, rfl⟩ := List.mem_map.mp own
    obtain ⟨place, argument, -, -, rfl⟩ := mem_hoisted member
    obtain rfl := List.mem_singleton.mp later
    exact fun same => argumentName_ne_moduleName _ _ function same
  kinds := by
    refine List.forall_mem_append.mpr ⟨fun definition member => ?_, ?_⟩
    · obtain ⟨place, argument, -, among, rfl⟩ := mem_hoisted member
      refine .inr ⟨argument, rfl, rfl, fun call inner => primitive call ?_⟩
      rw [Equation.callsAll_eq_flatMap]
      exact List.mem_flatMap_of_mem among inner
    · exact List.forall_mem_singleton.mpr (.inl rfl)
  modules := by
    rw [List.countP_append, countP_isModule_hoisted, List.countP_singleton, List.countP_singleton,
      Equation.isStateful, Stateful.ofName?_name]
    rfl
  auxiliaries := by
    rw [List.countP_append, countP_isAuxiliary_hoisted, length_hoisted expanded, Equation.moved,
      List.filter_cons, Equation.isStateful, Stateful.ofName?_name]
    simp [Document.Variable.isAuxiliary]
  whole _ _ _ _ _ := trivial

/-- A stateful call becomes a reference, for which the call is put back. -/
theorem undoes_callModule {first : Nat} {arguments : List (Equation α)} {function : Stateful} {unmarked : Prop}
    {given : Expanded α (List (Equation α))} (expanded : expandAll owner arguments first = .ok given)
    (primitive : ∀ call ∈ Equation.callsAll given.result, isPrimitive call.1 = true)
    (nonempty : given.result.length ≠ 0) (most : given.result.length ≤ function.inputs.length)
    (undoes : Undoes owner first given.calls (Equation.callsAll arguments) given.made
      fun values => unmarked → Equation.substituteAll values given.result = arguments) :
    Undoes owner first (given.calls + 1) ((function.name, arguments) :: Equation.callsAll arguments)
      (given.made ++ hoisted owner given.calls 0 given.result ++
        [.module (callModule owner given.calls function given.result)])
      fun values => unmarked → values (moduleName owner given.calls function.name ++ ".output") =
        .call function.name arguments := by
  have both := (undoes.append (undoes_own expanded primitive nonempty most)).perm
    (List.perm_append_singleton _ _)
  rw [← List.append_assoc] at both
  refine { both with whole := fun before values clear clear' agrees outward => ?_ }
  have back : (sources owner given.calls 0 given.result).map
      ((hoisted owner given.calls 0 given.result).foldl restore (given.made.foldl restore before)) =
        arguments := by
    refine map_sources fun others kept => undoes.whole before others clear (fun name unmarked => ?_)
      (fun name numbered => kept name fun later => numbered.disjoint later rfl) outward
    rw [kept name fun numbered => numbered.exists_made.elim unmarked, undoes.clear clear name unmarked]
  have numbered : Numbered owner first (given.calls + 1)
      (moduleName owner given.calls function.name ++ ".output") :=
    (both.named _ (List.mem_append_right _ (List.mem_singleton_self _))).key
  rw [agrees _ numbered, List.foldl_append, List.foldl_append, List.foldl_cons, List.foldl_nil, restore,
    callOf?_callModule most, back]
  exact Function.update_self ..

theorem undoes_of_expandCall [Scalar α] {function : Name} {first : Nat} {arguments : List (Equation α)}
    {unmarked : Prop} {given : Expanded α (List (Equation α))} {result : Expanded α (Equation α)}
    (inner : expandAll owner arguments first = .ok given)
    (expanded : expandCall owner function given = .ok result)
    (undoes : Undoes owner first given.calls (Equation.callsAll arguments) given.made
      fun values => unmarked → Equation.substituteAll values given.result = arguments) :
    Undoes owner first result.calls (Equation.call function arguments).calls result.made
      fun values => unmarked → result.result.substitute values = .call function arguments := by
  rcases expandCall_eq_ok expanded with ⟨primitive, rfl⟩ | ⟨stateful, -, known, nonempty, most, rfl⟩
  · refine (undoes.primitive primitive).mono fun values whole outward => ?_
    rw [Equation.substitute, whole outward]
  · obtain rfl := Stateful.name_of_ofName? known
    exact undoes_callModule inner (isSettled_of_expandAll inner).own nonempty most undoes

/-- Whether no name in a list begins as the names do that are made for a variable. -/
def Unmarked (owner : Name) (names : List Name) : Prop :=
  ∀ name ∈ names, ∀ rest, name ≠ Name.made owner rest

theorem unmarked_append {names others : List Name} :
    Unmarked owner (names ++ others) ↔ Unmarked owner names ∧ Unmarked owner others :=
  List.forall_mem_append

mutual

theorem undoes_of_expand [Scalar α] : ∀ {equation : Equation α} {first : Nat}
    {result : Expanded α (Equation α)}, expand owner equation first = .ok result →
      Undoes owner first result.calls equation.calls result.made
        fun values => Unmarked owner equation.references → result.result.substitute values = equation
  | .constant _ _, _, _, expanded => by
    cases expanded
    exact .nil fun _ _ _ => rfl
  | .reference name, _, _, expanded => by
    cases expanded
    exact .nil fun values clear unmarked => clear name (unmarked name List.mem_cons_self)
  | .call _ _, _, _, expanded => by
    obtain ⟨_, inner, expanded⟩ := bind_eq_ok.mp expanded
    exact undoes_of_expandCall inner expanded (undoes_of_expandAll inner)
  | .group _, _, _, expanded => by
    obtain ⟨_, one, expanded⟩ := bind_eq_ok.mp expanded
    cases expanded
    refine (undoes_of_expand one).mono fun values whole unmarked => ?_
    rw [Equation.substitute, whole unmarked]
  | .unary _ _, _, _, expanded => by
    obtain ⟨_, one, expanded⟩ := bind_eq_ok.mp expanded
    cases expanded
    refine (undoes_of_expand one).mono fun values whole unmarked => ?_
    rw [Equation.substitute, whole unmarked]
  | .binary _ _ _, _, _, expanded => by
    obtain ⟨_, one, expanded⟩ := bind_eq_ok.mp expanded
    obtain ⟨_, two, expanded⟩ := bind_eq_ok.mp expanded
    cases expanded
    refine ((undoes_of_expand one).append (undoes_of_expand two)).mono fun values whole unmarked => ?_
    obtain ⟨left, right⟩ := unmarked_append.mp unmarked
    rw [Equation.substitute, whole.1 left, whole.2 right]
  | .conditional _ _ _, _, _, expanded => by
    obtain ⟨_, one, expanded⟩ := bind_eq_ok.mp expanded
    obtain ⟨_, two, expanded⟩ := bind_eq_ok.mp expanded
    obtain ⟨_, three, expanded⟩ := bind_eq_ok.mp expanded
    cases expanded
    refine (((undoes_of_expand one).append (undoes_of_expand two)).append
      (undoes_of_expand three)).mono fun values whole unmarked => ?_
    obtain ⟨before, whenFalse⟩ := unmarked_append.mp unmarked
    obtain ⟨condition, whenTrue⟩ := unmarked_append.mp before
    rw [Equation.substitute, whole.1.1 condition, whole.1.2 whenTrue, whole.2 whenFalse]

theorem undoes_of_expandAll [Scalar α] : ∀ {equations : List (Equation α)} {first : Nat}
    {result : Expanded α (List (Equation α))}, expandAll owner equations first = .ok result →
      Undoes owner first result.calls (Equation.callsAll equations) result.made
        fun values => Unmarked owner (Equation.referencesAll equations) →
          Equation.substituteAll values result.result = equations
  | [], _, _, expanded => by
    cases expanded
    exact .nil fun _ _ _ => rfl
  | _ :: _, _, _, expanded => by
    obtain ⟨_, one, expanded⟩ := bind_eq_ok.mp expanded
    obtain ⟨_, others, expanded⟩ := bind_eq_ok.mp expanded
    cases expanded
    refine ((undoes_of_expand one).append (undoes_of_expandAll others)).mono fun values whole unmarked => ?_
    obtain ⟨here, rest⟩ := unmarked_append.mp unmarked
    rw [Equation.substituteAll, whole.1 here, whole.2 rest]

end

/-! ## Calls that are refused -/

theorem refuses_of_expandCall {function : Name} {first : Nat} {arguments : List (Equation α)}
    {given : Expanded α (List (Equation α))} {fault : EquationFault}
    (inner : expandAll owner arguments first = .ok given)
    (failed : expandCall owner function given = .error fault) : Equation.Refuses function arguments fault := by
  unfold expandCall at failed
  split at failed
  · cases failed
  · rename_i stateful
    split at failed
    · rename_i unknown
      cases failed
      exact .function (Bool.eq_false_iff.mpr stateful) unknown
    · rename_i stateful known
      dsimp only at failed
      split at failed
      · rename_i number
        cases failed
        have text : function ++ " takes 1 to " ++ toString stateful.inputs.length ++ " arguments, not " =
            function ++ " takes 1 to 3 arguments, not " := by
          rw [String.append_assoc, String.append_assoc]
          exact congrArg (function ++ ·) (by cases stateful <;> decide)
        rw [length_of_expandAll inner] at number ⊢
        rw [text]
        exact .arguments known number
      · cases failed

mutual

theorem exists_refuses_of_expand : ∀ {equation : Equation α} {first : Nat} {fault : EquationFault},
    expand owner equation first = .error fault →
      ∃ call ∈ equation.calls, Equation.Refuses call.1 call.2 fault
  | .constant _ _, _, _, failed => by cases failed
  | .reference _, _, _, failed => by cases failed
  | .call function arguments, _, _, failed => by
    rcases bind_eq_error.mp failed with failed | ⟨given, inner, failed⟩
    · obtain ⟨call, among, refuses⟩ := exists_refuses_of_expandAll failed
      exact ⟨call, List.mem_cons_of_mem _ among, refuses⟩
    · exact ⟨(function, arguments), List.mem_cons_self, refuses_of_expandCall inner failed⟩
  | .group _, _, _, failed => by
    rcases bind_eq_error.mp failed with failed | ⟨_, -, ⟨⟩⟩
    have refused := exists_refuses_of_expand failed
    rwa [Equation.calls]
  | .unary _ _, _, _, failed => by
    rcases bind_eq_error.mp failed with failed | ⟨_, -, ⟨⟩⟩
    have refused := exists_refuses_of_expand failed
    rwa [Equation.calls]
  | .binary _ _ _, _, _, failed => by
    rcases bind_eq_error.mp failed with failed | ⟨_, -, failed⟩
    · exact (exists_refuses_of_expand failed).imp fun _ => .imp_left (List.mem_append_left _)
    · rcases bind_eq_error.mp failed with failed | ⟨_, -, ⟨⟩⟩
      exact (exists_refuses_of_expand failed).imp fun _ => .imp_left (List.mem_append_right _)
  | .conditional _ _ _, _, _, failed => by
    rcases bind_eq_error.mp failed with failed | ⟨_, -, failed⟩
    · exact (exists_refuses_of_expand failed).imp fun _ => .imp_left fun among =>
        List.mem_append_left _ (List.mem_append_left _ among)
    · rcases bind_eq_error.mp failed with failed | ⟨_, -, failed⟩
      · exact (exists_refuses_of_expand failed).imp fun _ => .imp_left fun among =>
          List.mem_append_left _ (List.mem_append_right _ among)
      · rcases bind_eq_error.mp failed with failed | ⟨_, -, ⟨⟩⟩
        exact (exists_refuses_of_expand failed).imp fun _ => .imp_left (List.mem_append_right _)

theorem exists_refuses_of_expandAll : ∀ {equations : List (Equation α)} {first : Nat}
    {fault : EquationFault}, expandAll owner equations first = .error fault →
      ∃ call ∈ Equation.callsAll equations, Equation.Refuses call.1 call.2 fault
  | [], _, _, failed => by cases failed
  | _ :: _, _, _, failed => by
    rcases bind_eq_error.mp failed with failed | ⟨_, -, failed⟩
    · exact (exists_refuses_of_expand failed).imp fun _ => .imp_left (List.mem_append_left _)
    · rcases bind_eq_error.mp failed with failed | ⟨_, -, ⟨⟩⟩
      exact (exists_refuses_of_expandAll failed).imp fun _ => .imp_left (List.mem_append_right _)

end

/-! ## Expansion and back -/

/-- What is said of an equation of the variable `owner` and what it is expanded to. -/
structure Desugars (owner : Name) (equation : Equation α) (expanded : Expanded α (Equation α)) : Prop where
  /-- No stateful call is left. -/
  settled : ∀ call ∈ expanded.result.calls, Stateful.ofName? call.1 = none
  /-- Modules are made, and auxiliary variables without stateful calls. -/
  made : ∀ definition ∈ expanded.made, definition.isModule = true ∨
    ∃ equation, definition.isAuxiliary = true ∧ definition.equation? = some equation ∧
      ∀ call ∈ equation.calls, Stateful.ofName? call.1 = none
  /-- There is a module for each stateful call. -/
  modules : expanded.made.countP Document.Variable.isModule = equation.calls.countP Equation.isStateful
  /-- There is an auxiliary variable for each argument of such calls that needs one. -/
  auxiliaries : expanded.made.countP Document.Variable.isAuxiliary = (Equation.moved equation.calls).length
  distinct : (expanded.made.map Document.Variable.name).Nodup
  /-- With the calls put back for the references to modules, the equation is there again. -/
  restored : expanded.result.substitute (restored expanded.made) = equation

/-- An equation is refused exactly if one of its calls is; otherwise nothing of it is lost in expansion. -/
theorem refused_or_desugars [Scalar α] (owner : Name) (equation : Equation α)
    (unmarked : ∀ name ∈ equation.references, ∀ rest, name ≠ "$·" ++ owner ++ "·" ++ rest) :
    ((∃ fault, expand owner equation 0 = .error fault) ↔
      ∃ call ∈ equation.calls, ∃ fault, Equation.Refuses call.1 call.2 fault) ∧
    (∀ fault, expand owner equation 0 = .error fault →
      ∃ call ∈ equation.calls, Equation.Refuses call.1 call.2 fault) ∧
    ∀ expanded, expand owner equation 0 = .ok expanded → Desugars owner equation expanded := by
  have refuses : ∀ fault, expand owner equation 0 = .error fault →
      ∃ call ∈ equation.calls, Equation.Refuses call.1 call.2 fault :=
    fun fault failed => exists_refuses_of_expand failed
  refine ⟨⟨fun ⟨fault, failed⟩ => ?_, fun ⟨call, among, fault, refused⟩ => ?_⟩, refuses,
    fun expanded done => ?_⟩
  · obtain ⟨call, among, refused⟩ := refuses fault failed
    exact ⟨call, among, fault, refused⟩
  · cases done : expand owner equation 0 with
    | error fault => exact ⟨fault, rfl⟩
    | ok expanded => exact absurd refused ((undoes_of_expand done).accepted call among fault)
  · have undoes := undoes_of_expand done
    have primitive : ∀ name, isPrimitive name = true → Stateful.ofName? name = none :=
      fun _ => Stateful.ofName?_of_isPrimitive
    exact {
      settled := fun call among => primitive _ ((isSettled_of_expand done).own call among)
      made := fun definition member => (undoes.kinds definition member).imp_right
        fun ⟨equation, auxiliary, own, settled⟩ =>
          ⟨equation, auxiliary, own, fun call among => primitive _ (settled call among)⟩
      modules := undoes.modules
      auxiliaries := undoes.auxiliaries
      distinct := undoes.distinct
      restored := undoes.whole .reference (Expansion.restored expanded.made) (fun _ _ => rfl)
        (undoes.clear fun _ _ => rfl) (fun _ _ => rfl) unmarked }

/-- A smoother that reads a delay, beside a call of a primitive. -/
def nestedCalls : Equation Float :=
  .binary .add
    (.call "smth1" [
      .binary .sub (.reference "x") (.call "delay1" [.reference "y", .constant "5" 5]),
      .call "delay3" [.reference "x"]])
    (.call "abs" [.reference "z"])

theorem refused_or_desugars_nested :
    (∃ expanded, expand "v" nestedCalls 0 = .ok expanded ∧ Desugars "v" nestedCalls expanded ∧
      expanded.made.map Document.Variable.name =
        ["$·v·0·arg1", "$·v·0·delay1", "$·v·1·delay3", "$·v·2·arg0", "$·v·2·smth1"]) ∧
    ∃ fault, expand "v" (.call "delay3" [] : Equation Float) 0 = .error fault ∧
      Equation.Refuses "delay3" ([] : List (Equation Float)) fault := by
  have unmarked : ∀ name ∈ nestedCalls.references, ∀ rest, name ≠ "$·" ++ "v" ++ "·" ++ rest := by
    intro name member rest same
    have plain : ∀ name ∈ nestedCalls.references, name.toList.head? ≠ some '$' := by decide
    refine plain name member ?_
    rw [same]
    simp [String.toList_append]
  constructor
  · obtain ⟨expanded, done⟩ : ∃ expanded, expand "v" nestedCalls 0 = .ok expanded := ⟨_, rfl⟩
    refine ⟨expanded, done, (refused_or_desugars "v" nestedCalls unmarked).2.2 expanded done, ?_⟩
    cases done
    decide +kernel
  · obtain ⟨fault, failed⟩ : ∃ fault, expand "v" (.call "delay3" [] : Equation Float) 0 = .error fault :=
      ⟨_, rfl⟩
    obtain ⟨call, among, refuses⟩ :=
      (refused_or_desugars "v" (.call "delay3" [] : Equation Float) nofun).2.1 fault failed
    obtain rfl := List.mem_singleton.mp among
    exact ⟨fault, failed, refuses⟩

end Expansion
end StockFlow
