import StockFlow.Plan.Meaning
import StockFlow.Proofs.Reading

/-!
# Lowering

The term of an equation has the value of the equation in every row. Whether an equation has a term
depends on its calls alone, so new names for its variables leave it with one, and with the same value
where they lead to the same values.
-/

namespace StockFlow

variable {α : Type}

/-! ## Names of equations -/

namespace Equation

/-- The name of the table that a call looks up. -/
def lookedUp? (function : Name) (arguments : List (Equation α)) : Option Name :=
  match Primitive.ofName? function, arguments with
  | some .lookup, reference name :: _ => some name
  | _, _ => none

/-- The names of the tables that an equation looks up. -/
def tableNames (equation : Equation α) : List Name :=
  equation.calls.filterMap fun (function, arguments) => lookedUp? function arguments

/-- Whether all calls in an equation may be made. -/
def IsAdmissible (equation : Equation α) : Prop :=
  ∀ call ∈ equation.calls, isAdmissible call.1 call.2 = true

theorem isPrimitive_of_isAdmissible {function : Name} {arguments : List (Equation α)}
    (admissible : isAdmissible function arguments = true) : isPrimitive function = true := by
  unfold isAdmissible at admissible
  rw [← isSome_ofName?]
  cases found : Primitive.ofName? function with
  | none => simp [found] at admissible
  | some primitive => rfl

theorem mapNamesAll_eq_map (f : Name → Name) (equations : List (Equation α)) :
    mapNamesAll f equations = equations.map (mapNames f) := by
  induction equations with
  | nil => rfl
  | cons first rest ih => rw [mapNamesAll, ih, List.map_cons]

theorem isConstant_mapNames (f : Name → Name) (equation : Equation α) :
    (equation.mapNames f).isConstant = equation.isConstant := by
  fun_induction isConstant equation with
  | case1 => rfl
  | case2 inner ih => simpa only [mapNames, isConstant] using ih
  | case3 operator operand ih => simpa only [mapNames, isConstant] using ih
  | case4 equation => cases equation <;> simp_all [mapNames, isConstant]

mutual

theorem references_mapNames (f : Name → Name) : ∀ equation : Equation α,
    (equation.mapNames f).references = equation.references.map f
  | constant _ _ => rfl
  | reference _ => rfl
  | call _ arguments => by
    rw [mapNames, references, references, referencesAll_mapNamesAll f arguments]
  | group inner => by rw [mapNames, references, references, references_mapNames f inner]
  | unary _ operand => by rw [mapNames, references, references, references_mapNames f operand]
  | binary _ left right => by
    rw [mapNames, references, references, references_mapNames f left, references_mapNames f right,
      List.map_append]
  | conditional condition whenTrue whenFalse => by
    rw [mapNames, references, references, references_mapNames f condition,
      references_mapNames f whenTrue, references_mapNames f whenFalse, List.map_append, List.map_append]

theorem referencesAll_mapNamesAll (f : Name → Name) : ∀ equations : List (Equation α),
    referencesAll (mapNamesAll f equations) = (referencesAll equations).map f
  | [] => rfl
  | first :: rest => by
    rw [mapNamesAll, referencesAll, referencesAll, references_mapNames f first,
      referencesAll_mapNamesAll f rest, List.map_append]

end

mutual

theorem calls_mapNames (f : Name → Name) : ∀ equation : Equation α, (equation.mapNames f).calls =
    equation.calls.map fun call => (f call.1, mapNamesAll f call.2)
  | constant _ _ => rfl
  | reference _ => rfl
  | call _ arguments => by
    rw [mapNames, calls, calls, callsAll_mapNamesAll f arguments, List.map_cons]
  | group inner => by rw [mapNames, calls, calls, calls_mapNames f inner]
  | unary _ operand => by rw [mapNames, calls, calls, calls_mapNames f operand]
  | binary _ left right => by
    rw [mapNames, calls, calls, calls_mapNames f left, calls_mapNames f right, List.map_append]
  | conditional condition whenTrue whenFalse => by
    rw [mapNames, calls, calls, calls_mapNames f condition, calls_mapNames f whenTrue,
      calls_mapNames f whenFalse, List.map_append, List.map_append]

theorem callsAll_mapNamesAll (f : Name → Name) : ∀ equations : List (Equation α),
    callsAll (mapNamesAll f equations) =
      (callsAll equations).map fun call => (f call.1, mapNamesAll f call.2)
  | [] => rfl
  | first :: rest => by
    rw [mapNamesAll, callsAll, callsAll, calls_mapNames f first, callsAll_mapNamesAll f rest,
      List.map_append]

end

mutual

/-- What an equation that calls primitives alone declares are names that it refers to. -/
theorem mem_references_of_declared {name : Name} : ∀ {equation : Equation α},
    (∀ call ∈ equation.calls, isPrimitive call.1 = true) → name ∈ equation.declared →
      name ∈ equation.references ∧ isReserved name = false
  | .constant _ _, _, member => by cases member
  | .reference _, _, member => by
    rw [declared] at member
    split at member
    · cases member
    · rename_i unreserved
      obtain rfl := List.mem_singleton.mp member
      exact ⟨List.mem_singleton_self _, Bool.eq_false_iff.mpr unreserved⟩
  | .call _ _, primitive, member => by
    obtain ⟨first, others⟩ := List.forall_mem_cons.mp primitive
    rw [declared, if_pos first] at member
    exact mem_referencesAll_of_declaredAll others member
  | .group _, primitive, member => by
    rw [calls] at primitive
    rw [declared] at member
    rw [references]
    exact mem_references_of_declared primitive member
  | .unary _ _, primitive, member => by
    rw [calls] at primitive
    rw [declared] at member
    rw [references]
    exact mem_references_of_declared primitive member
  | .binary _ _ _, primitive, member => by
    obtain ⟨first, second⟩ := List.forall_mem_append.mp primitive
    rw [references, List.mem_append]
    rcases List.mem_append.mp member with left | right
    · exact (mem_references_of_declared first left).imp_left .inl
    · exact (mem_references_of_declared second right).imp_left .inr
  | .conditional _ _ _, primitive, member => by
    simp only [calls, List.forall_mem_append] at primitive
    obtain ⟨⟨first, second⟩, third⟩ := primitive
    simp only [declared, references, List.mem_append] at member ⊢
    rcases member with (condition | whenTrue) | whenFalse
    · exact (mem_references_of_declared first condition).imp_left fun here => .inl (.inl here)
    · exact (mem_references_of_declared second whenTrue).imp_left fun here => .inl (.inr here)
    · exact (mem_references_of_declared third whenFalse).imp_left .inr

theorem mem_referencesAll_of_declaredAll {name : Name} : ∀ {equations : List (Equation α)},
    (∀ call ∈ callsAll equations, isPrimitive call.1 = true) → name ∈ declaredAll equations →
      name ∈ referencesAll equations ∧ isReserved name = false
  | [], _, member => by cases member
  | _ :: _, primitive, member => by
    obtain ⟨first, others⟩ := List.forall_mem_append.mp primitive
    rw [referencesAll, List.mem_append]
    rcases List.mem_append.mp member with here | rest
    · exact (mem_references_of_declared first here).imp_left .inl
    · exact (mem_referencesAll_of_declaredAll others rest).imp_left .inr

end

theorem isAdmissible_map (f : Name → Name) (function : Name) (arguments : List (Equation α)) :
    isAdmissible function (arguments.map (mapNames f)) = isAdmissible function arguments := by
  unfold isAdmissible
  cases Primitive.ofName? function with
  | none => rfl
  | some primitive =>
    cases primitive with
    | lookup =>
      match arguments with
      | [] => rfl
      | [table] => cases table <;> rfl
      | [table, _] => cases table <;> rfl
      | table :: _ :: _ :: _ => cases table <;> rfl
    | elementary | infinity | pi | maximum | minimum | pulse | safeDivide => simp

theorem IsAdmissible.mapNames {f : Name → Name} {equation : Equation α}
    (admissible : equation.IsAdmissible) (functions : ∀ call ∈ equation.calls, f call.1 = call.1) :
    (equation.mapNames f).IsAdmissible := by
  intro call member
  rw [calls_mapNames] at member
  obtain ⟨call, among, rfl⟩ := List.mem_map.mp member
  rw [functions _ among, mapNamesAll_eq_map, isAdmissible_map]
  exact admissible _ among

mutual

theorem mapNames_mapNames (f g : Name → Name) : ∀ equation : Equation α,
    (equation.mapNames g).mapNames f = equation.mapNames fun name => f (g name)
  | constant _ _ => rfl
  | reference _ => rfl
  | call _ arguments => by
    rw [mapNames, mapNames, mapNames, mapNamesAll_mapNamesAll f g arguments]
  | group inner => by rw [mapNames, mapNames, mapNames, mapNames_mapNames f g inner]
  | unary _ operand => by rw [mapNames, mapNames, mapNames, mapNames_mapNames f g operand]
  | binary _ left right => by
    rw [mapNames, mapNames, mapNames, mapNames_mapNames f g left, mapNames_mapNames f g right]
  | conditional condition whenTrue whenFalse => by
    rw [mapNames, mapNames, mapNames, mapNames_mapNames f g condition, mapNames_mapNames f g whenTrue,
      mapNames_mapNames f g whenFalse]

theorem mapNamesAll_mapNamesAll (f g : Name → Name) : ∀ equations : List (Equation α),
    mapNamesAll f (mapNamesAll g equations) = mapNamesAll (fun name => f (g name)) equations
  | [] => rfl
  | first :: rest => by
    rw [mapNamesAll, mapNamesAll, mapNamesAll, mapNames_mapNames f g first,
      mapNamesAll_mapNamesAll f g rest]

end

mutual

/-- Only what happens to the names in an equation matters. -/
theorem mapNames_congr {f g : Name → Name} : ∀ {equation : Equation α},
    (∀ name ∈ equation.references, f name = g name) →
      (∀ call ∈ equation.calls, f call.1 = g call.1) → equation.mapNames f = equation.mapNames g
  | constant _ _, _, _ => rfl
  | reference name, references, _ => by
    rw [mapNames, mapNames, references name (List.mem_singleton_self name)]
  | call function arguments, references, functions => by
    obtain ⟨first, others⟩ := List.forall_mem_cons.mp functions
    rw [mapNames, mapNames, first, mapNamesAll_congr references others]
  | group _, references, functions => by
    rw [Equation.references] at references
    rw [calls] at functions
    rw [mapNames, mapNames, mapNames_congr references functions]
  | unary _ _, references, functions => by
    rw [Equation.references] at references
    rw [calls] at functions
    rw [mapNames, mapNames, mapNames_congr references functions]
  | binary _ _ _, references, functions => by
    simp only [Equation.references, calls, List.forall_mem_append] at references functions
    rw [mapNames, mapNames, mapNames_congr references.1 functions.1,
      mapNames_congr references.2 functions.2]
  | conditional _ _ _, references, functions => by
    simp only [Equation.references, calls, List.forall_mem_append] at references functions
    rw [mapNames, mapNames, mapNames_congr references.1.1 functions.1.1,
      mapNames_congr references.1.2 functions.1.2, mapNames_congr references.2 functions.2]

theorem mapNamesAll_congr {f g : Name → Name} : ∀ {equations : List (Equation α)},
    (∀ name ∈ referencesAll equations, f name = g name) →
      (∀ call ∈ callsAll equations, f call.1 = g call.1) →
        mapNamesAll f equations = mapNamesAll g equations
  | [], _, _ => rfl
  | _ :: _, references, functions => by
    simp only [referencesAll, callsAll, List.forall_mem_append] at references functions
    rw [mapNamesAll, mapNamesAll, mapNames_congr references.1 functions.1,
      mapNamesAll_congr references.2 functions.2]

end

mutual

theorem mapNames_id : ∀ equation : Equation α, equation.mapNames id = equation
  | constant _ _ => rfl
  | reference _ => rfl
  | call _ arguments => by rw [mapNames, mapNamesAll_id arguments, id]
  | group inner => by rw [mapNames, mapNames_id inner]
  | unary _ operand => by rw [mapNames, mapNames_id operand]
  | binary _ left right => by rw [mapNames, mapNames_id left, mapNames_id right]
  | conditional condition whenTrue whenFalse => by
    rw [mapNames, mapNames_id condition, mapNames_id whenTrue, mapNames_id whenFalse]

theorem mapNamesAll_id : ∀ equations : List (Equation α), mapNamesAll id equations = equations
  | [] => rfl
  | first :: rest => by rw [mapNamesAll, mapNames_id first, mapNamesAll_id rest]

end

mutual

/-- What the arguments of a call in an equation refer to, the equation refers to. -/
theorem mem_references_of_calls {call : Name × List (Equation α)} {name : Name}
    (refers : name ∈ referencesAll call.2) : ∀ {equation : Equation α}, call ∈ equation.calls →
      name ∈ equation.references
  | .constant _ _, member | .reference _, member => absurd member List.not_mem_nil
  | .call _ _, member => by
    rcases List.mem_cons.mp member with rfl | inside
    · exact refers
    · exact mem_referencesAll_of_callsAll refers inside
  | .group _, member | .unary _ _, member => by
    rw [calls] at member
    rw [references]
    exact mem_references_of_calls refers member
  | .binary _ _ _, member => by
    rcases List.mem_append.mp member with inside | inside
    · exact List.mem_append_left _ (mem_references_of_calls refers inside)
    · exact List.mem_append_right _ (mem_references_of_calls refers inside)
  | .conditional _ _ _, member => by
    simp only [calls, references, List.mem_append] at member ⊢
    exact member.imp (.imp (mem_references_of_calls refers) (mem_references_of_calls refers))
      (mem_references_of_calls refers)

theorem mem_referencesAll_of_callsAll {call : Name × List (Equation α)} {name : Name}
    (refers : name ∈ referencesAll call.2) : ∀ {equations : List (Equation α)},
      call ∈ callsAll equations → name ∈ referencesAll equations
  | [], member => absurd member List.not_mem_nil
  | _ :: _, member => by
    rcases List.mem_append.mp member with inside | inside
    · exact List.mem_append_left _ (mem_references_of_calls refers inside)
    · exact List.mem_append_right _ (mem_referencesAll_of_callsAll refers inside)

end

theorem mem_references_of_lookedUp? {equation : Equation α} {call : Name × List (Equation α)}
    (member : call ∈ equation.calls) {name : Name} (looked : lookedUp? call.1 call.2 = some name) :
    name ∈ equation.references := by
  refine mem_references_of_calls ?_ member
  unfold lookedUp? at looked
  split at looked
  · rename_i first
    cases looked
    rw [first]
    exact List.mem_append_left _ (List.mem_singleton_self name)
  · cases looked

end Equation

/-! ## Values of terms -/

namespace Scope

variable [Scalar α] {scope : Scope α} {row : Row α}

theorem value_load (path : Path) :
    (scope.load path).value scope.clock.dt row = scope.slotValue row path := by
  unfold load slotValue
  cases scope.slot? path <;> rfl

theorem value_reference (name : Name) :
    (scope.reference name).value scope.clock.dt row = scope.referenceValue row name := by
  unfold reference referenceValue
  cases ClockReference.ofName? name with
  | none => exact value_load name
  | some clock => cases clock <;> rfl

variable (row) in
theorem value_of_lowerCall {function : Name} {arguments : List (Equation α)} {terms : List (Term α)}
    {term : Term α} (lowered : scope.lowerCall function arguments terms = .ok term) :
    ∃ primitive, Primitive.ofName? function = some primitive ∧ term.value scope.clock.dt row =
      scope.callValue row primitive arguments (terms.map (·.value scope.clock.dt row)) := by
  unfold lowerCall at lowered
  split at lowered
  · cases lowered
  · rename_i primitive found
    refine ⟨primitive, found, ?_⟩
    split at lowered
    · unfold lowerLookup at lowered
      split at lowered
      · cases lowered
        rfl
      · cases lowered
    all_goals cases lowered
    all_goals rfl

mutual

/-- In every row the term of an equation has the value of the equation. -/
theorem value_of_lower : ∀ {equation : Equation α} {term : Term α},
    scope.lower equation = .ok term → term.value scope.clock.dt row = scope.value row equation
  | .constant _ _, _, lowered => by
    cases lowered
    rfl
  | .reference name, _, lowered => by
    cases lowered
    exact value_reference name
  | .call _ _, _, lowered => by
    simp only [lower, bind_eq_ok] at lowered
    obtain ⟨terms, inner, outer⟩ := lowered
    obtain ⟨primitive, found, same⟩ := value_of_lowerCall row outer
    rw [same, values_of_lowerAll inner, value, found]
  | .group _, _, lowered => by
    rw [lower] at lowered
    rw [value, value_of_lower lowered]
  | .unary .positive _, _, lowered => by
    rw [lower] at lowered
    rw [value, unaryValue, value_of_lower lowered]
  | .unary .negative _, _, lowered => by
    simp only [lower, bind_eq_ok, pure_eq_ok] at lowered
    obtain ⟨_, inner, rfl⟩ := lowered
    rw [value, unaryValue, ← value_of_lower inner]
    rfl
  | .unary .not _, _, lowered => by
    simp only [lower, bind_eq_ok, pure_eq_ok] at lowered
    obtain ⟨_, inner, rfl⟩ := lowered
    rw [value, unaryValue, ← value_of_lower inner]
    rfl
  | .binary _ _ _, _, lowered => by
    simp only [lower, bind_eq_ok, pure_eq_ok] at lowered
    obtain ⟨_, left, _, right, rfl⟩ := lowered
    rw [value, Term.value, value_of_lower left, value_of_lower right]
  | .conditional _ _ _, _, lowered => by
    simp only [lower, bind_eq_ok, pure_eq_ok] at lowered
    obtain ⟨_, condition, _, whenTrue, _, whenFalse, rfl⟩ := lowered
    rw [value, Term.value, value_of_lower condition, value_of_lower whenTrue, value_of_lower whenFalse]

theorem values_of_lowerAll : ∀ {equations : List (Equation α)} {terms : List (Term α)},
    scope.lowerAll equations = .ok terms →
      terms.map (·.value scope.clock.dt row) = scope.values row equations
  | [], _, lowered => by
    cases lowered
    rfl
  | _ :: _, _, lowered => by
    simp only [lowerAll, bind_eq_ok, pure_eq_ok] at lowered
    obtain ⟨_, first, _, rest, rfl⟩ := lowered
    rw [values, List.map_cons, value_of_lower first, values_of_lowerAll rest]

end

/-! ## Values under other names -/

section

variable {other : Scope α} {next : Row α} {f : Name → Name}

theorem callValue_mapNamesAll (clock : other.clock = scope.clock) (time : next.time = row.time)
    {function : Name} {primitive : Primitive}
    (found : Primitive.ofName? function = some primitive) {arguments : List (Equation α)}
    (tables : ∀ name, Equation.lookedUp? function arguments = some name →
      other.table? (f name) = scope.table? name) (values : List α) :
    other.callValue next primitive (Equation.mapNamesAll f arguments) values =
      scope.callValue row primitive arguments values := by
  rcases values with _ | ⟨x, _ | ⟨y, _ | ⟨z, _ | ⟨w, rest⟩⟩⟩⟩ <;> cases primitive with
  | lookup =>
    rcases arguments with _ | ⟨_ | name, others⟩
    case cons.reference =>
      have same := tables name (by simp [Equation.lookedUp?, found])
      simp only [Equation.mapNamesAll, Equation.mapNames, callValue, same]
    all_goals rfl
  | pulse => simp only [callValue, clock, time]
  | elementary | infinity | pi | maximum | minimum | safeDivide => rfl

mutual

/-- An equation with other names for its variables has the same value where the names lead to the same
values and tables. -/
theorem value_mapNames (clock : other.clock = scope.clock) (time : next.time = row.time) :
    ∀ {equation : Equation α},
    (∀ name ∈ equation.references,
      other.referenceValue next (f name) = scope.referenceValue row name) →
    (∀ call ∈ equation.calls, f call.1 = call.1 ∧ ∀ name,
      Equation.lookedUp? call.1 call.2 = some name → other.table? (f name) = scope.table? name) →
    other.value next (equation.mapNames f) = scope.value row equation
  | .constant _ _, _, _ => rfl
  | .reference name, references, _ => references name (List.mem_singleton_self name)
  | .call function arguments, references, calls => by
    obtain ⟨⟨named, tables⟩, others⟩ := List.forall_mem_cons.mp calls
    rw [Equation.mapNames, value, value, named, values_mapNamesAll clock time references others]
    cases found : Primitive.ofName? function with
    | none => rfl
    | some primitive => exact callValue_mapNamesAll clock time found tables _
  | .group inner, references, calls => by
    rw [Equation.references] at references
    rw [Equation.calls] at calls
    rw [Equation.mapNames, value, value, value_mapNames clock time references calls]
  | .unary _ operand, references, calls => by
    rw [Equation.references] at references
    rw [Equation.calls] at calls
    rw [Equation.mapNames, value, value, value_mapNames clock time references calls]
  | .binary _ _ _, references, calls => by
    simp only [Equation.references, Equation.calls, List.forall_mem_append] at references calls
    rw [Equation.mapNames, value, value, value_mapNames clock time references.1 calls.1,
      value_mapNames clock time references.2 calls.2]
  | .conditional _ _ _, references, calls => by
    simp only [Equation.references, Equation.calls, List.forall_mem_append] at references calls
    rw [Equation.mapNames, value, value, value_mapNames clock time references.1.1 calls.1.1,
      value_mapNames clock time references.1.2 calls.1.2, value_mapNames clock time references.2 calls.2]

theorem values_mapNamesAll (clock : other.clock = scope.clock) (time : next.time = row.time) :
    ∀ {equations : List (Equation α)},
    (∀ name ∈ Equation.referencesAll equations,
      other.referenceValue next (f name) = scope.referenceValue row name) →
    (∀ call ∈ Equation.callsAll equations, f call.1 = call.1 ∧ ∀ name,
      Equation.lookedUp? call.1 call.2 = some name → other.table? (f name) = scope.table? name) →
    other.values next (Equation.mapNamesAll f equations) = scope.values row equations
  | [], _, _ => rfl
  | _ :: _, references, calls => by
    simp only [Equation.referencesAll, Equation.callsAll, List.forall_mem_append] at references calls
    rw [Equation.mapNamesAll, values, values, value_mapNames clock time references.1 calls.1,
      values_mapNamesAll clock time references.2 calls.2]

end

end

/-! ## Formulas and stocks -/

/-- The value of a flow or an auxiliary variable in a row. -/
def formulaValue (scope : Scope α) (row : Row α) (formula : Formula α) : α :=
  let x := scope.value row formula.equation
  let x := formula.table?.elim x (·.lookup x)
  if formula.isFlow && formula.nonNegative then Scalar.maximum x Scalar.zero else x

variable (row) in
theorem value_of_formulaTerm {formula : Formula α} {term : Term α}
    (lowered : scope.formulaTerm formula = .ok term) :
    term.value scope.clock.dt row = scope.formulaValue row formula := by
  simp only [formulaTerm, bind_eq_ok, pure_eq_ok] at lowered
  obtain ⟨inner, equation, rfl⟩ := lowered
  have same : inner.value scope.clock.dt row = scope.value row formula.equation :=
    value_of_lower equation
  unfold formulaValue
  rw [← same]
  split <;> cases formula.table? <;> rfl

/-- The sum of flows in a row. -/
def flowValue (scope : Scope α) (row : Row α) : List Name → α
  | [] => Scalar.zero
  | first :: rest =>
    rest.foldl (fun sum flow => sum + scope.slotValue row flow) (scope.slotValue row first)

theorem value_sumFlows (flows : List Name) :
    (scope.sumFlows flows).value scope.clock.dt row = scope.flowValue row flows := by
  cases flows with
  | nil => rfl
  | cons first rest =>
    have carried : ∀ (rest : List Name) (sum : Term α),
        (rest.foldl (fun sum flow => .binary .add sum (scope.load flow)) sum).value scope.clock.dt row =
          rest.foldl (fun sum flow => sum + scope.slotValue row flow)
            (sum.value scope.clock.dt row) := by
      intro rest
      induction rest with
      | nil => exact fun _ => rfl
      | cons flow rest ih =>
        intro sum
        rw [List.foldl_cons, ih, List.foldl_cons, Term.value, value_load]
        rfl
    rw [sumFlows, carried, value_load, flowValue]

/-- The value of a stock in the row after one in which its slot has a value. -/
def nextValue (scope : Scope α) (row : Row α) (present : α) (stock : Stock α) : α :=
  let net := scope.flowValue row stock.inflows - scope.flowValue row stock.outflows
  let next := present + net * scope.clock.dt
  if stock.nonNegative then Scalar.maximum next Scalar.zero else next

variable (scope row) in
theorem value_stockUpdate (slot : Nat) (stock : Stock α) :
    (scope.stockUpdate slot stock).value scope.clock.dt row =
      scope.nextValue row (row.get slot) stock := by
  unfold stockUpdate nextValue
  rw [← value_sumFlows, ← value_sumFlows]
  split <;> rfl

/-! ## Equations with terms -/

theorem exists_lowerCall_iff {function : Name} {arguments : List (Equation α)} {terms : List (Term α)}
    (same : terms.length = arguments.length) :
    (∃ term, scope.lowerCall function arguments terms = .ok term) ↔
      Equation.isAdmissible function arguments = true := by
  unfold lowerCall Equation.isAdmissible
  cases Primitive.ofName? function with
  | none => simp
  | some primitive =>
    rcases arguments with _ | ⟨first, _ | ⟨second, _ | ⟨third, _ | ⟨fourth, more⟩⟩⟩⟩ <;>
    rcases terms with _ | ⟨x, _ | ⟨y, _ | ⟨z, _ | ⟨w, others⟩⟩⟩⟩ <;>
    simp only [List.length_nil, List.length_cons] at same <;>
    first
      | omega
      | cases primitive <;> cases first <;> simp [lowerLookup, wrongArguments, Primitive.admits]
      | cases primitive <;> simp [wrongArguments, Primitive.admits]

theorem length_of_lowerAll {equations : List (Equation α)} {terms : List (Term α)}
    (lowered : scope.lowerAll equations = .ok terms) : terms.length = equations.length := by
  induction equations generalizing terms with
  | nil =>
    cases lowered
    rfl
  | cons first rest ih =>
    simp only [lowerAll, bind_eq_ok, pure_eq_ok] at lowered
    obtain ⟨_, -, others, after, rfl⟩ := lowered
    rw [List.length_cons, List.length_cons, ih after]

mutual

/-- An equation has a term exactly if all its calls may be made. -/
theorem exists_lower_iff : ∀ {equation : Equation α},
    (∃ term, scope.lower equation = .ok term) ↔ equation.IsAdmissible
  | .constant _ _ => by simp [lower, Equation.IsAdmissible, Equation.calls]
  | .reference _ => by simp [lower, Equation.IsAdmissible, Equation.calls]
  | .call function arguments => by
    rw [lower, Equation.IsAdmissible, Equation.calls, List.forall_mem_cons, ← exists_lowerAll_iff]
    simp only [bind_eq_ok]
    constructor
    · rintro ⟨_, terms, inner, outer⟩
      exact ⟨(exists_lowerCall_iff (length_of_lowerAll inner)).mp ⟨_, outer⟩, terms, inner⟩
    · rintro ⟨admissible, terms, inner⟩
      obtain ⟨term, outer⟩ := (exists_lowerCall_iff (length_of_lowerAll inner)).mpr admissible
      exact ⟨term, terms, inner, outer⟩
  | .group _ => by
    rw [lower, exists_lower_iff, Equation.IsAdmissible, Equation.IsAdmissible, Equation.calls]
  | .unary .positive _ => by
    rw [lower, exists_lower_iff, Equation.IsAdmissible, Equation.IsAdmissible, Equation.calls]
  | .unary .negative operand => by
    rw [lower, Equation.IsAdmissible, Equation.calls, ← Equation.IsAdmissible, ← exists_lower_iff]
    simp only [exists_bind_eq_ok, exists_pure_eq_ok, and_true]
  | .unary .not operand => by
    rw [lower, Equation.IsAdmissible, Equation.calls, ← Equation.IsAdmissible, ← exists_lower_iff]
    simp only [exists_bind_eq_ok, exists_pure_eq_ok, and_true]
  | .binary _ left right => by
    rw [lower, Equation.IsAdmissible, Equation.calls, List.forall_mem_append, ← Equation.IsAdmissible,
      ← Equation.IsAdmissible, ← exists_lower_iff, ← exists_lower_iff]
    simp only [exists_bind_eq_ok, exists_pure_eq_ok, and_true, exists_and_right]
  | .conditional condition whenTrue whenFalse => by
    rw [lower, Equation.IsAdmissible, Equation.calls, List.forall_mem_append, List.forall_mem_append,
      ← Equation.IsAdmissible, ← Equation.IsAdmissible, ← Equation.IsAdmissible, ← exists_lower_iff,
      ← exists_lower_iff, ← exists_lower_iff]
    simp only [exists_bind_eq_ok, exists_pure_eq_ok, and_true, exists_and_right, and_assoc]

theorem exists_lowerAll_iff : ∀ {equations : List (Equation α)},
    (∃ terms, scope.lowerAll equations = .ok terms) ↔
      ∀ call ∈ Equation.callsAll equations, Equation.isAdmissible call.1 call.2 = true
  | [] => by simp [lowerAll, Equation.callsAll]
  | first :: rest => by
    rw [lowerAll, Equation.callsAll, List.forall_mem_append, ← Equation.IsAdmissible,
      ← exists_lower_iff, ← exists_lowerAll_iff]
    simp only [exists_bind_eq_ok, exists_pure_eq_ok, and_true, exists_and_right]

end

variable (scope) in
theorem exists_formulaTerm_iff {formula : Formula α} :
    (∃ term, scope.formulaTerm formula = .ok term) ↔ formula.equation.IsAdmissible := by
  rw [← scope.exists_lower_iff]
  simp only [formulaTerm, bind_eq_ok, pure_eq_ok]
  constructor
  · rintro ⟨_, term, lowered, -⟩
    exact ⟨term, lowered⟩
  · rintro ⟨term, lowered⟩
    exact ⟨_, term, lowered, rfl⟩

end Scope

end StockFlow
