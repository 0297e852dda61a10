import StockFlow.Proofs.Refusals

/-!
# Interpreting equations

An equation can be computed off its own tree, one name and one call after the other, where each slot and
each point of a table that is needed has to be there. Lowering has a result exactly if every call takes its
arguments, and the term it makes gives in every row what the equation gives there, or nothing where the
equation gives nothing. Reading a term leaves the row as it is.
-/

namespace StockFlow

variable {α : Type} [Scalar α]

namespace Scope

/-! ## Direct reading -/

/-- The value that a name refers to, if the slot that it leads to is there; undefined if it leads to none. -/
def referenceValue? (scope : Scope α) (row : Row α) (name : Name) : Option α :=
  match ClockReference.ofName? name with
  | some .time => row[timeSlot]?
  | some .step => some scope.clock.dt
  | some .start => some scope.clock.start
  | some .stop => some scope.clock.stop
  | none =>
    match scope.slot? name with
    | some slot => row[slot]?
    | none => some Scalar.undefined

/-- The value of a call, of which the arguments have values or none. What is not needed may have none: the
name of a table, and a third argument of `safediv` where the divisor is not zero. -/
def callValue? (scope : Scope α) (row : Row α) (primitive : Primitive)
    (arguments : List (Equation α)) (values : List (Option α)) : Option α :=
  match primitive, arguments, values with
  | .lookup, .reference name :: _, [_, x] => do
    let x ← x
    match scope.table? name with
    | some table => table.height? x
    | none => return Scalar.undefined
  | .elementary function, _, [x] => do
    let x ← x
    return Scalar.elementary function x
  | .infinity, _, [] => some Scalar.infinity
  | .pi, _, [] => some Scalar.pi
  | .maximum, _, [x, y] => do
    let x ← x
    let y ← y
    return Scalar.maximum x y
  | .minimum, _, [x, y] => do
    let x ← x
    let y ← y
    return Scalar.minimum x y
  | .pulse, _, [volume, first] => do
    let time ← row[timeSlot]?
    let volume ← volume
    let first ← first
    return Pulse.height scope.clock.dt time volume first Scalar.zero
  | .pulse, _, [volume, first, interval] => do
    let time ← row[timeSlot]?
    let volume ← volume
    let first ← first
    let interval ← interval
    return Pulse.height scope.clock.dt time volume first interval
  | .safeDivide, _, [x, y] => do
    let x ← x
    let y ← y
    return if Scalar.same y Scalar.zero then Scalar.zero else x / y
  | .safeDivide, _, [x, y, otherwise] => do
    let x ← x
    let y ← y
    if Scalar.same y Scalar.zero then otherwise else return x / y
  | _, _, _ => none

mutual

/-- The value of an equation in a row, read off its tree. Parentheses and a plus sign leave no trace, a minus
sign subtracts from zero, and of a conditional only the chosen branch is read. -/
def value? (scope : Scope α) (row : Row α) : Equation α → Option α
  | .constant _ x => some x
  | .reference name => scope.referenceValue? row name
  | .call function arguments =>
    match Primitive.ofName? function with
    | some primitive => scope.callValue? row primitive arguments (values? scope row arguments)
    | none => none
  | .group inner => value? scope row inner
  | .unary .positive operand => value? scope row operand
  | .unary .negative operand => do
    let x ← value? scope row operand
    return Scalar.zero - x
  | .unary .not operand => do
    let x ← value? scope row operand
    return Scalar.ofBool (!Scalar.isTrue x)
  | .binary operator left right => do
    let x ← value? scope row left
    let y ← value? scope row right
    return operator.apply x y
  | .conditional condition whenTrue whenFalse => do
    let x ← value? scope row condition
    if Scalar.isTrue x then value? scope row whenTrue else value? scope row whenFalse

def values? (scope : Scope α) (row : Row α) : List (Equation α) → List (Option α)
  | [] => []
  | first :: rest => value? scope row first :: values? scope row rest

end

/-! ## Terms of equations -/

variable {scope : Scope α} {row : Row α}

theorem value?_reference (name : Name) :
    (scope.reference name).value? scope.clock.dt row = scope.referenceValue? row name := by
  unfold reference referenceValue?
  cases ClockReference.ofName? name with
  | none =>
    unfold load
    cases scope.slot? name <;> rfl
  | some clock => cases clock <;> rfl

variable (row) in
theorem value?_of_lowerCall {function : Name} {arguments : List (Equation α)} {terms : List (Term α)}
    {term : Term α} (lowered : scope.lowerCall function arguments terms = .ok term) :
    ∃ primitive, Primitive.ofName? function = some primitive ∧ term.value? scope.clock.dt row =
      scope.callValue? row primitive arguments (terms.map (·.value? scope.clock.dt row)) := by
  unfold lowerCall at lowered
  split at lowered
  · cases lowered
  · rename_i primitive found
    refine ⟨primitive, found, ?_⟩
    split at lowered
    · unfold lowerLookup at lowered
      split at lowered
      · cases lowered
        rfl
      · cases lowered
    all_goals cases lowered
    all_goals rfl

mutual

/-- In every row the term of an equation gives what the equation gives. -/
theorem value?_of_lower : ∀ {equation : Equation α} {term : Term α},
    scope.lower equation = .ok term → term.value? scope.clock.dt row = scope.value? row equation
  | .constant _ _, _, lowered => by
    cases lowered
    rfl
  | .reference name, _, lowered => by
    cases lowered
    exact value?_reference name
  | .call _ _, _, lowered => by
    simp only [lower, bind_eq_ok] at lowered
    obtain ⟨terms, inner, outer⟩ := lowered
    obtain ⟨primitive, found, same⟩ := value?_of_lowerCall row outer
    rw [same, values?_of_lowerAll inner, value?, found]
  | .group _, _, lowered => by
    rw [lower] at lowered
    rw [value?, value?_of_lower lowered]
  | .unary .positive _, _, lowered => by
    rw [lower] at lowered
    rw [value?, value?_of_lower lowered]
  | .unary .negative _, _, lowered => by
    simp only [lower, bind_eq_ok, pure_eq_ok] at lowered
    obtain ⟨_, inner, rfl⟩ := lowered
    rw [value?, ← value?_of_lower inner]
    rfl
  | .unary .not _, _, lowered => by
    simp only [lower, bind_eq_ok, pure_eq_ok] at lowered
    obtain ⟨_, inner, rfl⟩ := lowered
    rw [value?, ← value?_of_lower inner]
    rfl
  | .binary _ _ _, _, lowered => by
    simp only [lower, bind_eq_ok, pure_eq_ok] at lowered
    obtain ⟨_, left, _, right, rfl⟩ := lowered
    rw [value?, Term.value?, value?_of_lower left, value?_of_lower right]
  | .conditional _ _ _, _, lowered => by
    simp only [lower, bind_eq_ok, pure_eq_ok] at lowered
    obtain ⟨_, condition, _, whenTrue, _, whenFalse, rfl⟩ := lowered
    rw [value?, Term.value?, value?_of_lower condition, value?_of_lower whenTrue,
      value?_of_lower whenFalse]

theorem values?_of_lowerAll : ∀ {equations : List (Equation α)} {terms : List (Term α)},
    scope.lowerAll equations = .ok terms →
      terms.map (·.value? scope.clock.dt row) = scope.values? row equations
  | [], _, lowered => by
    cases lowered
    rfl
  | _ :: _, _, lowered => by
    simp only [lowerAll, bind_eq_ok, pure_eq_ok] at lowered
    obtain ⟨_, first, _, rest, rfl⟩ := lowered
    rw [values?, List.map_cons, value?_of_lower first, values?_of_lowerAll rest]

end

end Scope

/-! ## Assignments of terms -/

namespace Row

variable {dt : α} {row next : Row α} {a : Assignment α} {program : List (Assignment α)}

theorem assign?_cons : row.assign? dt (a :: program) = (do
    let x ← a.term.value? dt row
    let row ← row.put? a.slot x
    row.assign? dt program) := by
  rw [assign?, List.foldlM_cons]
  exact Option.bind_assoc ..

theorem advance?_cons : row.advance? dt next (a :: program) = (do
    let x ← a.term.value? dt row
    let next ← next.put? a.slot x
    row.advance? dt next program) := by
  rw [advance?, List.foldlM_cons]
  exact Option.bind_assoc ..

end Row

/-! ## Instances -/

namespace Site

/-- For every instance, every equation that calls primitives alone and every row: the equation has a term
exactly if no call has arguments that it does not take, and has the fault of wrong arguments else. The term
gives in the row what the equation gives when it is read off its tree, in a row that may lack a slot and in
one where what is lacking is undefined. To read the term is all that an assignment of it does before it puts
the result into its slot, so that the row is then read on unchanged but for that slot, or altogether. -/
theorem lowering_preserves_meaning (site : Site α) (owner : Name) {equation : Equation α}
    (primitive : ∀ call ∈ equation.calls, isPrimitive call.1 = true) :
    ((∃ term, (site.scope owner).lower equation = .ok term) ↔
      ∀ call ∈ equation.calls, ¬ Equation.IsMisused call.1 call.2) ∧
    (∀ fault, (site.scope owner).lower equation = .error fault →
      fault = .simulation .wrongArguments owner) ∧
    ∀ term, (site.scope owner).lower equation = .ok term → ∀ row : Row α,
      term.value site.clock.dt row = (site.scope owner).value row equation ∧
      term.value? site.clock.dt row = (site.scope owner).value? row equation ∧
      ∀ slot program,
        (row.assign? site.clock.dt (⟨slot, term⟩ :: program) = do
          let x ← (site.scope owner).value? row equation
          let row ← row.put? slot x
          row.assign? site.clock.dt program) ∧
        ∀ next, row.advance? site.clock.dt next (⟨slot, term⟩ :: program) = (do
          let x ← (site.scope owner).value? row equation
          let next ← next.put? slot x
          row.advance? site.clock.dt next program) := by
  refine ⟨?_, fun fault failed => Scope.lower_eq_error primitive failed, fun term lowered row => ?_⟩
  · rw [Scope.exists_lower_iff]
    refine forall₂_congr fun call among => ?_
    rw [Equation.isMisused_iff, not_and, Bool.not_eq_false]
    exact ⟨fun admissible _ => admissible, fun admissible => admissible (primitive call among)⟩
  · have same : term.value? site.clock.dt row = (site.scope owner).value? row equation :=
      Scope.value?_of_lower lowered
    refine ⟨Scope.value_of_lower lowered, same, fun slot program => ?_⟩
    rw [← same]
    exact ⟨Row.assign?_cons, fun _ => Row.advance?_cons⟩

/-- An instance of a model with a curve, a variable and a divisor. -/
def guarded : Site Float where
  wired := ⟨"main", "main", 0, 4, [("curve", 1), ("x", 2), ("y", 3)], [], []⟩
  model := ⟨⟨"main", none, [
    .formula ⟨"curve", "", .reference "time", some ⟨#[(0, 5), (1, 7)]⟩, false, false⟩,
    .formula ⟨"x", "", .constant "2" 2, none, false, false⟩,
    .formula ⟨"y", "", .constant "0" 0, none, false, false⟩], false⟩, [], [], [], []⟩
  clock := ⟨0, 2, 1, 1⟩

/-- A quotient that reads the curve, or a name that leads nowhere, only where the divisor is zero. -/
def guardedQuotient : Equation Float :=
  .call "safediv" [.reference "x", .reference "y",
    .conditional (.binary .gt (.reference "time") (.reference "dt"))
      (.call "lookup" [.reference "curve", .unary .negative (.reference "x")]) (.reference "nowhere")]

theorem lowering_preserves_meaning_guarded :
    (∃ term, (guarded.scope "v").lower guardedQuotient = .ok term ∧
      term.value? guarded.clock.dt #[2, 0, 4, 0] = some 5 ∧
      term.value? guarded.clock.dt #[2, 0, 4, 1] = some 4 ∧
      term.value? guarded.clock.dt #[2, 0, 4] = none) ∧
    ¬ ∃ term, (guarded.scope "v").lower (.call "lookup" [.natural 1, .reference "x"]) = .ok term := by
  constructor
  · have primitive : ∀ call ∈ guardedQuotient.calls, isPrimitive call.1 = true := by decide +kernel
    have admissible : ∀ call ∈ guardedQuotient.calls, Equation.isAdmissible call.1 call.2 = true := by
      decide +kernel
    obtain ⟨lowers, -, means⟩ := lowering_preserves_meaning guarded "v" primitive
    obtain ⟨term, lowered⟩ := lowers.mpr fun call among misused => by
      rw [Equation.isMisused_iff, admissible call among] at misused
      cases misused.2
    refine ⟨term, lowered, ?_, ?_, ?_⟩
    all_goals
      rw [(means term lowered _).2.1]
      decide +kernel
  · have primitive : ∀ call ∈ (Equation.call "lookup" [.natural 1, .reference "x"] : Equation Float).calls,
        isPrimitive call.1 = true := by
      decide +kernel
    rw [(lowering_preserves_meaning guarded "v" primitive).1]
    intro used
    exact used _ List.mem_cons_self (Equation.isMisused_iff.mpr ⟨by decide, by decide⟩)

end Site

end StockFlow
