import StockFlow.Proofs.Program
import StockFlow.Proofs.Resolution

/-!
# What equations read

The variables that an equation refers to, which of them its declared names hold, and that its term
reads no other slots than theirs.
-/

namespace StockFlow

variable {α : Type}

/-! ## References -/

namespace Equation

mutual

/-- The names that an equation refers to, from left to right; in a look-up that of the table too. -/
def references : Equation α → List Name
  | constant _ _ => []
  | reference name => [name]
  | call _ arguments => referencesAll arguments
  | group inner => references inner
  | unary _ operand => references operand
  | binary _ left right => references left ++ references right
  | conditional condition whenTrue whenFalse =>
    references condition ++ references whenTrue ++ references whenFalse

/-- The names that a list of equations refers to. -/
def referencesAll : List (Equation α) → List Name
  | [] => []
  | first :: rest => references first ++ referencesAll rest

end

mutual

theorem mem_declared_of_references {name : Name} (unreserved : isReserved name = false) :
    ∀ {equation : Equation α}, name ∈ equation.references → name ∈ equation.declared
  | .constant _ _, member => by cases member
  | .reference _, member => by
    obtain rfl := List.mem_singleton.mp member
    simp [declared, unreserved]
  | .call _ _, member => by
    exact List.mem_append_right _ (mem_declaredAll_of_references unreserved member)
  | .group _, member => by
    rw [references] at member
    rw [declared]
    exact mem_declared_of_references unreserved member
  | .unary _ _, member => by
    rw [references] at member
    rw [declared]
    exact mem_declared_of_references unreserved member
  | .binary _ left right, member => by
    simp only [references, declared, List.mem_append] at member ⊢
    exact member.imp (mem_declared_of_references unreserved) (mem_declared_of_references unreserved)
  | .conditional _ _ _, member => by
    simp only [references, declared, List.mem_append] at member ⊢
    exact member.imp
      (Or.imp (mem_declared_of_references unreserved) (mem_declared_of_references unreserved))
      (mem_declared_of_references unreserved)

theorem mem_declaredAll_of_references {name : Name} (unreserved : isReserved name = false) :
    ∀ {equations : List (Equation α)}, name ∈ referencesAll equations → name ∈ declaredAll equations
  | [], member => by cases member
  | _ :: _, member => by
    simp only [referencesAll, declaredAll, List.mem_append] at member ⊢
    exact member.imp (mem_declared_of_references unreserved)
      (mem_declaredAll_of_references unreserved)

end

/-- An equation declares the names that it refers to, but for reserved ones. -/
theorem mem_names_of_references {name : Name} {equation : Equation α}
    (member : name ∈ equation.references) (unreserved : isReserved name = false) :
    name ∈ equation.names :=
  NameSet.mem_ofList.mpr (mem_declared_of_references unreserved member)

end Equation

theorem Variable.sources_of_equation? {v : Variable α} {equation : Equation α}
    (own : v.equation? = some equation) : v.sources = equation.names := by
  cases v <;> cases own <;> rfl

/-! ## Slots -/

namespace Scope

variable [Scalar α] {scope : Scope α}

/-- Whether a slot is that of the time or one of the slots that some names refer to. -/
def Refers (scope : Scope α) (names : List Name) (slot : Nat) : Prop :=
  slot = timeSlot ∨
    ∃ name ∈ names, ClockReference.ofName? name = none ∧ scope.slot? name = some slot

omit [Scalar α] in
theorem Refers.mono {names more : List Name} {slot : Nat} (refers : scope.Refers names slot)
    (wider : names ⊆ more) : scope.Refers more slot :=
  refers.imp_right fun ⟨name, member, rest⟩ => ⟨name, wider member, rest⟩

theorem refers_of_reference {name : Name} :
    ∀ slot ∈ (scope.reference name).reads, scope.Refers [name] slot := by
  intro slot read
  unfold reference at read
  split at read
  · exact .inl (List.mem_singleton.mp read)
  · cases read
  · cases read
  · cases read
  · rename_i unreserved
    unfold load loadSlot at read
    split at read
    · rename_i found
      exact .inr ⟨name, List.mem_singleton_self _, unreserved, List.mem_singleton.mp read ▸ found⟩
    · cases read

theorem reads_of_lowerCall {function : Name} {arguments : List (Equation α)} {terms : List (Term α)}
    {term : Term α} (lowered : scope.lowerCall function arguments terms = .ok term) :
    ∀ slot ∈ term.reads, slot = timeSlot ∨ ∃ argument ∈ terms, slot ∈ argument.reads := by
  unfold lowerCall at lowered
  split at lowered
  · cases lowered
  · split at lowered
    · unfold lowerLookup at lowered
      split at lowered
      · cases lowered
        grind [Term.reads]
      · cases lowered
    all_goals cases lowered
    all_goals grind [Term.reads]

mutual

theorem refers_of_lower : ∀ {equation : Equation α} {term : Term α},
    scope.lower equation = .ok term →
      ∀ slot ∈ term.reads, scope.Refers equation.references slot
  | .constant _ _, _, lowered => by
    cases lowered
    simp [Term.reads]
  | .reference _, _, lowered => by
    cases lowered
    exact refers_of_reference
  | .call _ _, _, lowered => by
    simp only [lower, bind_eq_ok] at lowered
    obtain ⟨terms, inner, outer⟩ := lowered
    intro slot read
    rcases reads_of_lowerCall outer slot read with time | ⟨argument, member, read⟩
    · exact .inl time
    · exact refers_of_lowerAll inner argument member slot read
  | .group _, _, lowered => by
    rw [lower] at lowered
    rw [Equation.references]
    exact refers_of_lower lowered
  | .unary .positive _, _, lowered => by
    rw [lower] at lowered
    rw [Equation.references]
    exact refers_of_lower lowered
  | .unary .negative _, _, lowered => by
    simp only [lower, bind_eq_ok, pure_eq_ok] at lowered
    obtain ⟨_, inner, rfl⟩ := lowered
    intro slot read
    rw [Equation.references]
    exact refers_of_lower inner slot (by simpa [Term.reads] using read)
  | .unary .not _, _, lowered => by
    simp only [lower, bind_eq_ok, pure_eq_ok] at lowered
    obtain ⟨_, inner, rfl⟩ := lowered
    intro slot read
    rw [Equation.references]
    exact refers_of_lower inner slot (by simpa [Term.reads] using read)
  | .binary _ _ _, _, lowered => by
    simp only [lower, bind_eq_ok, pure_eq_ok] at lowered
    obtain ⟨_, left, _, right, rfl⟩ := lowered
    intro slot read
    rcases List.mem_append.mp read with read | read
    · exact (refers_of_lower left slot read).mono (List.subset_append_left ..)
    · exact (refers_of_lower right slot read).mono (List.subset_append_right ..)
  | .conditional _ _ _, _, lowered => by
    simp only [lower, bind_eq_ok, pure_eq_ok] at lowered
    obtain ⟨_, condition, _, whenTrue, _, whenFalse, rfl⟩ := lowered
    intro slot read
    simp only [Term.reads, List.mem_append] at read
    rcases read with (read | read) | read
    · exact (refers_of_lower condition slot read).mono (by simp [Equation.references])
    · exact (refers_of_lower whenTrue slot read).mono (by simp [Equation.references])
    · exact (refers_of_lower whenFalse slot read).mono (by simp [Equation.references])

theorem refers_of_lowerAll : ∀ {equations : List (Equation α)} {terms : List (Term α)},
    scope.lowerAll equations = .ok terms → ∀ term ∈ terms, ∀ slot ∈ term.reads,
      scope.Refers (Equation.referencesAll equations) slot
  | [], _, lowered => by
    cases lowered
    simp
  | _ :: _, _, lowered => by
    simp only [lowerAll, bind_eq_ok, pure_eq_ok] at lowered
    obtain ⟨_, first, _, rest, rfl⟩ := lowered
    intro term member slot read
    rcases List.mem_cons.mp member with rfl | member
    · exact (refers_of_lower first slot read).mono (List.subset_append_left ..)
    · exact (refers_of_lowerAll rest term member slot read).mono (List.subset_append_right ..)

end

/-- The term of a formula reads what its equation refers to. -/
theorem refers_of_formulaTerm {formula : Formula α} {term : Term α}
    (lowered : scope.formulaTerm formula = .ok term) :
    ∀ slot ∈ term.reads, scope.Refers formula.equation.references slot := by
  simp only [formulaTerm, bind_eq_ok, pure_eq_ok] at lowered
  obtain ⟨inner, equation, rfl⟩ := lowered
  intro slot read
  refine refers_of_lower equation slot ?_
  split at read <;> cases table : formula.table? <;>
    simpa [table, Term.reads, Term.nonNegative] using read

end Scope

/-! ## References in time -/

namespace Coded

variable [Scalar α] {project : Project α} {clock : Clock α} {root node : Coded α}
  {model : LinkedModel α} {slot : Nat}

/-- The scope of an equation in an instance. -/
def scope (node : Coded α) (model : LinkedModel α) (clock : Clock α) (owner : Name) : Scope α :=
  ⟨owner, node.slot?, fun name => (model.find? name).bind Variable.table?, clock⟩

omit [Scalar α] in
theorem scope_of_shape {wired : Wired} (same : wired.shape = node.shape) (owner : Name) :
    Site.scope ⟨wired, model, clock⟩ owner = node.scope model clock owner := by
  unfold Site.scope scope
  rw [funext (Instance.slot?_eq_of_shape same)]

theorem Made.slot?_primitive (plain : project.HasPlainNames)
    (made : Made project clock root node) {name : Name} (primitive : isPrimitive name = true) :
    node.slot? name = none := by
  cases made with
  | @intro _ first model fits below =>
  obtain ⟨entry, member, rfl⟩ := mem_names_of_isPrimitive primitive
  obtain ⟨named, undotted, notTime⟩ : entry.1 ≠ "" ∧ ¬ Path.IsDotted entry.1 ∧ entry.1 ≠ "time" := by
    revert entry
    decide
  refine Option.eq_none_iff_forall_ne_some.mpr fun slot leads => ?_
  have headed := Path.head_of_not_dotted undotted
  rw [Instance.slot?_eq, if_neg notTime, Path.unmarked_of_head (headed.symm ▸ named)] at leads
  obtain ⟨v, declared, same⟩ := fits.exists_head (plain fits.found) named leads
  have unclaimed := (plain fits.found v declared).2.2
  rw [same, headed, primitive] at unclaimed
  cases unclaimed

/-- What the equation of a variable refers to is known in time. -/
theorem Made.foreseen_of_refers (consistent : project.Consistent) (plain : project.HasPlainNames)
    (made : Made project clock root node) (found : project.find? node.model = some model)
    {moment : Moment} {v : Variable α} (member : v ∈ model.vars)
    (computed : moment = .step → v.isStock = false) {equation : Equation α}
    (own : v.equation? = some equation) {owner : Name}
    (refers : (node.scope model clock owner).Refers equation.references slot) :
    Foreseen project moment (model.dependencies moment) node v.name slot := by
  rcases refers with time | ⟨name, among, notClock, leads⟩
  · exact .inl time
  · have unreserved : isReserved name = false := by
      refine Bool.eq_false_iff.mpr fun reserved => ?_
      rcases Bool.or_eq_true_iff.mp reserved with primitive | isClock
      · cases (made.slot?_primitive plain primitive).symm.trans leads
      · rw [notClock] at isClock
        cases isClock
    exact made.foreseen_of_slot? consistent plain found member computed
      (Variable.sources_of_equation? own ▸ Equation.mem_names_of_references among unreserved) leads

end Coded
end StockFlow
