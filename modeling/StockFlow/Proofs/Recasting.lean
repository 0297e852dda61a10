import StockFlow.Proofs.Relabeling

/-!
# Models under other names

Names in another order put variables into other places, so the variables of a model under new names match
those under the old ones in some order. A model can be built under the new names exactly if it can under
the old ones, since a renaming tells all names apart that were told apart.
-/

namespace StockFlow

variable {α : Type} [Scalar α]

open Name (Renames relabel)

/-! ## Variables -/

namespace Variable

variable {f : Name → Name} {known : Name → Prop} {v w : Variable α}

omit [Scalar α]

theorem Relabels.equation?_eq {f : Name → Name} (relabels : v.Relabels f w) :
    w.equation? = v.equation?.map (Equation.mapReferences f) := by
  cases relabels <;> rfl

theorem Relabels.flows_eq {f : Name → Name} (relabels : v.Relabels f w) : w.flows = v.flows.map f := by
  cases relabels with
  | stock => exact List.map_append.symm
  | formula => rfl
  | module => rfl

theorem Recasts.withEquation (recasts : v.Recasts f known w) {equation other : Equation α}
    (reduces : equation.Reduces f known other) :
    (v.withEquation equation).Reduces f known (w.withEquation other) := by
  obtain ⟨relabels, derives⟩ := recasts
  have derived : ∀ inner, (v.withEquation equation).equation? = some inner → inner = equation := by
    cases v <;> rintro _ ⟨⟩ <;> rfl
  refine ⟨⟨?_, ?_, fun inner own => derived inner own ▸ reduces.derives, ?_, ?_⟩,
    fun inner own => derived inner own ▸ reduces.primitive⟩
  · rw [reduces.relabels]
    cases relabels with
    | stock => exact .stock
    | formula => exact .formula
    | module each => exact .module each
  · rw [name_withEquation]
    exact derives.name
  · cases v <;> exact derives.flows
  · cases v <;> exact derives.module

theorem Recasts.reduces_of_none (recasts : v.Recasts f known w) (none : v.equation? = none) :
    v.Reduces f known w :=
  ⟨recasts, fun equation own => by simp [none] at own⟩

end Variable

/-- Whether a definition that is no module is another one under the names that a renaming of some
identifiers gives. -/
structure Document.Variable.Recasts (f : Name → Name) (known : Name → Prop)
    (definition other : Document.Variable α) : Prop where
  renames : definition.Renames (relabel f) other
  spells : ∀ name ∈ definition.mentions, Name.Spells known name
  own : known definition.name

namespace Model

/-- What declarations come to: each is checked, all names differ, and the variables are put in order. -/
theorem foldlM_declare_eq_ok {vars result : List (Variable α)} {definitions : List (Document.Variable α)}
    (ascending : Ascending Variable.name vars) : definitions.foldlM declare vars = .ok result ↔
      Ascending Variable.name result ∧ ∃ checked, definitions.mapM Variable.ofDefinition = .ok checked ∧
        result.Perm (vars ++ checked) := by
  rw [foldlM_insertNamed?_eq_ok (fun vars definition result _ => declare_eq_ok_iff vars definition result)
    ascending]
  simp only [mapM_eq_ok, checkDefinition, attribute_eq_ok]

theorem exists_foldlM_declare_iff {vars : List (Variable α)} {definitions : List (Document.Variable α)}
    (ascending : Ascending Variable.name vars) : (∃ result, definitions.foldlM declare vars = .ok result) ↔
      ∃ checked, definitions.mapM Variable.ofDefinition = .ok checked ∧
        ((vars ++ checked).map Variable.name).Nodup := by
  constructor
  · rintro ⟨result, folded⟩
    obtain ⟨ordered, checked, each, shuffled⟩ := (foldlM_declare_eq_ok ascending).mp folded
    exact ⟨checked, each, (shuffled.map Variable.name).nodup_iff.mp ordered.distinct⟩
  · rintro ⟨checked, each, distinct⟩
    rw [mapM_eq_ok] at each
    have names : checked.map Variable.name = definitions.map fun definition =>
        Name.canonical definition.name :=
      map_eq_of_forall₂ each fun _ _ one => Variable.name_of_ofDefinition one
    rw [List.map_append, List.nodup_append, names] at distinct
    refine (exists_declared_iff ascending).mpr ⟨fun definition member => ?_, distinct.2.1, ?_⟩
    · obtain ⟨v, -, one⟩ := exists_right_of_mem each member
      exact ⟨v, one⟩
    · exact fun v member definition listed =>
        distinct.2.2 _ (List.mem_map_of_mem member) _ (List.mem_map_of_mem listed)

variable {f : Name → Name} {known : Name → Prop} (renames : Renames f known)

section

omit [Scalar α]
include renames

theorem nodup_names_iff {vars vars' : List (Variable α)} (both : Matches (Variable.Recasts f known) vars vars') :
    (vars.map Variable.name).Nodup ↔ (vars'.map Variable.name).Nodup := by
  refine Matches.nodup_iff (g := relabel f) (both.map fun v w recasts => recasts.relabels.name_eq) ?_
  intro name member other member' same
  obtain ⟨v, inside, rfl⟩ := List.mem_map.mp member
  obtain ⟨w, inside', rfl⟩ := List.mem_map.mp member'
  obtain ⟨_, -, one⟩ := both.exists_right inside
  obtain ⟨_, -, two⟩ := both.exists_right inside'
  exact one.derives.name.relabel_inj two.derives.name renames same

end

include renames

/-- Definitions that are checked to the same variables but for their names can be declared beside such
variables or not, and come to such variables. -/
theorem agree_foldlM_declare {related : Variable α → Variable α → Prop}
    (recasts : ∀ v w, related v w → v.Recasts f known w)
    {corresponds : Document.Variable α → Document.Variable α → Prop}
    (checks : ∀ definition other, corresponds definition other →
      Agree related (Variable.ofDefinition definition) (Variable.ofDefinition other))
    {vars vars' : List (Variable α)} (ascending : Ascending Variable.name vars)
    (ascending' : Ascending Variable.name vars') (both : Matches related vars vars')
    {definitions others : List (Document.Variable α)} (each : Matches corresponds definitions others) :
    Agree (Matches related) (definitions.foldlM declare vars) (others.foldlM declare vars') := by
  have checked := each.agree_mapM checks
  refine .of_exists_iff ?_ fun result result' done done' => ?_
  · rw [exists_foldlM_declare_iff ascending, exists_foldlM_declare_iff ascending']
    generalize definitions.mapM Variable.ofDefinition = x, others.mapM Variable.ofDefinition = y at checked
    cases checked with
    | error => simp
    | ok matched =>
      simp only [Except.ok.injEq, exists_eq_left']
      exact nodup_names_iff renames ((both.append matched).mono recasts)
  · obtain ⟨-, checked₁, one, shuffled⟩ := (foldlM_declare_eq_ok ascending).mp done
    obtain ⟨-, checked₂, two, shuffled'⟩ := (foldlM_declare_eq_ok ascending').mp done'
    exact (both.append (checked.of_ok one two)).perm shuffled shuffled'.symm

omit [Scalar α] in
/-- What expansion leaves of a variable and makes for its calls is under new names the same, but for the
names. -/
theorem agree_expandVariable_of_recasts {v w : Variable α} (recasts : v.Recasts f known w)
    (here : known v.name) :
    Agree (fun expanded other => expanded.1.Reduces f known other.1 ∧
        List.Forall₂ (Expansion.Recasts f known) expanded.2 other.2)
      (expandVariable v) (expandVariable w) := by
  unfold expandVariable
  rw [recasts.relabels.equation?_eq, recasts.relabels.name_eq, renames.relabel_own here]
  cases own : v.equation? with
  | none => exact .ok ⟨recasts.reduces_of_none own, .nil⟩
  | some equation =>
    have derives := recasts.derives.equation equation own
    refine (Fault.agree_attribute (Expansion.agree_expand_of_relabels renames here derives) _ _).bind ?_
    exact fun expanded expanded' relates => .ok ⟨recasts.withEquation relates.result, relates.made⟩

omit renames in
theorem ascending_of_desugar {definitions : List (Document.Variable α)} {vars : List (Variable α)}
    (done : desugar definitions = .ok vars) : Ascending Variable.name vars := by
  obtain ⟨declared, first, rest⟩ := bind_eq_ok.mp done
  obtain ⟨expanded, each, second⟩ := bind_eq_ok.mp rest
  have ordered := ascending_of_expanded (mapM_eq_ok.mp each) (Model.declared first .nil).1
  exact (Model.declared second ordered).1

theorem agree_desugar_of_recasts {definitions others : List (Document.Variable α)}
    (each : List.Forall₂ (Document.Variable.Recasts f known) definitions others) :
    Agree (Matches (Variable.Reduces f known)) (desugar definitions) (desugar others) := by
  have checks : ∀ definition other : Document.Variable α, definition.Recasts f known other →
      Agree (fun v w => v.Recasts f known w ∧ known v.name) (Variable.ofDefinition definition)
        (Variable.ofDefinition other) := by
    intro definition other recasts
    refine (Variable.agree_ofDefinition_of_renames renames recasts.renames recasts.spells).mono ?_
    intro v w checked _ both
    refine ⟨both, ?_⟩
    rw [Variable.name_of_ofDefinition checked, (renames.identifier _ recasts.own).isTame.canonical_eq]
    exact recasts.own
  refine (agree_foldlM_declare renames (fun _ _ => And.left) checks .nil .nil (.of_forall₂ .nil)
    (.of_forall₂ each)).with_both.bind ?_
  rintro declared declared' ⟨done, done', both⟩
  refine (both.agree_mapM fun v w recasts => agree_expandVariable_of_recasts renames recasts.1
    recasts.2).with_both.bind ?_
  rintro expanded expanded' ⟨all, all', both⟩
  refine agree_foldlM_declare renames (fun _ _ => Variable.Reduces.toRecasts)
    (fun _ _ => Variable.agree_ofDefinition_of_recasts renames) ?_ ?_ (both.map fun _ _ => And.left)
      (both.flatMap fun _ _ => And.right)
  · exact ascending_of_expanded (mapM_eq_ok.mp all) (Model.declared done .nil).1
  · exact ascending_of_expanded (mapM_eq_ok.mp all') (Model.declared done' .nil).1

end Model

/-- Whether a model has the variables of another one under the names that a renaming of some identifiers
gives. -/
structure Model.Recasts (f : Name → Name) (known : Name → Prop) (model other : Model α) : Prop where
  name : other.name = model.name
  timeSpec? : other.timeSpec? = model.timeSpec?
  vars : Matches (Variable.Reduces f known) model.vars other.vars
  ordered : Ascending Variable.name model.vars
  ordered' : Ascending Variable.name other.vars

namespace Model

variable {f : Name → Name} {known : Name → Prop} (renames : Renames f known)
include renames

omit [Scalar α] in
theorem Recasts.rel_find? {model other : Model α} (recasts : model.Recasts f known other) {name : Name}
    (derives : Name.Derives known name) : Option.Rel (Variable.Reduces f known) (model.find? name)
      (other.find? (relabel f name)) := by
  refine recasts.vars.rel_findNamed recasts.ordered'.distinct fun v _ w reduces => ?_
  rw [reduces.relabels.name_eq]
  exact ⟨congrArg (relabel f), reduces.derives.name.relabel_inj derives renames⟩

omit [Scalar α] in
theorem Recasts.checkFlows_iff {model other : Model α} (recasts : model.Recasts f known other) :
    checkFlows model.vars = .ok () ↔ checkFlows other.vars = .ok () := by
  rw [checkFlows_eq_ok, checkFlows_eq_ok]
  refine recasts.vars.forall_iff fun v _ w reduces => ?_
  rw [reduces.relabels.flows_eq, List.forall_mem_map]
  refine forall₂_congr fun flow flowing => ?_
  have both : Option.Rel _ (findNamed Variable.name flow model.vars)
      (findNamed Variable.name (relabel f flow) other.vars) :=
    recasts.rel_find? renames (reduces.derives.flows flow flowing)
  generalize findNamed Variable.name flow model.vars = found,
    findNamed Variable.name (relabel f flow) other.vars = found' at both
  cases both <;> simp

/-- A model can be built under new names exactly if it can under the old ones. -/
theorem agree_build_of_recasts {document other : Document.Model α} (named : other.name = document.name)
    (timeSpec? : other.timeSpec? = document.timeSpec?)
    (each : List.Forall₂ (Document.Variable.Recasts f known) document.definitions other.definitions)
    (implicit : Bool) :
    Agree (Recasts f known) (build document implicit) (build other implicit) := by
  rw [build_eq, build_eq]
  refine (agree_desugar_of_recasts renames each).with_both.bind ?_
  rintro vars vars' ⟨done, done', both⟩
  have recasts : Recasts f known ⟨document.name, document.timeSpec?, vars, implicit⟩
      ⟨other.name, other.timeSpec?, vars', implicit⟩ :=
    ⟨named, timeSpec?, both, ascending_of_desugar done, ascending_of_desugar done'⟩
  have flows : Agree (fun _ _ => True) (checkFlows vars) (checkFlows vars') := by
    refine .of_exists_iff ?_ fun _ _ _ _ => trivial
    exact ⟨fun ⟨_, checked⟩ => ⟨(), (recasts.checkFlows_iff renames).mp checked⟩,
      fun ⟨_, checked⟩ => ⟨(), (recasts.checkFlows_iff renames).mpr checked⟩⟩
  exact flows.bind fun _ _ _ => .ok recasts

end Model

end StockFlow
