import StockFlow.Proofs.Linking
import StockFlow.Proofs.Lowering

/-!
# Renamed variables

A checked variable can be written down again under another name and with other names in its equation
and flows: the definition is checked to that variable. The points of its table make the same table.
-/

namespace StockFlow

variable {α : Type}

/-! ## Tables as graphical functions -/

namespace Table

def graph (table : Table α) : GraphicalFunction α :=
  ⟨some (table.points.toList.map Prod.fst), table.points.toList.map Prod.snd, none⟩

variable [Scalar α]

/-- What the positions and heights of a table have passed. -/
theorem build_eq_ok {given : GraphicalFunction α} {table : Table α} : build given = .ok table ↔
    ∃ xs, positions? given = some xs ∧ xs ≠ [] ∧ xs.length = given.yPoints.length ∧
      (∀ x ∈ xs ++ given.yPoints, Scalar.isFinite x = true) ∧ decreases xs = false ∧
      table = ⟨(xs.zip given.yPoints).toArray⟩ := by
  have all : ∀ xs : List α, xs.any (!Scalar.isFinite ·) = false ↔ ∀ x ∈ xs, Scalar.isFinite x = true := by
    simp
  constructor
  · intro built
    unfold build at built
    split at built
    · cases built
    rename_i xs found
    dsimp only at built
    split at built
    · cases built
    rename_i nonempty
    split at built
    · cases built
    rename_i matched
    split at built
    · cases built
    rename_i finite
    split at built
    · cases built
    rename_i ordered
    cases built
    exact ⟨xs, found, by simpa using nonempty, not_not.mp matched,
      (all _).mp (Bool.eq_false_iff.mpr finite), Bool.eq_false_iff.mpr ordered, rfl⟩
  · rintro ⟨xs, found, nonempty, matched, finite, ordered, rfl⟩
    simp only [build, found, List.isEmpty_eq_false_iff.mpr nonempty, matched, (all _).mpr finite,
      ordered, ne_eq, not_true_eq_false, Bool.false_eq_true, if_false]

/-- A table that was made can be made again from its points. -/
theorem build_graph {given : GraphicalFunction α} {table : Table α} (built : build given = .ok table) :
    build table.graph = .ok table := by
  obtain ⟨xs, -, nonempty, matched, finite, ordered, rfl⟩ := build_eq_ok.mp built
  have first : (xs.zip given.yPoints).map Prod.fst = xs := List.map_fst_zip (Nat.le_of_eq matched)
  have second : (xs.zip given.yPoints).map Prod.snd = given.yPoints :=
    List.map_snd_zip (Nat.le_of_eq matched.symm)
  refine build_eq_ok.mpr ⟨xs, ?_, nonempty, ?_, ?_, ordered, ?_⟩
  · rw [positions?, graph, first]
  · rw [graph, second, matched]
  · rwa [graph, second]
  · rw [graph, second]

end Table

/-! ## Variables under other names -/

namespace Variable

/-- A variable that is no module under a new name, with new names for those in it. -/
def renamed (f : Name → Name) (name : Name) : Variable α → Variable α
  | stock s => stock ⟨name, s.text, s.initial.mapNames f, s.inflows.map f, s.outflows.map f,
    s.nonNegative⟩
  | formula v => formula ⟨name, v.text, v.equation.mapNames f, v.table?, v.isFlow,
    v.isFlow && v.nonNegative⟩
  | module m => module m

/-- The definition of a variable under new names; none of a module. -/
def definition? (f : Name → Name) (name : Name) : Variable α → Option (Document.Variable α)
  | stock s => some (.stock ⟨name, s.text, some (s.initial.mapNames f), s.inflows.map f,
    s.outflows.map f, s.nonNegative⟩)
  | formula v =>
    if v.isFlow then
      some (.flow ⟨name, v.text, some (v.equation.mapNames f), v.table?.map Table.graph,
        v.nonNegative⟩)
    else some (.auxiliary ⟨name, v.text, some (v.equation.mapNames f), v.table?.map Table.graph⟩)
  | module _ => none

/-- Whether all names that a variable mentions are canonical once they are renamed. -/
structure MentionsCanonical (f : Name → Name) (v : Variable α) : Prop where
  references : ∀ equation, v.equation? = some equation → ∀ name ∈ equation.references,
    Name.canonical (f name) = f name
  functions : ∀ equation, v.equation? = some equation → ∀ call ∈ equation.calls,
    Name.canonical (f call.1) = f call.1
  flows : ∀ flow ∈ v.flows, Name.canonical (f flow) = f flow

variable {f : Name → Name} {name : Name} {v : Variable α}

theorem name_renamed (own : v.isModule = false) : (v.renamed f name).name = name := by
  cases v with
  | stock | formula => rfl
  | module => cases own

theorem name_definition? {definition : Document.Variable α}
    (written : v.definition? f name = some definition) : definition.name = name := by
  cases v with
  | stock =>
    cases written
    rfl
  | formula v =>
    simp only [definition?] at written
    split at written <;> cases written <;> rfl
  | module => cases written

theorem isModule_renamed : (v.renamed f name).isModule = v.isModule := by
  cases v <;> rfl

theorem equation?_renamed :
    (v.renamed f name).equation? = v.equation?.map (Equation.mapNames f) := by
  cases v <;> rfl

theorem flows_renamed : (v.renamed f name).flows = v.flows.map f := by
  cases v <;> simp [renamed, flows]

theorem mapNames_canonical {equation : Equation α} (references : ∀ name ∈ equation.references,
    Name.canonical (f name) = f name) (functions : ∀ call ∈ equation.calls,
      Name.canonical (f call.1) = f call.1) :
    (equation.mapNames f).mapNames Name.canonical = equation.mapNames f := by
  rw [Equation.mapNames_mapNames]
  exact Equation.mapNames_congr references functions

variable [Scalar α]

/-- What is written down for a variable is checked to the variable under its new names. -/
theorem ofDefinition_renamed (canonical : Name.canonical name = name) (mentions : MentionsCanonical f v)
    (tables : ∀ table, v.table? = some table → Table.build table.graph = .ok table)
    {definition : Document.Variable α} (written : v.definition? f name = some definition) :
    ofDefinition definition = .ok (v.renamed f name) := by
  have flows : ∀ flows ⊆ v.flows, (flows.map f).map Name.canonical = flows.map f := by
    intro flows among
    rw [List.map_map]
    exact List.map_congr_left fun flow member => mentions.flows flow (among member)
  cases v with
  | stock s =>
    have same := mapNames_canonical (mentions.references s.initial rfl) (mentions.functions s.initial rfl)
    have inflows := flows s.inflows (List.subset_append_left ..)
    have outflows := flows s.outflows (List.subset_append_right ..)
    cases written
    refine bind_eq_ok.mpr ⟨s.initial.mapNames f, by rw [readEquation, same], ?_⟩
    simp only [canonical, inflows, outflows]
    rfl
  | formula v =>
    have same := mapNames_canonical (mentions.references v.equation rfl)
      (mentions.functions v.equation rfl)
    have table : readTable (v.table?.map Table.graph) = v.table? := by
      cases found : v.table? with
      | none => rfl
      | some table =>
        have built := tables table found
        simp [readTable, built, Except.toOption]
    have read : ∀ {owner : Name} {table? : Option (Table α)},
        readFormula owner (some (v.equation.mapNames f)) v.text table? =
          .ok (v.equation.mapNames f) := by
      intro owner table?
      rw [readFormula, Option.isNone_some, Bool.and_false, Bool.false_and, if_neg Bool.false_ne_true,
        readEquation, same]
    simp only [definition?] at written
    split at written
    · rename_i isFlow
      cases written
      refine bind_eq_ok.mpr ⟨v.equation.mapNames f, read, ?_⟩
      simp only [canonical, table, renamed, isFlow, Bool.true_and]
      rfl
    · rename_i isFlow
      cases written
      refine bind_eq_ok.mpr ⟨v.equation.mapNames f, read, ?_⟩
      simp only [canonical, table, renamed, Bool.eq_false_iff.mpr isFlow, Bool.false_and]
      rfl
  | module => cases written

/-! ## Where tables come from -/

theorem table_of_ofDefinition {definition : Document.Variable α} (checked : ofDefinition definition = .ok v)
    {table : Table α} (found : v.table? = some table) : Table.build table.graph = .ok table := by
  have made : ∀ {graph? : Option (GraphicalFunction α)}, readTable graph? = some table →
      Table.build table.graph = .ok table := by
    intro graph? read
    obtain ⟨graph, -, built⟩ := Option.bind_eq_some_iff.mp read
    exact Table.build_graph (toOption_eq_some.mp built)
  cases definition with
  | stock | module =>
    obtain ⟨_, -, checked⟩ := bind_eq_ok.mp checked
    obtain rfl := pure_eq_ok.mp checked
    cases found
  | flow | auxiliary =>
    obtain ⟨_, -, checked⟩ := bind_eq_ok.mp checked
    obtain rfl := pure_eq_ok.mp checked
    exact made found

omit [Scalar α] in
theorem table_of_expandVariable {v u : Variable α} {made : List (Document.Variable α)}
    (expanded : Model.expandVariable v = .ok (u, made)) : u.table? = v.table? := by
  rcases Model.withEquation_of_expandVariable expanded with rfl | ⟨equation, rfl⟩
  · rfl
  · cases v <;> rfl

end Variable

theorem Model.table_of_build [Scalar α] {document : Document.Model α} {implicit : Bool} {model : Model α}
    (built : build document implicit = .ok model) {v : Variable α} (member : v ∈ model.vars)
    {table : Table α} (found : v.table? = some table) : Table.build table.graph = .ok table := by
  obtain ⟨_, -, w, u, made, checked, one, rfl | ⟨_, -, other⟩⟩ := origin_of_build built member
  · rw [Variable.table_of_expandVariable one] at found
    exact Variable.table_of_ofDefinition checked found
  · exact Variable.table_of_ofDefinition other found

/-- The table of each variable of a compiled project can be made again from its points. -/
theorem Project.table_of_compile [Scalar α] {document : Document.Project α} {project : Project α}
    (compiled : compile document = .ok project) {name : Name} {model : LinkedModel α}
    (found : project.find? name = some model) {v : Variable α} (member : v ∈ model.vars)
    {table : Table α} (own : v.table? = some table) : Table.build table.graph = .ok table := by
  rcases (isLinked_of_compile compiled found).2 with ⟨_, -, built⟩ | ⟨_, built⟩
  · exact Model.table_of_build built member own
  · exact Model.table_of_build built member own

/-! ## Values under other names -/

namespace Scope

variable [Scalar α]

/-- Whether the names that a variable mentions lead to the same values and tables once they are
renamed, in another scope and row. -/
structure Carries (scope other : Scope α) (row next : Row α) (f : Name → Name) (v : Variable α) :
    Prop where
  clock : other.clock = scope.clock
  time : next.time = row.time
  references : ∀ equation, v.equation? = some equation → ∀ name ∈ equation.references,
    other.referenceValue next (f name) = scope.referenceValue row name
  calls : ∀ equation, v.equation? = some equation → ∀ call ∈ equation.calls,
    f call.1 = call.1 ∧ ∀ name, Equation.lookedUp? call.1 call.2 = some name →
      other.table? (f name) = scope.table? name
  flows : ∀ flow ∈ v.flows, other.slotValue next (f flow) = scope.slotValue row flow

variable {scope other : Scope α} {row next : Row α} {f : Name → Name}

theorem Carries.value {v : Variable α} (carries : Carries scope other row next f v)
    {equation : Equation α} (own : v.equation? = some equation) :
    other.value next (equation.mapNames f) = scope.value row equation :=
  value_mapNames carries.clock carries.time (carries.references equation own)
    (carries.calls equation own)

theorem Carries.formulaValue {formula : Formula α} {name : Name}
    (carries : Carries scope other row next f (.formula formula)) :
    other.formulaValue next ⟨name, formula.text, formula.equation.mapNames f, formula.table?,
      formula.isFlow, formula.isFlow && formula.nonNegative⟩ = scope.formulaValue row formula := by
  have same := carries.value rfl
  simp only [Scope.formulaValue, same, ← Bool.and_assoc, Bool.and_self]

theorem flowValue_map {flows : List Name} (same : ∀ flow ∈ flows,
    other.slotValue next (f flow) = scope.slotValue row flow) :
    other.flowValue next (flows.map f) = scope.flowValue row flows := by
  cases flows with
  | nil => rfl
  | cons first rest =>
    obtain ⟨here, others⟩ := List.forall_mem_cons.mp same
    rw [List.map_cons, flowValue, flowValue, List.foldl_map, here]
    exact List.foldl_ext _ _ _ fun sum flow member => by rw [others flow member]

theorem Carries.nextValue {stock : Stock α} {name : Name}
    (carries : Carries scope other row next f (.stock stock)) (present : α) :
    other.nextValue next present ⟨name, stock.text, stock.initial.mapNames f, stock.inflows.map f,
      stock.outflows.map f, stock.nonNegative⟩ = scope.nextValue row present stock := by
  obtain ⟨inflows, outflows⟩ := List.forall_mem_append.mp carries.flows
  simp only [Scope.nextValue, flowValue_map inflows, flowValue_map outflows, carries.clock]

end Scope

end StockFlow
