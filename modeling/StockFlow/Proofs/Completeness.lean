import Mathlib.Data.Finset.Card
import Mathlib.Logic.Relation
import StockFlow.Number.Double
import StockFlow.Proofs.Reading

/-!
# Complete dependencies

The set of a variable holds what leads away from it over direct dependencies, and nothing else. So it
holds what an equation refers to by an undotted name, unless that name is the name of a primitive: a
dotted name is never in a set, and that of a primitive only for another reason than the reference.
-/

namespace StockFlow

namespace Dependencies

open StockFlow.Order (needs)

/-! ## Sets as closures -/

section

variable {moment : Moment} {models : Keyed Outline} {outline : Outline} {found : Keyed NameSet}
  (closed : closure moment models outline = .ok found) (distinct : Distinct Node.name outline)
  {node next : Node}
include closed distinct

theorem mem_needs_of_transGen (member : node ∈ outline)
    (reached : Relation.TransGen (Awaits moment models outline) node next) :
    next.name ∈ needs found node.name := by
  induction reached using Relation.TransGen.head_induction_on with
  | single awaits => exact (explains_of_closure closed distinct member).direct _ awaits
  | head awaits _ ih =>
    have here := (explains_of_closure closed distinct member).direct _ awaits
    exact closed_of_closure closed _ _ here _ (ih awaits.mem)

theorem exists_transGen_of_mem_needs (member : node ∈ outline) {d : Name}
    (needed : d ∈ needs found node.name) :
    ∃ next, Relation.TransGen (Awaits moment models outline) node next ∧ next.name = d := by
  -- the sets get smaller along a direct dependency, because it is not in its own
  induction size : (needs found node.name).toFinset.card using Nat.strong_induction_on
    generalizing node with
  | _ size ih =>
    have explains := explains_of_closure closed distinct member
    obtain ⟨next, awaits, rfl | below⟩ := explains.only d needed
    · exact ⟨next, .single awaits, rfl⟩
    · have here := explains.direct next awaits
      have smaller : (needs found next.name).toFinset ⊂ (needs found node.name).toFinset := by
        refine Finset.ssubset_iff_subset_ne.mpr ⟨fun c further => ?_, fun same => ?_⟩
        · rw [List.mem_toFinset] at further ⊢
          exact closed_of_closure closed _ _ here c further
        · rw [← List.mem_toFinset, ← same, List.mem_toFinset] at here
          exact loopless_of_closure closed _ here
      obtain ⟨last, reached, named⟩ :=
        ih _ (size ▸ Finset.card_lt_card smaller) awaits.mem below rfl
      exact ⟨last, .head awaits reached, named⟩

/-- The set of a variable is the closure of its direct dependencies. -/
theorem mem_needs_iff (member : node ∈ outline) {d : Name} : d ∈ needs found node.name ↔
    ∃ next, Relation.TransGen (Awaits moment models outline) node next ∧ next.name = d := by
  refine ⟨exists_transGen_of_mem_needs closed distinct member, ?_⟩
  rintro ⟨next, reached, rfl⟩
  exact mem_needs_of_transGen closed distinct member reached

theorem not_isDotted_of_mem_needs (member : node ∈ outline) {d : Name}
    (needed : d ∈ needs found node.name) : ¬ Path.IsDotted d := by
  obtain ⟨next, reached, rfl⟩ := exists_transGen_of_mem_needs closed distinct member needed
  obtain ⟨_, -, -, _, -, resolved⟩ := Relation.TransGen.tail'_iff.mp reached
  rcases resolve_eq_ok resolved with
    ⟨undotted, _, sought, same⟩ | ⟨_, _, _, _, _, _, undotted, -, -, sought, -, -, -, same⟩
  · exact eq_of_given_eq_some same ▸ (name_of_findNamed sought).symm ▸ undotted
  · exact eq_of_given_eq_some same ▸ (name_of_findNamed sought).symm ▸ undotted

end

end Dependencies

/-! ## Names of primitives -/

namespace Equation

variable {α : Type}

mutual

theorem isPrimitive_of_mem_declared {name : Name} :
    ∀ {equation : Equation α}, name ∈ equation.declared → isPrimitive name = false
  | .constant _ _, member => by cases member
  | .reference _, member => by
    rw [declared] at member
    split at member
    · cases member
    · rename_i unreserved
      obtain rfl := List.mem_singleton.mp member
      exact (Bool.or_eq_false_iff.mp (Bool.eq_false_iff.mpr unreserved)).1
  | .call _ _, member => by
    rcases List.mem_append.mp member with called | argument
    · split at called
      · cases called
      · rename_i unknown
        obtain rfl := List.mem_singleton.mp called
        exact Bool.eq_false_iff.mpr unknown
    · exact isPrimitive_of_mem_declaredAll argument
  | .group _, member => by
    rw [declared] at member
    exact isPrimitive_of_mem_declared member
  | .unary _ _, member => by
    rw [declared] at member
    exact isPrimitive_of_mem_declared member
  | .binary _ _ _, member => by
    rcases List.mem_append.mp member with left | right
    · exact isPrimitive_of_mem_declared left
    · exact isPrimitive_of_mem_declared right
  | .conditional _ _ _, member => by
    simp only [declared, List.mem_append] at member
    rcases member with (condition | whenTrue) | whenFalse
    · exact isPrimitive_of_mem_declared condition
    · exact isPrimitive_of_mem_declared whenTrue
    · exact isPrimitive_of_mem_declared whenFalse

theorem isPrimitive_of_mem_declaredAll {name : Name} :
    ∀ {equations : List (Equation α)}, name ∈ declaredAll equations → isPrimitive name = false
  | [], member => by cases member
  | _ :: _, member => by
    rcases List.mem_append.mp member with first | rest
    · exact isPrimitive_of_mem_declared first
    · exact isPrimitive_of_mem_declaredAll rest

end

theorem notMem_names_of_isPrimitive {name : Name} {equation : Equation α}
    (primitive : isPrimitive name = true) : name ∉ equation.names := fun member =>
  absurd primitive (Bool.eq_false_iff.mp (isPrimitive_of_mem_declared (NameSet.mem_ofList.mp member)))

end Equation

/-! ## What an equation refers to -/

namespace LinkedModel

open StockFlow.Order (needs Precedes)

variable {α : Type} {linked : List (LinkedModel α)} {model : Model α} {result : LinkedModel α}
  {v u : Variable α} {moment : Moment}

section

variable (links : Links linked model result) (distinct : Distinct Variable.name model.vars)
include links distinct

omit distinct in
theorem Links.precedes (moment : Moment)
    (needed : u.name ∈ needs (result.dependencies moment) v.name) :
    Precedes (result.dependencies moment) u.name v.name :=
  Order.precedes_of_needs (Dependencies.closed_of_closure (links.closure moment))
    (Dependencies.loopless_of_closure (links.closure moment)) needed

theorem Links.mem_needs_of_mem_sources (moment : Moment) (reader : v ∈ model.vars)
    (target : u ∈ model.vars)
    (computed : moment = .step → v.isStock = false ∧ u.isStock = false)
    (among : u.name ∈ v.sources) (undotted : ¬ Path.IsDotted u.name) :
    u.name ∈ needs (result.dependencies moment) v.name := by
  obtain ⟨next, resolved, needed⟩ := links.resolve distinct moment reader
    (fun step => (computed step).1) (mem_sources_node among)
  rcases Dependencies.resolve_eq_ok resolved with
    ⟨-, node, found, rfl⟩ | ⟨head, rest, -, -, -, -, -, whole, -⟩
  · have known : model.find? u.name = some u := findNamed_of_mem distinct target
    rw [links.find?_outline, known] at found
    obtain rfl := Option.some.inj found
    have named := needed _ (if_neg (Bool.eq_false_iff.mp (isGiven_node fun step => (computed step).2)))
    rwa [name_node] at named
  · exact absurd (by simp [Path.IsDotted, whole]) undotted

theorem Links.not_isDotted_of_mem_needs (reader : v ∈ model.vars) {name : Name}
    (needed : name ∈ needs (result.dependencies moment) v.name) : ¬ Path.IsDotted name := by
  have inside : LinkedModel.node linked model result.absoluteSources v ∈ result.outline :=
    links.outline ▸ List.mem_map_of_mem reader
  rw [← name_node] at needed
  exact Dependencies.not_isDotted_of_mem_needs (links.closure moment) (links.distinct distinct)
    inside needed

/-- The dependencies of a variable with an equation are what the declared names of the equation lead
to, and what that depends on. -/
theorem Links.mem_needs_iff (reader : v ∈ model.vars) {equation : Equation α}
    (own : v.equation? = some equation) (computed : moment = .step → v.isStock = false)
    {name : Name} : name ∈ needs (result.dependencies moment) v.name ↔
      ∃ source ∈ equation.names, ∃ next, Dependencies.resolve moment
          (linked.map fun model => (model.name, model.outline)) result.outline v.name source =
        .ok (some next) ∧ (name = next.name ∨ name ∈ needs (result.dependencies moment) next.name) := by
  have inside : LinkedModel.node linked model result.absoluteSources v ∈ result.outline :=
    links.outline ▸ List.mem_map_of_mem reader
  have explains :=
    Dependencies.explains_of_closure (links.closure moment) (links.distinct distinct) inside
  have sources : (LinkedModel.node linked model result.absoluteSources v).sources = equation.names := by
    rw [links.sources_node distinct reader (by cases v <;> cases own <;> rfl),
      Variable.sources_of_equation? own]
  constructor
  · intro needed
    obtain ⟨next, ⟨-, source, among, resolved⟩, which⟩ := explains.only name (name_node.symm ▸ needed)
    exact ⟨source, sources ▸ among, next, name_node (v := v) ▸ resolved, which⟩
  · rintro ⟨source, among, next, resolved, which⟩
    have direct := explains.direct next
      ⟨isGiven_node computed, source, sources ▸ among, name_node.symm ▸ resolved⟩
    rw [name_node] at direct
    rcases which with rfl | below
    · exact direct
    · exact Dependencies.closed_of_closure (links.closure moment) _ _ direct _ below

end

/-- Whenever a model is linked, a variable depends on what its equation refers to by an undotted name
that is none of a primitive: at the start, and at a step unless one of the two is a stock. What it
refers to by a dotted name is never in its set. By the name of a primitive it depends on nothing, so
a variable of that name is in the set only where another name of the equation leads to it. -/
theorem dependencies_complete [Scalar α] {document : Document.Model α} {implicit : Bool}
    (built : Model.build document implicit = .ok model) (isLinked : link linked model = .ok result)
    (reader : v ∈ model.vars) (target : u ∈ model.vars) {equation : Equation α}
    (own : v.equation? = some equation) (refers : u.name ∈ equation.references)
    (notClock : ClockReference.ofName? u.name = none) :
    (¬ Path.IsDotted u.name → isPrimitive u.name = false →
      Precedes result.startDependencies u.name v.name ∧
        (v.isStock = false → u.isStock = false →
          Precedes result.stepDependencies u.name v.name)) ∧
    (Path.IsDotted u.name → ∀ moment, u.name ∉ needs (result.dependencies moment) v.name) ∧
    (isPrimitive u.name = true → u.name ∉ equation.names ∧
      ∀ moment, (moment = .step → v.isStock = false) →
        (u.name ∈ needs (result.dependencies moment) v.name ↔
          ∃ source ∈ equation.names, ∃ next, Dependencies.resolve moment
              (linked.map fun model => (model.name, model.outline)) result.outline v.name source =
            .ok (some next) ∧
              (u.name = next.name ∨ u.name ∈ needs (result.dependencies moment) next.name))) := by
  have links := link_eq_ok isLinked
  have distinct := (Model.ascending_of_build built).distinct
  refine ⟨fun undotted unclaimed => ?_, fun dotted moment needed => ?_, fun primitive => ⟨?_, ?_⟩⟩
  · have unreserved : isReserved u.name = false := by
      rw [isReserved, unclaimed, notClock]
      rfl
    have among : u.name ∈ v.sources :=
      Variable.sources_of_equation? own ▸ Equation.mem_names_of_references refers unreserved
    constructor
    · exact links.precedes .start
        (links.mem_needs_of_mem_sources distinct .start reader target nofun among undotted)
    · intro reader' target'
      exact links.precedes .step (links.mem_needs_of_mem_sources distinct .step reader target
        (fun _ => ⟨reader', target'⟩) among undotted)
  · exact links.not_isDotted_of_mem_needs distinct reader needed dotted
  · exact Equation.notMem_names_of_isPrimitive primitive
  · exact fun moment computed => links.mem_needs_iff distinct reader own computed

/-- A model in which `a` refers to `b`, and to a variable of the name of a constant. -/
def shadowing : Document.Model Float :=
  ⟨"main", none, [
    .auxiliary ⟨"a", "", some (.binary .add (.reference "b") (.reference "pi")), none⟩,
    .auxiliary ⟨"b", "", some (.reference "time"), none⟩,
    .auxiliary ⟨"pi", "", some (.reference "time"), none⟩]⟩

theorem dependencies_complete_shadowing : ∃ model result,
    Model.build shadowing false = .ok model ∧ link [] model = .ok result ∧
      Precedes result.startDependencies "b" "a" ∧ "pi" ∉ needs result.startDependencies "a" := by
  have check : ∃ model ∈ (Model.build shadowing false).toOption,
      ∃ result ∈ (link [] model).toOption, ∃ v ∈ model.find? "a", ∃ u ∈ model.find? "b",
        ∃ equation ∈ v.equation?, u.name ∈ equation.references ∧
          "pi" ∉ needs result.startDependencies "a" := by
    decide +kernel
  obtain ⟨model, built, result, isLinked, v, reader, u, target, equation, own, refers, apart⟩ := check
  have built := toOption_eq_some.mp built
  have isLinked := toOption_eq_some.mp isLinked
  have nameV : v.name = "a" := name_of_findNamed reader
  have nameU : u.name = "b" := name_of_findNamed target
  have complete := dependencies_complete built isLinked (mem_of_findNamed reader)
    (mem_of_findNamed target) own refers (by rw [nameU]; decide)
  rw [nameV, nameU] at complete
  exact ⟨model, result, built, isLinked, (complete.1 (by decide) (by decide)).1, apart⟩

end LinkedModel

end StockFlow
