import StockFlow.Number.Double
import StockFlow.Proofs.Catalog
import StockFlow.Proofs.Reading

/-!
# References and variables

A name that an equation refers to is checked against the variables of the model and of the models
that its modules instantiate, one step past the module at most. What it reads is looked up in the tree
of instances. Here the variables that it may lead to are told apart from the tree, and both compared.
-/

namespace StockFlow

variable {α : Type}

namespace Project

/-! ## What names stand for -/

/-- Whether a path that an equation of a model refers to is declared: it is the name of a variable,
or goes on behind the name of a module to a variable of the module's model. -/
inductive Declares (project : Project α) (model : LinkedModel α) : Path → Prop
  | own {v : Variable α} (member : v ∈ model.vars) (undotted : ¬ Path.IsDotted v.name) :
    Declares project model v.name
  | inner {module : Module} {inner : LinkedModel α} {v : Variable α} {path rest : Path}
    (member : module ∈ model.modules) (found : project.find? module.model = some inner)
    (inside : v ∈ inner.vars) (split : Path.split path = (module.name, some rest))
    (named : v.name = Path.head rest) : Declares project model path

/-- Whether a path leads from an instance of a model to the time or to a variable that is no module.
A path that ends at an instance means the variable named like the instance. -/
inductive Leads (project : Project α) : LinkedModel α → Name → Path → Prop
  | time {model : LinkedModel α} {owner : Name} : Leads project model owner "time"
  | own {model : LinkedModel α} {owner : Name} {path : Path} {v : Variable α}
    (member : v ∈ model.vars) (computed : v.isModule = false)
    (named : v.name = Path.unmarked path) : Leads project model owner path
  | output {model : LinkedModel α} {owner : Name} {path : Path} {v : Variable α}
    (ends : Path.unmarked path = "") (member : v ∈ model.vars) (computed : v.isModule = false)
    (named : v.name = owner) : Leads project model owner path
  | inside {model inner : LinkedModel α} {owner : Name} {path : Path} {module : Module}
    (further : Path.unmarked path ≠ "") (member : module ∈ model.modules)
    (named : module.name = Path.head (Path.unmarked path))
    (found : project.find? module.model = some inner)
    (leads : Leads project inner module.name ((Path.split (Path.unmarked path)).2.getD "")) :
    Leads project model owner path

/-- Whether a path is the name of a variable that is no module, or the name of a module and that of
such a variable of the module's model. -/
inductive Names (project : Project α) (model : LinkedModel α) : Path → Prop
  | own {v : Variable α} (member : v ∈ model.vars) (computed : v.isModule = false)
    (undotted : ¬ Path.IsDotted v.name) : Names project model v.name
  | inner {module : Module} {inner : LinkedModel α} {v : Variable α} {path : Path}
    (member : module ∈ model.modules) (named : module.name ≠ "")
    (found : project.find? module.model = some inner) (inside : v ∈ inner.vars)
    (computed : v.isModule = false) (undotted : ¬ Path.IsDotted v.name)
    (split : Path.split path = (module.name, some v.name)) : Names project model path

variable {project : Project α} {model : LinkedModel α}

theorem Names.leads {path : Path} (names : project.Names model path) (owner : Name) :
    project.Leads model owner path := by
  cases names with
  | own member computed undotted =>
    exact .own member computed (Path.unmarked_of_not_dotted undotted).symm
  | @inner module inner v _ member named found inside computed undotted split =>
    have head : Path.head path = module.name := by rw [Path.head, split]
    have unmarked : Path.unmarked path = path := Path.unmarked_of_head (head ▸ named)
    refine .inside ?_ member ?_ found ?_
    · rw [unmarked]
      rintro rfl
      exact named head.symm
    · rw [unmarked, head]
    · rw [unmarked, split]
      exact .own inside computed (Path.unmarked_of_not_dotted undotted).symm

end Project

/-! ## Declared references -/

theorem LinkedModel.Links.declares_of_resolve {project : Project α} (consistent : project.Consistent)
    {linked : List (LinkedModel α)}
    {model : LinkedModel α} (links : Links linked model.toModel model)
    (within : ∀ name inner, named? linked name = some inner → project.find? name = some inner)
    {moment : Moment} {owner : Name} {source : Path} {target : Option Node}
    (resolved : Dependencies.resolve moment (linked.map fun model => (model.name, model.outline))
      model.outline owner source = .ok target) : project.Declares model source := by
  rcases consistent.resolve_eq_ok links within resolved with
    ⟨v, member, undotted, rfl, -⟩ |
    ⟨module, member, rest, inner, leaf, -, split, foundInner, known, -⟩
  · exact .own member undotted
  · exact .inner member foundInner (mem_of_findNamed known) split (name_of_findNamed known)

/-! ## Resolved references -/

namespace Coded

variable [Scalar α] {project : Project α} {clock : Clock α} {root node : Coded α}
  {model : LinkedModel α}

theorem Fits.isSome_get?_iff {first : Nat} (fits : Fits project clock root first model node)
    {name : Name} : (node.slots.get? name).isSome = true ↔
      ∃ v ∈ model.vars, v.isModule = false ∧ v.name = name := by
  constructor
  · intro present
    obtain ⟨slot, here⟩ := Option.isSome_iff_exists.mp present
    exact fits.variable_of_get? here
  · rintro ⟨v, member, computed, rfl⟩
    exact Option.isSome_iff_exists.mpr (fits.exists_get? member computed)

/-- An instance has a slot for a path exactly if the path leads to a variable. -/
theorem Made.slot?_isSome_iff (made : Made project clock root node)
    (found : project.find? node.model = some model) {path : Path} :
    (node.slot? path).isSome = true ↔ project.Leads model node.name path := by
  -- by induction on the tree: a path that does not end here goes on in a child
  induction made generalizing path model with
  | @intro node first other fits below ih =>
    obtain rfl : other = model := Option.some.inj (fits.found.symm.trans found)
    rw [Instance.slot?_eq]
    constructor
    · intro present
      split at present
      · rename_i time
        exact time ▸ .time
      rcases Instance.locate?_isSome_iff.mp present with
        own | ⟨ends, output⟩ | ⟨further, child, inside, leads⟩
      · obtain ⟨v, member, computed, named⟩ := fits.isSome_get?_iff.mp own
        exact .own member computed named
      · obtain ⟨v, member, computed, named⟩ := fits.isSome_get?_iff.mp output
        exact .output ends member computed named
      · obtain ⟨module, member, named, ofModel, -⟩ := fits.module_of_child? inside
        have among := Instance.mem_of_child? inside
        obtain ⟨inner, foundInner⟩ : ∃ inner, project.find? child.model = some inner := by
          cases below child among with
          | intro fits => exact ⟨_, fits.found⟩
        have leads := (ih child among foundInner).mp leads
        rw [Instance.name_of_child? inside, ← named] at leads
        exact .inside further member named (ofModel ▸ foundInner) leads
    · intro leads
      split
      · rfl
      rename_i notTime
      refine Instance.locate?_isSome_iff.mpr ?_
      cases leads with
      | time => exact absurd rfl notTime
      | own member computed named => exact .inl (fits.isSome_get?_iff.mpr ⟨_, member, computed, named⟩)
      | output ends member computed named =>
        exact .inr (.inl ⟨ends, fits.isSome_get?_iff.mpr ⟨_, member, computed, named⟩⟩)
      | inside further member named foundInner leads =>
        obtain ⟨child, inside, ofModel, -⟩ := fits.exists_child? member
        rw [← Instance.name_of_child? inside] at leads
        have present := (ih child (Instance.mem_of_child? inside) (ofModel ▸ foundInner)).mpr leads
        exact .inr (.inr ⟨further, child, named ▸ inside, present⟩)

end Coded

namespace Plan

variable [Scalar α] {project : Project α} {plan : Plan α}

theorem lt_size_of_slot? (consistent : project.Consistent) (planned : ofProject project = .ok plan)
    {path : List Name} {node : Coded α} (leads : plan.root.descend? path = some node) {name : Path}
    {slot : Nat} (found : node.slot? name = some slot) : slot < plan.size := by
  obtain ⟨made, -, shift, -⟩ := made_of_ofProject consistent planned
  have size : plan.root.shift + plan.root.size = plan.size := by
    rw [shift, Nat.zero_add]
    rfl
  rcases (made.of_descend? leads).owns_of_slot? found with rfl | owned
  · cases made with
    | intro fits =>
      have := fits.tidy.late
      have := fits.tidy.stacked.le
      omega
  · exact size ▸ (made.owns_of_descend? leads owned).2

/-- Every name in an equation that is not reserved is declared. It is lowered to a slot of the row
exactly if it leads to a variable, and is undefined otherwise. The name of a variable that is no
module leads there, and so does that of one behind the name of a module. -/
theorem references_resolve {document : Document.Project α}
    (compiled : Project.compile document = .ok project) (planned : ofProject project = .ok plan)
    {path : List Name} {node : Coded α} (below : plan.root.descend? path = some node)
    {model : LinkedModel α} (found : project.find? node.model = some model) {v : Variable α}
    (member : v ∈ model.vars) {equation : Equation α} (own : v.equation? = some equation)
    {name : Name} (refers : name ∈ equation.references) (unreserved : isReserved name = false) :
    project.Declares model name ∧
    (project.Leads model node.name name → ∃ slot < plan.size,
      (node.scope model plan.clock v.name).lower (.reference name) = .ok (.slot slot)) ∧
    (¬ project.Leads model node.name name →
      (node.scope model plan.clock v.name).lower (.reference name) =
        .ok (.constant Scalar.undefined)) ∧
    (project.Names model name → project.Leads model node.name name) := by
  have consistent := Project.consistent_of_compile compiled
  have made := (made_of_ofProject consistent planned).1.of_descend? below
  have lowered : (node.scope model plan.clock v.name).lower (.reference name) =
      .ok (Scope.loadSlot (node.slot? name)) := by
    have notClock := (Bool.or_eq_false_iff.mp unreserved).2
    rw [Option.isSome_eq_false_iff, Option.isNone_iff_eq_none] at notClock
    rw [Scope.lower, Scope.reference, notClock]
    rfl
  refine ⟨?_, fun leads => ?_, fun nowhere => ?_, fun names => names.leads node.name⟩
  · obtain ⟨linked, links, within⟩ := consistent.linked found
    have among : name ∈ v.sources :=
      Variable.sources_of_equation? own ▸ Equation.mem_names_of_references refers unreserved
    obtain ⟨target, resolved, -⟩ := links.resolve (consistent.distinct found) .start member
      nofun (LinkedModel.mem_sources_node among)
    exact links.declares_of_resolve consistent within resolved
  · obtain ⟨slot, here⟩ := Option.isSome_iff_exists.mp ((made.slot?_isSome_iff found).mpr leads)
    rw [lowered, here]
    exact ⟨slot, lt_size_of_slot? consistent planned below here, rfl⟩
  · have nothing : node.slot? name = none := by
      rw [← Option.not_isSome_iff_eq_none, made.slot?_isSome_iff found]
      exact nowhere
    rw [lowered, nothing]
    rfl

/-- A project in which `a` refers to a module without an output of its own, and `b` to a variable of
the module. -/
def outputless : Document.Project Float :=
  ⟨"", ⟨0, 1, 1, none⟩, [
    ⟨"main", none, [
      .auxiliary ⟨"a", "", some (.reference "m"), none⟩,
      .auxiliary ⟨"b", "", some (.reference "m.x"), none⟩,
      .module ⟨"m", "sub", []⟩]⟩,
    ⟨"sub", none, [.auxiliary ⟨"x", "1", none, none⟩]⟩]⟩

theorem outputless_runs : ∃ project plan, Project.compile outputless = .ok project ∧
    ofProject project = .ok plan ∧ ∃ model, project.find? plan.root.model = some model ∧
      (∃ v ∈ model.vars, ∃ equation, v.equation? = some equation ∧ "m" ∈ equation.references) ∧
      plan.root.slot? "m" = none ∧
      (∃ v ∈ model.vars, ∃ equation, v.equation? = some equation ∧ "m.x" ∈ equation.references) ∧
      (plan.root.slot? "m.x").isSome = true := by
  have check : ∃ project ∈ (Project.compile outputless).toOption,
      ∃ plan ∈ (ofProject project).toOption, ∃ model ∈ project.find? plan.root.model,
        ((model.find? "a").bind Variable.equation?).map Equation.references = some ["m"] ∧
        plan.root.slot? "m" = none ∧
        ((model.find? "b").bind Variable.equation?).map Equation.references = some ["m.x"] ∧
        (plan.root.slot? "m.x").isSome = true := by
    rw [Project.compile_eq]
    decide +kernel
  obtain ⟨project, compiled, plan, planned, model, found, one, nothing, two, present⟩ := check
  have reader : ∀ {owner name}, ((model.find? owner).bind Variable.equation?).map
      Equation.references = some [name] →
        ∃ v ∈ model.vars, ∃ equation, v.equation? = some equation ∧ name ∈ equation.references := by
    intro owner name only
    obtain ⟨equation, bound, only⟩ := Option.map_eq_some_iff.mp only
    obtain ⟨v, sought, own⟩ := Option.bind_eq_some_iff.mp bound
    exact ⟨v, mem_of_findNamed sought, equation, own, only ▸ List.mem_singleton_self name⟩
  exact ⟨project, plan, toOption_eq_some.mp compiled, toOption_eq_some.mp planned, model, found,
    reader one, nothing, reader two, present⟩

theorem references_resolve_outputless : ∃ project plan, Project.compile outputless = .ok project ∧
    ofProject project = .ok plan ∧ ∃ model, project.find? plan.root.model = some model ∧
      ∃ v ∈ model.vars, ∃ slot < plan.size,
        (plan.root.scope model plan.clock v.name).lower (.reference "m.x") = .ok (.slot slot) := by
  obtain ⟨project, plan, compiled, planned, model, found, -, -, ⟨v, member, equation, own, refers⟩,
    present⟩ := outputless_runs
  have made := (made_of_ofProject (Project.consistent_of_compile compiled) planned).1
  obtain ⟨-, resolved, -, -⟩ := references_resolve compiled planned
    (rfl : plan.root.descend? [] = some plan.root) found member own refers (by decide)
  exact ⟨project, plan, compiled, planned, model, found, v, member,
    resolved ((made.slot?_isSome_iff found).mp present)⟩

/-- A reference to a module without an output of its own is accepted, and leads to no slot. -/
theorem references_unresolved : ∃ project plan, Project.compile outputless = .ok project ∧
    ofProject project = .ok plan ∧ ∃ model, project.find? plan.root.model = some model ∧
      ∃ v ∈ model.vars, plan.root.note.inputs.get? v.name = none ∧ ∃ equation,
        v.equation? = some equation ∧ "m" ∈ equation.references ∧ isReserved "m" = false ∧ ∀ slot,
          (plan.root.scope model plan.clock v.name).lower (.reference "m") ≠ .ok (.slot slot) := by
  obtain ⟨project, plan, compiled, planned, model, found, ⟨v, member, equation, own, refers⟩, nothing,
    -⟩ := outputless_runs
  obtain ⟨-, -, -, inputs⟩ := made_of_ofProject (Project.consistent_of_compile compiled) planned
  refine ⟨project, plan, compiled, planned, model, found, v, member, by rw [inputs]; rfl, equation,
    own, refers, by decide, fun slot lowered => ?_⟩
  have undefined : (plan.root.scope model plan.clock v.name).lower (.reference "m") =
      .ok (Scope.loadSlot (plan.root.slot? "m")) := rfl
  rw [undefined, nothing] at lowered
  cases lowered

end Plan

end StockFlow
