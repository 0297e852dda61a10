import StockFlow.Number.Double
import StockFlow.Proofs.Catalog
import StockFlow.Proofs.Sequence

/-!
# Settled rows

The flows phase solves the equations of a plan for the variables that it computes: its result depends
only on the slots that hold their values during a step, and there every computed variable equals its
term, and every input its source. Settling a settled row changes nothing.
-/

namespace StockFlow

variable {α : Type} [Scalar α]

/-! ## What is computed in an instance -/

namespace Coded

variable {project : Project α} {clock : Clock α} {root node : Coded α} {first slot : Nat}
  {model : LinkedModel α} {phase : Phase} {v : Variable α}

section

variable (consistent : project.Consistent) (made : Made project clock root node)
  (early : phase ≠ .stocks)
include consistent made early

theorem Made.computes (found : project.find? node.model = some model) (member : v ∈ model.vars)
    (due : v.isDue node.note.inputs phase = true) :
    ∃ part, Computes node model clock phase v part ∧ part ⊆ program phase node := by
  cases made with
  | @intro _ first other fits below =>
  cases fits.found.symm.trans found
  obtain ⟨vars, segment, runs⟩ := fits.runs consistent early
  have listed := (runs.schedule.mem v).mpr ⟨member, due⟩
  exact ⟨segment v, runs.computes v listed, fun a inside => runs.mem_program.mpr ⟨v, listed, inside⟩⟩

theorem Made.program_of_descend? {path : List Name} {below : Coded α}
    (leads : node.descend? path = some below) : program phase below ⊆ program phase node := by
  induction path generalizing node with
  | nil => exact Option.some.inj leads ▸ List.Subset.refl _
  | cons name rest ih =>
    obtain ⟨child, inside, further⟩ := Option.bind_eq_some_iff.mp leads
    have madeChild : Made project clock root child := by
      cases made with
      | intro _ made => exact made child (Instance.mem_of_child? inside)
    exact fun a member => made.mem_program_of_child consistent early inside (ih madeChild further member)

end

/-- What is computed for a variable during a step is computed for it at the start as well. -/
theorem Computes.subset {step start : List (Assignment α)}
    (one : Computes node model clock .flows v step) (two : Computes node model clock .initials v start)
    (below : ∀ child ∈ node.children, program .flows child ⊆ program .initials child) :
    step ⊆ start := by
  cases one with
  | input connected own =>
    cases two with
    | input connected' own' =>
      cases connected.symm.trans connected'
      cases own.symm.trans own'
      exact List.Subset.refl _
    | enter unconnected | stock _ unconnected | formula unconnected =>
      cases connected.symm.trans unconnected
  | enter unconnected inside =>
    cases two with
    | input connected => cases connected.symm.trans unconnected
    | enter _ inside' =>
      cases inside.symm.trans inside'
      exact below _ (Instance.mem_of_child? inside)
  | stock start => cases start
  | formula unconnected own lowered =>
    cases two with
    | input connected => cases connected.symm.trans unconnected
    | formula _ own' lowered' =>
      cases own.symm.trans own'
      cases lowered.symm.trans lowered'
      exact List.Subset.refl _

theorem Made.exists_input (consistent : project.Consistent) (made : Made project clock root node)
    (found : project.find? node.model = some model) {module : Module}
    (member : module ∈ model.modules) {child : Coded α}
    (inside : node.child? module.name = some child) {input : Name} {symbol : Path}
    (wired : (Model.wires module).get? input = some symbol) :
    ∃ v inner, project.find? child.model = some inner ∧ v ∈ inner.vars ∧ v.name = input ∧
      child.note.inputs.get? v.name = some (sourceSlot? root node symbol) := by
  cases made with
  | @intro _ first other fits below =>
  cases fits.found.symm.trans found
  have distinct := consistent.distinct found
  obtain ⟨linked, links, within⟩ := consistent.linked found
  obtain ⟨entry, -, read⟩ := exists_right_of_mem links.read member
  obtain ⟨inner, named, targets, -⟩ := LinkedModel.readAbsolute_eq_ok read
  obtain ⟨again, among, same, ofModel, inputs⟩ := fits.module_of_child? inside
  obtain rfl := (Model.distinct_modules distinct).eq_of_name_eq among member same
  obtain ⟨given, listed, target⟩ :=
    List.mem_map.mp (Keyed.mem_of_mem_ofList (Keyed.mem_of_get? wired))
  cases target
  obtain ⟨v, declared, same⟩ := findNamed_isSome.mp (targets given listed)
  refine ⟨v, inner, ofModel ▸ within _ _ named, declared, same, ?_⟩
  rw [inputs, Keyed.get?_map (f := fun _ symbol => sourceSlot? root node symbol), same, wired]
  rfl

theorem Made.flows_subset (consistent : project.Consistent) (made : Made project clock root node) :
    program .flows node ⊆ program .initials node := by
  induction made with
  | @intro node first model fits below ih =>
    have made : Made project clock root node := .intro fits below
    obtain ⟨vars, segment, runs⟩ := fits.runs consistent (by decide : Phase.flows ≠ .stocks)
    intro a member
    obtain ⟨v, listed, member⟩ := runs.mem_program.mp member
    obtain ⟨start, computes, within⟩ := made.computes consistent
      (by decide : Phase.initials ≠ .stocks) fits.found ((runs.schedule.mem v).mp listed).1 rfl
    exact within ((runs.computes v listed).subset computes ih member)

/-- What is not assigned during a step keeps its value: the time, and stocks and constants that are no
inputs. -/
theorem Made.held_of_notMem (consistent : project.Consistent) (made : Made project clock root node)
    (owned : node.Owns slot) (unassigned : slot ∉ written (program .flows node)) :
    slot = timeSlot ∨ ∃ path below model v, node.descend? path = some below ∧
      project.find? below.model = some model ∧ v ∈ model.vars ∧ v.isHeld = true ∧
      below.note.inputs.get? v.name = none ∧ below.slots.get? v.name = some slot := by
  induction made with
  | @intro node first model fits below ih =>
    have made : Made project clock root node := .intro fits below
    rcases fits.tidy.exists_belongs owned with time | ⟨name, here | ⟨child, inside, within⟩⟩
    · exact .inl time
    · right
      obtain ⟨v, member, own, rfl⟩ := fits.variable_of_get? here
      have idle : v.isDue node.note.inputs .flows = false := Bool.eq_false_iff.mpr fun due =>
        unassigned (made.mem_written_own consistent (by decide) fits.found member own due here)
      simp only [Variable.isDue, Bool.or_eq_false_iff, Bool.not_eq_false',
        Option.isSome_eq_false_iff, Option.isNone_iff_eq_none] at idle
      exact ⟨[], node, model, v, rfl, fits.found, member, idle.2, idle.1.2, here⟩
    · have apart : slot ∉ written (program .flows child) := by
        intro assigned
        obtain ⟨a, member, rfl⟩ := List.mem_map.mp assigned
        exact unassigned (List.mem_map_of_mem
          (made.mem_program_of_child consistent (by decide) inside member))
      refine (ih child (Instance.mem_of_child? inside) within apart).imp_right ?_
      rintro ⟨path, below, model, v, leads, rest⟩
      refine ⟨name :: path, below, model, v, ?_, rest⟩
      rw [Instance.descend?, inside, Option.bind_some, leads]

end Coded

/-! ## What is computed in a plan -/

namespace Plan

theorem size_initialRow (plan : Plan α) : plan.initialRow.size = plan.size := by
  rw [initialRow, Row.size_assign, Array.size_setIfInBounds, Array.size_replicate]

/-- Whether a slot keeps its value during a step: that of the time, or that of a stock or of a
constant without a table that is no input. -/
def IsHeld (project : Project α) (plan : Plan α) (slot : Nat) : Prop :=
  slot = timeSlot ∨ ∃ path node model v, plan.root.descend? path = some node ∧
    project.find? node.model = some model ∧ v ∈ model.vars ∧ v.isHeld = true ∧
    node.note.inputs.get? v.name = none ∧ node.slots.get? v.name = some slot

/-- Whether a row solves the equations of all variables, at any depth, that do not keep their values
during a step: each input has the value of its source, and each formula that of its term. -/
structure Solves (project : Project α) (plan : Plan α) (row : Row α) : Prop where
  connected : ∀ (path : List Name) (above node : Coded α) model module input symbol,
    plan.root.descend? path = some above → project.find? above.model = some model →
      module ∈ model.modules → above.child? module.name = some node →
        (Model.wires module).get? input = some symbol →
          ∃ slot, node.slots.get? input = some slot ∧ row.get slot =
            (Scope.loadSlot (Coded.sourceSlot? plan.root above symbol)).value plan.clock.dt row
  computed : ∀ (path : List Name) (node : Coded α) model formula,
    plan.root.descend? path = some node → project.find? node.model = some model →
      .formula formula ∈ model.vars → (Variable.formula formula).isHeld = false →
        node.note.inputs.get? formula.name = none →
          ∃ slot term, node.slots.get? formula.name = some slot ∧
            (node.scope model plan.clock formula.name).formulaTerm formula = .ok term ∧
            row.get slot = term.value plan.clock.dt row

section

variable {project : Project α} {plan : Plan α} (consistent : project.Consistent)
  (planned : ofProject project = .ok plan)
include consistent planned

theorem lt_size_of_written {phase : Phase} (early : phase ≠ .stocks) :
    ∀ slot ∈ written (plan.program phase), timeSlot < slot ∧ slot < plan.size := by
  obtain ⟨made, -, shift, -⟩ := made_of_ofProject consistent planned
  rw [plan.program_eq]
  intro slot member
  obtain ⟨owned, late⟩ := made.owns_of_written consistent early slot member
  refine ⟨late, ?_⟩
  have := owned.2
  rwa [shift, Nat.zero_add] at this

theorem exists_get? {path : List Name} {node : Coded α} {model : LinkedModel α}
    (leads : plan.root.descend? path = some node) (found : project.find? node.model = some model)
    {v : Variable α} (member : v ∈ model.vars) (own : v.isModule = false) :
    ∃ slot, node.slots.get? v.name = some slot := by
  obtain ⟨made, -⟩ := made_of_ofProject consistent planned
  exact (made.of_descend? leads).exists_get? found member own

theorem lt_size_of_own {path : List Name} {node : Coded α} (leads : plan.root.descend? path = some node)
    {name : Name} {slot : Nat} (own : node.slots.get? name = some slot) :
    timeSlot < slot ∧ slot < plan.size := by
  obtain ⟨made, -, shift, -⟩ := made_of_ofProject consistent planned
  obtain ⟨owned, late⟩ := (made.of_descend? leads).owns_own own
  refine ⟨late, ?_⟩
  have := (made.owns_of_descend? leads owned).2
  rwa [shift, Nat.zero_add] at this

/-- Every slot but that of the time is assigned at the start. -/
theorem mem_written_initials {slot : Nat} (inside : slot < plan.size) (late : slot ≠ timeSlot) :
    slot ∈ written (plan.program .initials) := by
  obtain ⟨made, -, shift, -⟩ := made_of_ofProject consistent planned
  rw [plan.program_eq]
  refine (made.covered consistent ⟨shift ▸ Nat.zero_le _, ?_⟩).resolve_left late
  rwa [shift, Nat.zero_add]

theorem nodup_written {phase : Phase} (early : phase ≠ .stocks) :
    (written (plan.program phase)).Nodup := by
  rw [plan.program_eq]
  exact (made_of_ofProject consistent planned).1.nodup_written consistent early

/-- The program of a phase before the stocks assigns each slot before one whose variable reads it. -/
theorem sequencedBy (plain : project.HasPlainNames) (outward : project.ReadsOutward) {phase : Phase}
    (spares : phase = .flows → project.SparesStocks) (early : phase ≠ .stocks)
    {reads : Assignment α → Nat → Prop}
    (each : ∀ (path : List Name) (below : Coded α) model v a, plan.root.descend? path = some below →
      project.find? below.model = some model → v ∈ model.vars → v.isModule = false →
        below.slots.get? v.name = some a.slot → Coded.Computes below model plan.clock phase v [a] →
          ∀ slot, reads a slot → Coded.Reads below model plan.clock v slot)
    {known : Nat → Prop} (time : known timeSlot)
    (free : ∀ slot < plan.size, slot ∉ written (plan.program phase) → known slot) :
    SequencedBy reads known (plan.program phase) := by
  obtain ⟨made, main, shift, inputs⟩ := made_of_ofProject consistent planned
  rw [plan.program_eq] at free ⊢
  refine made.sequencedBy consistent plain spares early ?_ each time ?_ ?_ ?_
  · intro _ model _ v _ _
    rw [inputs]
    rfl
  · intro slot owned unassigned
    refine free slot ?_ unassigned
    have := owned.2
    rwa [shift, Nat.zero_add] at this
  · intro name slot connected
    rw [inputs] at connected
    cases connected
  · intro model found module member path slot reads leads
    have isMain : project.main? = some model := by
      rw [Project.main?, ← main]
      exact found
    have named : model.name = mainModel := LinkedModel.name_of_named? isMain
    obtain ⟨solid, outside⟩ := outward model isMain module member path reads
    exact .inr (made.foreseen_of_absolute consistent plain found named member reads solid outside leads)

/-- The program of a phase before the stocks reads each slot after it was assigned. -/
theorem sequenced (plain : project.HasPlainNames) (outward : project.ReadsOutward) {phase : Phase}
    (spares : phase = .flows → project.SparesStocks) (early : phase ≠ .stocks) {known : Nat → Prop}
    (time : known timeSlot)
    (free : ∀ slot < plan.size, slot ∉ written (plan.program phase) → known slot) :
    Sequenced known (plan.program phase) :=
  sequencedBy consistent planned plain outward spares early
    (fun _ _ _ _ _ _ _ _ own _ computes => computes.reads_of_mem own) time free

variable (plain : project.HasPlainNames) (spares : project.SparesStocks)
  (outward : project.ReadsOutward)
include plain spares outward

theorem sequenced_flows :
    Sequenced (fun slot => slot ∉ written (plan.program .flows)) (plan.program .flows) := by
  refine sequenced consistent planned plain outward (fun _ => spares) (by decide) (fun member => ?_)
    fun _ _ unassigned => unassigned
  exact absurd (lt_size_of_written consistent planned (by decide) _ member).1 (Nat.lt_irrefl _)

variable {row other : Row α} (size : row.size = plan.size)
include size

/-- In a settled row every assignment of a step holds as an equation. -/
theorem get_settle : ∀ a ∈ plan.program .flows,
    (plan.settle row).get a.slot = a.term.value plan.clock.dt (plan.settle row) :=
  Row.get_assign (sequenced_flows consistent planned plain spares outward)
    (nodup_written consistent planned (by decide)) (fun _ unassigned => unassigned)
    fun slot member => size ▸ (lt_size_of_written consistent planned (by decide) slot member).2

theorem settle_settle : plan.settle (plan.settle row) = plan.settle row :=
  Row.assign_eq_self (get_settle consistent planned plain spares outward size)

theorem solves_settle : plan.Solves project (plan.settle row) := by
  obtain ⟨made, -, -, -⟩ := made_of_ofProject consistent planned
  have holds := get_settle consistent planned plain spares outward size
  rw [plan.program_eq] at holds
  constructor
  · -- an input is due, and what is computed for it is part of the whole program
    intro path above node model module input symbol leads found member inside wired
    have here := made.of_descend? leads
    obtain ⟨v, inner, foundInner, declared, rfl, connected⟩ :=
      here.exists_input consistent found member inside wired
    have next : above.descend? [module.name] = some node := by simp [Instance.descend?, inside]
    obtain ⟨part, computes, within⟩ := (here.of_descend? next).computes consistent
      (by decide : Phase.flows ≠ .stocks) foundInner declared (by simp [Variable.isDue, connected])
    cases computes with
    | input connected' own =>
      cases connected.symm.trans connected'
      refine ⟨_, own, holds ⟨_, _⟩ ?_⟩
      exact made.program_of_descend? consistent (by decide) leads
        (here.mem_program_of_child consistent (by decide) inside (within List.mem_cons_self))
    | enter unconnected | formula unconnected => cases connected.symm.trans unconnected
    | stock start => cases start
  · intro path node model formula leads found member computed unconnected
    have here := made.of_descend? leads
    obtain ⟨part, computes, within⟩ := here.computes consistent
      (by decide : Phase.flows ≠ .stocks) found member (by simp [Variable.isDue, computed])
    cases computes with
    | input connected => cases connected.symm.trans unconnected
    | formula _ own lowered =>
      refine ⟨_, _, own, lowered, holds ⟨_, _⟩ ?_⟩
      exact made.program_of_descend? consistent (by decide) leads (within List.mem_cons_self)

/-- A settled row depends on nothing but the slots that keep their values. -/
theorem settle_congr (size' : other.size = plan.size)
    (same : ∀ slot, plan.IsHeld project slot → row.get slot = other.get slot) :
    plan.settle row = plan.settle other := by
  obtain ⟨made, -, shift, -⟩ := made_of_ofProject consistent planned
  have agree : ∀ slot, slot ∉ written (plan.program .flows) → row.get slot = other.get slot := by
    intro slot unassigned
    by_cases within : slot < plan.size
    · refine same slot (made.held_of_notMem consistent ⟨shift ▸ Nat.zero_le _, ?_⟩ ?_)
      · rwa [shift, Nat.zero_add]
      · rwa [plan.program_eq] at unassigned
    · rw [Row.get_of_le (by omega), Row.get_of_le (by omega)]
  refine Row.ext_get (by rw [settle, settle, Row.size_assign, Row.size_assign, size, size']) ?_
  intro slot _
  exact Row.assign_congr (sequenced_flows consistent planned plain spares outward)
    (size.trans size'.symm) agree
    (fun slot member => size ▸ (lt_size_of_written consistent planned (by decide) slot member).2)
    (Classical.em _).symm

omit size spares

/-! ## The start -/

theorem sequenced_initials : Sequenced (fun slot => slot = timeSlot) (plan.program .initials) := by
  refine sequenced consistent planned plain outward (fun step => by cases step) (by decide) rfl ?_
  intro slot within unassigned
  by_contra late
  exact unassigned (mem_written_initials consistent planned within late)

include size

theorem assign_initials_congr (size' : other.size = plan.size) (same : row.time = other.time) :
    Row.assign plan.clock.dt row (plan.program .initials) =
      Row.assign plan.clock.dt other (plan.program .initials) := by
  refine Row.ext_get (by rw [Row.size_assign, Row.size_assign, size, size']) fun slot within => ?_
  rw [Row.size_assign, size] at within
  refine Row.assign_congr (sequenced_initials consistent planned plain outward)
    (size.trans size'.symm) (by rintro _ rfl; exact same)
    (fun slot member => size ▸ (lt_size_of_written consistent planned (by decide) slot member).2) ?_
  exact (Classical.em _).imp_right (mem_written_initials consistent planned within)

/-- In the row that is computed at the start every assignment of the start holds as an equation. -/
theorem get_assign_initials : ∀ a ∈ plan.program .initials,
    (Row.assign plan.clock.dt row (plan.program .initials)).get a.slot =
      a.term.value plan.clock.dt (Row.assign plan.clock.dt row (plan.program .initials)) := by
  refine Row.get_assign (sequenced_initials consistent planned plain outward)
    (nodup_written consistent planned (by decide)) ?_
    fun slot member => size ▸ (lt_size_of_written consistent planned (by decide) slot member).2
  rintro _ rfl member
  exact absurd (lt_size_of_written consistent planned (by decide) _ member).1 (Nat.lt_irrefl _)

omit plain outward size in
theorem flows_subset : plan.program .flows ⊆ plan.program .initials := by
  obtain ⟨made, -, -, -⟩ := made_of_ofProject consistent planned
  rw [plan.program_eq, plan.program_eq]
  exact made.flows_subset consistent

theorem settle_assign_initials :
    plan.settle (Row.assign plan.clock.dt row (plan.program .initials)) =
      Row.assign plan.clock.dt row (plan.program .initials) :=
  Row.assign_eq_self fun a member => get_assign_initials consistent planned plain outward size a
    (flows_subset consistent planned member)

end

/-! ## Sound evaluation -/

/-- If the names in a document are plain, no input overrides a stock, and no absolute path leads back
into the module that reads it, then the order of evaluation is sound: a step computes one row from
the values that are kept, and that row solves all equations; and the start computes one row from the
time, which a step does not change. -/
theorem evaluation_sound {document : Document.Project α} {project : Project α} {plan : Plan α}
    (compiled : Project.compile document = .ok project) (planned : ofProject project = .ok plan)
    (plain : document.HasPlainNames) (spares : project.SparesStocks)
    (outward : project.ReadsOutward) :
    (∀ row other : Row α, row.size = plan.size → other.size = plan.size →
      (∀ slot, plan.IsHeld project slot → row.get slot = other.get slot) →
        plan.settle row = plan.settle other ∧ plan.Solves project (plan.settle row)) ∧
    (∀ row other : Row α, row.size = plan.size → other.size = plan.size → row.time = other.time →
      Row.assign plan.clock.dt row (plan.program .initials) =
          Row.assign plan.clock.dt other (plan.program .initials) ∧
        plan.settle (Row.assign plan.clock.dt row (plan.program .initials)) =
          Row.assign plan.clock.dt row (plan.program .initials)) := by
  have consistent := Project.consistent_of_compile compiled
  have names : project.HasPlainNames := Project.hasPlainNames_of_compile compiled plain
  constructor
  · intro row other size size' same
    exact ⟨settle_congr consistent planned names spares outward size size' same,
      solves_settle consistent planned names spares outward size⟩
  · intro row other size size' same
    exact ⟨assign_initials_congr consistent planned names outward size size' same,
      settle_assign_initials consistent planned names outward size⟩

/-- A project of three models, each instantiated in the one before it: inside `m` the module `n`
reads `a` of the main model, and `m` reads `b` beside it. -/
def nested : Document.Project Float :=
  ⟨"", ⟨0, 2, 1, none⟩, [
    ⟨"main", none, [
      .auxiliary ⟨"a", "1", none, none⟩,
      .auxiliary ⟨"b", "", some (.reference "time"), none⟩,
      .module ⟨"m", "sub", [⟨"b", "m.d"⟩]⟩]⟩,
    ⟨"sub", none, [
      .auxiliary ⟨"d", "0", none, none⟩,
      .stock ⟨"s", "0", none, ["f"], [], false⟩,
      .flow ⟨"f", "", some (.binary .add (.reference "d") (.reference "n.y")), none, false⟩,
      .module ⟨"n", "deep", [⟨".a", "n.x"⟩]⟩]⟩,
    ⟨"deep", none, [
      .auxiliary ⟨"x", "0", none, none⟩,
      .auxiliary ⟨"y", "", some (.reference "x"), none⟩]⟩]⟩

theorem nested_runs : ∃ project plan, Project.compile nested = .ok project ∧
    ofProject project = .ok plan ∧ nested.HasPlainNames ∧ project.SparesStocks ∧
      project.ReadsOutward := by
  have check : ∃ project ∈ (Project.compile nested).toOption,
      (ofProject project).toOption.isSome ∧ nested.HasPlainNames ∧ project.SparesStocks ∧
        ∀ main ∈ project.main?, ∀ entry ∈ main.absoluteSources, ∀ path ∈ entry.2,
          Path.IsSolid path ∧ Path.head path ≠ entry.1 := by
    rw [Project.compile_eq]
    decide +kernel
  obtain ⟨project, compiled, planned, plain, spares, outside⟩ := check
  have compiled := toOption_eq_some.mp compiled
  obtain ⟨plan, planned⟩ := Option.isSome_iff_exists.mp planned
  exact ⟨project, plan, compiled, toOption_eq_some.mp planned, plain, spares,
    Project.readsOutward_of_absoluteSources (Project.consistent_of_compile compiled) outside⟩

theorem evaluation_sound_nested : ∃ project plan, Project.compile nested = .ok project ∧
    ofProject project = .ok plan ∧ plan.Solves project (plan.settle plan.initialRow) ∧
      plan.settle plan.initialRow = plan.initialRow := by
  obtain ⟨project, plan, compiled, planned, plain, spares, outward⟩ := nested_runs
  obtain ⟨step, start⟩ := evaluation_sound compiled planned plain spares outward
  have size := size_initialRow plan
  exact ⟨project, plan, compiled, planned,
    (step _ _ size size fun _ _ => rfl).2, (start _ _ (by simp) (by simp) rfl).2⟩

end Plan
end StockFlow
