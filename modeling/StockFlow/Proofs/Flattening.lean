import StockFlow.Proofs.Mirroring
import StockFlow.Proofs.Planning
import StockFlow.Proofs.References
import StockFlow.Proofs.Renaming

/-!
# Flattened projects

The variables of all instances of a plan, each under a name of its own, make a project of one model:
names in equations become the names of the slots that they lead to, and an input refers to its source.
Where all names lead somewhere, the equations of that model can be solved in the order in which the
plan makes its assignments, so there is no cycle among them and the project can be run.
-/

namespace StockFlow

variable {α : Type} [Scalar α]

/-! ## Unclaimed names -/

/-- Whether no variable of a project document has the name of a clock reference. -/
def Document.Project.LeavesClock (document : Document.Project α) : Prop :=
  ∀ model ∈ document.models, ∀ definition ∈ model.definitions,
    ClockReference.ofName? (Name.canonical definition.name) = none

omit [Scalar α] in
instance {document : Document.Project α} : Decidable document.LeavesClock :=
  inferInstanceAs (Decidable (∀ _ ∈ _, _))

theorem Library.leavesClock_model (function : Stateful) :
    ∀ definition ∈ (Library.model function : Document.Model α).definitions,
      ClockReference.ofName? (Name.canonical definition.name) = none := by
  intro definition member
  obtain ⟨listed, -⟩ := name_mem_words member
  rw [canonical_word listed]
  generalize definition.name = name at listed
  revert name
  decide

theorem Model.leavesClock_of_build {document : Document.Model α} {implicit : Bool} {model : Model α}
    (built : build document implicit = .ok model) (clear : ∀ definition ∈ document.definitions,
      ClockReference.ofName? (Name.canonical definition.name) = none) :
    ∀ v ∈ model.vars, ClockReference.ofName? v.name = none := by
  intro w member
  obtain ⟨definition, listed, v, u, made, checked, one, origin⟩ := origin_of_build built member
  rcases origin with rfl | ⟨other, among, checked'⟩
  · rw [name_of_expandVariable one, Variable.name_of_ofDefinition checked]
    exact clear definition listed
  · obtain ⟨call, suffix, named, -⟩ := madeFor_of_expandVariable one other among
    have starts : other.name.toList =
        '$' :: ("·" ++ v.name ++ "·" ++ toString call ++ "·" ++ suffix).toList := by
      rw [named, Expansion.stem]
      simp [String.toList_append]
    obtain ⟨rest, canonical⟩ := Name.canonical_cons_dollar starts
    rw [Variable.name_of_ofDefinition checked']
    exact ClockReference.ofName?_of_cons_dollar canonical

/-- The variables of a compiled project leave the names of the clock if those of the document do. -/
theorem Project.leavesClock_of_compile {document : Document.Project α} {project : Project α}
    (compiled : compile document = .ok project) (clear : document.LeavesClock) {name : Name}
    {model : LinkedModel α} (found : project.find? name = some model) :
    ∀ v ∈ model.vars, ClockReference.ofName? v.name = none := by
  rcases (isLinked_of_compile compiled found).2 with ⟨own, member, built⟩ | ⟨function, built⟩
  · exact Model.leavesClock_of_build built (clear own member)
  · exact Model.leavesClock_of_build built (Library.leavesClock_model function)

theorem Project.flows_of_compile {document : Document.Project α} {project : Project α}
    (compiled : compile document = .ok project) {name : Name} {model : LinkedModel α}
    (found : project.find? name = some model) {v : Variable α} (member : v ∈ model.vars)
    {flow : Name} (flowing : flow ∈ v.flows) : ∃ w ∈ model.vars, w.name = flow := by
  have checked : Model.checkFlows model.vars = .ok () := by
    rcases (isLinked_of_compile compiled found).2 with ⟨_, -, built⟩ | ⟨_, built⟩
    · obtain ⟨-, -, -, -, -, -, -, checked⟩ := Model.build_eq_ok built
      exact checked
    · obtain ⟨-, -, -, -, -, -, -, checked⟩ := Model.build_eq_ok built
      exact checked
  exact findNamed_isSome.mp (Model.checkFlows_eq_ok.mp checked v member flow flowing)

/-! ## Inputs that are spared -/

/-- Whether no input of a module overrides a variable with a table. -/
def Project.SparesTables (project : Project α) : Prop :=
  ∀ model ∈ project.models, ∀ module ∈ model.modules, ∀ inner ∈ project.find? module.model,
    ∀ input ∈ module.inputs, ∀ v ∈ inner.find? input.target, v.table?.isSome = false

omit [Scalar α] in
instance {project : Project α} : Decidable project.SparesTables :=
  inferInstanceAs (Decidable (∀ _ ∈ _, _))

/-- An undotted name other than that of the time does not lead to the time. -/
theorem Coded.Made.late_of_slot? {project : Project α} {clock : Clock α} {root node : Coded α}
    (made : Made project clock root node) {name : Name} {slot : Nat} (undotted : ¬ Path.IsDotted name)
    (notTime : name ≠ "time") (leads : node.slot? name = some slot) : slot ≠ timeSlot := by
  have late : ∀ {below : Coded α} {other : Name}, Made project clock root below →
      below.slots.get? other = some slot → slot ≠ timeSlot :=
    fun made own => Nat.ne_of_gt (made.owns_own own).2
  rw [Instance.slot?_eq, if_neg notTime, Path.unmarked_of_not_dotted undotted] at leads
  unfold Instance.locate? at leads
  split at leads
  · rename_i own
    cases leads
    exact late made own
  · split at leads
    · exact late made leads
    · obtain ⟨child, inside, leads⟩ := Option.bind_eq_some_iff.mp leads
      have below : Made project clock root child := by
        cases made with
        | intro _ below => exact below child (Instance.mem_of_child? inside)
      -- the path ends at the module, so its output is meant
      rw [Path.split_of_not_dotted undotted, Option.getD_none, Instance.slot?_eq, if_neg (by decide),
        Path.unmarked_of_not_dotted (by decide), Instance.locate?] at leads
      split at leads
      · rename_i own
        cases leads
        exact late below own
      · exact late below leads

namespace Plan

variable {project : Project α} {plan : Plan α}

/-! ## Places -/

/-- Where a variable stands in the tree of a plan: in the instance that a path leads to, with a slot. -/
structure Stands (project : Project α) (plan : Plan α) (path : List Name) (node : Coded α)
    (model : LinkedModel α) (v : Variable α) (slot : Nat) : Prop where
  leads : plan.root.descend? path = some node
  found : project.find? node.model = some model
  member : v ∈ model.vars
  own : node.slots.get? v.name = some slot

omit [Scalar α] in
theorem Stands.variableSlot? {path : List Name} {node : Coded α} {model : LinkedModel α}
    {v : Variable α} {slot : Nat} (stands : plan.Stands project path node model v slot) :
    plan.variableSlot? (path, v.name) = some slot := by
  rw [Plan.variableSlot?, stands.leads, Option.bind_some, stands.own]

/-- The places of all variables in the order of their slots. -/
def places (plan : Plan α) : List (List Name × Name) :=
  plan.root.entries.map fun entry => (entry.1.dropLast, entry.1.getLastD "")

section

variable (consistent : project.Consistent) (planned : ofProject project = .ok plan)
include consistent planned

theorem exists_stands {place : List Name × Name} {slot : Nat}
    (here : plan.variableSlot? place = some slot) :
    ∃ node model v, plan.Stands project place.1 node model v slot ∧ v.name = place.2 := by
  obtain ⟨node, model, v, leads, found, member, -, named⟩ :=
    hasVariable_of_variableSlot? consistent.distinct planned here
  rw [variableSlot?, leads, Option.bind_some, ← named] at here
  exact ⟨node, model, v, ⟨leads, found, member, here⟩, named⟩

theorem mem_places {place : List Name × Name} :
    place ∈ plan.places ↔ ∃ slot, plan.variableSlot? place = some slot := by
  obtain ⟨made, -⟩ := made_of_ofProject consistent planned
  rw [places, List.mem_map]
  constructor
  · rintro ⟨⟨names, slot⟩, listed, rfl⟩
    obtain ⟨path, name, node, rfl, leads, found⟩ := made.divided.mem_entries.mp listed
    refine ⟨slot, (variableSlot?_eq_some consistent.distinct planned).mpr ?_⟩
    simpa using listed
  · rintro ⟨slot, here⟩
    refine ⟨_, (variableSlot?_eq_some consistent.distinct planned).mp here, ?_⟩
    simp

theorem nodup_places : plan.places.Nodup := by
  have slots : plan.places.map plan.variableSlot? = (plan.root.entries.map Prod.snd).map some := by
    obtain ⟨made, -⟩ := made_of_ofProject consistent planned
    rw [places, List.map_map, List.map_map]
    refine List.map_congr_left fun (names, slot) listed => ?_
    obtain ⟨path, name, node, rfl, leads, found⟩ := made.divided.mem_entries.mp listed
    refine (variableSlot?_eq_some consistent.distinct planned).mpr ?_
    simpa using listed
  refine List.Nodup.of_map plan.variableSlot? ?_
  rw [slots, slots_entries consistent.distinct planned]
  exact List.Nodup.map (Option.some_injective _) List.nodup_range'

theorem exists_place {slot : Nat} (late : slot ≠ timeSlot) (within : slot < plan.size) :
    ∃ place, plan.variableSlot? place = some slot := by
  obtain ⟨place, -, here⟩ := (bijOn_variableSlot? consistent.distinct planned).surjOn
    ⟨slot, ⟨Nat.one_le_iff_ne_zero.mpr late, within⟩, rfl⟩
  exact ⟨place, here⟩

theorem place_unique {place other : List Name × Name} {slot : Nat}
    (one : plan.variableSlot? place = some slot) (two : plan.variableSlot? other = some slot) :
    place = other :=
  (bijOn_variableSlot? consistent.distinct planned).injOn
    (hasVariable_of_variableSlot? consistent.distinct planned one)
    (hasVariable_of_variableSlot? consistent.distinct planned two) (one.trans two.symm)

theorem late_of_variableSlot? {place : List Name × Name} {slot : Nat}
    (here : plan.variableSlot? place = some slot) : slot ≠ timeSlot := by
  obtain ⟨other, ⟨late, -⟩, same⟩ := (bijOn_variableSlot? consistent.distinct planned).mapsTo
    (hasVariable_of_variableSlot? consistent.distinct planned here)
  obtain rfl : other = slot := Option.some.inj (same.trans here)
  exact Nat.one_le_iff_ne_zero.mp late

end

/-! ## Names of slots -/

/-- Whether the places of a plan have different names that can be declared in one model. -/
structure IsNaming (plan : Plan α) (encode : List Name × Name → Name) : Prop where
  injective : ∀ place ∈ plan.places, ∀ other ∈ plan.places, encode place = encode other → place = other
  plain : ∀ place ∈ plan.places, (encode place).IsPlain
  clear : ∀ place ∈ plan.places, ClockReference.ofName? (encode place) = none
  canonical : ∀ place ∈ plan.places, Name.canonical (encode place) = encode place

omit [Scalar α] in
instance {plan : Plan α} {encode : List Name × Name → Name} : Decidable (plan.IsNaming encode) :=
  decidable_of_iff
    ((∀ place ∈ plan.places, ∀ other ∈ plan.places, encode place = encode other → place = other) ∧
      ∀ place ∈ plan.places, (encode place).IsPlain ∧ ClockReference.ofName? (encode place) = none ∧
        Name.canonical (encode place) = encode place)
    ⟨fun ⟨injective, each⟩ => ⟨injective, fun place listed => (each place listed).1,
      fun place listed => (each place listed).2.1, fun place listed => (each place listed).2.2⟩,
    fun naming => ⟨naming.injective, fun place listed =>
      ⟨naming.plain place listed, naming.clear place listed, naming.canonical place listed⟩⟩⟩

/-- The name of a slot: that of the place it belongs to. -/
def nameOf (plan : Plan α) (encode : List Name × Name → Name) (slot : Nat) : Name :=
  (plan.places.find? fun place => plan.variableSlot? place == some slot).elim "time" encode

/-- The name that a name in an equation of an instance becomes: that of the slot it leads to. -/
def rename (plan : Plan α) (encode : List Name × Name → Name) (node : Coded α) (name : Name) : Name :=
  if (ClockReference.ofName? name).isSome then name
  else (node.slot? name).elim name (plan.nameOf encode)

/-- The definition of the variable of a place in one model. -/
def flatDefinition? (project : Project α) (plan : Plan α) (encode : List Name × Name → Name)
    (place : List Name × Name) : Option (Document.Variable α) := do
  let node ← plan.root.descend? place.1
  let model ← project.find? node.model
  let v ← model.find? place.2
  match node.note.inputs.get? place.2 with
  | some source =>
    some (.auxiliary ⟨encode place, "",
      some (.reference (source.elim "" (plan.nameOf encode))), none⟩)
  | none => v.definition? (plan.rename encode node) (encode place)

/-- The project of one model with the variables of all places. -/
def flatten (project : Project α) (plan : Plan α) (encode : List Name × Name → Name) :
    Document.Project α :=
  ⟨project.name, project.runSpec,
    [⟨mainModel, none, plan.places.filterMap (plan.flatDefinition? project encode)⟩]⟩

/-! ## Resolved names -/

end Plan

/-- Whether the names of a variable of an instance lead to slots: those in its equation and among its
flows, or its source if it is an input; and whether the tables that it looks up are tables of the same
model. -/
structure Coded.Resolves (node : Coded α) (model : LinkedModel α) (v : Variable α) : Prop where
  source : ∀ source ∈ node.note.inputs.get? v.name, source.isSome = true
  flows : node.note.inputs.get? v.name = none → ∀ flow ∈ v.flows, (node.slot? flow).isSome = true
  references : node.note.inputs.get? v.name = none → ∀ equation ∈ v.equation?,
    ∀ name ∈ equation.references, ClockReference.ofName? name = none →
      (node.slot? name).isSome = true
  tables : node.note.inputs.get? v.name = none → ∀ equation ∈ v.equation?,
    ∀ name ∈ equation.tableNames, name ∈ model.tables

omit [Scalar α] in
instance {node : Coded α} {model : LinkedModel α} {v : Variable α} :
    Decidable (node.Resolves model v) :=
  decidable_of_iff
    ((∀ source ∈ node.note.inputs.get? v.name, source.isSome = true) ∧
      (node.note.inputs.get? v.name = none → (∀ flow ∈ v.flows, (node.slot? flow).isSome = true) ∧
        ∀ equation ∈ v.equation?, (∀ name ∈ equation.references,
            ClockReference.ofName? name = none → (node.slot? name).isSome = true) ∧
          ∀ name ∈ equation.tableNames, name ∈ model.tables))
    ⟨fun ⟨source, own⟩ => ⟨source, fun none => (own none).1,
      fun none equation here => ((own none).2 equation here).1,
      fun none equation here => ((own none).2 equation here).2⟩,
    fun resolves => ⟨resolves.source, fun none => ⟨resolves.flows none, fun equation here =>
      ⟨resolves.references none equation here, resolves.tables none equation here⟩⟩⟩⟩

namespace Plan

variable {project : Project α} {plan : Plan α}

/-- Whether the names of all variables in the tree of a plan lead to slots. -/
def IsResolved (project : Project α) (plan : Plan α) : Prop :=
  ∀ path node model v slot, plan.Stands project path node model v slot → node.Resolves model v

/-- It is enough to look at the places of a plan. -/
theorem isResolved_of_places (consistent : project.Consistent) (planned : ofProject project = .ok plan)
    (each : ∀ place ∈ plan.places, ∀ node ∈ plan.root.descend? place.1,
      ∀ model ∈ project.find? node.model, ∀ v ∈ model.find? place.2, Coded.Resolves node model v) :
    plan.IsResolved project := fun path node model v slot stands =>
  each (path, v.name) ((mem_places consistent planned).mpr ⟨slot, stands.variableSlot?⟩) node
    stands.leads model stands.found v
    (findNamed_of_mem (consistent.distinct stands.found) stands.member)

namespace IsResolved

variable {path : List Name} {node : Coded α} {model : LinkedModel α} {v : Variable α} {slot : Nat}
  (resolved : plan.IsResolved project) (stands : plan.Stands project path node model v slot)
include resolved stands

omit [Scalar α]

theorem exists_source {source : Option Nat} (connected : node.note.inputs.get? v.name = some source) :
    ∃ target, source = some target :=
  Option.isSome_iff_exists.mp ((resolved _ _ _ _ _ stands).source source connected)

variable (unconnected : node.note.inputs.get? v.name = none)
include unconnected

theorem exists_flow {flow : Name} (flowing : flow ∈ v.flows) :
    ∃ target, node.slot? flow = some target :=
  Option.isSome_iff_exists.mp ((resolved _ _ _ _ _ stands).flows unconnected flow flowing)

theorem exists_reference {equation : Equation α} (own : v.equation? = some equation) {name : Name}
    (refers : name ∈ equation.references) (unclocked : ClockReference.ofName? name = none) :
    ∃ target, node.slot? name = some target :=
  Option.isSome_iff_exists.mp
    ((resolved _ _ _ _ _ stands).references unconnected equation own name refers unclocked)

end IsResolved

/-- What makes a plan one that can be flattened: it is that of a compiled project, and what it reads is
known. -/
structure Flattens (project : Project α) (plan : Plan α) (encode : List Name × Name → Name) : Prop
    extends plan.IsSound project where
  resolved : plan.IsResolved project
  naming : plan.IsNaming encode
  sparesTables : project.SparesTables
  clear : ∀ {name model}, project.find? name = some model → ∀ v ∈ model.vars,
    ClockReference.ofName? v.name = none
  flowing : ∀ {name model}, project.find? name = some model → ∀ v ∈ model.vars, ∀ flow ∈ v.flows,
    ∃ w ∈ model.vars, w.name = flow
  tables : ∀ {name model}, project.find? name = some model → ∀ v ∈ model.vars, ∀ table,
    v.table? = some table → Table.build table.graph = .ok table

/-- The variable of a place in one model. -/
def flatVariable (plan : Plan α) (encode : List Name × Name → Name) (path : List Name)
    (node : Coded α) (v : Variable α) : Variable α :=
  match node.note.inputs.get? v.name with
  | some source => .formula
    ⟨encode (path, v.name), "", .reference (source.elim "" (plan.nameOf encode)), none, false, false⟩
  | none => v.renamed (plan.rename encode node) (encode (path, v.name))

namespace Flattens

variable {encode : List Name × Name → Name} (flattens : plan.Flattens project encode)
include flattens

section

variable {place : List Name × Name} {slot : Nat}

theorem nameOf_eq (here : plan.variableSlot? place = some slot) :
    plan.nameOf encode slot = encode place := by
  have member := (mem_places flattens.consistent flattens.planned).mpr ⟨slot, here⟩
  unfold nameOf
  cases found : plan.places.find? fun place => plan.variableSlot? place == some slot with
  | none => exact absurd (beq_iff_eq.mpr here) (List.find?_eq_none.mp found place member)
  | some other =>
    have there : plan.variableSlot? other = some slot := by simpa using List.find?_some found
    rw [Option.elim_some, place_unique flattens.consistent flattens.planned there here]

theorem nameOf_time : plan.nameOf encode timeSlot = "time" := by
  unfold nameOf
  cases found : plan.places.find? fun place => plan.variableSlot? place == some timeSlot with
  | none => rfl
  | some other =>
    have there : plan.variableSlot? other = some timeSlot := by simpa using List.find?_some found
    exact absurd rfl (late_of_variableSlot? flattens.consistent flattens.planned there)

theorem canonical_nameOf : Name.canonical (plan.nameOf encode slot) = plan.nameOf encode slot := by
  unfold nameOf
  cases found : plan.places.find? fun place => plan.variableSlot? place == some slot with
  | none => exact ClockReference.canonical_of_ofName? (show ClockReference.ofName? "time" = some .time from rfl)
  | some other => exact flattens.naming.canonical other (List.mem_of_find?_eq_some found)

end

variable {path : List Name} {node : Coded α} {model : LinkedModel α} {v : Variable α} {slot : Nat}
  (stands : plan.Stands project path node model v slot)
include stands

theorem made : Coded.Made project plan.clock plan.root node :=
  (made_of_ofProject flattens.consistent flattens.planned).1.of_descend? stands.leads

theorem isModule_eq_false : v.isModule = false := by
  cases flattens.made stands with
  | @intro _ first other fits _ =>
    cases fits.found.symm.trans stands.found
    exact fits.isModule_eq_false (flattens.consistent.distinct stands.found) stands.member stands.own

theorem mem_places : (path, v.name) ∈ plan.places :=
  (Plan.mem_places flattens.consistent flattens.planned).mpr ⟨slot, stands.variableSlot?⟩

omit [Scalar α] flattens stands in
theorem rename_eq {name : Name} {target : Nat} (unclocked : ClockReference.ofName? name = none)
    (leads : node.slot? name = some target) :
    plan.rename encode node name = plan.nameOf encode target := by
  rw [rename, unclocked, Option.isSome_none, if_neg Bool.false_ne_true, leads, Option.elim_some]

omit [Scalar α] flattens stands in
theorem rename_clock {name : Name} {clock : ClockReference}
    (clocked : ClockReference.ofName? name = some clock) : plan.rename encode node name = name := by
  rw [rename, clocked, Option.isSome_some, if_pos rfl]

theorem rename_primitive {name : Name} (primitive : isPrimitive name = true) :
    plan.rename encode node name = name := by
  rw [rename, (flattens.made stands).slot?_primitive flattens.plain primitive, Option.elim_none, ite_self]

/-- The equation of a variable that is no input can be lowered in its place. -/
theorem isAdmissible (unconnected : node.note.inputs.get? v.name = none) {equation : Equation α}
    (own : v.equation? = some equation) : equation.IsAdmissible := by
  obtain ⟨term, -, computes⟩ := flattens.toIsSound.exists_term stands.leads stands.found stands.member
    unconnected stands.own (by decide : Phase.initials ≠ .stocks) rfl (flattens.isModule_eq_false stands)
  generalize whole : [(⟨slot, term⟩ : Assignment α)] = part at computes
  cases computes with
  | input connected => cases connected.symm.trans unconnected
  | enter => cases own
  | stock _ _ _ lowered =>
    cases own
    exact Scope.exists_lower_iff.mp ⟨_, lowered⟩
  | formula _ _ lowered =>
    cases own
    exact (Scope.exists_formulaTerm_iff _).mp ⟨_, lowered⟩

/-- A flow leads to a slot, and its name is none of the clock. -/
theorem exists_flow (unconnected : node.note.inputs.get? v.name = none) {flow : Name}
    (flowing : flow ∈ v.flows) : ClockReference.ofName? flow = none ∧
      ∃ target, node.slot? flow = some target := by
  obtain ⟨w, declared, rfl⟩ := flattens.flowing stands.found v stands.member flow flowing
  exact ⟨flattens.clear stands.found w declared, flattens.resolved.exists_flow stands unconnected flowing⟩

theorem mentionsCanonical (unconnected : node.note.inputs.get? v.name = none) :
    v.MentionsCanonical (plan.rename encode node) := by
  refine ⟨fun equation own name refers => ?_, fun equation own call made => ?_, fun flow flowing => ?_⟩
  · cases clocked : ClockReference.ofName? name with
    | some clock =>
      rw [rename_clock clocked]
      exact ClockReference.canonical_of_ofName? clocked
    | none =>
      obtain ⟨target, leads⟩ := flattens.resolved.exists_reference stands unconnected own refers
        clocked
      rw [rename_eq clocked leads]
      exact flattens.canonical_nameOf
  · have primitive := Equation.isPrimitive_of_isAdmissible
      (flattens.isAdmissible stands unconnected own call made)
    rw [flattens.rename_primitive stands primitive]
    exact canonical_of_isPrimitive primitive
  · obtain ⟨unclocked, target, leads⟩ := flattens.exists_flow stands unconnected flowing
    rw [rename_eq unclocked leads]
    exact flattens.canonical_nameOf

omit [Scalar α] flattens stands in
theorem name_flatVariable (own : v.isModule = false) :
    (plan.flatVariable encode path node v).name = encode (path, v.name) := by
  unfold flatVariable
  split
  · rfl
  · exact Variable.name_renamed own

omit [Scalar α] flattens stands in
theorem isModule_flatVariable (own : v.isModule = false) :
    (plan.flatVariable encode path node v).isModule = false := by
  unfold flatVariable
  split
  · rfl
  · rwa [Variable.isModule_renamed]

/-- The definition of a place is checked to its variable. -/
theorem exists_definition : ∃ definition,
    plan.flatDefinition? project encode (path, v.name) = some definition ∧
      definition.name = encode (path, v.name) ∧
      Variable.ofDefinition definition = .ok (plan.flatVariable encode path node v) := by
  have canonical := flattens.naming.canonical _ (flattens.mem_places stands)
  have sought : model.find? v.name = some v :=
    findNamed_of_mem (flattens.consistent.distinct stands.found) stands.member
  have start : plan.flatDefinition? project encode (path, v.name) =
      match node.note.inputs.get? v.name with
      | some source => some (.auxiliary ⟨encode (path, v.name), "",
          some (.reference (source.elim "" (plan.nameOf encode))), none⟩)
      | none => v.definition? (plan.rename encode node) (encode (path, v.name)) := by
    simp [flatDefinition?, stands.leads, stands.found, sought]
  unfold flatVariable
  rw [start]
  cases connected : node.note.inputs.get? v.name with
  | some source =>
    obtain ⟨target, rfl⟩ := flattens.resolved.exists_source stands connected
    refine ⟨_, rfl, rfl, bind_eq_ok.mpr ⟨.reference (plan.nameOf encode target), ?_, ?_⟩⟩
    · exact congrArg (fun name => Except.ok (Equation.reference name)) flattens.canonical_nameOf
    · simp only [canonical]
      rfl
  | none =>
    obtain ⟨definition, written⟩ : ∃ definition,
        v.definition? (plan.rename encode node) (encode (path, v.name)) = some definition := by
      cases v with
      | stock => exact ⟨_, rfl⟩
      | formula formula =>
        simp only [Variable.definition?]
        split <;> exact ⟨_, rfl⟩
      | module => cases flattens.isModule_eq_false stands
    exact ⟨definition, written, Variable.name_definition? written, Variable.ofDefinition_renamed
      canonical (flattens.mentionsCanonical stands connected)
      (flattens.tables stands.found v stands.member) written⟩

/-- The equation of a variable that is no input can be lowered under the names of one model. -/
theorem isAdmissible_mapNames (unconnected : node.note.inputs.get? v.name = none) {equation : Equation α}
    (own : v.equation? = some equation) : (equation.mapNames (plan.rename encode node)).IsAdmissible := by
  have admissible := flattens.isAdmissible stands unconnected own
  exact admissible.mapNames fun call made =>
    flattens.rename_primitive stands (Equation.isPrimitive_of_isAdmissible (admissible call made))

omit stands in
/-- A name that is not reserved stands for the variable of a place. -/
theorem exists_place_of_nameOf {target : Nat} (within : target < plan.size)
    (unreserved : isReserved (plan.nameOf encode target) = false) :
    ∃ place, plan.variableSlot? place = some target ∧ plan.nameOf encode target = encode place := by
  have late : target ≠ timeSlot := by
    rintro rfl
    rw [flattens.nameOf_time] at unreserved
    cases unreserved
  obtain ⟨place, here⟩ := exists_place flattens.consistent flattens.planned late within
  exact ⟨place, here, flattens.nameOf_eq here⟩

/-- What a renamed equation names is the variable of a slot that the equation refers to. -/
theorem refers_of_mem_names (unconnected : node.note.inputs.get? v.name = none) {equation : Equation α}
    (own : v.equation? = some equation) {name : Name}
    (among : name ∈ (equation.mapNames (plan.rename encode node)).names) :
    ∃ place other, plan.variableSlot? place = some other ∧ name = encode place ∧
      (node.scope model plan.clock v.name).Refers equation.references other := by
  have admissible := flattens.isAdmissible_mapNames stands unconnected own
  obtain ⟨refers, unreserved⟩ := Equation.mem_references_of_declared
    (fun call member => Equation.isPrimitive_of_isAdmissible (admissible call member))
    (NameSet.mem_ofList.mp among)
  rw [Equation.references_mapNames] at refers
  obtain ⟨written, inside, rfl⟩ := List.mem_map.mp refers
  cases clocked : ClockReference.ofName? written with
  | some clock =>
    rw [rename_clock clocked, isReserved, clocked, Option.isSome_some, Bool.or_true] at unreserved
    cases unreserved
  | none =>
    obtain ⟨target, leads⟩ := flattens.resolved.exists_reference stands unconnected own inside clocked
    rw [rename_eq clocked leads] at unreserved ⊢
    have within := lt_size_of_slot? flattens.consistent flattens.planned stands.leads leads
    obtain ⟨place, here, same⟩ := flattens.exists_place_of_nameOf within unreserved
    exact ⟨place, target, here, same, .inr ⟨written, inside, clocked, leads⟩⟩

/-- Whatever the variable of a place reads in one model is the variable of a slot that it reads in the
plan. -/
theorem reads_of_mem_sources {name : Name}
    (among : name ∈ (plan.flatVariable encode path node v).sources) :
    ∃ place other, plan.variableSlot? place = some other ∧ name = encode place ∧
      Coded.Reads node model plan.clock v other := by
  unfold flatVariable at among
  unfold Coded.Reads
  cases connected : node.note.inputs.get? v.name with
  | some source =>
    rw [connected] at among
    obtain ⟨target, rfl⟩ := flattens.resolved.exists_source stands connected
    have callless : ∀ call ∈ (Equation.reference (plan.nameOf encode target) : Equation α).calls,
        isPrimitive call.1 = true := by simp [Equation.calls]
    obtain ⟨refers, unreserved⟩ :=
      Equation.mem_references_of_declared callless (NameSet.mem_ofList.mp among)
    obtain rfl := List.mem_singleton.mp refers
    have within := lt_size_of_input flattens.consistent.distinct flattens.planned stands.leads connected
    obtain ⟨place, here, same⟩ := flattens.exists_place_of_nameOf within unreserved
    exact ⟨place, target, here, same, rfl⟩
  | none =>
    rw [connected] at among
    obtain ⟨equation, own⟩ : ∃ equation, v.equation? = some equation := by
      cases v with
      | stock | formula => exact ⟨_, rfl⟩
      | module => cases flattens.isModule_eq_false stands
    have renamed : (v.renamed (plan.rename encode node) (encode (path, v.name))).equation? =
        some (equation.mapNames (plan.rename encode node)) := by
      rw [Variable.equation?_renamed, own, Option.map_some]
    dsimp only at among
    rw [Variable.sources_of_equation? renamed] at among
    obtain ⟨place, other, here, same, refers⟩ :=
      flattens.refers_of_mem_names stands connected own among
    exact ⟨place, other, here, same, equation, own, refers⟩

/-- A flow leads to the variable of a place. -/
theorem exists_place_of_flow (unconnected : node.note.inputs.get? v.name = none) {flow : Name}
    (flowing : flow ∈ v.flows) : ∃ place target, plan.variableSlot? place = some target ∧
      node.slot? flow = some target ∧ plan.rename encode node flow = encode place := by
  obtain ⟨unclocked, target, leads⟩ := flattens.exists_flow stands unconnected flowing
  have within := lt_size_of_slot? flattens.consistent flattens.planned stands.leads leads
  have late : target ≠ timeSlot := by
    obtain ⟨w, declared, rfl⟩ := flattens.flowing stands.found v stands.member flow flowing
    refine (flattens.made stands).late_of_slot? (flattens.plain stands.found w declared).2.1 ?_ leads
    rintro same
    rw [same] at unclocked
    cases unclocked
  obtain ⟨place, here⟩ := exists_place flattens.consistent flattens.planned late within
  exact ⟨place, target, here, leads, by rw [rename_eq unclocked leads, flattens.nameOf_eq here]⟩

theorem exists_place_of_flat_flow {flow : Name}
    (flowing : flow ∈ (plan.flatVariable encode path node v).flows) :
    ∃ place target, plan.variableSlot? place = some target ∧ flow = encode place := by
  unfold flatVariable at flowing
  cases connected : node.note.inputs.get? v.name with
  | some =>
    rw [connected] at flowing
    cases flowing
  | none =>
    rw [connected] at flowing
    dsimp only at flowing
    rw [Variable.flows_renamed] at flowing
    obtain ⟨written, inside, rfl⟩ := List.mem_map.mp flowing
    obtain ⟨place, target, here, -, same⟩ := flattens.exists_place_of_flow stands connected inside
    exact ⟨place, target, here, same⟩

theorem isAdmissible_flatVariable {equation : Equation α}
    (own : (plan.flatVariable encode path node v).equation? = some equation) :
    equation.IsAdmissible := by
  unfold flatVariable at own
  cases connected : node.note.inputs.get? v.name with
  | some =>
    rw [connected] at own
    cases own
    simp [Equation.IsAdmissible, Equation.calls]
  | none =>
    rw [connected] at own
    dsimp only at own
    rw [Variable.equation?_renamed] at own
    obtain ⟨written, isOwn, rfl⟩ := Option.map_eq_some_iff.mp own
    exact flattens.isAdmissible_mapNames stands connected isOwn

theorem isPrimitive_flatVariable : (plan.flatVariable encode path node v).IsPrimitive :=
  fun _ own call made =>
    Equation.isPrimitive_of_isAdmissible (flattens.isAdmissible_flatVariable stands own call made)

end Flattens

end Plan

end StockFlow
