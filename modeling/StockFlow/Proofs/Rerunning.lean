import StockFlow.Proofs.Catalog
import StockFlow.Proofs.Codability
import StockFlow.Proofs.Rejoining

/-!
# Runs under other names

Names in another order give variables other slots and assignments another order. But the names that a
variable mentions lead to the slots of the same variables as before, so each plan mirrors the other and
the series of a variable is that under its old name.
-/

namespace StockFlow

variable {α : Type}

open Name (Derives Renames relabel)

/-- Whether a variable bears or mentions a name. -/
def Variable.Uses (v : Variable α) (name : Name) : Prop :=
  name = v.name ∨ name ∈ v.flows ∨
    ∃ equation, v.equation? = some equation ∧ name ∈ equation.references

/-! ## Instances under other names -/

variable [Scalar α]

namespace Plan

/-- Whether two instances have the same variables under names that a map gives, and the names in use lead
to slots that correspond. -/
structure Twins (project other : Project α) (plan next : Plan α) (slots : Nat → Nat) (g : Name → Name)
    (named : Name → Prop) (node node' : Coded α) (model model' : LinkedModel α) : Prop where
  leads : ∃ path, plan.root.descend? path = some node
  leads' : ∃ path, next.root.descend? path = some node'
  found : project.find? node.model = some model
  found' : other.find? node'.model = some model'
  vars : ∀ v ∈ model.vars, v.isModule = false →
    v.IsPrimitive ∧ (∀ name, v.Uses name → named name) ∧ ∃ w ∈ model'.vars, v.Relabels g w
  reserved : ∀ name, isReserved name = true → g name = name
  clock? : ∀ name, named name → ClockReference.ofName? (g name) = ClockReference.ofName? name
  table? : ∀ name, named name →
    (model'.find? (g name)).bind Variable.table? = (model.find? name).bind Variable.table?
  get? : ∀ name, named name → node'.slots.get? (g name) = (node.slots.get? name).map slots
  inputs : ∀ name, named name →
    node'.note.inputs.get? (g name) = (node.note.inputs.get? name).map (Option.map slots)
  slot? : ∀ name, named name → node'.slot? (g name) = (node.slot? name).map slots

namespace Twins

variable {project other : Project α} {plan next : Plan α} {slots : Nat → Nat} {g : Name → Name}
  {named : Name → Prop} {node node' : Coded α} {model model' : LinkedModel α}
  (twins : Twins project other plan next slots g named node node' model model')
  (sound : plan.IsSound project) (sound' : next.IsSound other) (clock : next.clock = plan.clock)
  (time : slots timeSlot = timeSlot)
include twins sound

theorem slotValue_eq {name : Name} (used : named name) (row : Row α) (owner owner' : Name) :
    (node'.scope model' next.clock owner').slotValue row (g name) =
      (node.scope model plan.clock owner).slotValue (row.read slots plan.size) name := by
  obtain ⟨_, leads⟩ := twins.leads
  have within : ∀ slot ∈ node.slot? name, slot < plan.size := fun slot =>
    Plan.lt_size_of_slot? sound.consistent sound.planned leads
  unfold Scope.slotValue Coded.scope
  dsimp only
  rw [twins.slot? name used]
  cases found : node.slot? name with
  | none => rfl
  | some slot => exact (Row.get_read (within slot found)).symm

include clock time

theorem carries {v : Variable α} (member : v ∈ model.vars) (computed : v.isModule = false) (row : Row α)
    (owner owner' : Name) : Scope.Carries (node.scope model plan.clock owner)
      (node'.scope model' next.clock owner') (row.read slots plan.size) row g v := by
  obtain ⟨primitive, uses, -⟩ := twins.vars v member computed
  have same : row.time = (row.read slots plan.size).time := by
    rw [Row.time, Row.time, Row.get_read sound.pos, time]
  refine ⟨clock, same, fun equation own name refers => ?_, fun equation own call inside => ⟨?_, ?_⟩, ?_⟩
  · have used := uses name (.inr (.inr ⟨equation, own, refers⟩))
    unfold Scope.referenceValue
    rw [twins.clock? name used]
    cases ClockReference.ofName? name with
    | none => exact twins.slotValue_eq sound used row owner owner'
    | some reference =>
      cases reference with
      | time => exact same
      | step => exact congrArg Clock.dt clock
      | start => exact congrArg Clock.start clock
      | stop => exact congrArg Clock.stop clock
  · exact twins.reserved _ (Bool.or_eq_true_iff.mpr (.inl (primitive equation own call inside)))
  · intro name looked
    refine twins.table? name (uses name (.inr (.inr ⟨equation, own, ?_⟩)))
    exact Equation.mem_references_of_lookedUp? inside looked
  · exact fun flow flowing => twins.slotValue_eq sound (uses flow (.inr (.inl flowing))) row owner owner'

include sound'

/-- Each variable has the one with its new name as its counterpart. -/
theorem reflects {v : Variable α} (member : v ∈ model.vars) {slot : Nat}
    (own : node.slots.get? v.name = some slot) : Reflects other plan next slots node model v slot := by
  obtain ⟨_, leads⟩ := twins.leads
  obtain ⟨_, leads'⟩ := twins.leads'
  obtain ⟨_, fits⟩ := sound.exists_fits leads twins.found
  have computed := fits.isModule_eq_false (sound.consistent.distinct twins.found) member own
  obtain ⟨primitive, uses, w, member', relabels⟩ := twins.vars v member computed
  have used := uses v.name (.inl rfl)
  have own' : node'.slots.get? w.name = some (slots slot) := by
    rw [relabels.name_eq, twins.get? _ used, own, Option.map_some]
  have inputs := twins.inputs _ used
  rw [← relabels.name_eq] at inputs
  have carries := twins.carries sound clock time member computed
  have mapped : ∀ equation, v.equation? = some equation →
      equation.mapReferences g = equation.mapNames g := fun equation own =>
    Equation.mapReferences_eq_mapNames fun call inside =>
      twins.reserved _ (Bool.or_eq_true_iff.mpr (.inl (primitive equation own call inside)))
  cases connected : node.note.inputs.get? v.name with
  | some source =>
    rw [connected, Option.map_some] at inputs
    refine .input connected fun phase early row _ satisfies => ?_
    have here := satisfies _ (sound'.mem_program_of_connected leads' twins.found' member' own' early inputs)
    refine here.trans ?_
    cases source with
    | none => rfl
    | some source =>
      refine (Row.get_read ?_).symm
      exact lt_size_of_input sound.consistent.distinct sound.planned leads connected
  | none =>
    rw [connected, Option.map_none] at inputs
    cases relabels with
    | module => cases computed
    | @formula formula text =>
      rw [mapped _ rfl] at member'
      refine .formula connected leads' twins.found' member' inputs own' ?_ fun row _ => ?_
      · exact congrArg (formula.table?.isNone && ·) (Equation.isConstant_mapNames g formula.equation)
      · have same := (carries row formula.name (g formula.name)).value rfl
        simp only [Scope.formulaValue, same]
    | @stock stock text =>
      rw [mapped _ rfl] at member'
      refine .stock connected leads' twins.found' member' inputs own' (fun row _ => ?_)
        fun row present _ => ?_
      · exact (carries row stock.name (g stock.name)).value rfl
      · have carried : (node'.scope model' next.clock (g stock.name)).nextValue row present
            ⟨g stock.name, stock.text, stock.initial.mapNames g, stock.inflows.map g,
              stock.outflows.map g, stock.nonNegative⟩ = _ :=
          (carries row stock.name (g stock.name)).nextValue present
        exact carried

end Twins

/-! ## The main model and what it calls -/

/-- Where a variable stands under new names: those of the main model's variables and modules are new. -/
def renamed (f : Name → Name) : List Name × Name → List Name × Name
  | ([], name) => ([], relabel f name)
  | (module :: rest, name) => (relabel f module :: rest, name)

/-- The slot that a variable has under its new name. -/
def renumbered (f : Name → Name) (plan next : Plan α) : Nat → Nat := plan.counterpart (renamed f) next

/-- Whether one plan is that of a project and another one that of the project under new names, both of
which can be evaluated in order. -/
structure Reruns (f : Name → Name) (known : Name → Prop) (project other : Project α)
    (main main' : LinkedModel α) (plan next : Plan α) : Prop where
  renames : Renames f known
  corresponds : project.Corresponds f known other
  sound : plan.IsSound project
  sound' : next.IsSound other
  isMain : project.main? = some main
  isMain' : other.main? = some main'

/-- Whether two instances below the root are those of a module that was made for a call, under its old and
under its new name. -/
structure Below (f : Name → Name) (known : Name → Prop) (project other : Project α) (plan next : Plan α)
    (module module' : Module) (child child' : Coded α) (inner inner' : LinkedModel α) : Prop where
  recasts : module.Recasts f known module'
  inside : plan.root.child? module.name = some child
  inside' : next.root.child? module'.name = some child'
  found : project.find? child.model = some inner
  found' : other.find? child'.model = some inner'
  same : inner'.toModel = inner.toModel
  built : ∃ function, Model.build (Library.model function) true = .ok inner.toModel
  wires : child.note.inputs =
    (Model.wires module).map fun wire => (wire.1, Coded.sourceSlot? plan.root plan.root wire.2)
  wires' : child'.note.inputs =
    (Model.wires module').map fun wire => (wire.1, Coded.sourceSlot? next.root next.root wire.2)

namespace Reruns

variable {f : Name → Name} {known : Name → Prop} {project other : Project α} {main main' : LinkedModel α}
  {plan next : Plan α} (reruns : Reruns f known project other main main' plan next)
include reruns

theorem recasts : main.toModel.Recasts f known main'.toModel :=
  reruns.corresponds.recasts reruns.isMain reruns.isMain'

theorem found : project.find? plan.root.model = some main := by
  rw [reruns.sound.isMain_root]
  exact reruns.isMain

theorem found' : other.find? next.root.model = some main' := by
  rw [reruns.sound'.isMain_root]
  exact reruns.isMain'

theorem exists_fits : (∃ first, Coded.Fits project plan.clock plan.root first main plan.root) ∧
    ∃ first, Coded.Fits other next.clock next.root first main' next.root :=
  ⟨reruns.sound.exists_fits (show plan.root.descend? [] = some plan.root from rfl) reruns.found,
    reruns.sound'.exists_fits (show next.root.descend? [] = some next.root from rfl) reruns.found'⟩

theorem clock_eq : next.clock = plan.clock := by
  obtain ⟨-, clock⟩ := clock_of_ofProject reruns.sound.planned
  obtain ⟨-, clock'⟩ := clock_of_ofProject reruns.sound'.planned
  rw [clock, clock', reruns.corresponds.runSpec_eq]

theorem renumbered_timeSlot : plan.renumbered f next timeSlot = timeSlot :=
  reruns.sound.counterpart_timeSlot (renamed f)

section

variable {name : Name} (derives : Derives known name)
include derives

theorem get?_root :
    next.root.slots.get? (relabel f name) = (plan.root.slots.get? name).map (plan.renumbered f next) := by
  obtain ⟨⟨_, fits⟩, _, fits'⟩ := reruns.exists_fits
  cases here : plan.root.slots.get? name with
  | none =>
    refine Option.eq_none_iff_forall_ne_some.mpr fun slot there => ?_
    obtain ⟨w, member', own, named⟩ := fits'.variable_of_get? there
    obtain ⟨v, member, reduces⟩ := reruns.recasts.vars.exists_left member'
    rw [reduces.relabels.name_eq] at named
    obtain rfl := reduces.derives.name.relabel_inj derives reruns.renames named
    obtain ⟨slot, found⟩ := fits.exists_get? member (reduces.relabels.isModule_eq ▸ own)
    rw [here] at found
    cases found
  | some slot =>
    obtain ⟨v, member, own, rfl⟩ := fits.variable_of_get? here
    obtain ⟨w, member', reduces⟩ := reruns.recasts.vars.exists_right member
    obtain ⟨slot', there⟩ := fits'.exists_get? member' (reduces.relabels.isModule_eq.trans own)
    rw [reduces.relabels.name_eq] at there
    have place : plan.variableSlot? ([], v.name) = some slot := here
    have place' : next.variableSlot? (renamed f ([], v.name)) = some slot' := there
    rw [there, Option.map_some, renumbered, reruns.sound.counterpart_eq place place']

omit derives in
theorem exists_below {module module' : Module} (member : module ∈ main.modules)
    (member' : module' ∈ main'.modules) (recasts : module.Recasts f known module') :
    ∃ child child' inner inner',
      Below f known project other plan next module module' child child' inner inner' := by
  obtain ⟨⟨_, fits⟩, _, fits'⟩ := reruns.exists_fits
  obtain ⟨child, inside, ofModel, wires⟩ := fits.exists_child? member
  obtain ⟨child', inside', ofModel', wires'⟩ := fits'.exists_child? member'
  obtain ⟨inner, inner', function, found, found', same, built⟩ :=
    reruns.corresponds.exists_inner reruns.sound.consistent reruns.isMain member recasts
  exact ⟨child, child', inner, inner', recasts, inside, inside', ofModel ▸ found, ofModel' ▸ found', same,
    ⟨function, built⟩, wires, wires'⟩

theorem rel_child? : Option.Rel (fun child child' => ∃ module module' inner inner',
      Below f known project other plan next module module' child child' inner inner')
    (plan.root.child? name) (next.root.child? (relabel f name)) := by
  obtain ⟨⟨_, fits⟩, _, fits'⟩ := reruns.exists_fits
  cases here : plan.root.child? name with
  | none =>
    cases there : next.root.child? (relabel f name) with
    | none => exact .none
    | some child' =>
      obtain ⟨module', member', named, -⟩ := fits'.module_of_child? there
      obtain ⟨module, member, recasts⟩ := reruns.recasts.modules.exists_left member'
      rw [recasts.name] at named
      obtain rfl := recasts.isCall.derives.relabel_inj derives reruns.renames named
      obtain ⟨child, found, -⟩ := fits.exists_child? member
      rw [here] at found
      cases found
  | some child =>
    obtain ⟨module, member, rfl, -⟩ := fits.module_of_child? here
    obtain ⟨module', member', recasts⟩ := reruns.recasts.modules.exists_right member
    obtain ⟨again, child', inner, inner', below⟩ := reruns.exists_below member member' recasts
    obtain rfl := Option.some.inj (here.symm.trans below.inside)
    rw [← recasts.name, below.inside']
    exact .some ⟨module, module', inner, inner', below⟩

end

section

variable {module module' : Module} {child child' : Coded α} {inner inner' : LinkedModel α}
  (below : Below f known project other plan next module module' child child' inner inner')
include below

theorem exists_fits_below : (∃ first, Coded.Fits project plan.clock plan.root first inner child) ∧
    ∃ first, Coded.Fits other next.clock next.root first inner' child' := by
  have root : plan.root.descend? [] = some plan.root := rfl
  have root' : next.root.descend? [] = some next.root := rfl
  exact ⟨reruns.sound.exists_fits (Instance.descend?_concat root below.inside) below.found,
    reruns.sound'.exists_fits (Instance.descend?_concat root' below.inside') below.found'⟩

theorem get?_below (name : Name) :
    child'.slots.get? name = (child.slots.get? name).map (plan.renumbered f next) := by
  obtain ⟨⟨_, fits⟩, _, fits'⟩ := reruns.exists_fits_below below
  cases here : child.slots.get? name with
  | none =>
    refine Option.eq_none_iff_forall_ne_some.mpr fun slot there => ?_
    obtain ⟨v, member', own, rfl⟩ := fits'.variable_of_get? there
    rw [below.same] at member'
    obtain ⟨slot, found⟩ := fits.exists_get? member' own
    rw [here] at found
    cases found
  | some slot =>
    obtain ⟨v, member, own, rfl⟩ := fits.variable_of_get? here
    rw [← below.same] at member
    obtain ⟨slot', there⟩ := fits'.exists_get? member own
    have place : plan.variableSlot? ([module.name], v.name) = some slot := by
      simp [variableSlot?, Instance.descend?, below.inside, here]
    have place' : next.variableSlot? (renamed f ([module.name], v.name)) = some slot' := by
      simp [variableSlot?, renamed, Instance.descend?, ← below.recasts.name, below.inside', there]
    rw [there, Option.map_some, renumbered, reruns.sound.counterpart_eq place place']

/-- The library's models have no variable of the name of a module that was made for a call. -/
theorem get?_name_below : child.slots.get? child.name = none ∧ child'.slots.get? child'.name = none := by
  obtain ⟨⟨_, fits⟩, _, fits'⟩ := reruns.exists_fits_below below
  obtain ⟨function, built⟩ := below.built
  have absent : ∀ owner rest, ∀ v ∈ inner.vars, v.name ≠ Name.made owner rest := by
    intro owner rest v member same
    obtain ⟨definition, listed, checked⟩ :=
      Model.definition_of_build built (Library.isBasic_model function) member
    refine Library.head_ne_dollar listed checked ?_
    rw [same, Name.toList_made]
    rfl
  obtain ⟨owner, rest, own, -, named⟩ := below.recasts.isCall.name
  rw [Instance.name_of_child? below.inside, Instance.name_of_child? below.inside', below.recasts.name,
    named, reruns.renames.relabel_made own]
  constructor
  · refine Option.eq_none_iff_forall_ne_some.mpr fun slot here => ?_
    obtain ⟨v, member, -, same⟩ := fits.variable_of_get? here
    exact absent _ _ v member same
  · refine Option.eq_none_iff_forall_ne_some.mpr fun slot there => ?_
    obtain ⟨v, member, -, same⟩ := fits'.variable_of_get? there
    rw [below.same] at member
    exact absent _ _ v member same

theorem child?_below (name : Name) : child.child? name = none ∧ child'.child? name = none := by
  obtain ⟨⟨_, fits⟩, _, fits'⟩ := reruns.exists_fits_below below
  obtain ⟨function, built⟩ := below.built
  have plain := Model.modules_of_build built (Library.isBasic_model function)
  constructor
  · refine Option.eq_none_iff_forall_ne_some.mpr fun last here => ?_
    obtain ⟨further, member, -⟩ := fits.module_of_child? here
    rw [plain] at member
    cases member
  · refine Option.eq_none_iff_forall_ne_some.mpr fun last there => ?_
    obtain ⟨further, member, -⟩ := fits'.module_of_child? there
    rw [below.same, plain] at member
    cases member

/-- Inside a module made for a call each path leads to the same variable. -/
theorem slot?_below (path : Path) :
    child'.slot? path = (child.slot? path).map (plan.renumbered f next) := by
  rw [Instance.slot?_eq, Instance.slot?_eq]
  split
  · rw [Option.map_some, reruns.renumbered_timeSlot]
  · obtain ⟨output, output'⟩ := reruns.get?_name_below below
    obtain ⟨last, last'⟩ := reruns.child?_below below (Path.split (Path.unmarked path)).1
    unfold Instance.locate?
    rw [reruns.get?_below below, output, output', last, last']
    cases child.slots.get? (Path.unmarked path) with
    | some slot => rfl
    | none =>
      dsimp only [Option.map_none]
      split <;> rfl

end

/-- From the root each name leads to the same variable as its new name. -/
theorem slot?_root {name : Name} (derives : Derives known name) :
    next.root.slot? (relabel f name) = (plan.root.slot? name).map (plan.renumbered f next) := by
  have timely : relabel f name = "time" ↔ name = "time" := by
    have time : isReserved "time" = true := rfl
    constructor
    · intro same
      rw [← reruns.renames.relabel_reserved time] at same
      exact derives.relabel_inj (.reserved time) reruns.renames same
    · rintro rfl
      exact reruns.renames.relabel_reserved time
  have unmarked : Path.unmarked name = name := by
    rw [Path.unmarked, derives.after?_dot reruns.renames.identifier, Option.getD_none]
  have unmarked' : Path.unmarked (relabel f name) = relabel f name := by
    rw [Path.unmarked, (derives.relabel reruns.renames).after?_dot reruns.renames.identifier',
      Option.getD_none]
  rw [Instance.slot?_eq, Instance.slot?_eq]
  simp only [timely, unmarked, unmarked']
  split
  · rw [Option.map_some, reruns.renumbered_timeSlot]
  · unfold Instance.locate?
    rw [reruns.get?_root derives]
    cases plan.root.slots.get? name with
    | some slot => rfl
    | none =>
      dsimp only [Option.map_none]
      rw [if_neg (derives.ne_empty reruns.renames.identifier),
        if_neg ((derives.relabel reruns.renames).ne_empty reruns.renames.identifier')]
      -- a path that does not end at the root goes on in the module of the same call
      have further : ∀ {head : Name} {rest : Path}, Derives known head →
          (next.root.child? (relabel f head)).bind (·.slot? rest) =
            ((plan.root.child? head).bind (·.slot? rest)).map (plan.renumbered f next) := by
        intro head rest derives
        have both := reruns.rel_child? derives
        generalize plan.root.child? head = child, next.root.child? (relabel f head) = child' at both
        cases both with
        | none => rfl
        | some both =>
          obtain ⟨_, _, _, _, below⟩ := both
          exact reruns.slot?_below below rest
      rcases derives.split_cases reruns.renames with
        ⟨plain, plain'⟩ | ⟨head, rest, derives, split, split'⟩
      · rw [Path.split_of_not_dotted plain, Path.split_of_not_dotted plain']
        exact further derives
      · rw [split, split']
        exact further derives

/-! ### Counterparts -/

theorem clock?_relabel {name : Name} (derives : Derives known name) :
    ClockReference.ofName? (relabel f name) = ClockReference.ofName? name := by
  cases reserved : isReserved name with
  | true => rw [reruns.renames.relabel_reserved reserved]
  | false =>
    have reserved' := derives.isReserved_relabel reruns.renames
    rw [reserved] at reserved'
    have none : ∀ {name : Name}, isReserved name = false → ClockReference.ofName? name = none := by
      intro name unreserved
      have unclocked := (Bool.or_eq_false_iff.mp unreserved).2
      rwa [Option.isSome_eq_false_iff, Option.isNone_iff_eq_none] at unclocked
    rw [none reserved, none reserved']

theorem twins_root : Twins project other plan next (plan.renumbered f next) (relabel f) (Derives known)
    plan.root next.root main main' where
  leads := ⟨[], rfl⟩
  leads' := ⟨[], rfl⟩
  found := reruns.found
  found' := reruns.found'
  vars v member _ := by
    obtain ⟨w, member', reduces⟩ := reruns.recasts.vars.exists_right member
    refine ⟨reduces.primitive, ?_, w, member', reduces.relabels⟩
    rintro name (rfl | flowing | ⟨equation, own, refers⟩)
    · exact reduces.derives.name
    · exact reduces.derives.flows name flowing
    · exact reduces.derives.equation equation own name refers
  reserved _ := reruns.renames.relabel_reserved
  clock? _ := reruns.clock?_relabel
  table? name derives := by
    have both := reruns.recasts.rel_find? reruns.renames derives
    generalize main.find? name = v, main'.find? (relabel f name) = w at both
    cases both with
    | none => rfl
    | some reduces => exact reduces.relabels.table?_eq
  get? _ := reruns.get?_root
  inputs _ _ := by rw [reruns.sound.unconnected_root, reruns.sound'.unconnected_root, Option.map_none]
  slot? _ := reruns.slot?_root

theorem twins_below {module module' : Module} {child child' : Coded α} {inner inner' : LinkedModel α}
    (below : Below f known project other plan next module module' child child' inner inner') :
    Twins project other plan next (plan.renumbered f next) id (fun _ => True) child child' inner inner' where
  leads := ⟨[module.name], by rw [Instance.descend?, below.inside]; rfl⟩
  leads' := ⟨[module'.name], by rw [Instance.descend?, below.inside']; rfl⟩
  found := below.found
  found' := below.found'
  vars v member own := by
    obtain ⟨function, built⟩ := below.built
    have basic := Library.isBasic_model (α := α) function
    obtain ⟨definition, listed, checked⟩ := Model.definition_of_build built basic member
    refine ⟨(Variable.isPrimitive_of_isBasic (basic definition listed) checked).1, fun _ _ => trivial, v, ?_,
      .refl own⟩
    rwa [below.same]
  reserved _ _ := rfl
  clock? _ _ := rfl
  table? name _ := by rw [below.same]; rfl
  get? name _ := reruns.get?_below below name
  inputs name _ := by
    have sources : child.note.inputs.get? name =
        ((Model.wires module).get? name).map (Coded.sourceSlot? plan.root plan.root) := by
      rw [below.wires]
      exact Keyed.get?_map (f := fun _ => Coded.sourceSlot? plan.root plan.root)
    have sources' : child'.note.inputs.get? (id name) =
        ((Model.wires module').get? name).map (Coded.sourceSlot? next.root next.root) := by
      rw [below.wires']
      exact Keyed.get?_map (f := fun _ => Coded.sourceSlot? next.root next.root)
    have both := below.recasts.wires.get? name
    rw [sources, sources']
    generalize (Model.wires module).get? name = wire, (Model.wires module').get? name = wire' at both
    cases both with
    | none => rfl
    | some both =>
      obtain ⟨derives, rfl⟩ := both
      simp only [Option.map_some, Coded.sourceSlot?, ite_self, reruns.slot?_root derives]
  slot? name _ := reruns.slot?_below below name

theorem exists_twins {path : List Name} {node : Coded α} {model : LinkedModel α}
    (leads : plan.root.descend? path = some node) (found : project.find? node.model = some model) :
    ∃ g named node' model', Twins project other plan next (plan.renumbered f next) g named
      node node' model model' := by
  cases path with
  | nil =>
    cases leads
    obtain rfl := Option.some.inj (reruns.found.symm.trans found)
    exact ⟨_, _, _, _, reruns.twins_root⟩
  | cons name rest =>
    obtain ⟨child, inside, further⟩ := Option.bind_eq_some_iff.mp leads
    obtain ⟨⟨_, fits⟩, -⟩ := reruns.exists_fits
    obtain ⟨module, member, rfl, -⟩ := fits.module_of_child? inside
    obtain ⟨module', member', recasts⟩ := reruns.recasts.modules.exists_right member
    obtain ⟨again, child', inner, inner', below⟩ := reruns.exists_below member member' recasts
    obtain rfl := Option.some.inj (inside.symm.trans below.inside)
    cases rest with
    | nil =>
      cases further
      obtain rfl := Option.some.inj (below.found.symm.trans found)
      exact ⟨_, _, _, _, reruns.twins_below below⟩
    | cons name rest =>
      obtain ⟨last, within, -⟩ := Option.bind_eq_some_iff.mp further
      rw [(reruns.child?_below below name).1] at within
      cases within

/-! ### Series -/

theorem mirrors : plan.Mirrors next (plan.renumbered f next) := by
  apply mirrors_of_reflects reruns.sound reruns.sound' reruns.clock_eq reruns.renumbered_timeSlot
  intro path node model v slot leads found member own
  obtain ⟨g, named, node', model', twins⟩ := reruns.exists_twins leads found
  exact twins.reflects reruns.sound reruns.sound' reruns.clock_eq reruns.renumbered_timeSlot member own

/-- The series of a variable is that under its new name. -/
theorem series_eq {v : Variable α} (member : v ∈ main.vars) (own : v.isModule = false) :
    ∃ series, (Simulation.start plan).runToEnd.series? v.name = some series ∧
      (Simulation.start next).runToEnd.series? (relabel f v.name) =
        some { series with name := relabel f v.name } := by
  obtain ⟨⟨_, fits⟩, -⟩ := reruns.exists_fits
  obtain ⟨_, -, reduces⟩ := reruns.recasts.vars.exists_right member
  have there := reruns.slot?_root reduces.derives.name
  obtain ⟨slot, here⟩ : ∃ slot, plan.slot? v.name = some slot := by
    have undotted := (reruns.sound.plain reruns.found v member).2.1
    by_cases time : v.name = "time"
    · exact ⟨timeSlot, by rw [slot?, Instance.slot?_eq, if_pos time]⟩
    · obtain ⟨slot, found⟩ := fits.exists_get? member own
      exact ⟨slot, Instance.slot?_own undotted time found⟩
  rw [show plan.root.slot? v.name = some slot from here, Option.map_some] at there
  have within : slot < plan.size := lt_size_of_slot? reruns.sound.consistent reruns.sound.planned
    (show plan.root.descend? [] = some plan.root from rfl) here
  have same := reruns.mirrors.series_eq reruns.sound reruns.sound' here within there
  rw [Simulation.series?_runToEnd, Simulation.series?_runToEnd, here,
    show next.slot? (relabel f v.name) = _ from there] at same ⊢
  simp only [Option.map_some, Option.some.injEq, Prod.mk.injEq] at same
  exact ⟨_, rfl, by simp only [Option.map_some, same]⟩

end Reruns

end Plan

/-! ## Projects whose order of evaluation is sound -/

/-- Whether a module has a model of the library, and overrides nothing but its inputs, with variables of
the model that holds the module. -/
def Module.CallsLibrary (module : Module) : Prop :=
  ∃ function : Stateful, module.model = Stateful.modelName function.name ∧
    ∀ input ∈ module.inputs, input.target ∈ function.inputs ∧ input.source.isAbsolute = false

/-- Whether all modules of a project have models of the library. -/
structure Project.CallsLibrary (project : Project α) : Prop where
  modules : ∀ model ∈ project.models, ∀ module ∈ model.modules, module.CallsLibrary
  models : ∀ (function : Stateful) model, project.find? (Stateful.modelName function.name) = some model →
    ∃ function, Model.build (Library.model function) true = .ok model.toModel

namespace Project.CallsLibrary

variable {project : Project α} (calls : project.CallsLibrary)
include calls

theorem sparesStocks : project.SparesStocks := by
  intro model member module inside inner found input given v isTarget
  obtain ⟨function, named, inputs⟩ := calls.modules model member module inside
  rw [named] at found
  obtain ⟨function', built⟩ := calls.models function inner found
  obtain ⟨definition, listed, checked⟩ :=
    Model.definition_of_build built (Library.isBasic_model function') (mem_of_findNamed isTarget)
  refine Library.isStock_of_mem_inputs listed checked ?_
  rw [name_of_findNamed isTarget]
  exact (inputs input given).1

theorem hasRelativeSources : project.HasRelativeSources := by
  intro model member module inside input given
  obtain ⟨_, -, inputs⟩ := calls.modules model member module inside
  exact (inputs input given).2

/-- The order of evaluation is sound where all modules have models of the library. -/
theorem isSound (consistent : project.Consistent) (plain : project.HasPlainNames) {plan : Plan α}
    (planned : Plan.ofProject project = .ok plan) : plan.IsSound project :=
  ⟨consistent, planned, plain, calls.sparesStocks, calls.hasRelativeSources.readsOutward⟩

end Project.CallsLibrary

section

variable {f : Name → Name} {known : Name → Prop}

omit [Scalar α] in
theorem Module.Recasts.callsLibrary {module next : Module} (recasts : module.Recasts f known next) :
    module.CallsLibrary ∧ next.CallsLibrary := by
  obtain ⟨function, named, inputs⟩ := recasts.isCall.function
  refine ⟨⟨function, named, fun input given => ⟨(inputs input given).1, ?_⟩⟩,
    function, recasts.model.trans named, fun next given => ?_⟩
  · obtain ⟨_, -, one⟩ := exists_right_of_mem recasts.inputs given
    obtain ⟨path, relative, -⟩ := one.source
    rw [relative]
    rfl
  · obtain ⟨input, inside, one⟩ := exists_left_of_mem recasts.inputs given
    obtain ⟨path, -, relative⟩ := one.source
    rw [one.target, relative]
    exact ⟨(inputs input inside).1, rfl⟩

theorem Model.Corresponds.callsLibrary {model other : Model α}
    (corresponds : model.Corresponds f known other) :
    (∀ module ∈ model.modules, module.CallsLibrary) ∧ ∀ module ∈ other.modules, module.CallsLibrary := by
  cases corresponds with
  | @library function built =>
    rw [Model.modules_of_build built (Library.isBasic_model function)]
    exact ⟨nofun, nofun⟩
  | main _ recasts =>
    constructor
    · intro module member
      obtain ⟨_, -, one⟩ := recasts.modules.exists_right member
      exact one.callsLibrary.1
    · intro module member
      obtain ⟨_, -, one⟩ := recasts.modules.exists_left member
      exact one.callsLibrary.2

theorem Project.Corresponds.callsLibrary {project other : Project α}
    (corresponds : project.Corresponds f known other) : project.CallsLibrary ∧ other.CallsLibrary := by
  have built : ∀ (function : Stateful) {model other : LinkedModel α},
      model.name = Stateful.modelName function.name → model.toModel.Corresponds f known other.toModel →
        ∃ function, Model.build (Library.model function) true = .ok model.toModel ∧
          other.toModel = model.toModel := by
    intro function model other named both
    obtain ⟨same, function, built⟩ := both.eq_of_ne (named ▸ Stateful.modelName_ne_main function)
    exact ⟨function, built, same⟩
  constructor
  · refine ⟨fun model member => ?_, fun function model found => ?_⟩
    · obtain ⟨_, -, both⟩ := exists_right_of_mem corresponds.models member
      exact both.callsLibrary.1
    · obtain ⟨_, -, both⟩ := exists_right_of_mem corresponds.models (mem_of_findNamed found)
      obtain ⟨function, made, -⟩ := built function (LinkedModel.name_of_named? found) both
      exact ⟨function, made⟩
  · refine ⟨fun model member => ?_, fun function other found => ?_⟩
    · obtain ⟨_, -, both⟩ := exists_left_of_mem corresponds.models member
      exact both.callsLibrary.2
    · obtain ⟨_, -, both⟩ := exists_left_of_mem corresponds.models (mem_of_findNamed found)
      have named := LinkedModel.name_of_named? found
      obtain ⟨function, made, same⟩ := built function (both.name_eq.symm.trans named) both
      exact ⟨function, same ▸ made⟩

end

/-! ## Documents under other names -/

namespace Document

/-- A project whose only model is the main model. -/
def Project.single (title : String) (timeSpec : TimeSpec α) (timeSpec? : Option (TimeSpec α))
    (definitions : List (Variable α)) : Project α :=
  ⟨title, timeSpec, [⟨mainModel, timeSpec?, definitions⟩]⟩

/-- The identifiers among the names that some definitions bear or mention. -/
def Identifies (definitions : List (Variable α)) (name : Name) : Prop :=
  name.IsIdentifier ∧ ∃ definition ∈ definitions, name ∈ definition.mentions

variable {f : Name → Name} {definitions others : List (Variable α)}

omit [Scalar α] in
theorem Project.hasPlainNames_single {title : String} {timeSpec : TimeSpec α}
    {timeSpec? : Option (TimeSpec α)} (own : ∀ definition ∈ definitions, definition.name.IsIdentifier) :
    (single title timeSpec timeSpec? definitions).HasPlainNames := by
  intro model member definition listed
  obtain rfl := List.mem_singleton.mp member
  have identifier := own definition listed
  rw [identifier.isTame.canonical_eq]
  exact identifier.isPlain

section

variable (each : List.Forall₂ (Variable.Renames f) definitions others)
  (own : ∀ definition ∈ definitions, definition.name.IsIdentifier)
  (spelled : ∀ definition ∈ definitions, ∀ name ∈ definition.mentions,
    name.IsIdentifier ∨ isReserved (Name.canonical name) = true)
  (renames : Name.Renames f (Identifies definitions))
include each own renames

omit [Scalar α] in
theorem isIdentifier_of_renames : ∀ other ∈ others, other.name.IsIdentifier := by
  intro other member
  obtain ⟨definition, listed, one⟩ := exists_left_of_mem each member
  rw [one.name_eq]
  exact renames.renamed _ ⟨own definition listed, definition, listed, one.name_mem⟩

include spelled

omit [Scalar α] in
theorem recasts_of_renames : List.Forall₂ (Variable.Recasts f (Identifies definitions)) definitions others := by
  refine ((List.forall₂_and_left _ _).mpr ⟨fun _ member => member, each⟩).imp fun definition other both => ?_
  obtain ⟨listed, one⟩ := both
  have known : ∀ name ∈ definition.mentions, name.IsIdentifier → Identifies definitions name :=
    fun name among identifier => ⟨identifier, definition, listed, among⟩
  refine ⟨one.congr fun name among => ?_, fun name among => ?_, known _ one.name_mem (own definition listed)⟩
  · rcases spelled definition listed name among with identifier | reserved
    · exact (renames.relabel_own (known name among identifier)).symm
    · rw [renames.relabel_written reserved, renames.reserved name reserved]
  · rcases spelled definition listed name among with identifier | reserved
    · exact .inr (.own (known name among identifier))
    · exact .inl reserved

end

end Document

theorem Project.Corresponds.exists_reruns {f : Name → Name} {known : Name → Prop} {project other : Project α}
    (corresponds : project.Corresponds f known other) (renames : Renames f known) {plan next : Plan α}
    (sound : plan.IsSound project) (sound' : next.IsSound other) :
    ∃ main main', Plan.Reruns f known project other main main' plan next := by
  have root : plan.root.descend? [] = some plan.root := rfl
  have root' : next.root.descend? [] = some next.root := rfl
  cases sound.made.of_descend? root with
  | @intro _ _ main fits =>
  cases sound'.made.of_descend? root' with
  | @intro _ _ main' fits' =>
  have isMain := fits.found
  have isMain' := fits'.found
  rw [sound.isMain_root] at isMain
  rw [sound'.isMain_root] at isMain'
  exact ⟨main, main', renames, corresponds, sound, sound', isMain, isMain'⟩

/-- Each definition of the only model of a project comes to a variable of its name. -/
theorem Project.exists_variable_of_single {title : String} {timeSpec : TimeSpec α}
    {timeSpec? : Option (TimeSpec α)} {definitions : List (Document.Variable α)} {project : Project α}
    (compiled : compile (.single title timeSpec timeSpec? definitions) = .ok project)
    {main : LinkedModel α} (isMain : project.main? = some main) {definition other : Document.Variable α}
    (listed : definition ∈ definitions) {f : Name → Name} (renames : definition.Renames f other) :
    ∃ v ∈ main.vars, v.isModule = false ∧ v.name = Name.canonical definition.name := by
  rcases (isLinked_of_compile compiled isMain).2 with ⟨own, only, built⟩ | ⟨function, built⟩
  · obtain rfl := List.mem_singleton.mp only
    obtain ⟨v, w, made, checked, one, member⟩ := Model.exists_of_build built listed
    refine ⟨w, member, ?_, ?_⟩
    · have computed : v.isModule = false := by
        cases renames <;>
        · obtain ⟨_, -, checked⟩ := bind_eq_ok.mp checked
          obtain rfl := pure_eq_ok.mp checked
          rfl
      rw [Model.isModule_of_expandVariable one, computed]
    · rw [Model.name_of_expandVariable one, Variable.name_of_ofDefinition checked]
  · have named := Library.name_of_build built
    rw [LinkedModel.name_of_named? isMain] at named
    exact absurd named.symm (Stateful.modelName_ne_main function)

/-! ## Runs -/

namespace Simulation

open Document.Project (single)

/-- Names carry no meaning. In a project whose only model is the main model, without modules, identifiers
may be replaced by others, different ones by different ones. That changes neither whether the project
compiles nor whether it can be run, and the series of each variable is that under its old name. -/
theorem series_of_renaming {f : Name → Name} {definitions others : List (Document.Variable α)}
    (title : String) (timeSpec : TimeSpec α) (timeSpec? : Option (TimeSpec α))
    (each : List.Forall₂ (Document.Variable.Renames f) definitions others)
    (own : ∀ definition ∈ definitions, definition.name.IsIdentifier)
    (spelled : ∀ definition ∈ definitions, ∀ name ∈ definition.mentions,
      name.IsIdentifier ∨ isReserved (Name.canonical name) = true)
    (renames : Name.Renames f (Document.Identifies definitions)) :
    ((∃ project, Project.compile (single title timeSpec timeSpec? definitions) = .ok project) ↔
      ∃ project, Project.compile (single title timeSpec timeSpec? others) = .ok project) ∧
    ((∃ run, (Project.compile (single title timeSpec timeSpec? definitions) >>= ofProject) = .ok run) ↔
      ∃ run, (Project.compile (single title timeSpec timeSpec? others) >>= ofProject) = .ok run) ∧
    ∀ run run',
      (Project.compile (single title timeSpec timeSpec? definitions) >>= ofProject) = .ok run →
      (Project.compile (single title timeSpec timeSpec? others) >>= ofProject) = .ok run' →
        ∀ definition ∈ definitions, ∃ series,
          run.reset.runToEnd.series? definition.name = some series ∧
            run'.reset.runToEnd.series? (f definition.name) =
              some { series with name := f definition.name } := by
  have recasts := Document.recasts_of_renames each own spelled renames
  have compiles : Agree (fun project next => project.Corresponds f (Document.Identifies definitions) next ∧
        project.Consistent ∧ next.Consistent)
      (Project.compile (single title timeSpec timeSpec? definitions))
      (Project.compile (single title timeSpec timeSpec? others)) :=
    (Project.agree_compile_of_recasts renames recasts title timeSpec timeSpec?).mono
      fun _ _ compiled compiled' both =>
        ⟨both, Project.consistent_of_compile compiled, Project.consistent_of_compile compiled'⟩
  refine ⟨compiles.exists_iff, ?_, fun run run' ready ready' definition listed => ?_⟩
  · -- whether there is a plan depends on what corresponds in the two projects
    have runs : Agree (fun _ _ => True)
        (Project.compile (single title timeSpec timeSpec? definitions) >>= ofProject)
        (Project.compile (single title timeSpec timeSpec? others) >>= ofProject) := by
      refine compiles.bind ?_
      rintro project next ⟨corresponds, consistent, consistent'⟩
      exact (corresponds.agree_ofProject renames consistent consistent').bind fun _ _ _ => .ok trivial
    exact runs.exists_iff
  · obtain ⟨project, compiled, started⟩ := bind_eq_ok.mp ready
    obtain ⟨next, compiled', started'⟩ := bind_eq_ok.mp ready'
    obtain ⟨plan, planned, rfl⟩ := ofProject_eq_ok.mp started
    obtain ⟨plan', planned', rfl⟩ := ofProject_eq_ok.mp started'
    obtain ⟨corresponds, consistent, consistent'⟩ := compiles.of_ok compiled compiled'
    have own' := Document.isIdentifier_of_renames each own renames
    have sound : plan.IsSound project := corresponds.callsLibrary.1.isSound consistent
      (Project.hasPlainNames_of_compile compiled (Document.Project.hasPlainNames_single own)) planned
    have sound' : plan'.IsSound next := corresponds.callsLibrary.2.isSound consistent'
      (Project.hasPlainNames_of_compile compiled' (Document.Project.hasPlainNames_single own')) planned'
    obtain ⟨main, main', reruns⟩ := corresponds.exists_reruns renames sound sound'
    obtain ⟨_, -, one⟩ := exists_right_of_mem each listed
    -- each definition is a variable of the main model, whose rows the two runs share
    obtain ⟨v, member, computed, named⟩ := Project.exists_variable_of_single compiled reruns.isMain listed one
    rw [(own definition listed).isTame.canonical_eq] at named
    have known : Document.Identifies definitions definition.name :=
      ⟨own definition listed, definition, listed, one.name_mem⟩
    rw [← renames.relabel_own known, ← named]
    exact reruns.series_eq member computed

/-- A stock that is filled at a smoothed rate, which a table gives, with names of its variables that a map
gives. -/
def filling (f : Name → Name) : List (Document.Variable Float) :=
  [.stock ⟨f "a", "", some (.constant "1" 1), [f "b"], [], false⟩,
    .flow ⟨f "b", "", some (.call "smth1" [.reference (f "c"), .constant "2" 2]), none, false⟩,
    .auxiliary ⟨f "c", "", some (.call "lookup" [.reference (f "d"), .reference (f "time")]), none⟩,
    .auxiliary ⟨f "d", "", some (.reference (f "time")), some ⟨some [0, 3], [1, 7], none⟩⟩]

/-- Puts the names of that stock's variables into the opposite order. -/
def opposite : Name ≃ Name := (Equiv.swap "a" "d").trans (Equiv.swap "b" "c")

theorem series_of_renaming_opposite : ∃ run run',
    (Project.compile (single "" ⟨0, 3, 1, none⟩ none (filling id)) >>= ofProject) = .ok run ∧
    (Project.compile (single "" ⟨0, 3, 1, none⟩ none (filling opposite)) >>= ofProject) = .ok run' ∧
    ∀ definition ∈ filling id, ∃ series, run.reset.runToEnd.series? definition.name = some series ∧
      run'.reset.runToEnd.series? (opposite definition.name) =
        some { series with name := opposite definition.name } := by
  have each : List.Forall₂ (Document.Variable.Renames opposite) (filling id) (filling opposite) :=
    .cons (.stock nofun) (.cons (.flow nofun) (.cons (.auxiliary nofun) (.cons (.auxiliary nofun) .nil)))
  have check : (∀ definition ∈ filling id, definition.name.IsIdentifier) ∧
      (∀ definition ∈ filling id, ∀ name ∈ definition.mentions,
        name.IsIdentifier ∨ isReserved (Name.canonical name) = true) ∧
      (∀ definition ∈ filling id, ∀ name ∈ definition.mentions,
        name.IsIdentifier → (opposite name).IsIdentifier) ∧
      (∀ name ∈ ["a", "b", "c", "d"], isReserved (Name.canonical name) = false) ∧
      ((Project.compile (single "" ⟨0, 3, 1, none⟩ none (filling id)) >>= ofProject).toOption.isSome =
        true) := by
    rw [Project.compile_eq]
    decide +kernel
  obtain ⟨own, spelled, renamed, clear, ready⟩ := check
  have renames : Name.Renames opposite (Document.Identifies (filling id)) := {
    reserved name reserved := by
      have apart : ∀ other ∈ ["a", "b", "c", "d"], name ≠ other := by
        rintro other member rfl
        rw [clear name member] at reserved
        cases reserved
      simp only [List.forall_mem_cons] at apart
      obtain ⟨notA, notB, notC, notD, -⟩ := apart
      rw [opposite, Equiv.trans_apply, Equiv.swap_apply_of_ne_of_ne notA notD,
        Equiv.swap_apply_of_ne_of_ne notB notC]
    identifier _ known := known.1
    renamed name known := by
      obtain ⟨identifier, definition, listed, among⟩ := known
      exact renamed definition listed name among identifier
    injective _ _ _ _ same := opposite.injective same }
  obtain ⟨-, runs, series⟩ := series_of_renaming "" ⟨0, 3, 1, none⟩ none each own spelled renames
  obtain ⟨run, found⟩ := Option.isSome_iff_exists.mp ready
  have done := toOption_eq_some.mp found
  obtain ⟨run', done'⟩ := runs.mp ⟨run, done⟩
  exact ⟨run, run', done, done', series run run' done done'⟩

end Simulation

end StockFlow
