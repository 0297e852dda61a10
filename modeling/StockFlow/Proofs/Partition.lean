import Mathlib.Data.Set.Function
import Mathlib.Order.Interval.Set.Defs
import StockFlow.Proofs.Settling

/-!
# The partition of a row

The row of a plan starts with the time. Behind it each instance lists its own variables and then the
blocks of the instances below it, so that the entries of a tree stand in the order of their slots:
each further slot belongs to exactly one variable of one instance.
-/

namespace StockFlow

namespace Instance

variable {β : Type}

/-! ## Entries -/

mutual

/-- The slots of all variables of an instance and below, each under the names that lead to it. -/
def entries : Instance β → List (List Name × Nat)
  | ⟨_, _, _, _, slots, _, children⟩ =>
    (slots.map fun (name, slot) => ([name], slot)) ++ childEntries children

def childEntries : List (Instance β) → List (List Name × Nat)
  | [] => []
  | first :: rest =>
    (first.entries.map fun (names, slot) => (first.name :: names, slot)) ++ childEntries rest

end

theorem childEntries_eq (children : List (Instance β)) : childEntries children =
    children.flatMap fun child => child.entries.map fun (names, slot) => (child.name :: names, slot) := by
  induction children with
  | nil => rfl
  | cons first rest ih => rw [childEntries, ih, List.flatMap_cons]

theorem entries_eq (node : Instance β) : node.entries =
    (node.slots.map fun (name, slot) => ([name], slot)) ++ childEntries node.children := by
  cases node
  rw [entries]

theorem descend?_append (node : Instance β) (path further : List Name) :
    node.descend? (path ++ further) = (node.descend? path).bind (·.descend? further) := by
  induction path generalizing node with
  | nil => rfl
  | cons name rest ih =>
    rw [List.cons_append, descend?, descend?]
    cases node.child? name with
    | none => rfl
    | some child => exact ih child

theorem descend?_concat {node below child : Instance β} {path : List Name} {name : Name}
    (leads : node.descend? path = some below) (inside : below.child? name = some child) :
    node.descend? (path ++ [name]) = some child := by
  rw [descend?_append, leads, Option.bind_some, descend?, inside]
  rfl

/-! ## Divided blocks -/

/-- Whether the block of each instance of a tree is divided; the slot of the time comes first. -/
inductive Divided : Instance β → Prop
  | intro {node : Instance β} (tidy : node.Tidy (max 1 node.shift))
    (below : ∀ child ∈ node.children, Divided child) : Divided node

theorem Tidy.first_eq {node : Instance β} {first : Nat} (tidy : node.Tidy first) :
    first = max 1 node.shift := by
  have late : 0 < first := tidy.late
  have start := tidy.shift_le
  have zero : node.shift < first → node.shift = 0 := tidy.reserved node.shift (Nat.le_refl _)
  have one : node.shift ≤ 1 → ¬ 1 < first := fun above below =>
    absurd (tidy.reserved 1 above below) Nat.one_ne_zero
  omega

theorem Tidy.shift_pos {node child : Instance β} {first : Nat} (tidy : node.Tidy first)
    (member : child ∈ node.children) : 0 < child.shift := by
  have late : 0 < first := tidy.late
  have := tidy.stacked.le_shift member
  omega

theorem Stacked.slots_childEntries {nodes : List (Instance β)} {first last : Nat}
    (stacked : Stacked first nodes last)
    (each : ∀ node ∈ nodes, node.entries.map Prod.snd = List.range' node.shift node.size) :
    (childEntries nodes).map Prod.snd = List.range' first (last - first) := by
  induction nodes generalizing first with
  | nil =>
    obtain rfl : first = last := stacked
    simp [childEntries]
  | cons node rest ih =>
    obtain ⟨rfl, others⟩ := stacked
    obtain ⟨here, later⟩ := List.forall_mem_cons.mp each
    have enough := others.le
    have split : last - node.shift = node.size + (last - (node.shift + node.size)) := by omega
    rw [childEntries, List.map_append, List.map_map, ih others later, split, ← List.range'_append_1,
      ← here]
    rfl

/-- The entries of an instance stand in the order of the slots of its block. -/
theorem Divided.slots_entries {node : Instance β} (divided : Divided node) :
    node.entries.map Prod.snd =
      List.range' (max 1 node.shift) (node.shift + node.size - max 1 node.shift) := by
  induction divided with
  | @intro node tidy below ih =>
    have inner : ∀ child ∈ node.children,
        child.entries.map Prod.snd = List.range' child.shift child.size := by
      intro child member
      have positive := tidy.shift_pos member
      rw [ih child member, Nat.max_eq_right positive, Nat.add_sub_cancel_left]
    have enough := tidy.stacked.le
    have split : node.shift + node.size - max 1 node.shift = node.slots.length +
        (node.shift + node.size - (max 1 node.shift + node.slots.length)) := by omega
    rw [entries_eq, List.map_append, tidy.stacked.slots_childEntries inner, split,
      ← List.range'_append_1, ← tidy.numbered, List.map_map]
    rfl

theorem Divided.of_descend? {node below : Instance β} (divided : Divided node) {path : List Name}
    (leads : node.descend? path = some below) : Divided below := by
  induction path generalizing node with
  | nil => exact Option.some.inj leads ▸ divided
  | cons name rest ih =>
    obtain ⟨child, inside, further⟩ := Option.bind_eq_some_iff.mp leads
    cases divided with
    | intro _ below => exact ih (below child (mem_of_child? inside)) further

theorem Divided.shift_pos_of_descend? {node below : Instance β} (divided : Divided node)
    {path : List Name} (leads : node.descend? path = some below) (inner : path ≠ []) :
    0 < below.shift := by
  obtain ⟨start, name, rfl⟩ := List.eq_nil_or_concat path |>.resolve_left inner
  rw [List.concat_eq_append, descend?_append] at leads
  obtain ⟨above, before, last⟩ := Option.bind_eq_some_iff.mp leads
  obtain ⟨child, inside, same⟩ := Option.bind_eq_some_iff.mp last
  cases Option.some.inj same
  cases divided.of_descend? before with
  | intro tidy _ => exact tidy.shift_pos (mem_of_child? inside)

/-- The entries of a tree are the slots of the variables of the instances that paths of module names
lead to. -/
theorem Divided.mem_entries {node : Instance β} (divided : Divided node) {names : List Name}
    {slot : Nat} : (names, slot) ∈ node.entries ↔ ∃ path name below, names = path ++ [name] ∧
      node.descend? path = some below ∧ below.slots.get? name = some slot := by
  induction divided generalizing names with
  | @intro node tidy below ih =>
    rw [entries_eq, List.mem_append, childEntries_eq, List.mem_flatMap]
    constructor
    · rintro (own | ⟨child, member, inside⟩)
      · obtain ⟨⟨name, _⟩, listed, same⟩ := List.mem_map.mp own
        cases same
        exact ⟨[], name, node, rfl, rfl, Keyed.get?_of_mem tidy.names listed⟩
      · obtain ⟨⟨rest, _⟩, listed, same⟩ := List.mem_map.mp inside
        cases same
        obtain ⟨path, name, inner, rfl, leads, found⟩ := (ih child member).mp listed
        refine ⟨child.name :: path, name, inner, rfl, ?_, found⟩
        rw [descend?, tidy.child?_of_mem member, Option.bind_some, leads]
    · rintro ⟨path, name, inner, rfl, leads, found⟩
      cases path with
      | nil =>
        cases Option.some.inj leads
        exact .inl (List.mem_map.mpr ⟨(name, slot), Keyed.mem_of_get? found, rfl⟩)
      | cons first rest =>
        obtain ⟨child, inside, further⟩ := Option.bind_eq_some_iff.mp leads
        have member := mem_of_child? inside
        have listed := (ih child member).mpr ⟨rest, name, inner, rfl, further, found⟩
        refine .inr ⟨child, member, List.mem_map.mpr ⟨_, listed, ?_⟩⟩
        rw [name_of_child? inside]
        rfl

/-- No slot has two places in a tree. -/
theorem Divided.unique {node one two : Instance β} (divided : Divided node) {path other : List Name}
    {name named : Name} {slot : Nat} (first : node.descend? path = some one)
    (here : one.slots.get? name = some slot) (second : node.descend? other = some two)
    (there : two.slots.get? named = some slot) : path = other ∧ name = named := by
  have once : (node.entries.map Prod.snd).Nodup := divided.slots_entries ▸ List.nodup_range'
  have entry := List.inj_on_of_nodup_map once (divided.mem_entries.mpr ⟨_, _, _, rfl, first, here⟩)
    (divided.mem_entries.mpr ⟨_, _, _, rfl, second, there⟩) rfl
  obtain ⟨path, name⟩ := List.append_inj' (congrArg Prod.fst entry) rfl
  exact ⟨path, (List.cons.inj name).1⟩

mutual

theorem length_paths : ∀ (node : Instance β) (lead : String),
    (node.paths lead).length = node.entries.length
  | ⟨_, _, _, _, _, _, children⟩, lead => by
    rw [paths, entries, List.length_append, List.length_append, List.length_map, List.length_map,
      length_childPaths children]

theorem length_childPaths : ∀ (nodes : List (Instance β)) (lead : String),
    (childPaths lead nodes).length = (childEntries nodes).length
  | [], _ => rfl
  | first :: rest, lead => by
    rw [childPaths, childEntries, List.length_append, List.length_append, List.length_map,
      length_paths first, length_childPaths rest]

end

end Instance

theorem Coded.Made.divided {α : Type} [Scalar α] {project : Project α} {clock : Clock α}
    {root node : Coded α} (made : Made project clock root node) : node.Divided := by
  induction made with
  | intro fits _ ih => exact .intro (fits.tidy.first_eq ▸ fits.tidy) ih

/-! ## Rows of plans -/

namespace Plan

variable {α : Type} {project : Project α} {plan : Plan α}

/-- Whether a path of module names leads to an instance with a variable of a name that is no
module. -/
def HasVariable (project : Project α) (plan : Plan α) (place : List Name × Name) : Prop :=
  ∃ node model v, plan.root.descend? place.1 = some node ∧ project.find? node.model = some model ∧
    v ∈ model.vars ∧ v.isModule = false ∧ v.name = place.2

def variableSlot? (plan : Plan α) (place : List Name × Name) : Option Nat :=
  (plan.root.descend? place.1).bind (·.slots.get? place.2)

/-- The path from the main model to a variable behind some modules. -/
def dotted : List Name → Name → Path
  | [], name => name
  | module :: path, name => module ++ "." ++ dotted path name

variable [Scalar α]

theorem slot?_dotted (plain : project.HasPlainNames) {clock : Clock α} {root above node : Coded α}
    (made : Coded.Made project clock root above) {path : List Name}
    (leads : above.descend? path = some node) {name : Name} {slot : Nat}
    (own : node.slot? name = some slot) : above.slot? (dotted path name) = some slot := by
  induction path generalizing above with
  | nil => exact Option.some.inj leads ▸ own
  | cons module rest ih =>
    obtain ⟨child, inside, further⟩ := Option.bind_eq_some_iff.mp leads
    cases made with
    | intro fits below =>
      rw [dotted, fits.slot?_inside (plain fits.found) inside]
      exact ih (below child (Instance.mem_of_child? inside)) further

section

variable (distinct : project.HasDistinctNames) (planned : ofProject project = .ok plan)
include distinct planned

theorem slots_entries : plan.root.entries.map Prod.snd = List.range' 1 (plan.size - 1) := by
  obtain ⟨made, -, shift, -⟩ := made_of_hasDistinctNames distinct planned
  rw [made.divided.slots_entries, shift, Nat.max_zero, Nat.zero_add]
  rfl

theorem size_pos : 0 < plan.size := by
  obtain ⟨made, -, shift, -⟩ := made_of_hasDistinctNames distinct planned
  cases made.divided with
  | intro tidy _ =>
    have enough : max 1 plan.root.shift + plan.root.slots.length ≤ plan.root.shift + plan.size :=
      tidy.stacked.le
    omega

theorem variableSlot?_eq_some {place : List Name × Name} {slot : Nat} :
    plan.variableSlot? place = some slot ↔ (place.1 ++ [place.2], slot) ∈ plan.root.entries := by
  obtain ⟨made, -⟩ := made_of_hasDistinctNames distinct planned
  rw [made.divided.mem_entries, variableSlot?, Option.bind_eq_some_iff]
  constructor
  · rintro ⟨node, leads, found⟩
    exact ⟨_, _, node, rfl, leads, found⟩
  · rintro ⟨path, name, node, same, leads, found⟩
    obtain ⟨rfl, last⟩ := List.append_inj' same rfl
    cases last
    exact ⟨node, leads, found⟩

theorem exists_variableSlot? {place : List Name × Name} (present : plan.HasVariable project place) :
    ∃ slot, plan.variableSlot? place = some slot := by
  obtain ⟨made, -⟩ := made_of_hasDistinctNames distinct planned
  obtain ⟨node, model, v, leads, found, member, own, named⟩ := present
  obtain ⟨slot, here⟩ := (made.of_descend? leads).exists_get? found member own
  exact ⟨slot, by rw [variableSlot?, leads, Option.bind_some, ← named, here]⟩

theorem hasVariable_of_variableSlot? {place : List Name × Name} {slot : Nat}
    (here : plan.variableSlot? place = some slot) : plan.HasVariable project place := by
  obtain ⟨made, -⟩ := made_of_hasDistinctNames distinct planned
  obtain ⟨node, leads, found⟩ := Option.bind_eq_some_iff.mp here
  cases made.of_descend? leads with
  | @intro _ first model fits _ =>
    obtain ⟨v, member, own, named⟩ := fits.variable_of_get? found
    exact ⟨node, model, v, leads, fits.found, member, own, named⟩

/-- Each slot behind that of the time belongs to exactly one variable of one instance. -/
theorem bijOn_variableSlot? : Set.BijOn plan.variableSlot? {place | plan.HasVariable project place}
    (some '' Set.Ico 1 plan.size) := by
  have slots := slots_entries distinct planned
  have bounds : ∀ slot, slot ∈ plan.root.entries.map Prod.snd ↔ slot ∈ Set.Ico 1 plan.size := by
    intro slot
    have := size_pos distinct planned
    rw [slots, List.mem_range'_1, Set.mem_Ico]
    omega
  refine ⟨fun place present => ?_, fun place one other two same => ?_, ?_⟩
  · obtain ⟨slot, here⟩ := exists_variableSlot? distinct planned present
    have listed := (variableSlot?_eq_some distinct planned).mp here
    exact ⟨slot, (bounds slot).mp (List.mem_map_of_mem (f := Prod.snd) listed), here.symm⟩
  · obtain ⟨made, -⟩ := made_of_hasDistinctNames distinct planned
    obtain ⟨slot, here⟩ := exists_variableSlot? distinct planned one
    obtain ⟨_, first, here'⟩ := Option.bind_eq_some_iff.mp here
    obtain ⟨_, second, there⟩ := Option.bind_eq_some_iff.mp (same.symm.trans here)
    obtain ⟨path, name⟩ := made.divided.unique first here' second there
    exact Prod.ext path name
  · rintro _ ⟨slot, within, rfl⟩
    obtain ⟨⟨names, other⟩, listed, same⟩ := List.mem_map.mp ((bounds slot).mpr within)
    obtain rfl : other = slot := same
    obtain ⟨made, -⟩ := made_of_hasDistinctNames distinct planned
    obtain ⟨path, name, node, rfl, leads, found⟩ := made.divided.mem_entries.mp listed
    have here : plan.variableSlot? (path, name) = some other := by
      rw [variableSlot?, leads, Option.bind_some, found]
    exact ⟨(path, name), hasVariable_of_variableSlot? distinct planned here, here⟩

/-- The block of an instance: first its own variables, at the root behind the time, and then the blocks
of the instances below it, one after the other. -/
theorem block_of_descend? {path : List Name} {node : Coded α}
    (leads : plan.root.descend? path = some node) :
    ∃ first, first = node.shift + (if path = [] then 1 else 0) ∧
      node.slots.map Prod.snd = List.range' first node.slots.length ∧
      Instance.Stacked (first + node.slots.length) node.children (node.shift + node.size) ∧
      node.children.Pairwise fun child other => ∀ slot, child.Owns slot → ¬ other.Owns slot := by
  obtain ⟨made, -, shift, -⟩ := made_of_hasDistinctNames distinct planned
  have divided := made.divided.of_descend? leads
  have first : max 1 node.shift = node.shift + if path = [] then 1 else 0 := by
    split
    · rename_i top
      subst top
      obtain rfl : plan.root = node := Option.some.inj leads
      rw [shift]
      rfl
    · rename_i inner
      have := made.divided.shift_pos_of_descend? leads inner
      omega
  cases divided with
  | intro tidy _ =>
    refine ⟨_, first, tidy.numbered, tidy.stacked, ?_⟩
    refine (List.Nodup.of_map Instance.name tidy.modules).imp_of_mem ?_
    intro child other one two differ slot owned also
    exact differ (tidy.stacked.unique one two owned also)

theorem length_names : plan.names.length = plan.size := by
  have counted := congrArg List.length (slots_entries distinct planned)
  rw [List.length_map, List.length_range'] at counted
  have := size_pos distinct planned
  rw [names, List.length_cons, Instance.length_paths, counted]
  omega

theorem lt_size_of_input {path : List Name} {node : Coded α}
    (leads : plan.root.descend? path = some node) {input : Name} {slot : Nat}
    (connected : node.note.inputs.get? input = some (some slot)) : slot < plan.size := by
  obtain ⟨made, -, shift, inputs⟩ := made_of_hasDistinctNames distinct planned
  have within : ∀ {other : Coded α} {path : List Name} {symbol : Path},
      plan.root.descend? path = some other → other.slot? symbol = some slot → slot < plan.size := by
    intro other path symbol leads found
    rcases (made.of_descend? leads).owns_of_slot? found with rfl | owned
    · exact size_pos distinct planned
    · have := (made.owns_of_descend? leads owned).2
      rwa [shift, Nat.zero_add] at this
  rcases List.eq_nil_or_concat path with rfl | ⟨start, name, rfl⟩
  · cases Option.some.inj leads
    rw [inputs] at connected
    cases connected
  · -- the instance above an input has the module that connects it
    rw [List.concat_eq_append, Instance.descend?_append] at leads
    obtain ⟨above, before, last⟩ := Option.bind_eq_some_iff.mp leads
    obtain ⟨child, inside, same⟩ := Option.bind_eq_some_iff.mp last
    cases Option.some.inj same
    cases made.of_descend? before with
    | @intro _ first model fits _ =>
      obtain ⟨_, _, _, _, wires⟩ := fits.module_of_child? inside
      rw [wires] at connected
      obtain ⟨wire, -, same⟩ := List.mem_map.mp (Keyed.mem_of_get? connected)
      have found : Coded.sourceSlot? plan.root above wire.2 = some slot := congrArg Prod.snd same
      unfold Coded.sourceSlot? at found
      split at found
      · exact within (rfl : plan.root.descend? [] = some plan.root) found
      · exact within before found

end

end Plan

namespace Simulation

variable {α : Type} [Scalar α]

/-- The row of every simulation is divided among the variables of its instances. The project may have
lost models since it was compiled. -/
theorem row_partition {document : Document.Project α} {compiled project : Project α}
    {run : Simulation α} (accepted : Project.compile document = .ok compiled)
    (among : ∀ model ∈ project.models, model ∈ compiled.models)
    (ready : ofProject project = .ok run) :
    Set.BijOn run.plan.variableSlot? {place | run.plan.HasVariable project place}
        (some '' Set.Ico 1 run.plan.size) ∧
      (run.plan.root.shift = 0 ∧ run.plan.root.size = run.plan.size ∧
        ∀ path node, run.plan.root.descend? path = some node →
          ∃ first, first = node.shift + (if path = [] then 1 else 0) ∧
            node.slots.map Prod.snd = List.range' first node.slots.length ∧
            Instance.Stacked (first + node.slots.length) node.children (node.shift + node.size) ∧
            node.children.Pairwise fun child other => ∀ slot, child.Owns slot → ¬ other.Owns slot) ∧
      (∀ path node, run.plan.root.descend? path = some node → ∀ input slot,
        node.note.inputs.get? input = some (some slot) → slot < run.plan.size) ∧
      run.plan.names.length = run.plan.size := by
  have distinct : project.HasDistinctNames := fun found =>
    (Project.isLinked_of_mem accepted (among _ (mem_of_findNamed found))).2.ascending.distinct
  obtain ⟨plan, planned, rfl⟩ := ofProject_eq_ok.mp ready
  obtain ⟨-, -, shift, -⟩ := Plan.made_of_hasDistinctNames distinct planned
  exact ⟨Plan.bijOn_variableSlot? distinct planned,
    ⟨shift, rfl, fun path node leads => Plan.block_of_descend? distinct planned leads⟩,
    fun path node leads input slot connected =>
      Plan.lt_size_of_input distinct planned leads connected,
    Plan.length_names distinct planned⟩

theorem row_partition_nested : ∃ project run, Project.compile Plan.nested = .ok project ∧
    ofProject project = .ok run ∧ run.plan.names.length = run.plan.size ∧
      Set.BijOn run.plan.variableSlot? {place | run.plan.HasVariable project place}
        (some '' Set.Ico 1 run.plan.size) := by
  obtain ⟨project, plan, compiled, planned, -⟩ := Plan.nested_runs
  have ready : ofProject project = .ok (start plan) := ofProject_eq_ok.mpr ⟨plan, planned, rfl⟩
  obtain ⟨onto, -, -, named⟩ := row_partition compiled (fun _ member => member) ready
  exact ⟨project, start plan, compiled, ready, named, onto⟩

end Simulation
end StockFlow
