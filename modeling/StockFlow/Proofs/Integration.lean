import StockFlow.Proofs.Partition
import StockFlow.Proofs.Stops

/-!
# Writing the next row

The stocks phase assigns the slots of the stocks that are no inputs, each once, and all its terms read
the present row. So in the next row each of these stocks has the value of its update, the time has
moved by a step, and every other slot has kept its value.
-/

namespace StockFlow

variable {α : Type} [Scalar α]

namespace Row

/-- Makes assignments into a row, with the values that their terms have in another one. -/
def write (dt : α) (row next : Row α) (program : List (Assignment α)) : Row α :=
  program.foldl (fun next a => next.setIfInBounds a.slot (a.term.value dt row)) next

variable {dt : α} {row next : Row α} {program : List (Assignment α)} {slot : Nat}

theorem write_cons {a : Assignment α} : write dt row next (a :: program) =
    write dt row (next.setIfInBounds a.slot (a.term.value dt row)) program := rfl

theorem get_write_of_notMem (absent : slot ∉ written program) :
    (write dt row next program).get slot = next.get slot := by
  induction program generalizing next with
  | nil => rfl
  | cons a rest ih =>
    simp only [written, List.map_cons, List.mem_cons, not_or] at absent ih
    rw [write_cons, ih absent.2, get_setIfInBounds_ne (Ne.symm absent.1)]

theorem get_write (distinct : (written program).Nodup)
    (inside : ∀ slot ∈ written program, slot < next.size) {a : Assignment α} (member : a ∈ program) :
    (write dt row next program).get a.slot = a.term.value dt row := by
  induction program generalizing next with
  | nil => cases member
  | cons b rest ih =>
    obtain ⟨fresh, distinct⟩ := List.nodup_cons.mp distinct
    rw [write_cons]
    rcases List.mem_cons.mp member with rfl | member
    · rw [get_write_of_notMem fresh, get_setIfInBounds (inside _ List.mem_cons_self), if_pos rfl]
    · refine ih distinct (fun slot listed => ?_) member
      rw [Array.size_setIfInBounds]
      exact inside slot (List.mem_cons_of_mem _ listed)

theorem advance_eq_write : advance dt row program = write dt row row program := rfl

end Row

/-! ## The stocks phase of an instance -/

omit [Scalar α] in
/-- The stocks phase takes the variables that take part in writing the next row, in their order. -/
theorem Site.filterMap_schedule (site : Site α) (distinct : Distinct Variable.name site.model.vars) :
    (site.schedule .stocks).filterMap site.model.find? = site.model.vars.filter site.isIntegrating := by
  have found : ∀ vars ⊆ site.model.vars,
      (vars.map Variable.name).filterMap site.model.find? = vars := by
    intro vars
    induction vars with
    | nil => exact fun _ => rfl
    | cons v rest ih =>
      intro inside
      obtain ⟨here, others⟩ := List.cons_subset.mp inside
      have known : site.model.find? v.name = some v := findNamed_of_mem distinct here
      rw [List.map_cons, List.filterMap_cons, known, ih others]
  exact found _ fun v member => (List.mem_filter.mp member).1

namespace Coded

variable {project : Project α} {clock : Clock α} {root node : Coded α} {first slot : Nat}
  {model : LinkedModel α} {v : Variable α} {part : List (Assignment α)}

/-- What is assigned for a variable of an instance in the stocks phase. -/
inductive Integrates (node : Coded α) (model : LinkedModel α) (clock : Clock α) :
    Variable α → List (Assignment α) → Prop
  | enter {module : Module} {child : Coded α} (found : node.child? module.name = some child) :
    Integrates node model clock (.module module) (program .stocks child)
  | stock {stock : Stock α} {slot : Nat} (unconnected : node.note.inputs.get? stock.name = none)
    (own : node.slots.get? stock.name = some slot) :
    Integrates node model clock (.stock stock)
      [⟨slot, (node.scope model clock stock.name).stockUpdate slot stock⟩]

theorem integrates_of_variableCode {wired : Wired} (same : wired.shape = node.shape)
    (inputs : wired.note = node.note.inputs) {code : List (Instruction α)}
    (takesPart : Site.isIntegrating ⟨wired, model, clock⟩ v = true)
    (children : ∀ module, v = .module module → ∃ child, node.child? module.name = some child)
    (coded : Site.variableCode ⟨wired, model, clock⟩ v .stocks = .ok code) :
    Integrates node model clock v (unfold (programs .stocks node.children) code) := by
  simp only [Site.isIntegrating, Site.isInput, Site.inputs, inputs, Bool.and_eq_true,
    Bool.not_eq_true', Option.isSome_eq_false_iff, Option.isNone_iff_eq_none] at takesPart
  obtain ⟨unconnected, kind⟩ := takesPart
  have codes := Site.variableCode_eq_ok.mp coded
  cases codes with
  | input early => exact absurd rfl early
  | settled connected =>
    rw [Site.inputs, inputs, unconnected] at connected
    cases connected
  | @enter _ module =>
    obtain ⟨child, found⟩ := children module rfl
    have entered : (programs .stocks node.children).get? module.name = some (program .stocks child) := by
      rw [programs_eq_map, Keyed.get?_of_items]
      exact congrArg _ found
    simp only [unfold, entered, Option.getD_some, List.append_nil]
    exact .enter found
  | update unconnected own =>
    rw [scope_of_shape same]
    exact .stock (inputs ▸ unconnected) (Instance.slots_eq_of_shape same ▸ own)
  | formula => simp [Variable.isStock, Variable.isModule, Variable.module?] at kind

theorem Integrates.belongs (integrates : Integrates node model clock v part)
    (below : ∀ child ∈ node.children, ∀ slot ∈ written (program .stocks child), child.Owns slot) :
    ∀ slot ∈ written part, node.Belongs v.name slot := by
  intro slot member
  cases integrates with
  | enter found => exact .inr ⟨_, found, below _ (Instance.mem_of_child? found) slot member⟩
  | stock _ own => exact .inl (List.mem_singleton.mp member ▸ own)

/-- No input of an instance is connected to a module of its model: the module has no slot. -/
theorem Fits.unconnected_module (consistent : project.Consistent)
    (fits : Fits project clock root first model node) {module : Module}
    (member : module ∈ model.modules) : node.note.inputs.get? module.name = none := by
  obtain ⟨vars, segment, runs⟩ := fits.runs consistent (by decide : Phase.initials ≠ .stocks)
  have listed := (runs.schedule.mem (.module module)).mpr ⟨Model.mem_modules.mp member, rfl⟩
  have here := runs.computes _ listed
  generalize segment (.module module) = part at here
  cases here with
  | input _ own => cases (fits.get?_module (consistent.distinct fits.found) member).symm.trans own
  | enter unconnected => exact unconnected

/-- The stocks phase of an instance takes the stocks that are no inputs and the modules, in order of
their names. -/
theorem Fits.integrates (consistent : project.Consistent)
    (fits : Fits project clock root first model node) :
    ∃ vars segment, Distinct Variable.name vars ∧
      (∀ v, v ∈ vars ↔ v ∈ model.vars ∧ node.note.inputs.get? v.name = none ∧
        (v.isStock = true ∨ v.isModule = true)) ∧
      program .stocks node = vars.flatMap segment ∧
      ∀ v ∈ vars, Integrates node model clock v (segment v) := by
  obtain ⟨wired, same, coded⟩ := fits.code
  have inputs : wired.note = node.note.inputs := (inputs_of_code coded).symm
  have distinct := consistent.distinct fits.found
  obtain ⟨parts, each, flat⟩ := Site.phaseCode_eq_ok (Site.phaseCode_of_code coded .stocks)
  rw [Site.filterMap_schedule _ distinct] at each
  obtain ⟨lines, listed, made⟩ := exists_map_of_forall₂ each
  refine ⟨model.vars.filter (Site.isIntegrating ⟨wired, model, clock⟩),
    fun v => unfold (programs .stocks node.children) (lines v),
    distinct.sublist (List.filter_sublist.map _), fun v => ?_, ?_, fun v member => ?_⟩
  · simp [Site.isIntegrating, Site.isInput, Site.inputs, inputs]
  · rw [Coded.program_eq, flat, unfold_flatten, listed, List.flatMap_map]
  · obtain ⟨declared, takesPart⟩ := List.mem_filter.mp member
    refine integrates_of_variableCode same inputs takesPart ?_ (made v member)
    rintro module rfl
    obtain ⟨child, found, -⟩ := fits.exists_child? (Model.mem_modules.mpr declared)
    exact ⟨child, found⟩

variable (consistent : project.Consistent) (made : Made project clock root node)
include consistent made

theorem Made.owns_of_integrated : ∀ slot ∈ written (program .stocks node),
    node.Owns slot ∧ timeSlot < slot := by
  induction made with
  | @intro node first model fits below ih =>
    intro slot member
    obtain ⟨vars, segment, -, -, whole, integrates⟩ := fits.integrates consistent
    rw [whole, written, List.map_flatMap, List.mem_flatMap] at member
    obtain ⟨v, listed, member⟩ := member
    exact fits.tidy.owns ((integrates v listed).belongs
      (fun child inside slot member => (ih child inside slot member).1) slot member)

theorem Made.nodup_integrated : (written (program .stocks node)).Nodup := by
  induction made with
  | @intro node first model fits below ih =>
    obtain ⟨vars, segment, distinct, -, whole, integrates⟩ := fits.integrates consistent
    have owned := fun child inside slot member =>
      ((below child inside).owns_of_integrated consistent slot member).1
    rw [whole, written, List.map_flatMap, List.nodup_flatMap]
    refine ⟨fun v listed => ?_, ?_⟩
    · have here := integrates v listed
      generalize segment v = part at here
      cases here with
      | enter found => exact ih _ (Instance.mem_of_child? found)
      | stock => exact List.nodup_singleton _
    · -- what is assigned for two variables lies in different blocks
      refine (List.pairwise_map.mp distinct).imp_of_mem fun {v w} listed also differ slot one two => ?_
      exact differ (fits.tidy.unique ((integrates v listed).belongs owned slot one)
        ((integrates w also).belongs owned slot two))

/-- The assignments of the stocks phase are the updates of the stocks, at any depth, that are no
inputs. -/
theorem Made.mem_integrated {a : Assignment α} : a ∈ program .stocks node ↔
    ∃ (path : List Name) (below : Coded α) (model : LinkedModel α) (stock : Stock α) (slot : Nat),
      node.descend? path = some below ∧ project.find? below.model = some model ∧
      .stock stock ∈ model.vars ∧ below.note.inputs.get? stock.name = none ∧
      below.slots.get? stock.name = some slot ∧
      a = ⟨slot, (Coded.scope below model clock stock.name).stockUpdate slot stock⟩ := by
  induction made with
  | @intro node first model fits below ih =>
    obtain ⟨vars, segment, -, listed, whole, integrates⟩ := fits.integrates consistent
    rw [whole, List.mem_flatMap]
    constructor
    · rintro ⟨v, inside, member⟩
      have here := integrates v inside
      have declared := ((listed v).mp inside).1
      -- an update belongs to a stock of the instance itself or lies in the program of a child
      generalize segment v = part at here member
      cases here with
      | @enter module child found =>
        obtain ⟨path, last, inner, stock, slot, leads, rest⟩ :=
          (ih child (Instance.mem_of_child? found)).mp member
        refine ⟨module.name :: path, last, inner, stock, slot, ?_, rest⟩
        rw [Instance.descend?, found, Option.bind_some, leads]
      | stock unconnected own =>
        exact ⟨[], node, model, _, _, rfl, fits.found, declared, unconnected, own,
          List.mem_singleton.mp member⟩
    · rintro ⟨path, last, inner, stock, slot, leads, found, declared, unconnected, own, rfl⟩
      cases path with
      | nil =>
        obtain rfl : node = last := Option.some.inj leads
        cases fits.found.symm.trans found
        have inside := (listed (.stock stock)).mpr ⟨declared, unconnected, .inl rfl⟩
        refine ⟨_, inside, ?_⟩
        have here := integrates _ inside
        generalize segment (.stock stock) = part at here
        cases here with
        | stock _ own' =>
          cases own.symm.trans own'
          exact List.mem_cons_self
      | cons name rest =>
        obtain ⟨child, step, further⟩ := Option.bind_eq_some_iff.mp leads
        obtain ⟨module, among, rfl, -⟩ := fits.module_of_child? step
        have inside := (listed (.module module)).mpr
          ⟨Model.mem_modules.mp among, fits.unconnected_module consistent among, .inr rfl⟩
        refine ⟨_, inside, ?_⟩
        have here := integrates _ inside
        generalize segment (.module module) = part at here
        cases here with
        | enter found' =>
          cases step.symm.trans found'
          exact (ih child (Instance.mem_of_child? step)).mpr
            ⟨rest, last, inner, stock, slot, further, found, declared, unconnected, own, rfl⟩

end Coded

/-! ## The next row of a plan -/

namespace Plan

variable {project : Project α} {plan : Plan α} (consistent : project.Consistent)
  (planned : ofProject project = .ok plan)
include consistent planned

theorem lt_size_of_integrated :
    ∀ slot ∈ written (plan.program .stocks), timeSlot < slot ∧ slot < plan.size := by
  obtain ⟨made, -, shift, -⟩ := made_of_ofProject consistent planned
  rw [plan.program_eq]
  intro slot member
  obtain ⟨owned, late⟩ := made.owns_of_integrated consistent slot member
  refine ⟨late, ?_⟩
  have := owned.2
  rwa [shift, Nat.zero_add] at this

section

variable {path : List Name} {below : Coded α} {model : LinkedModel α} {v : Variable α}
  (leads : plan.root.descend? path = some below) (found : project.find? below.model = some model)
  (member : v ∈ model.vars)
include leads found member

/-- Before the stocks phase, what is assigned to the slot of a variable is computed for the variable. -/
theorem computes_of_own {phase : Phase} (early : phase ≠ .stocks) {a : Assignment α}
    (among : a ∈ plan.program phase) (own : below.slots.get? v.name = some a.slot) :
    v.isDue below.note.inputs phase = true ∧ Coded.Computes below model plan.clock phase v [a] := by
  obtain ⟨made, -⟩ := made_of_ofProject consistent planned
  rw [plan.program_eq] at among
  obtain ⟨_, last, inner, w, further, found', declared, due, own', computes⟩ :=
    made.exists_of_mem_program consistent early among
  obtain ⟨rfl, named⟩ := made.divided.unique leads own further own'
  obtain rfl := Option.some.inj (leads.symm.trans further)
  obtain rfl := Option.some.inj (found.symm.trans found')
  obtain rfl := (consistent.distinct found).eq_of_name_eq member declared named
  exact ⟨due, computes⟩

/-- In the stocks phase, what is assigned to the slot of a variable is the update of a stock. -/
theorem exists_stock_of_own {a : Assignment α} (among : a ∈ plan.program .stocks)
    (own : below.slots.get? v.name = some a.slot) : ∃ stock, v = .stock stock ∧
      below.note.inputs.get? stock.name = none ∧
        a.term = (below.scope model plan.clock stock.name).stockUpdate a.slot stock := by
  obtain ⟨made, -⟩ := made_of_ofProject consistent planned
  rw [plan.program_eq] at among
  obtain ⟨_, last, inner, stock, slot, further, found', declared, unconnected, own', rfl⟩ :=
    (made.mem_integrated consistent).mp among
  obtain ⟨rfl, named⟩ := made.divided.unique leads own further own'
  obtain rfl := Option.some.inj (leads.symm.trans further)
  obtain rfl := Option.some.inj (found.symm.trans found')
  exact ⟨stock, (consistent.distinct found).eq_of_name_eq member declared named, unconnected, rfl⟩

/-- The slot of a variable that is no stock takes no part in writing the next row. -/
theorem notMem_integrated_of_own {slot : Nat} (own : below.slots.get? v.name = some slot)
    (computed : v.isStock = false) : slot ∉ written (plan.program .stocks) := by
  intro integrating
  obtain ⟨a, among, rfl⟩ := List.mem_map.mp integrating
  obtain ⟨stock, rfl, -⟩ := exists_stock_of_own consistent planned leads found member among own
  cases computed

/-- The slot of a variable that is no input and keeps its value during a step is not computed in it. -/
theorem notMem_flows_of_held {slot : Nat} (unconnected : below.note.inputs.get? v.name = none)
    (own : below.slots.get? v.name = some slot) (held : v.isHeld = true) :
    slot ∉ written (plan.program .flows) := by
  intro flowing
  obtain ⟨a, among, rfl⟩ := List.mem_map.mp flowing
  have due := (computes_of_own consistent planned leads found member (by decide) among own).1
  simp [Variable.isDue, unconnected, held] at due

end

/-- What is computed during a step takes no part in writing the next row. -/
theorem notMem_integrated {slot : Nat} (flowing : slot ∈ written (plan.program .flows)) :
    slot ∉ written (plan.program .stocks) := by
  intro integrating
  obtain ⟨made, -⟩ := made_of_ofProject consistent planned
  obtain ⟨a, member, rfl⟩ := List.mem_map.mp flowing
  rw [plan.program_eq] at integrating
  obtain ⟨b, among, same⟩ := List.mem_map.mp integrating
  obtain ⟨_, below, model, stock, slot, leads, found, declared, unconnected, own, rfl⟩ :=
    (made.mem_integrated consistent).mp among
  cases same
  obtain ⟨-, computes⟩ :=
    computes_of_own consistent planned leads found declared (by decide) member own
  cases computes with
  | input connected => cases connected.symm.trans unconnected
  | stock start => cases start

variable {row : Row α} (size : row.size = plan.size)
include size

/-- In the next row each stock that is no input has the value of its update. -/
theorem get_nextRow : ∀ a ∈ plan.program .stocks,
    (plan.nextRow row).get a.slot = a.term.value plan.clock.dt row := by
  intro a member
  have bounds := lt_size_of_integrated consistent planned
  obtain ⟨made, -⟩ := made_of_ofProject consistent planned
  have late := (bounds a.slot (List.mem_map_of_mem member)).1
  rw [nextRow, Row.get_setIfInBounds_ne (Nat.ne_of_lt late), Row.advance_eq_write]
  refine Row.get_write ?_ (fun slot listed => size ▸ (bounds slot listed).2) member
  rw [plan.program_eq]
  exact made.nodup_integrated consistent

omit consistent planned size in
/-- Every slot but that of the time that takes no part in writing the next row keeps its value. -/
theorem get_nextRow_of_notMem {slot : Nat} (late : slot ≠ timeSlot)
    (idle : slot ∉ written (plan.program .stocks)) : (plan.nextRow row).get slot = row.get slot := by
  rw [nextRow, Row.get_setIfInBounds_ne (Ne.symm late), Row.advance_eq_write,
    Row.get_write_of_notMem idle]

theorem time_nextRow : (plan.nextRow row).time = row.time + plan.clock.dt := by
  have inside : timeSlot < (Row.advance plan.clock.dt row (plan.program .stocks)).size := by
    have whole : (plan.nextRow row).size = plan.size := (size_nextRow plan row).trans size
    rw [nextRow, Array.size_setIfInBounds] at whole
    rw [whole]
    exact size_pos consistent.distinct planned
  rw [nextRow, Row.time, Row.get_setIfInBounds inside, if_pos rfl]

end Plan
end StockFlow
