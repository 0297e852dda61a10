import StockFlow.Proofs.Catalog
import StockFlow.Proofs.Euler

/-!
# What a phase writes

An instance performs a phase by the instructions of its code: it assigns slots, and enters the modules
below it, which do the same with the same two rows. The update of a stock goes into the next row and
everything else into the present one. Whatever the rows hold, the phases of an instance write slots of its
own block only, and never the time: those before the stocks phase in the present row, and the stocks phase
in the next one, at the slots of stocks.
-/

namespace StockFlow

variable {α : Type} [Scalar α]

/-! ## Changes of rows -/

namespace Row

/-- Whether a row differs from the one before it at most in slots of a kind. -/
structure ChangesOnly (within : Nat → Prop) (before after : Row α) : Prop where
  size : after.size = before.size
  get : ∀ slot, ¬ within slot → after.get slot = before.get slot

variable {dt : α} {row next : Row α} {program : List (Assignment α)} {within : Nat → Prop}

theorem size_write : (write dt row next program).size = next.size := by
  induction program generalizing next with
  | nil => rfl
  | cons a rest ih => rw [write_cons, ih, Array.size_setIfInBounds]

theorem changesOnly_assign (inside : ∀ slot ∈ written program, within slot) :
    ChangesOnly within row (assign dt row program) :=
  ⟨size_assign, fun slot outside => get_assign_of_notMem fun member => outside (inside slot member)⟩

theorem changesOnly_write (inside : ∀ slot ∈ written program, within slot) :
    ChangesOnly within next (write dt row next program) :=
  ⟨size_write, fun slot outside => get_write_of_notMem fun member => outside (inside slot member)⟩

end Row

/-- The two rows of a step. -/
structure Rows (α : Type) where
  present : Row α
  next : Row α

namespace Rows

/-- Makes an assignment into the next row, or else into the present one. The term reads the present row. -/
def put (dt : α) (ahead : Bool) (rows : Rows α) (a : Assignment α) : Rows α :=
  let value := a.term.value dt rows.present
  if ahead then { rows with next := rows.next.setIfInBounds a.slot value }
  else { rows with present := rows.present.setIfInBounds a.slot value }

variable {dt : α}

theorem foldl_put_present (program : List (Assignment α)) (rows : Rows α) :
    program.foldl (put dt false) rows = { rows with present := rows.present.assign dt program } := by
  induction program generalizing rows with
  | nil => rfl
  | cons a rest ih =>
    rw [List.foldl_cons, ih, Row.assign_cons]
    rfl

theorem foldl_put_next (program : List (Assignment α)) (rows : Rows α) :
    program.foldl (put dt true) rows =
      { rows with next := Row.write dt rows.present rows.next program } := by
  induction program generalizing rows with
  | nil => rfl
  | cons a rest ih =>
    rw [List.foldl_cons, ih, Row.write_cons]
    rfl

end Rows

/-! ## Phases of an instance -/

namespace Coded

instance (project : Project α) (node : Coded α) (slot : Nat) : Decidable (HasStock project node slot) :=
  match found : project.find? node.model with
  | none => .isFalse fun ⟨_, known, _⟩ => nomatch found.symm.trans known
  | some model =>
    decidable_of_iff (∃ v ∈ model.vars, v.isStock = true ∧ node.slots.get? v.name = some slot)
      ⟨fun stock => ⟨model, found, stock⟩, fun ⟨_, known, stock⟩ =>
        Option.some.inj (found.symm.trans known) ▸ stock⟩

mutual

/-- Performs a phase of an instance: the instructions of its code, one after the other. In the stocks phase
what is assigned to a stock goes into the next row. -/
def perform (project : Project α) (phase : Phase) (dt : α) : Coded α → Rows α → Rows α
  | node@⟨_, _, _, _, _, code, children⟩, rows =>
    (code.phase phase).foldl (fun rows instruction =>
      match instruction with
      | .assign a => rows.put dt (phase = .stocks ∧ HasStock project node a.slot) a
      | .enter module => enter project phase dt module children rows) rows

/-- Performs a phase of the instance of a name. -/
def enter (project : Project α) (phase : Phase) (dt : α) (name : Name) :
    List (Coded α) → Rows α → Rows α
  | [], rows => rows
  | first :: rest, rows =>
    if first.name = name then perform project phase dt first rows
    else enter project phase dt name rest rows

end

variable {project : Project α} {phase : Phase} {dt : α}

/-- What an instance does with its rows for an instruction. -/
def act (project : Project α) (phase : Phase) (dt : α) (node : Coded α) (rows : Rows α) :
    Instruction α → Rows α
  | .assign a => rows.put dt (phase = .stocks ∧ HasStock project node a.slot) a
  | .enter module => enter project phase dt module node.children rows

theorem perform_eq (node : Coded α) (rows : Rows α) :
    perform project phase dt node rows =
      (node.note.phase phase).foldl (act project phase dt node) rows := by
  cases node
  rw [perform]
  rfl

theorem enter_eq (name : Name) (children : List (Coded α)) (rows : Rows α) :
    enter project phase dt name children rows =
      ((findNamed Instance.name name children).map (perform project phase dt · rows)).getD rows := by
  induction children with
  | nil => rfl
  | cons first rest ih =>
    rw [enter, findNamed, List.find?_cons]
    by_cases here : first.name = name
    · simp [here]
    · have skipped : (first.name == name) = false := beq_eq_false_iff_ne.mpr here
      rw [if_neg here, skipped, ih]
      rfl

omit [Scalar α] in
/-- Instructions amount to the assignments that they unfold to. -/
theorem foldl_unfold {β : Type} {put : β → Assignment α → β} {act : β → Instruction α → β}
    {modules : Keyed (List (Assignment α))} {code : List (Instruction α)}
    (assigns : ∀ a, .assign a ∈ code → ∀ rows, act rows (.assign a) = put rows a)
    (enters : ∀ module rows, act rows (.enter module) =
      ((modules.get? module).getD []).foldl put rows) (rows : β) :
    code.foldl act rows = (unfold modules code).foldl put rows := by
  induction code generalizing rows with
  | nil => rfl
  | cons instruction rest ih =>
    have others := ih fun a member => assigns a (List.mem_cons_of_mem _ member)
    rw [List.foldl_cons, others]
    cases instruction with
    | assign a => rw [assigns a List.mem_cons_self, unfold, List.foldl_cons]
    | enter module => rw [enters, unfold, List.foldl_append]

variable {clock : Clock α} {root node : Coded α} {first slot : Nat} {model : LinkedModel α}

/-- In the stocks phase the code of an instance assigns slots of its stocks only. -/
theorem Fits.hasStock_of_assign (consistent : project.Consistent)
    (fits : Fits project clock root first model node) {a : Assignment α}
    (member : .assign a ∈ node.note.phase .stocks) : HasStock project node a.slot := by
  obtain ⟨wired, same, coded⟩ := fits.code
  obtain ⟨parts, each, flat⟩ := Site.phaseCode_eq_ok (Site.phaseCode_of_code coded .stocks)
  rw [Site.filterMap_schedule _ (consistent.distinct fits.found)] at each
  rw [flat, List.mem_flatten] at member
  obtain ⟨part, listed, member⟩ := member
  obtain ⟨v, among, coded⟩ := exists_left_of_mem each listed
  obtain ⟨declared, takesPart⟩ := List.mem_filter.mp among
  have codes := Site.variableCode_eq_ok.mp coded
  cases codes with
  | input early => exact absurd rfl early
  | settled => cases member
  | enter => simp at member
  | update _ own =>
    obtain rfl : a = _ := by simpa using member
    exact ⟨model, fits.found, _, declared, rfl, Instance.slots_eq_of_shape same ▸ own⟩
  | formula =>
    simp [Site.isIntegrating, Variable.isStock, Variable.isModule, Variable.module?] at takesPart

/-- A phase of an instance makes the assignments of its program, those of the stocks phase into the next
row. -/
theorem Made.perform_eq_foldl (consistent : project.Consistent) (made : Made project clock root node)
    (rows : Rows α) : perform project phase dt node rows =
      (program phase node).foldl (Rows.put dt (phase = .stocks)) rows := by
  induction made generalizing rows with
  | @intro node first model fits below ih =>
    rw [perform_eq, program_eq]
    refine foldl_unfold (fun a member rows => ?_) (fun module rows => ?_) rows
    · have ahead : (phase = .stocks ∧ HasStock project node a.slot) ↔ phase = .stocks :=
        and_iff_left_of_imp fun stocks => fits.hasStock_of_assign consistent (stocks ▸ member)
      simp only [act, ahead]
    · rw [act, enter_eq, programs_eq_map, Keyed.get?_of_items]
      cases found : findNamed Instance.name module node.children with
      | none => rfl
      | some child => exact ih child (Instance.mem_of_child? found) rows

variable (consistent : project.Consistent) (made : Made project clock root node)
include consistent made

theorem Made.perform_early (early : phase ≠ .stocks) (rows : Rows α) :
    perform project phase dt node rows =
      { rows with present := rows.present.assign dt (program phase node) } := by
  rw [made.perform_eq_foldl consistent, decide_eq_false early, Rows.foldl_put_present]

theorem Made.perform_stocks (rows : Rows α) : perform project .stocks dt node rows =
    { rows with next := Row.write dt rows.present rows.next (program .stocks node) } := by
  rw [made.perform_eq_foldl consistent, decide_eq_true rfl, Rows.foldl_put_next]

end Coded

/-! ## Frames -/

namespace Plan

variable {project : Project α} {plan : Plan α} (consistent : project.Consistent)
  (planned : ofProject project = .ok plan)
include consistent planned

theorem perform_initials (next : Row α) :
    let blank := (Array.replicate plan.size Scalar.zero).setIfInBounds timeSlot plan.clock.start
    (plan.root.perform project .initials plan.clock.dt ⟨blank, next⟩).present = plan.initialRow := by
  obtain ⟨made, -⟩ := made_of_ofProject consistent planned
  intro blank
  rw [made.perform_early consistent (by decide), ← plan.program_eq]
  rfl

theorem perform_flows (rows : Rows α) :
    (plan.root.perform project .flows plan.clock.dt rows).present = plan.settle rows.present := by
  obtain ⟨made, -⟩ := made_of_ofProject consistent planned
  rw [made.perform_early consistent (by decide), ← plan.program_eq]
  rfl

theorem perform_stocks (row : Row α) :
    (plan.root.perform project .stocks plan.clock.dt ⟨row, row⟩).next.setIfInBounds timeSlot
      (row.time + plan.clock.dt) = plan.nextRow row := by
  obtain ⟨made, -⟩ := made_of_ofProject consistent planned
  rw [made.perform_stocks consistent, ← plan.program_eq]
  rfl

variable {path : List Name} {node : Coded α} (leads : plan.root.descend? path = some node)
include leads

/-- Whatever an instance assigns lies in its block, behind the time; in the stocks phase it is that of a
stock. -/
theorem confined (phase : Phase) : ∀ slot ∈ written (node.program phase), node.Owns slot ∧
    slot ≠ timeSlot ∧ (phase = .stocks → plan.Integrates project slot) := by
  obtain ⟨top, -⟩ := made_of_ofProject consistent planned
  have made := top.of_descend? leads
  intro slot member
  by_cases stocks : phase = .stocks
  · subst stocks
    obtain ⟨owned, late⟩ := made.owns_of_integrated consistent slot member
    refine ⟨owned, Nat.ne_of_gt late, fun _ => ?_⟩
    obtain ⟨a, among, rfl⟩ := List.mem_map.mp member
    obtain ⟨further, below, model, stock, slot, descends, rest⟩ := (made.mem_integrated consistent).mp among
    obtain ⟨found, declared, unconnected, own, rfl⟩ := rest
    refine ⟨path ++ further, below, model, stock, ?_, found, declared, unconnected, own⟩
    rw [Instance.descend?_append, leads, Option.bind_some, descends]
  · obtain ⟨owned, late⟩ := made.owns_of_written consistent stocks slot member
    exact ⟨owned, Nat.ne_of_gt late, fun same => absurd same stocks⟩

end Plan

namespace Simulation

/-- What the phases of an instance do to any two rows: those before the stocks phase change the present row
only, in the block of the instance and not at the time, and the stocks phase the next row only, there and at
slots of stocks. Performed by the main model, they are the steps of a run. -/
theorem phases_confined {document : Document.Project α} {project : Project α} {run : Simulation α}
    (compiled : Project.compile document = .ok project) (ready : ofProject project = .ok run)
    {path : List Name} {node : Coded α} (leads : run.plan.root.descend? path = some node) :
    (∀ phase, ∀ slot ∈ written (node.program phase), node.Owns slot ∧ slot ≠ timeSlot ∧
        (phase = .stocks → run.plan.Integrates project slot)) ∧
      (∀ phase, phase ≠ .stocks → ∀ (dt : α) (rows : Rows α),
        let after := node.perform project phase dt rows
        after.next = rows.next ∧ Row.ChangesOnly (fun slot => node.Owns slot ∧ slot ≠ timeSlot)
          rows.present after.present) ∧
      (∀ (dt : α) (rows : Rows α),
        let after := node.perform project .stocks dt rows
        after.present = rows.present ∧ Row.ChangesOnly (fun slot => node.Owns slot ∧ slot ≠ timeSlot ∧
          run.plan.Integrates project slot) rows.next after.next) ∧
      ∀ rows : Rows α,
        let perform phase rows := run.plan.root.perform project phase run.plan.clock.dt rows
        let blank := (Array.replicate run.plan.size Scalar.zero).setIfInBounds timeSlot run.plan.clock.start
        (perform .initials ⟨blank, rows.next⟩).present = run.plan.initialRow ∧
          (perform .flows rows).present = run.plan.settle rows.present ∧
          (perform .stocks ⟨rows.present, rows.present⟩).next.setIfInBounds timeSlot
            (rows.present.time + run.plan.clock.dt) = run.plan.nextRow rows.present := by
  have consistent := Project.consistent_of_compile compiled
  obtain ⟨plan, planned, rfl⟩ := ofProject_eq_ok.mp ready
  have confined := Plan.confined consistent planned leads
  obtain ⟨top, -⟩ := Plan.made_of_ofProject consistent planned
  have made := top.of_descend? leads
  refine ⟨confined, fun phase early dt rows => ?_, fun dt rows => ?_, fun rows => ?_⟩
  · intro after
    have performed : after = _ := made.perform_early consistent early rows
    rw [performed]
    exact ⟨rfl, Row.changesOnly_assign fun slot member =>
      (confined phase slot member).imp_right And.left⟩
  · intro after
    have performed : after = _ := made.perform_stocks consistent rows
    rw [performed]
    exact ⟨rfl, Row.changesOnly_write fun slot member =>
      (confined .stocks slot member).imp_right (.imp_right (· rfl))⟩
  · exact ⟨Plan.perform_initials consistent planned rows.next,
      Plan.perform_flows consistent planned rows, Plan.perform_stocks consistent planned rows.present⟩

/-- The block of a module behind the two variables of the main model. -/
theorem phases_confined_nested : ∃ project run, ∃ node : Coded Float, Project.compile Plan.nested = .ok project ∧
    ofProject project = .ok run ∧ run.plan.root.descend? ["m"] = some node ∧ node.shift = 3 ∧
      let rows : Rows Float := ⟨Array.replicate 7 1, Array.replicate 7 2⟩
      let flowed := node.perform project .flows 1 rows
      let moved := node.perform project .stocks 1 rows
      flowed.next = rows.next ∧ flowed.present.get 2 = rows.present.get 2 ∧
        moved.present = rows.present ∧ moved.next.time = rows.next.time := by
  have check : ∃ project ∈ (Project.compile Plan.nested).toOption,
      ∃ run ∈ (ofProject project).toOption, ∃ node ∈ run.plan.root.descend? ["m"], node.shift = 3 := by
    rw [Project.compile_eq]
    decide +kernel
  obtain ⟨project, compiled, run, ready, node, leads, shift⟩ := check
  have compiled := toOption_eq_some.mp compiled
  have ready := toOption_eq_some.mp ready
  obtain ⟨-, early, stocks, -⟩ := phases_confined compiled ready leads
  refine ⟨project, run, node, compiled, ready, leads, shift, ?_⟩
  intro rows flowed moved
  obtain ⟨kept, flows⟩ := early .flows (by decide) 1 rows
  obtain ⟨kept', moves⟩ := stocks 1 rows
  refine ⟨kept, flows.get 2 fun inside => ?_, kept', moves.get timeSlot fun inside => inside.2.1 rfl⟩
  have start := inside.1.1
  omega

end Simulation
end StockFlow
