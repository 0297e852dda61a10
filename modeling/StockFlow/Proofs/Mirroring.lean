import StockFlow.Proofs.History
import StockFlow.Proofs.Integration
import StockFlow.Proofs.Lowering

/-!
# Plans that mirror each other

A plan mirrors another one if its slots can be found among the other's so that in each row which
satisfies the other plan's equations they satisfy its own. Rows are determined by their equations, so
the two run alike, whatever the layouts of their rows and the orders of their assignments are.
-/

namespace StockFlow

variable {α : Type} [Scalar α]

/-! ## Rows read from others -/

namespace Row

/-- Whether the assignments of a program hold in a row as equations. -/
def Satisfies (dt : α) (row : Row α) (program : List (Assignment α)) : Prop :=
  ∀ a ∈ program, row.get a.slot = a.term.value dt row

/-- A row of so many slots with the values that their counterparts have in another row. -/
def read (row : Row α) (slots : Nat → Nat) (size : Nat) : Row α :=
  Array.ofFn fun slot : Fin size => row.get (slots slot)

variable {row : Row α} {slots : Nat → Nat} {size slot : Nat}

theorem size_read : (row.read slots size).size = size := Array.size_ofFn

theorem get_read (inside : slot < size) : (row.read slots size).get slot = row.get (slots slot) := by
  rw [get, Array.getD, dif_pos (by rwa [size_read])]
  simp [read]

end Row

namespace Plan

variable {project target : Project α} {plan other : Plan α} {slots : Nat → Nat}

/-- Whether a plan is that of a project in which the order of evaluation is sound. -/
structure IsSound (project : Project α) (plan : Plan α) : Prop where
  consistent : project.Consistent
  planned : ofProject project = .ok plan
  plain : project.HasPlainNames
  spares : project.SparesStocks
  outward : project.ReadsOutward

/-- Whether the slots of a plan have counterparts among those of another plan so that the equations of
the other plan imply its own, and what keeps or moves its value does so there. -/
structure Mirrors (plan other : Plan α) (slots : Nat → Nat) : Prop where
  clock : other.clock = plan.clock
  time : slots timeSlot = timeSlot
  equations : ∀ phase, phase ≠ .stocks → ∀ row : Row α, row.size = other.size →
    row.Satisfies plan.clock.dt (other.program phase) →
      (row.read slots plan.size).Satisfies plan.clock.dt (plan.program phase)
  held : ∀ slot < plan.size, slot ∉ written (plan.program .flows) →
    slots slot ∉ written (other.program .flows)
  moved : ∀ a ∈ plan.program .stocks, ∃ b ∈ other.program .stocks, b.slot = slots a.slot ∧
    ∀ row : Row α, row.size = other.size →
      b.term.value plan.clock.dt row = a.term.value plan.clock.dt (row.read slots plan.size)
  resting : ∀ slot < plan.size, slot ≠ timeSlot → slot ∉ written (plan.program .flows) →
    slot ∉ written (plan.program .stocks) →
      slots slot ≠ timeSlot ∧ slots slot ∉ written (other.program .stocks)

namespace IsSound

variable (sound : plan.IsSound project)
include sound

theorem pos : timeSlot < plan.size := size_pos sound.consistent.distinct sound.planned

theorem timeSlot_notMem {phase : Phase} (early : phase ≠ .stocks) :
    timeSlot ∉ written (plan.program phase) := fun member =>
  absurd (lt_size_of_written sound.consistent sound.planned early _ member).1 (Nat.lt_irrefl _)

theorem time_initialRow : plan.initialRow.time = plan.clock.start := by
  have inside : timeSlot < (Array.replicate plan.size (Scalar.zero : α)).size := by
    rw [Array.size_replicate]
    exact sound.pos
  rw [initialRow, Row.time, Row.get_assign_of_notMem (sound.timeSlot_notMem (by decide)),
    Row.get_setIfInBounds inside, if_pos rfl]

theorem initialRow_satisfies :
    plan.initialRow.Satisfies plan.clock.dt (plan.program .initials) :=
  get_assign_initials sound.consistent sound.planned sound.plain sound.outward (by simp)

theorem settle_satisfies {row : Row α} (size : row.size = plan.size) :
    (plan.settle row).Satisfies plan.clock.dt (plan.program .flows) :=
  get_settle sound.consistent sound.planned sound.plain sound.spares sound.outward size

/-- A row that satisfies the equations of the start is the initial row, if it has its time. -/
theorem eq_initialRow {row : Row α} (size : row.size = plan.size) (time : row.time = plan.clock.start)
    (satisfies : row.Satisfies plan.clock.dt (plan.program .initials)) : row = plan.initialRow := by
  have blank : ((Array.replicate plan.size (Scalar.zero : α)).setIfInBounds timeSlot
      plan.clock.start).size = plan.size := by simp
  have start : Row.time ((Array.replicate plan.size (Scalar.zero : α)).setIfInBounds timeSlot
      plan.clock.start) = plan.clock.start := by
    rw [Row.time, Row.get_setIfInBounds (by rw [Array.size_replicate]; exact sound.pos), if_pos rfl]
  rw [← Row.assign_eq_self satisfies, initialRow]
  exact assign_initials_congr sound.consistent sound.planned sound.plain sound.outward size blank
    (time.trans start.symm)

/-- A row that satisfies the equations of a step is the settled row of every one that has the same
values in the slots that are not assigned. -/
theorem eq_settle {row settled : Row α} (size : row.size = plan.size) (size' : settled.size = plan.size)
    (same : ∀ slot < plan.size, slot ∉ written (plan.program .flows) →
      row.get slot = settled.get slot)
    (satisfies : settled.Satisfies plan.clock.dt (plan.program .flows)) : settled = plan.settle row := by
  have agree : ∀ slot, slot ∉ written (plan.program .flows) → settled.get slot = row.get slot := by
    intro slot unassigned
    by_cases within : slot < plan.size
    · exact (same slot within unassigned).symm
    · rw [Row.get_of_le (by omega), Row.get_of_le (by omega)]
  rw [← Row.assign_eq_self satisfies]
  refine Row.ext_get (by rw [size_settle, Row.size_assign, size, size']) fun slot _ => ?_
  refine Row.assign_congr (sequenced_flows sound.consistent sound.planned sound.plain sound.spares
    sound.outward) (size'.trans size.symm) agree ?_ (Classical.em _).symm
  intro slot member
  exact size'.symm ▸ (lt_size_of_written sound.consistent sound.planned (by decide) slot member).2

end IsSound

/-! ## Runs -/

namespace Mirrors

variable (mirrors : plan.Mirrors other slots) (sound : plan.IsSound project)
  (sound' : other.IsSound target)
include mirrors sound sound'

omit sound' in
theorem time_read (row : Row α) : (row.read slots plan.size).time = row.time := by
  rw [Row.time, Row.get_read sound.pos, mirrors.time]
  rfl

theorem initialRow_eq : plan.initialRow = other.initialRow.read slots plan.size := by
  refine (sound.eq_initialRow Row.size_read ?_ ?_).symm
  · rw [mirrors.time_read sound, ← mirrors.clock]
    exact sound'.time_initialRow
  · exact mirrors.equations .initials (by decide) _ (size_initialRow other)
      (mirrors.clock ▸ sound'.initialRow_satisfies)

theorem settle_eq {row next : Row α} (size : row.size = plan.size) (size' : next.size = other.size)
    (same : ∀ slot < plan.size, slot ∉ written (plan.program .flows) →
      row.get slot = next.get (slots slot)) :
    plan.settle row = (other.settle next).read slots plan.size := by
  refine (sound.eq_settle size Row.size_read ?_ ?_).symm
  · intro slot within unassigned
    have kept : (other.settle next).get (slots slot) = next.get (slots slot) :=
      Row.get_assign_of_notMem (mirrors.held slot within unassigned)
    rw [Row.get_read within, kept, same slot within unassigned]
  · exact mirrors.equations .flows (by decide) _ ((size_settle other next).trans size')
      (mirrors.clock ▸ sound'.settle_satisfies size')

theorem get_nextRow_eq {row : Row α} (size : row.size = other.size) {slot : Nat}
    (within : slot < plan.size) (unassigned : slot ∉ written (plan.program .flows)) :
    (plan.nextRow (row.read slots plan.size)).get slot = (other.nextRow row).get (slots slot) := by
  by_cases time : slot = timeSlot
  · have first := time_nextRow sound.consistent sound.planned
      (show (row.read slots plan.size).size = plan.size from Row.size_read)
    have second := time_nextRow sound'.consistent sound'.planned size
    rw [mirrors.time_read sound] at first
    rw [mirrors.clock] at second
    rw [time, mirrors.time]
    exact first.trans second.symm
  · by_cases moving : slot ∈ written (plan.program .stocks)
    · obtain ⟨a, member, rfl⟩ := List.mem_map.mp moving
      obtain ⟨b, among, there, same⟩ := mirrors.moved a member
      rw [get_nextRow sound.consistent sound.planned Row.size_read a member, ← there,
        get_nextRow sound'.consistent sound'.planned size b among, mirrors.clock, same row size]
    · obtain ⟨late, idle⟩ := mirrors.resting slot within time unassigned moving
      rw [get_nextRow_of_notMem time moving, get_nextRow_of_notMem late idle, Row.get_read within]

/-- A plan that mirrors another one runs like it: in each step its settled row is read from the
other's. -/
theorem settledAt_eq (step : Nat) :
    plan.settledAt step = (other.settledAt step).read slots plan.size := by
  refine mirrors.settle_eq sound sound' (size_rowAt plan step) (size_rowAt other step) ?_
  induction step with
  | zero =>
    intro slot within _
    rw [rowAt, mirrors.initialRow_eq sound sound', Row.get_read within]
    rfl
  | succ step ih =>
    intro slot within unassigned
    have settled : plan.settle (plan.rowAt step) =
        (other.settle (other.rowAt step)).read slots plan.size :=
      mirrors.settle_eq sound sound' (size_rowAt plan step) (size_rowAt other step) ih
    rw [rowAt, settled, rowAt]
    exact mirrors.get_nextRow_eq sound sound' (size_settledAt other step) within unassigned

theorem savedRows_eq : plan.savedRows = other.savedRows.map (·.read slots plan.size) := by
  rw [savedRows, savedRows, mirrors.clock, List.map_map]
  exact List.map_congr_left fun _ _ => mirrors.settledAt_eq sound sound' _

/-- The series of a variable is that of its counterpart. -/
theorem series_eq {name name' : Path} {slot : Nat} (here : plan.slot? name = some slot)
    (within : slot < plan.size) (there : other.slot? name' = some (slots slot)) :
    ((Simulation.start plan).runToEnd.series? name).map (fun series => (series.time, series.values)) =
      ((Simulation.start other).runToEnd.series? name').map
        fun series => (series.time, series.values) := by
  rw [Simulation.series?_runToEnd, Simulation.series?_runToEnd, here, there,
    mirrors.savedRows_eq sound sound']
  simp [mirrors.time_read sound, Row.get_read within, Function.comp_def]

end Mirrors

/-! ## Variables -/

/-- How a variable of an instance, with its slot, has a counterpart in another plan: an input has the
value of its source in each row that satisfies the other plan's equations, and any other variable has
a counterpart of its own kind with equations of the same values. -/
inductive Reflects (target : Project α) (plan other : Plan α) (slots : Nat → Nat) (node : Coded α)
    (model : LinkedModel α) : Variable α → Nat → Prop
  | input {v : Variable α} {slot : Nat} {source : Option Nat}
    (connected : node.note.inputs.get? v.name = some source)
    (delivers : ∀ phase, phase ≠ .stocks → ∀ row : Row α, row.size = other.size →
      row.Satisfies plan.clock.dt (other.program phase) →
        row.get (slots slot) =
          (Scope.loadSlot source).value plan.clock.dt (row.read slots plan.size)) :
    Reflects target plan other slots node model v slot
  | formula {formula formula' : Formula α} {slot : Nat} {path : List Name} {below : Coded α}
    {model' : LinkedModel α} (unconnected : node.note.inputs.get? formula.name = none)
    (leads : other.root.descend? path = some below)
    (found : target.find? below.model = some model') (member : .formula formula' ∈ model'.vars)
    (unconnected' : below.note.inputs.get? formula'.name = none)
    (own : below.slots.get? formula'.name = some (slots slot))
    (held : (Variable.formula formula').isHeld = (Variable.formula formula).isHeld)
    (same : ∀ row : Row α, row.size = other.size →
      (below.scope model' other.clock formula'.name).formulaValue row formula' =
        (node.scope model plan.clock formula.name).formulaValue (row.read slots plan.size) formula) :
    Reflects target plan other slots node model (.formula formula) slot
  | stock {stock stock' : Stock α} {slot : Nat} {path : List Name} {below : Coded α}
    {model' : LinkedModel α} (unconnected : node.note.inputs.get? stock.name = none)
    (leads : other.root.descend? path = some below)
    (found : target.find? below.model = some model') (member : .stock stock' ∈ model'.vars)
    (unconnected' : below.note.inputs.get? stock'.name = none)
    (own : below.slots.get? stock'.name = some (slots slot))
    (start : ∀ row : Row α, row.size = other.size →
      (below.scope model' other.clock stock'.name).value row stock'.initial =
        (node.scope model plan.clock stock.name).value (row.read slots plan.size) stock.initial)
    (same : ∀ (row : Row α) (present : α), row.size = other.size →
      (below.scope model' other.clock stock'.name).nextValue row present stock' =
        (node.scope model plan.clock stock.name).nextValue (row.read slots plan.size) present stock) :
    Reflects target plan other slots node model (.stock stock) slot

section

variable {path : List Name} {below : Coded α} {model : LinkedModel α} {v : Variable α} {slot : Nat}
  (sound : other.IsSound target) (leads : other.root.descend? path = some below)
  (found : target.find? below.model = some model) (member : v ∈ model.vars)
  (unconnected : below.note.inputs.get? v.name = none) (own : below.slots.get? v.name = some slot)
include sound leads found member unconnected own

/-- The slot of a variable that is no input and keeps its value during a step is not assigned. -/
theorem IsSound.notMem_flows (held : v.isHeld = true) : slot ∉ written (other.program .flows) :=
  notMem_flows_of_held sound.consistent sound.planned leads found member unconnected own held

omit unconnected in
/-- The slot of a variable that is no stock takes no part in writing the next row. -/
theorem IsSound.notMem_stocks (computed : v.isStock = false) :
    slot ∉ written (other.program .stocks) :=
  notMem_integrated_of_own sound.consistent sound.planned leads found member own computed

/-- What a variable that is no input is computed by in a phase in which it is due. -/
theorem IsSound.exists_term {phase : Phase} (early : phase ≠ .stocks)
    (due : v.isDue below.note.inputs phase = true) (computed : v.isModule = false) :
    ∃ term, ⟨slot, term⟩ ∈ other.program phase ∧
      Coded.Computes below model other.clock phase v [⟨slot, term⟩] := by
  obtain ⟨made, -⟩ := made_of_ofProject sound.consistent sound.planned
  obtain ⟨part, computes, within⟩ :=
    (made.of_descend? leads).computes sound.consistent early found member due
  rw [other.program_eq]
  have whole := made.program_of_descend? sound.consistent early leads
  cases computes with
  | input connected => cases connected.symm.trans unconnected
  | enter => cases computed
  | stock start _ own' lowered =>
    cases own.symm.trans own'
    exact ⟨_, whole (within List.mem_cons_self), .stock start unconnected own lowered⟩
  | formula _ own' lowered =>
    cases own.symm.trans own'
    exact ⟨_, whole (within List.mem_cons_self), .formula unconnected own lowered⟩

omit unconnected in
/-- An input is computed from its source. -/
theorem IsSound.mem_program_of_connected {phase : Phase} (early : phase ≠ .stocks) {source : Option Nat}
    (connected : below.note.inputs.get? v.name = some source) :
    ⟨slot, Scope.loadSlot source⟩ ∈ other.program phase := by
  obtain ⟨made, -⟩ := made_of_ofProject sound.consistent sound.planned
  have due : v.isDue below.note.inputs phase = true := by simp [Variable.isDue, connected]
  obtain ⟨part, computes, within⟩ :=
    (made.of_descend? leads).computes sound.consistent early found member due
  rw [other.program_eq]
  apply made.program_of_descend? sound.consistent early leads
  apply within
  cases computes with
  | input connected' own' =>
    cases connected.symm.trans connected'
    cases own.symm.trans own'
    exact List.mem_cons_self
  | enter absent | stock _ absent | formula absent => cases connected.symm.trans absent

end

section

variable {path : List Name} {below : Coded α} {model : LinkedModel α} {slot : Nat} {row : Row α}
  (sound : other.IsSound target) (leads : other.root.descend? path = some below)
  (found : target.find? below.model = some model)
include sound leads found

/-- In a row that satisfies the equations of a phase in which it is due, a formula that is no input has
the value of its equation. -/
theorem IsSound.get_formula {formula : Formula α} (member : .formula formula ∈ model.vars)
    (unconnected : below.note.inputs.get? formula.name = none)
    (own : below.slots.get? formula.name = some slot) {phase : Phase} (early : phase ≠ .stocks)
    (due : (Variable.formula formula).isDue below.note.inputs phase = true)
    (satisfies : row.Satisfies other.clock.dt (other.program phase)) :
    row.get slot = (below.scope model other.clock formula.name).formulaValue row formula := by
  obtain ⟨term, among, computes⟩ := sound.exists_term leads found member unconnected own early due rfl
  rw [satisfies _ among]
  cases computes with
  | input connected => cases connected.symm.trans unconnected
  | formula _ _ lowered => exact Scope.value_of_formulaTerm row lowered

/-- In a row that satisfies the equations of the start, a stock that is no input has its initial value. -/
theorem IsSound.get_stock {stock : Stock α} (member : .stock stock ∈ model.vars)
    (unconnected : below.note.inputs.get? stock.name = none)
    (own : below.slots.get? stock.name = some slot)
    (satisfies : row.Satisfies other.clock.dt (other.program .initials)) :
    row.get slot = (below.scope model other.clock stock.name).value row stock.initial := by
  obtain ⟨term, among, computes⟩ := sound.exists_term leads found member unconnected own
    (by decide : Phase.initials ≠ .stocks) rfl rfl
  rw [satisfies _ among]
  cases computes with
  | input connected => cases connected.symm.trans unconnected
  | stock _ _ _ lowered => exact Scope.value_of_lower lowered

end

/-- In a row that satisfies the other plan's equations the counterpart of a slot has the value that the
term of the slot has in the row read from it. -/
theorem Reflects.get_eq {node : Coded α} {model : LinkedModel α} {v : Variable α} {slot : Nat}
    (reflects : Reflects target plan other slots node model v slot) (sound : other.IsSound target)
    (clock : other.clock = plan.clock) {phase : Phase} (early : phase ≠ .stocks)
    (due : v.isDue node.note.inputs phase = true) {term : Term α}
    (computes : Coded.Computes node model plan.clock phase v [⟨slot, term⟩]) {row : Row α}
    (size : row.size = other.size) (satisfies : row.Satisfies plan.clock.dt (other.program phase)) :
    row.get (slots slot) = term.value plan.clock.dt (row.read slots plan.size) := by
  generalize whole : [(⟨slot, term⟩ : Assignment α)] = part at computes
  -- the variable is computed alike in both plans: as an input, as a formula or as a stock
  cases reflects with
  | input connected delivers =>
    cases computes with
    | input connected' =>
      cases whole
      cases connected.symm.trans connected'
      exact delivers phase early row size satisfies
    | enter unconnected | stock _ unconnected | formula unconnected =>
      cases connected.symm.trans unconnected
  | @formula formula formula' _ path below model' unconnected leads found member unconnected' own held
      same =>
    cases computes with
    | input connected => cases connected.symm.trans unconnected
    | formula _ _ lowered =>
      cases whole
      have due' : (Variable.formula formula').isDue below.note.inputs phase = true := by
        have absent : node.note.inputs.get? (Variable.formula formula).name = none := unconnected
        have absent' : below.note.inputs.get? (Variable.formula formula').name = none := unconnected'
        rw [Variable.isDue, absent] at due
        rwa [Variable.isDue, absent', held]
      rw [sound.get_formula leads found member unconnected' own early due' (clock ▸ satisfies),
        same row size]
      exact (Scope.value_of_formulaTerm _ lowered).symm
  | @stock stock stock' _ path below model' unconnected leads found member unconnected' own start same =>
    cases computes with
    | input connected => cases connected.symm.trans unconnected
    | stock initial _ _ lowered =>
      cases whole
      subst initial
      rw [sound.get_stock leads found member unconnected' own (clock ▸ satisfies), start row size]
      exact (Scope.value_of_lower lowered).symm

section

variable {node : Coded α} {model : LinkedModel α} {slot : Nat}

/-- The counterpart of what keeps its value during a step keeps it as well. -/
theorem Reflects.notMem_flows {v : Variable α} (reflects : Reflects target plan other slots node model v slot)
    (sound : other.IsSound target) (unconnected : node.note.inputs.get? v.name = none)
    (isHeld : v.isHeld = true) : slots slot ∉ written (other.program .flows) := by
  cases reflects with
  | input connected => cases connected.symm.trans unconnected
  | formula _ leads found member unconnected' own held =>
    exact sound.notMem_flows leads found member unconnected' own (held.trans isHeld)
  | stock _ leads found member unconnected' own =>
    exact sound.notMem_flows leads found member unconnected' own rfl

/-- The counterpart of what is no stock keeps its value in the next row. -/
theorem Reflects.rests {v : Variable α} (reflects : Reflects target plan other slots node model v slot)
    (sound : other.IsSound target) (unconnected : node.note.inputs.get? v.name = none)
    (computed : v.isStock = false) :
    slots slot ≠ timeSlot ∧ slots slot ∉ written (other.program .stocks) := by
  cases reflects with
  | input connected => cases connected.symm.trans unconnected
  | formula _ leads found member _ own =>
    exact ⟨Nat.ne_of_gt (lt_size_of_own sound.consistent sound.planned leads own).1,
      sound.notMem_stocks leads found member own rfl⟩
  | stock => cases computed

/-- The counterpart of a stock moves by what the stock moves by in the row read from its own. -/
theorem Reflects.exists_moved {stock : Stock α}
    (reflects : Reflects target plan other slots node model (.stock stock) slot)
    (sound : other.IsSound target) (clock : other.clock = plan.clock)
    (unconnected : node.note.inputs.get? stock.name = none) (within : slot < plan.size) :
    ∃ b ∈ other.program .stocks, b.slot = slots slot ∧ ∀ row : Row α, row.size = other.size →
      b.term.value plan.clock.dt row =
        ((node.scope model plan.clock stock.name).stockUpdate slot stock).value plan.clock.dt
          (row.read slots plan.size) := by
  cases reflects with
  | input connected => cases connected.symm.trans unconnected
  | @stock _ stock' _ path below model' _ leads found member unconnected' own _ same =>
    obtain ⟨made, -⟩ := made_of_ofProject sound.consistent sound.planned
    refine ⟨⟨slots slot, (below.scope model' other.clock stock'.name).stockUpdate (slots slot) stock'⟩, ?_,
      rfl, fun row size => ?_⟩
    · rw [other.program_eq]
      exact (made.mem_integrated sound.consistent).mpr
        ⟨path, below, model', stock', _, leads, found, member, unconnected', own, rfl⟩
    · have value' := (below.scope model' other.clock stock'.name).value_stockUpdate row (slots slot) stock'
      have value := (node.scope model plan.clock stock.name).value_stockUpdate
        (row.read slots plan.size) slot stock
      rw [same row _ size, ← Row.get_read within, ← value] at value'
      rw [← clock]
      exact value'.trans (by rw [clock]; rfl)

end

/-- A slot that is not assigned in a step is that of the time or of a variable that keeps its value. -/
theorem IsSound.exists_held (sound : plan.IsSound project) {slot : Nat} (within : slot < plan.size)
    (unassigned : slot ∉ written (plan.program .flows)) : slot = timeSlot ∨
      ∃ path node model v, plan.root.descend? path = some node ∧
        project.find? node.model = some model ∧ v ∈ model.vars ∧ v.isHeld = true ∧
        node.note.inputs.get? v.name = none ∧ node.slots.get? v.name = some slot := by
  obtain ⟨made, -, shift, -⟩ := made_of_ofProject sound.consistent sound.planned
  rw [plan.program_eq] at unassigned
  refine made.held_of_notMem sound.consistent ⟨shift ▸ Nat.zero_le _, ?_⟩ unassigned
  rwa [shift, Nat.zero_add]

/-- A plan mirrors another one if all its variables have counterparts there. -/
theorem mirrors_of_reflects (sound : plan.IsSound project) (sound' : other.IsSound target)
    (clock : other.clock = plan.clock) (time : slots timeSlot = timeSlot)
    (each : ∀ path node model v slot, plan.root.descend? path = some node →
      project.find? node.model = some model → v ∈ model.vars → node.slots.get? v.name = some slot →
        Reflects target plan other slots node model v slot) : plan.Mirrors other slots := by
  obtain ⟨made, -⟩ := made_of_ofProject sound.consistent sound.planned
  -- what a phase computes, what it leaves, what a step makes of stocks, and what a step leaves
  refine ⟨clock, time, fun phase early row size satisfies a member => ?_,
    fun slot within unassigned => ?_, fun a member => ?_, fun slot within late unassigned idle => ?_⟩
  · have within : a.slot < plan.size :=
      (lt_size_of_written sound.consistent sound.planned early _ (List.mem_map_of_mem member)).2
    rw [plan.program_eq] at member
    obtain ⟨path, below, model, v, leads, found, declared, due, own, computes⟩ :=
      made.exists_of_mem_program sound.consistent early member
    rw [Row.get_read within]
    exact (each path below model v a.slot leads found declared own).get_eq sound' clock early due
      computes size satisfies
  · rcases sound.exists_held within unassigned with rfl |
      ⟨path, node, model, v, leads, found, declared, isHeld, unconnected, own⟩
    · rw [time]
      exact sound'.timeSlot_notMem (by decide)
    · exact (each path node model v slot leads found declared own).notMem_flows sound' unconnected isHeld
  · have within : a.slot < plan.size :=
      (lt_size_of_integrated sound.consistent sound.planned _ (List.mem_map_of_mem member)).2
    rw [plan.program_eq] at member
    obtain ⟨path, node, model, stock, slot, leads, found, declared, unconnected, own, rfl⟩ :=
      (made.mem_integrated sound.consistent).mp member
    exact (each path node model _ slot leads found declared own).exists_moved sound' clock unconnected
      within
  · rcases sound.exists_held within unassigned with rfl |
      ⟨path, node, model, v, leads, found, declared, -, unconnected, own⟩
    · exact absurd rfl late
    · refine (each path node model v slot leads found declared own).rests sound' unconnected ?_
      cases v with
      | formula | module => rfl
      | stock stock =>
        refine absurd ?_ idle
        rw [plan.program_eq]
        exact List.mem_map_of_mem (f := Assignment.slot) ((made.mem_integrated sound.consistent).mpr
          ⟨path, node, model, stock, slot, leads, found, declared, unconnected, own, rfl⟩)

end Plan

end StockFlow
