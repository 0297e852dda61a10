import Mathlib.Data.List.Nodup
import StockFlow.Proofs.Calls
import StockFlow.Proofs.Completeness
import StockFlow.Proofs.Exact
import StockFlow.Proofs.Integration
import StockFlow.Proofs.Lowering

/-!
# Numbers that are held

A slot holds a real number if it stands for it in all rows of a run in which nothing is set. For some
slots this follows from what is assigned to them: it stands for their numbers wherever the slots that it
is computed from stand for theirs, and at the start those are assigned first. What is assigned in a step
may come in any order, as all of the slots stand for their numbers before.
-/

namespace StockFlow

open Scalar (real)

variable {α : Type} [Scalar α]

/-! ## Numbers -/

namespace Scalar

variable [Exact α] {x y : α} {r s : ℝ}

/-- Whether a number is finite and stands for a real one. -/
def StandsFor (x : α) (r : ℝ) : Prop := isFinite x ∧ real x = r

theorem standsFor_ofNat (n : Nat) : StandsFor (ofNat n : α) n := Exact.real_ofNat n

theorem standsFor_zero : StandsFor (zero : α) 0 := ⟨isFinite_zero, real_zero⟩

namespace StandsFor

variable (one : StandsFor x r) (two : StandsFor y s)
include one two

theorem add : StandsFor (x + y) (r + s) := by
  obtain ⟨⟨finite, rfl⟩, ⟨finite', rfl⟩⟩ := And.intro one two
  exact Exact.real_add finite finite'

theorem sub : StandsFor (x - y) (r - s) := by
  obtain ⟨⟨finite, rfl⟩, ⟨finite', rfl⟩⟩ := And.intro one two
  exact Exact.real_sub finite finite'

theorem mul : StandsFor (x * y) (r * s) := by
  obtain ⟨⟨finite, rfl⟩, ⟨finite', rfl⟩⟩ := And.intro one two
  exact Exact.real_mul finite finite'

theorem div (nonzero : s ≠ 0) : StandsFor (x / y) (r / s) := by
  obtain ⟨⟨finite, rfl⟩, ⟨finite', rfl⟩⟩ := And.intro one two
  exact Exact.real_div finite finite' nonzero

end StandsFor
end Scalar

/-! ## Programs -/

/-- A slot that stands before another one in a list without repetitions stands in the part before it. -/
theorem mem_of_pair_sublist {slot other : Nat} {before after : List Nat}
    (distinct : (before ++ slot :: after).Nodup) (earlier : [other, slot].Sublist (before ++ slot :: after)) :
    other ∈ before := by
  obtain ⟨first, second, whole, within, rest⟩ := List.sublist_append_iff.mp earlier
  have fresh : slot ∉ after := (List.nodup_cons.mp distinct.of_append_right).1
  cases first with
  | nil =>
    -- the other one cannot stand behind the slot, since the slot stands behind it
    obtain rfl : [other, slot] = second := whole
    rcases List.sublist_cons_iff.mp rest with both | ⟨_, same, last⟩
    · exact absurd (both.subset (List.mem_cons_of_mem _ List.mem_cons_self)) fresh
    · cases same
      exact absurd (last.subset List.mem_cons_self) fresh
  | cons =>
    obtain ⟨rfl, -⟩ := List.cons.inj whole
    exact within.subset List.mem_cons_self

/-- What slots have before a program and what each assignment gives its slot, if the slots assigned before
have it, they have after the program. -/
theorem Row.upholds_assign {dt : α} {row : Row α} {program : List (Assignment α)} (known : Nat → Prop)
    (holds : Nat → α → Prop) (distinct : (written program).Nodup)
    (inside : ∀ slot ∈ written program, slot < row.size)
    (begins : ∀ slot, known slot → holds slot (row.get slot))
    (keeps : ∀ before a after, program = before ++ a :: after → ∀ between : Row α,
      (∀ slot, known slot ∨ slot ∈ written before → holds slot (between.get slot)) →
        a.term.value dt between = (assign dt row program).get a.slot →
          holds a.slot (a.term.value dt between))
    {slot : Nat} (reached : known slot ∨ slot ∈ written program) :
    holds slot ((assign dt row program).get slot) := by
  induction program generalizing row known with
  | nil => exact begins slot (by simpa [written] using reached)
  | cons a rest ih =>
    obtain ⟨fresh, distinct⟩ := List.nodup_cons.mp distinct
    have own : get (row.setIfInBounds a.slot (a.term.value dt row)) a.slot = a.term.value dt row := by
      rw [get_setIfInBounds (inside _ List.mem_cons_self), if_pos rfl]
    have here : holds a.slot (a.term.value dt row) := by
      refine keeps [] a rest rfl row (fun slot known => begins slot (by simpa [written] using known)) ?_
      rw [assign_cons, get_assign_of_notMem fresh, own]
    rw [assign_cons]
    refine ih (fun slot => known slot ∨ slot = a.slot) distinct ?_ ?_ ?_ ?_
    · intro slot listed
      rw [Array.size_setIfInBounds]
      exact inside slot (List.mem_cons_of_mem _ listed)
    · intro slot before
      by_cases same : slot = a.slot
      · rw [same, own]
        exact here
      · rw [get_setIfInBounds_ne (Ne.symm same)]
        exact begins slot (before.resolve_right same)
    · rintro before b after rfl between standing
      refine keeps (a :: before) b after rfl between fun slot earlier => standing slot ?_
      simpa [written, or_assoc] using earlier
    · simpa [written, or_assoc] using reached

/-! ## Rows of runs -/

namespace Plan

/-- Whether a row occurs in a run in which nothing is set. -/
inductive Occurs (plan : Plan α) : Row α → Prop
  | start : Occurs plan plan.initialRow
  | settle {row : Row α} (occurs : Occurs plan row) : Occurs plan (plan.settle row)
  | next {row : Row α} (occurs : Occurs plan row) : Occurs plan (plan.nextRow (plan.settle row))

theorem Occurs.size {plan : Plan α} {row : Row α} (occurs : plan.Occurs row) : row.size = plan.size := by
  induction occurs with
  | start => exact size_initialRow plan
  | settle _ ih => rw [Plan.settle, Row.size_assign, ih]
  | next _ ih => rw [size_nextRow, Plan.settle, Row.size_assign, ih]

end Plan

namespace Simulation

/-- After any calls that set nothing, the present row occurs, and so do all that are kept. -/
theorem occurs_after {plan : Plan α} {calls : List (Call α)} (unset : ∀ name value, .set name value ∉ calls) :
    plan.Occurs ((start plan).after calls).present ∧
      ∀ row ∈ ((start plan).after calls).history, plan.Occurs row := by
  refine unset_induction (motive := fun run => plan.Occurs run.present ∧ ∀ row ∈ run.history, plan.Occurs row)
    ⟨.start, fun row member => absurd member (Array.not_mem_empty row)⟩ ?_ ?_ unset
  · rintro run rfl - ⟨present, finished⟩
    refine ⟨present.next, fun row member => ?_⟩
    rcases mem_history_advance member with earlier | rfl
    · exact finished row earlier
    · exact present.settle
  · rintro run rfl - ⟨present, finished⟩
    exact ⟨present.settle, finished⟩

theorem dueRow_cases (run : Simulation α) : run.dueRow = run.present ∨ run.dueRow ∈ run.history := by
  unfold dueRow
  cases found : run.history[run.completeRows]? with
  | none => exact .inl rfl
  | some row => exact .inr (Array.mem_of_getElem? found)

end Simulation

/-! ## The order of the start -/

omit [Scalar α] in
/-- At the start a variable waits for the first step of each of its sources. -/
theorem LinkedModel.Links.head_mem_needs {linked : List (LinkedModel α)} {model : Model α}
    {result : LinkedModel α} (links : Links linked model result) (distinct : Distinct Variable.name model.vars)
    {v : Variable α} (reader : v ∈ model.vars) {source : Path} (among : source ∈ v.sources) :
    Path.head source ∈ Order.needs result.startDependencies v.name := by
  obtain ⟨target, resolved, needed⟩ := links.resolve distinct .start reader nofun (mem_sources_node among)
  have given : ∀ node, Dependencies.isGiven .start node = false := fun node => Bool.and_false _
  rcases Dependencies.resolve_eq_ok resolved with
    ⟨undotted, node, found, rfl⟩ | ⟨head, rest, node, _, _, leaf, -, -, split, found, -, -, -, rfl⟩
  · rw [given] at needed
    rw [Path.head_of_not_dotted undotted, ← name_of_findNamed found]
    exact needed node rfl
  · rw [given] at needed
    rw [Path.head, split, ← name_of_findNamed found]
    exact needed node rfl

namespace Coded

variable {project : Project α} {clock : Clock α} {root node : Coded α}
  (consistent : project.Consistent) (made : Made project clock root node)
include consistent made

/-- The program of an instance is a part of those of the instances above it, in its order. -/
theorem Made.program_sublist {phase : Phase} (early : phase ≠ .stocks) {path : List Name} {below : Coded α}
    (leads : node.descend? path = some below) : (program phase below).Sublist (program phase node) := by
  induction path generalizing node with
  | nil => exact Option.some.inj leads ▸ List.Sublist.refl _
  | cons name rest ih =>
    obtain ⟨child, inside, further⟩ := Option.bind_eq_some_iff.mp leads
    cases made with
    | @intro _ first model fits madeBelow =>
      refine (ih (madeBelow child (Instance.mem_of_child? inside)) further).trans ?_
      obtain ⟨vars, segment, runs⟩ := fits.runs consistent early
      obtain ⟨module, among, rfl, -⟩ := fits.module_of_child? inside
      have listed : .module module ∈ vars := (runs.schedule.mem _).mpr
        ⟨Model.mem_modules.mp among, by simp [Variable.isDue, Variable.isHeld]⟩
      have absent := fits.get?_module (consistent.distinct fits.found) among
      rw [runs.whole, ← (runs.computes _ listed).eq_program absent inside]
      exact List.sublist_flatten_of_mem (List.mem_map_of_mem listed)

/-- What belongs to a name is assigned at the start after all that belongs to the names that it waits for. -/
theorem Made.sublist_of_needs {model : LinkedModel α} (found : project.find? node.model = some model)
    {name other : Name} (needed : other ∈ Order.needs model.startDependencies name) {slot before : Nat}
    (belongs : node.Belongs name slot) (first : node.Belongs other before) :
    [before, slot].Sublist (written (program .initials node)) := by
  cases made with
  | @intro _ _ _ fits below =>
    cases fits.found.symm.trans found
    have assigned : ∀ {name slot}, node.Belongs name slot → slot ∈ written (program .initials node) :=
      fun belongs =>
        have owned := fits.tidy.owns belongs
        ((Made.intro fits below).covered consistent owned.1).resolve_left (Nat.ne_of_gt owned.2)
    obtain ⟨vars, segment, runs⟩ := fits.runs consistent (by decide : Phase.initials ≠ .stocks)
    obtain ⟨v, listed, rfl, late⟩ :=
      runs.origin consistent (by decide) fits below belongs (assigned belongs)
    obtain ⟨w, listed', rfl, early⟩ := runs.origin consistent (by decide) fits below first (assigned first)
    obtain ⟨vars, rest, rfl⟩ := List.append_of_mem listed
    have earlier := runs.schedule.follows vars v rest rfl w listed' needed
    rw [runs.whole, List.flatMap_append, List.flatMap_cons, written, List.map_append, List.map_append]
    refine List.Sublist.append (List.singleton_sublist.mpr ?_) (List.singleton_sublist.mpr ?_)
    · rw [List.map_flatMap]
      exact List.mem_flatMap.mpr ⟨w, earlier, early⟩
    · exact List.mem_append_left _ late

end Coded

namespace Plan

variable {project : Project α} {plan : Plan α}

theorem sublist_of_sources (consistent : project.Consistent) (planned : ofProject project = .ok plan)
    {path : List Name} {node : Coded α} {model : LinkedModel α} (leads : plan.root.descend? path = some node)
    (found : project.find? node.model = some model) {v : Variable α} (reader : v ∈ model.vars) {source : Path}
    (among : source ∈ v.sources) {slot before : Nat} (belongs : node.Belongs v.name slot)
    (first : node.Belongs (Path.head source) before) :
    [before, slot].Sublist (written (plan.program .initials)) := by
  obtain ⟨made, -⟩ := made_of_ofProject consistent planned
  obtain ⟨linked, links, -⟩ := consistent.linked found
  have needed := links.head_mem_needs (consistent.distinct found) reader among
  rw [plan.program_eq]
  exact ((made.of_descend? leads).sublist_of_needs consistent found needed belongs first).trans
    ((made.program_sublist consistent (by decide) leads).map _)

end Plan

/-! ## Slots that hold numbers -/

namespace Plan

variable [Scalar.Exact α] {project : Project α} {plan : Plan α}

/-- Whether a slot stands for a real number in all rows that occur. -/
def Holds (plan : Plan α) (slot : Nat) (r : ℝ) : Prop :=
  ∀ row, plan.Occurs row → Scalar.StandsFor (row.get slot) r

/-- Whether a value is as it has to be in a slot: it stands for the level of the slot and for what the slot
holds. -/
def Suits (plan : Plan α) (level : Nat → ℝ → Prop) (slot : Nat) (x : α) : Prop :=
  ∀ r, level slot r ∨ plan.Holds slot r → Scalar.StandsFor x r

/-- Whether slots with levels keep each other at them. What is assigned to such a slot stands for its level if
the values of others suit them, and at the start those are assigned first. -/
structure Upholds (plan : Plan α) (level : Nat → ℝ → Prop) : Prop where
  inside : ∀ slot r, level slot r → timeSlot < slot ∧ slot < plan.size
  early : ∀ a ∈ plan.program .initials, ∀ r, level a.slot r → ∃ needed : List Nat,
    (∀ slot ∈ needed, [slot, a.slot].Sublist (written (plan.program .initials))) ∧
      ∀ row : Row α, (∀ slot ∈ needed, plan.Suits level slot (row.get slot)) →
        Scalar.StandsFor (a.term.value plan.clock.dt row) r
  late : ∀ a ∈ plan.program .stocks, ∀ r, level a.slot r →
    ∀ row : Row α, (∀ slot, plan.Suits level slot (row.get slot)) →
      Scalar.StandsFor (a.term.value plan.clock.dt row) r

theorem Occurs.suits {level : Nat → ℝ → Prop} {row : Row α} (occurs : plan.Occurs row)
    (standing : ∀ slot r, level slot r → Scalar.StandsFor (row.get slot) r) (slot : Nat) :
    plan.Suits level slot (row.get slot) :=
  fun r => Or.rec (standing slot r) fun holds => holds row occurs

namespace Upholds

variable {level : Nat → ℝ → Prop} (upholds : plan.Upholds level) (consistent : project.Consistent)
  (planned : ofProject project = .ok plan)
include upholds consistent planned

theorem initialRow {slot : Nat} {r : ℝ} (leveled : level slot r) :
    Scalar.StandsFor (plan.initialRow.get slot) r := by
  obtain ⟨late, inside⟩ := upholds.inside slot r leveled
  have assigned := mem_written_initials consistent planned inside (Nat.ne_of_gt late)
  have distinct := nodup_written consistent planned (by decide : Phase.initials ≠ .stocks)
  refine Row.upholds_assign (fun _ => False) (plan.Suits level) distinct ?_ nofun ?_
    (.inr assigned) r (.inl leveled)
  · intro slot listed
    rw [Array.size_setIfInBounds, Array.size_replicate]
    exact (lt_size_of_written consistent planned (by decide) slot listed).2
  · rintro before a after split between standing same r (leveled | holds)
    · obtain ⟨needed, earlier, stands⟩ := upholds.early a (by simp [split]) r leveled
      refine stands between fun slot member => standing slot (.inr ?_)
      have sequence := earlier slot member
      rw [split, written, List.map_append, List.map_cons] at sequence distinct
      exact mem_of_pair_sublist distinct sequence
    · rw [same]
      exact holds _ .start

theorem settle {row : Row α} (occurs : plan.Occurs row)
    (standing : ∀ slot r, level slot r → Scalar.StandsFor (row.get slot) r) {slot : Nat} {r : ℝ}
    (leveled : level slot r) : Scalar.StandsFor ((plan.settle row).get slot) r := by
  refine Row.upholds_assign (fun _ => True) (plan.Suits level)
    (nodup_written consistent planned (by decide : Phase.flows ≠ .stocks)) ?_
    (fun slot _ => occurs.suits standing slot) ?_ (.inl trivial) r (.inl leveled)
  · intro slot listed
    rw [occurs.size]
    exact (lt_size_of_written consistent planned (by decide) slot listed).2
  · rintro before a after split between standing same r (leveled | holds)
    · -- what is computed in a step is computed in the same way at the start
      have among := flows_subset consistent planned (show a ∈ plan.program .flows by simp [split])
      obtain ⟨_, -, stands⟩ := upholds.early a among r leveled
      exact stands between fun slot _ => standing slot (.inl trivial)
    · rw [same]
      exact holds _ occurs.settle

theorem nextRow {row : Row α} (occurs : plan.Occurs row)
    (standing : ∀ slot r, level slot r → Scalar.StandsFor ((plan.settle row).get slot) r) {slot : Nat} {r : ℝ}
    (leveled : level slot r) : Scalar.StandsFor ((plan.nextRow (plan.settle row)).get slot) r := by
  by_cases integrating : slot ∈ written (plan.program .stocks)
  · obtain ⟨a, among, rfl⟩ := List.mem_map.mp integrating
    rw [get_nextRow consistent planned occurs.settle.size a among]
    exact upholds.late a among r leveled _ (occurs.settle.suits standing)
  · rw [get_nextRow_of_notMem (Nat.ne_of_gt (upholds.inside slot r leveled).1) integrating]
    exact standing slot r leveled

/-- Slots that keep each other at their levels hold them. -/
theorem holds {slot : Nat} {r : ℝ} (leveled : level slot r) : plan.Holds slot r := by
  intro row occurs
  induction occurs generalizing slot r with
  | start => exact upholds.initialRow consistent planned leveled
  | settle occurs ih => exact upholds.settle consistent planned occurs (fun _ _ => ih) leveled
  | next occurs ih =>
    exact upholds.nextRow consistent planned occurs
      (fun _ _ => upholds.settle consistent planned occurs fun _ _ => ih) leveled

end Upholds

/-- The slot of a formula that is no input holds a number for which the value of its equation stands wherever
some slots that are assigned earlier at the start have what they hold. -/
theorem holds_of_formula (consistent : project.Consistent) (planned : ofProject project = .ok plan)
    {path : List Name} {node : Coded α} {model : LinkedModel α} {formula : Formula α}
    (leads : plan.root.descend? path = some node) (found : project.find? node.model = some model)
    (member : .formula formula ∈ model.vars) (unconnected : node.note.inputs.get? formula.name = none)
    {slot : Nat} (own : node.slots.get? formula.name = some slot) (needed : List Nat)
    (earlier : ∀ other ∈ needed, [other, slot].Sublist (written (plan.program .initials))) {r : ℝ}
    (stands : ∀ row : Row α,
      (∀ other ∈ needed, ∀ s, plan.Holds other s → Scalar.StandsFor (row.get other) s) →
        Scalar.StandsFor ((node.scope model plan.clock formula.name).formulaValue row formula) r) :
    plan.Holds slot r := by
  have upholds : plan.Upholds fun other s => other = slot ∧ s = r := by
    refine ⟨?_, ?_, ?_⟩
    · rintro _ _ ⟨rfl, rfl⟩
      exact lt_size_of_own consistent planned leads own
    · rintro ⟨_, term⟩ among _ ⟨rfl, rfl⟩
      refine ⟨needed, earlier, fun row suits => ?_⟩
      obtain ⟨-, computes⟩ :=
        computes_of_own consistent planned leads found member (by decide) among own
      cases computes with
      | input connected => cases connected.symm.trans unconnected
      | formula _ _ lowered =>
        have value : term.value plan.clock.dt row = _ := Scope.value_of_formulaTerm row lowered
        exact value ▸ stands row fun other among s holds => suits other among s (.inr holds)
    · rintro a among _ ⟨rfl, rfl⟩
      exact absurd (List.mem_map_of_mem among)
        (notMem_integrated_of_own consistent planned leads found member own rfl)
  exact upholds.holds consistent planned ⟨rfl, rfl⟩

end Plan
end StockFlow
