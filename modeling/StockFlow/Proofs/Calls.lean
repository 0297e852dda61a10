import Mathlib.Logic.Relation
import StockFlow.Proofs.Catalog
import StockFlow.Proofs.History

/-!
# Calls

What calls can do to a run. Every call but a reset is a sequence of moves: steps, computations of the
flows of the present row, and changes to it before the first step. The rows that a run has finished are
only ever added to, so its series grow at their ends, and no longer once it is over.
-/

namespace StockFlow

variable {α : Type} [Scalar α]

/-- A call that may change a run. -/
inductive Call (α : Type) where
  | reset
  | runTo (stop : α)
  | runToEnd
  | set (name : Path) (value : α)

namespace Simulation

/-- The run after a call; one that is refused changes nothing. -/
def call (run : Simulation α) : Call α → Simulation α
  | .reset => run.reset
  | .runTo stop => run.runTo stop
  | .runToEnd => run.runToEnd
  | .set name value => (run.set name value).toOption.getD run

def after (run : Simulation α) (calls : List (Call α)) : Simulation α := calls.foldl call run

/-- What a call can do to a run at one go, unless it starts it anew. -/
inductive Moves : Simulation α → Simulation α → Prop
  | advance {run : Simulation α} (early : run.step < run.plan.clock.steps) : Moves run run.advance
  | settle {run : Simulation α} : Moves run run.settle
  | put {run : Simulation α} {slot : Nat} {value : α} (fresh : run.step = 0) :
    Moves run { run with present := run.present.setIfInBounds slot value }

abbrev Reaches : Simulation α → Simulation α → Prop := Relation.ReflTransGen Moves

variable {run next : Simulation α} {calls : List (Call α)}

/-! ## Calls as moves -/

theorem reaches_advanceUntil (past : α → Bool) (steps : Nat)
    (enough : run.step + steps ≤ run.plan.clock.steps) : Reaches run (run.advanceUntil past steps) := by
  induction steps generalizing run with
  | zero => exact .refl
  | succ steps ih =>
    rw [advanceUntil]
    split
    · exact .refl
    · have early : run.step < run.plan.clock.steps := by omega
      have later : run.advance.step + steps ≤ run.advance.plan.clock.steps := by
        show run.step + 1 + steps ≤ run.plan.clock.steps
        omega
      exact .head (.advance early) (ih later)

theorem reaches_runUntil (past : α → Bool) : Reaches run (run.runUntil past) := by
  rw [runUntil]
  refine .tail ?_ .settle
  by_cases done : run.plan.clock.steps ≤ run.step
  · rw [Nat.sub_eq_zero_of_le done]
    exact .refl
  · exact reaches_advanceUntil past _ (by omega)

theorem reaches_call {call : Call α} (kept : call ≠ .reset) : Reaches run (run.call call) := by
  cases call with
  | reset => exact absurd rfl kept
  | runTo stop => exact reaches_runUntil _
  | runToEnd => exact reaches_runUntil _
  | set name value =>
    show Reaches run ((run.set name value).toOption.getD run)
    unfold set
    split
    · exact .refl
    · rename_i fresh
      cases run.plan.slot? name with
      | none => exact .refl
      | some slot => exact .single (.put (not_not.mp fresh))

theorem reaches_after (kept : .reset ∉ calls) : Reaches run (run.after calls) := by
  induction calls generalizing run with
  | nil => exact .refl
  | cons call rest ih =>
    simp only [List.mem_cons, not_or] at kept
    exact (reaches_call (Ne.symm kept.1)).trans (ih kept.2)

theorem Moves.plan_eq (moves : Moves run next) : next.plan = run.plan := by
  cases moves <;> rfl

theorem Reaches.plan_eq (reaches : Reaches run next) : next.plan = run.plan := by
  induction reaches with
  | refl => rfl
  | tail _ moves ih => rw [moves.plan_eq, ih]

theorem Reaches.keeps {motive : Simulation α → Prop}
    (keeps : ∀ run next, Moves run next → motive run → motive next) (reaches : Reaches run next)
    (holds : motive run) : motive next := by
  induction reaches with
  | refl => exact holds
  | tail _ moves ih => exact keeps _ _ moves ih

theorem plan_after : (run.after calls).plan = run.plan := by
  induction calls generalizing run with
  | nil => rfl
  | cons call rest ih =>
    have step : (run.call call).plan = run.plan := by
      by_cases anew : call = .reset
      · rw [anew]
        rfl
      · exact (reaches_call anew).plan_eq
    show ((run.call call).after rest).plan = run.plan
    rw [ih, step]

/-- What holds at the start of a run and is kept by every move holds after any calls. -/
theorem after_induction {plan : Plan α} {motive : Simulation α → Prop} (begins : motive (start plan))
    (keeps : ∀ run next, Moves run next → motive run → motive next) (calls : List (Call α)) :
    motive ((start plan).after calls) := by
  suffices carried : ∀ run : Simulation α, run.plan = plan → motive run → motive (run.after calls) from
    carried _ rfl begins
  induction calls with
  | nil => exact fun run _ holds => holds
  | cons call rest ih =>
    intro run same holds
    by_cases anew : call = .reset
    · apply ih
      · rw [anew]
        exact same
      · rw [anew]
        show motive (start run.plan)
        rwa [same]
    · have reaches : Reaches run (run.call call) := reaches_call anew
      exact ih _ (reaches.plan_eq.trans same) (reaches.keeps keeps holds)

/-- What holds at the start of a run and is kept by steps and by computing flows holds after any calls
that set nothing. -/
theorem unset_induction {plan : Plan α} {motive : Simulation α → Prop} (begins : motive (start plan))
    (advance : ∀ run : Simulation α, run.plan = plan → run.IsWhole → motive run → motive run.advance)
    (settle : ∀ run : Simulation α, run.plan = plan → run.IsWhole → motive run → motive run.settle)
    {calls : List (Call α)} (unset : ∀ name value, .set name value ∉ calls) :
    motive ((start plan).after calls) := by
  let holds (run : Simulation α) : Prop := run.plan = plan ∧ run.IsWhole ∧ motive run
  have stepped (past : α → Bool) (steps : Nat) : ∀ run, holds run → holds (run.advanceUntil past steps) := by
    induction steps with
    | zero => exact fun _ => id
    | succ steps ih =>
      rintro run ⟨same, whole, here⟩
      rw [advanceUntil]
      split
      · exact ⟨same, whole, here⟩
      · exact ih _ ⟨same, whole.advance, advance run same whole here⟩
  have ran (past : α → Bool) (run : Simulation α) (here : holds run) : holds (run.runUntil past) := by
    obtain ⟨same, whole, there⟩ := stepped past (run.plan.clock.steps - run.step) run here
    exact ⟨same, whole.settle, settle _ same whole there⟩
  suffices carried : ∀ run, holds run → holds (run.after calls) from
    (carried _ ⟨rfl, IsWhole.start plan, begins⟩).2.2
  induction calls with
  | nil => exact fun _ => id
  | cons call rest ih =>
    intro run here
    refine ih (fun name value member => unset name value (List.mem_cons_of_mem _ member)) _ ?_
    cases call with
    | reset =>
      show holds (start run.plan)
      rw [here.1]
      exact ⟨rfl, IsWhole.start plan, begins⟩
    | runTo stop => exact ran _ run here
    | runToEnd => exact ran _ run here
    | set name value => exact absurd List.mem_cons_self (unset name value)

/-! ## What every move keeps -/

theorem Moves.isWhole (moves : Moves run next) (whole : run.IsWhole) : next.IsWhole := by
  cases moves with
  | advance => exact whole.advance
  | settle => exact whole.settle
  | put =>
    show (run.present.setIfInBounds _ _).size = run.plan.size
    rw [Array.size_setIfInBounds]
    exact whole

theorem Moves.step_le (moves : Moves run next) : run.step ≤ next.step := by
  cases moves with
  | advance => exact Nat.le_succ _
  | settle => exact Nat.le_refl _
  | put => exact Nat.le_refl _

theorem Moves.history_prefix (moves : Moves run next) :
    run.history.toList <+: next.history.toList := by
  cases moves with
  | advance =>
    rw [history_advance]
    split
    · rw [Array.toList_push]
      exact List.prefix_append _ _
    · exact List.prefix_refl _
  | settle => exact List.prefix_refl _
  | put => exact List.prefix_refl _

/-- Whether a run has finished a row at every `saveEvery`-th of the steps taken, from the first on. -/
def IsRecorded (run : Simulation α) : Prop :=
  run.history.size = (run.step + run.saveEvery - 1) / run.saveEvery

theorem Moves.isRecorded (moves : Moves run next) (recorded : run.IsRecorded) : next.IsRecorded := by
  cases moves with
  | advance =>
    show run.advance.history.size = (run.step + 1 + run.saveEvery - 1) / run.saveEvery
    rw [size_history_advance, recorded]
    exact (ceil_div_succ run.plan.clock.one_le_saveEvery).symm
  | settle => exact recorded
  | put => exact recorded

theorem isRecorded_start (plan : Plan α) : (start plan).IsRecorded := by
  have positive := plan.clock.one_le_saveEvery
  show 0 = (0 + plan.clock.saveEvery - 1) / plan.clock.saveEvery
  rw [Nat.div_eq_of_lt (by omega)]

theorem isRecorded_after (plan : Plan α) (calls : List (Call α)) :
    ((start plan).after calls).IsRecorded :=
  after_induction (isRecorded_start plan) (fun _ _ moves => moves.isRecorded) calls

theorem IsRecorded.completeRows_le (recorded : run.IsRecorded) :
    run.completeRows ≤ run.history.size := by
  rw [recorded]
  have positive : 1 ≤ run.saveEvery := run.plan.clock.one_le_saveEvery
  exact Nat.div_le_div_right (by omega)

theorem length_savedHistory (recorded : run.IsRecorded) :
    run.savedHistory.length = run.completeRows := by
  have enough := recorded.completeRows_le
  simp only [savedHistory, List.length_take, Array.length_toList]
  omega

theorem Reaches.step_le (reaches : Reaches run next) : run.step ≤ next.step := by
  induction reaches with
  | refl => exact Nat.le_refl _
  | tail _ moves ih => exact ih.trans moves.step_le

theorem Reaches.history_prefix (reaches : Reaches run next) :
    run.history.toList <+: next.history.toList := by
  induction reaches with
  | refl => exact List.prefix_refl _
  | tail _ moves ih => exact ih.trans moves.history_prefix

/-- The saved rows stay the first ones. -/
theorem savedHistory_prefix (recorded : run.IsRecorded) (reaches : Reaches run next) :
    run.savedHistory <+: next.savedHistory := by
  have further : run.completeRows ≤ next.completeRows := by
    show run.step / run.plan.clock.saveEvery ≤ next.step / next.plan.clock.saveEvery
    rw [reaches.plan_eq]
    exact Nat.div_le_div_right reaches.step_le
  obtain ⟨added, whole⟩ := reaches.history_prefix
  have enough : run.completeRows ≤ run.history.toList.length := recorded.completeRows_le
  have same : run.savedHistory = next.history.toList.take run.completeRows := by
    rw [← whole, List.take_append_of_le_length enough, savedHistory]
  rw [same, savedHistory]
  exact List.take_prefix_take_left further

/-! ## Runs that are over -/

theorem step_runToEnd : run.plan.clock.steps ≤ run.runToEnd.step := by
  suffices taken : ∀ steps (run : Simulation α),
      (run.advanceUntil (fun _ => false) steps).step = run.step + steps by
    show run.plan.clock.steps ≤ (run.advanceUntil _ (run.plan.clock.steps - run.step)).step
    rw [taken]
    omega
  intro steps
  induction steps with
  | zero => exact fun _ => rfl
  | succ steps ih =>
    intro run
    rw [advanceUntil, if_neg Bool.false_ne_true, ih]
    show run.step + 1 + steps = run.step + (steps + 1)
    omega

/-- No move adds a row to a run that is over. -/
theorem savedHistory_of_over (done : run.plan.clock.steps ≤ run.step) (reaches : Reaches run next) :
    next.savedHistory = run.savedHistory := by
  suffices kept : next.plan = run.plan ∧ next.step = run.step ∧ next.history = run.history by
    obtain ⟨plan, step, history⟩ := kept
    simp only [savedHistory, completeRows, saveEvery, plan, step, history]
  induction reaches with
  | refl => exact ⟨rfl, rfl, rfl⟩
  | tail _ moves ih =>
    obtain ⟨plan, step, history⟩ := ih
    cases moves with
    | advance early =>
      rw [plan, step] at early
      omega
    | settle => exact ⟨plan, step, history⟩
    | put => exact ⟨plan, step, history⟩

/-! ## Series -/

/-- After any calls a series has a time and a value for each complete row; further calls but a reset
leave it as the beginning of the new one, and change nothing once the run is over. -/
theorem series_append_only {project : Project α} {first : Simulation α}
    (ready : ofProject project = .ok first) (calls further : List (Call α))
    (kept : .reset ∉ further) (name : Path) :
    (∀ series ∈ (first.after calls).series? name,
      series.time.length = (first.after calls).step / (first.after calls).saveEvery ∧
        series.values.length = (first.after calls).step / (first.after calls).saveEvery) ∧
    (∀ old ∈ (first.after calls).series? name,
      ∃ new ∈ ((first.after calls).after further).series? name,
        old.time <+: new.time ∧ old.values <+: new.values) ∧
    ((first.after calls).runToEnd.after further).series? name =
      (first.after calls).runToEnd.series? name := by
  obtain ⟨plan, -, rfl⟩ := ofProject_eq_ok.mp ready
  have recorded := isRecorded_after plan calls
  generalize (start plan).after calls = run at recorded ⊢
  refine ⟨?_, ?_, ?_⟩
  · rintro series found
    obtain ⟨slot, -, rfl⟩ := Option.map_eq_some_iff.mp found
    simp only [List.length_map, length_savedHistory recorded]
    exact ⟨rfl, rfl⟩
  · rintro old found
    obtain ⟨slot, here, rfl⟩ := Option.map_eq_some_iff.mp found
    have reaches : Reaches run (run.after further) := reaches_after kept
    have grown := savedHistory_prefix recorded reaches
    let rows := (run.after further).savedHistory
    refine ⟨⟨name, rows.map Row.time, rows.map (·.get slot)⟩, ?_, grown.map Row.time,
      grown.map (·.get slot)⟩
    rw [series?, reaches.plan_eq, here]
    rfl
  · have reaches : Reaches run.runToEnd (run.runToEnd.after further) := reaches_after kept
    have same : run.runToEnd.plan = run.plan := (reaches_runUntil _).plan_eq
    have done : run.runToEnd.plan.clock.steps ≤ run.runToEnd.step := by
      rw [same]
      exact step_runToEnd
    simp only [series?, reaches.plan_eq, savedHistory_of_over done reaches]

theorem series_append_only_nested : ∃ project first, Project.compile Plan.nested = .ok project ∧
    ofProject project = .ok first ∧
      ∃ old ∈ (first.after [.set "a" 2, .runTo 1]).series? "m.s", old.values.length = 2 ∧
        ∃ new ∈ ((first.after [.set "a" 2, .runTo 1]).after [.set "b" 3, .runToEnd]).series? "m.s",
          old.time <+: new.time ∧ old.values <+: new.values := by
  have check : ∃ project ∈ (Project.compile Plan.nested).toOption,
      ∃ first ∈ (ofProject project).toOption,
        (first.after [.set "a" 2, .runTo 1]).completeRows = 2 ∧
          ((first.after [.set "a" 2, .runTo 1]).series? "m.s").isSome = true := by
    rw [Project.compile_eq]
    decide +kernel
  obtain ⟨project, compiled, first, ready, two, present⟩ := check
  have compiled := toOption_eq_some.mp compiled
  have ready := toOption_eq_some.mp ready
  obtain ⟨counted, grown, -⟩ := series_append_only ready [.set "a" 2, .runTo 1]
    [.set "b" 3, .runToEnd] (by simp) "m.s"
  obtain ⟨old, found⟩ := Option.isSome_iff_exists.mp present
  exact ⟨project, first, compiled, ready, old, found, (counted old found).2.trans two,
    grown old found⟩

end Simulation
end StockFlow
