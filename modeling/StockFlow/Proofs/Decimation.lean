import StockFlow.Number.Double
import StockFlow.Proofs.Catalog
import StockFlow.Proofs.Retiming

/-!
# Decimation

How often a run saves has no influence on what it computes. A run that saves every `saveEvery`-th row
has every such row of the run that saves them all.
-/

namespace StockFlow

/-! ## Every step -/

namespace Double

open Float.Model

theorem divCore_self {mantissa : Nat} (positive : 0 < mantissa) (exponent : Int) :
    UnpackedFloat.divCore .binary64 mantissa exponent mantissa exponent = (1 <<< 53, -53, .exact) := by
  have target : min (0 : Int) (Format.binary64.targetExponent 0) = -53 := by decide
  have shift : (0 - -53 : Int).toNat = 53 := by decide
  unfold UnpackedFloat.divCore
  rw [Int.sub_self, Int.sub_self, target]
  dsimp only
  rw [shift, Nat.shiftLeft_eq, Nat.mul_div_cancel_left _ positive, Nat.mul_mod_right]
  rfl

/-- A positive finite number goes into itself exactly once: both significands cancel before rounding. -/
theorem div_self {x : Float} (finite : Scalar.isFinite x = true)
    (positive : Scalar.le x Scalar.zero = false) : x / x = 1 := by
  show Float.ofModel (pack (UnpackedFloat.div .binary64 x.toModel.unpack x.toModel.unpack)) = 1
  have finite : x.toModel.unpack.isFinite = true := finite
  have positive : ¬ x.toModel.unpack.le (.zero .positive) = true := by
    have zero : (Scalar.zero : Float).toModel.unpack = .zero .positive := by rfl
    rw [← zero]
    exact fun le => of_decide_eq_false positive (decide_eq_true le)
  cases unpacked : x.toModel.unpack with
  | infinity => rw [unpacked] at finite; cases finite
  | notANumber => rw [unpacked] at finite; cases finite
  | zero sign =>
    rw [unpacked] at positive
    exact absurd rfl positive
  | finite sign mantissa exponent whole =>
    have one : Float.ofModel (pack
        (UnpackedFloat.roundWithAccuracy .binary64 .positive (1 <<< 53) (-53) .exact)) = 1 := by
      decide
    have same : sign / sign = .positive := by cases sign <;> rfl
    have divides : ∀ quotient, UnpackedFloat.divCore .binary64 mantissa exponent mantissa exponent = quotient →
        UnpackedFloat.div .binary64 (.finite sign mantissa exponent whole)
          (.finite sign mantissa exponent whole) =
        UnpackedFloat.roundWithAccuracy .binary64 (sign / sign) quotient.1 quotient.2.1 quotient.2.2 := by
      rintro _ rfl
      rfl
    rw [divides _ (divCore_self whole _), same]
    exact one

end Double

variable {α : Type} [Scalar α]

theorem TimeSpec.dt_of_validate {spec : TimeSpec α} (valid : spec.validate = .ok ()) :
    Scalar.isFinite spec.dt = true ∧ Scalar.le spec.dt Scalar.zero = false := by
  unfold validate at valid
  split at valid
  · cases valid
  · rename_i finite
    split at valid
    · cases valid
    · rename_i positive
      simp only [Bool.not_eq_true, Bool.not_eq_false', Bool.and_eq_true] at finite positive
      exact ⟨finite.1.2, positive⟩

/-- Where rows are saved at every step, no step lies between them. -/
theorem Clock.saveEvery_of_eq {spec : TimeSpec Float} (valid : spec.validate = .ok ())
    (everyStep : spec.saveStep = spec.dt) : (ofSpec spec).saveEvery = 1 := by
  obtain ⟨finite, positive⟩ := TimeSpec.dt_of_validate valid
  have once : Scalar.count ((1 : Float) + Scalar.ofNat 1 / Scalar.ofNat 2) = 1 := by decide
  show max 1 (Scalar.count (spec.saveStep / spec.dt + Scalar.ofNat 1 / Scalar.ofNat 2)) = 1
  rw [everyStep, Double.div_self finite positive, once]
  rfl

/-! ## Runs that differ in what they save -/

/-- The specification without how often to save. -/
def TimeSpec.unsaved (spec : TimeSpec α) : TimeSpec α := { spec with saveStep? := none }

namespace Plan

variable {plan other : Plan α}

theorem settledAt_congr (root : plan.root = other.root) (begins : plan.clock.start = other.clock.start)
    (dt : plan.clock.dt = other.clock.dt) (step : Nat) : plan.settledAt step = other.settledAt step := by
  have size : plan.size = other.size := congrArg Instance.size root
  have program : plan.program = other.program := by
    funext phase
    rw [plan.program_eq, other.program_eq, root]
  have settle : plan.settle = other.settle := by
    funext row
    rw [Plan.settle, Plan.settle, program, dt]
  unfold settledAt
  rw [settle]
  congr 1
  induction step with
  | zero =>
    show plan.initialRow = other.initialRow
    simp only [initialRow, size, program, begins, dt]
  | succ step ih =>
    show plan.nextRow (plan.settle (plan.rowAt step)) = other.nextRow (other.settle (other.rowAt step))
    rw [ih, settle, nextRow, nextRow, program, dt]

theorem savedRows_getElem? {row : Nat} (within : row < plan.clock.savedRows) :
    plan.savedRows[row]? = some (plan.settledAt (row * plan.clock.saveEvery)) := by
  rw [savedRows, List.getElem?_map, List.getElem?_range within]
  rfl

/-- Projects that differ in how often to save only have the same instances, and rows at the same times. -/
theorem eq_of_unsaved {first second : Project α}
    (alike : first.retime TimeSpec.unsaved = second.retime TimeSpec.unsaved)
    (planned : ofProject first = .ok plan) (planned' : ofProject second = .ok other) :
    plan.root = other.root ∧ ∀ step, plan.settledAt step = other.settledAt step := by
  have specs : first.runSpec.unsaved = second.runSpec.unsaved :=
    (Project.runSpec_retime first).symm.trans
      ((congrArg Project.runSpec alike).trans (Project.runSpec_retime second))
  obtain ⟨begins, stops, dt, -⟩ := TimeSpec.mk.inj specs
  obtain ⟨-, clock⟩ := clock_of_ofProject planned
  obtain ⟨-, clock'⟩ := clock_of_ofProject planned'
  have clocks : plan.clock.resave Scalar.zero = other.clock.resave Scalar.zero := by
    simp only [clock, clock', Clock.ofSpec, Clock.resave, begins, stops, dt]
  have root : plan.root = other.root := root_eq_of_retime alike planned planned' clocks
  obtain ⟨begins, -, dt, -⟩ := Clock.mk.inj clocks
  exact ⟨root, settledAt_congr root begins dt⟩

end Plan

namespace Simulation

/-- Of two runs of projects that differ in how often to save only, the second one of which saves every
row, the first one saves every `saveEvery`-th of these rows. -/
theorem series_decimated {sparse dense : Document.Project Float} {project other : Project Float}
    {run full : Simulation Float}
    (alike : sparse.retime TimeSpec.unsaved = dense.retime TimeSpec.unsaved)
    (compiled : Project.compile sparse = .ok project) (compiled' : Project.compile dense = .ok other)
    (ready : ofProject project = .ok run) (ready' : ofProject other = .ok full)
    (everyStep : other.runSpec.saveStep = other.runSpec.dt) (name : Path) (row : Nat)
    (within : row < run.plan.clock.savedRows)
    (within' : row * run.saveEvery < full.plan.clock.savedRows) :
    Option.Rel (fun series whole => ∃ time value,
        series.time[row]? = some time ∧ series.values[row]? = some value ∧
        whole.time[row * run.saveEvery]? = some time ∧
        whole.values[row * run.saveEvery]? = some value)
      (run.reset.runToEnd.series? name) (full.reset.runToEnd.series? name) := by
  have same := Project.retime_eq_of_compile alike compiled compiled'
  obtain ⟨plan, planned, rfl⟩ := ofProject_eq_ok.mp ready
  obtain ⟨whole, planned', rfl⟩ := ofProject_eq_ok.mp ready'
  obtain ⟨root, settled⟩ := Plan.eq_of_unsaved same planned planned'
  obtain ⟨valid, clock⟩ := Plan.clock_of_ofProject planned'
  have every : whole.clock.saveEvery = 1 := by
    rw [clock]
    exact Clock.saveEvery_of_eq valid everyStep
  have here : plan.savedRows[row]? = some (plan.settledAt (row * plan.clock.saveEvery)) :=
    Plan.savedRows_getElem? within
  have there : whole.savedRows[row * plan.clock.saveEvery]? =
      some (whole.settledAt (row * plan.clock.saveEvery * whole.clock.saveEvery)) :=
    Plan.savedRows_getElem? within'
  -- a row that is saved once in several steps is the row of its step in the run that saves all
  rw [every, Nat.mul_one, ← settled, ← here] at there
  have slots : plan.slot? name = whole.slot? name := congrArg (·.slot? name) root
  show Option.Rel _ ((start plan).runToEnd.series? name) ((start whole).runToEnd.series? name)
  rw [series?_runToEnd, series?_runToEnd, slots]
  cases whole.slot? name with
  | none => exact .none
  | some slot =>
    have entry : ∀ {β : Type} (read : Row Float → β) (rows : List (Row Float)) (place : Nat),
        rows[place]? = plan.savedRows[row]? →
          (rows.map read)[place]? = some (read (plan.settledAt (row * plan.clock.saveEvery))) := by
      intro β read rows place found
      rw [List.getElem?_map, found, here]
      rfl
    exact .some ⟨_, _, entry Row.time _ _ rfl, entry (·.get slot) _ _ rfl,
      entry Row.time _ _ there, entry (·.get slot) _ _ there⟩

/-- The nested modules, saving every other row. -/
def everyOther : Document.Project Float := { Plan.nested with timeSpec := ⟨0, 2, 1, some 2⟩ }

theorem series_decimated_nested : ∃ project other run full,
    Project.compile everyOther = .ok project ∧ Project.compile Plan.nested = .ok other ∧
      ofProject project = .ok run ∧ ofProject other = .ok full ∧
      ∃ series ∈ run.reset.runToEnd.series? "m.s", ∃ whole ∈ full.reset.runToEnd.series? "m.s",
        ∃ time value, series.time[1]? = some time ∧ series.values[1]? = some value ∧
          whole.time[2]? = some time ∧ whole.values[2]? = some value := by
  have check : ∃ project ∈ (Project.compile everyOther).toOption,
      ∃ other ∈ (Project.compile Plan.nested).toOption, ∃ run ∈ (ofProject project).toOption,
        ∃ full ∈ (ofProject other).toOption,
          other.runSpec.saveStep = other.runSpec.dt ∧ run.saveEvery = 2 ∧
            1 < run.plan.clock.savedRows ∧ 1 * run.saveEvery < full.plan.clock.savedRows ∧
            (run.reset.runToEnd.series? "m.s").isSome = true := by
    rw [Project.compile_eq, Project.compile_eq]
    decide +kernel
  obtain ⟨project, compiled, other, compiled', run, ready, full, ready', everyStep, every, within,
    within', present⟩ := check
  have compiled := toOption_eq_some.mp compiled
  have compiled' := toOption_eq_some.mp compiled'
  have ready := toOption_eq_some.mp ready
  have ready' := toOption_eq_some.mp ready'
  have alike : everyOther.retime TimeSpec.unsaved = Plan.nested.retime TimeSpec.unsaved := rfl
  have rows := series_decimated alike compiled compiled' ready ready' everyStep "m.s" 1 within within'
  refine ⟨project, other, run, full, compiled, compiled', ready, ready', ?_⟩
  obtain ⟨series, found⟩ := Option.isSome_iff_exists.mp present
  rw [every, found] at rows
  rw [found]
  generalize full.reset.runToEnd.series? "m.s" = there at rows ⊢
  cases rows with
  | some same => exact ⟨series, rfl, _, rfl, same⟩

end Simulation
end StockFlow
