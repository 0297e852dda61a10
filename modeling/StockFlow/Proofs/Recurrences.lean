import StockFlow.Proofs.Building
import StockFlow.Proofs.Catalog
import StockFlow.Proofs.Courses

/-!
# The recurrences of stateful functions

What the stateful functions compute, as equations over the steps of a run: a smoother is a chain of
levels that follow each other, a delay a chain of stages that drain into each other, and a trend compares
its input with a smoothed average. Every instance of a library model obeys them.
-/

namespace StockFlow

variable {α : Type} [Scalar α]

/-! ## Recurrences -/

/-- Whether a level approaches a target over a time, from a first value on. -/
structure Smooths (dt : α) (target time level : Nat → α) (first : α) : Prop where
  starts : level 0 = first
  moves : ∀ step, level (step + 1) =
    level step + ((target step - level step) / time step - Scalar.zero) * dt

/-- Whether contents, from a first value on, are filled by an inflow and drain over a time. -/
structure Drains (dt : α) (inflow time contents outflow : Nat → α) (first : α) : Prop where
  starts : contents 0 = first
  drains : ∀ step, outflow step = contents step / time step
  moves : ∀ step, contents (step + 1) = contents step + (inflow step - outflow step) * dt

namespace Stateful

def third (time : Nat → α) (step : Nat) : α := time step / Scalar.ofNat 3

/-- The recurrence of a stateful function between the courses of its arguments and its own. -/
def Obeys (dt : α) (input time initial output : Nat → α) : Stateful → Prop
  | smooth1 => Smooths dt input time output (initial 0)
  | smooth3 => ∃ first second : Nat → α,
    Smooths dt input (third time) first (initial 0) ∧
    Smooths dt first (third time) second (initial 0) ∧
    Smooths dt second (third time) output (initial 0)
  | delay1 => ∃ contents : Nat → α, Drains dt input time contents output (initial 0 * time 0)
  | delay3 => ∃ first second last one two : Nat → α,
    Drains dt input (third time) first one (initial 0 * third time 0) ∧
    Drains dt one (third time) second two (initial 0 * third time 0) ∧
    Drains dt two (third time) last output (initial 0 * third time 0)
  | trend => ∃ average : Nat → α,
    Smooths dt input time average (input 0 / (Scalar.ofNat 1 + initial 0 * time 0)) ∧
    ∀ step, output step =
      Scope.safeQuotient (input step - average step) (average step * time step) Scalar.zero

/-- The initial value for a call without one: zero for a trend, else the input. -/
def defaultInitial (input : Nat → α) : Stateful → Nat → α
  | trend, _ => Scalar.ofNat 0
  | smooth1, step | smooth3, step | delay1, step | delay3, step => input step

end Stateful

/-! ## Library models -/

namespace Library

def names : Stateful → List Name
  | .smooth1 => ["input", "delay_time", "initial_value", "output", "flow"]
  | .smooth3 => ["input", "delay_time", "initial_value", "stock_1", "stock_2", "output", "flow_1", "flow_2",
    "flow_3"]
  | .delay1 => ["input", "delay_time", "initial_value", "contents", "output"]
  | .delay3 => ["input", "delay_time", "initial_value", "stock_1", "stock_2", "stock_3", "flow_1", "flow_2",
    "output"]
  | .trend => ["input", "delay_time", "initial_value", "average", "change_in_average", "output"]

variable {function : Stateful} {model : Model α}

theorem exists_definition {word : Name} (listed : word ∈ names function) :
    ∃ definition ∈ (Library.model function : Document.Model α).definitions, definition.name = word := by
  have known : names function = (Library.model function : Document.Model α).definitions.map
      Document.Variable.name := by
    rw [names_model]
    cases function <;> rfl
  exact List.mem_map.mp (known ▸ listed)

theorem ofName?_eq_none {word : Name} (listed : word ∈ names function) :
    ClockReference.ofName? word = none := by
  revert word
  cases function <;> decide

theorem mem_words {word : Name} (listed : word ∈ names function) : word ∈ words := by
  revert word
  cases function <;> decide

theorem inputs_subset_names : function.inputs ⊆ names function := by
  cases function <;> decide

theorem mem_vars (built : Model.build (Library.model function) true = .ok model)
    {definition : Document.Variable α} (listed : definition ∈ (Library.model function).definitions)
    {v : Variable α} (checked : Variable.ofDefinition definition = .ok v) : v ∈ model.vars := by
  obtain ⟨w, left, made, checked', expanded, member⟩ := Model.exists_of_build built listed
  obtain rfl := Except.ok.inj (checked.symm.trans checked')
  obtain ⟨primitive, -⟩ := Variable.isPrimitive_of_isBasic (isBasic_model function definition listed) checked
  rw [Model.expandVariable_of_isPrimitive primitive] at expanded
  cases expanded
  exact member

theorem exists_variable (built : Model.build (Library.model function) true = .ok model) {word : Name}
    (listed : word ∈ names function) : ∃ v ∈ model.vars, v.name = word ∧ v.isModule = false := by
  obtain ⟨definition, member, rfl⟩ :=
    (exists_definition listed : ∃ definition ∈ (Library.model function : Document.Model α).definitions, _)
  obtain ⟨v, _, _, checked, -⟩ := Model.exists_of_build built member
  exact ⟨v, mem_vars built member checked,
    (Variable.name_of_ofDefinition checked).trans (canonical_word (mem_words listed)),
    (Variable.isPrimitive_of_isBasic (isBasic_model function definition member) checked).2⟩

end Library

namespace Project

variable {document : Document.Project α} {project : Project α}

theorem exists_library (compiled : compile document = .ok project) (function : Stateful) :
    ∃ model, project.find? (Stateful.modelName function.name) = some model ∧
      Model.build (Library.model function) true = .ok model.toModel := by
  obtain ⟨library, models, declared, own, distinct, among, linked⟩ := models_of_compile compiled
  have each := foldlM_induction (fun taken models => ∀ function ∈ taken, ∃ model ∈ models,
      Model.build (Library.model function) true = .ok model) (by simp) (by
    intro taken function _ before after _ holds stepped other member
    obtain ⟨model, built, inserted⟩ := declareModel_eq_ok.mp stepped
    rcases List.mem_append.mp member with earlier | here
    · obtain ⟨known, inside, same⟩ := holds other earlier
      exact ⟨known, (mem_insertNamed? inserted).mpr (.inr inside), same⟩
    · obtain rfl := List.mem_singleton.mp here
      exact ⟨model, (mem_insertNamed? inserted).mpr (.inl rfl), built⟩) declared
  obtain ⟨model, member, built⟩ := each function (by cases function <;> decide)
  obtain ⟨result, found, rfl⟩ :=
    exists_find? distinct among linked ((mem_of_declareOwn own).1 member)
  exact ⟨result, Library.name_of_build built ▸ found, built⟩

end Project

/-! ## Instances -/

namespace Plan

/-- The course of a variable of an instance. -/
def courseOf (plan : Plan α) (node : Coded α) (name : Name) (step : Nat) : α :=
  (node.slots.get? name).elim Scalar.undefined fun slot => plan.course slot step

namespace IsSound

variable {project : Project α} {plan : Plan α} (sound : plan.IsSound project) {path : List Name}
  {node : Coded α} {model : LinkedModel α} (leads : plan.root.descend? path = some node)
  (found : project.find? node.model = some model)
include sound leads found

theorem exists_get? {v : Variable α} (member : v ∈ model.vars) (own : v.isModule = false) :
    ∃ slot, node.slots.get? v.name = some slot :=
  Plan.exists_get? sound.consistent sound.planned leads found member own

theorem courseOf_eq {v : Variable α} (member : v ∈ model.vars) (own : v.isModule = false) :
    ∃ slot, node.slots.get? v.name = some slot ∧ plan.courseOf node v.name = plan.course slot := by
  obtain ⟨slot, here⟩ := sound.exists_get? leads found member own
  refine ⟨slot, here, ?_⟩
  funext step
  rw [courseOf, here]
  rfl

theorem courseOf_input {v : Variable α} {source : Option Nat} (member : v ∈ model.vars)
    (own : v.isModule = false) (connected : node.note.inputs.get? v.name = some source) (step : Nat) :
    plan.courseOf node v.name step =
      (Scope.loadSlot source).value plan.clock.dt (plan.settledAt step) := by
  obtain ⟨slot, own, same⟩ := sound.courseOf_eq leads found member own
  rw [same]
  exact sound.course_input leads found member own connected step

theorem courseOf_formula {formula : Formula α} (member : .formula formula ∈ model.vars)
    (unconnected : node.note.inputs.get? formula.name = none) (step : Nat) :
    plan.courseOf node formula.name step =
      (node.scope model plan.clock formula.name).formulaValue (plan.settledAt step) formula := by
  obtain ⟨slot, own, same⟩ := sound.courseOf_eq leads found member rfl
  have here : plan.courseOf node formula.name = plan.course slot := same
  rw [here]
  exact sound.course_formula leads found member unconnected own step

theorem courseOf_stock {stock : Stock α} (member : .stock stock ∈ model.vars)
    (unconnected : node.note.inputs.get? stock.name = none) :
    plan.courseOf node stock.name 0 =
        (node.scope model plan.clock stock.name).value (plan.settledAt 0) stock.initial ∧
      ∀ step, plan.courseOf node stock.name (step + 1) =
        (node.scope model plan.clock stock.name).nextValue (plan.settledAt step)
          (plan.courseOf node stock.name step) stock := by
  obtain ⟨slot, own, same⟩ := sound.courseOf_eq leads found member rfl
  have here : plan.courseOf node stock.name = plan.course slot := same
  rw [here]
  exact ⟨sound.course_stock_zero leads found member unconnected own,
    sound.course_stock_succ leads found member unconnected own⟩

theorem slotValue_own {v : Variable α} (member : v ∈ model.vars) (own : v.isModule = false)
    (notTime : v.name ≠ "time") (owner : Name) (step : Nat) :
    (node.scope model plan.clock owner).slotValue (plan.settledAt step) v.name =
      plan.courseOf node v.name step := by
  obtain ⟨slot, here⟩ := sound.exists_get? leads found member own
  have resolved : (node.scope model plan.clock owner).slot? v.name = some slot :=
    Instance.slot?_own (sound.plain found v member).2.1 notTime here
  rw [Scope.slotValue, resolved, courseOf, here]
  rfl

end IsSound
end Plan

/-! ## Instances of the library -/

namespace Library

variable {project : Project α} {plan : Plan α} (sound : plan.IsSound project) {path : List Name}
  {node : Coded α} {model : LinkedModel α} {function : Stateful}
  (leads : plan.root.descend? path = some node) (found : project.find? node.model = some model)
  (built : Model.build (Library.model function) true = .ok model.toModel)
include sound leads found built

section

variable {word owner : Name} (listed : word ∈ names function) (step : Nat)
include listed

/-- The names in a library model, but for those of functions, refer to its own variables. -/
theorem slotValue_name : (node.scope model plan.clock owner).slotValue (plan.settledAt step) word =
    plan.courseOf node word step := by
  have clear := ofName?_eq_none listed
  obtain ⟨v, member, rfl, own⟩ := exists_variable built listed
  refine sound.slotValue_own leads found member own ?_ owner step
  -- no name of the library is a time name
  rintro same
  rw [same] at clear
  cases clear

theorem referenceValue_name : (node.scope model plan.clock owner).referenceValue (plan.settledAt step) word =
    plan.courseOf node word step := by
  rw [Scope.referenceValue, ofName?_eq_none listed]
  exact slotValue_name sound leads found built listed step

end

section

variable {name : Name} (known : name ∈ words) (unconnected : node.note.inputs.get? name = none)
include known unconnected

theorem courseOf_auxiliary {equation : Equation α}
    (listed : auxiliary name equation ∈ (Library.model function).definitions) (step : Nat) :
    plan.courseOf node name step = (node.scope model plan.clock name).value (plan.settledAt step)
      (equation.mapNames Name.canonical) := by
  have member : .formula ⟨name, equation.print, equation.mapNames Name.canonical, none, false, false⟩ ∈
      model.vars := by
    rw [← canonical_word known]
    exact mem_vars built listed rfl
  exact sound.courseOf_formula leads found member unconnected step

theorem courseOf_flow {equation : Equation α}
    (listed : flow name equation ∈ (Library.model function).definitions) (step : Nat) :
    plan.courseOf node name step = (node.scope model plan.clock name).value (plan.settledAt step)
      (equation.mapNames Name.canonical) := by
  have member : .formula ⟨name, equation.print, equation.mapNames Name.canonical, none, true, false⟩ ∈
      model.vars := by
    rw [← canonical_word known]
    exact mem_vars built listed rfl
  exact sound.courseOf_formula leads found member unconnected step

theorem courseOf_stock {initial : Equation α} {inflows outflows : List Name}
    (listed : stock name initial inflows outflows ∈ (Library.model function).definitions) :
    plan.courseOf node name 0 = (node.scope model plan.clock name).value (plan.settledAt 0)
        (initial.mapNames Name.canonical) ∧
      ∀ step, plan.courseOf node name (step + 1) = plan.courseOf node name step +
        ((node.scope model plan.clock name).flowValue (plan.settledAt step) (inflows.map Name.canonical) -
          (node.scope model plan.clock name).flowValue (plan.settledAt step) (outflows.map Name.canonical)) *
        plan.clock.dt := by
  have member : .stock ⟨name, initial.print, initial.mapNames Name.canonical,
      inflows.map Name.canonical, outflows.map Name.canonical, false⟩ ∈ model.vars := by
    rw [← canonical_word known]
    exact mem_vars built listed rfl
  exact sound.courseOf_stock leads found member unconnected

end

/-- The names of a stage of a library model and the variables that it consists of, none of which is
connected. -/
structure IsStage (function : Stateful) (node : Coded α) (level rate other : Name)
    (definitions : List (Document.Variable α)) : Prop where
  listed : [level, rate, other] ⊆ names function
  declared : definitions ⊆ (Library.model function).definitions
  level : node.note.inputs.get? level = none
  rate : node.note.inputs.get? rate = none

section

variable (level rate other : Name) (initial : Equation α) {time : Equation α} {duration : Nat → α}
  (lasts : ∀ step, (node.scope model plan.clock rate).value (plan.settledAt step)
    (time.mapNames Name.canonical) = duration step)
include lasts

/-- A stock that fills by what lies between it and a target over a time follows the target. -/
theorem smooths (stage : IsStage function node level rate other
      [stock level initial [rate] [], flow rate (approach other level time)]) :
    Smooths plan.clock.dt (plan.courseOf node other) duration (plan.courseOf node level)
      ((node.scope model plan.clock level).value (plan.settledAt 0) (initial.mapNames Name.canonical)) := by
  obtain ⟨listed, declared, freeLevel, freeRate⟩ := stage
  simp only [List.cons_subset] at listed declared
  obtain ⟨isLevel, isRate, isTarget, -⟩ := listed
  obtain ⟨starts, moves⟩ :=
    courseOf_stock sound leads found built (mem_words isLevel) freeLevel declared.1
  refine ⟨starts, fun step => ?_⟩
  have rates := courseOf_flow sound leads found built (mem_words isRate) freeRate declared.2.1 step
  simp only [approach, dividedBy, minus, Equation.mapNames, Scope.value, BinaryOperator.apply,
    canonical_word (mem_words isTarget), canonical_word (mem_words isLevel),
    referenceValue_name sound leads found built isTarget,
    referenceValue_name sound leads found built isLevel, lasts] at rates
  rw [moves step, ← rates, List.map_singleton, canonical_word (mem_words isRate)]
  simp only [List.map_nil, Scope.flowValue, List.foldl_nil, slotValue_name sound leads found built isRate]

/-- A stock that an inflow fills and that an outflow empties over a time is a stage of a delay. -/
theorem drains (stage : IsStage function node level rate other
      [stock level initial [other] [rate], flow rate (dividedBy (.reference level) time)]) :
    Drains plan.clock.dt (plan.courseOf node other) duration (plan.courseOf node level)
      (plan.courseOf node rate)
      ((node.scope model plan.clock level).value (plan.settledAt 0) (initial.mapNames Name.canonical)) := by
  obtain ⟨listed, declared, freeLevel, freeRate⟩ := stage
  simp only [List.cons_subset] at listed declared
  obtain ⟨isLevel, isRate, isInflow, -⟩ := listed
  obtain ⟨starts, moves⟩ :=
    courseOf_stock sound leads found built (mem_words isLevel) freeLevel declared.1
  refine ⟨starts, fun step => ?_, fun step => ?_⟩
  · have rates := courseOf_flow sound leads found built (mem_words isRate) freeRate declared.2.1 step
    simpa only [dividedBy, Equation.mapNames, Scope.value, BinaryOperator.apply,
      canonical_word (mem_words isLevel), referenceValue_name sound leads found built isLevel, lasts]
      using rates
  · rw [moves step, List.map_singleton, List.map_singleton, canonical_word (mem_words isRate),
      canonical_word (mem_words isInflow)]
    simp only [Scope.flowValue, List.foldl_nil, slotValue_name sound leads found built isRate,
      slotValue_name sound leads found built isInflow]

end

section

omit sound leads found built
variable {owner : Name} {row : Row α}

theorem value_binary {operator : BinaryOperator} {left right : Equation α} :
    (node.scope model plan.clock owner).value row
        ((Equation.binary operator left right).mapNames Name.canonical) =
      operator.apply ((node.scope model plan.clock owner).value row (left.mapNames Name.canonical))
        ((node.scope model plan.clock owner).value row (right.mapNames Name.canonical)) := by
  rw [Equation.mapNames, Scope.value]

theorem value_natural {n : Nat} : (node.scope model plan.clock owner).value row
    ((Equation.natural n).mapNames Name.canonical) = Scalar.ofNat n := by
  rw [Equation.natural, Equation.mapNames, Scope.value]

end

section

variable {owner : Name} (step : Nat)

theorem value_reference {word : Name} (listed : word ∈ names function) :
    (node.scope model plan.clock owner).value (plan.settledAt step)
      ((Equation.reference word).mapNames Name.canonical) = plan.courseOf node word step := by
  rw [Equation.mapNames, canonical_word (mem_words listed), Scope.value,
    referenceValue_name sound leads found built listed]

theorem value_stageTime :
    (node.scope model plan.clock owner).value (plan.settledAt step) (stageTime.mapNames Name.canonical) =
      Stateful.third (plan.courseOf node "delay_time") step := by
  rw [stageTime, dividedBy, value_binary, value_natural,
    value_reference sound leads found built step (by cases function <;> decide)]
  rfl

end

/-- An instance of a library model obeys the recurrence of its function, if none but its inputs is
connected. -/
theorem obeys (inputs : ∀ name, name ∉ function.inputs → node.note.inputs.get? name = none) :
    function.Obeys plan.clock.dt (plan.courseOf node "input") (plan.courseOf node "delay_time")
      (plan.courseOf node "initial_value") (plan.courseOf node "output") := by
  have own : ∀ {owner word} step, word ∈ names function →
      (node.scope model plan.clock owner).value (plan.settledAt step)
        ((Equation.reference word).mapNames Name.canonical) = plan.courseOf node word step :=
    fun step => value_reference sound leads found built step
  have lasting : ∀ {owner} step, (node.scope model plan.clock owner).value (plan.settledAt step)
      ((Equation.reference "delay_time").mapNames Name.canonical) =
        plan.courseOf node "delay_time" step :=
    fun step => own step (by cases function <;> decide)
  have initially : ∀ {owner}, (node.scope model plan.clock owner).value (plan.settledAt 0)
      ((Equation.reference "initial_value").mapNames Name.canonical) =
        plan.courseOf node "initial_value" 0 :=
    own 0 (by cases function <;> decide)
  have thirds : ∀ {owner} step, (node.scope model plan.clock owner).value (plan.settledAt step)
      (stageTime.mapNames Name.canonical) = Stateful.third (plan.courseOf node "delay_time") step :=
    fun step => value_stageTime sound leads found built step
  -- levels and rates are no inputs, so nothing is connected to them
  have stage : ∀ {level rate other : Name} {definitions : List (Document.Variable α)},
      [level, rate, other] ⊆ names function → level ∉ function.inputs → rate ∉ function.inputs →
        definitions ⊆ (Library.model function).definitions →
          IsStage function node level rate other definitions := fun listed level rate declared =>
    ⟨listed, declared, inputs _ level, inputs _ rate⟩
  cases function with
  | smooth1 =>
    have level := smooths sound leads found built "output" "flow" "input" (.reference "initial_value")
      lasting (stage (by decide) (by decide) (by decide) (by simp [Library.model, smooth1, withInputs]))
    rwa [initially] at level
  | smooth3 =>
    have first := smooths sound leads found built "stock_1" "flow_1" "input" (.reference "initial_value")
      thirds (stage (by decide) (by decide) (by decide) (by simp [Library.model, smooth3, withInputs]))
    have second := smooths sound leads found built "stock_2" "flow_2" "stock_1" (.reference "initial_value")
      thirds (stage (by decide) (by decide) (by decide) (by simp [Library.model, smooth3, withInputs]))
    have last := smooths sound leads found built "output" "flow_3" "stock_2" (.reference "initial_value")
      thirds (stage (by decide) (by decide) (by decide) (by simp [Library.model, smooth3, withInputs]))
    rw [initially] at first second last
    exact ⟨_, _, first, second, last⟩
  | delay1 =>
    have contents := drains sound leads found built "contents" "output" "input"
      (times (.reference "initial_value") (.reference "delay_time")) lasting
      (stage (by decide) (by decide) (by decide) (by simp [Library.model, delay1, withInputs]))
    rw [times, value_binary, initially, lasting] at contents
    exact ⟨_, contents⟩
  | delay3 =>
    have first := drains sound leads found built "stock_1" "flow_1" "input"
      (times (.reference "initial_value") stageTime) thirds
      (stage (by decide) (by decide) (by decide) (by simp [Library.model, delay3, withInputs]))
    have second := drains sound leads found built "stock_2" "flow_2" "flow_1"
      (times (.reference "initial_value") stageTime) thirds
      (stage (by decide) (by decide) (by decide) (by simp [Library.model, delay3, withInputs]))
    have last := drains sound leads found built "stock_3" "output" "flow_2"
      (times (.reference "initial_value") stageTime) thirds
      (stage (by decide) (by decide) (by decide) (by simp [Library.model, delay3, withInputs]))
    rw [times, value_binary, initially, thirds] at first second last
    exact ⟨_, _, _, _, _, first, second, last⟩
  | trend =>
    have average := smooths sound leads found built "average" "change_in_average" "input"
      (dividedBy (.reference "input") (.binary .add (.natural 1)
        (times (.reference "initial_value") (.reference "delay_time")))) lasting
      (stage (by decide) (by decide) (by decide) (by simp [Library.model, trend, withInputs]))
    have listed : (auxiliary "output" (.call "safediv" [minus (.reference "input") (.reference "average"),
        times (.reference "average") (.reference "delay_time")]) : Document.Variable α) ∈
          (Library.model .trend).definitions := by
      simp [Library.model, trend, withInputs]
    have primitive : Primitive.ofName? (Name.canonical "safediv") = some .safeDivide := by decide
    refine ⟨plan.courseOf node "average", ?_, fun step => ?_⟩
    · simpa (disch := decide) only [dividedBy, times, value_binary, value_natural, own,
        BinaryOperator.apply] using average
    · rw [courseOf_auxiliary sound leads found built (by decide) (inputs _ (by decide)) listed step,
        Equation.mapNames, Scope.value, primitive]
      simp (disch := decide) only [Equation.mapNamesAll, Scope.values, Scope.callValue, minus, times,
        value_binary, own, BinaryOperator.apply]

theorem courseOf_delayTime (unconnected : node.note.inputs.get? "delay_time" = none) (step : Nat) :
    plan.courseOf node "delay_time" step = Scalar.ofNat 1 := by
  have listed : auxiliary "delay_time" (.natural 1) ∈
      (Library.model function : Document.Model α).definitions := by
    cases function <;> simp [Library.model, delay1, delay3, smooth1, smooth3, trend, withInputs]
  rw [courseOf_auxiliary sound leads found built (by decide) unconnected listed, value_natural]

theorem courseOf_initialValue (unconnected : node.note.inputs.get? "initial_value" = none) (step : Nat) :
    plan.courseOf node "initial_value" step =
      function.defaultInitial (plan.courseOf node "input") step := by
  cases function with
  | trend =>
    rw [courseOf_auxiliary sound leads found built (by decide) unconnected
      (by simp [Library.model, trend, withInputs] : auxiliary "initial_value" (.natural 0) ∈ _), value_natural]
    rfl
  | _ =>
    rw [courseOf_auxiliary sound leads found built (by decide) unconnected
      (by simp [Library.model, delay1, delay3, smooth1, smooth3, withInputs] :
        auxiliary "initial_value" (.reference "input") ∈ _),
      value_reference sound leads found built step (by decide)]
    rfl

end Library
end StockFlow
