import StockFlow.Proofs.Dynamics
import StockFlow.Proofs.Holding

/-!
# Models in balance

An instance rests at given levels of its variables if each equation amounts to the level of its variable
wherever what it reads has its own, and if what flows into each stock flows out of it. The library models
have such levels for every input and every time but zero.
-/

namespace StockFlow

variable {α : Type} [Scalar α]

/-! ## What is read -/

/-- The names that the value of a variable is computed from. -/
def Variable.readNames (v : Variable α) : List Name := v.equation?.elim [] Equation.references ++ v.flows

/-- Whether a name is that of a variable of a model, wherever it stands in an equation. -/
structure Model.HasOwn (model : Model α) (name : Name) : Prop where
  undotted : ¬ Path.IsDotted name
  unreserved : isReserved name = false
  declared : ∃ v ∈ model.vars, v.name = name ∧ v.isModule = false

theorem Plan.exists_slot_of_hasOwn {project : Project α} {plan : Plan α} (consistent : project.Consistent)
    (planned : ofProject project = .ok plan) {path : List Name} {node : Coded α} {model : LinkedModel α}
    (leads : plan.root.descend? path = some node) (found : project.find? node.model = some model)
    {name : Name} (own : model.HasOwn name) : ∃ v ∈ model.vars, v.name = name ∧ v.isModule = false ∧
      ∃ slot, node.slots.get? name = some slot ∧ ∀ owner (row : Row α),
        (node.scope model plan.clock owner).slotValue row name = row.get slot ∧
        (node.scope model plan.clock owner).referenceValue row name = row.get slot := by
  obtain ⟨undotted, unreserved, v, member, rfl, part⟩ := own
  obtain ⟨slot, here⟩ := exists_get? consistent planned leads found member part
  have notTime : v.name ≠ "time" := fun time => Bool.false_ne_true (unreserved.symm.trans (time ▸ rfl))
  have value : ∀ owner (row : Row α),
      (node.scope model plan.clock owner).slotValue row v.name = row.get slot := by
    intro owner row
    have resolved : (node.scope model plan.clock owner).slot? v.name = some slot :=
      Instance.slot?_own undotted notTime here
    rw [Scope.slotValue, resolved]
  refine ⟨v, member, rfl, part, slot, here, fun owner row => ⟨value owner row, ?_⟩⟩
  rw [Scope.referenceValue, ClockReference.ofName?_of_isReserved unreserved]
  exact value owner row

variable [Scalar.Exact α]

/-! ## Equations -/

/-- Whether the value of an equation stands for a real number wherever its references stand for their
levels. -/
def Equation.Amounts (level : Name → ℝ) (equation : Equation α) (r : ℝ) : Prop :=
  ∀ (scope : Scope α) (row : Row α), (∀ name ∈ equation.references,
    Scalar.StandsFor (scope.referenceValue row name) (level name)) →
      Scalar.StandsFor (scope.value row equation) r

namespace Scalar

variable (α) in
/-- Whether finite numbers are the same exactly if they stand for the same real number. -/
class Discerns : Prop where
  same_iff {x y : α} : isFinite x → isFinite y → (same x y ↔ Exact.real x = Exact.real y)

instance : Discerns Rational where
  same_iff {x y} := by
    intro finite finite'
    obtain ⟨p, rfl⟩ := Rational.exists_value finite
    obtain ⟨q, rfl⟩ := Rational.exists_value finite'
    exact decide_eq_true_iff.trans Rat.cast_inj.symm

theorem StandsFor.safeQuotient [Discerns α] {x y : α} {s : ℝ} (one : StandsFor x 0) (two : StandsFor y s) :
    StandsFor (Scope.safeQuotient x y zero) 0 := by
  unfold Scope.safeQuotient
  split
  · exact standsFor_zero
  · rename_i differ
    have nonzero : s ≠ 0 := fun vanishes => differ
      ((Discerns.same_iff two.1 isFinite_zero).mpr (two.2.trans (vanishes.trans real_zero.symm)))
    simpa using one.div two nonzero

end Scalar

namespace Equation.Amounts

variable {level : Name → ℝ} {left right : Equation α} {r s : ℝ}

theorem of_eq (amounts : left.Amounts level r) (same : r = s) : left.Amounts level s := same ▸ amounts

variable (level) in
theorem reference (name : Name) : (Equation.reference name : Equation α).Amounts level (level name) := by
  intro scope row known
  rw [Scope.value]
  exact known name (List.mem_singleton_self name)

variable (level) in
theorem natural (n : Nat) : (Equation.natural n : Equation α).Amounts level n := by
  intro scope row _
  rw [Equation.natural, Scope.value]
  exact Scalar.standsFor_ofNat n

variable (one : left.Amounts level r) (two : right.Amounts level s)
include one two

theorem plus : (Equation.binary .add left right).Amounts level (r + s) := by
  intro scope row known
  obtain ⟨first, second⟩ := List.forall_mem_append.mp known
  rw [Scope.value]
  exact (one scope row first).add (two scope row second)

theorem minus : (Library.minus left right).Amounts level (r - s) := by
  intro scope row known
  obtain ⟨first, second⟩ := List.forall_mem_append.mp known
  rw [Library.minus, Scope.value]
  exact (one scope row first).sub (two scope row second)

theorem times : (Library.times left right).Amounts level (r * s) := by
  intro scope row known
  obtain ⟨first, second⟩ := List.forall_mem_append.mp known
  rw [Library.times, Scope.value]
  exact (one scope row first).mul (two scope row second)

theorem dividedBy (nonzero : s ≠ 0) : (Library.dividedBy left right).Amounts level (r / s) := by
  intro scope row known
  obtain ⟨first, second⟩ := List.forall_mem_append.mp known
  rw [Library.dividedBy, Scope.value]
  exact (one scope row first).div (two scope row second) nonzero

theorem safediv [Scalar.Discerns α] (empty : r = 0) :
    (Equation.call "safediv" [left, right]).Amounts level 0 := by
  intro scope row known
  obtain ⟨first, others⟩ := List.forall_mem_append.mp known
  have second : ∀ name ∈ right.references, Scalar.StandsFor (scope.referenceValue row name) (level name) :=
    fun name member => others name (List.mem_append_left _ member)
  have primitive : Primitive.ofName? "safediv" = some .safeDivide := by decide
  rw [Scope.value, primitive]
  exact (empty ▸ one scope row first).safeQuotient (two scope row second)

end Equation.Amounts

/-! ## Instances -/

/-- Whether a variable keeps its level where others have theirs: its equation amounts to it, and what flows
into a stock flows out of it. -/
def Variable.Balances (level : Name → ℝ) : Variable α → Prop
  | stock s => s.nonNegative = false ∧ s.initial.Amounts level (level s.name) ∧
    (s.inflows.map level).sum = (s.outflows.map level).sum
  | formula f => f.table? = none ∧ (f.isFlow && f.nonNegative) = false ∧
    f.equation.Amounts level (level f.name)
  | module _ => True

theorem Scope.standsFor_flowValue {scope : Scope α} {row : Row α} {level : Name → ℝ} {flows : List Name}
    (each : ∀ flow ∈ flows, Scalar.StandsFor (scope.slotValue row flow) (level flow)) :
    Scalar.StandsFor (scope.flowValue row flows) (flows.map level).sum := by
  cases flows with
  | nil => exact Scalar.standsFor_zero
  | cons first rest =>
    obtain ⟨here, others⟩ := List.forall_mem_cons.mp each
    rw [List.map_cons, List.sum_cons, flowValue]
    clear each
    generalize scope.slotValue row first = sum at here
    generalize level first = total at here
    induction rest generalizing sum total with
    | nil => simpa using here
    | cons flow rest ih =>
      obtain ⟨next, others⟩ := List.forall_mem_cons.mp others
      rw [List.foldl_cons, List.map_cons, List.sum_cons, ← add_assoc]
      exact ih others _ _ (here.add next)

namespace Plan

/-- Whether a slot is that of a variable of an instance with a level. -/
def IsLeveled (node : Coded α) (model : LinkedModel α) (level : Name → ℝ) (slot : Nat) (r : ℝ) : Prop :=
  ∃ v ∈ model.vars, v.isModule = false ∧ node.slots.get? v.name = some slot ∧ level v.name = r

variable {project : Project α} {plan : Plan α} (consistent : project.Consistent)
  (planned : ofProject project = .ok plan) {path : List Name} {node : Coded α} {model : LinkedModel α}
  (leads : plan.root.descend? path = some node) (found : project.find? node.model = some model)
  (level : Name → ℝ)
include consistent planned leads found

/-- At the start the own variables that an equation refers to are assigned before the variable of the
equation. -/
theorem exists_needed {v : Variable α} (member : v ∈ model.vars) {equation : Equation α}
    (defines : v.equation? = some equation) (own : ∀ name ∈ equation.references, model.HasOwn name)
    {slot : Nat} (here : node.slots.get? v.name = some slot) : ∃ needed : List Nat,
      (∀ other ∈ needed, [other, slot].Sublist (written (plan.program .initials))) ∧
      ∀ row : Row α, (∀ other ∈ needed, plan.Suits (IsLeveled node model level) other (row.get other)) →
        ∀ name ∈ equation.references, Scalar.StandsFor
          ((node.scope model plan.clock v.name).referenceValue row name) (level name) := by
  refine ⟨equation.references.filterMap (node.slots.get? ·), fun other among => ?_, ?_⟩
  · obtain ⟨name, refers, there⟩ := List.mem_filterMap.mp among
    have source : name ∈ v.sources := Variable.sources_of_equation? defines ▸
      Equation.mem_names_of_references refers (own name refers).unreserved
    refine sublist_of_sources consistent planned leads found member source (.inl here) (.inl ?_)
    rwa [Path.head_of_not_dotted (own name refers).undotted]
  · intro row suits name refers
    obtain ⟨w, inside, rfl, part, other, there, value⟩ :=
      exists_slot_of_hasOwn consistent planned leads found (own name refers)
    rw [(value v.name row).2]
    exact suits other (List.mem_filterMap.mpr ⟨_, refers, there⟩) _ (.inl ⟨w, inside, part, there, rfl⟩)

variable (own : ∀ v ∈ model.vars, ∀ name ∈ v.readNames, model.HasOwn name)
  (balances : ∀ v ∈ model.vars, node.note.inputs.get? v.name = none → v.Balances level)
include own balances

/-- From one row to the next a stock in balance keeps its level. -/
theorem standsFor_nextValue {stock : Stock α} (member : .stock stock ∈ model.vars)
    (unconnected : node.note.inputs.get? stock.name = none) {row : Row α}
    (suits : ∀ slot, plan.Suits (IsLeveled node model level) slot (row.get slot)) {slot : Nat}
    (here : node.slots.get? stock.name = some slot) : Scalar.StandsFor
      ((node.scope model plan.clock stock.name).nextValue row (row.get slot) stock) (level stock.name) := by
  obtain ⟨clamped, -, balance⟩ := balances _ member unconnected
  have flowing : ∀ flows ⊆ (Variable.stock stock).readNames, Scalar.StandsFor
      ((node.scope model plan.clock stock.name).flowValue row flows) (flows.map level).sum := by
    intro flows within
    refine Scope.standsFor_flowValue fun flow listed => ?_
    obtain ⟨w, inside, rfl, part, other, there, value⟩ :=
      exists_slot_of_hasOwn consistent planned leads found (own _ member _ (within listed))
    rw [(value stock.name row).1]
    exact suits other _ (.inl ⟨w, inside, part, there, rfl⟩)
  have step : Scalar.StandsFor plan.clock.dt (Scalar.real plan.clock.dt) := by
    obtain ⟨valid, same⟩ := clock_of_ofProject planned
    exact ⟨same ▸ (Clock.isValid_of_validate valid).dt, rfl⟩
  have inflow := flowing stock.inflows (by simp [Variable.readNames, Variable.flows])
  have outflow := flowing stock.outflows (by simp [Variable.readNames, Variable.flows])
  have next := (suits slot _ (.inl ⟨_, member, rfl, here, rfl⟩)).add ((inflow.sub outflow).mul step)
  rw [balance, sub_self, zero_mul, add_zero] at next
  rw [Scope.nextValue, clamped]
  exact next

/-- The variables of an instance that reads its own ones alone hold their levels, if all of them balance at
them but the inputs, which are connected to what holds theirs and is assigned earlier at the start. -/
theorem holds_of_balances
    (fed : ∀ v ∈ model.vars, ∀ source slot, node.note.inputs.get? v.name = some source →
      node.slots.get? v.name = some slot → ∃ before, source = some before ∧
        plan.Holds before (level v.name) ∧ [before, slot].Sublist (written (plan.program .initials)))
    {v : Variable α} (member : v ∈ model.vars) (part : v.isModule = false) {slot : Nat}
    (here : node.slots.get? v.name = some slot) : plan.Holds slot (level v.name) := by
  have upholds : plan.Upholds (IsLeveled node model level) := by
    -- leveled slots lie in the row; settling computes their levels; a step keeps those of the stocks
    refine ⟨?_, ?_, ?_⟩
    · rintro slot _ ⟨v, -, -, here, rfl⟩
      exact lt_size_of_own consistent planned leads here
    · rintro ⟨_, term⟩ among _ ⟨v, member, part, here, rfl⟩
      obtain ⟨-, computes⟩ :=
        computes_of_own consistent planned leads found member (by decide) among here
      generalize assigned : [(⟨_, term⟩ : Assignment α)] = assignments at computes
      cases computes with
      | input connected =>
        cases assigned
        obtain ⟨before, rfl, holds, earlier⟩ := fed _ member _ _ connected here
        refine ⟨[before], fun other among => ?_, fun row suits => ?_⟩
        · exact List.mem_singleton.mp among ▸ earlier
        · exact suits before (List.mem_singleton_self _) _ (.inr holds)
      | enter => cases part
      | stock _ unconnected _ lowered =>
        cases assigned
        obtain ⟨-, amounts, -⟩ := balances _ member unconnected
        obtain ⟨needed, earlier, known⟩ := exists_needed consistent planned leads found level member rfl
          (fun name refers => own _ member name (List.mem_append_left _ refers)) here
        refine ⟨needed, earlier, fun row suits => ?_⟩
        have value : term.value plan.clock.dt row = _ := Scope.value_of_lower lowered
        exact value ▸ amounts _ row (known row suits)
      | formula unconnected _ lowered =>
        cases assigned
        obtain ⟨curve, clamped, amounts⟩ := balances _ member unconnected
        obtain ⟨needed, earlier, known⟩ := exists_needed consistent planned leads found level member rfl
          (fun name refers => own _ member name (List.mem_append_left _ refers)) here
        refine ⟨needed, earlier, fun row suits => ?_⟩
        have value : term.value plan.clock.dt row = _ := Scope.value_of_formulaTerm row lowered
        rw [value, Scope.formulaValue, curve, clamped]
        exact amounts _ row (known row suits)
    · rintro a among _ ⟨v, member, part, here, rfl⟩ row suits
      obtain ⟨stock, rfl, unconnected, term⟩ :=
        exists_stock_of_own consistent planned leads found member among here
      have value : a.term.value plan.clock.dt row = _ :=
        term ▸ Scope.value_stockUpdate (node.scope model plan.clock stock.name) row a.slot stock
      exact value ▸ standsFor_nextValue consistent planned leads found level own balances member unconnected
        suits here
  exact upholds.holds consistent planned ⟨v, member, part, here, rfl⟩

end Plan

/-! ## Library models -/

namespace Library

/-- What the output of a stateful function rests at. -/
noncomputable def equilibrium (input : ℝ) : Stateful → ℝ
  | .trend => 0
  | .delay1 | .delay3 | .smooth1 | .smooth3 => input

/-- The levels at which a library model rests: levels that follow the input have its value, what drains in a
time has what comes in during that time, and a trend is flat. -/
noncomputable def level (input time : ℝ) (function : Stateful) (name : Name) : ℝ :=
  if name = "delay_time" then time
  else match function with
    | .smooth1 => if name = "flow" then 0 else input
    | .smooth3 => if name ∈ ["flow_1", "flow_2", "flow_3"] then 0 else input
    | .delay1 => if name = "contents" then input * time else input
    | .delay3 => if name ∈ ["stock_1", "stock_2", "stock_3"] then input * (time / 3) else input
    | .trend => if name ∈ ["initial_value", "change_in_average", "output"] then 0 else input

theorem level_output (input time : ℝ) (function : Stateful) :
    level input time function "output" = equilibrium input function := by
  cases function <;> simp [level, equilibrium]

theorem level_input (input time : ℝ) (function : Stateful) : level input time function "input" = input := by
  cases function <;> simp [level]

theorem level_delayTime (input time : ℝ) (function : Stateful) :
    level input time function "delay_time" = time := if_pos rfl

section

variable {level : Name → ℝ} {time : Equation α} {t : ℝ}

theorem amounts_word {word : Name} (known : word ∈ words) :
    ((Equation.reference word : Equation α).mapNames Name.canonical).Amounts level (level word) := by
  rw [Equation.mapNames, canonical_word known]
  exact .reference level word

theorem amounts_input : ((Equation.reference "input" : Equation α).mapNames Name.canonical).Amounts level
    (level "input") :=
  amounts_word (by decide)

theorem amounts_delayTime : ((Equation.reference "delay_time" : Equation α).mapNames
    Name.canonical).Amounts level (level "delay_time") :=
  amounts_word (by decide)

theorem amounts_initialValue : ((Equation.reference "initial_value" : Equation α).mapNames
    Name.canonical).Amounts level (level "initial_value") :=
  amounts_word (by decide)

theorem amounts_stageTime :
    ((stageTime : Equation α).mapNames Name.canonical).Amounts level (level "delay_time" / 3) :=
  amounts_delayTime.dividedBy (.natural level 3) (by norm_num)

theorem amounts_approach {target own : Name} (known : target ∈ words) (known' : own ∈ words)
    (same : level target = level own) (lasts : (time.mapNames Name.canonical).Amounts level t)
    (nonzero : t ≠ 0) : ((approach target own time).mapNames Name.canonical).Amounts level 0 := by
  have amounts : ((approach target own time).mapNames Name.canonical).Amounts level
      ((level target - level own) / t) :=
    ((amounts_word known).minus (amounts_word known')).dividedBy lasts nonzero
  rwa [same, sub_self, zero_div] at amounts

/-- Whether what is defined balances. -/
def Balances (level : Name → ℝ) (definition : Document.Variable α) : Prop :=
  ∀ v, Variable.ofDefinition definition = .ok v → v.Balances level

section

variable {name : Name} (known : name ∈ words) {equation : Equation α} {r : ℝ}
  (amounts : (equation.mapNames Name.canonical).Amounts level r) (same : level name = r)
include known amounts same

theorem balances_auxiliary : Balances level (auxiliary name equation) := by
  rintro v checked
  obtain rfl := Except.ok.inj checked
  exact ⟨rfl, rfl, (canonical_word known).symm ▸ same ▸ amounts⟩

theorem balances_flow : Balances level (flow name equation) := by
  rintro v checked
  obtain rfl := Except.ok.inj checked
  exact ⟨rfl, rfl, (canonical_word known).symm ▸ same ▸ amounts⟩

theorem balances_stock {inflows outflows : List Name} (among : inflows ++ outflows ⊆ words)
    (balance : (inflows.map level).sum = (outflows.map level).sum) :
    Balances level (stock name equation inflows outflows) := by
  rintro v checked
  obtain rfl := Except.ok.inj checked
  have plain : ∀ flows ⊆ words, (flows.map Name.canonical).map level = flows.map level := by
    intro flows within
    rw [List.map_map]
    exact List.map_congr_left fun flow listed => congrArg level (canonical_word (within listed))
  refine ⟨rfl, (canonical_word known).symm ▸ same ▸ amounts, ?_⟩
  show (List.map level (List.map _ _)).sum = (List.map level (List.map _ _)).sum
  rw [plain _ fun _ listed => among (List.mem_append_left _ listed),
    plain _ fun _ listed => among (List.mem_append_right _ listed), balance]

end

section

variable {own rate other : Name} (known : [own, rate, other] ⊆ words) {initial : Equation α} {r : ℝ}
  (amounts : (initial.mapNames Name.canonical).Amounts level r) (starts : level own = r)
  (lasts : (time.mapNames Name.canonical).Amounts level t) (nonzero : t ≠ 0)
include known amounts starts lasts nonzero

/-- What follows a target rests at it. -/
theorem balances_follower (rests : level rate = 0) (same : level other = level own) :
    ∀ definition ∈ [stock own initial [rate] [], flow rate (approach other own time)],
      Balances level definition := by
  simp only [List.cons_subset, List.nil_subset, and_true] at known
  obtain ⟨isOwn, isRate, isTarget⟩ := known
  simp only [List.forall_mem_cons]
  refine ⟨balances_stock isOwn amounts starts ?_ ?_, ?_, List.forall_mem_nil _⟩
  · simpa using isRate
  · simpa using rests
  · exact balances_flow isRate (amounts_approach isTarget isOwn same lasts nonzero) rests

/-- A stage rests where it drains as fast as it fills. -/
theorem balances_stage (passes : level other = level rate) (drains : level rate = level own / t) :
    ∀ definition ∈ [stock own initial [other] [rate], flow rate (dividedBy (.reference own) time)],
      Balances level definition := by
  simp only [List.cons_subset, List.nil_subset, and_true] at known
  obtain ⟨isOwn, isRate, isInflow⟩ := known
  simp only [List.forall_mem_cons]
  refine ⟨balances_stock isOwn amounts starts ?_ ?_, ?_, List.forall_mem_nil _⟩
  · simp [isInflow, isRate]
  · simpa using passes
  · exact balances_flow isRate ((amounts_word isOwn).dividedBy lasts nonzero) drains

end

theorem balances_withInputs {function : Stateful} {initialValue : Equation α}
    {others : List (Document.Variable α)} {r : ℝ}
    (initially : (initialValue.mapNames Name.canonical).Amounts level r) (same : level "initial_value" = r)
    (each : ∀ definition ∈ others, Balances level definition) {definition : Document.Variable α}
    (listed : definition ∈ (withInputs function initialValue others).definitions)
    (free : definition.name ∉ ["input", "delay_time"]) : Balances level definition := by
  rcases listed with _ | ⟨_, _ | ⟨_, _ | ⟨_, listed⟩⟩⟩
  · exact absurd List.mem_cons_self free
  · exact absurd (List.mem_cons_of_mem _ List.mem_cons_self) free
  · exact balances_auxiliary (by decide) initially same
  · exact each definition listed

end

section

variable {input time : ℝ} (nonzero : time ≠ 0) {definition : Document.Variable α}
  (free : definition.name ∉ ["input", "delay_time"])
include nonzero free

theorem balances_smooth1 (listed : definition ∈ (smooth1 : Document.Model α).definitions) :
    Balances (level input time .smooth1) definition := by
  refine balances_withInputs amounts_input (by simp [level]) ?_ listed free
  refine balances_follower (by decide) amounts_initialValue ?_ amounts_delayTime ?_ ?_ ?_ <;>
    simp [level, nonzero]

theorem balances_smooth3 (listed : definition ∈ (smooth3 : Document.Model α).definitions) :
    Balances (level input time .smooth3) definition := by
  have stage : ∀ {own rate target : Name}, [own, rate, target] ⊆ words →
      level input time .smooth3 own = input → level input time .smooth3 rate = 0 →
      level input time .smooth3 target = input →
      ∀ definition ∈ [stock own (.reference "initial_value") [rate] [],
        flow rate (approach target own (stageTime : Equation α))],
          Balances (level input time .smooth3) definition := by
    intro own rate target known rests empty follows
    refine balances_follower known amounts_initialValue ?_ amounts_stageTime ?_ empty
      (follows.trans rests.symm)
    · rw [rests]
      simp [level]
    · simpa [level]
  have first := stage (by decide : ["stock_1", "flow_1", "input"] ⊆ words) (by simp [level])
    (by simp [level]) (by simp [level])
  have second := stage (by decide : ["stock_2", "flow_2", "stock_1"] ⊆ words) (by simp [level])
    (by simp [level]) (by simp [level])
  have last := stage (by decide : ["output", "flow_3", "stock_2"] ⊆ words) (by simp [level])
    (by simp [level]) (by simp [level])
  refine balances_withInputs amounts_input (by simp [level]) ?_ listed free
  simp only [List.forall_mem_cons] at first second last ⊢
  exact ⟨first.1, second.1, last.1, first.2.1, second.2.1, last.2⟩

theorem balances_delay1 (listed : definition ∈ (delay1 : Document.Model α).definitions) :
    Balances (level input time .delay1) definition := by
  refine balances_withInputs amounts_input (by simp [level]) ?_ listed free
  refine balances_stage (by decide) (amounts_initialValue.times amounts_delayTime) ?_
    amounts_delayTime ?_ ?_ ?_ <;> simp [level, nonzero]

theorem balances_delay3 (listed : definition ∈ (delay3 : Document.Model α).definitions) :
    Balances (level input time .delay3) definition := by
  have stage : ∀ {own rate inflow : Name}, [own, rate, inflow] ⊆ words →
      level input time .delay3 own = input * (time / 3) → level input time .delay3 rate = input →
      level input time .delay3 inflow = input →
      ∀ definition ∈ [stock own (times (.reference "initial_value") stageTime) [inflow] [rate],
        flow rate (dividedBy (.reference own) (stageTime : Equation α))],
          Balances (level input time .delay3) definition := by
    intro own rate inflow known rests drains fills
    refine balances_stage known (amounts_initialValue.times amounts_stageTime) ?_ amounts_stageTime ?_
      (fills.trans drains.symm) ?_
    · rw [rests]
      simp [level]
    · simpa [level]
    · rw [rests, drains]
      simp [level, nonzero]
  have first := stage (by decide : ["stock_1", "flow_1", "input"] ⊆ words) (by simp [level])
    (by simp [level]) (by simp [level])
  have second := stage (by decide : ["stock_2", "flow_2", "flow_1"] ⊆ words) (by simp [level])
    (by simp [level]) (by simp [level])
  have last := stage (by decide : ["stock_3", "output", "flow_2"] ⊆ words) (by simp [level])
    (by simp [level]) (by simp [level])
  refine balances_withInputs amounts_input (by simp [level]) ?_ listed free
  simp only [List.forall_mem_cons] at first second last ⊢
  exact ⟨first.1, second.1, last.1, first.2.1, second.2.1, last.2⟩

theorem balances_trend [Scalar.Discerns α] (listed : definition ∈ (trend : Document.Model α).definitions) :
    Balances (level input time .trend) definition := by
  -- without an initial value the average starts from the input
  have grows : ((Equation.binary .add (.natural 1) (times (.reference "initial_value")
      (.reference "delay_time")) : Equation α).mapNames Name.canonical).Amounts (level input time .trend) 1 :=
    ((Equation.Amounts.natural _ 1).plus (amounts_initialValue.times amounts_delayTime)).of_eq
      (by simp [level])
  have begins : ((dividedBy (.reference "input") (.binary .add (.natural 1) (times
      (.reference "initial_value") (.reference "delay_time"))) : Equation α).mapNames Name.canonical).Amounts
        (level input time .trend) input :=
    (amounts_input.dividedBy grows one_ne_zero).of_eq (by simp [level])
  have average := balances_follower (by decide : ["average", "change_in_average", "input"] ⊆ words)
    begins (by simp [level]) amounts_delayTime (by simpa [level]) (by simp [level]) (by simp [level])
  have output : ((Equation.call "safediv" [minus (.reference "input") (.reference "average"),
      times (.reference "average") (.reference "delay_time")] : Equation α).mapNames Name.canonical).Amounts
        (level input time .trend) 0 := by
    rw [Equation.mapNames, canonical_word (by decide : "safediv" ∈ words)]
    exact (amounts_input.minus (amounts_word (by decide))).safediv
      ((amounts_word (by decide)).times amounts_delayTime) (by simp [level])
  refine balances_withInputs (.natural _ 0) (by simp [level]) ?_ listed free
  simp only [List.forall_mem_cons] at average ⊢
  exact ⟨average.1, average.2.1, balances_auxiliary (by decide) output (by simp [level]),
    List.forall_mem_nil _⟩

end

variable {function : Stateful}

/-- But for what is fed to it, a library model is in balance at its levels. -/
theorem balances_model [Scalar.Discerns α] {input time : ℝ} (nonzero : time ≠ 0)
    {definition : Document.Variable α} (listed : definition ∈ (model function).definitions)
    (free : definition.name ∉ ["input", "delay_time"]) :
    Balances (level input time function) definition := by
  cases function with
  | smooth1 => exact balances_smooth1 nonzero free listed
  | smooth3 => exact balances_smooth3 nonzero free listed
  | delay1 => exact balances_delay1 nonzero free listed
  | delay3 => exact balances_delay3 nonzero free listed
  | trend => exact balances_trend nonzero free listed

/-! ## Names in library models -/

section

omit [Scalar.Exact α]

/-- The names that a definition reads. Only a table without an equation is read at the time. -/
def readNames : Document.Variable α → List Name
  | .stock definition =>
    definition.equation?.elim ["time"] Equation.references ++ (definition.inflows ++ definition.outflows)
  | .flow definition => definition.equation?.elim ["time"] Equation.references
  | .auxiliary definition => definition.equation?.elim ["time"] Equation.references
  | .module _ => []

theorem readNames_subset {definition : Document.Variable α}
    (listed : definition ∈ (model function).definitions) : readNames definition ⊆ names function := by
  revert definition
  cases function <;>
    simp [model, smooth1, smooth3, delay1, delay3, trend, withInputs, auxiliary, flow, stock, names, minus,
      times, dividedBy, approach, stageTime, Equation.natural, readNames, Equation.references,
      Equation.referencesAll]

theorem references_of_readEquation {name : Name} {equation? : Option (Equation α)} {text : String}
    {equation : Equation α} (read : Variable.readEquation name equation? text = .ok equation) :
    equation.references ⊆ (equation?.elim ["time"] Equation.references).map Name.canonical := by
  unfold Variable.readEquation at read
  split at read
  · cases read
    rw [Equation.references_mapNames]
    exact List.Subset.refl _
  · dsimp only at read
    split at read
    · cases read
      exact List.nil_subset _
    · split at read <;> cases read

theorem references_of_readFormula {name : Name} {equation? : Option (Equation α)} {text : String}
    {table? : Option (Table α)} {equation : Equation α}
    (read : Variable.readFormula name equation? text table? = .ok equation) :
    equation.references ⊆ (equation?.elim ["time"] Equation.references).map Name.canonical := by
  unfold Variable.readFormula at read
  split at read
  · rename_i blank
    cases read
    have time : Name.canonical "time" = "time" := by decide
    cases equation? with
    | none => simp [Equation.references, time]
    | some => simp at blank
  · exact references_of_readEquation read

theorem readNames_of_ofDefinition {definition : Document.Variable α} {v : Variable α}
    (checked : Variable.ofDefinition definition = .ok v) :
    v.readNames ⊆ (readNames definition).map Name.canonical := by
  cases definition with
  | module definition =>
    obtain ⟨_, -, checked⟩ := bind_eq_ok.mp checked
    obtain rfl := pure_eq_ok.mp checked
    exact List.nil_subset _
  | stock definition =>
    obtain ⟨equation, read, checked⟩ := bind_eq_ok.mp checked
    obtain rfl := pure_eq_ok.mp checked
    rw [readNames, List.map_append, List.map_append]
    exact List.append_subset.mpr ⟨List.subset_append_of_subset_left _ (references_of_readEquation read),
      List.subset_append_right ..⟩
  | flow definition | auxiliary definition =>
    obtain ⟨equation, read, checked⟩ := bind_eq_ok.mp checked
    obtain rfl := pure_eq_ok.mp checked
    rw [readNames, Variable.readNames, Variable.flows, List.append_nil]
    exact references_of_readFormula read

theorem hasOwn_of_mem_names {model : Model α} (built : Model.build (Library.model function) true = .ok model)
    {name : Name} (listed : name ∈ names function) : model.HasOwn name := by
  have plain : ∀ name ∈ words, ¬ Path.IsDotted name ∧ (name ≠ "safediv" → isReserved name = false) := by
    decide
  obtain ⟨undotted, unreserved⟩ := plain name (mem_words listed)
  refine ⟨undotted, unreserved ?_, exists_variable built listed⟩
  rintro rfl
  revert listed
  cases function <;> decide

end

/-- An instance of a library model rests at its levels if it is fed with numbers that are held, which are
assigned earlier at the start, and nothing else is connected to it. -/
theorem holds_level [Scalar.Discerns α] {project : Project α} {plan : Plan α}
    (consistent : project.Consistent) (planned : Plan.ofProject project = .ok plan) {path : List Name}
    {node : Coded α} {inner : LinkedModel α} (leads : plan.root.descend? path = some node)
    (found : project.find? node.model = some inner)
    (built : Model.build (Library.model function) true = .ok inner.toModel) {input time : ℝ}
    (nonzero : time ≠ 0)
    (free : ∀ name, name ∉ ["input", "delay_time"] → node.note.inputs.get? name = none)
    (fed : ∀ name ∈ ["input", "delay_time"], ∃ before, node.note.inputs.get? name = some (some before) ∧
      plan.Holds before (level input time function name) ∧ ∀ slot, node.slots.get? name = some slot →
        [before, slot].Sublist (written (plan.program .initials)))
    {name : Name} (listed : name ∈ names function) : ∃ slot, node.slots.get? name = some slot ∧
      plan.Holds slot (level input time function name) := by
  have defined := fun v => Model.definition_of_build (v := v) built (isBasic_model function)
  obtain ⟨v, member, rfl, part⟩ := exists_variable built listed
  obtain ⟨slot, here⟩ := Plan.exists_get? consistent planned leads found member part
  refine ⟨slot, here, Plan.holds_of_balances consistent planned leads found
    (level input time function) ?_ ?_ ?_ member part here⟩
  · intro w inside name reads
    obtain ⟨definition, among, checked⟩ := defined w inside
    obtain ⟨word, known, rfl⟩ := List.mem_map.mp (readNames_of_ofDefinition checked reads)
    have known := readNames_subset among known
    rw [canonical_word (mem_words known)]
    exact hasOwn_of_mem_names built known
  · intro w inside unconnected
    obtain ⟨definition, among, checked⟩ := defined w inside
    refine balances_model nonzero among (fun isFed => ?_) w checked
    obtain ⟨before, connected, -⟩ := fed _ isFed
    have within : ["input", "delay_time"] ⊆ words := by decide
    rw [Variable.name_of_ofDefinition checked, canonical_word (within isFed), connected] at unconnected
    cases unconnected
  · intro w inside source slot connected own
    have isFed : w.name ∈ ["input", "delay_time"] := by
      by_contra other
      cases (free w.name other).symm.trans connected
    obtain ⟨before, wired, holds, earlier⟩ := fed w.name isFed
    exact ⟨before, Option.some.inj (connected.symm.trans wired), holds, earlier slot own⟩

end Library
end StockFlow
