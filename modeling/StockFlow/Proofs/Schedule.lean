import StockFlow.Proofs.Reading

/-!
# Schedules

In each phase before the stocks an instance takes the variables that are due, every one behind those
due ones that it depends on, and makes the assignments of each at one go: those of a module are its
whole program.
-/

namespace StockFlow

variable {α : Type}

/-- The moment whose dependencies give the order of a phase. -/
def Phase.moment : Phase → Moment
  | .initials => .start
  | .flows => .step
  | .stocks => .step

namespace Variable

/-- Whether a variable that is no input keeps its value during a step: a stock, or a constant without
a table. -/
def isHeld : Variable α → Bool
  | stock _ => true
  | formula f => f.table?.isNone && f.equation.isConstant
  | module _ => false

/-- Whether a variable beside some inputs is computed in a phase before the stocks. -/
def isDue (inputs : Keyed (Option Nat)) (phase : Phase) (v : Variable α) : Bool :=
  phase = .initials || (inputs.get? v.name).isSome || !v.isHeld

end Variable

namespace Site

variable [Scalar α] {site : Site α} {phase : Phase}

omit [Scalar α] in
theorem schedule_eq (early : phase ≠ .stocks) : site.schedule phase =
    Order.sort (site.model.dependencies phase.moment)
      ((site.model.vars.filter (Variable.isDue site.inputs phase)).map Variable.name) := by
  cases phase with
  | initials =>
    have all : site.model.vars.filter (Variable.isDue site.inputs .initials) = site.model.vars :=
      List.filter_eq_self.mpr fun _ _ => rfl
    rw [all]
    rfl
  | flows =>
    have same : ∀ v ∈ site.model.vars, site.isFlowing v = Variable.isDue site.inputs .flows v := by
      intro v _
      unfold isFlowing isInput Variable.isDue
      cases v <;> simp [Variable.isHeld, ← Option.not_isSome, Bool.not_and]
    rw [← List.filter_congr same]
    rfl
  | stocks => exact absurd rfl early

theorem phaseCode_eq_ok {code : List (Instruction α)} (coded : site.phaseCode phase = .ok code) :
    ∃ parts, List.Forall₂ (fun v part => site.variableCode v phase = .ok part)
      ((site.schedule phase).filterMap site.model.find?) parts ∧ code = parts.flatten := by
  simp only [phaseCode, bind_eq_ok, pure_eq_ok, mapM_eq_ok] at coded
  obtain ⟨parts, each, rfl⟩ := coded
  exact ⟨parts, each, rfl⟩

theorem phaseCode_of_code {code : Code α} (coded : site.code = .ok code) (phase : Phase) :
    site.phaseCode phase = .ok (code.phase phase) := by
  simp only [Site.code, bind_eq_ok, pure_eq_ok] at coded
  obtain ⟨_, initials, _, flows, _, stocks, rfl⟩ := coded
  cases phase <;> assumption

end Site

/-! ## Programs of instances -/

namespace Coded

theorem unfold_append (modules : Keyed (List (Assignment α))) (first second : List (Instruction α)) :
    unfold modules (first ++ second) = unfold modules first ++ unfold modules second := by
  induction first with
  | nil => rfl
  | cons instruction rest ih => cases instruction <;> simp [unfold, ih]

theorem unfold_flatten (modules : Keyed (List (Assignment α))) (parts : List (List (Instruction α))) :
    unfold modules parts.flatten = parts.flatMap (unfold modules) := by
  induction parts with
  | nil => rfl
  | cons part rest ih => rw [List.flatten_cons, unfold_append, List.flatMap_cons, ih]

theorem programs_eq_map (phase : Phase) (children : List (Coded α)) :
    programs phase children = children.map fun child => (child.name, program phase child) := by
  induction children with
  | nil => rfl
  | cons first rest ih => rw [programs, List.map_cons, ih]

theorem program_eq (phase : Phase) (node : Coded α) :
    program phase node = unfold (programs phase node.children) (node.note.phase phase) := by
  cases node
  rw [program]

variable [Scalar α]

/-- What is assigned for a variable of an instance in a phase before the stocks. -/
inductive Computes (node : Coded α) (model : LinkedModel α) (clock : Clock α) (phase : Phase) :
    Variable α → List (Assignment α) → Prop
  | input {v : Variable α} {source : Option Nat} {slot : Nat}
    (connected : node.note.inputs.get? v.name = some source)
    (own : node.slots.get? v.name = some slot) :
    Computes node model clock phase v [⟨slot, Scope.loadSlot source⟩]
  | enter {module : Module} {child : Coded α}
    (unconnected : node.note.inputs.get? module.name = none)
    (found : node.child? module.name = some child) :
    Computes node model clock phase (.module module) (program phase child)
  | stock {stock : Stock α} {slot : Nat} {term : Term α} (start : phase = .initials)
    (unconnected : node.note.inputs.get? stock.name = none)
    (own : node.slots.get? stock.name = some slot)
    (lowered : (node.scope model clock stock.name).lower stock.initial = .ok term) :
    Computes node model clock phase (.stock stock) [⟨slot, term⟩]
  | formula {formula : Formula α} {slot : Nat} {term : Term α}
    (unconnected : node.note.inputs.get? formula.name = none)
    (own : node.slots.get? formula.name = some slot)
    (lowered : (node.scope model clock formula.name).formulaTerm formula = .ok term) :
    Computes node model clock phase (.formula formula) [⟨slot, term⟩]

/-- The order in which an instance takes its variables in a phase before the stocks. -/
structure Schedule (node : Coded α) (model : LinkedModel α) (phase : Phase)
    (vars : List (Variable α)) : Prop where
  mem : ∀ v, v ∈ vars ↔ v ∈ model.vars ∧ v.isDue node.note.inputs phase = true
  distinct : Distinct Variable.name vars
  follows : ∀ before v after, vars = before ++ v :: after →
    ∀ w ∈ vars, w.name ∈ Order.needs (model.dependencies phase.moment) v.name → w ∈ before

/-- The program of an instance in a phase before the stocks, variable by variable. -/
structure Runs (node : Coded α) (model : LinkedModel α) (clock : Clock α) (phase : Phase)
    (vars : List (Variable α)) (segment : Variable α → List (Assignment α)) : Prop where
  schedule : Schedule node model phase vars
  whole : program phase node = vars.flatMap segment
  computes : ∀ v ∈ vars, Computes node model clock phase v (segment v)

variable {project : Project α} {clock : Clock α} {root node : Coded α} {first : Nat}
  {model : LinkedModel α} {phase : Phase}

theorem computes_of_variableCode {wired : Wired} (same : wired.shape = node.shape)
    (inputs : wired.note = node.note.inputs) {v : Variable α} {part : List (Instruction α)}
    (early : phase ≠ .stocks) (due : v.isDue node.note.inputs phase = true)
    (children : ∀ module, v = .module module → ∃ child, node.child? module.name = some child)
    (coded : Site.variableCode ⟨wired, model, clock⟩ v phase = .ok part) :
    Computes node model clock phase v (unfold (programs phase node.children) part) := by
  have slots : wired.slots = node.slots := Instance.slots_eq_of_shape same
  have codes := Site.variableCode_eq_ok.mp coded
  cases codes with
  | input _ connected own => exact .input (inputs ▸ connected) (slots ▸ own)
  | settled => exact absurd rfl early
  | @enter _ module unconnected =>
    obtain ⟨child, found⟩ := children module rfl
    have program : (programs phase node.children).get? module.name = some (program phase child) := by
      rw [programs_eq_map, Keyed.get?_of_items]
      exact congrArg _ found
    simp only [unfold, program, Option.getD_some, List.append_nil]
    exact .enter (inputs ▸ unconnected) found
  | initial unconnected own lowered =>
    rw [scope_of_shape same] at lowered
    exact .stock rfl (inputs ▸ unconnected) (slots ▸ own) lowered
  | @kept stock _ unconnected =>
    have absent : node.note.inputs.get? (Variable.stock stock).name = none := inputs ▸ unconnected
    rw [Variable.isDue, absent] at due
    cases due
  | update => exact absurd rfl early
  | formula unconnected own lowered =>
    rw [scope_of_shape same] at lowered
    exact .formula (inputs ▸ unconnected) (slots ▸ own) lowered

omit [Scalar α] in
theorem names_filterMap_find? {model : Model α} {names : List Name}
    (known : ∀ name ∈ names, ∃ v ∈ model.vars, v.name = name) :
    (names.filterMap model.find?).map Variable.name = names := by
  induction names with
  | nil => rfl
  | cons name rest ih =>
    obtain ⟨here, others⟩ := List.forall_mem_cons.mp known
    obtain ⟨_, member, same⟩ := here
    obtain ⟨v, found⟩ := exists_findNamed member same
    have sought : model.find? name = some v := found
    have named : v.name = name := name_of_findNamed found
    rw [List.filterMap_cons, sought, List.map_cons, ih others, named]

omit [Scalar α] in
/-- The variables that are due, as sorting their names orders them. -/
theorem schedule_of_sort (node : Coded α) (phase : Phase) {linked : List (LinkedModel α)}
    (links : LinkedModel.Links linked model.toModel model)
    (distinct : Distinct Variable.name model.vars) :
    Schedule node model phase ((Order.sort (model.dependencies phase.moment)
      ((model.vars.filter (Variable.isDue node.note.inputs phase)).map Variable.name)).filterMap
        model.find?) := by
  have unique : ((model.vars.filter (Variable.isDue node.note.inputs phase)).map
      Variable.name).Nodup := distinct.sublist (List.filter_sublist.map _)
  obtain ⟨perm, follows⟩ := Order.sort_follows
    (Dependencies.closed_of_closure (links.closure phase.moment))
    (Dependencies.loopless_of_closure (links.closure phase.moment)) unique
  generalize Order.sort (model.dependencies phase.moment) _ = sorted at perm follows ⊢
  have due : ∀ name, name ∈ sorted ↔
      ∃ v ∈ model.vars, v.isDue node.note.inputs phase = true ∧ v.name = name := by
    intro name
    rw [perm.mem_iff]
    simp [and_assoc]
  -- all names that are sorted are declared, so none is lost on the way back to variables
  have names : (sorted.filterMap model.find?).map Variable.name = sorted := by
    refine names_filterMap_find? fun name member => ?_
    obtain ⟨v, declared, -, named⟩ := (due name).mp member
    exact ⟨v, declared, named⟩
  have listed : Distinct Variable.name (sorted.filterMap model.find?) := by
    rw [Distinct, names]
    exact perm.nodup_iff.mpr unique
  refine ⟨fun v => ⟨fun member => ?_, ?_⟩, listed, ?_⟩
  · obtain ⟨name, inside, found⟩ := List.mem_filterMap.mp member
    obtain ⟨w, declared, isDue, named⟩ := (due name).mp inside
    have same := distinct.eq_of_name_eq declared (mem_of_findNamed found)
      (named.trans (name_of_findNamed found).symm)
    exact same ▸ ⟨declared, isDue⟩
  · rintro ⟨declared, isDue⟩
    refine List.mem_filterMap.mpr ⟨v.name, (due v.name).mpr ⟨v, declared, isDue, rfl⟩, ?_⟩
    exact findNamed_of_mem distinct declared
  · intro before v after split w member needed
    have order : sorted = before.map Variable.name ++ v.name :: after.map Variable.name := by
      rw [← names, split, List.map_append, List.map_cons]
    have known : w.name ∈ sorted := names ▸ List.mem_map_of_mem member
    obtain ⟨u, earlier, same⟩ := List.mem_map.mp
      (follows _ _ _ order w.name needed (perm.mem_iff.mp known))
    have inside : u ∈ sorted.filterMap model.find? := by simp [split, earlier]
    exact listed.eq_of_name_eq inside member same ▸ earlier

/-- The program of an instance is what it computes for the variables that are due, in their order. -/
theorem Fits.runs (consistent : project.Consistent)
    (fits : Fits project clock root first model node) (early : phase ≠ .stocks) :
    ∃ vars segment, Runs node model clock phase vars segment := by
  obtain ⟨wired, same, coded⟩ := fits.code
  have inputs : wired.note = node.note.inputs := (inputs_of_code coded).symm
  obtain ⟨linked, links, -⟩ := consistent.linked fits.found
  obtain ⟨parts, each, flat⟩ := Site.phaseCode_eq_ok (Site.phaseCode_of_code coded phase)
  rw [Site.schedule_eq early, Site.inputs, inputs] at each
  have schedule := schedule_of_sort node phase links (consistent.distinct fits.found)
  dsimp only at each
  generalize (Order.sort _ _).filterMap model.find? = vars at each schedule
  obtain ⟨lines, listed, made⟩ := exists_map_of_forall₂ each
  refine ⟨vars, fun v => unfold (programs phase node.children) (lines v), schedule, ?_, ?_⟩
  · rw [Coded.program_eq, flat, unfold_flatten, listed, List.flatMap_map]
  · intro v member
    obtain ⟨declared, due⟩ := (schedule.mem v).mp member
    refine computes_of_variableCode same inputs early due ?_ (made v member)
    rintro module rfl
    obtain ⟨child, found, -⟩ := fits.exists_child? (Model.mem_modules.mpr declared)
    exact ⟨child, found⟩

end Coded
end StockFlow
