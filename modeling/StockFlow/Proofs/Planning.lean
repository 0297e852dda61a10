import StockFlow.Proofs.Building
import StockFlow.Proofs.Construction

/-!
# Plans of one model

The code of an instance can be made if all its variables have slots and the equations of those that
are no inputs have terms. A main model without modules is laid out in one block, so its equations
alone decide whether there is a plan.
-/

namespace StockFlow

variable {α : Type} [Scalar α]

namespace Site

variable {site : Site α} {v : Variable α} {phase : Phase}

theorem exists_variableCode
    (own : v.isModule = false → ∃ slot, site.wired.slots.get? v.name = some slot)
    (connected : (site.inputs.get? v.name).isSome = true → v.isModule = false)
    (admissible : site.inputs.get? v.name = none →
      ∀ equation, v.equation? = some equation → equation.IsAdmissible) :
    ∃ part, site.variableCode v phase = .ok part := by
  simp only [variableCode_eq_ok]
  cases isInput : site.inputs.get? v.name with
  | some source =>
    obtain ⟨slot, here⟩ := own (connected (by rw [isInput]; rfl))
    cases phase with
    | initials | flows => exact ⟨_, .input nofun isInput here⟩
    | stocks => exact ⟨_, .settled isInput⟩
  | none =>
    cases v with
    | module => exact ⟨_, .enter isInput⟩
    | stock stock =>
      obtain ⟨slot, here⟩ := own rfl
      obtain ⟨term, lowered⟩ := (site.scope stock.name).exists_lower_iff.mpr
        (admissible isInput stock.initial rfl)
      cases phase with
      | initials => exact ⟨_, .initial isInput here lowered⟩
      | flows => exact ⟨_, .kept isInput here⟩
      | stocks => exact ⟨_, .update isInput here⟩
    | formula formula =>
      obtain ⟨slot, here⟩ := own rfl
      obtain ⟨term, lowered⟩ := (site.scope formula.name).exists_formulaTerm_iff.mpr
        (admissible isInput formula.equation rfl)
      exact ⟨_, .formula isInput here lowered⟩

variable (site) in
theorem exists_code
    (own : ∀ v ∈ site.model.vars, v.isModule = false →
      ∃ slot, site.wired.slots.get? v.name = some slot)
    (connected : ∀ v ∈ site.model.vars, (site.inputs.get? v.name).isSome = true → v.isModule = false)
    (admissible : ∀ v ∈ site.model.vars, site.inputs.get? v.name = none →
      ∀ equation, v.equation? = some equation → equation.IsAdmissible) :
    ∃ code, site.code = .ok code := by
  have each : ∀ phase, ∃ code, site.phaseCode phase = .ok code := by
    intro phase
    refine exists_bind_eq_ok.mpr ((exists_mapM fun v listed => ?_).imp fun _ done => ⟨done, _, rfl⟩)
    obtain ⟨_, -, found⟩ := List.mem_filterMap.mp listed
    have member : v ∈ site.model.vars := mem_of_findNamed found
    exact exists_variableCode (own v member) (connected v member) (admissible v member)
  obtain ⟨initials, first⟩ := each .initials
  obtain ⟨flows, second⟩ := each .flows
  obtain ⟨stocks, third⟩ := each .stocks
  exact ⟨_, bind_eq_ok.mpr ⟨initials, first, bind_eq_ok.mpr ⟨flows, second,
    bind_eq_ok.mpr ⟨stocks, third, rfl⟩⟩⟩⟩

end Site

namespace Plan

/-- A project can be run if its times can, its main model instantiates nothing, and all calls in the
equations of that model may be made. -/
theorem exists_ofProject {project : Project α} {main : LinkedModel α}
    (isMain : project.main? = some main) (spec : project.runSpec.validate = .ok ())
    (plain : main.modules = [])
    (admissible : ∀ v ∈ main.vars, ∀ equation, v.equation? = some equation → equation.IsAdmissible) :
    ∃ plan, ofProject project = .ok plan ∧ plan.clock = Clock.ofSpec project.runSpec := by
  let slots := Layout.slotsFrom 1 main.vars
  let layout : Layout := ⟨mainModel, main.name, 0, 1 + slots.length + 0, slots, [], []⟩
  have placed : Layout.ofProject project main = .ok layout := by
    rw [Layout.ofProject, Layout.place, plain]
    rfl
  have found : project.find? main.name = some main := by
    rw [LinkedModel.name_of_named? isMain]
    exact isMain
  let wired : Wired := ⟨mainModel, main.name, 0, 1 + slots.length + 0, slots, [], []⟩
  let site : Site α := ⟨wired, main, Clock.ofSpec project.runSpec⟩
  obtain ⟨code, coded⟩ := site.exists_code
    (fun v member own => Layout.exists_get?_slotsFrom member own)
    (fun _ _ connected => by cases connected) (fun v member _ => admissible v member)
  let root : Coded α := ⟨mainModel, main.name, 0, 1 + slots.length + 0, slots, code, []⟩
  have made : Coded.ofWired project (Clock.ofSpec project.runSpec) layout.wired = .ok root := by
    have same : layout.wired = wired := rfl
    rw [same, Coded.ofWired]
    refine bind_eq_ok.mpr ⟨[], rfl, ?_⟩
    rw [found]
    exact bind_eq_ok.mpr ⟨code, coded, rfl⟩
  refine ⟨ofRoot root (Clock.ofSpec project.runSpec), ?_, rfl⟩
  rw [ofProject, isMain]
  exact bind_eq_ok.mpr ⟨(), spec, bind_eq_ok.mpr ⟨layout, placed, bind_eq_ok.mpr ⟨root, made, rfl⟩⟩⟩

end Plan

end StockFlow
