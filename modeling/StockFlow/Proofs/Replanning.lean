import StockFlow.Proofs.Planning
import StockFlow.Proofs.Rerouting
import StockFlow.Proofs.Schedule

/-!
# Plans with a detour

A project with a detour is laid out like the project without it, but for the slot of the variable that
the detour leads through. Whether code can be made of an instance depends on its model and on which of
its variables are inputs, so there is a plan with the detour exactly if there is one without.
-/

namespace StockFlow

variable {α : Type}

/-! ## Wires -/

namespace Keyed

variable {β γ : Type} {related : β → γ → Prop}

/-- Whether related values are kept under the same names. -/
def Rel (related : β → γ → Prop) : Keyed β → Keyed γ → Prop :=
  List.Forall₂ fun entry other => other.1 = entry.1 ∧ related entry.2 other.2

theorem Rel.put {name : Name} {value : β} {value' : γ} (one : related value value') {kept : Keyed β}
    {kept' : Keyed γ} (each : Rel related kept kept') :
    Rel related (kept.put name value) (kept'.put name value') := by
  induction each with
  | nil => exact .cons ⟨rfl, one⟩ .nil
  | @cons first first' _ _ here rest ih =>
    obtain ⟨key, value⟩ := first
    obtain ⟨key', value'⟩ := first'
    obtain ⟨rfl, both⟩ := here
    simp only [Keyed.put]
    split
    · exact .cons ⟨rfl, one⟩ rest
    · split
      · exact .cons ⟨rfl, one⟩ (.cons ⟨rfl, both⟩ rest)
      · exact .cons ⟨rfl, both⟩ ih

theorem rel_ofList {entries : List (Name × β)} {others : List (Name × γ)}
    (each : Rel related entries others) : Rel related (ofList entries) (ofList others) := by
  have start : Rel related ([] : Keyed β) ([] : Keyed γ) := .nil
  unfold ofList
  generalize ([] : Keyed β) = kept, ([] : Keyed γ) = kept' at start
  induction each generalizing kept kept' with
  | nil => exact start
  | cons here _ ih =>
    simp only [List.foldl_cons, here.1]
    exact ih _ _ (start.put here.2)

theorem Rel.get? {kept : Keyed β} {kept' : Keyed γ} (each : Rel related kept kept') (name : Name) :
    Option.Rel related (kept.get? name) (kept'.get? name) := by
  unfold Keyed.get?
  induction each with
  | nil => exact .none
  | @cons first first' _ _ here rest ih =>
    obtain ⟨key, value⟩ := first
    obtain ⟨key', value'⟩ := first'
    obtain ⟨rfl, both⟩ := here
    simp only [List.lookup_cons]
    split
    · exact .some both
    · exact ih

end Keyed

/-- Whether a symbol is another one or goes a detour in its place. -/
def Path.Diverts (source via : Name) (symbol other : Path) : Prop :=
  other = symbol ∨ symbol = source ∧ other = via

theorem Module.Diverts.wires {source via : Name} {module next : Module}
    (diverts : module.Diverts source via next) :
    Keyed.Rel (Path.Diverts source via) (Model.wires module) (Model.wires next) := by
  apply Keyed.rel_ofList
  unfold Keyed.Rel
  rw [List.forall₂_map_left_iff, List.forall₂_map_right_iff]
  refine diverts.inputs.imp fun input input' both => ⟨both.target, ?_⟩
  rcases both.sources with same | ⟨plain, plain'⟩
  · exact .inl (congrArg Source.symbol same)
  · exact .inr ⟨congrArg Source.symbol plain, congrArg Source.symbol plain'⟩

/-! ## Code -/

/-- Whether code can be made of a variable, connected or not. -/
def Variable.IsCodable (connected : Bool) (v : Variable α) : Prop :=
  if connected then v.isModule = false
  else ∀ equation, v.equation? = some equation → equation.IsAdmissible

section

variable [Scalar α]

theorem Site.Codes.isCodable {site : Site α} {first : Nat} {v : Variable α} {phase : Phase}
    {part : List (Instruction α)} (codes : site.Codes phase v part) (early : phase = .initials)
    (distinct : Distinct Variable.name site.model.vars) (member : v ∈ site.model.vars)
    (slots : site.wired.slots = Layout.slotsFrom first site.model.vars) :
    v.IsCodable (site.inputs.get? v.name).isSome := by
  unfold Variable.IsCodable
  cases codes with
  | input _ connected own =>
    rw [connected, Option.isSome_some, if_pos rfl]
    rw [slots] at own
    obtain ⟨w, inside, plain, named⟩ := Layout.exists_of_get?_slotsFrom own
    exact distinct.eq_of_name_eq inside member named ▸ plain
  | settled | kept | update => cases early
  | @enter _ module unconnected =>
    have absent : site.inputs.get? (Variable.module (α := α) module).name = none := unconnected
    rw [absent]
    nofun
  | @initial stock _ _ unconnected _ lowered =>
    have absent : site.inputs.get? (Variable.stock stock).name = none := unconnected
    rw [absent]
    rintro _ ⟨⟩
    exact (site.scope stock.name).exists_lower_iff.mp ⟨_, lowered⟩
  | @formula _ formula _ _ unconnected _ lowered =>
    have absent : site.inputs.get? (Variable.formula formula).name = none := unconnected
    rw [absent]
    rintro _ ⟨⟩
    exact (site.scope formula.name).exists_formulaTerm_iff.mp ⟨_, lowered⟩

theorem Site.exists_code_iff {site : Site α} {linked : List (LinkedModel α)} {first : Nat}
    (links : LinkedModel.Links linked site.model.toModel site.model)
    (distinct : Distinct Variable.name site.model.vars)
    (slots : site.wired.slots = Layout.slotsFrom first site.model.vars) :
    (∃ code, site.code = .ok code) ↔
      ∀ v ∈ site.model.vars, v.IsCodable (site.inputs.get? v.name).isSome := by
  constructor
  · rintro ⟨code, coded⟩ v member
    obtain ⟨parts, each, -⟩ := Site.phaseCode_eq_ok (Site.phaseCode_of_code coded .initials)
    have perm := (Order.sort_follows (Dependencies.closed_of_closure (links.closure .start))
      (Dependencies.loopless_of_closure (links.closure .start)) distinct).1
    have listed : v ∈ (site.schedule .initials).filterMap site.model.find? :=
      List.mem_filterMap.mpr ⟨v.name, perm.mem_iff.mpr (List.mem_map_of_mem member),
        findNamed_of_mem distinct member⟩
    obtain ⟨part, -, made⟩ := exists_right_of_mem each listed
    exact (Site.variableCode_eq_ok.mp made).isCodable rfl distinct member slots
  · intro codable
    refine site.exists_code (fun v member own => ?_) (fun v member connected => ?_)
      fun v member unconnected => ?_
    · rw [slots]
      exact Layout.exists_get?_slotsFrom member own
    · have here := codable v member
      unfold Variable.IsCodable at here
      rwa [if_pos connected] at here
    · have here := codable v member
      unfold Variable.IsCodable at here
      rwa [unconnected] at here

end

namespace Detour

variable {detour : Detour} {project other : Project α}

theorem Turns.codable_iff {model other : Model α} (turns : detour.Turns model other)
    (connected : Name → Bool) : (∀ v ∈ model.vars, v.IsCodable (connected v.name)) ↔
      ∀ v ∈ other.vars, v.IsCodable (connected v.name) := by
  cases turns with
  | same => rfl
  | main leads =>
    have same : ∀ v ∈ model.vars, ∀ b, (detour.turn v).IsCodable b ↔ v.IsCodable b := by
      intro v member b
      unfold turn
      split
      · rename_i here
        rw [leads.eq_straight member here]
        rfl
      · rfl
    constructor
    · intro codable v member
      rcases (leads.mem v).mp member with rfl | ⟨w, inside, rfl⟩
      · unfold Variable.IsCodable
        split
        · rfl
        · rintro _ ⟨⟩
          simp [formula, Equation.IsAdmissible, Equation.calls]
      · rw [same w inside, name_turn]
        exact codable w inside
    · intro codable v member
      have turned := codable (detour.turn v) ((leads.mem _).mpr (.inr ⟨v, member, rfl⟩))
      rwa [same v member, name_turn] at turned

/-! ## Layouts -/

/-- Whether a layout is that of the same tree, each model with the detour if it is the main model. -/
inductive Beside (detour : Detour) (project other : Project α) : Layout → Layout → Prop
  | intro {node next : Layout} {model model' : LinkedModel α} {first first' : Nat}
    (found : project.find? node.model = some model) (found' : other.find? next.model = some model')
    (turns : detour.Turns model.toModel model'.toModel)
    (slots : node.slots = Layout.slotsFrom first model.vars)
    (slots' : next.slots = Layout.slotsFrom first' model'.vars)
    (wires : Keyed.Rel (Path.Diverts detour.source detour.via) node.note next.note)
    (length : node.children.length = next.children.length)
    (children : ∀ pair ∈ node.children.zip next.children,
      Beside detour project other pair.1 pair.2) : Beside detour project other node next

end Detour

theorem Layout.agree_placeAll {place place' : Module → Nat → Except Fault Layout}
    {related : Module → Module → Prop} (beside : Layout → Layout → Prop) {modules nexts : List Module}
    (each : List.Forall₂ related modules nexts)
    (placed : ∀ module next shift shift', related module next →
      Agree beside (place module shift) (place' next shift')) (shift shift' : Nat) :
    Agree (List.Forall₂ beside) (placeAll place modules shift) (placeAll place' nexts shift') := by
  induction each generalizing shift shift' with
  | nil => exact .ok .nil
  | cons first _ ih =>
    rw [placeAll, placeAll]
    apply (placed _ _ _ _ first).bind
    intro node next one
    apply (ih _ _).bind
    intro others others' rest
    exact .ok (.cons one rest)

theorem Layout.isSome_get?_wire (root above : Layout) (wires : Keyed Path) (name : Name) :
    ((wire root above wires).get? name).isSome = (wires.get? name).isSome := by
  let leads (_ : Name) (symbol : Path) : Option Nat :=
    (if Path.isMarked symbol then root else above).slot? symbol
  show (Keyed.get? (wires.map fun entry => (entry.1, leads entry.1 entry.2)) name).isSome = _
  rw [Keyed.get?_map, Option.isSome_map]

namespace Detour

variable {detour : Detour} {project other : Project α}

theorem Reroutes.agree_place (reroutes : detour.Reroutes project other) (depth : Nat)
    {reserved reserved' shift shift' : Nat} {name name' : Name} {model model' : LinkedModel α}
    {wires wires' : Keyed Path} (found : project.find? model.name = some model)
    (found' : other.find? model'.name = some model')
    (turns : detour.Turns model.toModel model'.toModel)
    (diverts : Keyed.Rel (Path.Diverts detour.source detour.via) wires wires') :
    Agree (detour.Beside project other) (Layout.place project depth reserved shift name model wires)
      (Layout.place other depth reserved' shift' name' model' wires') := by
  induction depth generalizing reserved reserved' shift shift' name name' model model' wires wires' with
  | zero => exact .error
  | succ depth ih =>
    unfold Layout.place
    refine (Layout.agree_placeAll (detour.Beside project other) turns.modules ?_ _ _).bind ?_
    · intro module next shift shift' diverts
      have both := reroutes.rel_find? module.model
      rw [diverts.model]
      generalize here : project.find? module.model = inner,
        here' : other.find? module.model = inner' at both
      cases both with
      | none => exact .error
      | some turns =>
        refine ih ?_ ?_ turns diverts.wires
        · rwa [LinkedModel.name_of_named? here]
        · rwa [LinkedModel.name_of_named? here']
    · intro children children' below
      obtain ⟨length, each⟩ := List.forall₂_iff_zip.mp below
      exact .ok (.intro found found' turns rfl rfl diverts length fun _ member => each member)

variable [Scalar α]

theorem Beside.agree_ofWired (consistent : project.Consistent) (consistent' : other.Consistent)
    {node next : Layout} (beside : detour.Beside project other node next)
    (root root' above above' : Layout) (clock clock' : Clock α) :
    Agree (fun _ _ => True) (Coded.ofWired project clock (Layout.wiredBelow root above node))
      (Coded.ofWired other clock' (Layout.wiredBelow root' above' next)) := by
  induction beside generalizing above above' with
  | @intro node next model model' _ _ found found' turns slots slots' wires length _ ih =>
    rw [Layout.wiredBelow_eq, Layout.wiredBelow_eq, Coded.ofWired, Coded.ofWired, found, found',
      Coded.allOfWired_eq_mapM, Coded.allOfWired_eq_mapM, Layout.allWiredBelow_eq_map,
      Layout.allWiredBelow_eq_map]
    have below : List.Forall₂ (fun wired wired' : Wired => Agree (fun _ _ => True)
          (Coded.ofWired project clock wired) (Coded.ofWired other clock' wired'))
        (node.children.map (Layout.wiredBelow root node))
        (next.children.map (Layout.wiredBelow root' next)) := by
      rw [List.forall₂_map_left_iff, List.forall₂_map_right_iff, List.forall₂_iff_zip]
      exact ⟨length, fun member => ih _ member node next⟩
    apply (Agree.mapM below fun _ _ one => one).bind
    intro _ _ _
    obtain ⟨linked, links, -⟩ := consistent.linked found
    obtain ⟨linked', links', -⟩ := consistent'.linked found'
    -- whether a variable is an input does not depend on where its source leads
    have inputs : ∀ name, ((Layout.wire root' above' next.note).get? name).isSome =
        ((Layout.wire root above node.note).get? name).isSome := by
      intro name
      rw [Layout.isSome_get?_wire, Layout.isSome_get?_wire]
      have both := wires.get? name
      generalize node.note.get? name = symbol, next.note.get? name = symbol' at both
      cases both <;> rfl
    have code : Agree (fun _ _ => True)
        (Site.code ⟨⟨node.name, node.model, node.shift, node.size, node.slots,
          Layout.wire root above node.note, node.children.map (Layout.wiredBelow root node)⟩, model, clock⟩)
        (Site.code ⟨⟨next.name, next.model, next.shift, next.size, next.slots,
          Layout.wire root' above' next.note, next.children.map (Layout.wiredBelow root' next)⟩, model',
            clock'⟩) := by
      refine .of_exists_iff ?_ fun _ _ _ _ => trivial
      rw [Site.exists_code_iff links (consistent.distinct found) slots,
        Site.exists_code_iff links' (consistent'.distinct found') slots']
      simp only [Site.inputs, inputs]
      exact turns.codable_iff fun name => ((Layout.wire root above node.note).get? name).isSome
    exact code.bind fun _ _ _ => .ok trivial

omit [Scalar α] in
theorem Reroutes.runSpec_eq (reroutes : detour.Reroutes project other) :
    other.runSpec = project.runSpec := by
  have both := reroutes.rel_find? mainModel
  unfold Project.runSpec Project.main?
  generalize project.find? mainModel = main, other.find? mainModel = main' at both
  rw [reroutes.timeSpec]
  cases both with
  | none => rfl
  | some turns => exact congrArg (Option.getD · project.timeSpec) turns.timeSpec?_eq

/-- There is a plan with the detour exactly if there is one without. -/
theorem Reroutes.agree_ofProject (reroutes : detour.Reroutes project other)
    (consistent : project.Consistent) (consistent' : other.Consistent) :
    Agree (fun _ _ => True) (Plan.ofProject project) (Plan.ofProject other) := by
  have both := reroutes.rel_find? mainModel
  unfold Plan.ofProject Project.main?
  rw [reroutes.runSpec_eq]
  generalize isMain : project.find? mainModel = main, isMain' : other.find? mainModel = main' at both
  cases both with
  | none => exact .error
  | @some main main' turns =>
    have found : project.find? main.name = some main := by
      rwa [LinkedModel.name_of_named? isMain]
    have found' : other.find? main'.name = some main' := by
      rwa [LinkedModel.name_of_named? isMain']
    apply Agree.bind_same
    intro _ _
    unfold Layout.ofProject
    rw [← reroutes.models.length_eq]
    apply (reroutes.agree_place _ found found' turns .nil).bind
    intro layout layout' beside
    apply (beside.agree_ofWired consistent consistent' _ _ _ _ _ _).bind
    exact fun _ _ _ => .ok trivial

end Detour

end StockFlow
