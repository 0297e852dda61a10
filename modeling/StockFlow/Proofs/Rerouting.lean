import StockFlow.Proofs.Detours
import StockFlow.Proofs.Linking

/-!
# Models with a detour

A main model with a detour has one variable more, the middle of the detour, and one module that reads
it. As no other variable and no other model mentions the middle, the models of a project link alike
with the detour and without it.
-/

namespace StockFlow

variable {α : Type}

/-! ## Names that are passed by -/

/-- Whether a path does not name a certain variable of a module's model. -/
def Path.PassesBy (name : Name) (path : Path) : Prop :=
  ∀ rest ∈ (Path.split path).2, Path.head rest ≠ name

instance {name : Name} {path : Path} : Decidable (Path.PassesBy name path) :=
  inferInstanceAs (Decidable (∀ _ ∈ _, _))

def Input.absolute? (input : Input) : Option Path :=
  match input.source with
  | .absolute path => some path
  | .relative _ => none

/-- Whether a variable does not reach for a variable of a certain name in the model of a module or in
the main model. -/
def Variable.Ignores (v : Variable α) (name : Name) : Prop :=
  (∀ path ∈ v.sources, Path.PassesBy name path) ∧
    ∀ module ∈ v.module?, ∀ input ∈ module.inputs, input.target ≠ name ∧
      ∀ path ∈ input.absolute?, path ≠ name ∧ Path.PassesBy name path

instance {v : Variable α} {name : Name} : Decidable (v.Ignores name) :=
  inferInstanceAs (Decidable (_ ∧ _))

namespace LinkedModel

/-- What is read inside a module at absolute paths, if its model has the targets of its inputs. -/
def readInside (inner : LinkedModel α) (module : Name) (targets : List Name) (paths : List Path) :
    Except Fault (Name × NameSet) := do
  forM targets fun target =>
    if inner.has target then .ok () else .error (.model .badInputTarget (module ++ "." ++ target))
  return (module, NameSet.ofList (inner.absolutePaths ++ paths))

theorem readAbsolute_of_named? {models : List (LinkedModel α)} {module : Module} {inner : LinkedModel α}
    (found : named? models module.model = some inner) : readAbsolute models module =
      inner.readInside module.name (module.inputs.map Input.target)
        (module.inputs.filterMap Input.absolute?) := by
  unfold readAbsolute
  rw [found, readInside, List.forM_map]
  rfl

end LinkedModel

/-! ## Modules that differ in relative sources -/

/-- Whether two modules instantiate one model, and override the same variables of it, under one name
and from the same absolute sources. -/
structure Module.Alike (module other : Module) : Prop where
  name : other.name = module.name
  model : other.model = module.model
  targets : other.inputs.map Input.target = module.inputs.map Input.target
  absolute : other.inputs.filterMap Input.absolute? = module.inputs.filterMap Input.absolute?

theorem Module.Alike.refl (module : Module) : module.Alike module := ⟨rfl, rfl, rfl, rfl⟩

/-- Whether an input is another one that may read one name in place of another beside its module. -/
structure Input.Diverts (source via : Name) (input other : Input) : Prop where
  target : other.target = input.target
  sources : other.source = input.source ∨ input.source = .relative source ∧ other.source = .relative via

/-- Whether a module is another one whose inputs may read one name in place of another beside it. -/
structure Module.Diverts (source via : Name) (module other : Module) : Prop where
  name : other.name = module.name
  model : other.model = module.model
  inputs : List.Forall₂ (Input.Diverts source via) module.inputs other.inputs

theorem Module.Diverts.refl (source via : Name) (module : Module) : module.Diverts source via module :=
  ⟨rfl, rfl, List.forall₂_same.mpr fun _ _ => ⟨rfl, .inl rfl⟩⟩

theorem Module.Diverts.alike {source via : Name} {module other : Module}
    (diverts : module.Diverts source via other) : module.Alike other := by
  refine ⟨diverts.name, diverts.model, ?_, ?_⟩
  · exact map_eq_of_forall₂ diverts.inputs fun _ _ input => input.target
  · have each := diverts.inputs
    generalize module.inputs = inputs, other.inputs = others at each
    induction each with
    | nil => rfl
    | cons first _ ih =>
      rw [List.filterMap_cons, List.filterMap_cons, ih]
      rcases first.sources with same | ⟨plain, plain'⟩
      · rw [Input.absolute?, Input.absolute?, same]
      · rw [Input.absolute?, Input.absolute?, plain, plain']

namespace Detour

variable (detour : Detour)

/-- The module with a certain source in the place of the detour. -/
def through (source : Name) : Module :=
  ⟨detour.module, detour.model,
    detour.before ++ ⟨.relative source, detour.target⟩ :: detour.after⟩

/-- The module without the detour. -/
def straight : Module := detour.through detour.source

/-- The module with the detour. -/
def around : Module := detour.through detour.via

/-- The middle of the detour. -/
def formula : Formula α :=
  ⟨detour.via, detour.text, .group (.reference detour.source), none, false, false⟩

def turnModule (module : Module) : Module :=
  if module.name = detour.module then detour.around else module

def turn (v : Variable α) : Variable α :=
  if v.name = detour.module then .module detour.around else v

/-- Whether a model is the main model with the detour: the middle is a variable more, and nothing but
the module reads it. -/
structure Leads (detour : Detour) (model other : Model α) : Prop where
  isMain : model.name = mainModel
  name : other.name = model.name
  timeSpec? : other.timeSpec? = model.timeSpec?
  ascending : Ascending Variable.name model.vars
  ascending' : Ascending Variable.name other.vars
  present : .module detour.straight ∈ model.vars
  mem : ∀ v, v ∈ other.vars ↔ v = .formula detour.formula ∨ ∃ w ∈ model.vars, v = detour.turn w
  unnamed : ∀ v ∈ model.vars, v.name ≠ detour.via
  unread : ∀ v ∈ model.vars, detour.via ∉ v.sources
  unfed : ∀ v ∈ model.vars, detour.via ∉ v.flows

/-- Whether a model is another one, with the detour if it is the main model. -/
inductive Turns (detour : Detour) : Model α → Model α → Prop
  | same {model : Model α} (other : model.name ≠ mainModel) : Turns detour model model
  | main {model other : Model α} (leads : detour.Leads model other) : Turns detour model other

variable {detour} {model other : Model α} {v : Variable α} {sought : Name}

theorem diverts : detour.straight.Diverts detour.source detour.via detour.around := by
  have same : ∀ inputs : List Input,
      List.Forall₂ (Input.Diverts detour.source detour.via) inputs inputs := fun inputs =>
    (Module.Diverts.refl _ _ ⟨detour.module, detour.model, inputs⟩).inputs
  refine ⟨rfl, rfl, List.rel_append (same detour.before) (.cons ⟨rfl, ?_⟩ (same detour.after))⟩
  exact .inr ⟨rfl, rfl⟩

theorem name_turn : (detour.turn v).name = v.name := by
  unfold turn
  split
  · rename_i here
    exact here.symm
  · rfl

theorem mem_sources_through {name : Name} {source : Path} :
    source ∈ (Variable.module (detour.through name) : Variable α).sources ↔
      source = name ∨ ∃ input ∈ detour.before ++ detour.after, input.source = .relative source := by
  have own : source ∈ (Variable.module (detour.through name) : Variable α).sources ↔
      ∃ input ∈ (detour.through name).inputs, input.source = .relative source := by
    unfold Variable.sources
    rw [NameSet.mem_ofList, List.mem_filterMap]
    refine exists_congr fun input => and_congr_right fun _ => ?_
    cases input.source <;> simp
  rw [own, through]
  simp only [List.mem_append, List.mem_cons]
  constructor
  · rintro ⟨input, before | rfl | after, same⟩
    · exact .inr ⟨input, .inl before, same⟩
    · exact .inl (Source.relative.inj same).symm
    · exact .inr ⟨input, .inr after, same⟩
  · rintro (rfl | ⟨input, before | after, same⟩)
    · exact ⟨_, .inr (.inl rfl), rfl⟩
    · exact ⟨input, .inl before, same⟩
    · exact ⟨input, .inr (.inr after), same⟩

namespace Leads

variable (leads : detour.Leads model other)
include leads

theorem eq_straight (member : v ∈ model.vars) (here : v.name = detour.module) :
    v = .module detour.straight :=
  leads.ascending.distinct.eq_of_name_eq member leads.present here

theorem isStock_turn (member : v ∈ model.vars) : (detour.turn v).isStock = v.isStock := by
  unfold turn
  split
  · rename_i here
    rw [leads.eq_straight member here]
    rfl
  · rfl

theorem model?_turn (member : v ∈ model.vars) :
    (detour.turn v).module?.map Module.model = v.module?.map Module.model := by
  unfold turn
  split
  · rename_i here
    rw [leads.eq_straight member here]
    rfl
  · rfl

theorem find?_eq (apart : sought ≠ detour.via) :
    other.find? sought = (model.find? sought).map detour.turn := by
  cases found : model.find? sought with
  | none =>
    refine findNamed_eq_none.mpr fun v member => ?_
    rcases (leads.mem v).mp member with rfl | ⟨w, inside, rfl⟩
    · exact apart.symm
    · rw [name_turn]
      exact findNamed_eq_none.mp found w inside
  | some w =>
    have member : detour.turn w ∈ other.vars :=
      (leads.mem _).mpr (.inr ⟨w, mem_of_findNamed found, rfl⟩)
    have named : (detour.turn w).name = sought := name_turn.trans (name_of_findNamed found)
    rw [← named]
    exact findNamed_of_mem leads.ascending'.distinct member

theorem find?_via : other.find? detour.via = some (.formula detour.formula) := by
  have member : (.formula detour.formula : Variable α) ∈ other.vars := (leads.mem _).mpr (.inl rfl)
  exact (findNamed_of_mem leads.ascending'.distinct member :)

theorem modules_eq : other.modules = model.modules.map detour.turnModule := by
  have ordered : ∀ {model : Model α}, Ascending Variable.name model.vars →
      Ascending Module.name model.modules := fun ascending =>
    List.Pairwise.filterMap _ (fun v w less m isModule n isModule' => by
      cases v <;> cases isModule
      cases w <;> cases isModule'
      exact less) ascending
  -- both lists are in the order of the names, so they are equal if they have the same members
  refine (ordered leads.ascending').ext ?_ fun module => ?_
  · refine List.pairwise_map.mpr ((ordered leads.ascending).imp fun {a b} less => ?_)
    have named : ∀ module, (detour.turnModule module).name = module.name := fun module => by
      unfold turnModule
      split
      · rename_i here
        exact here.symm
      · rfl
    rwa [named, named]
  · rw [Model.mem_modules, leads.mem, List.mem_map]
    constructor
    · rintro (same | ⟨w, member, same⟩)
      · cases same
      · unfold turn at same
        split at same
        · rename_i here
          cases same
          obtain rfl := leads.eq_straight member here
          exact ⟨detour.straight, Model.mem_modules.mpr member, if_pos rfl⟩
        · rename_i off
          subst same
          exact ⟨module, Model.mem_modules.mpr member, if_neg off⟩
    · rintro ⟨inner, member, rfl⟩
      refine .inr ⟨.module inner, Model.mem_modules.mp member, ?_⟩
      unfold turnModule turn
      split <;> rename_i here
      · exact (if_pos here).symm
      · exact (if_neg here).symm

end Leads

namespace Turns

variable (turns : detour.Turns model other)
include turns

theorem name : other.name = model.name := by
  cases turns with
  | same => rfl
  | main leads => exact leads.name

theorem timeSpec?_eq : other.timeSpec? = model.timeSpec? := by
  cases turns with
  | same => rfl
  | main leads => exact leads.timeSpec?

theorem modules :
    List.Forall₂ (Module.Diverts detour.source detour.via) model.modules other.modules := by
  cases turns with
  | same => exact List.forall₂_same.mpr fun module _ => .refl _ _ module
  | main leads =>
    rw [leads.modules_eq, List.forall₂_map_right_iff, List.forall₂_same]
    intro module member
    unfold turnModule
    split
    · rename_i here
      have named : (Variable.module module : Variable α).name = detour.module := here
      have same := leads.eq_straight (Model.mem_modules.mp member) named
      cases same
      exact diverts
    · exact .refl _ _ module

theorem instantiated : other.instantiated = model.instantiated := by
  have models : other.modules.map Module.model = model.modules.map Module.model :=
    map_eq_of_forall₂ turns.modules fun _ _ diverts => diverts.model
  rw [Model.instantiated, Model.instantiated, models]

theorem isStock_find? (apart : sought ≠ detour.via) :
    (other.find? sought).map Variable.isStock = (model.find? sought).map Variable.isStock := by
  cases turns with
  | same => rfl
  | main leads =>
    rw [leads.find?_eq apart, Option.map_map]
    cases found : model.find? sought with
    | none => rfl
    | some v => exact congrArg some (leads.isStock_turn (mem_of_findNamed found))

theorem has_eq (apart : sought ≠ detour.via) : other.has sought = model.has sought := by
  have same := congrArg Option.isSome (turns.isStock_find? apart)
  rwa [Option.isSome_map, Option.isSome_map] at same

end Turns

/-! ## Linking -/

/-- Whether a linked model is another one, with the detour if it is the main model. -/
structure Linked (detour : Detour) (model other : LinkedModel α) : Prop where
  turns : detour.Turns model.toModel other.toModel
  absolute : other.absoluteSources = model.absoluteSources
  outline : ∀ name ≠ detour.via,
    (other.outline.find? name).map Node.isStock = (model.outline.find? name).map Node.isStock
  outside : ∀ path ∈ model.absolutePaths, path ≠ detour.via ∧ Path.PassesBy detour.via path

/-- What a module's model passes on where targets are none of the detour is the same with it. -/
theorem Linked.readInside_eq {model other : LinkedModel α} (both : detour.Linked model other) {module : Name}
    {targets : List Name} (apart : ∀ target ∈ targets, target ≠ detour.via) {paths : List Path} :
    other.readInside module targets paths = model.readInside module targets paths := by
  have paths : other.absolutePaths = model.absolutePaths := by
    rw [LinkedModel.absolutePaths, both.absolute, LinkedModel.absolutePaths]
  rw [LinkedModel.readInside, LinkedModel.readInside, paths]
  congr 1
  induction targets with
  | nil => rfl
  | cons first rest ih =>
    obtain ⟨here, others⟩ := List.forall_mem_cons.mp apart
    rw [List.forM_cons, List.forM_cons, both.turns.has_eq here, ih others]

section

variable {linked others : List (LinkedModel α)} (each : List.Forall₂ detour.Linked linked others)
include each

theorem rel_named? (name : Name) : Option.Rel detour.Linked (LinkedModel.named? linked name)
    (LinkedModel.named? others name) :=
  rel_findNamed (fun _ _ both => both.turns.name) each name

theorem readAbsolute_eq {module next : Module} (alike : module.Alike next)
    (apart : ∀ input ∈ module.inputs, input.target ≠ detour.via) :
    LinkedModel.readAbsolute others next = LinkedModel.readAbsolute linked module := by
  have both := rel_named? each module.model
  generalize found : LinkedModel.named? linked module.model = inner,
    found' : LinkedModel.named? others module.model = inner' at both
  cases both with
  | none =>
    unfold LinkedModel.readAbsolute
    rw [alike.model, found, found']
  | some both =>
    rw [LinkedModel.readAbsolute_of_named? (alike.model ▸ found'),
      LinkedModel.readAbsolute_of_named? found, alike.name, alike.targets, alike.absolute]
    exact both.readInside_eq (List.forall_mem_map.mpr apart)

theorem isRootPath_eq (leads : detour.Leads model other) {path : Path} (apart : path ≠ detour.via)
    (passes : Path.PassesBy detour.via path) :
    LinkedModel.isRootPath others other path = LinkedModel.isRootPath linked model path := by
  unfold LinkedModel.isRootPath
  unfold Path.PassesBy at passes
  have whole : (Path.split path).2 = none → (Path.split path).1 = path := by
    rcases Path.split_cases path with ⟨-, split⟩ | ⟨_, _, -, -, split⟩ <;> rw [split] <;> simp
  rcases split : Path.split path with ⟨head, rest⟩
  rw [split] at passes whole
  dsimp only at passes whole ⊢
  by_cases here : head = detour.via
  · -- the middle of the detour is no module, so nothing lies inside it
    have absent : model.find? head = none :=
      findNamed_eq_none.mpr fun v member => here ▸ leads.unnamed v member
    rw [absent, here, leads.find?_via]
    cases rest with
    | none => exact absurd ((whole rfl).symm.trans here) apart
    | some => rfl
  · rw [leads.find?_eq here]
    cases found : model.find? head with
    | none => rfl
    | some v =>
      cases rest with
      | none => rfl
      | some rest =>
        dsimp only [Option.map_some]
        have lookup : ∀ (models : List (LinkedModel α)) (v : Variable α),
            (v.module?.bind fun module => LinkedModel.named? models module.model) =
              (v.module?.map Module.model).bind (LinkedModel.named? models) := fun models v => by
          rw [Option.bind_map]
          rfl
        rw [lookup, lookup, leads.model?_turn (mem_of_findNamed found)]
        cases v.module?.map Module.model with
        | none => rfl
        | some inner =>
          have both := rel_named? each inner
          simp only [Option.bind_some]
          generalize LinkedModel.named? linked inner = below,
            LinkedModel.named? others inner = below' at both
          cases both with
          | none => rfl
          | some both => exact both.turns.has_eq (passes rest rfl)

end

namespace Leads

variable (leads : detour.Leads model other)
include leads

theorem mem_sources_turn (member : v ∈ model.vars) {source : Path}
    (among : source ∈ (detour.turn v).sources) :
    source ∈ v.sources ∨ source = detour.via ∧ v.name = detour.module := by
  unfold turn at among
  split at among
  · rename_i here
    rw [around, mem_sources_through] at among
    rw [leads.eq_straight member here, straight, mem_sources_through]
    exact among.elim (fun same => .inr ⟨same, rfl⟩) fun kept => .inl (.inr kept)
  · exact .inl among

theorem mem_sources_of_turn (member : v ∈ model.vars) {source : Path} (among : source ∈ v.sources) :
    source ∈ (detour.turn v).sources ∨ source = detour.source ∧ v.name = detour.module := by
  unfold turn
  split
  · rename_i here
    rw [leads.eq_straight member here, straight, mem_sources_through] at among
    rw [around, mem_sources_through]
    exact among.elim (fun same => .inr ⟨same, here⟩) fun kept => .inl (.inr kept)
  · exact .inl among

variable {linked others : List (LinkedModel α)} (each : List.Forall₂ detour.Linked linked others)
  {absoluteSources : Keyed NameSet}
  (outside : ∀ entry ∈ absoluteSources, ∀ path ∈ entry.2,
    path ≠ detour.via ∧ Path.PassesBy detour.via path)
include each outside

theorem awaited_eq (name : Name) :
    (absoluteSources.get? name).elim [] (LinkedModel.awaited others other name) =
      (absoluteSources.get? name).elim [] (LinkedModel.awaited linked model name) := by
  cases found : absoluteSources.get? name with
  | none => rfl
  | some paths =>
    refine List.filter_congr fun path member => ?_
    obtain ⟨apart, passes⟩ := outside _ (Keyed.mem_of_get? found) path member
    rw [isRootPath_eq each leads apart passes]

theorem turned (member : v ∈ model.vars) :
    detour.Turned (LinkedModel.node linked model absoluteSources v)
      (LinkedModel.node others other absoluteSources (detour.turn v)) := by
  refine ⟨?_, ?_, ?_, fun source among => ?_, fun source among => ?_⟩
  · rw [LinkedModel.name_node, LinkedModel.name_node, name_turn]
  · rw [LinkedModel.isStock_node, LinkedModel.isStock_node, leads.isStock_turn member]
  · rw [LinkedModel.model?_node, LinkedModel.model?_node, leads.model?_turn member]
  · rw [LinkedModel.mem_sources_node_iff (leads.name.trans leads.isMain), name_turn,
      leads.awaited_eq each outside] at among
    rw [LinkedModel.mem_sources_node_iff leads.isMain, LinkedModel.name_node]
    exact among.elim (fun waits => .inl (.inl waits)) fun own =>
      (leads.mem_sources_turn member own).imp_left .inr
  · rw [LinkedModel.mem_sources_node_iff leads.isMain] at among
    rw [LinkedModel.mem_sources_node_iff (leads.name.trans leads.isMain), name_turn,
      leads.awaited_eq each outside, LinkedModel.name_node]
    exact among.elim (fun waits => .inl (.inl waits)) fun own =>
      (leads.mem_sources_of_turn member own).imp_left .inr

/-- What the analysis sees of a model with a detour is what it sees without it, with the detour. -/
theorem routes (clear : detour.IsClear)
    (named : absoluteSources.map Prod.fst = model.modules.map Module.name) :
    detour.Routes (model.vars.map (LinkedModel.node linked model absoluteSources))
      (other.vars.map (LinkedModel.node others other absoluteSources)) := by
  have isMain := leads.name.trans leads.isMain
  refine ⟨LinkedModel.distinct_nodes leads.ascending.distinct,
    LinkedModel.distinct_nodes leads.ascending'.distinct, fun name apart => ?_, ?_, ?_, ?_, ?_, ?_⟩
  · rw [LinkedModel.find?_nodes, LinkedModel.find?_nodes, leads.find?_eq apart]
    cases found : model.find? name with
    | none => exact .none
    | some v => exact .some (leads.turned each outside (mem_of_findNamed found))
  · have absent : model.find? detour.via = none := findNamed_eq_none.mpr leads.unnamed
    rw [LinkedModel.find?_nodes, absent]
    rfl
  · -- nothing is read inside the middle of the detour, since it is no module
    have unread : absoluteSources.get? (Variable.formula detour.formula : Variable α).name = none := by
      refine Keyed.get?_eq_none.mpr fun entry member same => ?_
      have listed : entry.1 ∈ absoluteSources.map Prod.fst := List.mem_map_of_mem member
      rw [named] at listed
      obtain ⟨module, among, isNamed⟩ := List.mem_map.mp listed
      exact leads.unnamed _ (Model.mem_modules.mp among) (isNamed.trans same)
    have own : (Variable.formula detour.formula : Variable α).sources = [detour.source] := by
      simp [Variable.sources, formula, Equation.names, Equation.declared, clear.unreserved,
        NameSet.ofList, NameSet.insertAll, NameSet.insert]
    rw [LinkedModel.find?_nodes, leads.find?_via, Option.map_some, LinkedModel.node, if_pos isMain, unread, own]
    rfl
  · refine ⟨_, List.mem_map_of_mem leads.present, LinkedModel.name_node, LinkedModel.isStock_node, ?_⟩
    rw [LinkedModel.mem_sources_node_iff leads.isMain, straight, mem_sources_through]
    exact .inr (.inl rfl)
  · have turns : (Variable.module detour.around : Variable α) ∈ other.vars :=
      (leads.mem _).mpr (.inr ⟨_, leads.present, (if_pos rfl).symm⟩)
    refine ⟨_, List.mem_map_of_mem turns, LinkedModel.name_node, LinkedModel.isStock_node, ?_⟩
    rw [LinkedModel.mem_sources_node_iff isMain, around, mem_sources_through]
    exact .inr (.inl rfl)
  · intro node member among
    obtain ⟨v, inside, rfl⟩ := List.mem_map.mp member
    rcases LinkedModel.of_mem_sources_node among with own | ⟨entry, listed, read⟩
    · exact leads.unread v inside own
    · exact (outside entry listed _ read).1 rfl

end Leads

/-! ## Linking with a detour -/

section

variable {linked others : List (LinkedModel α)} (each : List.Forall₂ detour.Linked linked others)
include each

/-- The outlines of linked models tell the same of a path that passes the detour by. -/
theorem agreeInside {path : Path} (passes : Path.PassesBy detour.via path) :
    Dependencies.AgreeInside (linked.map fun model => (model.name, model.outline))
      (others.map fun model => (model.name, model.outline)) path := by
  intro rest further name
  have get? : ∀ models : List (LinkedModel α),
      Keyed.get? (models.map fun model => (model.name, model.outline)) name =
        (LinkedModel.named? models name).map LinkedModel.outline := fun models => by
    rw [LinkedModel.named?]
    exact Keyed.get?_of_items models name
  have both := rel_named? each name
  rw [get?, get?]
  generalize LinkedModel.named? linked name = model, LinkedModel.named? others name = other at both
  cases both with
  | none => exact .none
  | some both => exact .some (both.outline _ (passes rest further))

variable (turns : detour.Turns model other) (ignores : ∀ v ∈ model.vars, v.Ignores detour.via)
include turns ignores

theorem mapM_readAbsolute_eq : other.modules.mapM (LinkedModel.readAbsolute others) =
    model.modules.mapM (LinkedModel.readAbsolute linked) := by
  have same : ∀ {modules nexts : List Module}, List.Forall₂ Module.Alike modules nexts →
      (∀ module ∈ modules, ∀ input ∈ module.inputs, input.target ≠ detour.via) →
        nexts.mapM (LinkedModel.readAbsolute others) =
          modules.mapM (LinkedModel.readAbsolute linked) := by
    intro modules nexts alike apart
    induction alike with
    | nil => rfl
    | cons first _ ih =>
      obtain ⟨here, further⟩ := List.forall_mem_cons.mp apart
      rw [List.mapM_cons, List.mapM_cons, readAbsolute_eq each first here, ih further]
  exact same (turns.modules.imp fun _ _ diverts => diverts.alike) fun module member input among =>
    ((ignores _ (Model.mem_modules.mp member)).2 module rfl input among).1

omit turns in
/-- What is read inside the modules of a model passes the detour by. -/
theorem outside_of_read {absoluteSources : Keyed NameSet}
    (read : model.modules.mapM (LinkedModel.readAbsolute linked) = .ok absoluteSources) :
    ∀ entry ∈ absoluteSources, ∀ path ∈ entry.2,
      path ≠ detour.via ∧ Path.PassesBy detour.via path := by
  intro entry member path among
  obtain ⟨module, inside, isRead⟩ := exists_left_of_mem (mapM_eq_ok.mp read) member
  obtain ⟨inner, found, -, -, reads⟩ := LinkedModel.readAbsolute_eq_ok isRead
  rcases (reads path).mp among with deeper | ⟨input, given, absolute⟩
  · have both := rel_named? each module.model
    rw [found] at both
    generalize LinkedModel.named? others module.model = inner' at both
    cases both with
    | some both => exact both.outside path deeper
  · refine ((ignores _ (Model.mem_modules.mp inside)).2 module rfl input given).2 path ?_
    rw [Input.absolute?, absolute]
    rfl

omit turns in
/-- What a node of a model reads passes the detour by behind its head. -/
theorem agreeInside_of_node {absoluteSources : Keyed NameSet}
    (read : model.modules.mapM (LinkedModel.readAbsolute linked) = .ok absoluteSources) :
    ∀ node ∈ model.vars.map (LinkedModel.node linked model absoluteSources), ∀ source ∈ node.sources,
      Dependencies.AgreeInside (linked.map fun model => (model.name, model.outline))
        (others.map fun model => (model.name, model.outline)) source := by
  intro node member source among
  obtain ⟨v, declared, rfl⟩ := List.mem_map.mp member
  refine agreeInside each ?_
  rcases LinkedModel.of_mem_sources_node among with own | ⟨entry, listed, within⟩
  · exact (ignores v declared).1 source own
  · exact (outside_of_read each ignores read entry listed source within).2

theorem agree_closures (clear : detour.IsClear) (distinct : Distinct Variable.name model.vars)
    {absoluteSources : Keyed NameSet}
    (read : model.modules.mapM (LinkedModel.readAbsolute linked) = .ok absoluteSources) (moment : Moment) :
    Agree (fun _ _ => True)
      (Dependencies.closure moment (linked.map fun model => (model.name, model.outline))
        (model.vars.map (LinkedModel.node linked model absoluteSources)))
      (Dependencies.closure moment (others.map fun model => (model.name, model.outline))
        (other.vars.map (LinkedModel.node others other absoluteSources))) := by
  have inside := agreeInside_of_node each ignores read
  cases turns with
  | same apart =>
    have same : ∀ models : List (LinkedModel α),
        model.vars.map (LinkedModel.node models model absoluteSources) = model.outline :=
      fun models => List.map_congr_left fun v _ => if_neg apart
    rw [same, same] at *
    exact Dependencies.agree_closure (same linked ▸ LinkedModel.distinct_nodes distinct) inside
  | main leads =>
    have named : absoluteSources.map Prod.fst = model.modules.map Module.name := by
      refine map_eq_of_forall₂ (mapM_eq_ok.mp read) fun _ _ read => ?_
      obtain ⟨_, -, -, named, -⟩ := LinkedModel.readAbsolute_eq_ok read
      exact named
    exact (leads.routes each (outside_of_read each ignores read) clear named).agree_closure clear inside

/-- A model links with the detour exactly if it links without it. -/
theorem agree_link (clear : detour.IsClear) (distinct : Distinct Variable.name model.vars) :
    Agree detour.Linked (LinkedModel.link linked model) (LinkedModel.link others other) := by
  unfold LinkedModel.link
  simp only [LinkedModel.outline_eq, mapM_readAbsolute_eq each turns ignores]
  refine Agree.bind_same fun read done => ?_
  have closes := agree_closures each turns ignores clear distinct done
  refine (closes .step).bind fun step step' _ => (closes .start).bind fun start start' _ => ?_
  refine .ok ⟨turns, rfl, fun name apart => ?_, fun path among => ?_⟩
  · have find : ∀ (models : List (LinkedModel α)) (model : Model α),
        (Outline.find? (model.vars.map (LinkedModel.node models model read)) name).map Node.isStock =
          (model.find? name).map Variable.isStock := by
      intro models model
      rw [LinkedModel.find?_nodes, Option.map_map]
      exact congrArg (Option.map · _) (funext fun _ => LinkedModel.isStock_node)
    exact (find others other).trans ((turns.isStock_find? apart).trans (find linked model).symm)
  · obtain ⟨entry, member, among⟩ := List.mem_flatMap.mp among
    exact outside_of_read each ignores done entry member path among

end

/-! ## Projects -/

/-- Whether a project is another one with the detour. -/
structure Reroutes (detour : Detour) (project other : Project α) : Prop where
  timeSpec : other.timeSpec = project.timeSpec
  models : List.Forall₂ (fun model other : LinkedModel α => detour.Turns model.toModel other.toModel)
    project.models other.models

theorem Reroutes.rel_find? {project other : Project α} (reroutes : detour.Reroutes project other)
    (name : Name) :
    Option.Rel (fun model other : LinkedModel α => detour.Turns model.toModel other.toModel)
      (project.find? name) (other.find? name) :=
  rel_findNamed (fun _ _ turns => turns.name) reroutes.models name

end Detour

/-! ## Projects with related models -/

namespace Project

section

variable {models others : List (Model α)} (each : List.Forall₂ (fun model other : Model α =>
  other.name = model.name ∧ other.instantiated = model.instantiated) models others)
include each

theorem visitModel_congr (depth : Nat) : ∀ path done name,
    visitModel others depth path done name = visitModel models depth path done name := by
  induction depth with
  | zero => exact fun _ _ _ => rfl
  | succ depth ih =>
    intro path done name
    have both := rel_findNamed (fun _ _ same => same.1) each name
    unfold visitModel
    generalize findNamed Model.name name models = model, findNamed Model.name name others = other at both
    cases both with
    | none => rfl
    | @some model other same =>
      dsimp only
      have further : visitModel others depth (name :: path) = visitModel models depth (name :: path) := by
        funext done name
        exact ih _ done name
      rw [same.2, further]

theorem modelOrder_congr : modelOrder others = modelOrder models := by
  have names : others.map Model.name = models.map Model.name :=
    map_eq_of_forall₂ each fun _ _ same => same.1
  have visits : visitModel others (models.length + 1) [] = visitModel models (models.length + 1) [] := by
    funext done name
    exact visitModel_congr each _ [] done name
  rw [modelOrder, names, ← each.length_eq, visits, modelOrder]

end

/-- Models link alike one after the other if each links alike to those before it. -/
theorem agree_linkAll {related : Model α → Model α → Prop}
    {further : LinkedModel α → LinkedModel α → Prop}
    (named : ∀ model other, related model other → other.name = model.name) {models others : List (Model α)}
    (each : List.Forall₂ related models others)
    (links : ∀ linked linked' model other, List.Forall₂ further linked linked' → model ∈ models →
      related model other → Agree further (LinkedModel.link linked model) (LinkedModel.link linked' other))
    (order : List Name) :
    Agree (List.Forall₂ further) (linkAll models order) (linkAll others order) := by
  have same : List.Forall₂ (fun name name' : Name => name' = name) order order :=
    List.forall₂_same.mpr fun _ _ => rfl
  refine Agree.foldlM same .nil fun linked linked' name name' so named' => ?_
  subst named'
  have both := rel_findNamed named each name'
  generalize here : findNamed Model.name name' models = model,
    findNamed Model.name name' others = other at both
  cases both with
  | none => exact .error
  | some one =>
    exact (links _ _ _ _ so (mem_of_findNamed here) one).bind fun _ _ last =>
      .ok (List.rel_append so (.cons last .nil))

end Project

end StockFlow
