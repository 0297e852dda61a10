import StockFlow.Proofs.Catalog
import StockFlow.Proofs.Hoisting
import StockFlow.Proofs.Rejoining

/-!
# Arguments in parentheses

Whether an argument of a stateful call stands in parentheses makes no difference to whether a project
can be run, as long as nothing bears or mentions the name of the variable into which the argument moves.
Nor does it make one to the series of a run, where the order of evaluation is sound: the new variable is
a detour between the argument and the module of the call.
-/

namespace StockFlow

variable {α : Type} [Scalar α]

/-! ## Checking a model -/

omit [Scalar α] in
theorem Detour.Leads.agree_checkFlows {detour : Detour} {model other : Model α}
    (leads : detour.Leads model other) :
    Agree (fun _ _ => True) (Model.checkFlows model.vars) (Model.checkFlows other.vars) := by
  have unit : ∀ vars : List (Variable α), (∃ done, Model.checkFlows vars = .ok done) ↔
      Model.checkFlows vars = .ok () :=
    fun vars => ⟨fun ⟨_, done⟩ => done, fun done => ⟨_, done⟩⟩
  have flows : ∀ v ∈ model.vars, (detour.turn v).flows = v.flows := by
    intro v member
    unfold turn
    split
    · rename_i here
      rw [leads.eq_straight member here]
      rfl
    · rfl
  have has : ∀ v ∈ model.vars, ∀ flow ∈ v.flows, (findNamed Variable.name flow other.vars).isSome =
      (findNamed Variable.name flow model.vars).isSome := fun v member flow among =>
    (Turns.main leads).has_eq fun same => leads.unfed v member (same ▸ among)
  refine .of_exists_iff ?_ fun _ _ _ _ => trivial
  rw [unit, unit, Model.checkFlows_eq_ok, Model.checkFlows_eq_ok]
  constructor
  · intro known v member flow among
    rcases (leads.mem v).mp member with rfl | ⟨w, inside, rfl⟩
    · cases among
    · rw [flows w inside] at among
      rw [has w inside flow among]
      exact known w inside flow among
  · intro known v member flow among
    rw [← has v member flow among]
    refine known (detour.turn v) ((leads.mem _).mpr (.inr ⟨v, member, rfl⟩)) flow ?_
    rwa [flows v member]

/-! ## Building a model -/

variable {name : Name} {call index : Nat}

theorem Model.agree_build {definition next : Document.Variable α}
    (parenthesizes : Document.Variable.Parenthesizes name call index definition next)
    (before after : List (Document.Variable α)) {made : Name}
    (isMade : made = Name.canonical (Expansion.argumentName (Name.canonical definition.name) call index))
    (plain : ¬ Path.IsDotted (Name.canonical (Name.canonical name))) (plain' : ¬ Path.IsDotted made)
    (free : ∀ vars, desugar (before ++ definition :: after) = .ok vars → ∀ v ∈ vars, ¬ v.Mentions made)
    (timeSpec? : Option (TimeSpec α)) (implicit : Bool) :
    Agree (fun model other => ∃ detour : Detour, detour.via = made ∧
        detour.source = Name.canonical (Name.canonical name) ∧ detour.Leads model other)
      (build ⟨mainModel, timeSpec?, before ++ definition :: after⟩ implicit)
      (build ⟨mainModel, timeSpec?, before ++ next :: after⟩ implicit) := by
  rw [build_eq, build_eq]
  apply (agree_desugar parenthesizes before after isMade plain plain' free timeSpec? implicit).bind
  rintro vars vars' ⟨detour, isVia, isSource, leads⟩
  exact leads.agree_checkFlows.bind fun _ _ _ => .ok ⟨detour, isVia, isSource, leads⟩

omit [Scalar α] in
/-- A detour through a variable that was made for a call is clear. -/
theorem Detour.Leads.isClear {detour : Detour} {model other : Model α}
    (leads : detour.Leads model other) (undotted : ¬ Path.IsDotted detour.source)
    (unreserved : isReserved detour.source = false) {owner : Name} (plain : ¬ Path.IsDotted owner)
    {definition : Document.Variable α} (made : Expansion.MadeFor owner definition)
    (isVia : detour.via = Name.canonical definition.name) : detour.IsClear := by
  obtain ⟨call, suffix, named, -⟩ := id made
  have starts : definition.name.toList =
      '$' :: ("·" ++ owner ++ "·" ++ toString call ++ "·" ++ suffix).toList := by
    rw [named, Expansion.stem]
    simp [String.toList_append]
  obtain ⟨rest, canonical⟩ := Name.canonical_cons_dollar starts
  rw [← isVia] at canonical
  refine ⟨undotted, unreserved, isVia ▸ Expansion.isPlain_of_madeFor plain made,
    ClockReference.ofName?_of_cons_dollar canonical, ?_, ?_, ?_⟩
  · intro same
    rw [same] at canonical
    cases canonical
  · intro same
    have reads : detour.source ∈ (Variable.module detour.straight : Variable α).sources :=
      Detour.mem_sources_through.mpr (.inl rfl)
    exact leads.unread _ leads.present (same ▸ reads)
  · exact leads.unnamed _ leads.present

/-! ## The library -/

theorem Library.references_model (function : Stateful) :
    ∀ definition ∈ (Library.model function : Document.Model α).definitions,
      ∃ equation, definition.equation? = some equation ∧
        ∀ name ∈ equation.references, ¬ Path.IsDotted (Name.canonical name) := by
  cases function <;>
    simp [model, delay1, delay3, smooth1, smooth3, trend, withInputs, Library.auxiliary, Library.flow,
      Library.stock, minus, times, dividedBy, approach, stageTime, Equation.natural,
      Document.Variable.equation?, Equation.references, Equation.referencesAll] <;>
    decide +kernel

theorem Library.ignores {function : Stateful} {model : Model α}
    (built : Model.build (Library.model function) true = .ok model) (name : Name) :
    ∀ v ∈ model.vars, v.Ignores name := by
  intro w member
  obtain ⟨definition, listed, v, u, made, checked, one, origin⟩ := Model.origin_of_build built member
  obtain ⟨primitive, own⟩ := Variable.isPrimitive_of_isBasic (isBasic_model function definition listed)
    checked
  rw [Model.expandVariable_of_isPrimitive primitive] at one
  cases one
  obtain rfl : w = v := by
    rcases origin with same | ⟨_, none, -⟩
    · exact same
    · cases none
  obtain ⟨equation, isOwn, plain⟩ := references_model function definition listed
  obtain ⟨w', checked', -, equation?, -⟩ := Variable.ofDefinition_of_equation? isOwn
  obtain rfl := Except.ok.inj (checked.symm.trans checked')
  constructor
  · intro path among rest further
    rw [Variable.sources_of_equation? equation?] at among
    have refers := (Equation.mem_references_of_declared (primitive _ equation?)
      (NameSet.mem_ofList.mp among)).1
    rw [Equation.references_mapNames] at refers
    obtain ⟨reference, inside, rfl⟩ := List.mem_map.mp refers
    rcases Path.split_cases (Name.canonical reference) with ⟨-, whole⟩ | ⟨head, tail, -, whole, -⟩
    · rw [whole] at further
      cases further
    · exact absurd (by simp [Path.IsDotted, whole]) (plain reference inside)
  · intro module isModule
    rw [Variable.isModule, Option.isSome_eq_false_iff, Option.isNone_iff_eq_none] at own
    rw [own] at isModule
    cases isModule

/-! ## Compiling a project -/

namespace Document.Project

/-- Whether a project document is another one with an argument of a stateful call in parentheses, in
the equation of the variable `owner` of its main model. -/
inductive Parenthesizes (name : Name) (call index : Nat) :
    (owner : Name) → Document.Project α → Document.Project α → Prop
  | intro {title : String} {timeSpec : TimeSpec α} {first last : List (Document.Model α)}
    {timeSpec? : Option (TimeSpec α)} {before after : List (Document.Variable α)}
    {definition next : Document.Variable α}
    (parenthesizes : Document.Variable.Parenthesizes name call index definition next) :
    Parenthesizes name call index (Name.canonical definition.name)
      ⟨title, timeSpec, first ++ ⟨mainModel, timeSpec?, before ++ definition :: after⟩ :: last⟩
      ⟨title, timeSpec, first ++ ⟨mainModel, timeSpec?, before ++ next :: after⟩ :: last⟩

omit [Scalar α] in
theorem Parenthesizes.isPlain_owner {owner name : Name} {call index : Nat}
    {document other : Document.Project α} (parenthesizes : Parenthesizes name call index owner document other)
    (plain : document.HasPlainNames) : owner.IsPlain := by
  obtain ⟨-⟩ := parenthesizes
  exact plain _ (List.mem_append_right _ List.mem_cons_self) _
    (List.mem_append_right _ List.mem_cons_self)

/-- Whether no variable of a project document's main model, with those that calls stand for, bears or
mentions a name, and none of any model reaches for it from outside its own model. -/
def Avoids (document : Document.Project α) (name : Name) : Prop :=
  ∀ model ∈ document.models, ∀ vars ∈ (Model.desugar model.definitions).toOption, ∀ v ∈ vars,
    (model.name = mainModel → ¬ v.Mentions name) ∧ v.Ignores name

instance {document : Document.Project α} {name : Name} : Decidable (document.Avoids name) :=
  inferInstanceAs (Decidable (∀ _ ∈ _, ∀ _ ∈ _, _))

end Document.Project

namespace Project

open Document.Project (Parenthesizes)

variable {owner : Name} {document other : Document.Project α}

/-- The name of the variable into which an argument of a call moves. -/
def hidden (owner : Name) (call index : Nat) : Name :=
  Name.canonical (Expansion.argumentName owner call index)

/-- Whether a detour leads to a variable through the one into which an argument moves. -/
structure Hides (detour : Detour) (owner name : Name) (call index : Nat) : Prop where
  via : detour.via = hidden owner call index
  source : detour.source = Name.canonical (Name.canonical name)

omit [Scalar α] in
theorem madeFor_argument (owner : Name) (call index : Nat) : Expansion.MadeFor owner
    (.auxiliary ⟨Expansion.argumentName owner call index, "", none, none⟩ : Document.Variable α) := by
  refine ⟨call, "arg" ++ toString index, ?_, ?_⟩
  · exact String.append_assoc
  · exact Expansion.not_isDotted_append (by decide) (Expansion.not_isDotted_toString index)

/-- Whether models are others with the detour through the variable into which an argument moves. -/
def Rerouted (owner name : Name) (call index : Nat) (models others : List (Model α)) : Prop :=
  ∃ detour : Detour, Hides detour owner name call index ∧ List.Forall₂ detour.Turns models others ∧
    ∃ model ∈ models, ∃ next, detour.Leads model next

omit [Scalar α] in
theorem rel_insertNamed?_of_turns {detour : Detour} {models others : List (Model α)}
    (each : List.Forall₂ detour.Turns models others) {model next : Model α}
    (turns : detour.Turns model next) :
    Option.Rel (fun models' others' => List.Forall₂ detour.Turns models' others' ∧
        model ∈ models' ∧ models ⊆ models')
      (insertNamed? Model.name model models) (insertNamed? Model.name next others) := by
  have named : ∀ model next : Model α, detour.Turns model next → next.name = model.name :=
    fun _ _ turns => turns.name
  have both := rel_insertNamed? named turns each
  generalize inserted : insertNamed? Model.name model models = result,
    insertNamed? Model.name next others = result' at both
  cases both with
  | none => exact .none
  | some both =>
    refine .some ⟨both, (mem_insertNamed? inserted).mpr (.inl rfl), fun other member => ?_⟩
    exact (mem_insertNamed? inserted).mpr (.inr member)

theorem agree_declareOwn {related : List (Model α) → List (Model α) → Prop}
    {models others : List (Model α)} {own next : Document.Model α}
    (known : (findNamed Model.name next.name others).isSome =
      (findNamed Model.name own.name models).isSome) (timeSpec? : next.timeSpec? = own.timeSpec?)
    (declares : ¬ (findNamed Model.name own.name models).isSome = true →
      Agree related (declareModel models own false) (declareModel others next false)) :
    Agree related (declareOwn models own) (declareOwn others next) := by
  unfold declareOwn
  rw [known, timeSpec?]
  by_cases unknown : (findNamed Model.name own.name models).isSome = true
  · rw [if_pos unknown, if_pos unknown]
    exact .error
  · rw [if_neg unknown, if_neg unknown]
    cases own.timeSpec? with
    | none => exact declares unknown
    | some => exact Agree.bind_same fun _ _ => declares unknown

/-- Another model is declared beside the main model with a detour exactly if it is beside the one
without it. -/
theorem agree_declareOwn_of_rerouted {models others : List (Model α)}
    (rerouted : Rerouted owner name call index models others) (own : Document.Model α) :
    Agree (Rerouted owner name call index) (declareOwn models own) (declareOwn others own) := by
  obtain ⟨detour, hides, each, model, member, next, leads⟩ := rerouted
  have known : (findNamed Model.name own.name others).isSome =
      (findNamed Model.name own.name models).isSome := by
    have both := rel_findNamed (fun _ _ turns => Detour.Turns.name turns) each own.name
    generalize findNamed Model.name own.name models = found,
      findNamed Model.name own.name others = found' at both
    cases both <;> rfl
  refine agree_declareOwn known rfl fun unknown => Agree.bind_same fun added built => ?_
  have apart : added.name ≠ mainModel := by
    intro isMain
    obtain ⟨-, -, -, -, -, named, -⟩ := Model.build_eq_ok built
    refine unknown (findNamed_isSome.mpr ⟨model, member, ?_⟩)
    rw [leads.isMain, ← isMain, named]
  have both := rel_insertNamed?_of_turns each (.same apart)
  generalize insertNamed? Model.name added models = result,
    insertNamed? Model.name added others = result' at both
  cases both with
  | none => exact .error
  | some both => exact .ok ⟨detour, hides, both.1, model, both.2.2 member, next, leads⟩

theorem ignores_of_declareAll {sought : Name} (avoids : document.Avoids sought)
    {models : List (Model α)} (declared : declareAll document = .ok models) :
    ∀ model ∈ models, ∀ v ∈ model.vars, v.Ignores sought := by
  intro model member
  rcases comes_of_declareAll declared model member with ⟨own, listed, built⟩ | ⟨function, built⟩
  · rw [Model.build_eq] at built
    obtain ⟨vars, desugared, built⟩ := bind_eq_ok.mp built
    obtain ⟨_, -, built⟩ := bind_eq_ok.mp built
    obtain rfl := pure_eq_ok.mp built
    exact fun v among => (avoids own listed vars (toOption_eq_some.mpr desugared) v among).2
  · exact Library.ignores built _

section

variable (parenthesizes : Parenthesizes name call index owner document other)
  (plain : document.HasPlainNames) (undotted : ¬ Path.IsDotted (Name.canonical (Name.canonical name)))
  (avoids : document.Avoids (hidden owner call index))
include parenthesizes plain undotted avoids

theorem agree_declareAll :
    Agree (Rerouted owner name call index) (declareAll document) (declareAll other) := by
  have hiddenPlain : ¬ Path.IsDotted (hidden owner call index) :=
    (Expansion.isPlain_of_madeFor (parenthesizes.isPlain_owner plain).2.1
      (madeFor_argument (α := α) _ call index)).2.1
  obtain ⟨parenthesizes⟩ := parenthesizes
  rename_i title timeSpec first last timeSpec? before after definition next
  have listed : (⟨mainModel, timeSpec?, before ++ definition :: after⟩ : Document.Model α) ∈
      first ++ ⟨mainModel, timeSpec?, before ++ definition :: after⟩ :: last := by simp
  have builds := Model.agree_build parenthesizes before after rfl undotted hiddenPlain
    (fun vars done v member => (avoids _ listed vars (toOption_eq_some.mpr done) v member).1 rfl)
    timeSpec? false
  unfold declareAll
  apply Agree.bind_same
  intro library _
  rw [List.foldlM_append, List.foldlM_append]
  apply Agree.bind_same
  intro models _
  rw [List.foldlM_cons, List.foldlM_cons]
  have one : Agree (Rerouted (Name.canonical definition.name) name call index)
      (declareOwn models ⟨mainModel, timeSpec?, before ++ definition :: after⟩)
      (declareOwn models ⟨mainModel, timeSpec?, before ++ next :: after⟩) := by
    refine agree_declareOwn rfl rfl fun unknown => builds.bind ?_
    rintro model model' ⟨detour, isVia, isSource, leads⟩
    have each : List.Forall₂ detour.Turns models models :=
      List.forall₂_same.mpr fun model member => .same fun same =>
        unknown (findNamed_isSome.mpr ⟨model, member, same⟩)
    have both := rel_insertNamed?_of_turns each (.main leads)
    generalize insertNamed? Model.name model models = result,
      insertNamed? Model.name model' models = result' at both
    cases both with
    | none => exact .error
    | some both => exact .ok ⟨detour, ⟨isVia, isSource⟩, both.1, model, both.2.1, model', leads⟩
  refine one.bind fun models others start =>
    Agree.foldlM (List.forall₂_same.mpr fun _ _ => rfl) start ?_
  rintro models others own _ rerouted rfl
  exact agree_declareOwn_of_rerouted rerouted own

/-- A project compiles with an argument in parentheses exactly if it does without, and then it takes
the detour through the variable into which the argument moves. -/
theorem agree_compile (unreserved : isReserved (Name.canonical (Name.canonical name)) = false) :
    Agree (fun project next => ∃ detour : Detour, Hides detour owner name call index ∧
        detour.IsClear ∧ detour.Reroutes project next ∧
        ∀ model ∈ project.models, ∀ v ∈ model.vars, v.Ignores detour.via)
      (compile document) (compile other) := by
  have declares := agree_declareAll parenthesizes plain undotted avoids
  have own := (parenthesizes.isPlain_owner plain).2.1
  obtain ⟨spec, isMain, isMain'⟩ : other.timeSpec = document.timeSpec ∧
      (document.models.all fun model => model.name != mainModel) = false ∧
      (other.models.all fun model => model.name != mainModel) = false := by
    obtain ⟨parenthesizes⟩ := parenthesizes
    simp
  unfold compile
  rw [spec, isMain, isMain']
  apply Agree.bind_same
  intro _ _
  rw [if_neg Bool.false_ne_true, if_neg Bool.false_ne_true]
  refine declares.with_left.bind ?_
  rintro models others ⟨declared, detour, hides, each, model, member, next, leads⟩
  -- no other variable reaches for the middle of the detour, whose name is made for an argument
  have clear : detour.IsClear := leads.isClear (hides.source ▸ undotted) (hides.source ▸ unreserved)
    own (madeFor_argument _ call index) hides.via
  have ignores : ∀ model ∈ models, ∀ v ∈ model.vars, v.Ignores detour.via :=
    hides.via ▸ ignores_of_declareAll avoids declared
  have distinct : ∀ model ∈ models, Distinct Variable.name model.vars := fun model member =>
    (comes_of_declareAll declared model member).ascending.distinct
  rw [modelOrder_congr (each.imp fun _ _ turns => ⟨turns.name, turns.instantiated⟩)]
  apply Agree.bind_same
  intro order _
  have links : Agree (List.Forall₂ detour.Linked) (linkAll models order) (linkAll others order) :=
    agree_linkAll (fun _ _ turns => turns.name) each (fun _ _ model _ so listed turns =>
      Detour.agree_link so turns (ignores model listed) clear (distinct model listed)) order
  refine links.with_left.bind ?_
  rintro linked linked' ⟨done, both⟩
  refine .ok ⟨detour, hides, clear, ⟨rfl, ?_⟩, fun model member => ?_⟩
  · refine List.rel_filterMap (fun model next turns => ?_) each
    rw [turns.name]
    have one := Detour.rel_named? both model.name
    generalize LinkedModel.named? linked model.name = found,
      LinkedModel.named? linked' model.name = found' at one
    cases one with
    | none => exact .none
    | some one => exact .some one.turns
  · obtain ⟨_, -, found⟩ := List.mem_filterMap.mp member
    exact ignores _ (linkAll_eq_ok done model (mem_of_findNamed found)).1

end

end Project

/-! ## Runs -/

namespace Simulation

/-- A project whose main model has a variable `v` that smooths an argument. -/
def smoothing (argument : Equation Float) (further : List (Equation Float))
    (others : List (Document.Variable Float)) (models : List (Document.Model Float)) :
    Document.Project Float :=
  ⟨"", ⟨0, 3, 1, none⟩, [] ++ ⟨mainModel, none,
    [] ++ .auxiliary ⟨"v", "", some (.call "smth1" (argument :: further)), none⟩ :: others⟩ :: models⟩

theorem parenthesizes_smoothing (name : Name) {further : List (Equation Float)}
    (simple : Equation.callsAll further = []) (others : List (Document.Variable Float))
    (models : List (Document.Model Float)) :
    Document.Project.Parenthesizes name 0 0 (Name.canonical "v")
      (smoothing (.reference name) further others models)
      (smoothing (.group (.reference name)) further others models) := by
  have stateful : isPrimitive (Name.canonical "smth1") = false := by decide +kernel
  have inner := @Equation.Parenthesizes.argument Float name "smth1" [] further stateful
  rw [List.nil_append, simple] at inner
  have moves : Document.Variable.Parenthesizes name 0 0
      (.auxiliary ⟨"v", "", some (.call "smth1" (.reference name :: further)), none⟩)
      (.auxiliary ⟨"v", "", some (.call "smth1" (.group (.reference name) :: further)), none⟩) :=
    .intro rfl inner
  have whole := @Document.Project.Parenthesizes.intro Float name 0 0 "" ⟨0, 3, 1, none⟩ [] models none []
    others _ _ moves
  have named : (Document.Variable.auxiliary ⟨"v", "", some (.call "smth1" (.reference name :: further)),
      none⟩ : Document.Variable Float).name = "v" := rfl
  rwa [named] at whole

/-- Arguments of which it matters whether they stand in parentheses: the name of the time; one for which
the name of the new variable is taken; that of a constant; and one whose place in the order of evaluation
decides whether an overridden stock is read before it is set. -/
def sensitive : List (Name × (Equation Float → Document.Project Float)) :=
  let define (name : Name) (equation : Equation Float) : Document.Variable Float :=
    .auxiliary ⟨name, "", some equation, none⟩
  let next : Equation Float := .binary .add (.reference "time") (.constant "1" 1)
  [("time", fun argument => smoothing argument [] [] []),
    ("a", fun argument => smoothing argument []
      [define "a" (.reference "time"), define "$·v·0·arg0" next] []),
    ("pi", fun argument => smoothing argument [] [define "pi" (.reference "time")] []),
    ("b", fun argument => smoothing argument [.group (.reference "m.s")]
      [define "b" (.reference "m.y"), define "x" next, .module ⟨"m", "sub", [⟨"x", "m.s"⟩]⟩]
      [⟨"sub", none, [.stock ⟨"s", "", some next, [], [], false⟩, define "y" (.reference "time")]⟩])]

end Simulation

end StockFlow
