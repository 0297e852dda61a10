import StockFlow.Proofs.Parentheses
import StockFlow.Proofs.Recasting

/-!
# Projects under other names

What each variable of a model depends on is under new names the same, but for the names, so a project
compiles under new names exactly if it does under the old ones: where an outline and its sources match
another's, closures of dependencies succeed alike, in whatever order the variables stand.
-/

namespace StockFlow

variable {α : Type}

open Name (Derives Renames relabel)

/-! ## Dependencies -/

namespace Dependencies

open Relation (TransGen)

variable {moment : Moment} {models others : Keyed Outline} {outline longer : Outline}

/-- Whether the variables of two outlines match, have names of their own in both, and wait for sources
that lead to matching variables. -/
structure Simulates (moment : Moment) (models others : Keyed Outline) (related : Node → Node → Prop)
    (outline longer : Outline) : Prop where
  both : Matches related outline longer
  distinct : Distinct Node.name outline
  distinct' : Distinct Node.name longer
  named : ∀ node node' next next', related node next → related node' next' →
    (node.name = node'.name ↔ next.name = next'.name)
  isStock : ∀ node next, related node next → next.isStock = node.isStock
  forth : ∀ node next, related node next → ∀ source ∈ node.sources, ∃ source' ∈ next.sources,
    Agree (Option.Rel related) (resolve moment models outline node.name source)
      (resolve moment others longer next.name source')
  back : ∀ node next, related node next → ∀ source' ∈ next.sources, ∃ source ∈ node.sources,
    Agree (Option.Rel related) (resolve moment models outline node.name source)
      (resolve moment others longer next.name source')

namespace Simulates

variable {related : Node → Node → Prop}
  (simulates : Simulates moment models others related outline longer)
include simulates

theorem isGiven_eq {node next : Node} (both : related node next) :
    isGiven moment next = isGiven moment node := by
  rw [isGiven, isGiven, simulates.isStock node next both]

theorem flip : Simulates moment others models (flip related) longer outline where
  both := simulates.both.flip
  distinct := simulates.distinct'
  distinct' := simulates.distinct
  named next next' node node' one two :=
    (simulates.named node node' next next' one two).symm
  isStock next node one := (simulates.isStock node next one).symm
  forth next node one source' among := by
    obtain ⟨source, here, agree⟩ := simulates.back node next one source' among
    exact ⟨source, here, agree.flip.mono fun _ _ _ _ => rel_flip⟩
  back next node one source among := by
    obtain ⟨source', here, agree⟩ := simulates.forth node next one source among
    exact ⟨source', here, agree.flip.mono fun _ _ _ _ => rel_flip⟩

theorem resolves (resolves : Resolves moment models outline) : Resolves moment others longer := by
  intro next member open_ source' among
  obtain ⟨node, inside, both⟩ := simulates.both.exists_left member
  obtain ⟨source, here, agree⟩ := simulates.back node next both source' among
  exact agree.exists_iff.mp (resolves node inside (simulates.isGiven_eq both ▸ open_) source here)

theorem exists_awaits {node next target' : Node} (both : related node next)
    (awaits : Awaits moment others longer next target') :
    ∃ target, Awaits moment models outline node target ∧ related target target' := by
  obtain ⟨open_, source', among, resolved'⟩ := awaits
  obtain ⟨source, here, agree⟩ := simulates.back node next both source' among
  obtain ⟨found, resolved⟩ := agree.exists_iff.mpr ⟨_, resolved'⟩
  cases agree.of_ok resolved resolved' with
  | some both' => exact ⟨_, ⟨simulates.isGiven_eq both ▸ open_, source, here, resolved⟩, both'⟩

/-- A cycle of one outline is one of the other. -/
theorem acyclic (acyclic : Acyclic moment models outline) : Acyclic moment others longer := by
  intro next member cycle
  obtain ⟨node, inside, both⟩ := simulates.both.exists_left member
  have follow : ∀ {target'}, TransGen (Awaits moment others longer) next target' →
      ∃ target ∈ outline, TransGen (Awaits moment models outline) node target ∧
        related target target' := by
    intro target' reached
    induction reached with
    | single awaits =>
      obtain ⟨target, awaits, both'⟩ := simulates.exists_awaits both awaits
      exact ⟨target, awaits.mem, .single awaits, both'⟩
    | tail _ awaits ih =>
      obtain ⟨middle, -, reached, both'⟩ := ih
      obtain ⟨target, awaits, both'⟩ := simulates.exists_awaits both' awaits
      exact ⟨target, awaits.mem, reached.tail awaits, both'⟩
  obtain ⟨again, inside', reached, both'⟩ := follow cycle
  have same := (simulates.named node again next next both both').mpr rfl
  obtain rfl := simulates.distinct.eq_of_name_eq inside inside' same
  exact acyclic node inside reached

/-- Closures of outlines whose sources lead to matching variables succeed alike. -/
theorem agree_closure :
    Agree (fun _ _ => True) (closure moment models outline) (closure moment others longer) := by
  refine .of_exists_iff ?_ fun _ _ _ _ => trivial
  rw [exists_closure_iff simulates.distinct, exists_closure_iff simulates.distinct',
    Iff.intro simulates.resolves simulates.flip.resolves, Iff.intro simulates.acyclic simulates.flip.acyclic]

end Simulates

end Dependencies

/-! ## What variables depend on -/

section

variable {f : Name → Name} {known : Name → Prop} (renames : Renames f known)

/-- An equation that calls primitives alone declares the names that it refers to, but for reserved ones. -/
theorem Equation.mem_names_iff {name : Name} {equation : Equation α}
    (primitive : ∀ call ∈ equation.calls, isPrimitive call.1 = true) :
    name ∈ equation.names ↔ name ∈ equation.references ∧ isReserved name = false :=
  ⟨fun member => mem_references_of_declared primitive (NameSet.mem_ofList.mp member),
    fun ⟨member, unreserved⟩ => mem_names_of_references member unreserved⟩

include renames

theorem Equation.Reduces.eq_mapNames {equation other : Equation α}
    (reduces : equation.Reduces f known other) : other = equation.mapNames (relabel f) := by
  rw [reduces.relabels, mapReferences_eq_mapNames]
  intro call member
  exact renames.relabel_reserved (Bool.or_eq_true_iff.mpr (.inl (reduces.primitive call member)))

theorem Equation.Reduces.mem_names {equation other : Equation α}
    (reduces : equation.Reduces f known other) {name : Name} :
    name ∈ other.names ↔ ∃ old ∈ equation.names, relabel f old = name := by
  have primitive : ∀ call ∈ other.calls, isPrimitive call.1 = true := by
    rw [reduces.eq_mapNames renames, calls_mapNames]
    refine List.forall_mem_map.mpr fun call member => ?_
    have reserved : isReserved call.1 = true :=
      Bool.or_eq_true_iff.mpr (.inl (reduces.primitive call member))
    rw [renames.relabel_reserved reserved]
    exact reduces.primitive call member
  rw [mem_names_iff primitive, reduces.eq_mapNames renames, references_mapNames, List.mem_map]
  constructor
  · rintro ⟨⟨old, refers, rfl⟩, unreserved⟩
    rw [(reduces.derives old refers).isReserved_relabel renames] at unreserved
    exact ⟨old, (mem_names_iff reduces.primitive).mpr ⟨refers, unreserved⟩, rfl⟩
  · rintro ⟨old, member, rfl⟩
    obtain ⟨refers, unreserved⟩ := (mem_names_iff reduces.primitive).mp member
    refine ⟨⟨old, refers, rfl⟩, ?_⟩
    rwa [(reduces.derives old refers).isReserved_relabel renames]

end

/-- Whether the analysis sees of a variable the same as of another one, but for the names that a renaming
of some identifiers gives. -/
structure Node.Recasts (f : Name → Name) (known : Name → Prop) (node next : Node) : Prop where
  name : next.name = relabel f node.name
  derives : Derives known node.name
  isStock : next.isStock = node.isStock
  model? : next.model? = node.model?
  reads : ∀ source ∈ node.sources, Derives known source
  sources : ∀ source, source ∈ next.sources ↔ ∃ old ∈ node.sources, relabel f old = source

/-- Whether a module that was made for a call is another one under the new names. -/
structure Module.Recasts (f : Name → Name) (known : Name → Prop) (module next : Module) : Prop where
  name : next.name = relabel f module.name
  model : next.model = module.model
  inputs : List.Forall₂ (Input.Relabels (relabel f)) module.inputs next.inputs
  isCall : module.IsCall known

namespace Variable

variable {f : Name → Name} {known : Name → Prop} {v w : Variable α}

theorem Reduces.equation (reduces : v.Reduces f known w) {equation : Equation α}
    (own : v.equation? = some equation) :
    ∃ other, w.equation? = some other ∧ equation.Reduces f known other := by
  refine ⟨equation.mapReferences (relabel f), ?_, ⟨rfl, reduces.derives.equation equation own⟩,
    reduces.primitive equation own⟩
  rw [reduces.relabels.equation?_eq, own, Option.map_some]

theorem mem_sources_module {module : Module} {source : Path} :
    source ∈ (Variable.module module : Variable α).sources ↔
      ∃ input ∈ module.inputs, input.source = .relative source := by
  rw [sources, NameSet.mem_ofList, List.mem_filterMap]
  refine exists_congr fun input => and_congr_right fun _ => ?_
  cases input.source <;> simp

theorem Reduces.module {module next : Module}
    (reduces : (Variable.module module : Variable α).Reduces f known (.module next)) :
    module.Recasts f known next := by
  obtain ⟨⟨relabels, derives⟩, -⟩ := reduces
  cases relabels with
  | module each => exact ⟨rfl, rfl, each, derives.module _ rfl⟩

/-- The analysis of dependencies sees of a variable under new names the same, but for the names. -/
theorem Reduces.node (reduces : v.Reduces f known w) (renames : Renames f known) :
    Node.Recasts f known v.node w.node := by
  have both : (∀ source ∈ v.sources, Derives known source) ∧
      ∀ source, source ∈ w.sources ↔ ∃ old ∈ v.sources, relabel f old = source := by
    cases own : v.equation? with
    | some equation =>
      obtain ⟨other, own', reduced⟩ := reduces.equation own
      rw [sources_of_equation? own, sources_of_equation? own']
      refine ⟨fun source member => ?_, fun source => reduced.mem_names renames⟩
      exact reduced.derives source ((Equation.mem_names_iff reduced.primitive).mp member).1
    | none =>
      obtain ⟨⟨relabels, derives⟩, -⟩ := reduces
      cases relabels with
      | stock | formula => cases own
      | @module name model inputs others each =>
        obtain ⟨function, -, wired⟩ := (derives.module _ rfl).function
        simp only [mem_sources_module]
        refine ⟨?_, fun source => ⟨?_, ?_⟩⟩
        · rintro source ⟨input, member, relative⟩
          have path := (wired input member).2
          rwa [relative] at path
        · rintro ⟨other, member, relative⟩
          obtain ⟨input, inside, one⟩ := exists_left_of_mem each member
          obtain ⟨path, old, new⟩ := one.source
          rw [new] at relative
          cases relative
          exact ⟨path, ⟨input, inside, old⟩, rfl⟩
        · rintro ⟨old, ⟨input, member, relative⟩, rfl⟩
          obtain ⟨other, inside, one⟩ := exists_right_of_mem each member
          obtain ⟨path, given, new⟩ := one.source
          rw [given] at relative
          cases relative
          exact ⟨other, inside, new⟩
  have kept : w.isStock = v.isStock ∧ w.module?.map Module.model = v.module?.map Module.model := by
    obtain ⟨⟨relabels, -⟩, -⟩ := reduces
    cases relabels <;> exact ⟨rfl, rfl⟩
  exact ⟨reduces.relabels.name_eq, reduces.derives.name, kept.1, kept.2, both.1, both.2⟩

end Variable

namespace Model.Recasts

variable {f : Name → Name} {known : Name → Prop} {model other : Model α}
  (recasts : model.Recasts f known other) (renames : Renames f known)
include recasts

theorem modules : Matches (Module.Recasts f known) model.modules other.modules := by
  refine recasts.vars.filterMap fun v w reduces => ?_
  obtain ⟨⟨relabels, -⟩, -⟩ := id reduces
  cases relabels with
  | stock | formula => exact .none
  | module => exact .some reduces.module

include renames

/-- The dependencies of a model can be closed under new names exactly if they can under the old ones, where
the models that it instantiates are the same. -/
theorem agree_closure {models others : Keyed Outline}
    (inside : ∀ module ∈ model.modules, models.get? module.model = others.get? module.model)
    (moment : Moment) : Agree (fun _ _ => True) (Dependencies.closure moment models model.outline)
      (Dependencies.closure moment others other.outline) := by
  have both : Matches (Node.Recasts f known) model.outline other.outline :=
    recasts.vars.map fun v w reduces => reduces.node renames
  have distinct' : Distinct Node.name other.outline :=
    LinkedModel.distinct_outline recasts.ordered'.distinct
  have named : ∀ node node' next next' : Node, node.Recasts f known next → node'.Recasts f known next' →
      (node.name = node'.name ↔ next.name = next'.name) := by
    intro node node' next next' one two
    rw [one.name, two.name]
    exact ⟨congrArg (relabel f), one.derives.relabel_inj two.derives renames⟩
  have leads : ∀ node next : Node, node.Recasts f known next → ∀ source, Derives known source →
      Agree (Option.Rel (Node.Recasts f known))
        (Dependencies.resolve moment models model.outline node.name source)
        (Dependencies.resolve moment others other.outline next.name (relabel f source)) := by
    intro node next one source derives
    have find : ∀ {name}, Derives known name → Option.Rel (Node.Recasts f known)
        (model.outline.find? name) (other.outline.find? (relabel f name)) := by
      intro name derives
      refine both.rel_findNamed distinct' fun node _ next one => ?_
      rw [one.name]
      exact ⟨congrArg (relabel f), one.derives.relabel_inj derives renames⟩
    have further : Option.Rel (Node.Recasts f known) (model.outline.find? (Path.head source))
        (other.outline.find? (Path.head (relabel f source))) ∧
          (Path.split (relabel f source)).2 = (Path.split source).2 := by
      rcases derives.split_cases renames with ⟨plain, plain'⟩ | ⟨head, rest, known, split, split'⟩
      · rw [Path.head_of_not_dotted plain, Path.head_of_not_dotted plain', Path.split_of_not_dotted plain,
          Path.split_of_not_dotted plain']
        exact ⟨find derives, rfl⟩
      · rw [Path.head, Path.head, split, split']
        exact ⟨find known, rfl⟩
    refine Dependencies.agree_resolve (fun _ _ one => ⟨one.isStock, one.model?⟩) further.1 further.2 ?_
    rintro rest - inner ⟨node, member, instantiates⟩
    obtain ⟨v, declared, rfl⟩ := List.mem_map.mp member
    obtain ⟨module, own, rfl⟩ := Option.map_eq_some_iff.mp instantiates
    rw [inside module (List.mem_filterMap.mpr ⟨v, declared, own⟩)]
    cases others.get? module.model with
    | none => exact .none
    | some => exact .some rfl
  refine Dependencies.Simulates.agree_closure ⟨both, LinkedModel.distinct_outline recasts.ordered.distinct,
    distinct', named, fun _ _ one => one.isStock, fun node next one source among => ?_,
    fun node next one source' among => ?_⟩
  · exact ⟨relabel f source, (one.sources _).mpr ⟨source, among, rfl⟩,
      leads node next one source (one.reads source among)⟩
  · obtain ⟨source, here, rfl⟩ := (one.sources source').mp among
    exact ⟨source, here, leads node next one source (one.reads source here)⟩

end Model.Recasts

/-! ## Linking -/

variable [Scalar α]

/-- Whether two models are one of the library's, or the main model under old and under new names. -/
inductive Model.Corresponds (f : Name → Name) (known : Name → Prop) : Model α → Model α → Prop
  | library {model : Model α} {function : Stateful}
    (built : Model.build (Library.model function) true = .ok model) : Corresponds f known model model
  | main {model other : Model α} (isMain : model.name = mainModel)
    (recasts : model.Recasts f known other) : Corresponds f known model other

theorem Model.Corresponds.name_eq {f : Name → Name} {known : Name → Prop} {model other : Model α}
    (corresponds : model.Corresponds f known other) : other.name = model.name := by
  cases corresponds with
  | library => rfl
  | main _ recasts => exact recasts.name

theorem Model.Corresponds.recasts {f : Name → Name} {known : Name → Prop} {model other : Model α}
    (corresponds : model.Corresponds f known other) (isMain : model.name = mainModel) :
    model.Recasts f known other := by
  cases corresponds with
  | main _ recasts => exact recasts
  | library built =>
    rw [Library.name_of_build built] at isMain
    exact absurd isMain (Stateful.modelName_ne_main _)

theorem Model.Corresponds.eq_of_ne {f : Name → Name} {known : Name → Prop} {model other : Model α}
    (corresponds : model.Corresponds f known other) (apart : model.name ≠ mainModel) :
    other = model ∧ ∃ function, Model.build (Library.model function) true = .ok model := by
  cases corresponds with
  | library built => exact ⟨rfl, _, built⟩
  | main isMain => exact absurd isMain apart

namespace LinkedModel

variable {f : Name → Name} {known : Name → Prop}

/-- Whether two linked models correspond; if they are one of the library's, the analysis sees the same of
both, and no absolute path is read inside. -/
structure Corresponds (f : Name → Name) (known : Name → Prop) (model other : LinkedModel α) : Prop where
  models : model.toModel.Corresponds f known other.toModel
  outline : model.name ≠ mainModel → other.outline = model.outline
  absolute : model.name ≠ mainModel → model.absoluteSources = [] ∧ other.absoluteSources = []

omit [Scalar α] in
/-- Whether a model that instantiates nothing can be linked does not depend on the other models. -/
theorem exists_link_of_link {linked : List (LinkedModel α)} {model : Model α} (plain : model.modules = [])
    (distinct : Distinct Variable.name model.vars) (links : ∃ result, link linked model = .ok result)
    (others : List (LinkedModel α)) : ∃ result, link others model = .ok result := by
  obtain ⟨result, linked⟩ := links
  refine exists_link others plain distinct fun moment => ?_
  have closed := (link_eq_ok linked).closure moment
  rw [(link_eq_ok linked).outline_of_modules_nil plain] at closed
  exact Dependencies.exists_closure_of_modules_nil _ (model?_of_mem_outline plain)
    (distinct_outline distinct) ⟨_, closed⟩

omit [Scalar α] in
theorem Links.absoluteSources_of_modules_nil {linked : List (LinkedModel α)} {model : Model α}
    {result : LinkedModel α} (links : Links linked model result) (plain : model.modules = []) :
    result.absoluteSources = [] := by
  have read := links.read
  rwa [plain, List.forall₂_nil_left_iff] at read

omit [Scalar α] in
/-- Where no absolute path is read inside a module, the analysis sees of a model what it sees before it is
linked. -/
theorem outline_of_empty {linked : List (LinkedModel α)} {model : Model α} {absoluteSources : Keyed NameSet}
    (empty : ∀ entry ∈ absoluteSources, entry.2 = []) :
    model.vars.map (node linked model absoluteSources) = model.outline := by
  refine List.map_congr_left fun v _ => ?_
  have awaits : (absoluteSources.get? v.name).elim [] (awaited linked model v.name) = [] := by
    cases found : absoluteSources.get? v.name with
    | none => rfl
    | some paths =>
      obtain rfl : paths = [] := empty _ (Keyed.mem_of_get? found)
      rfl
  unfold node
  rw [awaits]
  split <;> rfl

omit [Scalar α] in
/-- The absolute paths inside a module can be read exactly if its model is linked and has its inputs. -/
theorem exists_readAbsolute_iff {linked : List (LinkedModel α)} {module : Module} :
    (∃ entry, readAbsolute linked module = .ok entry) ↔
      ∃ inner, named? linked module.model = some inner ∧
        ∀ target ∈ module.inputs.map Input.target, inner.has target = true := by
  simp only [List.forall_mem_map]
  constructor
  · rintro ⟨entry, read⟩
    obtain ⟨inner, found, targets, -⟩ := readAbsolute_eq_ok read
    exact ⟨inner, found, targets⟩
  · rintro ⟨inner, found, targets⟩
    unfold readAbsolute
    rw [found]
    refine exists_bind_eq_ok.mpr ⟨(), forM_eq_ok.mpr fun input member => ?_, _, rfl⟩
    exact if_pos (targets input member)

omit [Scalar α] in
/-- No absolute path is read inside a module whose inputs have relative sources, if none is read inside its
model. -/
theorem readAbsolute_eq_nil {models : List (LinkedModel α)} {module : Module} {entry : Name × NameSet}
    (read : readAbsolute models module = .ok entry)
    (empty : ∀ inner, named? models module.model = some inner → inner.absoluteSources = [])
    (relative : ∀ input ∈ module.inputs, ∀ path, input.source ≠ .absolute path) : entry.2 = [] := by
  obtain ⟨inner, found, -, -, paths⟩ := readAbsolute_eq_ok read
  refine List.eq_nil_iff_forall_not_mem.mpr fun path member => ?_
  rcases (paths path).mp member with deeper | ⟨input, given, absolute⟩
  · simp [absolutePaths, empty inner found] at deeper
  · exact relative input given path absolute

section

variable {linked linked' : List (LinkedModel α)}
  (each : List.Forall₂ (Corresponds f known) linked linked')
include each

theorem rel_named?_of_corresponds (name : Name) :
    Option.Rel (Corresponds f known) (named? linked name) (named? linked' name) :=
  rel_findNamed (fun _ _ both => both.models.name_eq) each name

/-- The model that a module made for a call instantiates is the library's. -/
theorem rel_named?_of_modelName (function : Stateful) :
    Option.Rel (fun inner inner' : LinkedModel α => inner'.toModel = inner.toModel ∧
        inner'.outline = inner.outline ∧ inner.absoluteSources = [] ∧ inner'.absoluteSources = [])
      (named? linked (Stateful.modelName function.name))
      (named? linked' (Stateful.modelName function.name)) := by
  have both := rel_named?_of_corresponds each (Stateful.modelName function.name)
  generalize found : named? linked (Stateful.modelName function.name) = inner,
    named? linked' (Stateful.modelName function.name) = inner' at both
  cases both with
  | none => exact .none
  | @some inner inner' both =>
    have apart : inner.name ≠ mainModel := by
      rw [name_of_named? found]
      exact Stateful.modelName_ne_main function
    refine .some ⟨?_, both.outline apart, both.absolute apart⟩
    have models := both.models
    exact (models.eq_of_ne apart).1

theorem agree_readAbsolute_of_recasts {module next : Module} (recasts : module.Recasts f known next) :
    Agree (fun entry entry' => entry.2 = [] ∧ entry'.2 = []) (readAbsolute linked module)
      (readAbsolute linked' next) := by
  obtain ⟨function, named, -⟩ := recasts.isCall.function
  have both := rel_named?_of_modelName each function
  rw [← named] at both
  have targets : next.inputs.map Input.target = module.inputs.map Input.target :=
    map_eq_of_forall₂ recasts.inputs fun _ _ one => one.target
  refine .of_exists_iff ?_ fun entry entry' read read' => ?_
  · rw [exists_readAbsolute_iff, exists_readAbsolute_iff, recasts.model, targets]
    generalize named? linked module.model = inner, named? linked' module.model = inner' at both
    cases both with
    | none => rfl
    | some both => simp only [Option.some.injEq, exists_eq_left', both.1]
  · constructor
    · refine readAbsolute_eq_nil read (fun inner found => ?_) fun input given path absolute => ?_
      · rw [found] at both
        generalize named? linked' module.model = inner' at both
        cases both with
        | some both => exact both.2.2.1
      · obtain ⟨_, -, one⟩ := exists_right_of_mem recasts.inputs given
        obtain ⟨_, relative, -⟩ := one.source
        cases absolute.symm.trans relative
    · refine readAbsolute_eq_nil read' (fun inner found => ?_) fun input given path absolute => ?_
      · rw [recasts.model] at found
        rw [found] at both
        generalize named? linked module.model = inner' at both
        cases both with
        | some both => exact both.2.2.2
      · obtain ⟨_, -, one⟩ := exists_left_of_mem recasts.inputs given
        obtain ⟨_, -, relative⟩ := one.source
        cases absolute.symm.trans relative

variable (renames : Renames f known)
include renames

/-- A model links under new names exactly if it links under the old ones. -/
theorem agree_link_of_corresponds {model other : Model α} (corresponds : model.Corresponds f known other) :
    Agree (Corresponds f known) (link linked model) (link linked' other) := by
  cases corresponds with
  -- a library model has no module, so that it links alike whatever is linked before
  | @library function built =>
    have plain := Model.modules_of_build built (Library.isBasic_model function)
    have distinct := (Model.ascending_of_build built).distinct
    refine .of_exists_iff ⟨fun links => exists_link_of_link plain distinct links linked',
      fun links => exists_link_of_link plain distinct links linked⟩ fun result result' done done' => ?_
    have links := link_eq_ok done
    have links' := link_eq_ok done'
    refine ⟨?_, fun _ => ?_, fun _ => ⟨?_, ?_⟩⟩
    · rw [links.same, links'.same]
      exact .library built
    · rw [links.outline_of_modules_nil plain, links'.outline_of_modules_nil plain]
    · exact links.absoluteSources_of_modules_nil plain
    · exact links'.absoluteSources_of_modules_nil plain
  | main isMain recasts =>
    have same : ∀ module ∈ model.modules,
        Keyed.get? (linked.map fun model => (model.name, model.outline)) module.model =
          Keyed.get? (linked'.map fun model => (model.name, model.outline)) module.model := by
      intro module member
      obtain ⟨next, -, one⟩ := recasts.modules.exists_right member
      obtain ⟨function, named, -⟩ := one.isCall.function
      rw [named, Keyed.get?_of_items, Keyed.get?_of_items]
      have both := rel_named?_of_modelName each function
      unfold named? at both
      generalize findNamed _ _ linked = inner, findNamed _ _ linked' = inner' at both
      cases both with
      | none => rfl
      | some both => exact congrArg some both.2.1.symm
    unfold link
    simp only [outline_eq]
    refine (recasts.modules.agree_mapM fun module next => agree_readAbsolute_of_recasts each).bind ?_
    intro read read' entries
    rw [outline_of_empty, outline_of_empty]
    · refine (recasts.agree_closure renames same .step).bind fun _ _ _ =>
        (recasts.agree_closure renames same .start).bind fun _ _ _ => .ok ?_
      exact ⟨.main isMain recasts, fun apart => absurd isMain apart, fun apart => absurd isMain apart⟩
    · intro entry member
      obtain ⟨_, -, both⟩ := entries.exists_left member
      exact both.2
    · intro entry member
      obtain ⟨_, -, both⟩ := entries.exists_right member
      exact both.1

end

end LinkedModel

/-! ## Compiling -/

omit [Scalar α] in
theorem Model.Recasts.instantiated_eq {f : Name → Name} {known : Name → Prop} {model other : Model α}
    (recasts : model.Recasts f known other) : other.instantiated = model.instantiated := by
  refine NameSet.ofList_congr fun name => ?_
  rw [List.mem_map, List.mem_map]
  constructor
  · rintro ⟨next, member, rfl⟩
    obtain ⟨module, inside, one⟩ := recasts.modules.exists_left member
    exact ⟨module, inside, one.model.symm⟩
  · rintro ⟨module, member, rfl⟩
    obtain ⟨next, inside, one⟩ := recasts.modules.exists_right member
    exact ⟨next, inside, one.model⟩

theorem Model.Corresponds.instantiated_eq {f : Name → Name} {known : Name → Prop} {model other : Model α}
    (corresponds : model.Corresponds f known other) : other.instantiated = model.instantiated := by
  cases corresponds with
  | library => rfl
  | main _ recasts => exact recasts.instantiated_eq

namespace Project

/-- Whether a project has the library's models and the main model of another one under new names. -/
structure Corresponds (f : Name → Name) (known : Name → Prop) (project other : Project α) : Prop where
  timeSpec : other.timeSpec = project.timeSpec
  models : List.Forall₂ (fun model other : LinkedModel α => model.toModel.Corresponds f known other.toModel)
    project.models other.models

variable {f : Name → Name} {known : Name → Prop} (renames : Renames f known)
  {definitions others : List (Document.Variable α)}
  (each : List.Forall₂ (Document.Variable.Recasts f known) definitions others)
include renames each

theorem agree_declareAll_of_recasts (title : String) (timeSpec : TimeSpec α)
    (timeSpec? : Option (TimeSpec α)) : Agree (List.Forall₂ (Model.Corresponds f known))
      (declareAll ⟨title, timeSpec, [⟨mainModel, timeSpec?, definitions⟩]⟩)
      (declareAll ⟨title, timeSpec, [⟨mainModel, timeSpec?, others⟩]⟩) := by
  have named : ∀ model other : Model α, model.Corresponds f known other → other.name = model.name :=
    fun _ _ corresponds => corresponds.name_eq
  unfold declareAll
  refine Agree.bind_same fun library declared => ?_
  have same : List.Forall₂ (Model.Corresponds f known) library library := by
    refine List.forall₂_same.mpr fun model member => ?_
    obtain ⟨function, built⟩ := built_of_library declared model member
    exact .library built
  have builds : Agree (Model.Recasts f known) (Model.build ⟨mainModel, timeSpec?, definitions⟩ false)
      (Model.build ⟨mainModel, timeSpec?, others⟩ false) :=
    Model.agree_build_of_recasts renames (by rfl) (by rfl) each false
  rw [List.foldlM_cons, List.foldlM_cons]
  refine Agree.bind (agree_declareOwn rfl rfl fun _ => ?_) fun models others both => .ok both
  refine builds.with_left.bind ?_
  rintro model other ⟨built, recasts⟩
  obtain ⟨-, -, -, -, -, isMain, -⟩ := Model.build_eq_ok built
  have both := rel_insertNamed? named (.main isMain recasts) same
  generalize insertNamed? Model.name model library = result,
    insertNamed? Model.name other library = result' at both
  cases both with
  | none => exact .error
  | some both => exact .ok both

/-- A project whose only model is the main model compiles under new names exactly if it does under the old
ones. -/
theorem agree_compile_of_recasts (title : String) (timeSpec : TimeSpec α)
    (timeSpec? : Option (TimeSpec α)) : Agree (Corresponds f known)
      (compile ⟨title, timeSpec, [⟨mainModel, timeSpec?, definitions⟩]⟩)
      (compile ⟨title, timeSpec, [⟨mainModel, timeSpec?, others⟩]⟩) := by
  unfold compile
  refine Agree.bind_same fun _ _ => ?_
  rw [List.all_cons, List.all_cons, bne_self_eq_false, Bool.false_and, if_neg Bool.false_ne_true,
    if_neg Bool.false_ne_true]
  refine (agree_declareAll_of_recasts renames each title timeSpec timeSpec?).bind fun models others both => ?_
  rw [modelOrder_congr (both.imp fun _ _ one => ⟨one.name_eq, one.instantiated_eq⟩)]
  refine Agree.bind_same fun order _ => ?_
  refine (agree_linkAll (fun _ _ one => one.name_eq) both (fun linked linked' model other so _ one =>
    LinkedModel.agree_link_of_corresponds so renames one) order).bind fun linked linked' links => ?_
  refine .ok ⟨rfl, List.rel_filterMap (fun model other one => ?_) both⟩
  rw [one.name_eq]
  have found := LinkedModel.rel_named?_of_corresponds links model.name
  generalize LinkedModel.named? linked model.name = result,
    LinkedModel.named? linked' model.name = result' at found
  cases found with
  | none => exact .none
  | some found => exact .some found.models

end Project

end StockFlow
