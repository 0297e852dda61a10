import StockFlow.Proofs.Catalog
import StockFlow.Proofs.Linking
import StockFlow.Proofs.Settling

/-!
# The order of definitions

Models and variables are kept in the order of their names as they are declared one after the other. What
a list of declarations comes to is therefore the same in every order of the list: either all its
members can be declared and have different names, or it fails.
-/

namespace StockFlow

/-! ## Declaring one after the other -/

section Inserting

variable {ε β γ : Type} {nameOf : β → Name} {item : β} {items result : List β}

theorem perm_insertNamed? (inserted : insertNamed? nameOf item items = some result) :
    result.Perm (item :: items) := by
  induction items generalizing result with
  | nil =>
    cases inserted
    exact .refl _
  | cons head tail ih =>
    unfold insertNamed? at inserted
    split at inserted
    · cases inserted
    · split at inserted
      · cases inserted
        exact .refl _
      · obtain ⟨rest, inner, rfl⟩ := Option.map_eq_some_iff.mp inserted
        exact ((ih inner).cons head).trans (.swap item head tail)

/-- Items in order of names are determined by what they are. -/
theorem Ascending.eq_of_perm (first : Ascending nameOf items) (second : Ascending nameOf result)
    (shuffled : items.Perm result) : items = result :=
  first.ext second fun _ => shuffled.mem_iff

/-- Items that are checked and put into their places one after the other come to all of them in order of
names. -/
theorem foldlM_insertNamed?_eq_ok {check : γ → Except ε β} {step : List β → γ → Except ε (List β)}
    (steps : ∀ items x result, Ascending nameOf items → (step items x = .ok result ↔
      ∃ item, check x = .ok item ∧ insertNamed? nameOf item items = some result))
    (ascending : Ascending nameOf items) {xs : List γ} : xs.foldlM step items = .ok result ↔
      Ascending nameOf result ∧ ∃ checked, List.Forall₂ (fun x item => check x = .ok item) xs checked ∧
        result.Perm (items ++ checked) := by
  induction xs generalizing items with
  | nil =>
    simp only [List.foldlM_nil, pure_eq_ok, List.forall₂_nil_left_iff, exists_eq_left,
      List.append_nil]
    constructor
    · rintro rfl
      exact ⟨ascending, .refl _⟩
    · rintro ⟨ordered, shuffled⟩
      exact ascending.eq_of_perm ordered shuffled.symm
  | cons x xs ih =>
    simp only [List.foldlM_cons, bind_eq_ok, steps items x _ ascending]
    constructor
    · rintro ⟨between, ⟨item, one, inserted⟩, folded⟩
      have ordered := ascending.insertNamed? inserted
      obtain ⟨last, checked, each, shuffled⟩ := (ih ordered).mp folded
      exact ⟨last, item :: checked, .cons one each, shuffled.trans
        (((perm_insertNamed? inserted).append_right checked).trans List.perm_middle.symm)⟩
    · rintro ⟨last, _, each, shuffled⟩
      cases each with
      | @cons _ item _ checked one each =>
      have free : ∀ other ∈ items, nameOf other ≠ nameOf item := by
        have names : ((items ++ item :: checked).map nameOf).Nodup :=
          (shuffled.map nameOf).nodup_iff.mp last.distinct
        rw [List.map_append] at names
        exact fun other member => (List.nodup_append.mp names).2.2 _ (List.mem_map_of_mem member) _
          (by simp)
      obtain ⟨between, inserted⟩ := (exists_insertNamed?_iff ascending).mpr free
      refine ⟨between, ⟨item, one, inserted⟩, (ih (ascending.insertNamed? inserted)).mpr
        ⟨last, checked, each, shuffled.trans ?_⟩⟩
      exact List.perm_middle.trans ((perm_insertNamed? inserted).append_right checked).symm

/-- What a list of declarations comes to does not depend on its order. -/
theorem foldlM_insertNamed?_perm {check : γ → Except ε β} {step : List β → γ → Except ε (List β)}
    (steps : ∀ items x result, Ascending nameOf items → (step items x = .ok result ↔
      ∃ item, check x = .ok item ∧ insertNamed? nameOf item items = some result))
    (ascending : Ascending nameOf items) {xs ys : List γ} (shuffled : xs.Perm ys)
    (folded : xs.foldlM step items = .ok result) : ys.foldlM step items = .ok result := by
  obtain ⟨ordered, checked, each, reached⟩ := (foldlM_insertNamed?_eq_ok steps ascending).mp folded
  obtain ⟨others, each, same⟩ := List.perm_comp_forall₂ shuffled.symm each
  exact (foldlM_insertNamed?_eq_ok steps ascending).mpr
    ⟨ordered, others, each, reached.trans (same.symm.append_left items)⟩

end Inserting

variable {α : Type} [Scalar α]

/-! ## Models -/

namespace Model

/-- A check of a definition, with the variable that it defines. -/
def checkDefinition (definition : Document.Variable α) : Except Fault (Variable α) :=
  Fault.attribute definition.name (Variable.ofDefinition definition)

theorem declare_eq_ok_iff (vars : List (Variable α)) (definition : Document.Variable α)
    (result : List (Variable α)) : declare vars definition = .ok result ↔
      ∃ v, checkDefinition definition = .ok v ∧ insertNamed? Variable.name v vars = some result := by
  rw [declare_eq_ok]
  exact exists_congr fun v => and_congr_left' attribute_eq_ok.symm

end Model

/-- A model with its definitions in another order. -/
structure Document.Model.Rearranges (model other : Document.Model α) : Prop where
  name : other.name = model.name
  timeSpec? : other.timeSpec? = model.timeSpec?
  definitions : model.definitions.Perm other.definitions

/-- A project with its models, and the definitions in each, in another order. -/
structure Document.Project.Rearranges (document other : Document.Project α) : Prop where
  name : other.name = document.name
  timeSpec : other.timeSpec = document.timeSpec
  models : Relation.Comp (List.Forall₂ Model.Rearranges) List.Perm document.models other.models

namespace Document

omit [Scalar α] in
theorem Model.Rearranges.symm {model other : Document.Model α} (rearranges : model.Rearranges other) :
    other.Rearranges model :=
  ⟨rearranges.name.symm, rearranges.timeSpec?.symm, rearranges.definitions.symm⟩

omit [Scalar α] in
theorem Project.Rearranges.symm {document other : Document.Project α}
    (rearranges : document.Rearranges other) : other.Rearranges document where
  name := rearranges.name.symm
  timeSpec := rearranges.timeSpec.symm
  models := by
    obtain ⟨models, each, shuffled⟩ := rearranges.models
    have back : List.Forall₂ Model.Rearranges models document.models :=
      List.forall₂_iff_get.mpr ⟨each.length_eq.symm, fun i inside inside' =>
        ((List.forall₂_iff_get.mp each).2 i inside' inside).symm⟩
    exact List.perm_comp_forall₂ shuffled.symm back

end Document

theorem Model.build_rearranged {document other : Document.Model α} {implicit : Bool} {model : Model α}
    (rearranges : document.Rearranges other) (built : build document implicit = .ok model) :
    build other implicit = .ok model := by
  unfold build at built ⊢
  obtain ⟨declared, first, rest⟩ := bind_eq_ok.mp built
  have same := foldlM_insertNamed?_perm (fun vars definition result _ =>
    declare_eq_ok_iff vars definition result) .nil rearranges.definitions first
  rw [rearranges.name, rearranges.timeSpec?]
  exact bind_eq_ok.mpr ⟨declared, same, rest⟩

/-! ## Projects -/

namespace Project

/-- A check of a declared model: of its time specification, and of the model itself. -/
def checkModel (document : Document.Model α) : Except Fault (Model α) := do
  match document.timeSpec? with
  | some timeSpec => timeSpec.validate
  | none => .ok ()
  Model.build document false

theorem name_of_checkModel {document : Document.Model α} {model : Model α}
    (checked : checkModel document = .ok model) : model.name = document.name := by
  have built : Model.build document false = .ok model := by
    unfold checkModel at checked
    split at checked
    · exact (bind_eq_ok.mp checked).choose_spec.2
    · exact checked
  obtain ⟨-, -, -, -, -, name, -⟩ := Model.build_eq_ok built
  exact name

theorem declareOwn_eq_ok_iff (models : List (Model α)) (document : Document.Model α)
    (result : List (Model α)) (ascending : Ascending Model.name models) :
    declareOwn models document = .ok result ↔
      ∃ model, checkModel document = .ok model ∧ insertNamed? Model.name model models = some result := by
  unfold declareOwn
  split
  · -- A model whose name is taken fails early, as it would when it is put into its place.
    rename_i known
    obtain ⟨other, member, named⟩ := findNamed_isSome.mp known
    refine iff_of_false nofun ?_
    rintro ⟨model, checked, inserted⟩
    exact (exists_insertNamed?_iff ascending).mp ⟨result, inserted⟩ other member
      (named.trans (name_of_checkModel checked).symm)
  · unfold checkModel
    cases spec : document.timeSpec? with
    | none => exact declareModel_eq_ok
    | some timeSpec =>
      simp only [bind_eq_ok, declareModel_eq_ok]
      constructor
      · rintro ⟨u, valid, model, built, inserted⟩
        exact ⟨model, ⟨u, valid, built⟩, inserted⟩
      · rintro ⟨model, ⟨u, valid, built⟩, inserted⟩
        exact ⟨u, valid, model, built, inserted⟩

theorem checkModel_rearranged {document other : Document.Model α} {model : Model α}
    (rearranges : document.Rearranges other) (checked : checkModel document = .ok model) :
    checkModel other = .ok model := by
  unfold checkModel at checked ⊢
  rw [rearranges.timeSpec?]
  split at checked
  · obtain ⟨u, valid, built⟩ := bind_eq_ok.mp checked
    exact bind_eq_ok.mpr ⟨u, valid, Model.build_rearranged rearranges built⟩
  · exact Model.build_rearranged rearranges checked

theorem declareAll_rearranged {document other : Document.Project α} {models : List (Model α)}
    (rearranges : document.Rearranges other) (declared : declareAll document = .ok models) :
    declareAll other = .ok models := by
  unfold declareAll at declared ⊢
  obtain ⟨library, first, second⟩ := bind_eq_ok.mp declared
  have ascending := ascending_of_library first
  obtain ⟨between, each, shuffled⟩ := rearranges.models
  refine bind_eq_ok.mpr ⟨library, first, foldlM_insertNamed?_perm
    declareOwn_eq_ok_iff ascending shuffled ?_⟩
  obtain ⟨ordered, checked, own, reached⟩ :=
    (foldlM_insertNamed?_eq_ok declareOwn_eq_ok_iff ascending).mp second
  refine (foldlM_insertNamed?_eq_ok declareOwn_eq_ok_iff ascending).mpr ⟨ordered, checked, ?_, reached⟩
  refine (forall₂_trans each.flip own).imp ?_
  rintro model result ⟨_, rearranged, one⟩
  exact checkModel_rearranged rearranged one

theorem compile_rearranged {document other : Document.Project α} {project : Project α}
    (rearranges : document.Rearranges other) (compiled : compile document = .ok project) :
    compile other = .ok project := by
  have mains : (other.models.all fun model => model.name != mainModel) =
      document.models.all fun model => model.name != mainModel := by
    obtain ⟨between, each, shuffled⟩ := rearranges.models
    rw [← shuffled.all_eq, Bool.eq_iff_iff, List.all_eq_true, List.all_eq_true]
    constructor
    · intro all model member
      obtain ⟨next, inside, rearranged⟩ := exists_right_of_mem each member
      exact rearranged.name ▸ all next inside
    · intro all next member
      obtain ⟨model, inside, rearranged⟩ := exists_left_of_mem each member
      exact rearranged.name.symm ▸ all model inside
  unfold compile at compiled ⊢
  rw [rearranges.timeSpec, rearranges.name, mains]
  obtain ⟨u, valid, compiled⟩ := bind_eq_ok.mp compiled
  refine bind_eq_ok.mpr ⟨u, valid, ?_⟩
  split at compiled
  · cases compiled
  · obtain ⟨models, declared, rest⟩ := bind_eq_ok.mp compiled
    rw [if_neg ‹_›]
    exact bind_eq_ok.mpr ⟨models, declareAll_rearranged rearranges declared, rest⟩

end Project

/-! ## Runs -/

namespace Simulation

/-- The order in which a document lists its models and their variables has no influence: in every order it
compiles to the same project or fails, and it makes the same run or none. -/
theorem ofProject_rearranged {document other : Document.Project α}
    (rearranges : document.Rearranges other) :
    (∀ project, Project.compile document = .ok project ↔ Project.compile other = .ok project) ∧
      ∀ run, (Project.compile document >>= ofProject) = .ok run ↔
        (Project.compile other >>= ofProject) = .ok run := by
  have compiles : ∀ project, Project.compile document = .ok project ↔
      Project.compile other = .ok project := fun project =>
    ⟨Project.compile_rearranged rearranges, Project.compile_rearranged rearranges.symm⟩
  refine ⟨compiles, fun run => ?_⟩
  simp only [bind_eq_ok, compiles]

/-- The nested modules from the innermost model to the outermost, each with its variables reversed. -/
def reversed : Document.Project Float :=
  { Plan.nested with
    models := (Plan.nested.models.map fun model =>
      { model with definitions := model.definitions.reverse }).reverse }

theorem ofProject_reversed : ∃ project run, Project.compile Plan.nested = .ok project ∧
    Project.compile reversed = .ok project ∧ (Project.compile reversed >>= ofProject) = .ok run ∧
      run.plan.size = 8 := by
  have rearranges : Plan.nested.Rearranges reversed := by
    refine ⟨rfl, rfl, _, ?_, (List.reverse_perm _).symm⟩
    rw [List.forall₂_map_right_iff]
    exact List.forall₂_same.mpr fun model _ => ⟨rfl, rfl, (List.reverse_perm _).symm⟩
  obtain ⟨compiles, runs⟩ := ofProject_rearranged rearranges
  have check : ∃ project ∈ (Project.compile Plan.nested).toOption,
      ∃ run ∈ (ofProject project).toOption, run.plan.size = 8 := by
    rw [Project.compile_eq]
    decide +kernel
  obtain ⟨project, compiled, run, ready, size⟩ := check
  have compiled := toOption_eq_some.mp compiled
  have ready := toOption_eq_some.mp ready
  exact ⟨project, run, compiled, (compiles project).mp compiled,
    (runs run).mp (bind_eq_ok.mpr ⟨project, compiled, ready⟩), size⟩

end Simulation
end StockFlow
