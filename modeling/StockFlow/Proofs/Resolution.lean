import StockFlow.Proofs.Construction

/-!
# Sources and their slots

A source that the analysis of dependencies follows to a variable leads, as a path, to a slot of that
variable, or to a stock where the variable is known beforehand. The two look paths up in different
ways, and plain names are what makes them agree.
-/

namespace StockFlow

variable {α : Type} [Scalar α]

namespace Coded

variable {project : Project α} {clock : Clock α} {root node : Coded α} {first slot : Nat}
  {model : LinkedModel α} {name : Name}

/-! ## Variables and modules of an instance -/

namespace Fits

variable (fits : Fits project clock root first model node)
include fits

theorem variable_of_get? (found : node.slots.get? name = some slot) :
    ∃ v ∈ model.vars, v.isModule = false ∧ v.name = name :=
  Layout.exists_of_get?_slotsFrom (fits.slots ▸ found)

theorem exists_get? {v : Variable α} (member : v ∈ model.vars) (own : v.isModule = false) :
    ∃ slot, node.slots.get? v.name = some slot := by
  rw [fits.slots]
  exact Layout.exists_get?_slotsFrom member own

theorem module_of_child? {child : Coded α} (found : node.child? name = some child) :
    ∃ module ∈ model.modules, module.name = name ∧ child.model = module.model ∧
      child.note.inputs =
        (Model.wires module).map fun wire => (wire.1, sourceSlot? root node wire.2) := by
  obtain ⟨module, member, named, rest⟩ :=
    exists_left_of_mem fits.modules (Instance.mem_of_child? found)
  exact ⟨module, member, named.symm.trans (Instance.name_of_child? found), rest⟩

theorem exists_child? {module : Module} (member : module ∈ model.modules) :
    ∃ child, node.child? module.name = some child ∧ child.model = module.model ∧
      child.note.inputs =
        (Model.wires module).map fun wire => (wire.1, sourceSlot? root node wire.2) := by
  obtain ⟨child, inside, named, rest⟩ := exists_right_of_mem fits.modules member
  exact ⟨child, named ▸ fits.tidy.child?_of_mem inside, rest⟩

variable (distinct : Distinct Variable.name model.vars)
include distinct

theorem isModule_eq_false {v : Variable α} (member : v ∈ model.vars)
    (found : node.slots.get? v.name = some slot) : v.isModule = false := by
  obtain ⟨w, inside, own, named⟩ := fits.variable_of_get? found
  exact distinct.eq_of_name_eq inside member named ▸ own

theorem get?_module {module : Module} (member : module ∈ model.modules) :
    node.slots.get? module.name = none := by
  refine Option.eq_none_iff_forall_ne_some.mpr fun slot found => ?_
  cases fits.isModule_eq_false distinct (Model.mem_modules.mp member) found

theorem child?_of_own {v : Variable α} (member : v ∈ model.vars) (own : v.isModule = false) :
    node.child? v.name = none := by
  refine Option.eq_none_iff_forall_ne_some.mpr fun child found => ?_
  obtain ⟨module, inside, named, -⟩ := fits.module_of_child? found
  have same := distinct.eq_of_name_eq member (Model.mem_modules.mp inside) named.symm
  rw [same] at own
  cases own

omit distinct in
theorem locate?_own {v : Variable α} (member : v ∈ model.vars) (own : v.isModule = false)
    (located : node.locate? v.name = some slot) : node.slots.get? v.name = some slot := by
  obtain ⟨other, found⟩ := fits.exists_get? member own
  rw [Instance.locate?, found] at located
  rwa [found]

omit distinct

theorem locate?_dotted {head : Name} {path rest : Path} (plain : ∀ v ∈ model.vars, v.name.IsPlain)
    (dotted : Path.IsDotted path) (split : Path.split path = (head, some rest))
    (located : node.locate? path = some slot) :
    ∃ child, node.child? head = some child ∧ child.slot? rest = some slot := by
  have absent : node.slots.get? path = none := by
    refine Option.eq_none_iff_forall_ne_some.mpr fun slot found => ?_
    obtain ⟨v, member, -, rfl⟩ := fits.variable_of_get? found
    exact (plain v member).2.1 dotted
  have named : path ≠ "" := by
    rintro rfl
    exact absurd dotted (by decide)
  simpa [split] using (Instance.locate?_eq_some absent named).mp located

/-- Behind the name of a module a path goes on in the instance below. -/
theorem slot?_inside {child : Coded α} {rest : Path} (plain : ∀ v ∈ model.vars, v.name.IsPlain)
    (inside : node.child? name = some child) : node.slot? (name ++ "." ++ rest) = child.slot? rest := by
  obtain ⟨module, member, rfl, -⟩ := fits.module_of_child? inside
  have plainName : module.name.IsPlain := plain _ (Model.mem_modules.mp member)
  have absent : node.slots.get? (module.name ++ "." ++ rest) = none := by
    refine Option.eq_none_iff_forall_ne_some.mpr fun slot found => ?_
    obtain ⟨v, declared, -, same⟩ := fits.variable_of_get? found
    exact (plain v declared).2.1 (same ▸ by simp [Path.IsDotted, String.toList_append])
  exact Instance.slot?_child plainName.1 plainName.2.1 absent inside

theorem exists_head (plain : ∀ v ∈ model.vars, v.name.IsPlain) {path : Path} (named : path ≠ "")
    (located : node.locate? path = some slot) : ∃ v ∈ model.vars, v.name = Path.head path := by
  cases found : node.slots.get? path with
  | some own =>
    obtain ⟨v, member, -, rfl⟩ := fits.variable_of_get? found
    exact ⟨v, member, (Path.head_of_not_dotted (plain v member).2.1).symm⟩
  | none =>
    obtain ⟨child, inside, -⟩ := (Instance.locate?_eq_some found named).mp located
    obtain ⟨module, member, same, -⟩ := fits.module_of_child? inside
    exact ⟨_, Model.mem_modules.mp member, same⟩

end Fits

theorem Made.exists_get? (made : Made project clock root node) (found : project.find? node.model = some model)
    {v : Variable α} (member : v ∈ model.vars) (own : v.isModule = false) :
    ∃ slot, node.slots.get? v.name = some slot := by
  cases made with
  | intro fits _ =>
    cases fits.found.symm.trans found
    exact fits.exists_get? member own

theorem Made.owns_own (made : Made project clock root node) (own : node.slots.get? name = some slot) :
    node.Owns slot ∧ timeSlot < slot := by
  cases made with
  | intro fits _ => exact fits.tidy.owns (.inl own)

theorem Made.owns_of_slot? (made : Made project clock root node) {path : Path}
    (found : node.slot? path = some slot) : slot = timeSlot ∨ node.Owns slot := by
  induction made generalizing path with
  | @intro node first model fits below ih =>
    rw [Instance.slot?_eq] at found
    split at found
    · exact .inl (Option.some.inj found).symm
    · rcases Instance.locate?_cases found with ⟨name, own⟩ | ⟨name, child, rest, inside, further⟩
      · exact .inr (fits.tidy.owns (.inl own)).1
      · refine (ih child (Instance.mem_of_child? inside) further).imp_right fun owned => ?_
        exact (fits.tidy.owns (.inr ⟨child, inside, owned⟩)).1

/-- Whether a slot is that of a stock of an instance. -/
def HasStock (project : Project α) (node : Coded α) (slot : Nat) : Prop :=
  ∃ model, project.find? node.model = some model ∧
    ∃ v ∈ model.vars, v.isStock = true ∧ node.slots.get? v.name = some slot

theorem Made.hasStock_of_slot? (consistent : project.Consistent) (plain : project.HasPlainNames)
    (made : Made project clock root node) (found : project.find? node.model = some model)
    {v : Variable α} {path : Path} (sought : model.find? (Path.head path) = some v)
    (isStock : v.isStock = true) (leads : node.slot? path = some slot) :
    slot = timeSlot ∨ HasStock project node slot := by
  cases made with
  | @intro _ first other fits below =>
  cases fits.found.symm.trans found
  have member := mem_of_findNamed sought
  have named : v.name = Path.head path := name_of_findNamed sought
  have own : v.isModule = false := by cases v <;> first | rfl | cases isStock
  rw [Instance.slot?_eq, Path.unmarked_of_head (named ▸ (plain found v member).1)] at leads
  split at leads
  · exact .inl (Option.some.inj leads).symm
  right
  rcases Path.split_cases path with ⟨undotted, -⟩ | ⟨head, rest, -, whole, split⟩
  · rw [Path.head_of_not_dotted undotted] at named
    exact ⟨model, found, v, member, isStock,
      fits.locate?_own member own (named.symm ▸ leads)⟩
  · have dotted : Path.IsDotted path := by simp [Path.IsDotted, whole]
    obtain ⟨child, inside, -⟩ := fits.locate?_dotted (plain found) dotted split leads
    have headed : v.name = head := by rw [named, Path.head, split]
    rw [← headed, fits.child?_of_own (consistent.distinct found) member own] at inside
    cases inside

/-! ## Sources -/

section

variable {linked : List (LinkedModel α)} {moment : Moment} {owner : Name} {source : Path}
  {target : Option Node}

/-- What an instance reads at a path from which dependencies follow: a slot of the variable that they
follow to, or a stock that is known beforehand. -/
theorem Made.locate_of_resolve (consistent : project.Consistent) (plain : project.HasPlainNames)
    (made : Made project clock root node) (found : project.find? node.model = some model)
    (links : LinkedModel.Links linked model.toModel model)
    (within : ∀ name inner, LinkedModel.named? linked name = some inner →
      project.find? name = some inner)
    (resolved : Dependencies.resolve moment (linked.map fun model => (model.name, model.outline))
      model.outline owner source = .ok target)
    (located : node.locate? source = some slot) :
    slot = timeSlot ∨ (∃ next, target = some next ∧ node.Belongs next.name slot) ∨
      moment = .step ∧ (HasStock project node slot ∨
        ∃ name child, node.child? name = some child ∧ HasStock project child slot) := by
  cases made with
  | @intro _ first other fits below =>
  cases fits.found.symm.trans found
  have distinct := consistent.distinct found
  -- what dependencies resolve to is beside the source, or in the module before the dot
  rcases consistent.resolve_eq_ok links within resolved with
    ⟨v, member, undotted, rfl, rfl⟩ |
    ⟨module, among, rest, inner, leaf, dotted, split, foundInner, known, rfl⟩
  · cases own : v.isModule with
    | false =>
      have here := fits.locate?_own member own located
      split
      · rename_i given
        obtain ⟨isStock, step⟩ := Bool.and_eq_true_iff.mp given
        exact .inr (.inr ⟨of_decide_eq_true step, .inl ⟨model, found, v, member, isStock, here⟩⟩)
      · exact .inr (.inl ⟨_, rfl, .inl (LinkedModel.name_node.symm ▸ here)⟩)
    | true =>
      cases v with
      | stock | formula => cases own
      | module module =>
      have absent := fits.get?_module distinct (Model.mem_modules.mpr member)
      obtain ⟨child, inside, further⟩ :=
        (Instance.locate?_eq_some absent (plain found _ member).1).mp located
      refine ((below child (Instance.mem_of_child? inside)).owns_of_slot? further).imp_right
        fun owned => .inl ⟨_, rfl, .inr ⟨child, ?_, owned⟩⟩
      rw [LinkedModel.name_node]
      exact (congrArg node.child? (Path.head_of_not_dotted undotted)).symm.trans inside
  · obtain ⟨child, inside, further⟩ := fits.locate?_dotted (plain found) dotted split located
    have madeChild := below child (Instance.mem_of_child? inside)
    split
    · rename_i given
      obtain ⟨isStock, step⟩ := Bool.and_eq_true_iff.mp given
      have ofInner : child.model = module.model := by
        obtain ⟨other, also, named, ofModel, -⟩ := fits.module_of_child? inside
        rw [ofModel, (Model.distinct_modules distinct).eq_of_name_eq also among named]
      refine (madeChild.hasStock_of_slot? consistent plain (ofInner ▸ foundInner) known isStock
        further).imp_right fun holds =>
          .inr ⟨of_decide_eq_true step, .inr ⟨module.name, child, inside, holds⟩⟩
    · refine (madeChild.owns_of_slot? further).imp_right
        fun owned => .inl ⟨_, rfl, .inr ⟨child, ?_, owned⟩⟩
      rwa [LinkedModel.name_node]

/-- An absolute path without empty steps that leads somewhere is one that dependencies can name. -/
theorem Made.isRootPath_of_locate? (consistent : project.Consistent) (plain : project.HasPlainNames)
    (made : Made project clock root node) (found : project.find? node.model = some model)
    (links : LinkedModel.Links linked model.toModel model)
    (within : ∀ name inner, LinkedModel.named? linked name = some inner →
      project.find? name = some inner)
    (solid : Path.IsSolid source) (located : node.locate? source = some slot) :
    slot = timeSlot ∨ LinkedModel.isRootPath linked model.toModel source = true := by
  cases made with
  | @intro _ first other fits below =>
  cases fits.found.symm.trans found
  have distinct := consistent.distinct found
  obtain ⟨v, member, named⟩ := fits.exists_head (plain found) solid.ne_empty located
  have declared : model.find? (Path.head source) = some v :=
    named ▸ findNamed_of_mem distinct member
  unfold LinkedModel.isRootPath
  rcases Path.split_cases source with ⟨-, split⟩ | ⟨head, rest, undotted, whole, split⟩
  · rw [Path.head, split] at declared
    rw [split]
    simp [declared]
  · have dotted : Path.IsDotted source := by simp [Path.IsDotted, whole]
    rw [Path.head, split] at declared named
    obtain ⟨child, inside, further⟩ := fits.locate?_dotted (plain found) dotted split located
    obtain ⟨module, among, sameName, ofModel, -⟩ := fits.module_of_child? inside
    -- the path goes down, so its head is the module of a child, whose model has the next step
    have isModule := distinct.eq_of_name_eq member (Model.mem_modules.mp among)
      (named.trans sameName.symm)
    obtain ⟨entry, -, read⟩ := exists_right_of_mem links.read among
    obtain ⟨inner, foundLinked, -⟩ := LinkedModel.readAbsolute_eq_ok read
    have foundInner := within _ _ foundLinked
    obtain ⟨-, solidRest⟩ := solid.of_append undotted whole
    rw [Instance.slot?_eq, Path.unmarked_of_head solidRest.head_ne_empty] at further
    split at further
    · exact .inl (Option.some.inj further).symm
    right
    cases below child (Instance.mem_of_child? inside) with
    | @intro _ _ other fitsChild _ =>
    cases (ofModel ▸ fitsChild.found).symm.trans foundInner
    obtain ⟨leaf, memberLeaf, namedLeaf⟩ :=
      fitsChild.exists_head (plain foundInner) solidRest.ne_empty further
    have has : inner.has (Path.head rest) = true :=
      findNamed_isSome.mpr ⟨leaf, memberLeaf, namedLeaf⟩
    rw [split]
    simp [declared, isModule, Variable.module?, foundLinked, has]

end

/-! ## What is known in time -/

/-- Whether a slot is known when the turn of a variable comes: the time, a slot of what the variable
depends on, or at a step that of a stock. -/
def Foreseen (project : Project α) (moment : Moment) (dependencies : Keyed NameSet)
    (node : Coded α) (name : Name) (slot : Nat) : Prop :=
  slot = timeSlot ∨ (∃ d ∈ Order.needs dependencies name, node.Belongs d slot) ∨
    moment = .step ∧ (HasStock project node slot ∨
      ∃ name child, node.child? name = some child ∧ HasStock project child slot)

omit [Scalar α] in
theorem head_ne_empty_of_source (consistent : project.Consistent) (plain : project.HasPlainNames)
    (found : project.find? name = some model) {v : Variable α} (member : v ∈ model.vars)
    {source : Path} (among : source ∈ v.sources) : Path.head source ≠ "" := by
  obtain ⟨linked, links, -⟩ := consistent.linked found
  obtain ⟨target, resolved, -⟩ := links.resolve (consistent.distinct found) .start member
    nofun (LinkedModel.mem_sources_node among)
  obtain ⟨w, declared, named⟩ := links.exists_head resolved
  exact named ▸ (plain found w declared).1

section

variable {moment : Moment} {source : Path} (consistent : project.Consistent)
  (plain : project.HasPlainNames) (made : Made project clock root node)
  (found : project.find? node.model = some model)
include consistent plain made found

theorem Made.foreseen_of_locate? {linked : List (LinkedModel α)}
    (links : LinkedModel.Links linked model.toModel model)
    (within : ∀ name inner, LinkedModel.named? linked name = some inner →
      project.find? name = some inner) {v : Variable α} (member : v ∈ model.vars)
    (computed : moment = .step → v.isStock = false)
    (among : source ∈ (LinkedModel.node linked model.toModel model.absoluteSources v).sources)
    (located : node.locate? source = some slot) :
    Foreseen project moment (model.dependencies moment) node v.name slot := by
  obtain ⟨target, resolved, needed⟩ :=
    links.resolve (consistent.distinct found) moment member computed among
  rcases made.locate_of_resolve consistent plain found links within resolved located with
    time | ⟨next, same, belongs⟩ | level
  · exact .inl time
  · exact .inr (.inl ⟨next.name, needed next same, belongs⟩)
  · exact .inr (.inr level)

theorem Made.foreseen_of_slot? {v : Variable α} (member : v ∈ model.vars)
    (computed : moment = .step → v.isStock = false) (among : source ∈ v.sources)
    (leads : node.slot? source = some slot) :
    Foreseen project moment (model.dependencies moment) node v.name slot := by
  obtain ⟨linked, links, within⟩ := consistent.linked found
  rw [Instance.slot?_eq,
    Path.unmarked_of_head (head_ne_empty_of_source consistent plain found member among)] at leads
  split at leads
  · exact .inl (Option.some.inj leads).symm
  · exact made.foreseen_of_locate? consistent plain found links within member computed
      (LinkedModel.mem_sources_node among) leads

/-- What an input of a module reads is known in time, or lies at an absolute path. -/
theorem Made.foreseen_of_wire {module : Module} (member : module ∈ model.modules)
    {wire : Name × Path} (among : wire ∈ Model.wires module)
    (leads : sourceSlot? root node wire.2 = some slot) :
    Foreseen project moment (model.dependencies moment) node module.name slot ∨
      ∃ path, project.ReadsInside module path ∧ root.slot? ("." ++ path) = some slot := by
  obtain ⟨input, inside, rfl⟩ := List.mem_map.mp (Keyed.mem_of_mem_ofList among)
  have declared := Model.mem_modules.mp member
  cases source : input.source with
  | absolute path =>
    have marked : Path.isMarked ("." ++ path) = true := by
      rw [Path.isMarked, Path.after?_mark]
      rfl
    rw [source, Source.symbol, sourceSlot?, if_pos marked] at leads
    exact .inr ⟨path, .own inside source, leads⟩
  | relative path =>
    have isSource : path ∈ (Variable.module (α := α) module).sources :=
      NameSet.mem_ofList.mpr (List.mem_filterMap.mpr ⟨input, inside, by rw [source]⟩)
    have relative := head_ne_empty_of_source consistent plain found declared isSource
    rw [source, Source.symbol, sourceSlot?, Path.isMarked_of_head relative] at leads
    exact .inl (made.foreseen_of_slot? consistent plain found declared (fun _ => rfl) isSource leads)

/-- What is read inside a module of the main model at an absolute path is known in time, if the path
does not lead back into the module. -/
theorem Made.foreseen_of_absolute (main : model.name = mainModel) {module : Module}
    (member : module ∈ model.modules) {path : Path} (reads : project.ReadsInside module path)
    (solid : Path.IsSolid path) (outside : Path.head path ≠ module.name)
    (leads : node.slot? ("." ++ path) = some slot) :
    Foreseen project moment (model.dependencies moment) node module.name slot := by
  obtain ⟨linked, links, within⟩ := consistent.linked found
  have dotted : "." ++ path ≠ "time" := by
    intro same
    have letters := congrArg String.toList same
    rw [String.toList_append] at letters
    injection letters with first
    exact absurd first (by decide)
  have unmarked : Path.unmarked ("." ++ path) = path := by
    rw [Path.unmarked, Path.after?_mark, Option.getD_some]
  rw [Instance.slot?_eq, if_neg dotted, unmarked] at leads
  rcases made.isRootPath_of_locate? consistent plain found links within solid leads with
    time | isRoot
  · exact .inl time
  · have among := links.mem_sources_of_absolute (consistent.distinct found) main member
      (fun entry read => reads.mem consistent within read) outside isRoot
    exact made.foreseen_of_locate? consistent plain found links within
      (Model.mem_modules.mp member) (fun _ => rfl) among leads

end

end Coded
end StockFlow
