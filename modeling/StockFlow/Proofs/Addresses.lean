import StockFlow.Proofs.Catalog
import StockFlow.Proofs.Flattening

/-!
# Addresses

The names that a plan lists are dotted paths from the main model. Where modules have names without dots
and no variable is named like the time or begins with a dot, each leads to the slot of a variable that is
listed under that very name, so names that differ lead to different slots.
-/

namespace StockFlow

variable {β : Type}

open Plan (dotted)

namespace Instance

/-- Whether the dotted paths to the variables of a tree can be followed: no variable is named like the
time or begins with a dot, and the names of modules are not empty and have no dots. -/
structure IsAddressable (node : Instance β) : Prop where
  own : ∀ path {below name slot}, node.descend? path = some below →
    below.slots.get? name = some slot → name ≠ "time" ∧ Path.isMarked name = false
  modules : ∀ path {below child}, node.descend? path = some below → child ∈ below.children →
    child.name ≠ "" ∧ ¬ Path.IsDotted child.name

theorem IsAddressable.of_child? {node child : Instance β} (addressable : node.IsAddressable)
    {name : Name} (inside : node.child? name = some child) : child.IsAddressable := by
  have behind : ∀ path, node.descend? (name :: path) = child.descend? path := fun path => by
    rw [descend?, inside, Option.bind_some]
  constructor
  · intro path below named slot leads own
    exact addressable.own (name :: path) ((behind path).trans leads) own
  · intro path below other leads member
    exact addressable.modules (name :: path) ((behind path).trans leads) member

mutual

theorem paths_entries : ∀ (node : Instance β) (lead : String),
    List.Forall₂ (fun text entry => ∃ path name, entry.1 = path ++ [name] ∧
      text = lead ++ dotted path name) (node.paths lead) node.entries
  | ⟨_, _, _, _, slots, _, children⟩, lead => by
    rw [paths, entries]
    apply List.rel_append
    · rw [List.forall₂_map_left_iff, List.forall₂_map_right_iff, List.forall₂_same]
      exact fun entry _ => ⟨[], entry.1, rfl, rfl⟩
    · exact childPaths_entries children lead

theorem childPaths_entries : ∀ (nodes : List (Instance β)) (lead : String),
    List.Forall₂ (fun text entry => ∃ path name, entry.1 = path ++ [name] ∧
      text = lead ++ dotted path name) (childPaths lead nodes) (childEntries nodes)
  | [], _ => .nil
  | first :: rest, lead => by
    rw [childPaths, childEntries]
    apply List.rel_append
    · rw [List.forall₂_map_right_iff]
      refine (paths_entries first _).imp ?_
      rintro _ entry ⟨path, name, inside, rfl⟩
      refine ⟨first.name :: path, name, ?_, ?_⟩
      · simp only [inside, List.cons_append]
      · simp only [dotted, String.append_assoc]
    · exact childPaths_entries rest lead

end

theorem toList_dotted (module : Name) (path : List Name) (name : Name) :
    (dotted (module :: path) name).toList = module.toList ++ '.' :: (dotted path name).toList := by
  simp [dotted, String.toList_append]

/-- The dotted path to a variable leads to one with the same dotted path. -/
theorem exists_slot?_dotted {node below : Instance β} (addressable : node.IsAddressable)
    {path : List Name} (leads : node.descend? path = some below) {name : Name} {slot : Nat}
    (own : below.slots.get? name = some slot) :
    ∃ other inner named found, node.descend? other = some inner ∧
      inner.slots.get? named = some found ∧ dotted other named = dotted path name ∧
      node.slot? (dotted path name) = some found := by
  induction path generalizing node with
  | nil =>
    obtain rfl : node = below := Option.some.inj leads
    obtain ⟨notTime, unmarked⟩ := addressable.own [] leads own
    refine ⟨[], node, name, slot, rfl, own, rfl, ?_⟩
    have unmarked : Path.unmarked name = name := by
      simp only [Path.isMarked, Option.isSome_eq_false_iff, Option.isNone_iff_eq_none] at unmarked
      rw [Path.unmarked, unmarked, Option.getD_none]
    show node.slot? name = some slot
    rw [slot?_eq, if_neg notTime, unmarked, locate?, own]
  | cons module rest ih =>
    obtain ⟨child, inside, further⟩ := Option.bind_eq_some_iff.mp leads
    obtain ⟨named, plain⟩ := name_of_child? inside ▸ addressable.modules [] rfl (mem_of_child? inside)
    have whole := toList_dotted module rest name
    have split : Path.split (dotted (module :: rest) name) = (module, some (dotted rest name)) :=
      Path.split_of_append plain whole
    have head : Path.head (dotted (module :: rest) name) ≠ "" := by rwa [Path.head, split]
    have notTime : dotted (module :: rest) name ≠ "time" := by
      intro same
      have dot : '.' ∈ (dotted (module :: rest) name).toList := by simp [whole]
      rw [same] at dot
      exact absurd dot (by decide)
    have solid : dotted (module :: rest) name ≠ "" := by
      intro same
      rw [same] at head
      exact head rfl
    rw [slot?_eq, if_neg notTime, Path.unmarked_of_head head]
    cases here : node.slots.get? (dotted (module :: rest) name) with
    | some found =>
      -- a variable of this instance has the dots in its own name
      exact ⟨[], node, _, found, rfl, here, rfl, by rw [locate?, here]⟩
    | none =>
      obtain ⟨other, inner, title, found, leads, own, same, slot⟩ :=
        ih (addressable.of_child? inside) further
      refine ⟨module :: other, inner, title, found, ?_, own, ?_, ?_⟩
      · rw [descend?, inside, Option.bind_some, leads]
      · rw [dotted, dotted, same]
      · rw [locate?_eq_some here solid, split]
        exact ⟨child, inside, slot⟩

/-- A dotted path tells the modules and the variable apart if none of the names has a dot. -/
theorem dotted_inj {path other : List Name} {name named : Name}
    (plain : ∀ module ∈ path, ¬ Path.IsDotted module) (undotted : ¬ Path.IsDotted name)
    (plain' : ∀ module ∈ other, ¬ Path.IsDotted module) (undotted' : ¬ Path.IsDotted named)
    (same : dotted path name = dotted other named) : path = other ∧ name = named := by
  have isDotted : ∀ module path name, Path.IsDotted (dotted (module :: path) name) := by
    intro module path name
    simp [Path.IsDotted, toList_dotted]
  induction path generalizing other with
  | nil =>
    cases other with
    | nil => exact ⟨rfl, same⟩
    | cons module rest =>
      have here : name = dotted (module :: rest) named := same
      exact absurd (here ▸ isDotted module rest named) undotted
  | cons module rest ih =>
    cases other with
    | nil =>
      have here : dotted (module :: rest) name = named := same
      exact absurd (here ▸ isDotted module rest name) undotted'
    | cons module' rest' =>
      have first := Path.split_of_append (plain _ List.mem_cons_self) (toList_dotted module rest name)
      have second :=
        Path.split_of_append (plain' _ List.mem_cons_self) (toList_dotted module' rest' named)
      rw [same, second] at first
      simp only [Prod.mk.injEq, Option.some.injEq] at first
      obtain ⟨path, name⟩ := ih (fun m member => plain m (List.mem_cons_of_mem _ member))
        (fun m member => plain' m (List.mem_cons_of_mem _ member)) first.2.symm
      exact ⟨by rw [first.1, path], name⟩

theorem not_isDotted_of_descend? {node below : Instance β} (addressable : node.IsAddressable)
    {path : List Name} (leads : node.descend? path = some below) :
    ∀ module ∈ path, ¬ Path.IsDotted module := by
  induction path generalizing node with
  | nil => exact fun _ member => absurd member List.not_mem_nil
  | cons name rest ih =>
    obtain ⟨child, inside, further⟩ := Option.bind_eq_some_iff.mp leads
    have plain := (name_of_child? inside ▸ addressable.modules [] rfl (mem_of_child? inside)).2
    rw [List.forall_mem_cons]
    exact ⟨plain, ih (addressable.of_child? inside) further⟩

end Instance

/-! ## Listed names -/

namespace Plan

/-- Whether each listed name leads to a slot of its own, and only the first one to that of the time. -/
def NamesUniquely {α : Type} (plan : Plan α) : Prop :=
  (∀ name ∈ plan.names, ∃ slot < plan.size, plan.slot? name = some slot) ∧
  plan.names.Pairwise (fun name other => plan.slot? name ≠ plan.slot? other) ∧
  ∀ name ∈ plan.names.tail, plan.slot? name ≠ some timeSlot

instance {α : Type} {plan : Plan α} : Decidable plan.NamesUniquely :=
  inferInstanceAs (Decidable (_ ∧ _ ∧ _))

variable {α : Type} [Scalar α] {project : Project α} {plan : Plan α}

omit [Scalar α] in
theorem slot?_time : plan.slot? "time" = some timeSlot := by
  rw [slot?, Instance.slot?_eq, if_pos rfl]

variable (distinct : project.HasDistinctNames) (planned : ofProject project = .ok plan)
include distinct planned

/-- Behind that of the time, the listed names are the dotted paths to the variables. -/
theorem mem_paths {text : Path} : text ∈ plan.root.paths "" ↔
    ∃ path node name slot, plan.root.descend? path = some node ∧ node.slots.get? name = some slot ∧
      text = dotted path name := by
  obtain ⟨made, -⟩ := made_of_hasDistinctNames distinct planned
  have each := Instance.paths_entries plan.root ""
  constructor
  · intro member
    obtain ⟨entry, listed, path, name, names, same⟩ := exists_right_of_mem each member
    obtain ⟨path', name', node, names', leads, own⟩ := made.divided.mem_entries.mp listed
    obtain ⟨rfl, last⟩ := List.append_inj' (names.symm.trans names') rfl
    cases last
    exact ⟨path, node, name, entry.2, leads, own, by rw [same, String.empty_append]⟩
  · rintro ⟨path, node, name, slot, leads, own, rfl⟩
    have listed := made.divided.mem_entries.mpr ⟨path, name, node, rfl, leads, own⟩
    obtain ⟨text, member, path', name', names, same⟩ := exists_left_of_mem each listed
    obtain ⟨rfl, last⟩ := List.append_inj' names rfl
    cases last
    rwa [same, String.empty_append] at member

/-- Plain names but those of the clock make dotted paths that can be followed, and no variable has a dot
in its own name. -/
theorem isAddressable_of_hasPlainNames (plain : project.HasPlainNames)
    (clear : ∀ {name model}, project.find? name = some model →
      ∀ v ∈ model.vars, ClockReference.ofName? v.name = none) :
    plan.root.IsAddressable ∧ ∀ path (node : Coded α) name slot, plan.root.descend? path = some node →
      node.slots.get? name = some slot → ¬ Path.IsDotted name := by
  obtain ⟨made, -⟩ := made_of_hasDistinctNames distinct planned
  have named : ∀ {path name slot} {node : Coded α}, plan.root.descend? path = some node →
      node.slots.get? name = some slot → name.IsPlain ∧ name ≠ "time" := by
    intro path name slot node leads own
    cases made.of_descend? leads with
    | intro fits _ =>
      obtain ⟨v, member, -, rfl⟩ := fits.variable_of_get? own
      refine ⟨plain fits.found v member, fun same => ?_⟩
      have free := clear fits.found v member
      rw [same] at free
      cases free
  refine ⟨⟨?_, ?_⟩, fun path node name slot leads own => (named leads own).1.2.1⟩
  · intro path below name slot leads own
    obtain ⟨⟨solid, undotted, -⟩, late⟩ := named leads own
    refine ⟨late, Path.isMarked_of_head ?_⟩
    rwa [Path.head_of_not_dotted undotted]
  · intro path below child leads member
    cases made.of_descend? leads with
    | intro fits _ =>
      obtain ⟨module, listed, same, -⟩ := exists_left_of_mem fits.modules member
      obtain ⟨solid, undotted, -⟩ := plain fits.found _ (Model.mem_modules.mp listed)
      rw [same]
      exact ⟨solid, undotted⟩

variable (addressable : plan.root.IsAddressable)
include addressable

theorem exists_slot?_of_mem_paths {text : Path} (member : text ∈ plan.root.paths "") :
    ∃ path node name slot, plan.root.descend? path = some node ∧ node.slots.get? name = some slot ∧
      text = dotted path name ∧ plan.slot? text = some slot := by
  obtain ⟨path, node, name, slot, leads, own, rfl⟩ := (mem_paths distinct planned).mp member
  obtain ⟨other, inner, named, found, leads', own', same, here⟩ :=
    Instance.exists_slot?_dotted addressable leads own
  exact ⟨other, inner, named, found, leads', own', same.symm, here⟩

theorem lt_size_of_mem_paths {text : Path} (member : text ∈ plan.root.paths "") :
    ∃ slot, timeSlot < slot ∧ slot < plan.size ∧ plan.slot? text = some slot := by
  obtain ⟨path, node, name, slot, leads, own, -, here⟩ :=
    exists_slot?_of_mem_paths distinct planned addressable member
  have place : plan.variableSlot? (path, name) = some slot := by
    rw [variableSlot?, leads, Option.bind_some, own]
  have present : plan.HasVariable project (path, name) :=
    hasVariable_of_variableSlot? distinct planned place
  obtain ⟨found, bounds, same⟩ := (bijOn_variableSlot? distinct planned).mapsTo present
  cases place.symm.trans same.symm
  exact ⟨slot, bounds.1, bounds.2, here⟩

theorem eq_of_slot?_eq {text other : Path} (one : text ∈ plan.root.paths "")
    (two : other ∈ plan.root.paths "") (same : plan.slot? text = plan.slot? other) : text = other := by
  obtain ⟨made, -⟩ := made_of_hasDistinctNames distinct planned
  obtain ⟨path, node, name, slot, leads, own, rfl, here⟩ :=
    exists_slot?_of_mem_paths distinct planned addressable one
  obtain ⟨path', node', name', slot', leads', own', rfl, there⟩ :=
    exists_slot?_of_mem_paths distinct planned addressable two
  cases here.symm.trans (same.trans there)
  obtain ⟨rfl, rfl⟩ := made.divided.unique leads own leads' own'
  rfl

/-- Without dots in the names of variables no dotted path is listed twice. -/
theorem nodup_paths (undotted : ∀ {path node name slot}, plan.root.descend? path = some node →
    node.slots.get? name = some slot → ¬ Path.IsDotted name) : (plan.root.paths "").Nodup := by
  obtain ⟨made, -⟩ := made_of_hasDistinctNames distinct planned
  have once : plan.root.entries.Nodup := by
    apply List.Nodup.of_map Prod.snd
    rw [slots_entries distinct planned]
    exact List.nodup_range'
  refine nodup_of_forall₂ (Instance.paths_entries plan.root "") once ?_
  rintro text ⟨names, slot⟩ one ⟨names', slot'⟩ two ⟨path, name, rfl, rfl⟩ ⟨path', name', rfl, same⟩
  obtain ⟨_, _, node, whole, leads, own⟩ := made.divided.mem_entries.mp one
  obtain ⟨rfl, last⟩ := List.append_inj' whole rfl
  cases last
  obtain ⟨_, _, node', whole', leads', own'⟩ := made.divided.mem_entries.mp two
  obtain ⟨rfl, last⟩ := List.append_inj' whole' rfl
  cases last
  rw [String.empty_append, String.empty_append] at same
  obtain ⟨rfl, rfl⟩ := Instance.dotted_inj (Instance.not_isDotted_of_descend? addressable leads)
    (undotted leads own) (Instance.not_isDotted_of_descend? addressable leads') (undotted leads' own')
    same
  cases leads.symm.trans leads'
  cases own.symm.trans own'
  rfl

end Plan

namespace Simulation

variable {α : Type} [Scalar α]

/-- Where dotted paths can be followed, every listed name leads to a slot, only the first one to that of
the time, and names that differ to different ones. Without dots in the names of variables all listed
names differ. -/
theorem names_tell_apart {document : Document.Project α} {project : Project α} {run : Simulation α}
    (compiled : Project.compile document = .ok project) (ready : ofProject project = .ok run)
    (addressable : run.plan.root.IsAddressable) :
    (∀ name ∈ run.plan.names, ∃ slot < run.plan.size, run.plan.slot? name = some slot) ∧
      (∀ name ∈ run.plan.names, ∀ other ∈ run.plan.names,
        run.plan.slot? name = run.plan.slot? other → name = other) ∧
      (∀ name ∈ run.plan.names.tail, run.plan.slot? name ≠ some timeSlot) ∧
      ((∀ path node name slot, run.plan.root.descend? path = some node →
        node.slots.get? name = some slot → ¬ Path.IsDotted name) → run.plan.NamesUniquely) := by
  have distinct : project.HasDistinctNames := (Project.consistent_of_compile compiled).distinct
  obtain ⟨plan, planned, rfl⟩ := ofProject_eq_ok.mp ready
  have leads : ∀ name ∈ plan.names, ∃ slot < plan.size, plan.slot? name = some slot := by
    intro name member
    rcases List.mem_cons.mp member with rfl | member
    · exact ⟨timeSlot, Plan.size_pos distinct planned, Plan.slot?_time⟩
    · obtain ⟨slot, -, bound, here⟩ :=
        Plan.lt_size_of_mem_paths distinct planned addressable member
      exact ⟨slot, bound, here⟩
  have late : ∀ name ∈ plan.names.tail, plan.slot? name ≠ some timeSlot := by
    intro name member same
    obtain ⟨slot, late, -, here⟩ := Plan.lt_size_of_mem_paths distinct planned addressable member
    cases same.symm.trans here
    exact absurd late (Nat.lt_irrefl _)
  have apart : ∀ name ∈ plan.names, ∀ other ∈ plan.names,
      plan.slot? name = plan.slot? other → name = other := by
    intro name one other two same
    -- the first name is that of the time; the others are paths to slots behind it
    rcases List.mem_cons.mp one with rfl | one <;> rcases List.mem_cons.mp two with rfl | two
    · rfl
    · exact absurd (same.symm.trans Plan.slot?_time) (late other two)
    · exact absurd (same.trans Plan.slot?_time) (late name one)
    · exact Plan.eq_of_slot?_eq distinct planned addressable one two same
  refine ⟨leads, apart, late, fun undotted => ⟨leads, ?_, late⟩⟩
  have once : plan.names.Nodup := by
    refine List.nodup_cons.mpr ⟨fun member => late _ member Plan.slot?_time, ?_⟩
    exact Plan.nodup_paths distinct planned addressable fun leads own => undotted _ _ _ _ leads own
  exact once.imp_of_mem fun one two differ same => differ (apart _ one _ two same)

theorem names_tell_apart_nested : ∃ project run, Project.compile Plan.nested = .ok project ∧
    ofProject project = .ok run ∧ run.plan.root.IsAddressable ∧ run.plan.NamesUniquely := by
  obtain ⟨project, plan, compiled, planned, plain, -⟩ := Plan.nested_runs
  have ready : ofProject project = .ok (start plan) := ofProject_eq_ok.mpr ⟨plan, planned, rfl⟩
  have distinct : project.HasDistinctNames := (Project.consistent_of_compile compiled).distinct
  have clear : Plan.nested.LeavesClock := by decide +kernel
  obtain ⟨addressable, undotted⟩ := Plan.isAddressable_of_hasPlainNames distinct planned
    (Project.hasPlainNames_of_compile compiled plain) (Project.leavesClock_of_compile compiled clear)
  obtain ⟨-, -, -, unique⟩ := names_tell_apart compiled ready addressable
  exact ⟨project, start plan, compiled, ready, addressable, unique undotted⟩

/-- Projects whose names cannot all be followed: below the main model a variable is named like the time,
a module has a dot in its name or none at all, a variable is marked with a dot, or a variable of the main
model is named like the path to another one. -/
def ambiguous : List (Document.Project Float) :=
  let below (module name : Name) : List (Document.Model Float) := [
    ⟨"main", none, [.module ⟨module, "sub", []⟩]⟩,
    ⟨"sub", none, [.auxiliary ⟨name, "1", none, none⟩]⟩]
  [⟨"", ⟨0, 1, 1, none⟩, below "m" "time"⟩,
    ⟨"", ⟨0, 1, 1, none⟩, below "m.n" "x"⟩,
    ⟨"", ⟨0, 1, 1, none⟩, below "" "x"⟩,
    ⟨"", ⟨0, 1, 1, none⟩, [⟨"main", none, [.auxiliary ⟨".x", "1", none, none⟩]⟩]⟩,
    ⟨"", ⟨0, 1, 1, none⟩, [
      ⟨"main", none, [.auxiliary ⟨"a.b", "1", none, none⟩, .module ⟨"a", "sub", []⟩]⟩,
      ⟨"sub", none, [.auxiliary ⟨"b", "1", none, none⟩]⟩]⟩]

/-- Where a path cannot be followed, the listed names do not tell the variables apart. -/
theorem not_namesUniquely_ambiguous : ambiguous.Forall fun document =>
    ∃ project run, Project.compile document = .ok project ∧ ofProject project = .ok run ∧
      ¬ run.plan.NamesUniquely := by
  have check : ∀ document ∈ ambiguous, ∃ project ∈ (Project.compile document).toOption,
      ∃ run ∈ (ofProject project).toOption, ¬ run.plan.NamesUniquely := by
    simp only [Project.compile_eq]
    decide +kernel
  refine List.forall_iff_forall_mem.mpr fun document member => ?_
  obtain ⟨project, compiled, run, ready, fails⟩ := check document member
  exact ⟨project, run, toOption_eq_some.mp compiled, toOption_eq_some.mp ready, fails⟩

end Simulation
end StockFlow
