import StockFlow.Proofs.Catalog
import StockFlow.Proofs.Flattening

/-!
# Inlined modules

A flattened project can be run: what its variables read is assigned before them in the programs of the
plan, so there is no cycle. Each variable of the plan has a counterpart there that has the same values,
so an instance of a model does what the model's variables do in its place.
-/

namespace StockFlow

variable {α : Type} [Scalar α]

omit [Scalar α] in
theorem Equation.references_of_isConstant {equation : Equation α} (constant : equation.isConstant = true) :
    equation.references = [] := by
  fun_induction isConstant equation with
  | case1 => rfl
  | case2 inner ih =>
    rw [references]
    exact ih constant
  | case3 operator operand ih =>
    rw [references]
    exact ih constant
  | case4 => cases constant

namespace Plan

variable {project : Project α} {plan : Plan α}

/-! ## Ranks -/

omit [Scalar α] in
theorem Stands.unique (distinct : project.HasDistinctNames) {path path' : List Name}
    {node node' : Coded α} {model model' : LinkedModel α} {v v' : Variable α} {slot slot' : Nat}
    (one : plan.Stands project path node model v slot)
    (two : plan.Stands project path' node' model' v' slot') (same : (path, v.name) = (path', v'.name)) :
    node = node' ∧ model = model' ∧ v = v' ∧ slot = slot' := by
  obtain ⟨rfl, named⟩ := Prod.mk.inj same
  obtain rfl := Option.some.inj (one.leads.symm.trans two.leads)
  obtain rfl := Option.some.inj (one.found.symm.trans two.found)
  obtain rfl := (distinct one.found).eq_of_name_eq one.member two.member named
  exact ⟨rfl, rfl, rfl, Option.some.inj (one.own.symm.trans two.own)⟩

/-- Whether the variable of a slot reads another slot. -/
def SlotReads (project : Project α) (plan : Plan α) (slot other : Nat) : Prop :=
  ∃ path node model v, plan.Stands project path node model v slot ∧
    Coded.Reads node model plan.clock v other

theorem IsSound.sequencedBy_reads (sound : plan.IsSound project) {phase : Phase}
    (early : phase ≠ .stocks) (known : Nat → Prop) (time : known timeSlot)
    (free : ∀ slot < plan.size, slot ∉ written (plan.program phase) → known slot) :
    SequencedBy (fun a other => plan.SlotReads project a.slot other) known (plan.program phase) := by
  refine sequencedBy sound.consistent sound.planned sound.plain sound.outward (fun _ => sound.spares)
    early ?_ time free
  rintro path below model v a leads found member - own - other ⟨_, _, _, _, stands, reads⟩
  have here : plan.Stands project path below model v a.slot := ⟨leads, found, member, own⟩
  have same := place_unique sound.consistent sound.planned here.variableSlot? stands.variableSlot?
  obtain ⟨rfl, rfl, rfl, -⟩ := here.unique sound.consistent.distinct stands same
  exact reads

/-- The place of a slot in the order in which slots are assigned; what is given comes first. -/
def rank (plan : Plan α) : Moment → Nat → Nat
  | .start, slot => (written (plan.program .initials)).idxOf slot
  | .step, slot =>
    if slot ∈ written (plan.program .flows) then (written (plan.program .flows)).idxOf slot + 1 else 0

omit [Scalar α] in
/-- Whatever keeps its value during a step reads nothing but the time. -/
theorem due_of_reads {node : Coded α} {model : LinkedModel α} {clock : Clock α} {v : Variable α} {slot : Nat}
    (own : v.isModule = false) (reads : Coded.Reads node model clock v slot) (late : slot ≠ timeSlot)
    (computed : v.isStock = false) : v.isDue node.note.inputs .flows = true := by
  unfold Coded.Reads at reads
  cases connected : node.note.inputs.get? v.name with
  | some => simp [Variable.isDue, connected]
  | none =>
    rw [connected] at reads
    obtain ⟨equation, isOwn, refers⟩ := reads
    obtain ⟨name, among, -⟩ := refers.resolve_left late
    cases v with
    | stock => cases computed
    | module => cases own
    | formula formula =>
      cases isOwn
      have varies : formula.equation.isConstant = false := Bool.eq_false_iff.mpr fun constant => by
        rw [Equation.references_of_isConstant constant] at among
        cases among
      simp [Variable.isDue, Variable.isHeld, varies]

section

variable {path : List Name} {node : Coded α} {model : LinkedModel α} {v : Variable α} {slot : Nat}
  (sound : plan.IsSound project) (stands : plan.Stands project path node model v slot)
  (own : v.isModule = false)
include sound stands own

theorem IsSound.mem_written {phase : Phase} (early : phase ≠ .stocks)
    (due : v.isDue node.note.inputs phase = true) : slot ∈ written (plan.program phase) := by
  obtain ⟨made, -⟩ := made_of_ofProject sound.consistent sound.planned
  obtain ⟨a, listed, same⟩ := List.mem_map.mp ((made.of_descend? stands.leads).mem_written_own
    sound.consistent early stands.found stands.member own due stands.own)
  rw [plan.program_eq, ← same]
  exact List.mem_map_of_mem (made.program_of_descend? sound.consistent early stands.leads listed)

/-- What a variable reads has a lower rank, unless it is the time. -/
theorem IsSound.rank_lt {moment : Moment} {other : Nat}
    (reads : Coded.Reads node model plan.clock v other) (late : other ≠ timeSlot)
    (computed : moment = .step → v.isStock = false) :
    plan.rank moment other < plan.rank moment slot := by
  have slotReads : plan.SlotReads project slot other := ⟨_, _, _, _, stands, reads⟩
  -- at the start all slots are assigned, in an order; in a step those that are not assigned come first
  cases moment with
  | start =>
    obtain ⟨made, -, shift, -⟩ := made_of_ofProject sound.consistent sound.planned
    have sequenced := sound.sequencedBy_reads (by decide : Phase.initials ≠ .stocks)
      (fun slot => slot = timeSlot) rfl fun slot within unassigned => by
        rw [plan.program_eq] at unassigned
        refine (made.covered sound.consistent ⟨shift ▸ Nat.zero_le _, ?_⟩).resolve_right unassigned
        rwa [shift, Nat.zero_add]
    obtain ⟨a, listed, rfl⟩ :=
      List.mem_map.mp (sound.mem_written stands own (by decide : Phase.initials ≠ .stocks) rfl)
    have earlier := sequenced.idxOf_lt
      (nodup_written sound.consistent sound.planned (by decide)) listed slotReads
    exact (earlier.resolve_left late).2
  | step =>
    have due := due_of_reads own reads late (computed rfl)
    have assigned := sound.mem_written stands own (by decide : Phase.flows ≠ .stocks) due
    have sequenced := sound.sequencedBy_reads (by decide : Phase.flows ≠ .stocks)
      (fun slot => slot ∉ written (plan.program .flows))
      (sound.timeSlot_notMem (by decide)) fun _ _ unassigned => unassigned
    obtain ⟨a, listed, rfl⟩ := List.mem_map.mp assigned
    have earlier := sequenced.idxOf_lt
      (nodup_written sound.consistent sound.planned (by decide)) listed slotReads
    unfold rank
    dsimp only
    rw [if_pos assigned]
    rcases earlier with unassigned | ⟨also, less⟩
    · rw [if_neg unassigned]
      exact Nat.succ_pos _
    · rw [if_pos also]
      exact Nat.succ_lt_succ less

end

/-! ## The model of all variables -/

namespace Flattens

variable {encode : List Name × Name → Name} (flattens : plan.Flattens project encode)
include flattens

theorem exists_flatDefinition {place : List Name × Name} (listed : place ∈ plan.places) :
    ∃ definition, plan.flatDefinition? project encode place = some definition ∧
      Name.canonical definition.name = encode place := by
  obtain ⟨slot, here⟩ := (Plan.mem_places flattens.consistent flattens.planned).mp listed
  obtain ⟨node, model, v, stands, named⟩ := exists_stands flattens.consistent flattens.planned here
  obtain ⟨definition, written, same, -⟩ := flattens.exists_definition stands
  rw [named] at written same
  exact ⟨definition, written, by rw [same, flattens.naming.canonical place listed]⟩

/-- Each definition is checked to the variable of a place. -/
theorem exists_stands_of_flatDefinition {definition : Document.Variable α}
    (listed : definition ∈ plan.places.filterMap (plan.flatDefinition? project encode)) :
    ∃ path node model v slot, plan.Stands project path node model v slot ∧
      Variable.ofDefinition definition = .ok (plan.flatVariable encode path node v) := by
  obtain ⟨place, among, written⟩ := List.mem_filterMap.mp listed
  obtain ⟨slot, here⟩ := (Plan.mem_places flattens.consistent flattens.planned).mp among
  obtain ⟨node, model, v, stands, named⟩ := exists_stands flattens.consistent flattens.planned here
  obtain ⟨other, written', -, checked⟩ := flattens.exists_definition stands
  rw [named] at written'
  obtain rfl := Option.some.inj (written.symm.trans written')
  exact ⟨_, node, model, v, slot, stands, checked⟩

/-- The variables of all places can be declared in one model. -/
theorem exists_build : ∃ model : Model α,
    Model.build ⟨mainModel, none, plan.places.filterMap (plan.flatDefinition? project encode)⟩ false =
        .ok model ∧ model.timeSpec? = none ∧
      ∀ w, w ∈ model.vars ↔ ∃ path node inner v slot, plan.Stands project path node inner v slot ∧
        w = plan.flatVariable encode path node v := by
  have names : (plan.places.filterMap (plan.flatDefinition? project encode)).map
      (fun definition => Name.canonical definition.name) = plan.places.map encode :=
    map_filterMap_of_forall fun _ listed => flattens.exists_flatDefinition listed
  obtain ⟨model, built, -, spec, members⟩ := Model.exists_build
    ⟨mainModel, none, plan.places.filterMap (plan.flatDefinition? project encode)⟩ false
    (fun definition listed => by
      obtain ⟨_, _, _, _, _, -, checked⟩ := flattens.exists_stands_of_flatDefinition listed
      exact ⟨_, checked⟩)
    (by
      rw [names]
      exact (nodup_places flattens.consistent flattens.planned).map_on fun place one other two same =>
        flattens.naming.injective place one other two same)
    (fun definition listed w checked => by
      obtain ⟨path, node, model, v, slot, stands, checked'⟩ := flattens.exists_stands_of_flatDefinition listed
      obtain rfl := Except.ok.inj (checked.symm.trans checked')
      exact flattens.isPrimitive_flatVariable stands)
    (fun definition listed w checked flow flowing => by
      obtain ⟨path, node, model, v, slot, stands, checked'⟩ := flattens.exists_stands_of_flatDefinition listed
      obtain rfl := Except.ok.inj (checked.symm.trans checked')
      obtain ⟨place, other, here, same⟩ := flattens.exists_place_of_flat_flow stands flowing
      have among := (Plan.mem_places flattens.consistent flattens.planned).mpr ⟨other, here⟩
      obtain ⟨definition, written, named⟩ := flattens.exists_flatDefinition among
      exact ⟨definition, List.mem_filterMap.mpr ⟨place, among, written⟩, named.trans same.symm⟩)
  refine ⟨model, built, spec, fun w => ?_⟩
  rw [members]
  constructor
  · rintro ⟨definition, listed, checked⟩
    obtain ⟨path, node, inner, v, slot, stands, checked'⟩ := flattens.exists_stands_of_flatDefinition listed
    exact ⟨path, node, inner, v, slot, stands, Except.ok.inj (checked.symm.trans checked')⟩
  · rintro ⟨path, node, inner, v, slot, stands, rfl⟩
    obtain ⟨definition, written, -, checked⟩ := flattens.exists_definition stands
    exact ⟨definition, List.mem_filterMap.mpr ⟨_, flattens.mem_places stands, written⟩, checked⟩

omit flattens in
/-- A variable that passes a test is no input where no input overrides such a variable. -/
theorem unconnected_of_spares (test : Variable α → Bool) (sound : plan.IsSound project)
    (spares : ∀ model ∈ project.models, ∀ module ∈ model.modules, ∀ inner ∈ project.find? module.model,
      ∀ input ∈ module.inputs, ∀ v ∈ inner.find? input.target, test v = false)
    {path : List Name} {node : Coded α} {model : LinkedModel α} {v : Variable α} {slot : Nat}
    (stands : plan.Stands project path node model v slot) (passes : test v = true) :
    node.note.inputs.get? v.name = none := by
  obtain ⟨made, -, -, inputs⟩ := made_of_ofProject sound.consistent sound.planned
  rcases List.eq_nil_or_concat path with rfl | ⟨start, name, rfl⟩
  · have leads : some plan.root = some node := stands.leads
    rw [← Option.some.inj leads, inputs]
    rfl
  · have leads := stands.leads
    rw [List.concat_eq_append, Instance.descend?_append] at leads
    obtain ⟨above, before, last⟩ := Option.bind_eq_some_iff.mp leads
    obtain ⟨child, inside, same⟩ := Option.bind_eq_some_iff.mp last
    obtain rfl := Option.some.inj same
    cases made.of_descend? before with
    | intro fits =>
      exact fits.unconnected_of_child? test sound.consistent spares inside stands.found stands.member passes

theorem isStock_flatVariable {path : List Name} {node : Coded α} {model : LinkedModel α}
    {v : Variable α} {slot : Nat} (stands : plan.Stands project path node model v slot) :
    (plan.flatVariable encode path node v).isStock = v.isStock := by
  unfold flatVariable
  cases connected : node.note.inputs.get? v.name with
  | some =>
    refine (Bool.eq_false_iff.mpr fun isStock => ?_).symm
    have absent := unconnected_of_spares Variable.isStock flattens.toIsSound flattens.spares
      stands isStock
    cases connected.symm.trans absent
  | none => cases v <;> rfl

/-- The slot of the place that a name stands for. -/
def slotNamed (plan : Plan α) (encode : List Name × Name → Name) (name : Name) : Nat :=
  ((plan.places.find? fun place => encode place == name).bind plan.variableSlot?).getD timeSlot

theorem slotNamed_eq {place : List Name × Name} {slot : Nat}
    (here : plan.variableSlot? place = some slot) : slotNamed plan encode (encode place) = slot := by
  have member := (Plan.mem_places flattens.consistent flattens.planned).mpr ⟨slot, here⟩
  unfold slotNamed
  cases found : plan.places.find? fun other => encode other == encode place with
  | none => exact absurd (beq_self_eq_true _) (List.find?_eq_none.mp found place member)
  | some other =>
    have same : encode other = encode place := by simpa using List.find?_some found
    rw [flattens.naming.injective other (List.mem_of_find?_eq_some found) place member same,
      Option.bind_some, here, Option.getD_some]

section

variable {model : Model α} (distinct : Distinct Variable.name model.vars)
  (members : ∀ w, w ∈ model.vars ↔ ∃ path node inner v slot,
    plan.Stands project path node inner v slot ∧ w = plan.flatVariable encode path node v)
include distinct members

/-- A source of a variable in one model leads to the variable of a slot that is read in the plan. -/
theorem resolve_eq {path : List Name} {node : Coded α} {inner : LinkedModel α} {v : Variable α}
    {slot : Nat} (stands : plan.Stands project path node inner v slot) (moment : Moment) {source : Path}
    (among : source ∈ (plan.flatVariable encode path node v).sources) (owner : Name) :
    ∃ place other, ∃ w : Variable α, plan.variableSlot? place = some other ∧
      Coded.Reads node inner plan.clock v other ∧ w.name = encode place ∧
      Dependencies.resolve moment [] model.outline owner source =
        .ok (if Dependencies.isGiven moment w.node then none else some w.node) := by
  obtain ⟨place, other, here, rfl, reads⟩ := flattens.reads_of_mem_sources stands among
  obtain ⟨node', inner', u, stands', named⟩ := exists_stands flattens.consistent flattens.planned here
  have among := (Plan.mem_places flattens.consistent flattens.planned).mpr ⟨other, here⟩
  have own : (plan.flatVariable encode place.1 node' u).name = encode place := by
    rw [name_flatVariable (flattens.isModule_eq_false stands'), named]
  have known : model.outline.find? (encode place) =
      some (plan.flatVariable encode place.1 node' u).node := by
    have listed := (members _).mpr ⟨_, _, _, _, _, stands', rfl⟩
    rw [← own]
    exact findNamed_of_mem (LinkedModel.distinct_outline distinct)
      (List.mem_map_of_mem (f := Variable.node) listed)
  refine ⟨place, other, _, here, reads, own, ?_⟩
  unfold Dependencies.resolve
  rw [Path.split_of_not_dotted (flattens.naming.plain place among).2.1]
  dsimp only
  rw [known]

/-- There is no cycle among the variables of all places. -/
theorem exists_closure (moment : Moment) :
    ∃ found, Dependencies.closure moment [] model.outline = .ok found := by
  refine Dependencies.exists_closure (fun node listed _ source among => ?_)
    (Dependencies.acyclic_of_rank (fun name => plan.rank moment (slotNamed plan encode name)) ?_)
    (LinkedModel.distinct_outline distinct)
  · obtain ⟨w, declared, rfl⟩ := List.mem_map.mp listed
    obtain ⟨path, node, inner, v, slot, stands, rfl⟩ := (members w).mp declared
    obtain ⟨_, _, _, -, -, -, resolved⟩ := flattens.resolve_eq distinct members stands moment among _
    exact ⟨_, resolved⟩
  · -- in the flat model what a variable awaits has a lower rank, by the order of the assignments
    rintro node listed next ⟨open_, source, among, resolved⟩
    obtain ⟨w, declared, rfl⟩ := List.mem_map.mp listed
    obtain ⟨path, node, inner, v, slot, stands, rfl⟩ := (members w).mp declared
    have own := flattens.isModule_eq_false stands
    obtain ⟨place, other, u, here, reads, named, resolved'⟩ :=
      flattens.resolve_eq distinct members stands moment among _
    have target := Except.ok.inj (resolved'.symm.trans resolved)
    split at target
    · cases target
    · obtain rfl := Option.some.inj target
      have first : slotNamed plan encode u.node.name = other := by
        have same : u.node.name = encode place := named
        rw [same, flattens.slotNamed_eq here]
      have second : slotNamed plan encode (plan.flatVariable encode path node v).node.name = slot := by
        have same : (plan.flatVariable encode path node v).node.name = encode (path, v.name) :=
          name_flatVariable own
        rw [same, flattens.slotNamed_eq stands.variableSlot?]
      rw [first, second]
      refine flattens.toIsSound.rank_lt stands own reads
        (late_of_variableSlot? flattens.consistent flattens.planned here) fun step => ?_
      rw [← flattens.isStock_flatVariable stands]
      refine Bool.eq_false_iff.mpr fun isStock => ?_
      have given : Dependencies.isGiven moment (plan.flatVariable encode path node v).node = true := by
        have same : (plan.flatVariable encode path node v).node.isStock = true := isStock
        simp [Dependencies.isGiven, same, step]
      cases open_.symm.trans given

end

/-- A flattened project can be run. -/
theorem exists_plan : ∃ flat linked flatPlan,
    Project.compile (plan.flatten project encode) = .ok flat ∧ ofProject flat = .ok flatPlan ∧
      flatPlan.clock = plan.clock ∧ flatPlan.IsSound flat ∧
      flat.find? flatPlan.root.model = some linked ∧
      ∀ w, w ∈ linked.vars ↔ ∃ path node inner v slot, plan.Stands project path node inner v slot ∧
        w = plan.flatVariable encode path node v := by
  obtain ⟨model, built, unspecified, members⟩ := flattens.exists_build
  have distinct := (Model.ascending_of_build built).distinct
  have valid := clock_of_ofProject flattens.planned
  have plain : model.modules = [] := Model.modules_eq_nil fun w member => by
    obtain ⟨_, _, _, _, _, stands, rfl⟩ := (members w).mp member
    exact isModule_flatVariable (flattens.isModule_eq_false stands)
  obtain ⟨flat, linked, compiled', spec, isMain, rfl, none⟩ :=
    Project.exists_compile project.name valid.1 built plain (flattens.exists_closure distinct members)
  have runSpec : flat.runSpec = project.runSpec := by
    rw [Project.runSpec, isMain, Option.bind_some, unspecified, Option.getD_none, spec]
  obtain ⟨flatPlan, planned, clock⟩ := exists_ofProject isMain (runSpec ▸ valid.1) plain
    fun w member equation own => by
      obtain ⟨_, _, _, _, _, stands, rfl⟩ := (members w).mp member
      exact flattens.isAdmissible_flatVariable stands own
  have consistent := Project.consistent_of_compile compiled'
  obtain ⟨made, ofMain, -⟩ := made_of_ofProject consistent planned
  have modules : ∀ {name other}, flat.find? name = some other → other.modules = [] :=
    fun found => none _ (mem_of_findNamed found)
  -- the flat project has one model without modules, so all that is asked of modules holds
  refine ⟨flat, linked, flatPlan, compiled', planned, by rw [clock, runSpec, valid.2],
    ⟨consistent, planned, ?_, ?_, ?_⟩, by rw [ofMain]; exact isMain, members⟩
  · refine Project.hasPlainNames_of_compile compiled' fun own listed definition among => ?_
    obtain rfl := List.mem_singleton.mp listed
    obtain ⟨place, present, written⟩ := List.mem_filterMap.mp among
    obtain ⟨slot, here⟩ := (Plan.mem_places flattens.consistent flattens.planned).mp present
    obtain ⟨node, inner, v, stands, named⟩ := exists_stands flattens.consistent flattens.planned here
    obtain ⟨other, written', same, -⟩ := flattens.exists_definition stands
    rw [named] at written' same
    obtain rfl := Option.some.inj (written.symm.trans written')
    rw [same, flattens.naming.canonical place present]
    exact flattens.naming.plain place present
  · intro other listed module among
    rw [none other listed] at among
    cases among
  · intro main found module among
    rw [modules found] at among
    cases among

/-! ## Counterparts -/

omit [Scalar α] flattens in
/-- The slot that a slot has in the plan of the flattened project. -/
def counterpart (plan flatPlan : Plan α) (encode : List Name × Name → Name) (slot : Nat) : Nat :=
  (flatPlan.root.slots.get? (plan.nameOf encode slot)).getD timeSlot

section

variable {flat : Project α} {linked : LinkedModel α} {flatPlan : Plan α}
  (sound : flatPlan.IsSound flat) (clock : flatPlan.clock = plan.clock)
  (found : flat.find? flatPlan.root.model = some linked)
  (members : ∀ w, w ∈ linked.vars ↔ ∃ path node inner v slot,
    plan.Stands project path node inner v slot ∧ w = plan.flatVariable encode path node v)
include sound found members

theorem get?_encode {path : List Name} {node : Coded α} {model : LinkedModel α} {v : Variable α}
    {slot : Nat} (stands : plan.Stands project path node model v slot) :
    flatPlan.root.slots.get? (encode (path, v.name)) = some (counterpart plan flatPlan encode slot) := by
  have own := flattens.isModule_eq_false stands
  obtain ⟨made, -⟩ := made_of_ofProject sound.consistent sound.planned
  obtain ⟨target, here⟩ := made.exists_get? found ((members _).mpr ⟨_, _, _, _, _, stands, rfl⟩)
    (isModule_flatVariable own)
  rw [name_flatVariable own] at here
  rw [counterpart, flattens.nameOf_eq stands.variableSlot?, here, Option.getD_some]

theorem counterpart_time : counterpart plan flatPlan encode timeSlot = timeSlot := by
  rw [counterpart, flattens.nameOf_time]
  cases here : flatPlan.root.slots.get? "time" with
  | none => rfl
  | some target =>
    obtain ⟨made, -⟩ := made_of_ofProject sound.consistent sound.planned
    cases made with
    | @intro _ _ other fits _ =>
      cases fits.found.symm.trans found
      obtain ⟨w, declared, -, named⟩ := fits.variable_of_get? here
      obtain ⟨path, node, inner, v, slot, stands, rfl⟩ := (members w).mp declared
      have clear := flattens.naming.clear _ (flattens.mem_places stands)
      have own : (plan.flatVariable encode path node v).name = encode (path, v.name) :=
        name_flatVariable (flattens.isModule_eq_false stands)
      rw [← own, named] at clear
      cases clear

theorem slot?_nameOf {target : Nat} (within : target < plan.size) :
    flatPlan.root.slot? (plan.nameOf encode target) =
      some (counterpart plan flatPlan encode target) := by
  by_cases time : target = timeSlot
  · rw [time, flattens.nameOf_time, flattens.counterpart_time sound found members, Instance.slot?_eq,
      if_pos rfl]
  · obtain ⟨place, here⟩ := exists_place flattens.consistent flattens.planned time within
    have among := (Plan.mem_places flattens.consistent flattens.planned).mpr ⟨target, here⟩
    obtain ⟨node, model, v, stands, named⟩ := exists_stands flattens.consistent flattens.planned here
    have own := flattens.get?_encode sound found members stands
    rw [named] at own
    rw [flattens.nameOf_eq here]
    refine Instance.slot?_own (flattens.naming.plain place among).2.1 ?_ own
    intro same
    have clear := flattens.naming.clear place among
    rw [same] at clear
    cases clear

variable {row : Row α} {owner : Name}

/-- The name of a slot refers to the value of its counterpart. -/
theorem slotValue_nameOf {target : Nat} (within : target < plan.size) :
    (flatPlan.root.scope linked flatPlan.clock owner).slotValue row (plan.nameOf encode target) =
      row.get (counterpart plan flatPlan encode target) := by
  have leads : (flatPlan.root.scope linked flatPlan.clock owner).slot? (plan.nameOf encode target) =
      some (counterpart plan flatPlan encode target) :=
    flattens.slot?_nameOf sound found members within
  rw [Scope.slotValue, leads]

variable (row owner) in
theorem referenceValue_nameOf {target : Nat} (within : target < plan.size) :
    (flatPlan.root.scope linked flatPlan.clock owner).referenceValue row (plan.nameOf encode target) =
      row.get (counterpart plan flatPlan encode target) := by
  by_cases time : target = timeSlot
  · rw [time, flattens.nameOf_time, flattens.counterpart_time sound found members]
    rfl
  · obtain ⟨place, here⟩ := exists_place flattens.consistent flattens.planned time within
    have among := (Plan.mem_places flattens.consistent flattens.planned).mpr ⟨target, here⟩
    have clear := flattens.naming.clear place among
    rw [← flattens.nameOf_eq here] at clear
    rw [Scope.referenceValue, clear]
    exact flattens.slotValue_nameOf sound found members within

variable {path : List Name} {node : Coded α} {model : LinkedModel α} {v : Variable α} {slot : Nat}
  (stands : plan.Stands project path node model v slot)
include stands

/-- A table that is looked up is the one of the same variable in one model. -/
theorem table?_rename (unconnected : node.note.inputs.get? v.name = none) {equation : Equation α}
    (own : v.equation? = some equation) {name : Name} (among : name ∈ equation.tableNames) :
    (flatPlan.root.scope linked flatPlan.clock owner).table? (plan.rename encode node name) =
      (node.scope model plan.clock owner).table? name := by
  obtain ⟨w, listed, rfl⟩ :=
    List.mem_map.mp
      ((flattens.resolved _ _ _ _ _ stands).tables unconnected equation own name among)
  obtain ⟨declared, hasTable⟩ := List.mem_filter.mp listed
  have isOwn : w.isModule = false := by
    cases w with
    | stock | module => cases hasTable
    | formula => rfl
  obtain ⟨target, here⟩ := (flattens.made stands).exists_get? stands.found declared isOwn
  have stands' : plan.Stands project path node model w target :=
    ⟨stands.leads, stands.found, declared, here⟩
  have clear := flattens.clear stands.found w declared
  have leads : node.slot? w.name = some target := by
    refine Instance.slot?_own (flattens.plain stands.found w declared).2.1 ?_ here
    intro same
    rw [same] at clear
    cases clear
  have flatFound : linked.find? (encode (path, w.name)) =
      some (plan.flatVariable encode path node w) := by
    have listed := (members _).mpr ⟨_, _, _, _, _, stands', rfl⟩
    have named : (plan.flatVariable encode path node w).name = encode (path, w.name) :=
      name_flatVariable isOwn
    rw [← named]
    exact findNamed_of_mem (sound.consistent.distinct found) listed
  have ownFound : model.find? w.name = some w :=
    findNamed_of_mem (flattens.consistent.distinct stands.found) declared
  -- a variable with a table is no input of its instance, so its table is kept
  have unconnected' := unconnected_of_spares (fun v => v.table?.isSome) flattens.toIsSound
    flattens.sparesTables stands' hasTable
  rw [rename_eq clear leads, flattens.nameOf_eq stands'.variableSlot?]
  simp only [Coded.scope, flatFound, ownFound, Option.bind_some, flatVariable, unconnected']
  cases w <;> rfl

variable (row owner) in
include clock in
/-- Names in a variable that is no input lead to the same values in one model. -/
theorem carries (unconnected : node.note.inputs.get? v.name = none) (owner' : Name) :
    Scope.Carries (node.scope model plan.clock owner) (flatPlan.root.scope linked flatPlan.clock owner')
      (row.read (counterpart plan flatPlan encode) plan.size) row (plan.rename encode node) v := by
  have time : (row.read (counterpart plan flatPlan encode) plan.size).time = row.time := by
    rw [Row.time, Row.get_read flattens.pos, flattens.counterpart_time sound found members]
    rfl
  have target : ∀ {name target}, node.slot? name = some target → ∀ {owner' : Name},
      (node.scope model plan.clock owner').slotValue
        (row.read (counterpart plan flatPlan encode) plan.size) name =
          row.get (counterpart plan flatPlan encode target) := by
    intro name target leads owner'
    have same : (node.scope model plan.clock owner').slot? name = some target := leads
    rw [Scope.slotValue, same]
    exact Row.get_read
      (lt_size_of_slot? flattens.consistent flattens.planned stands.leads leads)
  refine ⟨clock, time.symm, fun equation own name refers => ?_, fun equation own call made =>
    ⟨?_, fun name lookedUp => ?_⟩, fun flow flowing => ?_⟩
  · cases clocked : ClockReference.ofName? name with
    | some reference =>
      rw [rename_clock clocked, Scope.referenceValue, Scope.referenceValue, clocked]
      cases reference with
      | time => exact time.symm
      | step => exact congrArg Clock.dt clock
      | start => exact congrArg Clock.start clock
      | stop => exact congrArg Clock.stop clock
    | none =>
      obtain ⟨slot', leads⟩ :=
        flattens.resolved.exists_reference stands unconnected own refers clocked
      have within := lt_size_of_slot? flattens.consistent flattens.planned stands.leads leads
      rw [rename_eq clocked leads, flattens.referenceValue_nameOf sound found members row _ within,
        Scope.referenceValue, clocked]
      exact (target leads).symm
  · exact flattens.rename_primitive stands
      (Equation.isPrimitive_of_isAdmissible (flattens.isAdmissible stands unconnected own call made))
  · exact flattens.table?_rename sound found members stands unconnected own
      (List.mem_filterMap.mpr ⟨call, made, lookedUp⟩)
  · obtain ⟨unclocked, slot', leads⟩ := flattens.exists_flow stands unconnected flowing
    have within := lt_size_of_slot? flattens.consistent flattens.planned stands.leads leads
    rw [rename_eq unclocked leads, flattens.slotValue_nameOf sound found members within]
    exact (target leads).symm

include clock in
/-- Each variable has its counterpart in one model: an input the variable that refers to its source. -/
theorem reflects : Reflects flat plan flatPlan (counterpart plan flatPlan encode) node model v slot := by
  have own := flattens.get?_encode sound found members stands
  have listed := (members _).mpr ⟨_, _, _, _, _, stands, rfl⟩
  have top : flatPlan.root.descend? [] = some flatPlan.root := rfl
  have nothing : ∀ name, flatPlan.root.note.inputs.get? name = none := by
    obtain ⟨-, -, -, inputs⟩ := made_of_ofProject sound.consistent sound.planned
    intro name
    rw [inputs]
    rfl
  cases connected : node.note.inputs.get? v.name with
  | some source =>
    obtain ⟨target, rfl⟩ := flattens.resolved.exists_source stands connected
    refine .input connected fun phase early row size satisfies => ?_
    have within := lt_size_of_input flattens.consistent.distinct flattens.planned stands.leads connected
    unfold flatVariable at listed
    rw [connected] at listed
    have holds := sound.get_formula top found listed (nothing _) own early
      (by simp [Variable.isDue, Variable.isHeld, Equation.isConstant]) (clock ▸ satisfies)
    have same := flattens.referenceValue_nameOf sound found members row (encode (path, v.name)) within
    exact holds.trans (same.trans (Row.get_read within).symm)
  | none =>
    unfold flatVariable at listed
    rw [connected] at listed
    have carries := fun row owner =>
      flattens.carries sound clock found members row v.name stands connected owner
    cases v with
    | module => cases flattens.isModule_eq_false stands
    | formula formula =>
      refine .formula connected top found listed (nothing _) own ?_ fun row _ =>
        (carries row _).formulaValue
      simp only [Variable.isHeld, Equation.isConstant_mapNames]
    | stock stock =>
      exact .stock connected top found listed (nothing _) own
        (fun row _ => (carries row _).value rfl) fun row present _ => (carries row _).nextValue present

end

end Flattens

/-! ## Inlining -/

theorem Flattens.slot?_dotted {encode : List Name × Name → Name} (flattens : plan.Flattens project encode)
    {path : List Name} {node : Coded α} {model : LinkedModel α} {v : Variable α} {slot : Nat}
    (stands : plan.Stands project path node model v slot) :
    plan.slot? (dotted path v.name) = some slot := by
  obtain ⟨made, -⟩ := made_of_ofProject flattens.consistent flattens.planned
  have clear := flattens.clear stands.found v stands.member
  refine Plan.slot?_dotted flattens.plain made stands.leads (Instance.slot?_own
    (flattens.plain stands.found v stands.member).2.1 (fun same => ?_) stands.own)
  rw [same] at clear
  cases clear

end Plan

namespace Simulation

/-- Instantiating a module means inlining its model. The variables of all instances of a project, under
names of their own, with the names of the slots that their equations and flows refer to, and inputs
that refer to their sources, make a project of one model that can be run, and a run of it to the end
gives each variable the same series. -/
theorem series_of_flatten {document : Document.Project α} {project : Project α} {run : Simulation α}
    (compiled : Project.compile document = .ok project) (ready : ofProject project = .ok run)
    (plain : document.HasPlainNames) (clear : document.LeavesClock)
    (relative : project.HasRelativeSources) (sparesStocks : project.SparesStocks)
    (sparesTables : project.SparesTables) (resolved : run.plan.IsResolved project)
    {encode : List Name × Name → Name} (naming : run.plan.IsNaming encode) :
    ∃ flat flatRun, Project.compile (run.plan.flatten project encode) = .ok flat ∧
      ofProject flat = .ok flatRun ∧
      ∀ path name, run.plan.HasVariable project (path, name) → ∃ series,
        run.reset.runToEnd.series? (Plan.dotted path name) = some series ∧
          flatRun.reset.runToEnd.series? (encode (path, name)) =
            some { series with name := encode (path, name) } := by
  obtain ⟨plan, planned, rfl⟩ := ofProject_eq_ok.mp ready
  have consistent := Project.consistent_of_compile compiled
  have flattens : plan.Flattens project encode := {
    consistent, planned, resolved, naming, sparesTables
    plain := Project.hasPlainNames_of_compile compiled plain
    spares := sparesStocks
    outward := relative.readsOutward
    clear := Project.leavesClock_of_compile compiled clear
    flowing := fun found _ member _ flowing =>
      Project.flows_of_compile compiled found member flowing
    tables := fun found _ member _ own => Project.table_of_compile compiled found member own }
  obtain ⟨flat, linked, flatPlan, compiled', planned', clock, sound, found, members⟩ :=
    flattens.exists_plan
  -- a slot of the whole hierarchy is mirrored by that of the variable which its name encodes
  have mirrors := Plan.mirrors_of_reflects flattens.toIsSound sound clock
    (flattens.counterpart_time sound found members) fun _ _ _ _ _ leads inside member own =>
      flattens.reflects sound clock found members ⟨leads, inside, member, own⟩
  refine ⟨flat, start flatPlan, compiled', ofProject_eq_ok.mpr ⟨_, planned', rfl⟩, fun path name present => ?_⟩
  obtain ⟨slot, here⟩ := Plan.exists_variableSlot? consistent.distinct planned present
  obtain ⟨node, model, v, stands, rfl⟩ := Plan.exists_stands consistent planned here
  have first := flattens.slot?_dotted stands
  have within := Plan.lt_size_of_slot? consistent planned (show plan.root.descend? [] = _ from rfl) first
  have second : flatPlan.slot? (encode (path, v.name)) =
      some (Plan.Flattens.counterpart plan flatPlan encode slot) := by
    rw [← flattens.nameOf_eq here]
    exact flattens.slot?_nameOf sound found members within
  have same := mirrors.series_eq flattens.toIsSound sound first within second
  have started : (start plan).reset = start plan := rfl
  have started' : (start flatPlan).reset = start flatPlan := rfl
  rw [started, started']
  rw [series?_runToEnd, series?_runToEnd, first, second] at same ⊢
  simp only [Option.map_some, Option.some.injEq, Prod.mk.injEq] at same
  exact ⟨_, rfl, by simp only [Option.map_some, same]⟩

/-- A project of three models, each instantiated in the one before it: the module `m` has a stock whose
flow looks up a table, and its module `n` reads that stock. -/
def layered : Document.Project Float :=
  ⟨"", ⟨0, 2, 1, none⟩, [
    ⟨"main", none, [
      .auxiliary ⟨"a", "", some (.reference "time"), none⟩,
      .auxiliary ⟨"b", "", some (.binary .add (.reference "m.n.y") (.reference "m.s")), none⟩,
      .module ⟨"m", "sub", [⟨"a", "m.x"⟩]⟩]⟩,
    ⟨"sub", none, [
      .auxiliary ⟨"x", "0", none, none⟩,
      .auxiliary ⟨"curve", "", none, some ⟨some [0, 2], [1, 3], none⟩⟩,
      .stock ⟨"s", "", some (.reference "x"), ["f"], [], false⟩,
      .flow ⟨"f", "", some (.call "lookup" [.reference "curve", .reference "x"]), none, false⟩,
      .module ⟨"n", "deep", [⟨"s", "n.x"⟩]⟩]⟩,
    ⟨"deep", none, [
      .auxiliary ⟨"x", "0", none, none⟩,
      .auxiliary ⟨"y", "", some (.reference "x"), none⟩]⟩]⟩

/-- The names on the way to a variable, joined by underscores. -/
def underscored (place : List Name × Name) : Name := "_".intercalate (place.1 ++ [place.2])

theorem series_of_flatten_layered : ∃ project run, Project.compile layered = .ok project ∧
    ofProject project = .ok run ∧ ∃ flat flatRun,
      Project.compile (run.plan.flatten project underscored) = .ok flat ∧
        ofProject flat = .ok flatRun ∧ ∃ series,
          run.reset.runToEnd.series? "m.n.y" = some series ∧
            flatRun.reset.runToEnd.series? "m_n_y" = some { series with name := "m_n_y" } := by
  have check : ∃ project ∈ (Project.compile layered).toOption,
      ∃ plan ∈ (Plan.ofProject project).toOption, layered.HasPlainNames ∧ layered.LeavesClock ∧
        project.HasRelativeSources ∧ project.SparesStocks ∧ project.SparesTables ∧
        plan.IsNaming underscored ∧ (plan.variableSlot? (["m", "n"], "y")).isSome = true ∧
        ∀ place ∈ plan.places, ∀ node ∈ plan.root.descend? place.1,
          ∀ model ∈ project.find? node.model, ∀ v ∈ model.find? place.2, Coded.Resolves node model v := by
    rw [Project.compile_eq]
    decide +kernel
  obtain ⟨project, compiled, plan, planned, plain, clear, relative, stocks, tables, naming, present,
    each⟩ := check
  have compiled := toOption_eq_some.mp compiled
  have planned := toOption_eq_some.mp planned
  have ready : ofProject project = .ok (start plan) := ofProject_eq_ok.mpr ⟨plan, planned, rfl⟩
  have consistent := Project.consistent_of_compile compiled
  obtain ⟨slot, here⟩ := Option.isSome_iff_exists.mp present
  obtain ⟨flat, flatRun, compiled', ready', same⟩ := series_of_flatten compiled ready plain clear relative
    stocks tables (Plan.isResolved_of_places consistent planned each) naming
  exact ⟨project, start plan, compiled, ready, flat, flatRun, compiled', ready',
    same ["m", "n"] "y" (Plan.hasVariable_of_variableSlot? consistent.distinct planned here)⟩

end Simulation

end StockFlow
