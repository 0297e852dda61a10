import StockFlow.Proofs.Flattening
import StockFlow.Proofs.Replanning

/-!
# Runs with a detour

The variable that a detour leads through has the value of the detour's source in each row that satisfies
the equations of its plan. So the plan without the detour mirrors the one with it: each variable has the
variable at the same place as its counterpart.
-/

namespace StockFlow

variable {α : Type} [Scalar α]

/-! ## Models below each other -/

namespace Coded

variable {project : Project α} {clock : Clock α} {root root' node next below : Coded α}

theorem Made.exists_descend? (made : Made project clock root node) (made' : Made project clock root' next)
    (same : next.model = node.model) {path : List Name} (leads : node.descend? path = some below) :
    ∃ below', next.descend? path = some below' ∧ below'.model = below.model := by
  induction path generalizing node next with
  | nil =>
    cases leads
    exact ⟨next, rfl, same⟩
  | cons name rest ih =>
    obtain ⟨child, inside, further⟩ := Option.bind_eq_some_iff.mp leads
    cases made with
    | intro fits made =>
    cases made' with
    | intro fits' made' =>
      obtain rfl := Option.some.inj (fits.found.symm.trans (same ▸ fits'.found))
      obtain ⟨module, member, rfl, ofModel, -⟩ := fits.module_of_child? inside
      obtain ⟨child', inside', ofModel', -⟩ := fits'.exists_child? member
      obtain ⟨last, leads', same'⟩ := ih (made child (Instance.mem_of_child? inside))
        (made' child' (Instance.mem_of_child? inside')) (ofModel'.trans ofModel.symm) further
      exact ⟨last, Option.bind_eq_some_iff.mpr ⟨child', inside', leads'⟩, same'⟩

/-- No instance has another one of its model below it: that would go on below without end. -/
theorem Made.model_ne (made : Made project clock root node) {name : Name} {rest : List Name}
    (leads : node.descend? (name :: rest) = some below) : below.model ≠ node.model := by
  intro same
  -- below each instance of the model is another one, so the descent into one of them does not end
  have deeper : ∀ {above : Coded α}, Made project clock root above → ∀ path last,
      above.descend? path = some last → last.model ≠ node.model := by
    intro above outer
    induction outer with
    | @intro above first model fits inner ih =>
      intro path last found again
      have outer : Made project clock root above := .intro fits inner
      obtain ⟨further, onward, same'⟩ := made.exists_descend? (outer.of_descend? found) again leads
      have whole : above.descend? (path ++ name :: rest) = some further := by
        rw [Instance.descend?_append, found, Option.bind_some, onward]
      cases shape : path ++ name :: rest with
      | nil => exact absurd shape (List.append_ne_nil_of_right_ne_nil _ (List.cons_ne_nil _ _))
      | cons first names =>
        rw [shape] at whole
        obtain ⟨child, inside, leads'⟩ := Option.bind_eq_some_iff.mp whole
        exact ih child (Instance.mem_of_child? inside) names further leads' (same'.trans same)
  exact deeper made [] node rfl rfl

end Coded

/-! ## Slots at the same place -/

namespace Plan

omit [Scalar α]

/-- Whether two slots are both that of the time, or those of variables at the same place. -/
def Meets (plan next : Plan α) (slot other : Nat) : Prop :=
  slot = timeSlot ∧ other = timeSlot ∨
    ∃ place, plan.variableSlot? place = some slot ∧ next.variableSlot? place = some other

/-- The slot that a variable has in another plan, where its place moves. -/
def counterpart (moved : List Name × Name → List Name × Name) (plan next : Plan α) (slot : Nat) : Nat :=
  ((plan.places.find? fun place => plan.variableSlot? place == some slot).bind
    fun place => next.variableSlot? (moved place)).getD timeSlot

/-- The slot at the same place in another plan. -/
def sibling (plan next : Plan α) (slot : Nat) : Nat :=
  ((plan.places.find? fun place => plan.variableSlot? place == some slot).bind
    next.variableSlot?).getD timeSlot

variable [Scalar α] {project : Project α} {plan next : Plan α}

namespace IsSound

variable (sound : plan.IsSound project)
include sound

theorem made : Coded.Made project plan.clock plan.root plan.root :=
  (made_of_ofProject sound.consistent sound.planned).1

theorem isMain_root : plan.root.model = mainModel :=
  (made_of_ofProject sound.consistent sound.planned).2.1

theorem unconnected_root (name : Name) : plan.root.note.inputs.get? name = none :=
  unconnected_of_ofProject sound.consistent sound.planned name

theorem exists_fits {path : List Name} {node : Coded α} (leads : plan.root.descend? path = some node)
    {model : LinkedModel α} (found : project.find? node.model = some model) :
    ∃ first, Coded.Fits project plan.clock plan.root first model node := by
  cases sound.made.of_descend? leads with
  | intro fits _ =>
    obtain rfl := Option.some.inj (found.symm.trans fits.found)
    exact ⟨_, fits⟩

theorem counterpart_timeSlot (moved : List Name × Name → List Name × Name) :
    plan.counterpart moved next timeSlot = timeSlot := by
  have none : (plan.places.find? fun place => plan.variableSlot? place == some timeSlot) = none := by
    refine List.find?_eq_none.mpr fun place listed same => ?_
    exact late_of_variableSlot? sound.consistent sound.planned (by simpa using same) rfl
  rw [counterpart, none]
  rfl

theorem counterpart_eq {moved : List Name × Name → List Name × Name} {place : List Name × Name}
    {slot other : Nat} (here : plan.variableSlot? place = some slot)
    (there : next.variableSlot? (moved place) = some other) : plan.counterpart moved next slot = other := by
  have listed := (mem_places sound.consistent sound.planned).mpr ⟨slot, here⟩
  rw [counterpart]
  cases found : plan.places.find? fun place => plan.variableSlot? place == some slot with
  | none => exact absurd (by simp [here]) (List.find?_eq_none.mp found place listed)
  | some other =>
    have same : plan.variableSlot? other = some slot := by simpa using List.find?_some found
    rw [place_unique sound.consistent sound.planned same here, Option.bind_some, there,
      Option.getD_some]

theorem sibling_eq {slot other : Nat} (meets : plan.Meets next slot other) :
    plan.sibling next slot = other := by
  rcases meets with ⟨rfl, rfl⟩ | ⟨place, here, there⟩
  · exact sound.counterpart_timeSlot id
  · have kept : next.variableSlot? (id place) = some other := there
    exact sound.counterpart_eq here kept

end IsSound

end Plan

/-! ## Trees with a detour -/

namespace Detour

/-- Whether one plan is that of a project and another one that of the project with the detour, both of
which can be evaluated in order. -/
structure Rejoins (detour : Detour) (project other : Project α) (plan next : Plan α) : Prop where
  clear : detour.IsClear
  reroutes : detour.Reroutes project other
  ignores : ∀ model ∈ project.models, ∀ v ∈ model.vars, v.Ignores detour.via
  sound : plan.IsSound project
  sound' : next.IsSound other
  flows : ∀ {name model}, project.find? name = some model → ∀ v ∈ model.vars, ∀ flow ∈ v.flows,
    ∃ w ∈ model.vars, w.name = flow

/-- Whether two instances are those at the same place, the models of both being the same but for the
detour. -/
structure Twins (detour : Detour) (project other : Project α) (plan next : Plan α) (path : List Name)
    (node node' : Coded α) (model model' : LinkedModel α) : Prop where
  leads : plan.root.descend? path = some node
  leads' : next.root.descend? path = some node'
  name : node'.name = node.name
  found : project.find? node.model = some model
  found' : other.find? node'.model = some model'
  turns : detour.Turns model.toModel model'.toModel

variable {detour : Detour} {project other : Project α} {plan next : Plan α}

section

omit [Scalar α]

variable {model model' : Model α} {v : Variable α}

theorem Turns.mem_of_own (turns : detour.Turns model model') (member : v ∈ model.vars)
    (own : v.isModule = false) : v ∈ model'.vars := by
  cases turns with
  | same => exact member
  | main leads =>
    refine (leads.mem v).mpr (.inr ⟨v, member, (if_neg fun here => ?_).symm⟩)
    rw [leads.eq_straight member here] at own
    cases own

theorem Turns.own_of_mem (turns : detour.Turns model model') (member : v ∈ model'.vars)
    (own : v.isModule = false) (apart : model.name = mainModel → v.name ≠ detour.via) :
    v ∈ model.vars := by
  cases turns with
  | same => exact member
  | main leads =>
    rcases (leads.mem v).mp member with rfl | ⟨w, inside, rfl⟩
    · exact absurd rfl (apart leads.isMain)
    · unfold turn at own ⊢
      split
      · rename_i here
        rw [if_pos here] at own
        cases own
      · exact inside

theorem Turns.name_eq (turns : detour.Turns model model') (member : v ∈ model'.vars) :
    v.name = detour.via ∨ ∃ w ∈ model.vars, w.name = v.name := by
  cases turns with
  | same => exact .inr ⟨v, member, rfl⟩
  | main leads =>
    rcases (leads.mem v).mp member with rfl | ⟨w, inside, rfl⟩
    · exact .inl rfl
    · exact .inr ⟨w, inside, name_turn.symm⟩

theorem Turns.eq_of_ne (turns : detour.Turns model model') (apart : model.name ≠ mainModel) :
    model' = model := by
  cases turns with
  | same => rfl
  | main leads => exact absurd leads.isMain apart

theorem Turns.leads_of_eq (turns : detour.Turns model model') (isMain : model.name = mainModel) :
    detour.Leads model model' := by
  cases turns with
  | same apart => exact absurd isMain apart
  | main leads => exact leads

theorem Turns.table?_eq (turns : detour.Turns model model') (name : Name) :
    (model'.find? name).bind Variable.table? = (model.find? name).bind Variable.table? := by
  cases turns with
  | same => rfl
  | main leads =>
    by_cases here : name = detour.via
    · have absent : model.find? detour.via = none := findNamed_eq_none.mpr leads.unnamed
      rw [here, leads.find?_via, absent]
      rfl
    · rw [leads.find?_eq here, Option.bind_map]
      cases found : model.find? name with
      | none => rfl
      | some v =>
        show (detour.turn v).table? = v.table?
        unfold turn
        split
        · rename_i isModule
          rw [leads.eq_straight (mem_of_findNamed found) isModule]
          rfl
        · rfl

end

namespace Rejoins

variable (rejoins : detour.Rejoins project other plan next)
include rejoins

theorem exists_root : ∃ main main', detour.Twins project other plan next [] plan.root next.root main main' := by
  cases rejoins.sound.made with
  | @intro _ _ main fits _ =>
  cases rejoins.sound'.made with
  | @intro _ _ main' fits' _ =>
    have both := rejoins.reroutes.rel_find? mainModel
    have found := fits.found
    have found' := fits'.found
    rw [rejoins.sound.isMain_root] at found
    rw [rejoins.sound'.isMain_root] at found'
    rw [found, found'] at both
    refine ⟨main, main', rfl, rfl, ?_, fits.found, fits'.found, ?_⟩
    · rw [Plan.name_root rejoins.sound.planned, Plan.name_root rejoins.sound'.planned]
    · cases both
      assumption

section

variable {path : List Name} {node node' : Coded α} {model model' : LinkedModel α}
  (twins : detour.Twins project other plan next path node node' model model')
include twins

/-- The main model is instantiated at the root alone. -/
theorem eq_nil_of_isMain (isMain : model.name = mainModel) : path = [] := by
  cases path with
  | nil => rfl
  | cons name rest =>
    refine absurd ?_ (rejoins.sound.made.model_ne twins.leads)
    rw [rejoins.sound.isMain_root, ← isMain]
    exact (LinkedModel.name_of_named? twins.found).symm

theorem exists_fits : (∃ first, Coded.Fits project plan.clock plan.root first model node) ∧
    ∃ first, Coded.Fits other next.clock next.root first model' node' :=
  ⟨rejoins.sound.exists_fits twins.leads twins.found, rejoins.sound'.exists_fits twins.leads' twins.found'⟩

theorem rel_child? (name : Name) : Option.Rel (fun child child' => ∃ inner inner',
      detour.Twins project other plan next (path ++ [name]) child child' inner inner')
    (node.child? name) (node'.child? name) := by
  obtain ⟨⟨_, fits⟩, _, fits'⟩ := rejoins.exists_fits twins
  cases inside : node.child? name with
  | none =>
    cases inside' : node'.child? name with
    | none => exact .none
    | some child' =>
      obtain ⟨module', member', rfl, -⟩ := fits'.module_of_child? inside'
      obtain ⟨module, member, diverts⟩ := exists_left_of_mem twins.turns.modules member'
      obtain ⟨child, here, -⟩ := fits.exists_child? member
      rw [← diverts.name, inside] at here
      cases here
  | some child =>
    obtain ⟨module, member, rfl, ofModel, -⟩ := fits.module_of_child? inside
    obtain ⟨module', member', diverts⟩ := exists_right_of_mem twins.turns.modules member
    obtain ⟨child', inside', ofModel', -⟩ := fits'.exists_child? member'
    rw [diverts.name] at inside'
    rw [diverts.model] at ofModel'
    rw [inside']
    refine .some ?_
    have leads := Instance.descend?_concat twins.leads inside
    have leads' := Instance.descend?_concat twins.leads' inside'
    have both := rejoins.reroutes.rel_find? module.model
    obtain ⟨inner, found⟩ : ∃ inner, project.find? child.model = some inner := by
      cases rejoins.sound.made.of_descend? leads with
      | intro fits _ => exact ⟨_, fits.found⟩
    rw [← ofModel, found] at both
    generalize here : other.find? child.model = inner' at both
    cases both with
    | some turns =>
      refine ⟨inner, _, leads, leads', ?_, found, ?_, turns⟩
      · rw [Instance.name_of_child? inside, Instance.name_of_child? inside']
      · rwa [ofModel', ← ofModel]

theorem rel_get? {name : Name} (apart : model.name = mainModel → name ≠ detour.via) :
    Option.Rel (plan.Meets next) (node.slots.get? name) (node'.slots.get? name) := by
  obtain ⟨⟨_, fits⟩, _, fits'⟩ := rejoins.exists_fits twins
  cases here : node.slots.get? name with
  | none =>
    cases there : node'.slots.get? name with
    | none => exact .none
    | some slot =>
      obtain ⟨v, member, own, rfl⟩ := fits'.variable_of_get? there
      obtain ⟨slot, found⟩ := fits.exists_get? (twins.turns.own_of_mem member own apart) own
      rw [here] at found
      cases found
  | some slot =>
    obtain ⟨v, member, own, rfl⟩ := fits.variable_of_get? here
    obtain ⟨slot', there⟩ := fits'.exists_get? (twins.turns.mem_of_own member own) own
    rw [there]
    refine .some (.inr ⟨(path, v.name), ?_, ?_⟩)
    · rw [Plan.variableSlot?, twins.leads, Option.bind_some, here]
    · rw [Plan.variableSlot?, twins.leads', Option.bind_some, there]

omit twins in
/-- Paths from twins meet, but for the path from the main model to the middle of the detour. -/
theorem rel_slot? {path : List Name} {node node' : Coded α} {model model' : LinkedModel α}
    (twins : detour.Twins project other plan next path node node' model model') {sought : Path}
    (apart : path = [] → Path.unmarked sought ≠ detour.via) :
    Option.Rel (plan.Meets next) (node.slot? sought) (node'.slot? sought) := by
  have made := rejoins.sound.made.of_descend? twins.leads
  -- by induction on the tree: a path that does not end here goes on in a child
  induction made generalizing path node' model model' sought with
  | @intro node _ _ _ _ ih =>
    rw [Instance.slot?_eq, Instance.slot?_eq]
    split
    · exact .some (.inl ⟨rfl, rfl⟩)
    · generalize Path.unmarked sought = sought at apart ⊢
      have own := rejoins.rel_get? twins fun isMain => apart (rejoins.eq_nil_of_isMain twins isMain)
      have output : Option.Rel (plan.Meets next) (node.slots.get? node.name)
          (node'.slots.get? node.name) := by
        apply rejoins.rel_get? twins
        intro isMain
        have leads := twins.leads
        rw [rejoins.eq_nil_of_isMain twins isMain] at leads
        cases leads
        rw [Plan.name_root rejoins.sound.planned]
        exact rejoins.clear.late.symm
      have inside := rejoins.rel_child? twins (Path.split sought).1
      unfold Instance.locate?
      generalize node.slots.get? sought = slot, node'.slots.get? sought = slot' at own
      cases own with
      | some meets => exact .some meets
      | none =>
        dsimp only
        split
        · rw [twins.name]
          exact output
        · generalize here : node.child? (Path.split sought).1 = child,
            node'.child? (Path.split sought).1 = child' at inside
          cases inside with
          | none => exact .none
          | some both =>
            obtain ⟨inner, inner', twins⟩ := both
            exact ih _ (Instance.mem_of_child? here) twins (by simp)

omit twins in
theorem exists_twins (leads : plan.root.descend? path = some node)
    (found : project.find? node.model = some model) :
    ∃ node' model', detour.Twins project other plan next path node node' model model' := by
  have below : ∀ {start : List Name} {above above' : Coded α} {outer outer' : LinkedModel α},
      detour.Twins project other plan next start above above' outer outer' → ∀ path node,
        above.descend? path = some node → ∃ node' inner inner',
          detour.Twins project other plan next (start ++ path) node node' inner inner' := by
    intro start above above' outer outer' twins path node leads
    induction path generalizing start above above' outer outer' with
    | nil =>
      cases leads
      exact ⟨above', outer, outer', by rwa [List.append_nil]⟩
    | cons name rest ih =>
      obtain ⟨child, inside, further⟩ := Option.bind_eq_some_iff.mp leads
      have both := rejoins.rel_child? twins name
      rw [inside] at both
      generalize above'.child? name = child' at both
      cases both with
      | some both =>
        obtain ⟨inner, inner', twins⟩ := both
        have last := ih twins further
        rwa [List.append_assoc] at last
  obtain ⟨main, main', root⟩ := rejoins.exists_root
  obtain ⟨node', inner, inner', twins⟩ := below root path node leads
  obtain rfl := Option.some.inj (found.symm.trans twins.found)
  exact ⟨node', inner', twins⟩

/-! ## Values -/

omit twins in
theorem clock_eq : next.clock = plan.clock := by
  obtain ⟨-, clock⟩ := Plan.clock_of_ofProject rejoins.sound.planned
  obtain ⟨-, clock'⟩ := Plan.clock_of_ofProject rejoins.sound'.planned
  rw [clock, clock', rejoins.reroutes.runSpec_eq]

omit twins in
theorem get_sibling {slot slot' : Nat} (meets : plan.Meets next slot slot') (within : slot < plan.size)
    (row : Row α) : row.get slot' = (row.read (plan.sibling next) plan.size).get slot := by
  rw [Row.get_read within,
    rejoins.sound.sibling_eq meets]

omit twins in
theorem value_loadSlot {source source' : Option Nat} (both : Option.Rel (plan.Meets next) source source')
    (within : ∀ slot ∈ source, slot < plan.size) (dt : α) (row : Row α) :
    (Scope.loadSlot source').value dt row =
      (Scope.loadSlot source).value dt (row.read (plan.sibling next) plan.size) := by
  cases both with
  | none => rfl
  | some meets => exact rejoins.get_sibling meets (within _ rfl) row

theorem slotValue_eq {sought : Path} (apart : path = [] → Path.unmarked sought ≠ detour.via)
    (row : Row α) (owner owner' : Name) :
    (node'.scope model' next.clock owner').slotValue row sought =
      (node.scope model plan.clock owner).slotValue (row.read (plan.sibling next) plan.size) sought := by
  have both := rejoins.rel_slot? twins apart
  have within : ∀ slot ∈ node.slot? sought, slot < plan.size := fun slot leads =>
    Plan.lt_size_of_slot? rejoins.sound.consistent rejoins.sound.planned twins.leads leads
  unfold Scope.slotValue Coded.scope
  dsimp only
  generalize node.slot? sought = slot, node'.slot? sought = slot' at both within
  cases both with
  | none => rfl
  | some meets => exact rejoins.get_sibling meets (within _ rfl) row

/-! ## Names that variables mention -/

theorem leads_of_eq_nil (here : path = []) : detour.Leads model.toModel model'.toModel := by
  have leads := twins.leads
  rw [here] at leads
  cases leads
  refine twins.turns.leads_of_eq ?_
  rw [← rejoins.sound.isMain_root]
  exact LinkedModel.name_of_named? twins.found

variable {v : Variable α} (member : v ∈ model.vars)
include member

theorem apart_of_source {source : Path} (among : source ∈ v.sources) (here : path = []) :
    Path.unmarked source ≠ detour.via := by
  have head : Path.head source ≠ "" := Coded.head_ne_empty_of_source rejoins.sound.consistent
    rejoins.sound.plain twins.found member among
  rw [Path.unmarked_of_head head]
  intro same
  exact (rejoins.leads_of_eq_nil twins here).unread v member (same ▸ among)

theorem apart_of_reference {equation : Equation α} (own : v.equation? = some equation) {name : Name}
    (refers : name ∈ equation.references) (unclocked : ClockReference.ofName? name = none) :
    path = [] → Path.unmarked name ≠ detour.via := by
  intro here
  cases primitive : isPrimitive name with
  | true =>
    have undotted : ∀ entry ∈ Primitive.names, ¬ Path.IsDotted entry.1 := by decide
    obtain ⟨entry, listed, rfl⟩ := mem_names_of_isPrimitive primitive
    rw [Path.unmarked_of_not_dotted (undotted entry listed)]
    intro same
    have plain := rejoins.clear.plain.2.2
    rw [← same, primitive] at plain
    cases plain
  | false =>
    have unreserved : isReserved name = false := by
      rw [isReserved, primitive, unclocked]
      rfl
    refine rejoins.apart_of_source twins member ?_ here
    exact Variable.sources_of_equation? own ▸ Equation.mem_names_of_references refers unreserved

theorem apart_of_flow {flow : Name} (flowing : flow ∈ v.flows) :
    path = [] → Path.unmarked flow ≠ detour.via := by
  intro here
  obtain ⟨w, inside, rfl⟩ := rejoins.flows twins.found v member flow flowing
  rw [Path.unmarked_of_not_dotted (rejoins.sound.plain twins.found w inside).2.1]
  exact (rejoins.leads_of_eq_nil twins here).unnamed w inside

theorem carries (row : Row α) (owner owner' : Name) :
    Scope.Carries (node.scope model plan.clock owner) (node'.scope model' next.clock owner')
      (row.read (plan.sibling next) plan.size) row id v := by
  have time : row.time = (row.read (plan.sibling next) plan.size).time :=
    rejoins.get_sibling (.inl ⟨rfl, rfl⟩) rejoins.sound.pos row
  refine ⟨rejoins.clock_eq, time, fun equation own name refers => ?_, fun equation own call _ =>
    ⟨rfl, fun name _ => twins.turns.table?_eq name⟩, fun flow flowing => ?_⟩
  · unfold Scope.referenceValue
    rw [id]
    cases clocked : ClockReference.ofName? name with
    | some reference =>
      cases reference with
      | time => exact time
      | step => exact congrArg Clock.dt rejoins.clock_eq
      | start => exact congrArg Clock.start rejoins.clock_eq
      | stop => exact congrArg Clock.stop rejoins.clock_eq
    | none =>
      exact rejoins.slotValue_eq twins (rejoins.apart_of_reference twins member own refers clocked) row
        owner owner'
  · exact rejoins.slotValue_eq twins (rejoins.apart_of_flow twins member flowing) row owner owner'

end

/-! ## Inputs -/

section

variable {path : List Name} {node node' : Coded α} {model model' : LinkedModel α}
  (twins : detour.Twins project other plan next path node node' model model')
include twins

theorem rel_sourceSlot? {module : Module} (member : module ∈ model.modules) {name : Name} {symbol : Path}
    (wired : (Model.wires module).get? name = some symbol) :
    Option.Rel (plan.Meets next) (Coded.sourceSlot? plan.root node symbol)
      (Coded.sourceSlot? next.root node' symbol) := by
  have declared := Model.mem_modules.mp member
  obtain ⟨input, inside, same⟩ :=
    List.mem_map.mp (Keyed.mem_of_mem_ofList (Keyed.mem_of_get? wired))
  obtain ⟨-, rfl⟩ := Prod.mk.inj same
  unfold Coded.sourceSlot?
  cases source : input.source with
  | absolute absolute =>
    have marked : Path.isMarked ("." ++ absolute) = true := by
      rw [Path.isMarked, Path.after?_mark]
      rfl
    rw [Source.symbol, if_pos marked, if_pos marked]
    obtain ⟨main, main', root⟩ := rejoins.exists_root
    apply rejoins.rel_slot? root
    intro _
    rw [Path.unmarked, Path.after?_mark, Option.getD_some]
    refine (((rejoins.ignores model (mem_of_findNamed twins.found) _ declared).2 module rfl input
      inside).2 absolute ?_).1
    rw [Input.absolute?, source]
    rfl
  | relative relative =>
    have among : relative ∈ (Variable.module module : Variable α).sources :=
      NameSet.mem_ofList.mpr (List.mem_filterMap.mpr ⟨input, inside, by rw [source]⟩)
    have head := Coded.head_ne_empty_of_source rejoins.sound.consistent rejoins.sound.plain twins.found
      declared among
    have unmarked : ¬ Path.isMarked relative = true := by
      rw [Path.isMarked_of_head head]
      exact Bool.false_ne_true
    rw [Source.symbol, if_neg unmarked, if_neg unmarked]
    exact rejoins.rel_slot? twins (rejoins.apart_of_source twins declared among)

omit twins in
/-- The middle of the detour has the value of the detour's source. -/
theorem get_via {phase : Phase} (early : phase ≠ .stocks) {row : Row α}
    (satisfies : row.Satisfies plan.clock.dt (next.program phase)) :
    ∃ slot, next.root.slot? detour.via = some slot ∧ row.get slot =
      (Scope.loadSlot (plan.root.slot? detour.source)).value plan.clock.dt
        (row.read (plan.sibling next) plan.size) := by
  obtain ⟨main, main', root⟩ := rejoins.exists_root
  have leads := rejoins.leads_of_eq_nil root rfl
  have member : (.formula detour.formula : Variable α) ∈ main'.vars := (leads.mem _).mpr (.inl rfl)
  have unconnected : next.root.note.inputs.get? (Variable.formula detour.formula : Variable α).name =
      none := rejoins.sound'.unconnected_root _
  obtain ⟨_, fits⟩ := rejoins.sound'.exists_fits root.leads' root.found'
  obtain ⟨slot, own⟩ := fits.exists_get? member rfl
  have unclocked := rejoins.clear.unclocked
  have late : detour.via ≠ "time" := by
    intro same
    rw [same] at unclocked
    cases unclocked
  refine ⟨slot, Instance.slot?_own rejoins.clear.plain.2.1 late own, ?_⟩
  have due : (Variable.formula detour.formula : Variable α).isDue next.root.note.inputs phase = true := by
    simp [Variable.isDue, Variable.isHeld, formula, Equation.isConstant]
  have clocked : ClockReference.ofName? detour.source = none := by
    have unreserved := (Bool.or_eq_false_iff.mp rejoins.clear.unreserved).2
    rwa [Option.isSome_eq_false_iff, Option.isNone_iff_eq_none] at unreserved
  have apart : Path.unmarked detour.source ≠ detour.via := by
    rw [Path.unmarked_of_not_dotted rejoins.clear.undotted]
    exact rejoins.clear.around
  calc row.get slot
    _ = (next.root.scope main' next.clock detour.via).formulaValue row detour.formula :=
      rejoins.sound'.get_formula root.leads' root.found' member unconnected own early due
        (rejoins.clock_eq ▸ satisfies)
    _ = (next.root.scope main' next.clock detour.via).slotValue row detour.source := by
      simp [Scope.formulaValue, formula, Scope.value, Scope.referenceValue, clocked]
    _ = (plan.root.scope main plan.clock detour.via).slotValue
        (row.read (plan.sibling next) plan.size) detour.source :=
      rejoins.slotValue_eq root (fun _ => apart) row _ _
    _ = _ := (Scope.value_load _).symm

omit twins in
theorem value_loadSlot_via {phase : Phase} (early : phase ≠ .stocks) {row : Row α}
    (satisfies : row.Satisfies plan.clock.dt (next.program phase)) :
    (Scope.loadSlot (Coded.sourceSlot? next.root next.root detour.via)).value plan.clock.dt row =
      (Scope.loadSlot (Coded.sourceSlot? plan.root plan.root detour.source)).value plan.clock.dt
        (row.read (plan.sibling next) plan.size) := by
  have unmarked : ∀ name : Name, ¬ Path.IsDotted name → ¬ Path.isMarked name = true := by
    intro name plain
    rw [Path.isMarked, Path.after?_of_not_dotted (by decide) plain]
    exact Bool.false_ne_true
  obtain ⟨slot, leads, value⟩ := rejoins.get_via early satisfies
  rw [Coded.sourceSlot?, if_neg (unmarked _ rejoins.clear.plain.2.1), leads, Coded.sourceSlot?,
    if_neg (unmarked _ rejoins.clear.undotted)]
  exact value

/-- The inputs of an instance below the root are those of a module, as its wires lead to slots. -/
theorem exists_wires {start : List Name} {name : Name} (whole : path = start ++ [name]) :
    ∃ above above' outer outer' module module',
      detour.Twins project other plan next start above above' outer outer' ∧
      module ∈ outer.modules ∧ module' ∈ outer'.modules ∧
      module.Diverts detour.source detour.via module' ∧
      (∀ input, node.note.inputs.get? input =
        ((Model.wires module).get? input).map (Coded.sourceSlot? plan.root above)) ∧
      ∀ input, node'.note.inputs.get? input =
        ((Model.wires module').get? input).map (Coded.sourceSlot? next.root above') := by
  have leads := twins.leads
  have leads' := twins.leads'
  rw [whole, Instance.descend?_append] at leads leads'
  obtain ⟨above, before, last⟩ := Option.bind_eq_some_iff.mp leads
  obtain ⟨child, inside, same⟩ := Option.bind_eq_some_iff.mp last
  obtain rfl := Option.some.inj same
  obtain ⟨above', before', last'⟩ := Option.bind_eq_some_iff.mp leads'
  obtain ⟨child', inside', same'⟩ := Option.bind_eq_some_iff.mp last'
  obtain rfl := Option.some.inj same'
  -- the last step of the path is a module of the instance above, in both plans
  cases rejoins.sound.made.of_descend? before with
  | @intro _ _ outer fits _ =>
    obtain ⟨other', outer', twins'⟩ := rejoins.exists_twins before fits.found
    obtain rfl := Option.some.inj (before'.symm.trans twins'.leads')
    obtain ⟨_, fits'⟩ := rejoins.sound'.exists_fits twins'.leads' twins'.found'
    obtain ⟨module, member, named, -, inputs⟩ := fits.module_of_child? inside
    obtain ⟨module', member', diverts⟩ := exists_right_of_mem twins'.turns.modules member
    obtain ⟨again, here, -, inputs'⟩ := fits'.exists_child? member'
    rw [diverts.name, named, inside'] at here
    obtain rfl := Option.some.inj here
    refine ⟨above, above', outer, outer', module, module', twins', member, member', diverts, fun input => ?_,
      fun input => ?_⟩
    · rw [inputs]
      exact Keyed.get?_map (f := fun _ => Coded.sourceSlot? plan.root above)
    · rw [inputs']
      exact Keyed.get?_map (f := fun _ => Coded.sourceSlot? next.root above')

/-- Where the inputs of a module differ, one reads the source of the detour and the other the middle. -/
theorem symbol_cases {module module' : Module} (member : module ∈ model.modules)
    (member' : module' ∈ model'.modules)
    (diverts : module.Diverts detour.source detour.via module') {input : Name} {symbol symbol' : Path}
    (wired : (Model.wires module).get? input = some symbol)
    (wired' : (Model.wires module').get? input = some symbol') :
    symbol' = symbol ∨ model.name = mainModel ∧ symbol = detour.source ∧ symbol' = detour.via := by
  by_cases isMain : model.name = mainModel
  · have both := diverts.wires.get? input
    rw [wired, wired'] at both
    cases both with
    | some diverts => exact diverts.imp_right fun turned => ⟨isMain, turned⟩
  · left
    have same : model'.toModel = model.toModel := twins.turns.eq_of_ne isMain
    have here : module' ∈ model.modules := by rwa [← same]
    have distinct := Model.distinct_modules (rejoins.sound.consistent.distinct twins.found)
    rw [distinct.eq_of_name_eq here member diverts.name, wired] at wired'
    exact (Option.some.inj wired').symm

theorem rel_inputs (input : Name) : Option.Rel (fun source source' => ∀ phase, phase ≠ .stocks →
      ∀ row : Row α, row.Satisfies plan.clock.dt (next.program phase) →
        (Scope.loadSlot source').value plan.clock.dt row =
          (Scope.loadSlot source).value plan.clock.dt (row.read (plan.sibling next) plan.size))
    (node.note.inputs.get? input) (node'.note.inputs.get? input) := by
  have within : ∀ source, node.note.inputs.get? input = some source → ∀ slot ∈ source,
      slot < plan.size := by
    rintro _ connected slot rfl
    exact Plan.lt_size_of_input rejoins.sound.consistent.distinct rejoins.sound.planned twins.leads connected
  rcases List.eq_nil_or_concat path with rfl | ⟨start, name, whole⟩
  · have leads := twins.leads
    have leads' := twins.leads'
    cases leads
    cases leads'
    rw [rejoins.sound.unconnected_root, rejoins.sound'.unconnected_root]
    exact .none
  · -- below the root an input is wired by the module of the instance above
    rw [List.concat_eq_append] at whole
    obtain ⟨above, above', outer, outer', module, module', twins', member, member', diverts, inputs,
      inputs'⟩ := rejoins.exists_wires twins whole
    have both := diverts.wires.get? input
    rw [inputs] at within ⊢
    rw [inputs']
    cases wired : (Model.wires module).get? input with
    | none =>
      rw [wired] at both
      generalize (Model.wires module').get? input = symbol' at both
      cases both
      exact .none
    | some symbol =>
      rw [wired] at both within
      cases wired' : (Model.wires module').get? input with
      | none =>
        rw [wired'] at both
        cases both
      | some symbol' =>
        refine .some fun phase early row satisfies => ?_
        rcases rejoins.symbol_cases twins' member member' diverts wired wired' with
          rfl | ⟨isMain, rfl, rfl⟩
        · exact rejoins.value_loadSlot (rejoins.rel_sourceSlot? twins' member wired) (within _ rfl) _ row
        · -- only modules of the main model take the detour, so this one stands right below the root
          have leads := twins'.leads
          have leads' := twins'.leads'
          rw [rejoins.eq_nil_of_isMain twins' isMain] at leads leads'
          cases leads
          cases leads'
          exact rejoins.value_loadSlot_via early satisfies

/-- Each variable has the one at the same place as its counterpart. -/
theorem reflects {v : Variable α} (member : v ∈ model.vars) {slot : Nat}
    (own : node.slots.get? v.name = some slot) :
    Plan.Reflects other plan next (plan.sibling next) node model v slot := by
  obtain ⟨_, fits⟩ := rejoins.sound.exists_fits twins.leads twins.found
  have computed := fits.isModule_eq_false (rejoins.sound.consistent.distinct twins.found) member own
  have member' := twins.turns.mem_of_own member computed
  have unnamed : model.name = mainModel → v.name ≠ detour.via := fun isMain =>
    (twins.turns.leads_of_eq isMain).unnamed v member
  have both := rejoins.rel_get? twins unnamed
  rw [own] at both
  generalize own' : node'.slots.get? v.name = slot' at both
  cases both with
  | @some _ slot' meets =>
  have sibling := rejoins.sound.sibling_eq meets
  rw [← sibling] at own'
  -- an input takes what its source delivers, through the detour or past it; all others are computed alike
  have inputs := rejoins.rel_inputs twins v.name
  cases connected : node.note.inputs.get? v.name with
  | some source =>
    rw [connected] at inputs
    generalize connected' : node'.note.inputs.get? v.name = source' at inputs
    cases inputs with
    | some delivers =>
      refine .input connected fun phase early row _ satisfies => ?_
      rw [← delivers phase early row satisfies]
      exact satisfies _ (rejoins.sound'.mem_program_of_connected twins.leads' twins.found' member' own'
        early connected')
  | none =>
    rw [connected] at inputs
    generalize unconnected : node'.note.inputs.get? v.name = source' at inputs
    cases inputs
    have carries := fun row => rejoins.carries twins member row v.name v.name
    cases v with
    | module => cases computed
    | formula formula =>
      refine .formula connected twins.leads' twins.found' member' unconnected own' rfl fun row _ => ?_
      have same : (node'.scope model' next.clock formula.name).value row formula.equation =
          (node.scope model plan.clock formula.name).value (row.read (plan.sibling next) plan.size)
            formula.equation := by
        have carried := (carries row).value rfl
        rwa [Equation.mapNames_id] at carried
      simp only [Scope.formulaValue, same]
    | stock stock =>
      refine .stock connected twins.leads' twins.found' member' unconnected own' (fun row _ => ?_)
        fun row present _ => ?_
      · have carried := (carries row).value rfl
        rwa [Equation.mapNames_id] at carried
      · have carried : (node'.scope model' next.clock stock.name).nextValue row present
            ⟨stock.name, stock.text, stock.initial.mapNames id, stock.inflows.map id,
              stock.outflows.map id, stock.nonNegative⟩ = _ := (carries row).nextValue present
        rwa [Equation.mapNames_id, List.map_id, List.map_id] at carried

end

/-! ## Runs -/

/-- The plan without the detour runs like the one with it. -/
theorem mirrors : plan.Mirrors next (plan.sibling next) := by
  have time : plan.sibling next timeSlot = timeSlot :=
    rejoins.sound.sibling_eq (.inl ⟨rfl, rfl⟩)
  apply Plan.mirrors_of_reflects rejoins.sound rejoins.sound' rejoins.clock_eq time
  intro path node model v slot leads found member own
  obtain ⟨node', model', twins⟩ := rejoins.exists_twins leads found
  exact rejoins.reflects twins member own

theorem exists_slot? {path : List Name} {name : Name} (present : plan.HasVariable project (path, name)) :
    ∃ slot < plan.size, plan.slot? (Plan.dotted path name) = some slot ∧
      next.slot? (Plan.dotted path name) = some (plan.sibling next slot) := by
  obtain ⟨node, model, v, leads, found, member, own, rfl⟩ := present
  have undotted := (rejoins.sound.plain found v member).2.1
  obtain ⟨node', model', twins⟩ := rejoins.exists_twins leads found
  obtain ⟨_, fits⟩ := rejoins.sound.exists_fits leads found
  obtain ⟨slot, here⟩ : ∃ slot, node.slot? v.name = some slot := by
    by_cases time : v.name = "time"
    · exact ⟨timeSlot, by rw [Instance.slot?_eq, if_pos time]⟩
    · obtain ⟨slot, found⟩ := fits.exists_get? member own
      exact ⟨slot, Instance.slot?_own undotted time found⟩
  have both : Option.Rel (plan.Meets next) (node.slot? v.name) (node'.slot? v.name) := by
    apply rejoins.rel_slot? twins
    intro atRoot
    rw [Path.unmarked_of_not_dotted undotted]
    exact (rejoins.leads_of_eq_nil twins atRoot).unnamed v member
  rw [here] at both
  generalize there : node'.slot? v.name = slot' at both
  cases both with
  | some meets =>
    have made := rejoins.sound.made
    have made' := rejoins.sound'.made
    refine ⟨slot, ?_, Plan.slot?_dotted rejoins.sound.plain made leads here, ?_⟩
    · exact Plan.lt_size_of_slot? rejoins.sound.consistent rejoins.sound.planned leads here
    · rw [rejoins.sound.sibling_eq meets]
      exact Plan.slot?_dotted rejoins.sound'.plain made' twins.leads' there

theorem series_eq {path : List Name} {name : Name} (present : plan.HasVariable project (path, name)) :
    ∃ series, (Simulation.start plan).runToEnd.series? (Plan.dotted path name) = some series ∧
      (Simulation.start next).runToEnd.series? (Plan.dotted path name) = some series := by
  obtain ⟨slot, within, here, there⟩ := rejoins.exists_slot? present
  have same := rejoins.mirrors.series_eq rejoins.sound rejoins.sound' here within there
  rw [Simulation.series?_runToEnd, Simulation.series?_runToEnd, here, there] at same ⊢
  simp only [Option.map_some, Option.some.injEq, Prod.mk.injEq] at same
  exact ⟨_, rfl, by simp only [Option.map_some, same]⟩

end Rejoins

/-! ## Projects with a detour -/

namespace Reroutes

variable (reroutes : detour.Reroutes project other)
include reroutes

omit [Scalar α] in
theorem readsInside {module module' : Module} {path : Path}
    (diverts : module.Diverts detour.source detour.via module')
    (reads : other.ReadsInside module' path) : project.ReadsInside module path := by
  induction reads generalizing module with
  | own given absolute =>
    obtain ⟨input, given', same⟩ := exists_left_of_mem diverts.inputs given
    refine .own given' ?_
    rcases same.sources with kept | ⟨-, relative⟩
    · rw [← kept, absolute]
    · cases absolute.symm.trans relative
  | deeper found member _ ih =>
    have both := reroutes.rel_find? module.model
    rw [← diverts.model, found] at both
    generalize found' : project.find? _ = model at both
    cases both with
    | some turns =>
      obtain ⟨inner, inside, diverts'⟩ := exists_left_of_mem turns.modules member
      refine .deeper ?_ inside (ih diverts')
      rw [← diverts.model, found']

omit [Scalar α] in
theorem readsOutward (outward : project.ReadsOutward) : other.ReadsOutward := by
  intro main' isMain' module' member' path reads
  have both := reroutes.rel_find? mainModel
  have found' : other.find? mainModel = some main' := isMain'
  rw [found'] at both
  generalize found : project.find? mainModel = main at both
  cases both with
  | some turns =>
    obtain ⟨module, member, diverts⟩ := exists_left_of_mem turns.modules member'
    rw [diverts.name]
    exact outward _ found module member path (reroutes.readsInside diverts reads)

omit [Scalar α] in
theorem sparesStocks (ignores : ∀ model ∈ project.models, ∀ v ∈ model.vars, v.Ignores detour.via)
    (spares : project.SparesStocks) : other.SparesStocks := by
  intro model' member' module' inside' inner' found' input' given' v' isTarget'
  obtain ⟨model, member, turns⟩ := exists_left_of_mem reroutes.models member'
  obtain ⟨module, inside, diverts⟩ := exists_left_of_mem turns.modules inside'
  obtain ⟨input, given, same⟩ := exists_left_of_mem diverts.inputs given'
  have apart : input.target ≠ detour.via :=
    ((ignores model member _ (Model.mem_modules.mp inside)).2 module rfl input given).1
  have both := reroutes.rel_find? module'.model
  rw [show other.find? module'.model = some inner' from found'] at both
  generalize found : project.find? module'.model = inner at both
  cases both with
  | @some inner _ turns' =>
    have stocks := turns'.isStock_find? apart
    rw [← same.target, show inner'.find? input'.target = some v' from isTarget'] at stocks
    obtain ⟨v, isTarget, isStock⟩ := Option.map_eq_some_iff.mp stocks.symm
    rw [← isStock]
    rw [diverts.model] at found
    rw [same.target] at isTarget
    exact spares model member module inside inner found input given v isTarget

omit [Scalar α] in
theorem hasPlainNames (clear : detour.IsClear) (plain : project.HasPlainNames) :
    other.HasPlainNames := by
  intro name model' found' v' member'
  have both := reroutes.rel_find? name
  rw [found'] at both
  generalize found : project.find? name = model at both
  cases both with
  | some turns =>
    rcases turns.name_eq member' with isVia | ⟨v, member, named⟩
    · exact isVia ▸ clear.plain
    · exact named ▸ plain found v member

theorem rejoins (clear : detour.IsClear)
    (ignores : ∀ model ∈ project.models, ∀ v ∈ model.vars, v.Ignores detour.via)
    (sound : plan.IsSound project) (consistent : other.Consistent)
    (planned : Plan.ofProject other = .ok next)
    (flows : ∀ {name model}, project.find? name = some model → ∀ v ∈ model.vars, ∀ flow ∈ v.flows,
      ∃ w ∈ model.vars, w.name = flow) : detour.Rejoins project other plan next where
  clear
  reroutes
  ignores
  sound
  flows
  sound' := {
    consistent, planned
    plain := reroutes.hasPlainNames clear sound.plain
    spares := reroutes.sparesStocks ignores sound.spares
    outward := reroutes.readsOutward sound.outward }

end Reroutes

end Detour

end StockFlow
