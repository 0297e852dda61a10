import StockFlow.Plan.Basic
import StockFlow.Proofs.Instances
import StockFlow.Proofs.Linking

/-!
# Trees of plans

The tree of a plan, from the layout of a project over its wires to its code: each instance is one of
a model that the project has, its block is divided among the model's variables and modules, the
inputs of each module read the slots that the module's wires lead to, and its code is that of the
model in this place.
-/

namespace StockFlow

variable {α : Type}

/-! ## Layouts -/

namespace Layout

variable {vars : List (Variable α)} {first slot : Nat} {name : Name}

theorem names_slotsFrom : (slotsFrom first vars).map Prod.fst =
    (vars.filter (!·.isModule)).map Variable.name := by
  conv_rhs => rw [← List.zipIdx_map_fst 0 (vars.filter (!·.isModule)), List.map_map]
  rw [slotsFrom, List.map_map]
  rfl

theorem numbered_slotsFrom : (slotsFrom first vars).map Prod.snd =
    List.range' first (slotsFrom first vars).length := by
  unfold slotsFrom
  rw [List.map_map, List.length_map, List.length_zipIdx]
  have counted : ∀ (items : List (Variable α)) (start : Nat),
      (items.zipIdx start).map (fun entry => first + entry.2) =
        List.range' (first + start) items.length := by
    intro items
    induction items with
    | nil => simp
    | cons item rest ih =>
      intro start
      simp [ih, List.range'_succ, Nat.add_assoc]
  exact counted _ 0

theorem exists_of_get?_slotsFrom (found : (slotsFrom first vars).get? name = some slot) :
    ∃ v ∈ vars, v.isModule = false ∧ v.name = name := by
  have listed : name ∈ (slotsFrom first vars).map Prod.fst :=
    List.mem_map_of_mem (f := Prod.fst) (Keyed.mem_of_get? found)
  rw [names_slotsFrom] at listed
  obtain ⟨v, member, named⟩ := List.mem_map.mp listed
  obtain ⟨inside, plain⟩ := List.mem_filter.mp member
  exact ⟨v, inside, by simpa using plain, named⟩

theorem exists_get?_slotsFrom {v : Variable α} (member : v ∈ vars) (plain : v.isModule = false) :
    ∃ slot, (slotsFrom first vars).get? v.name = some slot := by
  refine Option.ne_none_iff_exists'.mp fun absent => ?_
  have listed : v.name ∈ (slotsFrom first vars).map Prod.fst := by
    rw [names_slotsFrom]
    exact List.mem_map_of_mem (List.mem_filter.mpr ⟨member, by simp [plain]⟩)
  obtain ⟨entry, inside, named⟩ := List.mem_map.mp listed
  exact Keyed.get?_eq_none.mp absent entry inside named

theorem distinct_slotsFrom (distinct : Distinct Variable.name vars) :
    Distinct Prod.fst (slotsFrom first vars) := by
  rw [Distinct, names_slotsFrom]
  exact distinct.sublist (List.filter_sublist.map _)

/-- A layout as it is placed. -/
inductive Placed (project : Project α) : Layout → Prop
  | intro {node : Layout} {model : LinkedModel α} {first : Nat}
    (found : project.find? node.model = some model)
    (slots : node.slots = slotsFrom first model.vars)
    (tidy : node.Tidy first)
    (modules : List.Forall₂ (fun module child =>
      child.name = module.name ∧ child.model = module.model ∧ child.note = Model.wires module)
      model.modules node.children)
    (below : ∀ child ∈ node.children, Placed project child) : Placed project node

theorem placeAll_eq_ok {place : Module → Nat → Except Fault Layout} {modules : List Module}
    {shift : Nat} {children : List Layout} (placed : placeAll place modules shift = .ok children)
    (shifts : ∀ module shift child, place module shift = .ok child → child.shift = shift) :
    List.Forall₂ (fun module child => place module child.shift = .ok child) modules children ∧
      Instance.Stacked shift children (shift + (children.map Instance.size).foldr (· + ·) 0) := by
  induction modules generalizing shift children with
  | nil =>
    cases placed
    exact ⟨.nil, rfl⟩
  | cons module rest ih =>
    simp only [placeAll, bind_eq_ok, pure_eq_ok] at placed
    obtain ⟨first, here, others, after, rfl⟩ := placed
    obtain ⟨each, stacked⟩ := ih after
    have start := shifts _ _ _ here
    refine ⟨.cons (start.symm ▸ here) each, start, ?_⟩
    rw [List.map_cons, List.foldr_cons, ← Nat.add_assoc]
    exact stacked

section

variable {project : Project α} {depth reserved shift : Nat} {model : LinkedModel α}
  {wires : Keyed Path} {node : Layout}

theorem fields_of_place (placed : place project depth reserved shift name model wires = .ok node) :
    node.name = name ∧ node.model = model.name ∧ node.shift = shift ∧ node.note = wires := by
  cases depth with
  | zero => cases placed
  | succ depth =>
    simp only [place, bind_eq_ok, pure_eq_ok] at placed
    obtain ⟨children, -, rfl⟩ := placed
    exact ⟨rfl, rfl, rfl, rfl⟩

/-- Placing divides the block of an instance and of all below it. -/
theorem placed_of_place (distinct : project.HasDistinctNames)
    (placed : place project depth reserved shift name model wires = .ok node)
    (found : project.find? model.name = some model) (late : timeSlot < shift + reserved)
    (early : ∀ slot, shift ≤ slot → slot < shift + reserved → slot = timeSlot) :
    Placed project node := by
  induction depth generalizing reserved shift name model wires node with
  | zero => cases placed
  | succ depth ih =>
    -- only the root reserves a slot, that of the time
    simp only [place, bind_eq_ok, pure_eq_ok] at placed
    obtain ⟨children, below, rfl⟩ := placed
    obtain ⟨each, stacked⟩ := placeAll_eq_ok below fun module shift child placed => by
      split at placed
      · cases placed
      · exact (fields_of_place placed).2.2.1
    have inner : List.Forall₂ (fun module (child : Layout) =>
        ∃ inner, project.find? module.model = some inner ∧
          place project depth 0 child.shift module.name inner (Model.wires module) = .ok child)
        model.modules children := by
      refine each.imp fun module child placed => ?_
      split at placed
      · cases placed
      · exact ⟨_, ‹_›, placed⟩
    have modules : List.Forall₂ (fun module (child : Layout) => child.name = module.name ∧
        child.model = module.model ∧ child.note = Model.wires module) model.modules children := by
      refine inner.imp fun module child => ?_
      rintro ⟨other, here, placed⟩
      obtain ⟨named, ofModel, -, note⟩ := fields_of_place placed
      exact ⟨named, ofModel.trans (LinkedModel.name_of_named? here), note⟩
    have unique := distinct found
    refine .intro found rfl ⟨distinct_slotsFrom unique, ?_, numbered_slotsFrom, ?_, late,
      Nat.le_add_right .., early⟩ modules fun child member => ?_
    · rw [Distinct, map_eq_of_forall₂ modules fun _ _ => And.left]
      exact Model.distinct_modules unique
    · simpa only [Nat.add_assoc] using stacked
    · obtain ⟨module, -, other, here, placed⟩ := exists_left_of_mem inner member
      have named := LinkedModel.name_of_named? here
      refine ih placed (named.symm ▸ here) ?_ ?_
      · have := stacked.le_shift member
        omega
      · intro slot above below
        exact absurd below (Nat.not_lt.mpr above)

end

/-! ## Wires -/

mutual

theorem shape_wiredBelow (root : Layout) :
    ∀ above node : Layout, (wiredBelow root above node).shape = node.shape
  | _, ⟨_, _, _, _, _, _, children⟩ => by
    unfold wiredBelow Instance.shape
    rw [shapes_allWiredBelow root _ children]

theorem shapes_allWiredBelow (root : Layout) : ∀ (above : Layout) (nodes : List Layout),
    Instance.shapes (allWiredBelow root above nodes) = Instance.shapes nodes
  | _, [] => rfl
  | above, first :: rest => by
    unfold allWiredBelow Instance.shapes
    rw [shape_wiredBelow root above first, shapes_allWiredBelow root above rest]

end

theorem wiredBelow_eq (root above node : Layout) : wiredBelow root above node =
    ⟨node.name, node.model, node.shift, node.size, node.slots, wire root above node.note,
      allWiredBelow root node node.children⟩ := by
  cases node
  rfl

theorem allWiredBelow_eq_map (root above : Layout) (nodes : List Layout) :
    allWiredBelow root above nodes = nodes.map (wiredBelow root above) := by
  induction nodes with
  | nil => rfl
  | cons first rest ih => rw [allWiredBelow, List.map_cons, ih]

end Layout

/-! ## Code -/

namespace Site

variable {site : Site α}

theorem slot_eq_ok {name : Name} {slot : Nat} :
    site.slot name = .ok slot ↔ site.wired.slots.get? name = some slot := by
  unfold Site.slot
  cases site.wired.slots.get? name <;> simp

variable [Scalar α] {phase : Phase} {v : Variable α} {part : List (Instruction α)}

/-- What is done for a variable in a phase, by what the variable is and whether it is an input. -/
inductive Codes (site : Site α) : Phase → Variable α → List (Instruction α) → Prop
  | input {phase : Phase} {v : Variable α} {source : Option Nat} {slot : Nat} (early : phase ≠ .stocks)
    (connected : site.inputs.get? v.name = some source)
    (own : site.wired.slots.get? v.name = some slot) :
    Codes site phase v [.assign ⟨slot, Scope.loadSlot source⟩]
  | settled {v : Variable α} {source : Option Nat} (connected : site.inputs.get? v.name = some source) :
    Codes site .stocks v []
  | enter {phase : Phase} {module : Module} (unconnected : site.inputs.get? module.name = none) :
    Codes site phase (.module module) [.enter module.name]
  | initial {stock : Stock α} {slot : Nat} {term : Term α}
    (unconnected : site.inputs.get? stock.name = none)
    (own : site.wired.slots.get? stock.name = some slot)
    (lowered : (site.scope stock.name).lower stock.initial = .ok term) :
    Codes site .initials (.stock stock) [.assign ⟨slot, term⟩]
  | kept {stock : Stock α} {slot : Nat} (unconnected : site.inputs.get? stock.name = none)
    (own : site.wired.slots.get? stock.name = some slot) : Codes site .flows (.stock stock) []
  | update {stock : Stock α} {slot : Nat} (unconnected : site.inputs.get? stock.name = none)
    (own : site.wired.slots.get? stock.name = some slot) :
    Codes site .stocks (.stock stock)
      [.assign ⟨slot, (site.scope stock.name).stockUpdate slot stock⟩]
  | formula {phase : Phase} {formula : Formula α} {slot : Nat} {term : Term α}
    (unconnected : site.inputs.get? formula.name = none)
    (own : site.wired.slots.get? formula.name = some slot)
    (lowered : (site.scope formula.name).formulaTerm formula = .ok term) :
    Codes site phase (.formula formula) [.assign ⟨slot, term⟩]

theorem codes_of_inputCode {source : Option Nat} (connected : site.inputs.get? v.name = some source)
    (coded : site.inputCode v.name source phase = .ok part) : site.Codes phase v part := by
  unfold inputCode at coded
  split at coded
  · cases coded
    exact .settled connected
  · rename_i early
    simp only [bind_eq_ok, pure_eq_ok] at coded
    obtain ⟨slot, own, rfl⟩ := coded
    exact .input early connected (slot_eq_ok.mp own)

theorem codes_of_stockCode {stock : Stock α} (unconnected : site.inputs.get? stock.name = none)
    (coded : site.stockCode stock phase = .ok part) : site.Codes phase (.stock stock) part := by
  simp only [stockCode, bind_eq_ok] at coded
  obtain ⟨slot, own, coded⟩ := coded
  rw [slot_eq_ok] at own
  cases phase with
  | initials =>
    simp only [bind_eq_ok, pure_eq_ok] at coded
    obtain ⟨term, lowered, rfl⟩ := coded
    exact .initial unconnected own lowered
  | flows =>
    cases pure_eq_ok.mp coded
    exact .kept unconnected own
  | stocks =>
    cases pure_eq_ok.mp coded
    exact .update unconnected own

theorem variableCode_eq_ok : site.variableCode v phase = .ok part ↔ site.Codes phase v part := by
  constructor
  · intro coded
    unfold variableCode at coded
    split at coded
    · rename_i source connected
      exact codes_of_inputCode connected coded
    · rename_i unconnected
      cases v with
      | module module =>
        cases coded
        exact .enter unconnected
      | stock stock => exact codes_of_stockCode unconnected coded
      | formula formula =>
        simp only [bind_eq_ok, pure_eq_ok, slot_eq_ok] at coded
        obtain ⟨slot, own, term, lowered, rfl⟩ := coded
        exact .formula unconnected own lowered
  · intro codes
    cases codes with
    | @input _ _ source slot early connected own =>
      have made : site.inputCode v.name source phase = .ok [.assign ⟨slot, Scope.loadSlot source⟩] := by
        cases phase with
        | stocks => cases early rfl
        | initials | flows => exact bind_eq_ok.mpr ⟨slot, slot_eq_ok.mpr own, rfl⟩
      unfold variableCode
      rw [connected]
      exact made
    | settled connected =>
      unfold variableCode
      rw [connected]
      rfl
    | enter unconnected =>
      have absent : site.inputs.get? (Variable.module (α := α) _).name = none := unconnected
      unfold variableCode
      rw [absent]
    | initial unconnected own lowered =>
      have absent : site.inputs.get? (Variable.stock _).name = none := unconnected
      unfold variableCode
      rw [absent]
      exact bind_eq_ok.mpr ⟨_, slot_eq_ok.mpr own, bind_eq_ok.mpr ⟨_, lowered, rfl⟩⟩
    | kept unconnected own | update unconnected own =>
      have absent : site.inputs.get? (Variable.stock _).name = none := unconnected
      unfold variableCode
      rw [absent]
      exact bind_eq_ok.mpr ⟨_, slot_eq_ok.mpr own, rfl⟩
    | formula unconnected own lowered =>
      have absent : site.inputs.get? (Variable.formula _).name = none := unconnected
      unfold variableCode
      rw [absent]
      exact bind_eq_ok.mpr ⟨_, slot_eq_ok.mpr own, bind_eq_ok.mpr ⟨_, lowered, rfl⟩⟩

end Site

namespace Coded

section

variable [Scalar α] {project : Project α} {clock : Clock α}

theorem allOfWired_eq_mapM (nodes : List Wired) :
    allOfWired project clock nodes = nodes.mapM (ofWired project clock) := by
  induction nodes with
  | nil => rfl
  | cons first rest ih => rw [allOfWired, List.mapM_cons, ih]

theorem allOfWired_eq_ok {nodes : List Wired} {coded : List (Coded α)} :
    allOfWired project clock nodes = .ok coded ↔
      List.Forall₂ (fun node coded => ofWired project clock node = .ok coded) nodes coded := by
  rw [allOfWired_eq_mapM, mapM_eq_ok]

theorem ofWired_eq_ok {node : Wired} {coded : Coded α} (done : ofWired project clock node = .ok coded) :
    ∃ children model code, allOfWired project clock node.children = .ok children ∧
      project.find? node.model = some model ∧ Site.code ⟨node, model, clock⟩ = .ok code ∧
      coded = ⟨node.name, node.model, node.shift, node.size, node.slots, code, children⟩ := by
  cases node
  simp only [ofWired, bind_eq_ok] at done
  obtain ⟨children, below, done⟩ := done
  split at done
  · cases done
  · rename_i model found
    simp only [bind_eq_ok, pure_eq_ok] at done
    obtain ⟨code, made, rfl⟩ := done
    exact ⟨children, model, code, below, found, made, rfl⟩

mutual

theorem shape_of_ofWired : ∀ {node : Wired} {coded : Coded α},
    ofWired project clock node = .ok coded → coded.shape = node.shape
  | ⟨_, _, _, _, _, _, children⟩, coded, done => by
    obtain ⟨below, _, _, all, -, -, rfl⟩ := ofWired_eq_ok done
    unfold Instance.shape
    rw [shapes_of_allOfWired all]

theorem shapes_of_allOfWired : ∀ {nodes : List Wired} {coded : List (Coded α)},
    allOfWired project clock nodes = .ok coded → Instance.shapes coded = Instance.shapes nodes
  | [], _, done => by
    cases done
    rfl
  | first :: rest, _, done => by
    simp only [allOfWired, bind_eq_ok, pure_eq_ok] at done
    obtain ⟨one, here, others, after, rfl⟩ := done
    unfold Instance.shapes
    rw [shape_of_ofWired here, shapes_of_allOfWired after]

end

theorem inputs_of_code {site : Site α} {code : Code α} (made : site.code = .ok code) :
    code.inputs = site.inputs := by
  simp only [Site.code, bind_eq_ok, pure_eq_ok] at made
  obtain ⟨_, -, _, -, _, -, rfl⟩ := made
  rfl

end

/-! ## Plans -/

/-- The slot that the symbol of a module's input leads to: a marked one from the root, another from
the instance that has the module. -/
def sourceSlot? (root above : Coded α) (symbol : Path) : Option Nat :=
  (if Path.isMarked symbol then root else above).slot? symbol

variable [Scalar α]

/-- How an instance of a model stands in the tree below `root`. -/
structure Fits (project : Project α) (clock : Clock α) (root : Coded α) (first : Nat)
    (model : LinkedModel α) (node : Coded α) : Prop where
  found : project.find? node.model = some model
  slots : node.slots = Layout.slotsFrom first model.vars
  tidy : node.Tidy first
  modules : List.Forall₂ (fun module child => child.name = module.name ∧ child.model = module.model ∧
    child.note.inputs =
      (Model.wires module).map fun wire => (wire.1, sourceSlot? root node wire.2))
    model.modules node.children
  code : ∃ wired : Wired, wired.shape = node.shape ∧ Site.code ⟨wired, model, clock⟩ = .ok node.note

/-- A tree of instances each of which stands where it fits. -/
inductive Made (project : Project α) (clock : Clock α) (root : Coded α) : Coded α → Prop
  | intro {node : Coded α} {first : Nat} {model : LinkedModel α}
    (fits : Fits project clock root first model node)
    (below : ∀ child ∈ node.children, Made project clock root child) : Made project clock root node

section

variable {project : Project α} {clock : Clock α} {root node below : Coded α}
  (made : Made project clock root node) {path : List Name} (leads : node.descend? path = some below)
include made leads

theorem Made.of_descend? : Made project clock root below := by
  induction path generalizing node with
  | nil => exact Option.some.inj leads ▸ made
  | cons name rest ih =>
    obtain ⟨child, inside, further⟩ := Option.bind_eq_some_iff.mp leads
    cases made with
    | intro _ made => exact ih (made child (Instance.mem_of_child? inside)) further

theorem Made.owns_of_descend? {slot : Nat} (owned : below.Owns slot) : node.Owns slot := by
  induction path generalizing node with
  | nil => exact Option.some.inj leads ▸ owned
  | cons name rest ih =>
    obtain ⟨child, inside, further⟩ := Option.bind_eq_some_iff.mp leads
    cases made with
    | intro fits made =>
      have within := ih (made child (Instance.mem_of_child? inside)) further
      exact (fits.tidy.owns (.inr ⟨child, inside, within⟩)).1

end

theorem inputs_of_ofWired {project : Project α} {clock : Clock α} {node : Wired} {coded : Coded α}
    (done : ofWired project clock node = .ok coded) : coded.note.inputs = node.note := by
  obtain ⟨_, _, _, -, -, made, rfl⟩ := ofWired_eq_ok done
  exact inputs_of_code made

/-- Where a layout is placed, its code is made to fit. -/
theorem made_of_placed {project : Project α} {clock : Clock α} {layout node : Layout}
    {root : Coded α} (whole : root.shape = layout.shape) (placed : Layout.Placed project node)
    {above : Layout} {coded : Coded α}
    (done : ofWired project clock (Layout.wiredBelow layout above node) = .ok coded) :
    Made project clock root coded := by
  induction placed generalizing above coded with
  | @intro node model first found slots tidy modules below ih =>
    have shape : coded.shape = node.shape :=
      (shape_of_ofWired done).trans (Layout.shape_wiredBelow layout above node)
    -- instances have the shape of their layouts, so symbols lead to the same slots
    have sources : ∀ symbol, (if Path.isMarked symbol then layout else node).slot? symbol =
        sourceSlot? root coded symbol := by
      intro symbol
      unfold sourceSlot?
      split
      · exact (Instance.slot?_eq_of_shape whole symbol).symm
      · exact (Instance.slot?_eq_of_shape shape symbol).symm
    have wired := Layout.shape_wiredBelow layout above node
    obtain ⟨children, other, code, all, here, made, built⟩ := ofWired_eq_ok done
    have kept : coded.children = children ∧ coded.model = node.model ∧ coded.note = code := by
      rw [built, Layout.wiredBelow_eq]
      exact ⟨rfl, rfl, rfl⟩
    obtain ⟨rfl, ofModel, rfl⟩ := kept
    rw [Layout.wiredBelow_eq] at all here
    rw [Layout.allWiredBelow_eq_map, allOfWired_eq_ok, List.forall₂_map_left_iff] at all
    cases here.symm.trans found
    refine .intro ⟨ofModel ▸ found, ?_, tidy.of_shape shape.symm, ?_, _, wired.trans shape.symm, made⟩ ?_
    · rw [Instance.slots_eq_of_shape shape, slots]
    · refine (forall₂_trans modules all).imp fun module child => ?_
      rintro ⟨placed, ⟨named, model, wires⟩, done⟩
      have inputs := inputs_of_ofWired done
      obtain ⟨_, _, _, -, -, -, rfl⟩ := ofWired_eq_ok done
      rw [Layout.wiredBelow_eq] at inputs ⊢
      refine ⟨named, model, inputs.trans ?_⟩
      rw [wires]
      exact List.map_congr_left fun wire _ => congrArg (Prod.mk wire.1) (sources wire.2)
    · intro child member
      obtain ⟨placed, inside, done⟩ := exists_left_of_mem all member
      exact ih placed inside done

end Coded

namespace Plan

variable [Scalar α] {project : Project α} {plan : Plan α}

/-- What is done to plan a run: the times are checked, the instances below the main model are laid out,
and their code is made. -/
theorem ofProject_eq_ok (planned : ofProject project = .ok plan) : ∃ main layout root,
    project.main? = some main ∧ project.runSpec.validate = .ok () ∧
      Layout.ofProject project main = .ok layout ∧
      Coded.ofWired project (Clock.ofSpec project.runSpec) layout.wired = .ok root ∧
      plan = ofRoot root (Clock.ofSpec project.runSpec) := by
  unfold ofProject at planned
  split at planned
  · cases planned
  · rename_i main found
    simp only [bind_eq_ok, pure_eq_ok] at planned
    obtain ⟨_, valid, layout, placed, root, coded, rfl⟩ := planned
    exact ⟨main, layout, root, found, valid, placed, coded, rfl⟩

omit [Scalar α] in
/-- The layout of a project puts the main model and what it instantiates where they fit. -/
theorem placed_of_layout (distinct : project.HasDistinctNames) {main : LinkedModel α}
    (isMain : project.main? = some main) {layout : Layout}
    (placed : Layout.ofProject project main = .ok layout) :
    Layout.Placed project layout ∧ layout.model = mainModel ∧ layout.shift = 0 ∧ layout.note = [] := by
  have named := LinkedModel.name_of_named? isMain
  obtain ⟨-, model, shift, wires⟩ := Layout.fields_of_place placed
  refine ⟨?_, model.trans named, shift, wires⟩
  refine Layout.placed_of_place distinct placed (named.symm ▸ isMain) (by decide) ?_
  intro slot _ below
  exact Nat.lt_one_iff.mp below

/-- The tree of a plan stands where it fits, from the main model without inputs on. -/
theorem made_of_hasDistinctNames (distinct : project.HasDistinctNames)
    (planned : ofProject project = .ok plan) :
    Coded.Made project plan.clock plan.root plan.root ∧ plan.root.model = mainModel ∧
      plan.root.shift = 0 ∧ plan.root.note.inputs = [] := by
  obtain ⟨main, layout, root, found, -, placed, coded, rfl⟩ := ofProject_eq_ok planned
  obtain ⟨whole, model, shift, wires⟩ := placed_of_layout distinct found placed
  have shape := (Coded.shape_of_ofWired coded).trans (Layout.shape_wiredBelow layout layout layout)
  have inputs := Coded.inputs_of_ofWired coded
  refine ⟨Coded.made_of_placed shape whole coded, ?_, ?_, ?_⟩
  · obtain ⟨_, _, _, -, -, -, rfl⟩ := Coded.ofWired_eq_ok coded
    rw [Layout.wired, Layout.wiredBelow_eq]
    exact model
  · exact (Instance.shift_eq_of_shape shape).trans shift
  · rw [Layout.wired, Layout.wiredBelow_eq] at inputs
    rw [ofRoot, inputs, wires]
    rfl

theorem made_of_ofProject (consistent : project.Consistent)
    (planned : ofProject project = .ok plan) :
    Coded.Made project plan.clock plan.root plan.root ∧ plan.root.model = mainModel ∧
      plan.root.shift = 0 ∧ plan.root.note.inputs = [] :=
  made_of_hasDistinctNames consistent.distinct planned

theorem unconnected_of_ofProject (consistent : project.Consistent) (planned : ofProject project = .ok plan)
    (name : Name) : plan.root.note.inputs.get? name = none := by
  obtain ⟨-, -, -, inputs⟩ := made_of_ofProject consistent planned
  rw [inputs]
  rfl

theorem clock_of_ofProject (planned : ofProject project = .ok plan) :
    project.runSpec.validate = .ok () ∧ plan.clock = Clock.ofSpec project.runSpec := by
  obtain ⟨_, _, _, -, valid, -, -, rfl⟩ := ofProject_eq_ok planned
  exact ⟨valid, rfl⟩

theorem name_root (planned : ofProject project = .ok plan) : plan.root.name = mainModel := by
  obtain ⟨_, layout, _, -, -, placed, coded, rfl⟩ := ofProject_eq_ok planned
  obtain ⟨named, -⟩ := Layout.fields_of_place placed
  obtain ⟨_, _, _, -, -, -, rfl⟩ := Coded.ofWired_eq_ok coded
  show layout.wired.name = mainModel
  rw [Layout.wired, Layout.wiredBelow_eq]
  exact named

end Plan
end StockFlow
