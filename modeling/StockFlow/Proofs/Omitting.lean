import StockFlow.Proofs.Agreement
import StockFlow.Proofs.Completeness
import StockFlow.Proofs.Courses

/-!
# Omitting constants

The code of an instance whose flows phase computes the constants as well. A constant depends on nothing, so
the other variables are sorted as they are without it, and the code differs in added assignments of constants
only; so do, through all instances, the programs of the flows phase.
-/

namespace StockFlow

/-! ## Sorting fewer names -/

namespace Order

variable {dependencies : Keyed NameSet} {keep : Name → Bool}

/-- What becomes of a state of the walk where only some of the names are to be listed. -/
def Progress.only (keep : Name → Bool) (p : Progress) : Progress :=
  ⟨p.waiting.filter keep, p.listed.filter keep⟩

theorem visit_of_notMem {depth : Nat} {p : Progress} {name : Name} (absent : name ∉ p.waiting) :
    visit dependencies depth p name = p := by
  cases depth with
  | zero => rfl
  | succ depth => rw [visit, if_neg absent]

theorem waiting_foldl_sublist {walk : Progress → Name → Progress}
    (each : ∀ p name, (walk p name).waiting.Sublist p.waiting) (names : List Name) (p : Progress) :
    (names.foldl walk p).waiting.Sublist p.waiting := by
  induction names generalizing p with
  | nil => exact List.Sublist.refl _
  | cons first rest ih => exact (ih _).trans (each p first)

theorem waiting_visit_sublist (depth : Nat) (p : Progress) (name : Name) :
    (visit dependencies depth p name).waiting.Sublist p.waiting := by
  induction depth generalizing p name with
  | zero => exact List.Sublist.refl _
  | succ depth ih =>
    rw [visit]
    split
    · exact (waiting_foldl_sublist ih _ _).trans List.erase_sublist
    · exact List.Sublist.refl _

theorem foldl_only {depth fewer : Nat} (each : ∀ (p : Progress) (name : Name), p.waiting.length ≤ depth →
      (p.waiting.filter keep).length ≤ fewer →
        visit dependencies fewer (p.only keep) name = (visit dependencies depth p name).only keep)
    (names : List Name) (p : Progress) (enough : p.waiting.length ≤ depth)
    (enoughOnly : (p.waiting.filter keep).length ≤ fewer) :
    names.foldl (visit dependencies fewer) (p.only keep) =
      (names.foldl (visit dependencies depth) p).only keep := by
  induction names generalizing p with
  | nil => rfl
  | cons first rest ih =>
    have shrinks : (visit dependencies depth p first).waiting.Sublist p.waiting :=
      waiting_visit_sublist depth p first
    rw [List.foldl_cons, List.foldl_cons, each p first enough enoughOnly]
    exact ih _ (shrinks.length_le.trans enough) ((shrinks.filter keep).length_le.trans enoughOnly)

/-- A visit passes over names that need nothing where these are not to be listed, and does what it did. The
bounds on the depth may differ, as long as both leave room for the names that wait. -/
theorem visit_only (free : ∀ name, keep name = false → needs dependencies name = []) {depth fewer : Nat}
    (p : Progress) (name : Name) (enough : p.waiting.length ≤ depth)
    (enoughOnly : (p.waiting.filter keep).length ≤ fewer) :
    visit dependencies fewer (p.only keep) name = (visit dependencies depth p name).only keep := by
  induction depth generalizing fewer p name with
  | zero =>
    have none : p.waiting = [] := List.length_eq_zero_iff.mp (Nat.le_zero.mp enough)
    exact visit_of_notMem (by simp [Progress.only, none])
  | succ depth ih =>
    by_cases waits : name ∈ p.waiting
    · -- a name that is not kept needs nothing, so that visiting it adds nothing but itself
      cases kept : keep name with
      | true =>
        have still : name ∈ (p.only keep).waiting := List.mem_filter.mpr ⟨waits, kept⟩
        have erased : (p.only keep).waiting.erase name = (p.waiting.erase name).filter keep :=
          List.erase_filter
        have shorter := List.length_erase_of_mem waits
        have shorterOnly := List.length_erase_of_mem still
        rw [erased] at shorterOnly
        have positive := List.length_pos_of_mem still
        have bound : (p.only keep).waiting.length ≤ fewer := enoughOnly
        obtain ⟨fewer, rfl⟩ : ∃ n, fewer = n + 1 := ⟨fewer - 1, by omega⟩
        rw [visit, if_pos still, visit, if_pos waits, erased]
        have below := foldl_only (fun p name => ih p name) (needs dependencies name)
          ⟨p.waiting.erase name, p.listed⟩ (show (p.waiting.erase name).length ≤ depth by omega)
          (show ((p.waiting.erase name).filter keep).length ≤ fewer by omega)
        unfold needs Progress.only at below
        simp only [Progress.only, below, List.filter_append, List.filter_cons_of_pos kept, List.filter_nil]
      | false =>
        have gone : name ∉ (p.only keep).waiting := fun listed => by
          rw [(List.mem_filter.mp listed).2] at kept
          cases kept
        have none : (dependencies.get? name).getD [] = [] := free name kept
        rw [visit_of_notMem gone, visit, if_pos waits, none, List.foldl_nil]
        have same : (p.waiting.erase name).filter keep = p.waiting.filter keep := by
          rw [← List.erase_filter]
          exact List.erase_of_not_mem gone
        simp [Progress.only, same, kept]
    · rw [visit_of_notMem waits]
      exact visit_of_notMem fun listed => waits (List.mem_filter.mp listed).1

theorem foldl_visit_filter {depth : Nat} (names : List Name) (p : Progress)
    (only : ∀ name ∈ p.waiting, keep name = true) :
    (names.filter keep).foldl (visit dependencies depth) p = names.foldl (visit dependencies depth) p := by
  induction names generalizing p with
  | nil => rfl
  | cons first rest ih =>
    cases kept : keep first with
    | true =>
      rw [List.filter_cons_of_pos kept, List.foldl_cons, List.foldl_cons]
      exact ih _ fun name waits => only name ((waiting_visit_sublist depth p first).mem waits)
    | false =>
      have gone : first ∉ p.waiting := fun waits => by
        rw [only first waits] at kept
        cases kept
      rw [List.filter_cons_of_neg (by simp [kept]), List.foldl_cons, visit_of_notMem gone, ih p only]

/-- To leave out names that need nothing changes nothing in the order of the others. -/
theorem filter_sort (free : ∀ name, keep name = false → needs dependencies name = []) (names : List Name) :
    (sort dependencies names).filter keep = sort dependencies (names.filter keep) := by
  have start : Progress.only keep ⟨names, []⟩ = ⟨names.filter keep, []⟩ := rfl
  have only : ∀ name ∈ names.filter keep, keep name = true := fun _ waits => (List.mem_filter.mp waits).2
  have whole := foldl_only (fun p name => visit_only free p name) names ⟨names, []⟩ (Nat.le_refl _)
    (Nat.le_refl _)
  rw [sort, sort, foldl_visit_filter names _ only, ← start, whole]
  rfl

end Order

/-! ## Lists with additions -/

variable {β γ : Type}

/-- Whether a list is another one with elements of a kind added to it. -/
inductive Adds (extra : β → Prop) : List β → List β → Prop
  | nil : Adds extra [] []
  | keep {xs ys : List β} (x : β) (rest : Adds extra xs ys) : Adds extra (x :: xs) (x :: ys)
  | add {xs ys : List β} {x : β} (new : extra x) (rest : Adds extra xs ys) : Adds extra xs (x :: ys)

namespace Adds

variable {extra further : β → Prop} {xs ys zs ws : List β}

theorem refl (xs : List β) : Adds extra xs xs := by
  induction xs with
  | nil => exact .nil
  | cons x rest ih => exact .keep x ih

theorem append (one : Adds extra xs ys) (two : Adds extra zs ws) : Adds extra (xs ++ zs) (ys ++ ws) := by
  induction one with
  | nil => exact two
  | keep x _ ih => exact .keep x ih
  | add new _ ih => exact .add new ih

theorem of_forall (all : ∀ y ∈ ys, extra y) : Adds extra [] ys := by
  induction ys with
  | nil => exact .nil
  | cons y rest ih =>
    obtain ⟨here, others⟩ := List.forall_mem_cons.mp all
    exact .add here (ih others)

theorem mono (weaker : ∀ x, extra x → further x) (adds : Adds extra xs ys) : Adds further xs ys := by
  induction adds with
  | nil => exact .nil
  | keep x _ ih => exact .keep x ih
  | add new _ ih => exact .add (weaker _ new) ih

/-- A traversal of more elements adds what it makes of these. -/
theorem flatten_of_filter {f : γ → Except Fault (List β)} {keep : γ → Bool} {vs : List γ}
    {parts all : List (List β)} (some : List.Forall₂ (fun v part => f v = .ok part) (vs.filter keep) parts)
    (every : List.Forall₂ (fun v part => f v = .ok part) vs all)
    (new : ∀ v ∈ vs, keep v = false → ∀ part, f v = .ok part → ∀ x ∈ part, extra x) :
    Adds extra parts.flatten all.flatten := by
  induction every generalizing parts with
  | nil =>
    cases some
    exact .nil
  | @cons v part vs all made _ ih =>
    obtain ⟨here, others⟩ := List.forall_mem_cons.mp new
    rw [List.flatten_cons]
    cases kept : keep v with
    | true =>
      rw [List.filter_cons_of_pos kept] at some
      rcases some with _ | ⟨same, rest⟩
      cases made.symm.trans same
      rw [List.flatten_cons]
      exact (refl part).append (ih rest others)
    | false =>
      rw [List.filter_cons_of_neg (by simp [kept])] at some
      exact (of_forall (here kept part made)).append (ih some others)

end Adds

variable {α : Type} [Scalar α]

/-! ## Code of the flows phase -/

omit [Scalar α] in
theorem Equation.names_of_isConstant {equation : Equation α} (constant : equation.isConstant = true) :
    equation.names = [] := by
  have declared : equation.declared = [] := by
    fun_induction isConstant equation with
    | case1 => rfl
    | case2 inner ih => rw [declared, ih constant]
    | case3 operator operand ih => rw [declared, ih constant]
    | case4 => cases constant
  rw [names, declared]
  rfl

namespace Site

/-- Whether a variable is an input or no stock. -/
def isChanging (site : Site α) (v : Variable α) : Bool := site.isInput v.name || !v.isStock

/-- What an instance does in the flows phase where a test says which variables are computed then. -/
def flowsBy (flowing : Site α → Variable α → Bool) (site : Site α) :
    Except Fault (List (Instruction α)) := do
  let names := Order.sort site.model.stepDependencies
    ((site.model.vars.filter (flowing site)).map Variable.name)
  let parts ← (names.filterMap site.model.find?).mapM fun v => site.variableCode v .flows
  return parts.flatten

def codeBy (flowing : Site α → Variable α → Bool) (site : Site α) : Except Fault (Code α) := do
  let initials ← site.phaseCode .initials
  let flows ← site.flowsBy flowing
  let stocks ← site.phaseCode .stocks
  return ⟨site.inputs, initials, flows, stocks⟩

/-- Whether a variable is left out of the flows phase though it is no stock. -/
def isResting (site : Site α) (v : Variable α) : Bool := site.isChanging v && !site.isFlowing v

variable {site : Site α} {v : Variable α}

omit [Scalar α] in
theorem isChanging_of_isFlowing (flowing : site.isFlowing v = true) : site.isChanging v = true := by
  unfold isFlowing at flowing
  unfold isChanging
  cases v <;> simp_all [Variable.isStock]

omit [Scalar α] in
theorem exists_of_isResting (resting : site.isResting v = true) : ∃ formula, v = .formula formula ∧
    site.inputs.get? formula.name = none ∧ (Variable.formula formula).isHeld = true := by
  unfold isResting isChanging isFlowing isInput at resting
  cases v with
  | stock stock =>
    simp only [Variable.isStock, Bool.not_true, Bool.or_false, Bool.and_eq_true, Bool.not_eq_true',
      Option.isSome_eq_false_iff, Option.isNone_iff_eq_none] at resting
    rw [resting.2] at resting
    cases resting.1
  | module module => simp at resting
  | formula formula =>
    refine ⟨formula, rfl, ?_, ?_⟩
    · simp_all [Variable.name]
    · simp_all [Variable.isHeld, Variable.name]

/-! ### Fewer variables in the same order -/

def isAwake (site : Site α) (name : Name) : Bool := (site.model.find? name).all (!site.isResting ·)

omit [Scalar α] in
theorem filterMap_find?_filter (names : List Name) : (names.filter site.isAwake).filterMap site.model.find? =
    (names.filterMap site.model.find?).filter (!site.isResting ·) := by
  induction names with
  | nil => rfl
  | cons name rest ih =>
    rw [List.filter_cons]
    unfold isAwake at ih ⊢
    cases found : site.model.find? name with
    | none => simp [found, ih]
    | some v => cases rests : site.isResting v <;> simp [found, ih, rests]

section Fewer

variable (distinct : Distinct Variable.name site.model.vars)
include distinct

omit [Scalar α] in
theorem names_filter_isAwake : ((site.model.vars.filter site.isChanging).map Variable.name).filter site.isAwake =
    (site.model.vars.filter site.isFlowing).map Variable.name := by
  rw [List.filter_map, List.filter_filter]
  congr 1
  refine List.filter_congr fun v member => ?_
  have found : site.model.find? v.name = some v := findNamed_of_mem distinct member
  have flows := @isChanging_of_isFlowing _ site v
  unfold isAwake
  simp only [Function.comp_apply, found, Option.all_some, isResting]
  cases flowing : site.isFlowing v with
  | false => cases site.isChanging v <;> rfl
  | true => rw [flows flowing]; rfl

variable {linked : List (LinkedModel α)}
  (links : LinkedModel.Links linked site.model.toModel site.model)
include links

omit [Scalar α] in
theorem needs_of_not_isAwake {name : Name} (rests : site.isAwake name = false) :
    Order.needs site.model.stepDependencies name = [] := by
  obtain ⟨v, found, resting⟩ : ∃ v, site.model.find? name = some v ∧ site.isResting v = true := by
    unfold isAwake at rests
    cases found : site.model.find? name with
    | none => simp [found] at rests
    | some v => exact ⟨v, rfl, by simpa [found] using rests⟩
  obtain ⟨formula, rfl, -, held⟩ := exists_of_isResting resting
  have named : (Variable.formula formula).name = name := name_of_findNamed found
  obtain ⟨-, constant⟩ := Bool.and_eq_true_iff.mp held
  have none := Equation.names_of_isConstant constant
  rw [← named]
  refine List.eq_nil_iff_forall_not_mem.mpr fun needed member => ?_
  have member : needed ∈ Order.needs (site.model.dependencies .step) (Variable.formula formula).name := member
  obtain ⟨source, among, -⟩ :=
    (links.mem_needs_iff distinct (mem_of_findNamed found) rfl fun _ => rfl).mp member
  rw [none] at among
  cases among

omit [Scalar α] in
/-- The flows phase takes the variables that it takes where those at rest are computed too, in the order in
which it takes them there. -/
theorem schedule_eq_filter : (site.schedule .flows).filterMap site.model.find? =
    ((Order.sort site.model.stepDependencies
      ((site.model.vars.filter site.isChanging).map Variable.name)).filterMap site.model.find?).filter
        (!site.isResting ·) := by
  rw [← filterMap_find?_filter, Order.filter_sort fun name => needs_of_not_isAwake distinct links,
    names_filter_isAwake distinct]
  rfl

end Fewer

/-! ### What is added -/

/-- Whether an instruction assigns a constant that is no input and has no table. -/
inductive Rests (site : Site α) : Instruction α → Prop
  | intro {formula : Formula α} {slot : Nat} {term : Term α} (member : .formula formula ∈ site.model.vars)
    (unconnected : site.inputs.get? formula.name = none)
    (held : (Variable.formula formula).isHeld = true) (own : site.slot formula.name = .ok slot)
    (lowered : (site.scope formula.name).formulaTerm formula = .ok term) : Rests site (.assign ⟨slot, term⟩)

theorem rests_of_variableCode (member : v ∈ site.model.vars) (resting : site.isResting v = true)
    {phase : Phase} {part : List (Instruction α)} (coded : site.variableCode v phase = .ok part) :
    ∀ instruction ∈ part, site.Rests instruction := by
  obtain ⟨formula, rfl, unconnected, held⟩ := exists_of_isResting resting
  cases variableCode_eq_ok.mp coded with
  | input _ connected | settled connected => cases connected.symm.trans unconnected
  | formula _ own lowered =>
    exact List.forall_mem_singleton.mpr
      (.intro member unconnected held (slot_eq_ok.mpr own) lowered)

section

variable (distinct : Distinct Variable.name site.model.vars) {linked : List (LinkedModel α)}
  (links : LinkedModel.Links linked site.model.toModel site.model)
include distinct links

/-- What rests is computed at the start, and would be computed in the same way at each step. -/
theorem exists_variableCode_of_isResting {start : List (Instruction α)}
    (made : site.phaseCode .initials = .ok start) (member : v ∈ site.model.vars)
    (resting : site.isResting v = true) : ∃ part, site.variableCode v .flows = .ok part := by
  obtain ⟨_, each, -⟩ := phaseCode_eq_ok made
  have sorted := (Order.sort_follows (Dependencies.closed_of_closure links.start)
    (Dependencies.loopless_of_closure links.start) distinct).1
  have early : v ∈ (site.schedule .initials).filterMap site.model.find? :=
    List.mem_filterMap.mpr ⟨v.name, sorted.mem_iff.mpr (List.mem_map_of_mem member),
      findNamed_of_mem distinct member⟩
  obtain ⟨part, -, coded⟩ := exists_right_of_mem each early
  obtain ⟨formula, rfl, unconnected, -⟩ := exists_of_isResting resting
  cases variableCode_eq_ok.mp coded with
  | input _ connected => cases connected.symm.trans unconnected
  | formula _ own lowered => exact ⟨_, variableCode_eq_ok.mpr (.formula unconnected own lowered)⟩

theorem exists_codeBy_isChanging {code : Code α} (made : site.code = .ok code) :
    ∃ full, site.codeBy isChanging = .ok full ∧ full.initials = code.initials ∧
      full.stocks = code.stocks ∧ Adds site.Rests code.flows full.flows := by
  have initials := phaseCode_of_code made .initials
  have stocks := phaseCode_of_code made .stocks
  obtain ⟨parts, some, flat⟩ := phaseCode_eq_ok (phaseCode_of_code made .flows)
  rw [schedule_eq_filter distinct links] at some
  have known : ∀ v ∈ (Order.sort site.model.stepDependencies
      ((site.model.vars.filter site.isChanging).map Variable.name)).filterMap site.model.find?,
      ∃ part, site.variableCode v .flows = .ok part := by
    intro v listed
    cases rests : site.isResting v with
    | false =>
      obtain ⟨part, -, coded⟩ := exists_right_of_mem some (List.mem_filter.mpr ⟨listed, by simp [rests]⟩)
      exact ⟨part, coded⟩
    | true =>
      obtain ⟨name, -, found⟩ := List.mem_filterMap.mp listed
      exact exists_variableCode_of_isResting distinct links initials (mem_of_findNamed found) rests
  obtain ⟨all, traversed⟩ := exists_mapM known
  have flat : code.flows = parts.flatten := flat
  have adds := Adds.flatten_of_filter some (mapM_eq_ok.mp traversed) fun v listed rests part coded => by
    obtain ⟨name, -, found⟩ := List.mem_filterMap.mp listed
    exact rests_of_variableCode (mem_of_findNamed found) (by simpa using rests) coded
  refine ⟨⟨site.inputs, code.initials, all.flatten, code.stocks⟩, ?_, rfl, rfl, flat ▸ adds⟩
  simp only [codeBy, flowsBy, bind_eq_ok, pure_eq_ok]
  exact ⟨_, initials, _, ⟨all, traversed, rfl⟩, _, stocks, rfl⟩

theorem exists_code_of_codeBy {full : Code α} (made : site.codeBy isChanging = .ok full) :
    ∃ code, site.code = .ok code := by
  simp only [codeBy, flowsBy, bind_eq_ok, pure_eq_ok] at made
  obtain ⟨start, initials, _, ⟨all, every, -⟩, last, stocks, -⟩ := made
  have fewer : ∀ v ∈ (site.schedule .flows).filterMap site.model.find?,
      ∃ part, site.variableCode v .flows = .ok part := by
    intro v listed
    rw [schedule_eq_filter distinct links] at listed
    obtain ⟨part, -, coded⟩ := exists_right_of_mem (mapM_eq_ok.mp every) (List.mem_filter.mp listed).1
    exact ⟨part, coded⟩
  obtain ⟨parts, some⟩ := exists_mapM fewer
  have flows : site.phaseCode .flows = .ok parts.flatten := by
    simp only [phaseCode, bind_eq_ok, pure_eq_ok]
    exact ⟨parts, some, rfl⟩
  simp only [code, bind_eq_ok, pure_eq_ok]
  exact ⟨_, start, initials, _, flows, last, stocks, rfl⟩

end

end Site

/-! ## Trees of instances -/

theorem Instance.name_eq_of_shape {β γ : Type} {node : Instance β} {other : Instance γ}
    (same : node.shape = other.shape) : node.name = other.name := by
  cases node
  cases other
  injection same

namespace Coded

mutual

/-- Makes the code of an instance after that of the instances below it, where a test says which variables
are computed in the flows phase. -/
def ofWiredBy (flowing : Site α → Variable α → Bool) (project : Project α) (clock : Clock α) :
    Wired → Except Fault (Coded α)
  | ⟨name, model, shift, size, slots, inputs, children⟩ => do
    let coded ← allOfWiredBy flowing project clock children
    match project.find? model with
    | none => .error (.simulation .badModelName model)
    | some linked =>
      let code ← Site.codeBy flowing ⟨⟨name, model, shift, size, slots, inputs, children⟩, linked, clock⟩
      return ⟨name, model, shift, size, slots, code, coded⟩

def allOfWiredBy (flowing : Site α → Variable α → Bool) (project : Project α) (clock : Clock α) :
    List Wired → Except Fault (List (Coded α))
  | [] => .ok []
  | first :: rest => do
    let first ← ofWiredBy flowing project clock first
    let rest ← allOfWiredBy flowing project clock rest
    return first :: rest

end

mutual

theorem ofWiredBy_isFlowing (project : Project α) (clock : Clock α) : ∀ node : Wired,
    ofWiredBy Site.isFlowing project clock node = ofWired project clock node
  | ⟨_, _, _, _, _, _, children⟩ => by
    rw [ofWiredBy, ofWired, allOfWiredBy_isFlowing project clock children]
    rfl

theorem allOfWiredBy_isFlowing (project : Project α) (clock : Clock α) : ∀ nodes : List Wired,
    allOfWiredBy Site.isFlowing project clock nodes = allOfWired project clock nodes
  | [] => rfl
  | first :: rest => by
    rw [allOfWiredBy, allOfWired, ofWiredBy_isFlowing project clock first,
      allOfWiredBy_isFlowing project clock rest]

end

/-- Whether a tree of instances is another one with assignments of a kind added to its flows phase. -/
structure Extends (extra : Assignment α → Prop) (node full : Coded α) : Prop where
  shape : full.shape = node.shape
  initials : program .initials full = program .initials node
  stocks : program .stocks full = program .stocks node
  flows : Adds extra (program .flows node) (program .flows full)

/-- Whether an assignment is that of a constant without a table, in an instance where it is no input. -/
inductive Rests (project : Project α) (clock : Clock α) (node : Coded α) : Assignment α → Prop
  | intro {path : List Name} {below : Coded α} {model : LinkedModel α} {formula : Formula α}
    {a : Assignment α} (leads : node.descend? path = some below)
    (found : project.find? below.model = some model) (member : .formula formula ∈ model.vars)
    (unconnected : below.note.inputs.get? formula.name = none)
    (held : (Variable.formula formula).isHeld = true) (own : below.slots.get? formula.name = some a.slot)
    (lowered : (below.scope model clock formula.name).formulaTerm formula = .ok a.term) :
    Rests project clock node a

variable {project : Project α} {clock : Clock α} {root : Coded α}

omit [Scalar α] in
theorem unfold_adds {extra : Assignment α → Prop} {kind : Instruction α → Prop}
    (assigns : ∀ instruction, kind instruction → ∃ a, instruction = .assign a ∧ extra a)
    {modules others : Keyed (List (Assignment α))}
    (each : ∀ name, Adds extra ((modules.get? name).getD []) ((others.get? name).getD []))
    {code full : List (Instruction α)} (adds : Adds kind code full) :
    Adds extra (unfold modules code) (unfold others full) := by
  induction adds with
  | nil => exact .nil
  | keep instruction _ ih =>
    cases instruction with
    | assign a => exact .keep a ih
    | enter module => exact (each module).append ih
  | add new _ ih =>
    obtain ⟨a, rfl, here⟩ := assigns _ new
    exact .add here ih

theorem Rests.of_child {node child : Coded α} (inside : node.child? child.name = some child)
    {a : Assignment α} (rests : Rests project clock child a) : Rests project clock node a := by
  rcases rests with @⟨path, below, _, _, _, leads, found, member, unconnected, held, own, lowered⟩
  have further : node.descend? (child.name :: path) = some below := by
    rw [Instance.descend?, inside, Option.bind_some, leads]
  exact .intro further found member unconnected held own lowered

omit [Scalar α] in
theorem Extends.mono {extra further : Assignment α → Prop} {node full : Coded α}
    (weaker : ∀ a, extra a → further a) (extends_ : Extends extra node full) : Extends further node full :=
  { extends_ with flows := extends_.flows.mono weaker }

section

variable {extra : Assignment α → Prop} {children others : List (Coded α)}
  (each : List.Forall₂ (fun child other => other.name = child.name ∧ Extends extra child other)
    children others)
include each

omit [Scalar α] in
theorem programs_eq_of_extends {phase : Phase} (early : phase ≠ .flows) :
    programs phase others = programs phase children := by
  rw [programs_eq_map, programs_eq_map]
  refine map_eq_of_forall₂ each fun child other both => ?_
  obtain ⟨named, extends_⟩ := both
  cases phase with
  | initials => rw [named, extends_.initials]
  | flows => exact absurd rfl early
  | stocks => rw [named, extends_.stocks]

omit [Scalar α] in
theorem adds_of_extends (name : Name) : Adds extra (((programs .flows children).get? name).getD [])
    (((programs .flows others).get? name).getD []) := by
  rw [programs_eq_map, programs_eq_map, Keyed.get?_of_items, Keyed.get?_of_items]
  have found := rel_findNamed (fun _ _ both => both.1) each name
  generalize findNamed Instance.name name children = child at found
  generalize findNamed Instance.name name others = other at found
  cases found with
  | none => exact .nil
  | some both => exact both.2.flows

omit [Scalar α] in
theorem Extends.of_children {name model : Name} {shift size : Nat} {slots : Keyed Nat} {code full : Code α}
    {kind : Instruction α → Prop}
    (assigns : ∀ instruction, kind instruction → ∃ a, instruction = .assign a ∧ extra a)
    (initials : full.initials = code.initials) (stocks : full.stocks = code.stocks)
    (adds : Adds kind code.flows full.flows) :
    Extends extra ⟨name, model, shift, size, slots, code, children⟩
      ⟨name, model, shift, size, slots, full, others⟩ := by
  have shapes : others.map Instance.shape = children.map Instance.shape :=
    map_eq_of_forall₂ each fun _ _ both => both.2.shape
  constructor
  · unfold Instance.shape
    rw [Instance.shapes_eq_map, Instance.shapes_eq_map, shapes]
  · rw [program, program, programs_eq_of_extends each (by decide)]
    exact congrArg _ initials
  · rw [program, program, programs_eq_of_extends each (by decide)]
    exact congrArg _ stocks
  · rw [program, program]
    exact unfold_adds assigns (adds_of_extends each) adds

end

mutual

theorem exists_ofWiredBy (consistent : project.Consistent) : ∀ {node : Wired} {coded : Coded α},
    ofWired project clock node = .ok coded → Made project clock root coded →
      ∃ full, ofWiredBy Site.isChanging project clock node = .ok full ∧
        Extends (Rests project clock coded) coded full
  | ⟨name, model, shift, size, slots, inputs, nodes⟩, coded, done, made => by
    obtain ⟨children, linked, code, below, found, isCode, rfl⟩ := ofWired_eq_ok done
    have shape := shape_of_ofWired done
    have note := inputs_of_code isCode
    cases made with
    | @intro _ first other fits makes =>
    obtain ⟨others, madeBelow, each⟩ := exists_allOfWiredBy consistent below makes
    obtain ⟨further, links, -⟩ := consistent.linked found
    obtain ⟨full, madeFull, initials, stocks, adds⟩ :=
      Site.exists_codeBy_isChanging (consistent.distinct found) links isCode
    have each : List.Forall₂ (fun child other => other.name = child.name ∧
        Extends (Rests project clock ⟨name, model, shift, size, slots, code, children⟩) child other)
        children others := by
      have inside := (List.forall₂_and_left _ _).mpr ⟨fun child member => fits.tidy.child?_of_mem member, each⟩
      refine inside.imp fun child other both => ?_
      obtain ⟨known, extends_⟩ := both
      exact ⟨Instance.name_eq_of_shape extends_.shape, extends_.mono fun a => Rests.of_child known⟩
    have assigns : ∀ instruction, Site.Rests ⟨⟨name, model, shift, size, slots, inputs, nodes⟩, linked, clock⟩
        instruction → ∃ a, instruction = .assign a ∧
          Rests project clock ⟨name, model, shift, size, slots, code, children⟩ a := by
      rintro _ ⟨member, unconnected, held, own, lowered⟩
      rw [scope_of_shape shape.symm] at lowered
      have here : ∀ node : Coded α, node.descend? [] = some node := fun _ => rfl
      exact ⟨_, rfl, .intro (here _) found member (note ▸ unconnected) held (Site.slot_eq_ok.mp own) lowered⟩
    refine ⟨⟨name, model, shift, size, slots, full, others⟩, ?_, .of_children each assigns initials stocks adds⟩
    simp only [ofWiredBy, bind_eq_ok]
    refine ⟨others, madeBelow, ?_⟩
    have found : project.find? model = some linked := found
    rw [found]
    simp only [bind_eq_ok, pure_eq_ok]
    exact ⟨full, madeFull, rfl⟩

theorem exists_allOfWiredBy (consistent : project.Consistent) : ∀ {nodes : List Wired} {coded : List (Coded α)},
    allOfWired project clock nodes = .ok coded → (∀ child ∈ coded, Made project clock root child) →
      ∃ full, allOfWiredBy Site.isChanging project clock nodes = .ok full ∧
        List.Forall₂ (fun child other => Extends (Rests project clock child) child other) coded full
  | [], _, done, _ => by
    cases done
    exact ⟨[], rfl, .nil⟩
  | first :: rest, _, done, made => by
    simp only [allOfWired, bind_eq_ok, pure_eq_ok] at done
    obtain ⟨one, here, others, after, rfl⟩ := done
    obtain ⟨madeOne, madeOthers⟩ := List.forall_mem_cons.mp made
    obtain ⟨full, madeFull, extends_⟩ := exists_ofWiredBy consistent here madeOne
    obtain ⟨fulls, madeFulls, each⟩ := exists_allOfWiredBy consistent after madeOthers
    refine ⟨full :: fulls, ?_, .cons extends_ each⟩
    simp only [allOfWiredBy, bind_eq_ok, pure_eq_ok]
    exact ⟨full, madeFull, fulls, madeFulls, rfl⟩

end

mutual

theorem exists_ofWired_of_ofWiredBy (consistent : project.Consistent) : ∀ {node : Wired} {full : Coded α},
    ofWiredBy Site.isChanging project clock node = .ok full → ∃ coded, ofWired project clock node = .ok coded
  | ⟨name, model, shift, size, slots, inputs, nodes⟩, _, done => by
    simp only [ofWiredBy, bind_eq_ok] at done
    obtain ⟨_, below, done⟩ := done
    obtain ⟨children, done'⟩ := exists_allOfWired_of_allOfWiredBy consistent below
    cases found : project.find? model with
    | none =>
      rw [found] at done
      cases done
    | some linked =>
      simp only [found, bind_eq_ok] at done
      obtain ⟨_, made, -⟩ := done
      obtain ⟨further, links, -⟩ := consistent.linked found
      obtain ⟨code, isCode⟩ := Site.exists_code_of_codeBy (consistent.distinct found) links made
      simp only [ofWired, found, bind_eq_ok, pure_eq_ok]
      exact ⟨_, children, done', code, isCode, rfl⟩

theorem exists_allOfWired_of_allOfWiredBy (consistent : project.Consistent) :
    ∀ {nodes : List Wired} {full : List (Coded α)},
      allOfWiredBy Site.isChanging project clock nodes = .ok full →
        ∃ coded, allOfWired project clock nodes = .ok coded
  | [], _, _ => ⟨[], rfl⟩
  | first :: rest, _, done => by
    simp only [allOfWiredBy, bind_eq_ok] at done
    obtain ⟨_, here, _, after, -⟩ := done
    obtain ⟨one, made⟩ := exists_ofWired_of_ofWiredBy consistent here
    obtain ⟨others, madeOthers⟩ := exists_allOfWired_of_allOfWiredBy consistent after
    simp only [allOfWired, bind_eq_ok, pure_eq_ok]
    exact ⟨_, one, made, others, madeOthers, rfl⟩

end

end Coded

end StockFlow
