import StockFlow.Proofs.Schedule

/-!
# Programs of plans

The program of an instance assigns slots of its own block and each of them once. In it every slot is
assigned before it is read, given the time, the slots that are not assigned at all, what the inputs of
the instance read, and what is read inside its modules at absolute paths.
-/

namespace StockFlow

variable {α : Type} [Scalar α]

namespace Coded

variable {project : Project α} {clock : Clock α} {root node : Coded α} {first slot : Nat}
  {model : LinkedModel α} {phase : Phase} {vars : List (Variable α)}
  {segment : Variable α → List (Assignment α)} {v : Variable α} {part : List (Assignment α)}

/-! ## Slots that are assigned -/

namespace Computes

variable (computes : Computes node model clock phase v part)
include computes

theorem belongs (below : ∀ child ∈ node.children, ∀ slot ∈ written (program phase child),
    child.Owns slot) : ∀ slot ∈ written part, node.Belongs v.name slot := by
  intro slot member
  cases computes with
  | input _ own => exact .inl (List.mem_singleton.mp member ▸ own)
  | enter _ found =>
    exact .inr ⟨_, found, below _ (Instance.mem_of_child? found) slot member⟩
  | stock _ _ own _ => exact .inl (List.mem_singleton.mp member ▸ own)
  | formula _ own _ => exact .inl (List.mem_singleton.mp member ▸ own)

theorem nodup (below : ∀ child ∈ node.children, (written (program phase child)).Nodup) :
    (written part).Nodup := by
  cases computes with
  | enter _ found => exact below _ (Instance.mem_of_child? found)
  | input | stock | formula => exact List.nodup_singleton _

theorem mem_own (own : v.isModule = false) (found : node.slots.get? v.name = some slot) :
    slot ∈ written part := by
  cases computes with
  | input _ here => exact List.mem_singleton.mpr (Option.some.inj (found.symm.trans here))
  | enter => cases own
  | stock _ _ here _ => exact List.mem_singleton.mpr (Option.some.inj (found.symm.trans here))
  | formula _ here _ => exact List.mem_singleton.mpr (Option.some.inj (found.symm.trans here))

end Computes

theorem Computes.eq_program {module : Module} {child : Coded α}
    (computes : Computes node model clock phase (.module module) part)
    (absent : node.slots.get? module.name = none) (found : node.child? module.name = some child) :
    part = program phase child := by
  cases computes with
  | input _ own => cases absent.symm.trans own
  | enter _ here => rw [Option.some.inj (found.symm.trans here)]

namespace Runs

variable (runs : Runs node model clock phase vars segment)
include runs

theorem mem_program {a : Assignment α} :
    a ∈ program phase node ↔ ∃ v ∈ vars, a ∈ segment v := by
  rw [runs.whole, List.mem_flatMap]

theorem mem_written : slot ∈ written (program phase node) ↔
    ∃ v ∈ vars, slot ∈ written (segment v) := by
  rw [runs.whole, written, List.map_flatMap, List.mem_flatMap]
  rfl

end Runs

section

variable (consistent : project.Consistent) (made : Made project clock root node)
  (early : phase ≠ .stocks)
include consistent made early

theorem Made.owns_of_written : ∀ slot ∈ written (program phase node),
    node.Owns slot ∧ timeSlot < slot := by
  induction made with
  | @intro node first model fits below ih =>
    intro slot member
    obtain ⟨vars, segment, runs⟩ := fits.runs consistent early
    obtain ⟨v, listed, member⟩ := runs.mem_written.mp member
    exact fits.tidy.owns ((runs.computes v listed).belongs
      (fun child inside slot member => (ih child inside slot member).1) slot member)

omit made in
/-- Where slots of a program come from: each is assigned for the one variable that it belongs to. -/
theorem Runs.origin {first : Nat} (fits : Fits project clock root first model node)
    (below : ∀ child ∈ node.children, Made project clock root child)
    (runs : Runs node model clock phase vars segment) {name : Name}
    (belongs : node.Belongs name slot) (member : slot ∈ written (program phase node)) :
    ∃ v ∈ vars, v.name = name ∧ slot ∈ written (segment v) := by
  obtain ⟨v, listed, member⟩ := runs.mem_written.mp member
  have own := (runs.computes v listed).belongs (fun child inside slot member =>
    ((below child inside).owns_of_written consistent early slot member).1) slot member
  exact ⟨v, listed, fits.tidy.unique own belongs, member⟩

omit made in
theorem Runs.mem_written_child {first : Nat} (fits : Fits project clock root first model node)
    (below : ∀ child ∈ node.children, Made project clock root child)
    (runs : Runs node model clock phase vars segment) {name : Name} {child : Coded α}
    (inside : node.child? name = some child) (owned : child.Owns slot)
    (member : slot ∈ written (program phase node)) : slot ∈ written (program phase child) := by
  obtain ⟨module, among, rfl, -⟩ := fits.module_of_child? inside
  obtain ⟨v, listed, named, member⟩ :=
    runs.origin consistent early fits below (.inr ⟨child, inside, owned⟩) member
  have distinct := consistent.distinct fits.found
  have same := distinct.eq_of_name_eq ((runs.schedule.mem v).mp listed).1
    (Model.mem_modules.mp among) named
  have own := runs.computes v listed
  rw [same] at own member
  rwa [own.eq_program (fits.get?_module distinct among) inside] at member

theorem Made.nodup_written : (written (program phase node)).Nodup := by
  induction made with
  | @intro node first model fits below ih =>
    obtain ⟨vars, segment, runs⟩ := fits.runs consistent early
    rw [runs.whole, written, List.map_flatMap, List.nodup_flatMap]
    refine ⟨fun v listed => (runs.computes v listed).nodup ih, ?_⟩
    -- what is assigned for two variables lies in different blocks
    have apart := List.pairwise_map.mp runs.schedule.distinct
    refine apart.imp_of_mem fun {v w} listed also differ slot one two => differ ?_
    have owned := fun child inside slot member =>
      ((below child inside).owns_of_written consistent early slot member).1
    exact fits.tidy.unique ((runs.computes v listed).belongs owned slot one)
      ((runs.computes w also).belongs owned slot two)

theorem Made.mem_written_own (found : project.find? node.model = some model)
    (member : v ∈ model.vars) (own : v.isModule = false)
    (due : v.isDue node.note.inputs phase = true) (here : node.slots.get? v.name = some slot) :
    slot ∈ written (program phase node) := by
  cases made with
  | @intro _ first other fits below =>
  cases fits.found.symm.trans found
  obtain ⟨vars, segment, runs⟩ := fits.runs consistent early
  have listed := (runs.schedule.mem v).mpr ⟨member, due⟩
  exact runs.mem_written.mpr ⟨v, listed, (runs.computes v listed).mem_own own here⟩

theorem Made.mem_program_of_child {name : Name} {child : Coded α}
    (inside : node.child? name = some child) {a : Assignment α} (member : a ∈ program phase child) :
    a ∈ program phase node := by
  cases made with
  | @intro _ first model fits below =>
  obtain ⟨vars, segment, runs⟩ := fits.runs consistent early
  obtain ⟨module, among, rfl, -⟩ := fits.module_of_child? inside
  have declared := Model.mem_modules.mp among
  have due : Variable.isDue node.note.inputs phase (.module (α := α) module) = true := by
    simp [Variable.isDue, Variable.isHeld]
  have listed := (runs.schedule.mem _).mpr ⟨declared, due⟩
  have absent := fits.get?_module (consistent.distinct fits.found) among
  refine runs.mem_program.mpr ⟨_, listed, ?_⟩
  rwa [(runs.computes _ listed).eq_program absent inside]

/-- Each assignment of a program is made for one variable, at some depth, that is due. -/
theorem Made.exists_of_mem_program {a : Assignment α} (member : a ∈ program phase node) :
    ∃ (path : List Name) (below : Coded α) (model : LinkedModel α) (v : Variable α),
      node.descend? path = some below ∧ project.find? below.model = some model ∧ v ∈ model.vars ∧
      v.isDue below.note.inputs phase = true ∧ below.slots.get? v.name = some a.slot ∧
      Computes below model clock phase v [a] := by
  induction made with
  | @intro node first model fits below ih =>
    obtain ⟨vars, segment, runs⟩ := fits.runs consistent early
    obtain ⟨v, listed, member⟩ := runs.mem_program.mp member
    obtain ⟨declared, due⟩ := (runs.schedule.mem v).mp listed
    have here := runs.computes v listed
    generalize segment v = part at here member
    cases here with
    | input connected own =>
      rw [List.mem_singleton.mp member]
      exact ⟨[], node, model, v, rfl, fits.found, declared, due, own, .input connected own⟩
    | @enter module child _ inside =>
      obtain ⟨path, last, rest⟩ := ih child (Instance.mem_of_child? inside) member
      refine ⟨module.name :: path, last, ?_⟩
      rwa [Instance.descend?, inside, Option.bind_some]
    | stock start unconnected own lowered =>
      rw [List.mem_singleton.mp member]
      exact ⟨[], node, model, _, rfl, fits.found, declared, due, own,
        .stock start unconnected own lowered⟩
    | formula unconnected own lowered =>
      rw [List.mem_singleton.mp member]
      exact ⟨[], node, model, _, rfl, fits.found, declared, due, own,
        .formula unconnected own lowered⟩

omit early in
theorem Made.covered (owned : node.Owns slot) :
    slot = timeSlot ∨ slot ∈ written (program .initials node) := by
  induction made with
  | @intro node first model fits below ih =>
    have made : Made project clock root node := .intro fits below
    rcases fits.tidy.exists_belongs owned with time | ⟨name, found | ⟨child, inside, within⟩⟩
    · exact .inl time
    · obtain ⟨v, member, own, rfl⟩ := fits.variable_of_get? found
      exact .inr (made.mem_written_own consistent (by decide) fits.found member own rfl found)
    · refine (ih child (Instance.mem_of_child? inside) within).imp_right fun written => ?_
      obtain ⟨a, member, rfl⟩ := List.mem_map.mp written
      exact List.mem_map_of_mem (made.mem_program_of_child consistent (by decide) inside member)

end

/-! ## Stocks -/

/-- Whether no stock of an instance is an input. -/
def Spared (project : Project α) (node : Coded α) : Prop :=
  ∀ model, project.find? node.model = some model → ∀ v ∈ model.vars, v.isStock = true →
    node.note.inputs.get? v.name = none

/-- Where no input of a module overrides a variable that passes a test, such a variable of an instance
below another one is no input. -/
theorem Fits.unconnected_of_child? (test : Variable α → Bool) (consistent : project.Consistent)
    (spares : ∀ model ∈ project.models, ∀ module ∈ model.modules, ∀ inner ∈ project.find? module.model,
      ∀ input ∈ module.inputs, ∀ v ∈ inner.find? input.target, test v = false)
    (fits : Fits project clock root first model node) {name : Name} {child : Coded α}
    (inside : node.child? name = some child) {inner : LinkedModel α}
    (found : project.find? child.model = some inner) (member : v ∈ inner.vars)
    (passes : test v = true) : child.note.inputs.get? v.name = none := by
  obtain ⟨module, among, -, ofModel, inputs⟩ := fits.module_of_child? inside
  rw [inputs]
  refine Keyed.get?_eq_none.mpr fun entry listed named => ?_
  obtain ⟨wire, wired, rfl⟩ := List.mem_map.mp listed
  obtain ⟨input, given, rfl⟩ := List.mem_map.mp (Keyed.mem_of_mem_ofList wired)
  have same : input.target = v.name := named
  have target : inner.find? input.target = some v := by
    rw [same]
    exact findNamed_of_mem (consistent.distinct found) member
  rw [spares model (mem_of_findNamed fits.found) module among inner (ofModel ▸ found) input given v
    target] at passes
  cases passes

theorem Fits.spared_of_child? (consistent : project.Consistent) (spares : project.SparesStocks)
    (fits : Fits project clock root first model node) {name : Name} {child : Coded α}
    (inside : node.child? name = some child) : Spared project child :=
  fun _ found _ member isStock =>
    fits.unconnected_of_child? Variable.isStock consistent spares inside found member isStock

theorem HasStock.notMem_written (consistent : project.Consistent)
    (made : Made project clock root node) (spared : Spared project node)
    (stock : HasStock project node slot) : slot ∉ written (program .flows node) := by
  intro member
  obtain ⟨model, found, v, declared, isStock, own⟩ := stock
  cases made with
  | @intro _ first other fits below =>
  cases fits.found.symm.trans found
  obtain ⟨vars, segment, runs⟩ := fits.runs consistent (by decide : Phase.flows ≠ .stocks)
  obtain ⟨w, listed, named, -⟩ := runs.origin consistent (by decide) fits below (.inl own) member
  obtain ⟨also, due⟩ := (runs.schedule.mem w).mp listed
  rw [(consistent.distinct found).eq_of_name_eq also declared named] at due
  unfold Variable.isDue at due
  rw [spared model found v declared isStock] at due
  cases v <;> cases isStock
  cases due

/-! ## The order of reading -/

omit [Scalar α] in
theorem sequencedBy_flatMap {reads : Assignment α → Nat → Prop} {known : Nat → Prop}
    {segment : Variable α → List (Assignment α)} {vars : List (Variable α)}
    (each : ∀ before v after, vars = before ++ v :: after → SequencedBy reads
      (fun slot => known slot ∨ slot ∈ written (before.flatMap segment)) (segment v)) :
    SequencedBy reads known (vars.flatMap segment) := by
  induction vars generalizing known with
  | nil => trivial
  | cons v rest ih =>
    rw [List.flatMap_cons]
    refine .append ((each [] v rest rfl).mono fun slot => by simp [written]) (ih ?_)
    intro before w after split
    refine (each (v :: before) w after (by rw [split]; rfl)).mono fun slot => ?_
    simp [written, or_assoc]

theorem Runs.known_of_foreseen (consistent : project.Consistent) (early : phase ≠ .stocks)
    (spares : phase = .flows → project.SparesStocks) (fits : Fits project clock root first model node)
    (below : ∀ child ∈ node.children, Made project clock root child)
    (spared : phase = .flows → Spared project node)
    {vars : List (Variable α)} {segment : Variable α → List (Assignment α)}
    (runs : Runs node model clock phase vars segment) {known : Nat → Prop} (time : known timeSlot)
    (free : ∀ slot, node.Owns slot → slot ∉ written (program phase node) → known slot)
    {before after : List (Variable α)} {v : Variable α} (split : vars = before ++ v :: after)
    (foreseen : Foreseen project phase.moment (model.dependencies phase.moment) node v.name slot) :
    known slot ∨ slot ∈ written (before.flatMap segment) := by
  rcases foreseen with rfl | ⟨d, needed, belongs⟩ | ⟨step, stock⟩
  · exact .inl time
  · -- what is depended on comes earlier if the phase computes it, and is known beforehand if not
    by_cases assigned : slot ∈ written (program phase node)
    · obtain ⟨w, listed, rfl, member⟩ := runs.origin consistent early fits below belongs assigned
      have earlier := runs.schedule.follows before v after split w listed needed
      right
      rw [written, List.map_flatMap, List.mem_flatMap]
      exact ⟨w, earlier, member⟩
    · exact .inl (free slot (fits.tidy.owns belongs).1 assigned)
  · left
    have flows : phase = .flows := by
      cases phase with
      | initials => cases step
      | flows => rfl
      | stocks => exact absurd rfl early
    subst flows
    rcases stock with stock | ⟨name, child, inside, stock⟩
    · have made : Made project clock root node := .intro fits below
      refine free slot ?_ (stock.notMem_written consistent made (spared rfl))
      obtain ⟨_, -, v, -, -, own⟩ := stock
      exact (fits.tidy.owns (.inl own)).1
    · have made := below child (Instance.mem_of_child? inside)
      have owned : child.Owns slot := by
        obtain ⟨_, -, _, -, -, own⟩ := stock
        exact (made.owns_own own).1
      refine free slot (fits.tidy.owns (.inr ⟨child, inside, owned⟩)).1 fun assigned => ?_
      exact stock.notMem_written consistent made
        (fits.spared_of_child? consistent (spares rfl) inside)
        (runs.mem_written_child consistent early fits below inside owned assigned)

/-- Whether a variable of an instance reads a slot: that of its source if it is an input, otherwise one
that its equation refers to, also where it refers to a table. -/
def Reads (node : Coded α) (model : LinkedModel α) (clock : Clock α) (v : Variable α) (slot : Nat) :
    Prop :=
  match node.note.inputs.get? v.name with
  | some source => source = some slot
  | none => ∃ equation, v.equation? = some equation ∧
    (node.scope model clock v.name).Refers equation.references slot

theorem Computes.reads_of_mem {a : Assignment α} (computes : Computes node model clock phase v [a])
    (own : v.isModule = false) : ∀ slot ∈ a.term.reads, Reads node model clock v slot := by
  intro slot read
  unfold Reads
  generalize whole : [a] = part at computes
  cases computes with
  | input connected =>
    cases whole
    rw [connected]
    unfold Scope.loadSlot at read
    split at read
    · rw [List.mem_singleton.mp read]
    · cases read
  | enter => cases own
  | stock _ unconnected _ lowered =>
    cases whole
    have absent : node.note.inputs.get? (Variable.stock _).name = none := unconnected
    rw [absent]
    exact ⟨_, rfl, Scope.refers_of_lower lowered slot read⟩
  | formula unconnected _ lowered =>
    cases whole
    have absent : node.note.inputs.get? (Variable.formula _).name = none := unconnected
    rw [absent]
    exact ⟨_, rfl, Scope.refers_of_formulaTerm lowered slot read⟩

/-- What a variable that is no input reads is known in time. -/
theorem Made.foreseen_of_reads (consistent : project.Consistent) (plain : project.HasPlainNames)
    (made : Made project clock root node) (found : project.find? node.model = some model)
    {moment : Moment} (member : v ∈ model.vars) (computed : moment = .step → v.isStock = false)
    (unconnected : node.note.inputs.get? v.name = none) (reads : Reads node model clock v slot) :
    Foreseen project moment (model.dependencies moment) node v.name slot := by
  rw [Reads, unconnected] at reads
  obtain ⟨equation, own, refers⟩ := reads
  exact made.foreseen_of_refers consistent plain found member computed own refers

/-- The program of an instance reads each slot after it was assigned, given what is known from
outside. What is read inside its modules at absolute paths has to be known as well, or else the
instance has to be the one that those paths start from. Only in the flows phase does it matter that no
stock is an input. -/
theorem Made.sequencedBy (consistent : project.Consistent) (plain : project.HasPlainNames)
    (spares : phase = .flows → project.SparesStocks) (early : phase ≠ .stocks)
    (made : Made project clock root node) (spared : phase = .flows → Spared project node)
    {reads : Assignment α → Nat → Prop}
    (each : ∀ (path : List Name) (below : Coded α) model v a, node.descend? path = some below →
      project.find? below.model = some model → v ∈ model.vars → v.isModule = false →
        below.slots.get? v.name = some a.slot → Computes below model clock phase v [a] →
          ∀ slot, reads a slot → Reads below model clock v slot)
    {known : Nat → Prop} (time : known timeSlot)
    (free : ∀ slot, node.Owns slot → slot ∉ written (program phase node) → known slot)
    (inputs : ∀ name slot, node.note.inputs.get? name = some (some slot) → known slot)
    (absolute : ∀ model, project.find? node.model = some model → ∀ module ∈ model.modules,
      ∀ path slot, project.ReadsInside module path → root.slot? ("." ++ path) = some slot →
        known slot ∨
          Foreseen project phase.moment (model.dependencies phase.moment) node module.name slot) :
    SequencedBy reads known (program phase node) := by
  -- by induction on the tree: what is known before a module's turn is known from outside to its
  -- program
  induction made generalizing known with
  | @intro node first model fits below ih =>
    have made : Made project clock root node := .intro fits below
    have distinct := consistent.distinct fits.found
    obtain ⟨vars, segment, runs⟩ := fits.runs consistent early
    rw [runs.whole]
    refine sequencedBy_flatMap fun before v after split => ?_
    have listed : v ∈ vars := by simp [split]
    obtain ⟨member, due⟩ := (runs.schedule.mem v).mp listed
    have ready : ∀ {slot}, Foreseen project phase.moment (model.dependencies phase.moment) node
        v.name slot → known slot ∨ slot ∈ written (before.flatMap segment) :=
      runs.known_of_foreseen consistent early spares fits below spared time free split
    have here := runs.computes v listed
    generalize segment v = part at here
    have own := fun a => each [] node model v a rfl fits.found member
    cases here with
    | @input _ source slot connected at_ =>
      refine ⟨fun other read => .inl ?_, trivial⟩
      have isOwn := fits.isModule_eq_false distinct member at_
      have reading := own ⟨slot, Scope.loadSlot source⟩ isOwn at_ (.input connected at_) other read
      rw [Reads, connected] at reading
      exact inputs v.name _ (reading ▸ connected)
    | @enter module child _ inside =>
      obtain ⟨other, among, named, ofModel, wires⟩ := fits.module_of_child? inside
      obtain rfl := (Model.distinct_modules distinct).eq_of_name_eq among
        (Model.mem_modules.mpr member) named
      -- what the child and those below it read at absolute paths is read inside the module
      have outside : ∀ {path slot}, project.ReadsInside other path →
          root.slot? ("." ++ path) = some slot →
            known slot ∨ slot ∈ written (before.flatMap segment) := fun reads leads =>
        (absolute model fits.found other among _ _ reads leads).elim .inl ready
      refine ih child (Instance.mem_of_child? inside)
        (fun step => fits.spared_of_child? consistent (spares step) inside) ?_ (.inl time) ?_ ?_ ?_
      · intro path last inner w a leads
        refine each (other.name :: path) last inner w a ?_
        rw [Instance.descend?, inside, Option.bind_some, leads]
      · intro slot owned unassigned
        refine .inl (free slot (fits.tidy.owns (.inr ⟨child, inside, owned⟩)).1 fun assigned => ?_)
        exact unassigned (runs.mem_written_child consistent early fits below inside owned assigned)
      · intro name slot connected
        rw [wires] at connected
        obtain ⟨wire, wired, same⟩ := List.mem_map.mp (Keyed.mem_of_get? connected)
        have leads : sourceSlot? root node wire.2 = some slot := congrArg Prod.snd same
        rcases made.foreseen_of_wire consistent plain fits.found among wired leads with
          foreseen | ⟨path, reads, leads⟩
        · exact ready foreseen
        · exact outside reads leads
      · intro inner found deeper further path slot reads leads
        exact .inl (outside (.deeper (ofModel ▸ found) further reads) leads)
    | @stock stock slot term start unconnected at_ lowered =>
      refine ⟨fun other read => ready ?_, trivial⟩
      refine made.foreseen_of_reads consistent plain fits.found member (fun step => ?_) unconnected
        (own ⟨slot, term⟩ rfl at_ (.stock start unconnected at_ lowered) other read)
      rw [start] at step
      cases step
    | @formula formula slot term unconnected at_ lowered =>
      refine ⟨fun other read => ready ?_, trivial⟩
      exact made.foreseen_of_reads consistent plain fits.found member (fun _ => rfl) unconnected
        (own ⟨slot, term⟩ rfl at_ (.formula unconnected at_ lowered) other read)

end Coded
end StockFlow
