import StockFlow.Proofs.Partition
import StockFlow.Proofs.References
import StockFlow.Proofs.Renaming
import StockFlow.Run.Storage

/-!
# Bounds

Nothing that the code of a plan assigns or reads lies outside of a row, and no look-up takes a point that
its table does not have. So the values of terms are found where they are looked for.
-/

namespace StockFlow

/-! ## Numbers that compare -/

/-- Numbers of which any two compare, unless one of them is undefined. -/
class Scalar.Compares (α : Type) [Scalar α] : Prop where
  le_of_lt {x y : α} : Scalar.lt x y = true → Scalar.le x y = true
  lt_of_not_le {x y : α} : Scalar.isUndefined x = false → Scalar.isFinite y = true →
    Scalar.le x y = false → Scalar.lt y x = true

namespace Double

open Float.Model

theorem swap_compare (x y : UnpackedFloat) : y.compare x = (x.compare y).map Ordering.swap := by
  have signs : ∀ s t : UnpackedFloat.Sign, compare s t = (compare t s).swap := by
    intro s t
    cases s <;> cases t <;> rfl
  cases x with
  | notANumber => cases y <;> rfl
  | infinity s =>
    cases y with
    | infinity t => exact congrArg some (signs t s)
    | notANumber => rfl
    | zero _ | finite _ _ _ _ => cases s <;> rfl
  | zero s =>
    cases y with
    | infinity t | finite t _ _ _ => cases t <;> rfl
    | notANumber | zero _ => rfl
  | finite s m e _ =>
    cases y with
    | infinity t => cases t <;> cases s <;> rfl
    | notANumber => rfl
    | zero _ => cases s <;> rfl
    | finite t n f _ =>
      have swapped : ((compare f e).then (compare n m)) = ((compare e f).then (compare m n)).swap := by
        rw [Ordering.swap_then, Std.OrientedOrd.eq_swap (a := f), Std.OrientedOrd.eq_swap (a := n)]
      cases s <;> cases t
      · exact congrArg (some ·.swap) swapped
      · rfl
      · rfl
      · exact congrArg some swapped

theorem exists_compare {x y : UnpackedFloat} (defined : x.isNaN = false) (finite : y.isFinite = true) :
    ∃ order, x.compare y = some order := by
  cases y with
  | infinity | notANumber => cases finite
  | zero _ =>
    cases x with
    | notANumber => cases defined
    | zero _ => exact ⟨_, rfl⟩
    | infinity s | finite s _ _ _ => cases s <;> exact ⟨_, rfl⟩
  | finite t _ _ _ =>
    cases x with
    | notANumber => cases defined
    | zero _ => cases t <;> exact ⟨_, rfl⟩
    | infinity s | finite s _ _ _ => cases s <;> cases t <;> exact ⟨_, rfl⟩

theorem lt_eq (x y : Float) : Scalar.lt x y = x.toModel.unpack.lt y.toModel.unpack := by
  show decide (decide (x.toModel.unpack.lt y.toModel.unpack = true) = true) = _
  simp only [Bool.decide_eq_true]

theorem le_eq (x y : Float) : Scalar.le x y = x.toModel.unpack.le y.toModel.unpack := by
  show decide (decide (x.toModel.unpack.le y.toModel.unpack = true) = true) = _
  simp only [Bool.decide_eq_true]

instance : Scalar.Compares Float where
  le_of_lt {x y} less := by
    rw [lt_eq, UnpackedFloat.lt, beq_iff_eq] at less
    rw [le_eq, UnpackedFloat.le, less]
    rfl
  lt_of_not_le {x y} defined finite above := by
    obtain ⟨order, compared⟩ := exists_compare (x := x.toModel.unpack) (y := y.toModel.unpack)
      defined finite
    rw [le_eq, UnpackedFloat.le, compared] at above
    rw [lt_eq, UnpackedFloat.lt, swap_compare, compared]
    cases order with
    | lt => cases above
    | eq => cases above
    | gt => rfl

end Double

variable {α : Type} [Scalar α]

/-! ## Tables -/

namespace Table

variable {table : Table α} {x : α}

/-- Whether the horizontal positions of a table are finite. -/
def IsFinite (table : Table α) : Prop := ∀ point ∈ table.points, Scalar.isFinite point.1 = true

theorem isFinite_of_build {graph : GraphicalFunction α} (built : build graph = .ok table) :
    table.IsFinite := by
  obtain ⟨xs, -, -, -, finite, -, rfl⟩ := build_eq_ok.mp built
  intro point member
  have among : point.1 ∈ xs := (List.of_mem_zip (List.mem_toArray.mp member)).1
  exact finite _ (List.mem_append_left _ among)

theorem getElem?_point {i : Nat} (inside : i < table.points.size) :
    table.points[i]? = some (table.point i) := by
  rw [point, Array.getD_eq_getD_getElem?, Array.getElem?_eq_getElem inside]
  rfl

theorem IsFinite.point (finite : table.IsFinite) {i : Nat} (inside : i < table.points.size) :
    Scalar.isFinite (table.point i).1 = true :=
  finite _ (Array.mem_of_getElem? (getElem?_point inside))

/-- Whether a number lies behind all points up to an index and not behind the point at another. -/
structure Encloses (table : Table α) (x : α) (low high : Nat) : Prop where
  le : low ≤ high
  inside : high ≤ table.points.size
  before : low = 0 ∨ Scalar.lt (table.point (low - 1)).1 x = true
  after : high = table.points.size ∨ Scalar.lt (table.point high).1 x = false

/-- Halving finds an index behind which alone the number lies, and takes only points that are there. -/
theorem search?_eq {steps low high : Nat} (encloses : table.Encloses x low high)
    (enough : high - low ≤ steps) : ∃ i, table.search? x steps low high = some i ∧
      table.firstNotBefore x steps low high = i ∧ table.Encloses x i i := by
  induction steps generalizing low high with
  | zero =>
    obtain rfl : high = low := Nat.le_antisymm (by omega) encloses.le
    exact ⟨high, by rw [search?, if_neg (Nat.lt_irrefl _)], rfl, encloses⟩
  | succ steps ih =>
    have le := encloses.le
    have inside := encloses.inside
    unfold search? firstNotBefore
    by_cases less : low < high
    · rw [if_pos less, if_pos less]
      dsimp only
      have middle : low + (high - low) / 2 < high := by omega
      rw [getElem?_point (by omega), Option.bind_eq_bind, Option.bind_some]
      cases side : Scalar.lt (table.point (low + (high - low) / 2)).1 x
      · exact ih ⟨by omega, by omega, encloses.before, .inr side⟩ (by omega)
      · exact ih ⟨by omega, inside, .inr side, encloses.after⟩ (by omega)
    · obtain rfl : high = low := Nat.le_antisymm (Nat.not_lt.mp less) le
      rw [if_neg less, if_neg less]
      exact ⟨high, rfl, rfl, encloses⟩

/-- A look-up takes only points that the table has: the clamps leave a point on either side of `x`. -/
theorem height?_eq [Scalar.Compares α] (finite : table.IsFinite) :
    table.height? x = some (table.lookup x) := by
  unfold height? lookup
  dsimp only
  split
  · rfl
  rename_i usable
  rw [Bool.or_eq_true, not_or, decide_eq_true_eq, Bool.not_eq_true] at usable
  obtain ⟨nonempty, defined⟩ := usable
  have first : 0 < table.points.size := Nat.pos_of_ne_zero nonempty
  rw [getElem?_point first, Option.bind_eq_bind, Option.bind_some]
  split
  · rfl
  rename_i late
  rw [getElem?_point (by omega), Option.bind_some]
  split
  · rfl
  rename_i early
  obtain ⟨i, found, same, encloses⟩ := table.search?_eq (x := x)
    ⟨Nat.zero_le _, Nat.le_refl _, .inl rfl, .inl rfl⟩ (Nat.sub_le ..)
  -- the argument lies between the first point and the last, so the search ends between two points
  have behind : i ≠ 0 := by
    rintro rfl
    rcases encloses.after with empty | above
    · exact nonempty empty.symm
    · have less := Scalar.Compares.lt_of_not_le defined (finite.point first) (by simpa using late)
      rw [above] at less
      cases less
  have within : i < table.points.size := by
    refine Nat.lt_of_le_of_ne encloses.inside fun ends => ?_
    have less := encloses.before.resolve_left behind
    rw [ends] at less
    exact early (Scalar.Compares.le_of_lt less)
  unfold between?
  rw [found, same, Option.bind_eq_bind, Option.bind_some, getElem?_point within,
    Option.bind_eq_bind, Option.bind_some]
  split
  · rfl
  · rw [getElem?_point (by omega)]
    rfl

end Table

/-! ## Terms -/

namespace Term

/-- The tables that the value of a term depends on. -/
def tables : Term α → List (Table α)
  | constant _ => []
  | slot _ => []
  | infinity => []
  | pi => []
  | elementary _ argument => argument.tables
  | maximum left right => left.tables ++ right.tables
  | minimum left right => left.tables ++ right.tables
  | pulse volume first interval => volume.tables ++ first.tables ++ interval.tables
  | quotient left right => left.tables ++ right.tables
  | quotientOr left right otherwise => left.tables ++ right.tables ++ otherwise.tables
  | lookup _ table? argument => table?.toList ++ argument.tables
  | not operand => operand.tables
  | binary _ left right => left.tables ++ right.tables
  | conditional condition whenTrue whenFalse =>
    condition.tables ++ whenTrue.tables ++ whenFalse.tables

end Term

theorem Row.getElem?_eq_get {row : Row α} {slot : Nat} (inside : slot < row.size) :
    row[slot]? = some (row.get slot) := by
  rw [get, Array.getD_eq_getD_getElem?, Array.getElem?_eq_getElem inside]
  rfl

/-- Where a row has every slot that a term reads, the value of the term is found. -/
theorem Term.value?_eq [Scalar.Compares α] {dt : α} {row : Row α} {term : Term α}
    (slots : ∀ slot ∈ term.reads, slot < row.size) (tables : ∀ table ∈ term.tables, table.IsFinite) :
    term.value? dt row = some (term.value dt row) := by
  induction term with
  | constant | infinity | pi => rfl
  | slot index => exact Row.getElem?_eq_get (slots index (List.mem_singleton_self _))
  | elementary _ _ ih | not _ ih =>
    rw [value?, ih slots tables]
    rfl
  | lookup _ table? _ ih =>
    simp only [Term.tables, List.mem_append, Option.mem_toList] at tables
    rw [value?, ih slots fun table member => tables table (.inr member), Option.bind_eq_bind,
      Option.bind_some]
    cases table? with
    | none => rfl
    | some table => exact Table.height?_eq (tables table (.inl rfl))
  | maximum _ _ left right | minimum _ _ left right | quotient _ _ left right
  | binary _ _ _ left right =>
    simp only [reads, Term.tables, List.forall_mem_append] at slots tables
    rw [value?, left slots.1 tables.1, right slots.2 tables.2]
    rfl
  | pulse _ _ _ volume first interval =>
    simp only [reads, Term.tables, List.forall_mem_cons, List.forall_mem_append] at slots tables
    obtain ⟨time, ⟨one, two⟩, three⟩ := slots
    rw [value?, Row.getElem?_eq_get time, volume one tables.1.1, first two tables.1.2, interval three tables.2]
    rfl
  | quotientOr _ _ _ left right otherwise | conditional _ _ _ left right otherwise =>
    simp only [reads, Term.tables, List.forall_mem_append] at slots tables
    rw [value?, left slots.1.1 tables.1.1, right slots.1.2 tables.1.2,
      otherwise slots.2 tables.2]
    simp only [Option.bind_eq_bind, Option.bind_some, value, Option.pure_def, apply_ite some]

/-! ## Code -/

namespace Scope

variable {scope : Scope α}

theorem tables_of_lowerCall {function : Name} {arguments : List (Equation α)} {terms : List (Term α)}
    {term : Term α} (lowered : scope.lowerCall function arguments terms = .ok term) :
    ∀ table ∈ term.tables, (∃ name, scope.table? name = some table) ∨
      ∃ argument ∈ terms, table ∈ argument.tables := by
  unfold lowerCall at lowered
  split at lowered
  · cases lowered
  · split at lowered
    · unfold lowerLookup at lowered
      split at lowered
      · cases lowered
        grind [Term.tables]
      · cases lowered
    all_goals cases lowered
    all_goals grind [Term.tables]

mutual

/-- The tables of a term are those that its scope has. -/
theorem tables_of_lower : ∀ {equation : Equation α} {term : Term α},
    scope.lower equation = .ok term → ∀ table ∈ term.tables, ∃ name, scope.table? name = some table
  | .constant _ _, _, lowered => by
    cases lowered
    simp [Term.tables]
  | .reference name, _, lowered => by
    cases lowered
    unfold reference load loadSlot
    split
    · simp [Term.tables]
    · simp [Term.tables]
    · simp [Term.tables]
    · simp [Term.tables]
    · split <;> simp [Term.tables]
  | .call _ _, _, lowered => by
    simp only [lower, bind_eq_ok] at lowered
    obtain ⟨terms, inner, outer⟩ := lowered
    intro table member
    rcases tables_of_lowerCall outer table member with known | ⟨argument, among, member⟩
    · exact known
    · exact tables_of_lowerAll inner argument among table member
  | .group _, _, lowered => by
    rw [lower] at lowered
    exact tables_of_lower lowered
  | .unary .positive _, _, lowered => by
    rw [lower] at lowered
    exact tables_of_lower lowered
  | .unary .negative _, _, lowered => by
    simp only [lower, bind_eq_ok, pure_eq_ok] at lowered
    obtain ⟨_, inner, rfl⟩ := lowered
    simpa only [Term.tables, List.nil_append] using tables_of_lower inner
  | .unary .not _, _, lowered => by
    simp only [lower, bind_eq_ok, pure_eq_ok] at lowered
    obtain ⟨_, inner, rfl⟩ := lowered
    simpa only [Term.tables] using tables_of_lower inner
  | .binary _ _ _, _, lowered => by
    simp only [lower, bind_eq_ok, pure_eq_ok] at lowered
    obtain ⟨_, left, _, right, rfl⟩ := lowered
    simp only [Term.tables, List.forall_mem_append]
    exact ⟨tables_of_lower left, tables_of_lower right⟩
  | .conditional _ _ _, _, lowered => by
    simp only [lower, bind_eq_ok, pure_eq_ok] at lowered
    obtain ⟨_, condition, _, whenTrue, _, whenFalse, rfl⟩ := lowered
    simp only [Term.tables, List.forall_mem_append]
    exact ⟨⟨tables_of_lower condition, tables_of_lower whenTrue⟩, tables_of_lower whenFalse⟩

theorem tables_of_lowerAll : ∀ {equations : List (Equation α)} {terms : List (Term α)},
    scope.lowerAll equations = .ok terms → ∀ term ∈ terms, ∀ table ∈ term.tables,
      ∃ name, scope.table? name = some table
  | [], _, lowered => by
    cases lowered
    simp
  | _ :: _, _, lowered => by
    simp only [lowerAll, bind_eq_ok, pure_eq_ok] at lowered
    obtain ⟨_, first, _, rest, rfl⟩ := lowered
    rw [List.forall_mem_cons]
    exact ⟨tables_of_lower first, tables_of_lowerAll rest⟩

end

theorem tables_of_formulaTerm {formula : Formula α} {term : Term α}
    (lowered : scope.formulaTerm formula = .ok term) : ∀ table ∈ term.tables,
      formula.table? = some table ∨ ∃ name, scope.table? name = some table := by
  simp only [formulaTerm, bind_eq_ok, pure_eq_ok] at lowered
  obtain ⟨inner, equation, rfl⟩ := lowered
  intro table member
  have among : formula.table? = some table ∨ table ∈ inner.tables := by
    split at member <;> cases own : formula.table? <;>
      simpa [own, Term.tables, Term.nonNegative, eq_comm] using member
  exact among.imp_right (tables_of_lower equation table)

/-- Whether a slot is that of the time or one that a name leads to. -/
def Leads (scope : Scope α) (slot : Nat) : Prop :=
  slot = timeSlot ∨ ∃ name, scope.slot? name = some slot

omit [Scalar α] in
theorem Refers.leads {names : List Name} {slot : Nat} (refers : scope.Refers names slot) :
    scope.Leads slot :=
  refers.imp_right fun ⟨name, _, _, found⟩ => ⟨name, found⟩

theorem leads_of_load {name : Name} : ∀ slot ∈ (scope.load name).reads, scope.Leads slot := by
  intro slot read
  unfold load loadSlot at read
  split at read
  · rename_i found
    exact .inr ⟨name, List.mem_singleton.mp read ▸ found⟩
  · cases read

theorem leads_of_sumFlows {flows : List Name} :
    ∀ slot ∈ (scope.sumFlows flows).reads, scope.Leads slot := by
  cases flows with
  | nil => simp [sumFlows, Term.reads]
  | cons first rest =>
    have folded : ∀ sum : Term α, (∀ slot ∈ sum.reads, scope.Leads slot) → ∀ slot ∈ (rest.foldl
        (fun sum flow => .binary .add sum (scope.load flow)) sum).reads, scope.Leads slot := by
      induction rest with
      | nil => exact fun _ leads => leads
      | cons flow rest ih =>
        exact fun sum leads => ih _ (List.forall_mem_append.mpr ⟨leads, leads_of_load⟩)
    exact folded _ leads_of_load

theorem tables_load {name : Name} : (scope.load name).tables = [] := by
  unfold load loadSlot
  split <;> rfl

theorem tables_sumFlows {flows : List Name} : (scope.sumFlows flows).tables = [] := by
  cases flows with
  | nil => rfl
  | cons first rest =>
    have folded : ∀ sum : Term α, sum.tables = [] → (rest.foldl
        (fun sum flow => .binary .add sum (scope.load flow)) sum).tables = [] := by
      induction rest with
      | nil => exact fun _ none => none
      | cons flow rest ih =>
        exact fun sum none => ih _ (by rw [Term.tables, none, tables_load]; rfl)
    exact folded _ tables_load

theorem leads_of_stockUpdate {slot : Nat} {stock : Stock α} :
    ∀ other ∈ (scope.stockUpdate slot stock).reads, other = slot ∨ scope.Leads other := by
  intro other read
  have sums : other = slot ∨ other ∈ (scope.sumFlows stock.inflows).reads ∨
      other ∈ (scope.sumFlows stock.outflows).reads := by
    unfold stockUpdate at read
    split at read <;> simpa [Term.reads, Term.nonNegative] using read
  exact sums.imp_right fun read => read.elim (leads_of_sumFlows other) (leads_of_sumFlows other)

theorem tables_stockUpdate {slot : Nat} {stock : Stock α} :
    (scope.stockUpdate slot stock).tables = [] := by
  unfold stockUpdate
  split <;> simp [Term.tables, Term.nonNegative, tables_sumFlows]

end Scope

/-- What an assignment in the code of an instance has to do with the instance: its slot is that of a
variable, it reads the time, what names lead to there, and what inputs are connected to, and its tables
are those of variables. -/
structure Site.Explains (site : Site α) (a : Assignment α) : Prop where
  own : ∃ name, site.wired.slots.get? name = some a.slot
  reads : ∀ slot ∈ a.term.reads, slot = timeSlot ∨ slot = a.slot ∨
    (∃ name, site.wired.slot? name = some slot) ∨
      ∃ name, site.inputs.get? name = some (some slot)
  tables : ∀ table ∈ a.term.tables, ∃ v ∈ site.model.vars, v.table? = some table

namespace Site

variable {site : Site α} {v : Variable α} {phase : Phase}

omit [Scalar α] in
theorem exists_table {owner name : Name} {table : Table α}
    (found : (site.scope owner).table? name = some table) :
    ∃ v ∈ site.model.vars, v.table? = some table := by
  obtain ⟨v, sought, own⟩ := Option.bind_eq_some_iff.mp found
  exact ⟨v, mem_of_findNamed sought, own⟩

omit [Scalar α] in
/-- An assignment to the slot of a variable may read that slot and what a scope leads to. -/
theorem explains_of_leads {name owner : Name} {a : Assignment α}
    (own : site.wired.slots.get? name = some a.slot)
    (reads : ∀ slot ∈ a.term.reads, slot = a.slot ∨ (site.scope owner).Leads slot)
    (tables : ∀ table ∈ a.term.tables, ∃ v ∈ site.model.vars, v.table? = some table) :
    site.Explains a where
  own := ⟨name, own⟩
  reads slot read := by
    rcases reads slot read with same | time | found
    · exact .inr (.inl same)
    · exact .inl time
    · exact .inr (.inr (.inl found))
  tables := tables

variable {part : List (Instruction α)} {a : Assignment α}

theorem explains_of_codes (declared : v ∈ site.model.vars) (codes : site.Codes phase v part)
    (member : .assign a ∈ part) : site.Explains a := by
  cases codes with
  | @input _ _ source _ _ connected own =>
    cases List.mem_singleton.mp member
    refine ⟨⟨v.name, own⟩, fun other read => ?_, fun table looked => ?_⟩
    · cases source with
      | none => cases read
      | some source =>
        cases List.mem_singleton.mp read
        exact .inr (.inr (.inr ⟨v.name, connected⟩))
    · cases source <;> cases looked
  | settled | kept => cases member
  | enter => cases List.mem_singleton.mp member
  | initial _ own lowered =>
    cases List.mem_singleton.mp member
    exact explains_of_leads own
      (fun other read => .inr (Scope.refers_of_lower lowered other read).leads)
      fun table among => exists_table (Scope.tables_of_lower lowered table among).choose_spec
  | update _ own =>
    cases List.mem_singleton.mp member
    refine explains_of_leads own Scope.leads_of_stockUpdate fun table among => ?_
    rw [Scope.tables_stockUpdate] at among
    cases among
  | formula _ own lowered =>
    cases List.mem_singleton.mp member
    refine explains_of_leads own
      (fun other read => .inr (Scope.refers_of_formulaTerm lowered other read).leads)
      fun table among => ?_
    rcases Scope.tables_of_formulaTerm lowered table among with here | ⟨name, there⟩
    · exact ⟨_, declared, here⟩
    · exact exists_table there

theorem explains_of_code {code : Code α} (coded : site.code = .ok code) {a : Assignment α}
    (member : .assign a ∈ code.phase phase) : site.Explains a := by
  obtain ⟨parts, each, whole⟩ := phaseCode_eq_ok (phaseCode_of_code coded phase)
  rw [whole] at member
  obtain ⟨part, among, inside⟩ := List.mem_flatten.mp member
  obtain ⟨v, listed, made⟩ := exists_left_of_mem each among
  obtain ⟨name, -, found⟩ := List.mem_filterMap.mp listed
  exact explains_of_codes (mem_of_findNamed found) (variableCode_eq_ok.mp made) inside

end Site

/-! ## Plans -/

omit [Scalar α] in
theorem Coded.mem_unfold {modules : Keyed (List (Assignment α))} {instructions : List (Instruction α)}
    {a : Assignment α} (member : a ∈ unfold modules instructions) :
    .assign a ∈ instructions ∨ ∃ name program, modules.get? name = some program ∧ a ∈ program := by
  induction instructions with
  | nil => cases member
  | cons instruction rest ih =>
    cases instruction with
    | assign b =>
      rcases List.mem_cons.mp member with rfl | member
      · exact .inl List.mem_cons_self
      · exact (ih member).imp_left (List.mem_cons_of_mem _)
    | enter name =>
      rcases List.mem_append.mp member with inside | member
      · cases found : modules.get? name with
        | none =>
          rw [found] at inside
          cases inside
        | some program => exact .inr ⟨name, program, found, by rwa [found] at inside⟩
      · exact (ih member).imp_left (List.mem_cons_of_mem _)

/-- Each assignment of a program stands in the code of an instance at some depth. -/
theorem Coded.Made.exists_node {project : Project α} {clock : Clock α} {root node : Coded α}
    (made : Made project clock root node) {phase : Phase} {a : Assignment α}
    (member : a ∈ program phase node) : ∃ (path : List Name) (below : Coded α),
      node.descend? path = some below ∧ .assign a ∈ below.note.phase phase := by
  induction made with
  | @intro node first model fits below ih =>
    rw [program_eq] at member
    rcases mem_unfold member with here | ⟨name, inner, found, inside⟩
    · exact ⟨[], node, rfl, here⟩
    · rw [programs_eq_map, Keyed.get?_of_items] at found
      obtain ⟨child, leads, rfl⟩ := Option.map_eq_some_iff.mp found
      obtain ⟨path, last, further, there⟩ := ih child (mem_of_findNamed leads) inside
      refine ⟨name :: path, last, ?_, there⟩
      rw [Instance.descend?, Instance.child?, leads, Option.bind_some, further]

/-- Whether a row of a plan has all slots that an assignment concerns, and its tables all their points. -/
structure Plan.Covers (plan : Plan α) (a : Assignment α) : Prop where
  slot : a.slot < plan.size
  reads : ∀ slot ∈ a.term.reads, slot < plan.size
  tables : ∀ table ∈ a.term.tables, table.IsFinite

namespace Plan

variable {document : Document.Project α} {project : Project α} {plan : Plan α}
  (compiled : Project.compile document = .ok project) (planned : ofProject project = .ok plan)
include compiled planned

/-- No code of any instance in a plan leaves the row. -/
theorem covers_of_descend? {path : List Name} {node : Coded α}
    (leads : plan.root.descend? path = some node) {phase : Phase} {a : Assignment α}
    (member : .assign a ∈ node.note.phase phase) : plan.Covers a := by
  have consistent := Project.consistent_of_compile compiled
  obtain ⟨made, -⟩ := made_of_ofProject consistent planned
  cases made.of_descend? leads with
  | @intro _ first model fits _ =>
  obtain ⟨wired, same, coded⟩ := fits.code
  have inputs : wired.note = node.note.inputs := (Coded.inputs_of_code coded).symm
  obtain ⟨⟨name, own⟩, reads, tables⟩ := Site.explains_of_code coded member
  have within : a.slot < plan.size := by
    rw [Instance.slots_eq_of_shape same] at own
    exact (lt_size_of_own consistent planned leads own).2
  refine ⟨within, fun slot read => ?_, fun table among => ?_⟩
  · rcases reads slot read with rfl | rfl | ⟨name, found⟩ | ⟨name, connected⟩
    · exact size_pos consistent.distinct planned
    · exact within
    · rw [Instance.slot?_eq_of_shape same] at found
      exact lt_size_of_slot? consistent planned leads found
    · rw [Site.inputs, inputs] at connected
      exact lt_size_of_input consistent.distinct planned leads connected
  · obtain ⟨v, declared, here⟩ := tables table among
    exact Table.isFinite_of_build (Project.table_of_compile compiled fits.found declared here)

theorem covers_of_program {phase : Phase} {a : Assignment α} (member : a ∈ plan.program phase) :
    plan.Covers a := by
  have consistent := Project.consistent_of_compile compiled
  rw [plan.program_eq] at member
  obtain ⟨path, node, leads, inside⟩ :=
    (made_of_ofProject consistent planned).1.exists_node member
  exact covers_of_descend? compiled planned leads inside

end Plan
end StockFlow
