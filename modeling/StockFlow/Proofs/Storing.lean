import StockFlow.Proofs.Bounds
import StockFlow.Proofs.Calls
import StockFlow.Proofs.Catalog

/-!
# Runs in storage

Storage represents a run if its rows are those that the run has finished and the present one. Every
operation finds its places in it, and comes to what the operation on the run comes to. So no sequence
of calls ever leaves the cells.
-/

namespace StockFlow

theorem bind_of_eq_some {β γ : Type} {x : Option β} {b : β} (found : x = some b) (f : β → Option γ) :
    (x >>= f) = f b := by
  rw [found]
  rfl

variable {α : Type} [Scalar α]

/-! ## Plans that fit -/

/-- Whether the sizes that the storage of a plan has to do with are machine words. -/
structure Plan.FitsMemory (plan : Plan α) : Prop where
  cells : plan.size * (plan.clock.savedRows + 1) < UInt64.size
  steps : plan.clock.savedRows * plan.clock.saveEvery < UInt64.size

/-- Whether rows of a plan have all slots that its programs and the paths of its variables lead to. -/
structure Plan.IsBounded (plan : Plan α) : Prop where
  size_pos : timeSlot < plan.size
  covers : ∀ phase, ∀ a ∈ plan.program phase, plan.Covers a
  timeless : timeSlot ∉ written (plan.program .flows)
  slot : ∀ name slot, plan.slot? name = some slot → slot < plan.size

theorem Plan.isBounded_of_ofProject {document : Document.Project α} {project : Project α}
    {plan : Plan α} (compiled : Project.compile document = .ok project)
    (planned : ofProject project = .ok plan) : plan.IsBounded where
  size_pos := size_pos (Project.consistent_of_compile compiled).distinct planned
  covers _ _ member := covers_of_program compiled planned member
  timeless member := Nat.lt_irrefl _ (lt_size_of_written (Project.consistent_of_compile compiled)
    planned (by decide) _ member).1
  slot _ _ found := lt_size_of_slot? (Project.consistent_of_compile compiled) planned
    (show plan.root.descend? [] = some plan.root from rfl) found

/-! ## Rows -/

namespace Row

variable {plan : Plan α} {row next : Row α} {slot : Nat} {program : List (Assignment α)} {dt : α}

omit [Scalar α] in
theorem put?_eq {x : α} (inside : slot < row.size) :
    row.put? slot x = some (row.setIfInBounds slot x) := if_pos inside

theorem assign?_eq [Scalar.Compares α] (covers : ∀ a ∈ program, plan.Covers a)
    (whole : row.size = plan.size) : row.assign? dt program = some (row.assign dt program) := by
  unfold assign?
  induction program generalizing row with
  | nil => rfl
  | cons a rest ih =>
    obtain ⟨here, others⟩ := List.forall_mem_cons.mp covers
    rw [List.foldlM_cons, bind_of_eq_some (Term.value?_eq (whole ▸ here.reads) here.tables),
      bind_of_eq_some (put?_eq (whole ▸ here.slot))]
    exact ih others (by rw [Array.size_setIfInBounds, whole])

theorem advance?_eq [Scalar.Compares α] (covers : ∀ a ∈ program, plan.Covers a)
    (whole : row.size = plan.size) :
    row.advance? dt row program = some (row.advance dt program) := by
  have carried : ∀ next : Row α, next.size = plan.size → row.advance? dt next program =
      some (program.foldl (fun next a => next.setIfInBounds a.slot (a.term.value dt row)) next) := by
    unfold advance?
    induction program with
    | nil => exact fun _ _ => rfl
    | cons a rest ih =>
      intro next full
      obtain ⟨here, others⟩ := List.forall_mem_cons.mp covers
      rw [List.foldlM_cons, bind_of_eq_some (Term.value?_eq (whole ▸ here.reads) here.tables),
        bind_of_eq_some (put?_eq (full ▸ here.slot))]
      exact ih others _ (by rw [Array.size_setIfInBounds, full])
  exact carried row whole

end Row

/-! ## Places -/

theorem Word.product?_eq {m n bound : Nat} (fits : bound < UInt64.size) (le : m * n ≤ bound) :
    product? m n = some (m * n) := if_pos (Nat.lt_of_le_of_lt le fits)

namespace Storage

variable {s t : Storage α} {n m slot : Nat} {row : Row α} {x : α}

/-- The part of the cells that a row takes. -/
def rowAt (s : Storage α) (n : Nat) : Row α :=
  s.cells.extract (n * s.plan.size) ((n + 1) * s.plan.size)

/-- Storage with another row in a place. -/
def withRow (s : Storage α) (n : Nat) (row : Row α) : Storage α :=
  { s with
    cells := s.cells.extract 0 (n * s.plan.size) ++ row ++
      s.cells.extract ((n + 1) * s.plan.size) s.cells.size }

/-- Whether storage has the sizes that the clock of its plan demands. -/
structure IsFormed (s : Storage α) : Prop where
  savedRows : s.savedRows = s.plan.clock.savedRows
  saveEvery : s.saveEvery = s.plan.clock.saveEvery
  cells : s.cells.size = s.plan.size * (s.savedRows + 1)
  next : s.next.size = s.plan.size
  step : s.step ≤ s.savedRows * s.saveEvery

section

variable (formed : s.IsFormed) (within : n ≤ s.savedRows)
include formed within

/-- Rows up to the last one end inside of the cells. -/
theorem IsFormed.row_le : n * s.plan.size + s.plan.size ≤ s.cells.size := by
  rw [formed.cells, Nat.mul_comm s.plan.size, ← Nat.succ_mul]
  exact Nat.mul_le_mul_right _ (Nat.succ_le_succ within)

theorem IsFormed.size_rowAt : (s.rowAt n).size = s.plan.size := by
  have bound := formed.row_le within
  rw [rowAt, Nat.succ_mul, Array.size_extract, Nat.min_eq_left bound, Nat.add_sub_cancel_left]

theorem IsFormed.getElem?_rowAt (inside : slot < s.plan.size) :
    (s.rowAt n)[slot]? = s.cells[n * s.plan.size + slot]? := by
  have bound := formed.row_le within
  rw [rowAt, Nat.succ_mul, Array.getElem?_extract, Nat.min_eq_left bound, if_pos (by omega)]

theorem IsFormed.size_withRow (whole : row.size = s.plan.size) :
    (s.withRow n row).cells.size = s.cells.size := by
  have bound := formed.row_le within
  simp only [withRow, Array.size_append, Array.size_extract, Nat.succ_mul, whole]
  omega

theorem IsFormed.withRow (whole : row.size = s.plan.size) : (s.withRow n row).IsFormed where
  savedRows := formed.savedRows
  saveEvery := formed.saveEvery
  cells := (formed.size_withRow within whole).trans formed.cells
  next := formed.next
  step := formed.step

/-- Writing a row changes this one and no other. -/
theorem IsFormed.rowAt_withRow (there : m ≤ s.savedRows) (whole : row.size = s.plan.size) :
    (s.withRow n row).rowAt m = if m = n then row else s.rowAt m := by
  have bound := formed.row_le within
  have bound' := formed.row_le there
  have written : ∀ slot < s.plan.size, ((s.withRow n row).rowAt m)[slot]? =
      if m = n then row[slot]? else (s.rowAt m)[slot]? := by
    intro slot inside
    rw [(formed.withRow within whole).getElem?_rowAt there inside, formed.getElem?_rowAt there inside]
    dsimp only [Storage.withRow]
    rw [Nat.succ_mul]
    -- a row is a stretch of the array: it lies before the one that is written, is that one, or lies behind
    rcases Nat.lt_trichotomy m n with less | rfl | more
    · have before : m * s.plan.size + s.plan.size ≤ n * s.plan.size := by
        rw [← Nat.succ_mul]
        exact Nat.mul_le_mul_right _ less
      rw [if_neg (Nat.ne_of_lt less), Array.append_assoc, Array.getElem?_append_left (by
        rw [Array.size_extract]; omega), Array.getElem?_extract, if_pos (by omega), Nat.zero_add]
    · rw [if_pos rfl, Array.getElem?_append_left (by
        rw [Array.size_append, Array.size_extract]; omega), Array.getElem?_append_right (by
        rw [Array.size_extract]; omega), Array.size_extract]
      congr 1
      omega
    · have after : n * s.plan.size + s.plan.size ≤ m * s.plan.size := by
        rw [← Nat.succ_mul]
        exact Nat.mul_le_mul_right _ more
      rw [if_neg (Nat.ne_of_gt more), Array.getElem?_append_right (by
        rw [Array.size_append, Array.size_extract]; omega), Array.size_append, Array.size_extract,
        Array.getElem?_extract, if_pos (by omega)]
      congr 1
      omega
  have sizes : ((s.withRow n row).rowAt m).size = s.plan.size :=
    (formed.withRow within whole).size_rowAt there
  refine Array.ext_getElem? fun slot => ?_
  by_cases inside : slot < s.plan.size
  · rw [written slot inside, apply_ite (·[slot]?)]
  · rw [Array.getElem?_eq_none (by omega), Array.getElem?_eq_none]
    split
    · omega
    · rw [formed.size_rowAt there]
      omega

variable (fits : s.plan.FitsMemory)
include fits

theorem IsFormed.product?_eq (bound : m ≤ n + 1) :
    Word.product? m s.plan.size = some (m * s.plan.size) := by
  refine Word.product?_eq fits.cells ?_
  rw [← formed.savedRows, Nat.mul_comm s.plan.size]
  exact Nat.mul_le_mul_right _ (Nat.le_trans bound (Nat.succ_le_succ within))

theorem IsFormed.row?_eq : s.row? n = some (s.rowAt n) := by
  have bound := formed.row_le within
  rw [← Nat.succ_mul] at bound
  rw [row?, bind_of_eq_some (formed.product?_eq within fits (Nat.le_succ n)),
    bind_of_eq_some (formed.product?_eq within fits (Nat.le_refl _))]
  exact if_pos bound

theorem IsFormed.writeRow?_eq (whole : row.size = s.plan.size) :
    s.writeRow? n row = some (s.withRow n row) := by
  have bound := formed.row_le within
  rw [writeRow?, bind_of_eq_some (formed.product?_eq within fits (Nat.le_succ n)),
    bind_of_eq_some (formed.product?_eq within fits (Nat.le_refl _))]
  refine if_pos ⟨by rwa [Nat.succ_mul], ?_⟩
  rw [whole, Nat.succ_mul, Nat.add_sub_cancel_left]

theorem IsFormed.cell?_eq (inside : slot < s.plan.size) :
    s.cell? n slot = some ((s.rowAt n).get slot) := by
  rw [cell?, bind_of_eq_some (formed.product?_eq within fits (Nat.le_succ n)),
    ← formed.getElem?_rowAt within inside]
  exact Row.getElem?_eq_get (by rwa [formed.size_rowAt within])

/-- Writing a cell is writing the row that has it. -/
theorem IsFormed.writeCell?_eq (inside : slot < s.plan.size) :
    s.writeCell? n slot x = some (s.withRow n ((s.rowAt n).setIfInBounds slot x)) := by
  have bound := formed.row_le within
  have whole : ((s.rowAt n).setIfInBounds slot x).size = s.plan.size := by
    rw [Array.size_setIfInBounds, formed.size_rowAt within]
  rw [writeCell?, bind_of_eq_some (formed.product?_eq within fits (Nat.le_succ n)),
    if_pos (by omega)]
  have same : s.cells.setIfInBounds (n * s.plan.size + slot) x =
      (s.withRow n ((s.rowAt n).setIfInBounds slot x)).cells := by
    refine Array.ext_getElem? fun i => ?_
    dsimp only [Storage.withRow]
    rw [Nat.succ_mul, Array.getElem?_setIfInBounds]
    -- the cell lies in the row that is written, so the array changes there only
    by_cases before : i < n * s.plan.size
    · rw [if_neg (by omega), Array.append_assoc, Array.getElem?_append_left (by
        rw [Array.size_extract]; omega), Array.getElem?_extract, if_pos (by omega), Nat.zero_add]
    by_cases here : i < n * s.plan.size + s.plan.size
    · obtain ⟨other, rfl⟩ := Nat.exists_eq_add_of_le (Nat.not_lt.mp before)
      have left : (s.cells.extract 0 (n * s.plan.size)).size = n * s.plan.size := by
        rw [Array.size_extract]
        omega
      rw [Array.getElem?_append_left (by rw [Array.size_append, left]; omega),
        Array.getElem?_append_right (by omega), left, Nat.add_sub_cancel_left,
        Array.getElem?_setIfInBounds, formed.getElem?_rowAt within (by omega), formed.size_rowAt within]
      have written : n * s.plan.size + slot < s.cells.size := by omega
      simp only [Nat.add_left_cancel_iff, inside, written, if_true]
    · rw [if_neg (by omega), Array.getElem?_append_right (by
        rw [Array.size_append, Array.size_extract, whole]; omega), Array.size_append,
        Array.size_extract, whole, Array.getElem?_extract]
      by_cases inside : i < s.cells.size
      · rw [if_pos (by omega)]
        congr 1
        omega
      · rw [if_neg (by omega), Array.getElem?_eq_none (by omega)]
  rw [same]
  rfl

end

/-! ## Steps -/

omit [Scalar α] in
theorem presentRow?_eq (positive : 1 ≤ s.saveEvery) :
    s.presentRow? = some ((s.step + s.saveEvery - 1) / s.saveEvery) := by
  rw [presentRow?, if_neg (by omega)]
  have next : (s.step + 1 + s.saveEvery - 1) / s.saveEvery = _ := Simulation.ceil_div_succ positive
  have same : s.step + 1 + s.saveEvery - 1 = s.step + s.saveEvery := by omega
  rw [same, Nat.add_div_right _ positive] at next
  congr 1
  split at next <;> rename_i due
  · rw [if_pos due]
    omega
  · rw [if_neg due]
    omega

theorem IsFormed.one_le_saveEvery (formed : s.IsFormed) : 1 ≤ s.saveEvery :=
  formed.saveEvery ▸ s.plan.clock.one_le_saveEvery

/-- The row in which a step takes place is one of those that the cells have. -/
theorem IsFormed.presentRow_le (formed : s.IsFormed) :
    (s.step + s.saveEvery - 1) / s.saveEvery ≤ s.savedRows := by
  have positive := formed.one_le_saveEvery
  have early := formed.step
  refine Nat.lt_succ_iff.mp ((Nat.div_lt_iff_lt_mul positive).mpr ?_)
  rw [Nat.succ_mul]
  omega

/-- Storage that has gone on by a step, whose row no cell has yet. -/
def moved (s : Storage α) (row : Row α) : Storage α := { s with step := s.step + 1, next := row }

theorem IsFormed.moved (formed : s.IsFormed) (early : s.step < s.plan.clock.steps)
    (whole : row.size = s.plan.size) : (s.moved row).IsFormed := by
  refine ⟨formed.savedRows, formed.saveEvery, formed.cells, whole, ?_⟩
  show s.step + 1 ≤ s.savedRows * s.saveEvery
  rw [formed.savedRows, formed.saveEvery]
  exact early

/-! ## Runs -/

/-- Whether storage represents a run. -/
structure Represents (s : Storage α) (run : Simulation α) : Prop where
  plan : s.plan = run.plan
  step : s.step = run.step
  formed : s.IsFormed
  recorded : run.IsRecorded
  finished : ∀ n row, run.history[n]? = some row → s.rowAt n = row
  present : s.rowAt run.history.size = run.present

namespace Represents

variable {run : Simulation α} (represents : s.Represents run)
include represents

theorem saveEvery : s.saveEvery = run.saveEvery :=
  represents.formed.saveEvery.trans (congrArg (·.clock.saveEvery) represents.plan)

theorem size_history : run.history.size = (s.step + s.saveEvery - 1) / s.saveEvery := by
  rw [represents.recorded, represents.step, represents.saveEvery]

theorem size_history_le : run.history.size ≤ s.savedRows :=
  represents.size_history ▸ represents.formed.presentRow_le

theorem presentRow?_eq : s.presentRow? = some run.history.size :=
  represents.size_history ▸ Storage.presentRow?_eq represents.formed.one_le_saveEvery

theorem completeRows?_eq : s.completeRows? = some run.completeRows := by
  have positive := represents.formed.one_le_saveEvery
  rw [completeRows?, if_neg (by omega), represents.step, represents.saveEvery]
  rfl

theorem whole : run.present.size = s.plan.size :=
  represents.present ▸ represents.formed.size_rowAt represents.size_history_le

/-- The present row is replaced where it stands. -/
theorem withRow {row : Row α} (whole : row.size = s.plan.size) :
    (s.withRow run.history.size row).Represents { run with present := row } := by
  have within := represents.size_history_le
  refine ⟨represents.plan, represents.step, represents.formed.withRow within whole,
    represents.recorded, fun n saved found => ?_, ?_⟩
  · have early : n < run.history.size := (Array.getElem?_eq_some_iff.mp found).choose
    rw [represents.formed.rowAt_withRow within (by omega) whole, if_neg (Nat.ne_of_lt early)]
    exact represents.finished n saved found
  · show (s.withRow run.history.size row).rowAt run.history.size = row
    rw [represents.formed.rowAt_withRow within within whole, if_pos rfl]

omit represents in
/-- The row of the next step stands behind the settled one or over it. -/
theorem presentRow_moved (settled : s.Represents run.settle) (early : run.step < run.plan.clock.steps)
    (row : Row α) : ((s.moved row).step + (s.moved row).saveEvery - 1) / (s.moved row).saveEvery =
      run.advance.history.size := by
  have recorded : run.advance.IsRecorded :=
    (Simulation.Moves.advance early).isRecorded settled.recorded
  rw [recorded]
  show (s.step + 1 + s.saveEvery - 1) / s.saveEvery = (run.step + 1 + run.saveEvery - 1) / run.saveEvery
  rw [settled.step, settled.saveEvery]
  rfl

omit represents in
theorem moved (settled : s.Represents run.settle) (early : run.step < run.plan.clock.steps) {row : Row α}
    (here : row = run.plan.nextRow (run.plan.settle run.present)) :
    ((s.moved row).withRow run.advance.history.size row).Represents run.advance := by
  have whole : row.size = s.plan.size := by
    rw [here]
    exact (run.plan.size_nextRow _).trans settled.whole
  have first : s.step < s.plan.clock.steps := by
    rw [settled.step, settled.plan]
    exact early
  have formed := settled.formed.moved first whole
  have within : run.advance.history.size ≤ (s.moved row).savedRows :=
    settled.presentRow_moved early row ▸ formed.presentRow_le
  refine ⟨settled.plan, congrArg (· + 1) settled.step, formed.withRow within whole,
    (Simulation.Moves.advance early).isRecorded settled.recorded, fun m saved found => ?_, ?_⟩
  · have before : m < run.advance.history.size := (Array.getElem?_eq_some_iff.mp found).choose
    rw [formed.rowAt_withRow within (by omega) whole, if_neg (Nat.ne_of_lt before)]
    rcases Simulation.getElem?_history_advance found with old | ⟨rfl, rfl⟩
    · exact settled.finished m saved old
    · exact settled.present
  · rw [formed.rowAt_withRow within within whole, if_pos rfl, here]
    rfl

variable (fits : s.plan.FitsMemory) (bounded : s.plan.IsBounded)
include fits

include bounded in
theorem time?_eq : s.time? = some run.time := by
  rw [time?, bind_of_eq_some represents.presentRow?_eq,
    represents.formed.cell?_eq represents.size_history_le fits bounded.size_pos, represents.present]
  rfl

include bounded in
theorem settle?_eq [Scalar.Compares α] :
    s.settle? = some (s.withRow run.history.size (run.plan.settle run.present)) := by
  have within := represents.size_history_le
  have settled : (run.plan.settle run.present).size = s.plan.size :=
    (run.plan.size_settle run.present).trans represents.whole
  have row := represents.formed.row?_eq within fits
  rw [represents.present] at row
  rw [settle?, bind_of_eq_some represents.presentRow?_eq, bind_of_eq_some row,
    bind_of_eq_some (Row.assign?_eq (bounded.covers .flows) represents.whole),
    ← represents.formed.writeRow?_eq within fits settled, represents.plan]
  rfl

include bounded in
theorem settle [Scalar.Compares α] : ∃ t, s.settle? = some t ∧ t.Represents run.settle :=
  ⟨_, represents.settle?_eq fits bounded, represents.withRow
    ((run.plan.size_settle run.present).trans represents.whole)⟩

include bounded in
omit fits in
theorem time_settle : (run.plan.settle run.present).time = run.time := by
  rw [Plan.settle, Row.time, Row.get_assign_of_notMem]
  · rfl
  · rw [← represents.plan]
    exact bounded.timeless

include bounded in
/-- A step finds its rows, and writes the next row. -/
theorem advance [Scalar.Compares α] (early : run.step < run.plan.clock.steps) :
    ∃ t, s.advance? = some t ∧ t.Represents run.advance := by
  obtain ⟨settled, found, after⟩ := represents.settle fits bounded
  have same : settled.plan = s.plan := after.plan.trans represents.plan.symm
  generalize here : run.plan.nextRow (run.plan.settle run.present) = next
  have full : next.size = settled.plan.size := by
    rw [← here]
    exact (run.plan.size_nextRow _).trans after.whole
  refine ⟨_, ?_, after.moved early here.symm⟩
  rw [← same] at fits bounded
  have copied : settled.next.copy? run.settle.present = some run.settle.present :=
    if_pos (after.formed.next.trans after.whole.symm)
  have advanced : (Row.advance settled.plan.clock.dt run.settle.present
      (settled.plan.program .stocks)).setIfInBounds timeSlot (run.time + settled.plan.clock.dt) = next := by
    rw [after.plan, ← represents.time_settle (same ▸ bounded), ← here]
    rfl
  have sized : timeSlot < (Row.advance settled.plan.clock.dt run.settle.present
      (settled.plan.program .stocks)).size := by
    have := bounded.size_pos
    rwa [← full, ← advanced, Array.size_setIfInBounds] at this
  have row := after.formed.row?_eq after.size_history_le fits
  rw [after.present] at row
  rw [advance?, bind_of_eq_some (represents.time?_eq (same ▸ fits) (same ▸ bounded)),
    bind_of_eq_some found, bind_of_eq_some after.presentRow?_eq, bind_of_eq_some row,
    bind_of_eq_some copied, bind_of_eq_some (Row.advance?_eq (bounded.covers .stocks) after.whole),
    bind_of_eq_some (Row.put?_eq sized), advanced]
  have first : settled.step < settled.plan.clock.steps := by
    rw [after.step, after.plan]
    exact early
  have formed := after.formed.moved first full
  have place := after.presentRow_moved early next
  have within : run.advance.history.size ≤ (settled.moved next).savedRows := place ▸ formed.presentRow_le
  show (settled.moved next).presentRow? >>= ((settled.moved next).writeRow? · next) = _
  rw [Storage.presentRow?_eq formed.one_le_saveEvery, place]
  exact formed.writeRow?_eq within fits full

include bounded in
theorem advanceUntil [Scalar.Compares α] (past : α → Bool) {steps : Nat}
    (enough : run.step + steps ≤ run.plan.clock.steps) :
    ∃ t, s.advanceUntil? past steps = some t ∧ t.Represents (run.advanceUntil past steps) := by
  induction steps generalizing s run with
  | zero => exact ⟨s, rfl, represents⟩
  | succ steps ih =>
    rw [advanceUntil?, bind_of_eq_some (represents.time?_eq fits bounded), Simulation.advanceUntil]
    split
    · exact ⟨s, rfl, represents⟩
    · obtain ⟨t, found, after⟩ := represents.advance fits bounded (by omega)
      have same : t.plan = s.plan := after.plan.trans represents.plan.symm
      rw [bind_of_eq_some found]
      refine ih after (same ▸ fits) (same ▸ bounded) ?_
      show run.step + 1 + steps ≤ run.plan.clock.steps
      omega

include bounded in
theorem runUntil [Scalar.Compares α] (past : α → Bool) :
    ∃ t, s.runUntil? past = some t ∧ t.Represents (run.runUntil past) := by
  have steps : s.savedRows * s.saveEvery = run.plan.clock.steps := by
    rw [represents.formed.savedRows, represents.formed.saveEvery, represents.plan]
    rfl
  have early : run.step ≤ run.plan.clock.steps := by
    rw [← steps, ← represents.step]
    exact represents.formed.step
  have enough : run.step + (run.plan.clock.steps - run.step) ≤ run.plan.clock.steps := by omega
  obtain ⟨t, found, after⟩ := represents.advanceUntil fits bounded past enough
  have same : t.plan = s.plan := after.plan.trans
    ((Simulation.reaches_advanceUntil past _ enough).plan_eq.trans represents.plan.symm)
  obtain ⟨u, settled, last⟩ := after.settle (same ▸ fits) (same ▸ bounded)
  refine ⟨u, ?_, last⟩
  have product : Word.product? s.savedRows s.saveEvery = some run.plan.clock.steps := by
    rw [← steps]
    refine Word.product?_eq fits.steps (Nat.le_of_eq ?_)
    rw [represents.formed.savedRows, represents.formed.saveEvery]
  rw [runUntil?, bind_of_eq_some product, represents.step, bind_of_eq_some found, settled]

include bounded in
theorem set (name : Path) (value : α) : ∃ result, s.set? name value = some result ∧
    match result, run.set name value with
    | .ok t, .ok next => t.Represents next
    | .error fault, .error fault' => fault = fault'
    | _, _ => False := by
  unfold set? Simulation.set
  rw [represents.step, represents.plan]
  split
  · exact ⟨_, rfl, rfl⟩
  · cases found : run.plan.slot? name with
    | none => exact ⟨_, rfl, rfl⟩
    | some slot =>
      rw [← represents.plan] at found
      have inside := bounded.slot name slot found
      have within := represents.size_history_le
      dsimp only
      rw [bind_of_eq_some represents.presentRow?_eq,
        bind_of_eq_some (represents.formed.writeCell?_eq within fits inside), represents.present]
      refine ⟨_, rfl, represents.withRow ?_⟩
      rw [Array.size_setIfInBounds, represents.whole]

end Represents

/-- Storage is made anew for its plan, whatever it was. -/
theorem represents_reset [Scalar.Compares α] (fits : s.plan.FitsMemory) (bounded : s.plan.IsBounded)
    (next : s.next.size = s.plan.size) :
    ∃ t, s.reset? = some t ∧ t.Represents (Simulation.start s.plan) := by
  let blank : Storage α :=
    { s with
      savedRows := s.plan.clock.savedRows
      saveEvery := s.plan.clock.saveEvery
      step := 0
      cells := Array.replicate (s.plan.size * (s.plan.clock.savedRows + 1)) Scalar.zero
      next := s.next.map fun _ => Scalar.zero }
  have formed : blank.IsFormed :=
    ⟨rfl, rfl, Array.size_replicate, (Array.size_map ..).trans next, Nat.zero_le _⟩
  have first : 0 ≤ blank.savedRows := Nat.zero_le _
  have zeros : blank.rowAt 0 = Array.replicate s.plan.size Scalar.zero := by
    have bound := formed.row_le first
    rw [Nat.zero_mul, Nat.zero_add] at bound
    rw [rowAt, Nat.zero_mul, Nat.zero_add, Nat.one_mul]
    show (Array.replicate _ _).extract 0 s.plan.size = _
    rw [Array.extract_replicate, Nat.min_eq_left (by simpa [blank] using bound), Nat.sub_zero]
  have row := formed.row?_eq first fits
  rw [zeros] at row
  let timed : Row α := (Array.replicate s.plan.size Scalar.zero).setIfInBounds timeSlot s.plan.clock.start
  have put : Row.put? (Array.replicate s.plan.size Scalar.zero) timeSlot s.plan.clock.start = some timed :=
    Row.put?_eq (by rw [Array.size_replicate]; exact bounded.size_pos)
  have sized : timed.size = s.plan.size := by rw [Array.size_setIfInBounds, Array.size_replicate]
  have whole : s.plan.initialRow.size = blank.plan.size := s.plan.size_initialRow
  have assigned : timed.assign? s.plan.clock.dt (s.plan.program .initials) = some s.plan.initialRow :=
    Row.assign?_eq (bounded.covers .initials) sized
  refine ⟨blank.withRow 0 s.plan.initialRow, ?_, rfl, rfl, formed.withRow first whole,
    Simulation.isRecorded_start s.plan, nofun, ?_⟩
  · rw [reset?, bind_of_eq_some (Word.product?_eq fits.cells (Nat.le_refl _))]
    show blank.row? 0 >>= _ = _
    rw [bind_of_eq_some row, bind_of_eq_some put, bind_of_eq_some assigned]
    exact formed.writeRow?_eq first fits whole
  · show (blank.withRow 0 s.plan.initialRow).rowAt 0 = _
    rw [formed.rowAt_withRow first first whole, if_pos rfl]
    rfl

/-! ## Calls -/

/-- The storage after a call; one that is refused changes nothing. -/
def call? (s : Storage α) : Call α → Option (Storage α)
  | .reset => s.reset?
  | .runTo stop => (s.runTo? stop).map Prod.snd
  | .runToEnd => s.runToEnd?.map Prod.snd
  | .set name value => do
    let result ← s.set? name value
    return result.toOption.getD s

def after? (s : Storage α) (calls : List (Call α)) : Option (Storage α) := calls.foldlM call? s

namespace Represents

variable {run : Simulation α} (represents : s.Represents run) (fits : s.plan.FitsMemory)
  (bounded : s.plan.IsBounded)
include represents fits bounded

theorem call [Scalar.Compares α] (call : Call α) :
    ∃ t, s.call? call = some t ∧ t.Represents (run.call call) := by
  -- to read the time after a run changes nothing
  have ends : ∀ past : α → Bool, ∃ t, (do
      let s ← s.runUntil? past
      let time ← s.time?
      return (time, s)).map Prod.snd = some t ∧ t.Represents (run.runUntil past) := by
    intro past
    obtain ⟨t, found, after⟩ := represents.runUntil fits bounded past
    have same : t.plan = s.plan := after.plan.trans
      ((Simulation.reaches_runUntil past).plan_eq.trans represents.plan.symm)
    rw [bind_of_eq_some found, bind_of_eq_some (after.time?_eq (same ▸ fits) (same ▸ bounded))]
    exact ⟨t, rfl, after⟩
  cases call with
  | reset =>
    obtain ⟨t, found, after⟩ := represents_reset fits bounded represents.formed.next
    rw [represents.plan] at after
    exact ⟨t, found, after⟩
  | runTo stop => exact ends _
  | runToEnd => exact ends _
  | set name value =>
    obtain ⟨result, found, agrees⟩ := represents.set fits bounded name value
    refine ⟨result.toOption.getD s, bind_of_eq_some found _, ?_⟩
    show (result.toOption.getD s).Represents ((run.set name value).toOption.getD run)
    cases result with
    | ok t =>
      cases other : run.set name value with
      | ok next =>
        rw [other] at agrees
        exact agrees
      | error => simp [other] at agrees
    | error =>
      cases other : run.set name value with
      | ok => simp [other] at agrees
      | error => exact represents

/-- No sequence of calls leaves the cells, and what is stored is what the run has. -/
theorem after [Scalar.Compares α] (calls : List (Call α)) :
    ∃ t, s.after? calls = some t ∧ t.Represents (run.after calls) := by
  induction calls generalizing s run with
  | nil => exact ⟨s, rfl, represents⟩
  | cons call rest ih =>
    obtain ⟨t, found, after⟩ := represents.call fits bounded call
    have kept : (run.after [call]).plan = run.plan := Simulation.plan_after
    have same : t.plan = s.plan := after.plan.trans (kept.trans represents.plan.symm)
    obtain ⟨u, further, last⟩ := ih after (same ▸ fits) (same ▸ bounded)
    exact ⟨u, (bind_of_eq_some found _).trans further, last⟩

end Represents

theorem represents_start [Scalar.Compares α] {plan : Plan α} (fits : plan.FitsMemory)
    (bounded : plan.IsBounded) :
    ∃ s, start? plan = some s ∧ s.Represents (Simulation.start plan) :=
  represents_reset fits bounded Array.size_replicate

/-! ## Values -/

theorem mapM_of_forall {β γ : Type} {f : β → Option γ} {g : β → γ} {xs : List β}
    (each : ∀ x ∈ xs, f x = some (g x)) : xs.mapM f = some (xs.map g) := by
  induction xs with
  | nil => rfl
  | cons x rest ih =>
    obtain ⟨here, others⟩ := List.forall_mem_cons.mp each
    rw [List.mapM_cons, bind_of_eq_some here, bind_of_eq_some (ih others)]
    rfl

theorem IsFormed.rows?_eq (formed : s.IsFormed) (positive : 0 < s.plan.size) :
    s.rows? = some ((List.range (s.savedRows + 1)).map s.rowAt) := by
  rw [rows?, if_neg (Nat.ne_of_gt positive), formed.cells, Simulation.div_of_mul positive]
  rfl

namespace Represents

variable {run : Simulation α} (represents : s.Represents run)
include represents

/-- The row last due is one of those that the cells have. -/
theorem rowAt_completeRows :
    run.completeRows ≤ s.savedRows ∧ s.rowAt run.completeRows = run.dueRow := by
  have bound := represents.recorded.completeRows_le
  refine ⟨Nat.le_trans bound represents.size_history_le, ?_⟩
  rw [Simulation.dueRow]
  rcases Nat.lt_or_eq_of_le bound with before | last
  · have found := Array.getElem?_eq_getElem before
    rw [found]
    exact represents.finished _ _ found
  · rw [last, Array.getElem?_eq_none (Nat.le_refl _)]
    exact represents.present

theorem map_rowAt : (List.range run.completeRows).map s.rowAt = run.savedHistory := by
  have bound := represents.recorded.completeRows_le
  refine List.ext_getElem? fun n => ?_
  rw [Simulation.savedHistory, List.getElem?_map, List.getElem?_take]
  by_cases early : n < run.completeRows
  · have found := Array.getElem?_eq_getElem (Nat.lt_of_lt_of_le early bound)
    have listed : run.history.toList[n]? = _ := Array.getElem?_toList.trans found
    rw [List.getElem?_range early, if_pos early, listed]
    exact congrArg some (represents.finished n _ found)
  · rw [if_neg early, List.getElem?_eq_none (by rw [List.length_range]; omega)]
    rfl

variable (bounded : s.plan.IsBounded)
include bounded

theorem value?_eq (fits : s.plan.FitsMemory) (name : Path) :
    s.value? name = some (run.value? name) := by
  unfold value? Simulation.value?
  rw [← represents.plan]
  cases found : s.plan.slot? name with
  | none => rfl
  | some slot =>
    obtain ⟨within, row⟩ := represents.rowAt_completeRows
    dsimp only
    rw [bind_of_eq_some represents.completeRows?_eq,
      bind_of_eq_some (represents.formed.cell?_eq within fits (bounded.slot name slot found)), row]
    rfl

theorem series?_eq (name : Path) : s.series? name = some (run.series? name) := by
  unfold series? Simulation.series?
  rw [← represents.plan]
  cases found : s.plan.slot? name with
  | none => rfl
  | some slot =>
    obtain ⟨within, -⟩ := represents.rowAt_completeRows
    have rows : ((List.range (s.savedRows + 1)).map s.rowAt).take run.completeRows = run.savedHistory := by
      rw [← List.map_take, List.take_range, Nat.min_eq_left (by omega), represents.map_rowAt]
    have column : ∀ slot < s.plan.size,
        run.savedHistory.mapM (·[slot]?) = some (run.savedHistory.map (·.get slot)) := by
      intro slot inside
      refine mapM_of_forall fun row member => Row.getElem?_eq_get ?_
      rw [← represents.map_rowAt] at member
      obtain ⟨n, among, rfl⟩ := List.mem_map.mp member
      rw [represents.formed.size_rowAt (by have := List.mem_range.mp among; omega)]
      exact inside
    dsimp only
    rw [bind_of_eq_some represents.completeRows?_eq,
      bind_of_eq_some (represents.formed.rows?_eq bounded.size_pos), rows,
      bind_of_eq_some (column _ bounded.size_pos),
      bind_of_eq_some (column slot (bounded.slot name slot found))]
    rfl

end Represents

/-! ## All places -/

/-- A run never leaves its storage. The code of every instance stays within a row. After any calls the
storage has a row for every save point and one more, each step up to the last one takes place in one of
them, and so do the time, every value and every series, which are those of the run. -/
theorem stays_inside {document : Document.Project Float} {project : Project Float} {plan : Plan Float}
    (compiled : Project.compile document = .ok project) (planned : Plan.ofProject project = .ok plan)
    (fits : plan.FitsMemory) :
    (∀ path node, plan.root.descend? path = some node → ∀ phase a,
      .assign a ∈ node.note.phase phase →
        a.slot < plan.size ∧ ∀ slot ∈ a.term.reads, slot < plan.size) ∧
    ∃ origin, start? plan = some origin ∧ ∀ calls, ∃ s, origin.after? calls = some s ∧
      s.plan = plan ∧ s.step ≤ s.savedRows * s.saveEvery ∧
      s.cells.size = plan.size * (s.savedRows + 1) ∧ 1 ≤ plan.size ∧ 1 ≤ s.saveEvery ∧
      (∀ step ≤ s.savedRows * s.saveEvery,
        ∃ n ≤ s.savedRows, { s with step : Storage Float }.presentRow? = some n) ∧
      (∃ n ≤ s.savedRows, s.completeRows? = some n) ∧
      s.time? = some ((Simulation.start plan).after calls).time ∧
      ∀ name, s.value? name = some (((Simulation.start plan).after calls).value? name) ∧
        s.series? name = some (((Simulation.start plan).after calls).series? name) := by
  have bounded := Plan.isBounded_of_ofProject compiled planned
  refine ⟨fun path node leads phase a member => ?_, ?_⟩
  · have covers := Plan.covers_of_descend? compiled planned leads member
    exact ⟨covers.slot, covers.reads⟩
  · obtain ⟨origin, ready, first⟩ := represents_start fits bounded
    have same : origin.plan = plan := first.plan
    refine ⟨origin, ready, fun calls => ?_⟩
    obtain ⟨s, found, represents⟩ := first.after (same ▸ fits) (same ▸ bounded) calls
    have same : s.plan = plan := represents.plan.trans Simulation.plan_after
    rw [← same] at fits bounded
    have formed := represents.formed
    refine ⟨s, found, same, formed.step, same ▸ formed.cells, same ▸ bounded.size_pos,
      formed.one_le_saveEvery, fun step early => ?_, ⟨_, represents.rowAt_completeRows.1,
        represents.completeRows?_eq⟩, represents.time?_eq fits bounded, fun name =>
          ⟨represents.value?_eq bounded fits name, represents.series?_eq bounded name⟩⟩
    have other : IsFormed { s with step } :=
      ⟨formed.savedRows, formed.saveEvery, formed.cells, formed.next, early⟩
    exact ⟨_, other.presentRow_le, presentRow?_eq other.one_le_saveEvery⟩

theorem stays_inside_nested : ∃ project plan, Project.compile Plan.nested = .ok project ∧
    Plan.ofProject project = .ok plan ∧ ∃ origin s, start? plan = some origin ∧
      origin.after? [.set "a" 2, .runTo 1, .reset, .runToEnd] = some s ∧
        s.step ≤ s.savedRows * s.saveEvery ∧ s.cells.size = plan.size * (s.savedRows + 1) := by
  have check : ∃ project ∈ (Project.compile Plan.nested).toOption,
      ∃ plan ∈ (Plan.ofProject project).toOption,
        plan.size * (plan.clock.savedRows + 1) < UInt64.size ∧
          plan.clock.savedRows * plan.clock.saveEvery < UInt64.size := by
    rw [Project.compile_eq]
    decide +kernel
  obtain ⟨project, compiled, plan, planned, cells, steps⟩ := check
  have compiled := toOption_eq_some.mp compiled
  have planned := toOption_eq_some.mp planned
  obtain ⟨-, origin, ready, calls⟩ := stays_inside compiled planned ⟨cells, steps⟩
  obtain ⟨s, found, -, early, size, -⟩ := calls [.set "a" 2, .runTo 1, .reset, .runToEnd]
  exact ⟨project, plan, compiled, planned, origin, s, ready, found, early, size⟩

end Storage
end StockFlow
