import StockFlow.Run.Simulation

/-!
# Storage

A run as it lies in memory. The rows of all save points stand one after the other in a block of cells
that is made when the run is reset; the next row is written aside and then copied into its place. A
place outside of what it should lie in, a size that no machine word holds and a copy between rows of
different lengths have no result.
-/

namespace StockFlow

variable {α : Type} [Scalar α]

/-! ## Values -/

namespace Table

/-- Halves the indices from `low` up to `high` down to the first point not before `x`. -/
def search? (table : Table α) (x : α) : Nat → Nat → Nat → Option Nat
  | 0, low, high => if low < high then none else some low
  | steps + 1, low, high =>
    if low < high then do
      let middle := low + (high - low) / 2
      let point ← table.points[middle]?
      if Scalar.lt point.1 x then search? table x steps (middle + 1) high
      else search? table x steps low middle
    else some low

/-- The height of a curve between its end points. -/
def between? (table : Table α) (x : α) : Option α := do
  let i ← table.search? x table.points.size 0 table.points.size
  let right ← table.points[i]?
  if Scalar.close right.1 x then return right.2
  else if i = 0 then none
  else
    let left ← table.points[i - 1]?
    return interpolate left right x

def height? (table : Table α) (x : α) : Option α :=
  if table.points.size = 0 || Scalar.isUndefined x then some Scalar.undefined
  else do
    let first ← table.points[0]?
    if Scalar.le x first.1 then return first.2
    else
      let last ← table.points[table.points.size - 1]?
      if Scalar.le last.1 x then return last.2 else table.between? x

end Table

/-- The value of a term, if every slot and every point that it takes is there. -/
def Term.value? (dt : α) (row : Row α) : Term α → Option α
  | constant x => some x
  | slot index => row[index]?
  | infinity => some Scalar.infinity
  | pi => some Scalar.pi
  | elementary function argument => do
    let x ← argument.value? dt row
    return Scalar.elementary function x
  | maximum left right => do
    let x ← left.value? dt row
    let y ← right.value? dt row
    return Scalar.maximum x y
  | minimum left right => do
    let x ← left.value? dt row
    let y ← right.value? dt row
    return Scalar.minimum x y
  | pulse volume first interval => do
    let time ← row[timeSlot]?
    let volume ← volume.value? dt row
    let first ← first.value? dt row
    let interval ← interval.value? dt row
    return Pulse.height dt time volume first interval
  | quotient left right => do
    let x ← left.value? dt row
    let divisor ← right.value? dt row
    return if Scalar.same divisor Scalar.zero then Scalar.zero else x / divisor
  | quotientOr left right otherwise => do
    let x ← left.value? dt row
    let divisor ← right.value? dt row
    if Scalar.same divisor Scalar.zero then otherwise.value? dt row else return x / divisor
  | lookup _ table? argument => do
    let x ← argument.value? dt row
    match table? with
    | some table => table.height? x
    | none => return Scalar.undefined
  | not operand => do
    let x ← operand.value? dt row
    return Scalar.ofBool (!Scalar.isTrue x)
  | binary operator left right => do
    let x ← left.value? dt row
    let y ← right.value? dt row
    return operator.apply x y
  | conditional condition whenTrue whenFalse => do
    let x ← condition.value? dt row
    if Scalar.isTrue x then whenTrue.value? dt row else whenFalse.value? dt row

/-! ## Rows -/

namespace Row

def put? (row : Row α) (slot : Nat) (x : α) : Option (Row α) :=
  if slot < row.size then some (row.setIfInBounds slot x) else none

def copy? (target source : Row α) : Option (Row α) :=
  if target.size = source.size then some source else none

/-- Makes assignments one after the other; each reads what those before it wrote. -/
def assign? (dt : α) (row : Row α) (program : List (Assignment α)) : Option (Row α) :=
  program.foldlM (fun row a => do row.put? a.slot (← a.term.value? dt row)) row

/-- Makes assignments in `next`; all read `row`. -/
def advance? (dt : α) (row next : Row α) (program : List (Assignment α)) : Option (Row α) :=
  program.foldlM (fun next a => do next.put? a.slot (← a.term.value? dt row)) next

end Row

/-! ## Storage -/

/-- The product of two sizes, if a machine word holds it. -/
def Word.product? (m n : Nat) : Option Nat := if m * n < UInt64.size then some (m * n) else none

structure Storage (α : Type) where
  plan : Plan α
  savedRows : Nat
  saveEvery : Nat
  step : Nat
  /-- The rows of all save points and a last one, in which the run ends. -/
  cells : Array α
  /-- Where the next row is written. -/
  next : Row α

namespace Storage

/-! ### Places -/

/-- The number of the row in which a step takes place: rows that are due are followed by a new one. -/
def presentRow? (s : Storage α) : Option Nat :=
  if s.saveEvery = 0 then none
  else some (s.step / s.saveEvery + if s.step % s.saveEvery = 0 then 0 else 1)

def completeRows? (s : Storage α) : Option Nat :=
  if s.saveEvery = 0 then none else some (s.step / s.saveEvery)

def row? (s : Storage α) (n : Nat) : Option (Row α) := do
  let first ← Word.product? n s.plan.size
  let last ← Word.product? (n + 1) s.plan.size
  if last ≤ s.cells.size then some (s.cells.extract first last) else none

def writeRow? (s : Storage α) (n : Nat) (row : Row α) : Option (Storage α) := do
  let first ← Word.product? n s.plan.size
  let last ← Word.product? (n + 1) s.plan.size
  if last ≤ s.cells.size ∧ row.size = last - first then
    some { s with
      cells := s.cells.extract 0 first ++ row ++ s.cells.extract last s.cells.size }
  else none

def cell? (s : Storage α) (n slot : Nat) : Option α := do
  let first ← Word.product? n s.plan.size
  s.cells[first + slot]?

def writeCell? (s : Storage α) (n slot : Nat) (x : α) : Option (Storage α) := do
  let first ← Word.product? n s.plan.size
  if first + slot < s.cells.size then
    some { s with cells := s.cells.setIfInBounds (first + slot) x }
  else none

/-- The cells in parts of the length of a row. -/
def rows? (s : Storage α) : Option (List (Row α)) :=
  let size := s.plan.size
  if size = 0 then none
  else some ((List.range ((s.cells.size + size - 1) / size)).map fun n =>
    s.cells.extract (n * size) ((n + 1) * size))

/-! ### Runs -/

/-- Makes the block of cells and computes its first row. -/
def reset? (s : Storage α) : Option (Storage α) := do
  let clock := s.plan.clock
  let length ← Word.product? s.plan.size (clock.savedRows + 1)
  let blank : Storage α :=
    { s with
      savedRows := clock.savedRows
      saveEvery := clock.saveEvery
      step := 0
      cells := Array.replicate length Scalar.zero
      next := s.next.map fun _ => Scalar.zero }
  let row ← blank.row? 0
  let row ← row.put? timeSlot clock.start
  let row ← row.assign? clock.dt (s.plan.program .initials)
  blank.writeRow? 0 row

def start? (plan : Plan α) : Option (Storage α) :=
  reset? { plan, savedRows := 0, saveEvery := 1, step := 0, cells := #[],
           next := Array.replicate plan.size Scalar.zero }

def time? (s : Storage α) : Option α := do
  let n ← s.presentRow?
  s.cell? n timeSlot

/-- Computes the flows of the present row. -/
def settle? (s : Storage α) : Option (Storage α) := do
  let n ← s.presentRow?
  let row ← s.row? n
  let settled ← row.assign? s.plan.clock.dt (s.plan.program .flows)
  s.writeRow? n settled

def advance? (s : Storage α) : Option (Storage α) := do
  let time ← s.time?
  let s ← s.settle?
  let n ← s.presentRow?
  let row ← s.row? n
  let next ← s.next.copy? row
  let next ← row.advance? s.plan.clock.dt next (s.plan.program .stocks)
  let next ← next.put? timeSlot (time + s.plan.clock.dt)
  let s := { s with step := s.step + 1, next }
  let n ← s.presentRow?
  s.writeRow? n next

def advanceUntil? (past : α → Bool) : Nat → Storage α → Option (Storage α)
  | 0, s => some s
  | steps + 1, s => do
    let time ← s.time?
    if past time then some s
    else
      let s ← s.advance?
      s.advanceUntil? past steps

def runUntil? (past : α → Bool) (s : Storage α) : Option (Storage α) := do
  let steps ← Word.product? s.savedRows s.saveEvery
  let s ← s.advanceUntil? past (steps - s.step)
  s.settle?

/-- Runs until the time is past `stop`; answers with the time then. -/
def runTo? (s : Storage α) (stop : α) : Option (α × Storage α) := do
  let s ← s.runUntil? fun time => Scalar.lt stop time
  let time ← s.time?
  return (time, s)

def runToEnd? (s : Storage α) : Option (α × Storage α) := do
  let s ← s.runUntil? fun _ => false
  let time ← s.time?
  return (time, s)

/-! ### Values -/

def set? (s : Storage α) (name : Path) (value : α) : Option (Except Fault (Storage α)) :=
  if s.step ≠ 0 then
    some (.error (.simulation .alreadyStepped
      ("can't set '" ++ name ++ "' after the simulation has started")))
  else
    match s.plan.slot? name with
    | none => some (.error (.simulation .unresolvedReference name))
    | some slot => do
      let n ← s.presentRow?
      let s ← s.writeCell? n slot value
      return .ok s

/-- The value of a variable in the row last due, if it has one. -/
def value? (s : Storage α) (name : Path) : Option (Option α) :=
  match s.plan.slot? name with
  | none => some none
  | some slot => do
    let n ← s.completeRows?
    let value ← s.cell? n slot
    return some value

def series? (s : Storage α) (name : Path) : Option (Option (Series α)) :=
  match s.plan.slot? name with
  | none => some none
  | some slot => do
    let n ← s.completeRows?
    let rows ← s.rows?
    let time ← (rows.take n).mapM (·[timeSlot]?)
    let values ← (rows.take n).mapM (·[slot]?)
    return some ⟨name, time, values⟩

end Storage
end StockFlow
