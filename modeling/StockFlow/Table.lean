import StockFlow.Document.Basic

/-!
# Tables

A graphical function that has been checked: points in the order of their horizontal positions. A
look-up interpolates between neighbouring points and keeps to the end values outside.
-/

namespace StockFlow

structure Table (α : Type) where
  points : Array (α × α)
  deriving Repr

namespace Table

variable {α : Type} [Scalar α]

/-! ## Building -/

/-- `count` positions that divide a range evenly; a single one lies at the lower end. -/
def spread (ends : α × α) (count : Nat) : List α :=
  if count = 1 then [ends.1]
  else
    (List.range count).map fun i =>
      Scalar.ofNat i / (Scalar.ofNat count - Scalar.ofNat 1) * (ends.2 - ends.1) + ends.1

/-- The horizontal positions of a graphical function: explicit ones come first. -/
def positions? (graph : GraphicalFunction α) : Option (List α) :=
  match graph.xPoints?, graph.xScale? with
  | some xs, _ => some xs
  | none, some ends => some (spread ends graph.yPoints.length)
  | none, none => none

def decreases : List α → Bool
  | x :: y :: rest => Scalar.lt y x || decreases (y :: rest)
  | _ => false

def fault {β : Type} (details : String) : Except EquationFault β :=
  .error ⟨.invalidTable, some details⟩

def build (graph : GraphicalFunction α) : Except EquationFault (Table α) :=
  match positions? graph with
  | none => fault "no x points or x scale"
  | some xs =>
    let ys := graph.yPoints
    if xs.isEmpty then fault "empty table"
    else if xs.length ≠ ys.length then
      fault (toString xs.length ++ " x points but " ++ toString ys.length ++ " y points")
    else if (xs ++ ys).any (!Scalar.isFinite ·) then fault "non-finite point"
    else if decreases xs then fault "x points must be non-decreasing"
    else .ok ⟨(xs.zip ys).toArray⟩

/-! ## Looking up -/

def point (table : Table α) (i : Nat) : α × α :=
  table.points.getD i (Scalar.undefined, Scalar.undefined)

/-- Halves the indices from `low` up to `high` down to the first point not before `x`. -/
def firstNotBefore (table : Table α) (x : α) : Nat → Nat → Nat → Nat
  | 0, low, _ => low
  | steps + 1, low, high =>
    if low < high then
      let middle := low + (high - low) / 2
      if Scalar.lt (table.point middle).1 x then firstNotBefore table x steps (middle + 1) high
      else firstNotBefore table x steps low middle
    else low

/-- The height between two points on the line through them. -/
def interpolate (left right : α × α) (x : α) : α :=
  (x - left.1) * ((right.2 - left.2) / (right.1 - left.1)) + left.2

def lookup (table : Table α) (x : α) : α :=
  let size := table.points.size
  let first := table.point 0
  let last := table.point (size - 1)
  if size = 0 || Scalar.isUndefined x then Scalar.undefined
  else if Scalar.le x first.1 then first.2
  else if Scalar.le last.1 x then last.2
  else
    let i := table.firstNotBefore x size 0 size
    let right := table.point i
    if Scalar.close right.1 x then right.2
    else interpolate (table.point (i - 1)) right x

end Table
end StockFlow
