import StockFlow.Keyed

/-!
# Evaluation order

A list of names in which each comes after those of the list that it depends on. The walk goes down
the dependencies in their order and puts a name behind them; names outside the list are passed over.
-/

namespace StockFlow.Order

/-- The names still to be listed, and those listed so far. -/
structure Progress where
  waiting : List Name
  listed : List Name
  deriving DecidableEq, Repr

/-- Lists a name behind its dependencies, if it is waiting. Each step down takes a name off the
waiting ones, so their number bounds the depth. -/
def visit (dependencies : Keyed NameSet) : Nat → Progress → Name → Progress
  | 0, progress, _ => progress
  | depth + 1, progress, name =>
    if name ∈ progress.waiting then
      let before := ((dependencies.get? name).getD []).foldl (visit dependencies depth)
        { progress with waiting := progress.waiting.erase name }
      { before with listed := before.listed ++ [name] }
    else progress

def sort (dependencies : Keyed NameSet) (names : List Name) : List Name :=
  (names.foldl (visit dependencies names.length) ⟨names, []⟩).listed

end StockFlow.Order
