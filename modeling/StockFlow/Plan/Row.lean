import StockFlow.Number.Scalar

/-!
# Rows

The values of all variables of a run at one time, each in a slot of its own. The first slot holds
the time.
-/

namespace StockFlow

abbrev Row (α : Type) := Array α

def timeSlot : Nat := 0

namespace Row

variable {α : Type} [Scalar α]

def get (row : Row α) (slot : Nat) : α := row.getD slot Scalar.undefined

def time (row : Row α) : α := row.get timeSlot

end Row
end StockFlow
