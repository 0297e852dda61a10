import StockFlow.TimeSpec

/-!
# Clocks

The times of a run after validation, and how many steps and rows they make.
-/

namespace StockFlow

structure Clock (α : Type) where
  start : α
  stop : α
  dt : α
  saveStep : α
  deriving Repr

namespace Clock

variable {α : Type} [Scalar α]

def ofSpec (spec : TimeSpec α) : Clock α := ⟨spec.start, spec.stop, spec.dt, spec.saveStep⟩

/-- How many rows a run saves: one at the start and one for every save step that fits. -/
def savedRows (clock : Clock α) : Nat :=
  Scalar.count ((clock.stop - clock.start) / clock.saveStep + Scalar.ofNat 1)

/-- How many steps lie between saved rows: the nearest number, but at least one. -/
def saveEvery (clock : Clock α) : Nat :=
  max 1 (Scalar.count (clock.saveStep / clock.dt + Scalar.ofNat 1 / Scalar.ofNat 2))

def steps (clock : Clock α) : Nat := clock.savedRows * clock.saveEvery

theorem one_le_saveEvery (clock : Clock α) : 1 ≤ clock.saveEvery := Nat.le_max_left ..

end Clock
end StockFlow
