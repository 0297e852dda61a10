import StockFlow.Number.Scalar

/-!
# Pulses

A pulse delivers a volume within one step: it has the height `volume / dt` during a window of length
`dt`, at a first time and, with a positive interval, again and again.
-/

namespace StockFlow.Pulse

variable {α : Type} [Scalar α]

/-- The height at `time` of the windows that start at `next` and later, at most `count` of them. -/
def heightFrom (dt time volume interval : α) : Nat → α → α
  | 0, _ => Scalar.zero
  | count + 1, next =>
    if Scalar.le next time then
      if Scalar.lt time (next + dt) then volume / dt
      else if Scalar.le interval Scalar.zero then Scalar.zero
      else heightFrom dt time volume interval count (next + interval)
    else Scalar.zero

/-- How many windows can start up to `time`; twice as many as the interval fits in leave room for
rounding. -/
def windows (time first interval : α) : Nat := 2 * Scalar.count ((time - first) / interval) + 2

def height (dt time volume first interval : α) : α :=
  if Scalar.lt time first then Scalar.zero
  else heightFrom dt time volume interval (windows time first interval) first

end StockFlow.Pulse
