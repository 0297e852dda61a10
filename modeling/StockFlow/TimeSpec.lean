import StockFlow.Fault
import StockFlow.Number.Scalar

/-!
# Time specifications

When a run starts and stops, the length of a step, and how often a row is saved.
-/

namespace StockFlow

/-- The time specification of a project or a model. -/
structure TimeSpec (α : Type) where
  start : α
  stop : α
  dt : α
  saveStep? : Option α
  deriving Repr

namespace TimeSpec

variable {α : Type} [Scalar α]

/-- The time between saved rows: a step unless it is given and not zero. -/
def saveStep (spec : TimeSpec α) : α :=
  match spec.saveStep? with
  | some saveStep => if Scalar.same saveStep Scalar.zero then spec.dt else saveStep
  | none => spec.dt

def fault (details : String) : Except Fault Unit := .error (.simulation .badTimeSpec details)

/-- A time specification can be run if its times are finite, its step is positive, it does not stop
before it starts, and it does not save more often than it steps. -/
def validate (spec : TimeSpec α) : Except Fault Unit :=
  if !(Scalar.isFinite spec.start && Scalar.isFinite spec.stop && Scalar.isFinite spec.dt &&
      Scalar.isFinite spec.saveStep) then
    fault "time specs must be finite"
  else if Scalar.le spec.dt Scalar.zero then
    fault ("dt must be positive, not " ++ Scalar.display spec.dt)
  else if Scalar.lt spec.stop spec.start then
    fault ("stop (" ++ Scalar.display spec.stop ++ ") before start (" ++
      Scalar.display spec.start ++ ")")
  else if Scalar.lt spec.saveStep spec.dt then
    fault ("save_step (" ++ Scalar.display spec.saveStep ++ ") smaller than dt (" ++
      Scalar.display spec.dt ++ ")")
  else .ok ()

end TimeSpec
end StockFlow
