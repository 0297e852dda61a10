import StockFlow.Document.Basic
import StockFlow.Equation.Printer

/-!
# Library models

The models behind the stateful functions. Each has the inputs `input`, `delay_time` and
`initial_value`, with values of their own for the inputs that a call leaves out, and a variable
`output`. A delay is a chain of stocks that drain into each other; a smoother is a chain of stocks
that follow each other; a trend compares its input with a smoothed average.
-/

namespace StockFlow.Library

open Equation Document

variable {α : Type} [Scalar α]

def minus (left right : Equation α) : Equation α := .binary .sub left right

def times (left right : Equation α) : Equation α := .binary .mul left right

def dividedBy (left right : Equation α) : Equation α := .binary .div left right

def auxiliary (name : Name) (equation : Equation α) : Variable α :=
  .auxiliary ⟨name, equation.print, some equation, none⟩

def flow (name : Name) (equation : Equation α) : Variable α :=
  .flow ⟨name, equation.print, some equation, none, false⟩

/-- A stock given by its initial value and its flows. -/
def stock (name : Name) (initial : Equation α) (inflows outflows : List Name) : Variable α :=
  .stock ⟨name, initial.print, some initial, inflows, outflows, false⟩

/-- The inputs of a library model, then its other variables. -/
def withInputs (function : Stateful) (initialValue : Equation α) (others : List (Variable α)) :
    Model α :=
  ⟨Stateful.modelName function.name, none,
    auxiliary "input" (natural 0) :: auxiliary "delay_time" (natural 1) ::
      auxiliary "initial_value" initialValue :: others⟩

def stageTime : Equation α := dividedBy (.reference "delay_time") (natural 3)

/-- The rate at which a stage approaches what it follows. -/
def approach (target level : Name) (time : Equation α) : Equation α :=
  dividedBy (minus (.reference target) (.reference level)) time

def smooth1 : Model α :=
  withInputs .smooth1 (.reference "input") [
    stock "output" (.reference "initial_value") ["flow"] [],
    flow "flow" (approach "input" "output" (.reference "delay_time"))]

def smooth3 : Model α :=
  withInputs .smooth3 (.reference "input") [
    stock "stock_1" (.reference "initial_value") ["flow_1"] [],
    stock "stock_2" (.reference "initial_value") ["flow_2"] [],
    stock "output" (.reference "initial_value") ["flow_3"] [],
    flow "flow_1" (approach "input" "stock_1" stageTime),
    flow "flow_2" (approach "stock_1" "stock_2" stageTime),
    flow "flow_3" (approach "stock_2" "output" stageTime)]

/-- A stock that the input fills and that drains in the delay time. -/
def delay1 : Model α :=
  withInputs .delay1 (.reference "input") [
    stock "contents" (times (.reference "initial_value") (.reference "delay_time"))
      ["input"] ["output"],
    flow "output" (dividedBy (.reference "contents") (.reference "delay_time"))]

/-- Three stocks that drain into each other, each in a third of the delay time. -/
def delay3 : Model α :=
  let contents : Equation α := times (.reference "initial_value") stageTime
  withInputs .delay3 (.reference "input") [
    stock "stock_1" contents ["input"] ["flow_1"],
    stock "stock_2" contents ["flow_1"] ["flow_2"],
    stock "stock_3" contents ["flow_2"] ["output"],
    flow "flow_1" (dividedBy (.reference "stock_1") stageTime),
    flow "flow_2" (dividedBy (.reference "stock_2") stageTime),
    flow "output" (dividedBy (.reference "stock_3") stageTime)]

/-- The relative distance of the input from its average. The initial value is a rate of growth. -/
def trend : Model α :=
  let growth : Equation α :=
    .binary .add (natural 1) (times (.reference "initial_value") (.reference "delay_time"))
  withInputs .trend (natural 0) [
    stock "average" (dividedBy (.reference "input") growth) ["change_in_average"] [],
    flow "change_in_average" (approach "input" "average" (.reference "delay_time")),
    auxiliary "output" (.call "safediv" [
      minus (.reference "input") (.reference "average"),
      times (.reference "average") (.reference "delay_time")])]

def model : Stateful → Model α
  | .delay1 => delay1
  | .delay3 => delay3
  | .smooth1 => smooth1
  | .smooth3 => smooth3
  | .trend => trend

/-- The model behind the stateful function of a name. -/
def model? (function : Name) : Option (Model α) := (Stateful.ofName? function).map model

end StockFlow.Library
