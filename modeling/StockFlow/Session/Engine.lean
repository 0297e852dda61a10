import StockFlow.Run.Simulation
import StockFlow.Session.Command

/-!
# Engines

A simulation that answers requests. A request is a list of an identification, a command word and
arguments; every request has one response `[id, [result, error]]`, where `error` is `null` unless the
request failed. A request that fails leaves the engine as it was.
-/

namespace StockFlow

/-- A simulation with the series that its host wants at the end of a run. -/
structure Engine (α : Type) where
  simulation : Simulation α
  desired? : Option (List Path)

namespace Engine

variable {α : Type} [Scalar α]

def start (simulation : Simulation α) : Engine α := ⟨simulation, none⟩

/-! ## Answers -/

/-- The answer of a command that has nothing to tell. -/
def done : Value α := .text "ok"

def seriesValue (series : Series α) : Value α :=
  .record [("name", .text series.name), ("time", .list (series.time.map Value.ofNumber)),
    ("values", .list (series.values.map Value.ofNumber))]

/-- A record of what each name has; `null` for a name that has nothing. -/
def recordOf (names : List Path) (find : Path → Option (Value α)) : Value α :=
  .record (Keyed.ofList (names.map fun name => (name, (find name).getD .null)))

def values (engine : Engine α) (names : List Path) : Value α :=
  recordOf names fun name => (engine.simulation.value? name).map Value.ofNumber

def series (engine : Engine α) (names : List Path) : Value α :=
  recordOf names fun name => (engine.simulation.series? name).map seriesValue

/-! ## Requests -/

def execute (engine : Engine α) : Command α → Except Fault (Value α × Engine α)
  | .reset => .ok (done, { engine with simulation := engine.simulation.reset })
  | .setValue name value => do
    let simulation ← engine.simulation.set name value
    return (done, { engine with simulation })
  | .getValues names => .ok (engine.values names, engine)
  | .getSeries names => .ok (engine.series names, engine)
  | .runTo time =>
    let simulation := engine.simulation.runTo time
    .ok (.ofNumber simulation.time, { engine with simulation })
  | .runToEnd =>
    let engine := { engine with simulation := engine.simulation.runToEnd }
    let answer :=
      match engine.desired? with
      | some names => engine.series names
      | none => .ofNumber engine.simulation.time
    .ok (answer, engine)
  | .setDesired names => .ok (done, { engine with desired? := some names })

/-- A value as it is shown in messages: a text without quotes. -/
def display : Value α → String
  | .text value => value
  | value => value.render

def describe : Value α → String
  | .list parts => String.intercalate ", " (parts.map display)
  | request => display request

/-- The message of a request that has no result. -/
def noResult (request : Value α) : String := "no result for [" ++ describe request ++ "]"

/-- The text of a fault in a response: of a fault in the request only its details. -/
def errorText (fault : Fault) : String :=
  match fault.kind, fault.details with
  | .protocol, some details => details
  | _, _ => fault.message

def success (id result : Value α) : Value α := .list [id, .list [result, .null]]

def failure (id : Value α) (message : String) : Value α := .list [id, .list [.null, .text message]]

def readCommand (request word : Value α) (arguments : List (Value α)) :
    Except Fault (Command α) := do
  let command? ←
    match word with
    | .text word => Command.parse word arguments
    | word => Command.unknown word.render
  match command? with
  | some command => return command
  | none => .error (.protocol .malformedResult (noResult request))

def handle (engine : Engine α) (request : Value α) : Value α × Engine α :=
  match request with
  | .list (id :: word :: arguments) =>
    match (readCommand request word arguments).bind engine.execute with
    | .ok (result, engine) => (success id result, engine)
    | .error fault => (failure id (errorText fault), engine)
  | .list (id :: []) => (failure id (noResult request), engine)
  | _ => (failure .null (noResult request), engine)

end Engine
end StockFlow
