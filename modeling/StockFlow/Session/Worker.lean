import StockFlow.Session.Engine

/-!
# Workers

An engine behind lines of text: each line that is not blank holds a request and has one line as its
answer. A worker also numbers requests of its own.
-/

namespace StockFlow

/-- An engine with the number of its next own request. -/
structure Worker (α : Type) where
  engine : Engine α
  nextId : Nat

inductive Answer (α : Type) where
  | silence
  | malformed
  | response (value : Value α)
  deriving Repr

namespace Answer

variable {α : Type} [Scalar α]

/-- The line of an answer, with what the reader has to say of a line that is no JSON. -/
def write? (complaint : String) : Answer α → Option String
  | silence => none
  | malformed => some (Engine.failure (.null : Value α) complaint).render
  | response value => some value.render

def text? (answer : Answer α) : Option String := answer.write? "malformed request"

end Answer

namespace Worker

variable {α : Type} [Scalar α]

/-- Compiles a project and starts a worker for it. -/
def start (project : Except Fault (Project α)) : Except Fault (Worker α) := do
  let simulation ← Simulation.ofProject (← project)
  return ⟨Engine.start simulation, 1⟩

def startFailure (fault : Fault) : String := "failed to compile project: " ++ fault.message

def send (worker : Worker α) (request : Value α) : Value α × Worker α :=
  let (response, engine) := worker.engine.handle request
  (response, { worker with engine })

def outcome : Value α → Except String (Value α)
  | .list [_, .list [result, .null]] => .ok result
  | .list [_, .list [_, .text message]] => .error message
  | response => .error response.render

def request (worker : Worker α) (word : String) (arguments : List (Value α)) :
    Except String (Value α) × Worker α :=
  let id := worker.nextId
  let (response, worker) := { worker with nextId := id + 1 }.send
    (.list (.integer id :: .text word :: arguments))
  (outcome response, worker)

/-- Answers a line. A line that is JSON but no list gets an error and does not reach the engine. -/
def handleLine (worker : Worker α) (line : String) : Answer α × Worker α :=
  let line := Text.trim line
  if line = "" then (.silence, worker)
  else
    match Value.parse? line with
    | none => (.malformed, worker)
    | some (.list parts) =>
      let (response, worker) := worker.send (.list parts)
      (.response response, worker)
    | some _ => (.response (Engine.failure .null "request must be a JSON array"), worker)

end Worker
end StockFlow
