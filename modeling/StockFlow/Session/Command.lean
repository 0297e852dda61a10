import StockFlow.Fault
import StockFlow.Json.Value

/-!
# Commands

What a host may ask of a simulation, read from a word and its arguments.
-/

namespace StockFlow

inductive Command (α : Type) where
  | reset
  | setValue (name : Path) (value : α)
  | getValues (names : List Path)
  | getSeries (names : List Path)
  | runTo (time : α)
  | runToEnd
  /-- Which series the end of a run answers with. -/
  | setDesired (names : List Path)
  deriving Repr

namespace Command

variable {α : Type} [Scalar α]

def names? (arguments : List (Value α)) : Option (List Path) := arguments.mapM Value.text?

/-- Reads `set_val`: a name and a number; what follows is passed over. -/
def readSetValue? : List (Value α) → Option (Command α)
  | name :: value :: _ => do
    let name ← name.text?
    let value ← value.number?
    return setValue name value
  | _ => none

def readRunTo? : List (Value α) → Option (Command α)
  | time :: _ => time.number?.map runTo
  | [] => none

/-- Reads `set_desired_series`: a list of names, or the names themselves. -/
def readSetDesired? : List (Value α) → Option (Command α)
  | .list names :: _ => (names? names).map setDesired
  | .text name :: rest => (names? (.text name :: rest)).map setDesired
  | _ => none

/-- The fault of a command that does not exist. -/
def unknown {β : Type} (shown : String) : Except Fault β :=
  .error (.protocol .unknownCommand ("unknown command \"" ++ shown ++ "\""))

/-- Reads a command; none if the word is known but its arguments cannot be used. -/
def parse (word : String) (arguments : List (Value α)) : Except Fault (Option (Command α)) :=
  match word with
  | "reset" => .ok (some reset)
  | "set_val" => .ok (readSetValue? arguments)
  | "get_val" => .ok ((names? arguments).map getValues)
  | "get_series" => .ok ((names? arguments).map getSeries)
  | "run_to" => .ok (readRunTo? arguments)
  | "run_to_end" => .ok (some runToEnd)
  | "set_desired_series" => .ok (readSetDesired? arguments)
  | word => unknown word

end Command
end StockFlow
