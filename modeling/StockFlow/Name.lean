import StockFlow.Text.Blank
import StockFlow.Text.Lowercase

/-!
# Names

Variables are written by display names such as `Birth Rate` and addressed by canonical names such as
`birth_rate`. A dotted path leads through modules to a variable: `Path.split` takes its first step.
-/

namespace StockFlow

/-- The canonical or display name of a variable, a model or a function. -/
abbrev Name := String

namespace Name

def unquote (cs : List Char) : List Char :=
  match cs with
  | '"' :: rest => if rest.getLast? = some '"' then rest.dropLast else cs
  | _ => cs

def unescape : List Char → List Char
  | '\\' :: '\\' :: rest => '\\' :: unescape rest
  | c :: rest => c :: unescape rest
  | [] => []

/-- Joins words: a space, a line end, or a written line end becomes an underscore. -/
def joinWords : List Char → List Char
  | '\\' :: 'n' :: rest => '_' :: joinWords rest
  | '\\' :: 'r' :: rest => '_' :: joinWords rest
  | c :: rest =>
    (if c = '\n' ∨ c = '\r' ∨ c = ' ' ∨ c.toNat = 0xA0 then '_' else c) :: joinWords rest
  | [] => []

/-- The canonical form of a name: without white space and quotes around it, words joined by
underscores, in lowercase. Quotes are looked for after trimming, so what they enclose is kept. -/
def canonical (name : String) : Name :=
  Text.lowercase <| String.ofList <|
    joinWords (unescape (unquote (Text.trimEnds Text.isBlank name.toList)))

end Name

/-- A sequence of module names ending in a variable's name, joined by dots. -/
abbrev Path := String

namespace Path

/-- The part before the first dot, and the part after it if there is a dot. -/
def split (path : Path) : Name × Option Path :=
  match path.toList.span (· ≠ '.') with
  | (head, _ :: rest) => (String.ofList head, some (String.ofList rest))
  | (_, []) => (path, none)

def head (path : Path) : Name := (split path).1

/-- What follows `lead` in a text that starts with it. -/
def after? (lead : String) (text : String) : Option String :=
  if lead.toList.isPrefixOf text.toList then some (String.ofList (text.toList.drop lead.length))
  else none

/-- A path without the dot that marks it as leading from the root. -/
def unmarked (path : Path) : Path := (after? "." path).getD path

/-- Whether a path is marked as leading from the root. -/
def isMarked (path : Path) : Bool := (after? "." path).isSome

end Path
end StockFlow
