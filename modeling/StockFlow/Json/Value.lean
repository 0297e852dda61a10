import StockFlow.Json.Reader
import StockFlow.Keyed
import StockFlow.Number.Scalar

/-!
# JSON values

What a document says, for those who exchange values and not text: the members of a record are in
order of their names, each name once, and a number is a whole number of 64 bits or a scalar. Every
value has one text, without spaces.
-/

namespace StockFlow

inductive Value (α : Type) where
  | null
  | boolean (value : Bool)
  | integer (value : Int)
  | real (value : α)
  | text (value : String)
  | list (elements : List (Value α))
  | record (members : List (String × Value α))
  deriving Repr

namespace Value

variable {α : Type} [Scalar α]

/-! ## Reading -/

/-- The value of a number token: a whole number if it is written as one and fits into 64 bits (a
negative zero does not), else a scalar. -/
def ofNumeral? (token : Numeral) : Option (Value α) :=
  let whole := (token.toInt?.filter fun n =>
    (-(Nat.pow 2 63 : Int) ≤ n && n < (Nat.pow 2 64 : Int)) && !(token.negative && n == 0))
  match whole with
  | some n => some (integer n)
  | none => (Scalar.ofNumeral? token).map real

mutual

/-- The value of a document, unless a number is out of range or a text broken. -/
def ofJson? : Json → Option (Value α)
  | .null => some null
  | .boolean value => some (boolean value)
  | .number token => ofNumeral? token
  | .text value => some (text value)
  | .list elements => (ofElements? elements).map list
  | .object members => (ofMembers? members).map fun members => record (Keyed.ofList members)
  | .unpaired => none

def ofElements? : List Json → Option (List (Value α))
  | [] => some []
  | first :: rest =>
    match ofJson? first, ofElements? rest with
    | some first, some rest => some (first :: rest)
    | _, _ => none

def ofMembers? : List (String × Json) → Option (List (String × Value α))
  | [] => some []
  | (name, first) :: rest =>
    match ofJson? first, ofMembers? rest with
    | some first, some rest => some ((name, first) :: rest)
    | _, _ => none

end

/-- The value of a document that is not nested too deep. -/
def parse? (document : String) : Option (Value α) :=
  ((Json.parse? document).filter fun json => json.depth ≤ Json.deepest).bind ofJson?

/-! ## Views -/

def text? : Value α → Option String
  | text value => some value
  | _ => none

def number? : Value α → Option α
  | integer value => some (Scalar.ofInt value)
  | real value => some value
  | _ => none

/-- The value of a number: an undefined or infinite number has none. -/
def ofNumber (x : α) : Value α := if Scalar.isFinite x then real x else null

/-! ## Writing -/

def hexDigit (n : Nat) : Char := if n < 10 then Char.ofNat (48 + n) else Char.ofNat (87 + n)

def escape (c : Char) : List Char :=
  if c = '"' then ['\\', '"']
  else if c = '\\' then ['\\', '\\']
  else if c.toNat < 0x20 then
    if c.toNat = 8 then ['\\', 'b']
    else if c.toNat = 9 then ['\\', 't']
    else if c.toNat = 10 then ['\\', 'n']
    else if c.toNat = 12 then ['\\', 'f']
    else if c.toNat = 13 then ['\\', 'r']
    else ['\\', 'u', '0', '0', hexDigit (c.toNat / 16), hexDigit (c.toNat % 16)]
  else [c]

def quote (s : String) : String := "\"" ++ String.ofList (s.toList.flatMap escape) ++ "\""

mutual

def render : Value α → String
  | null => "null"
  | boolean value => if value then "true" else "false"
  | integer value => toString value
  | real value => if Scalar.isFinite value then Scalar.text .document value else "null"
  | text value => quote value
  | list elements => "[" ++ String.intercalate "," (renderAll elements) ++ "]"
  | record members => "\x7b" ++ String.intercalate "," (renderMembers members) ++ "\x7d"

def renderAll : List (Value α) → List String
  | [] => []
  | first :: rest => render first :: renderAll rest

def renderMembers : List (String × Value α) → List String
  | [] => []
  | (name, first) :: rest => (quote name ++ ":" ++ render first) :: renderMembers rest

end

end Value
end StockFlow
