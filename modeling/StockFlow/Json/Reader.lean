import StockFlow.Json.Basic

/-!
# Reading JSON

The strict grammar: no trailing commas, no leading zeros, no raw control characters, nothing after
the value. Each function reads one construct off the front of the characters and returns the rest.
Every value takes at least one character, so the number of characters bounds the nesting.
-/

namespace StockFlow.Json

/-- Drops the white space that may stand between tokens. -/
def skipSpace (cs : List Char) : List Char :=
  cs.dropWhile fun c => c = ' ' || c = '\t' || c = '\n' || c = '\r'

/-! ## Numbers -/

/-- Reads the exponent of a number, if there is one: its value and whether it was written. -/
def readExponent? : List Char → Option (Int × Bool × List Char)
  | [] => some (0, false, [])
  | mark :: rest =>
    if mark = 'e' ∨ mark = 'E' then
      let (negative, rest) := Literal.takeSign rest
      match Digits.span rest with
      | ([], _) => none
      | (ds, rest) =>
        let exponent : Int := Digits.value ds
        some (if negative then -exponent else exponent, true, rest)
    else some (0, false, mark :: rest)

/-- Reads the digits after a point, if there is one. -/
def readFraction? : List Char → Option (Digits × List Char)
  | '.' :: rest =>
    match Digits.span rest with
    | ([], _) => none
    | (ds, rest) => some (ds, rest)
  | cs => some ([], cs)

/-- Reads a number without its sign. A zero is a whole part of its own. -/
def readUnsigned? (negative : Bool) (cs : List Char) : Option (Numeral × List Char) := do
  match Digits.span cs with
  | ([], _) => none
  | (0 :: _ :: _, _) => none
  | (whole, rest) =>
    let (fraction, rest) ← readFraction? rest
    let (exponent, written, rest) ← readExponent? rest
    some (⟨negative, whole, fraction, exponent, fraction.isEmpty && !written⟩, rest)

def readNumber? : List Char → Option (Numeral × List Char)
  | '-' :: rest => readUnsigned? true rest
  | cs => readUnsigned? false cs

/-! ## Texts -/

def hexDigit? (c : Char) : Option Nat :=
  if '0' ≤ c ∧ c ≤ '9' then some (c.toNat - '0'.toNat)
  else if 'a' ≤ c ∧ c ≤ 'f' then some (c.toNat - 'a'.toNat + 10)
  else if 'A' ≤ c ∧ c ≤ 'F' then some (c.toNat - 'A'.toNat + 10)
  else none

def unit? (a b c d : Char) : Option Nat := do
  let a ← hexDigit? a
  let b ← hexDigit? b
  let c ← hexDigit? c
  let d ← hexDigit? d
  some (((a * 16 + b) * 16 + c) * 16 + d)

def escaped? : Char → Option Char
  | '"' => some '"'
  | '\\' => some '\\'
  | '/' => some '/'
  | 'b' => some '\x08'
  | 'f' => some '\x0c'
  | 'n' => some '\n'
  | 'r' => some '\r'
  | 't' => some '\t'
  | _ => none

/-- One item of a text: a code unit written as an escape, or a character. -/
inductive Item where
  | unit (value : Nat)
  | char (value : Char)
  deriving DecidableEq, Repr

/-- Reads the items of a text up to its closing quote. -/
def readItems? : List Char → Option (List Item × List Char)
  | [] => none
  | '"' :: rest => some ([], rest)
  | '\\' :: 'u' :: a :: b :: c :: d :: rest =>
    match unit? a b c d with
    | none => none
    | some value => (readItems? rest).map fun (items, rest) => (.unit value :: items, rest)
  | '\\' :: c :: rest =>
    match escaped? c with
    | none => none
    | some value => (readItems? rest).map fun (items, rest) => (.char value :: items, rest)
  | c :: rest =>
    if c.toNat < 0x20 then none
    else (readItems? rest).map fun (items, rest) => (.char c :: items, rest)

/-- Joins code units to characters; `none` for half of a surrogate pair. -/
def joinItems? : List Item → Option (List Char)
  | [] => some []
  | .char c :: rest => (joinItems? rest).map (c :: ·)
  | .unit high :: .unit low :: rest =>
    if 0xD800 ≤ high ∧ high < 0xDC00 then
      if 0xDC00 ≤ low ∧ low < 0xE000 then
        let code := 0x10000 + (high - 0xD800) * 0x400 + (low - 0xDC00)
        (joinItems? rest).map (Char.ofNat code :: ·)
      else none
    else if 0xDC00 ≤ high ∧ high < 0xE000 then none
    else (joinItems? (.unit low :: rest)).map (Char.ofNat high :: ·)
  | .unit value :: rest =>
    if 0xD800 ≤ value ∧ value < 0xE000 then none
    else (joinItems? rest).map (Char.ofNat value :: ·)

/-- Reads a text after its opening quote; the text itself is missing where a surrogate pair is
broken. -/
def readText? (cs : List Char) : Option (Option String × List Char) :=
  (readItems? cs).map fun (items, rest) =>
    ((joinItems? items).map String.ofList, rest)

/-! ## Values -/

def readWord? (word : String) (value : Json) (cs : List Char) : Option (Json × List Char) :=
  if word.toList.isPrefixOf cs then some (value, cs.drop word.length) else none

/-- An object of members read, unless one of their names is missing. -/
def ofMembers (members : List (Option String × Json)) : Json :=
  match members.mapM fun (name, value) => name.map fun name => (name, value) with
  | some members => object members
  | none => unpaired

mutual

def readValue? : Nat → List Char → Option (Json × List Char)
  | 0, _ => none
  | fuel + 1, cs =>
    match skipSpace cs with
    | '"' :: rest =>
      (readText? rest).map fun (value, rest) =>
        (match value with
          | some value => text value
          | none => unpaired, rest)
    | '[' :: rest =>
      match skipSpace rest with
      | ']' :: rest => some (list [], rest)
      | rest => (readElements? fuel rest).map fun (elements, rest) => (list elements, rest)
    | '\x7b' :: rest =>
      match skipSpace rest with
      | '\x7d' :: rest => some (object [], rest)
      | rest => (readMembers? fuel rest).map fun (members, rest) => (ofMembers members, rest)
    | 'n' :: rest => readWord? "ull" null rest
    | 't' :: rest => readWord? "rue" (boolean true) rest
    | 'f' :: rest => readWord? "alse" (boolean false) rest
    | cs => (readNumber? cs).map fun (token, rest) => (number token, rest)

/-- Reads the elements of a list up to its closing bracket; at least one. -/
def readElements? : Nat → List Char → Option (List Json × List Char)
  | 0, _ => none
  | fuel + 1, cs =>
    match readValue? fuel cs with
    | none => none
    | some (first, rest) =>
      match skipSpace rest with
      | ']' :: rest => some ([first], rest)
      | ',' :: rest => (readElements? fuel rest).map fun (others, rest) => (first :: others, rest)
      | _ => none

/-- Reads the members of an object up to its closing brace; at least one. -/
def readMembers? : Nat → List Char → Option (List (Option String × Json) × List Char)
  | 0, _ => none
  | fuel + 1, cs =>
    match skipSpace cs with
    | '"' :: rest =>
      match readText? rest with
      | none => none
      | some (name, rest) =>
        match skipSpace rest with
        | ':' :: rest =>
          match readValue? fuel rest with
          | none => none
          | some (value, rest) =>
            match skipSpace rest with
            | '\x7d' :: rest => some ([(name, value)], rest)
            | ',' :: rest =>
              (readMembers? fuel rest).map fun (others, rest) => ((name, value) :: others, rest)
            | _ => none
        | _ => none
    | _ => none

end

/-- Reads a document: one value with nothing but white space around it. -/
def parse? (document : String) : Option Json :=
  let cs := document.toList
  match readValue? (cs.length + 1) cs with
  | some (value, rest) => if (skipSpace rest).isEmpty then some value else none
  | none => none

end StockFlow.Json
