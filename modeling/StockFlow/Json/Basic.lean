import StockFlow.Number.Decimal

/-!
# JSON documents

A document as it is written: members of an object in their order, names possibly repeated, numbers
digit by digit. What a document means is decided by who reads it.
-/

namespace StockFlow

inductive Json where
  | null
  | boolean (value : Bool)
  | number (token : Numeral)
  | text (value : String)
  | list (elements : List Json)
  | object (members : List (String × Json))
  /-- A text with half of a surrogate pair, or an object with a member of such a name: well formed,
  but without a value. -/
  | unpaired
  deriving Repr

namespace Json

mutual

/-- Whether every part of a document has a value under a reading of numbers. -/
def hasValue (inRange : Numeral → Bool) : Json → Bool
  | null => true
  | boolean _ => true
  | number token => inRange token
  | text _ => true
  | list elements => allHaveValue inRange elements
  | object members => membersHaveValue inRange members
  | unpaired => false

def allHaveValue (inRange : Numeral → Bool) : List Json → Bool
  | [] => true
  | first :: rest => hasValue inRange first && allHaveValue inRange rest

def membersHaveValue (inRange : Numeral → Bool) : List (String × Json) → Bool
  | [] => true
  | (_, first) :: rest => hasValue inRange first && membersHaveValue inRange rest

end

/-! ## Nesting -/

mutual

/-- How deep the lists and objects of a document stand in each other. -/
def depth : Json → Nat
  | list elements => depthOfAll elements + 1
  | object members => depthOfMembers members + 1
  | _ => 0

def depthOfAll : List Json → Nat
  | [] => 0
  | first :: rest => max (depth first) (depthOfAll rest)

def depthOfMembers : List (String × Json) → Nat
  | [] => 0
  | (_, first) :: rest => max (depth first) (depthOfMembers rest)

end

/-- The nesting up to which documents are read for their values. -/
def deepest : Nat := 127

/-! ## Parts -/

def text? : Json → Option String
  | text value => some value
  | _ => none

def list? : Json → Option (List Json)
  | list elements => some elements
  | _ => none

def members? : Json → Option (List (String × Json))
  | object members => some members
  | _ => none

/-- The truth value of a document that is one. -/
def boolean? : Json → Option Bool
  | boolean value => some value
  | _ => none

def number? : Json → Option Numeral
  | number token => some token
  | _ => none

end Json
end StockFlow
