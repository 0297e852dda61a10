/-!
# Decimal digits

A digit string is a list of numbers below ten, most significant first. `Digits.value` reads it,
`Digits.ofNat` writes it.
-/

namespace StockFlow

abbrev Digits := List Nat

namespace Digits

def ofChar? (c : Char) : Option Nat :=
  if '0' ≤ c ∧ c ≤ '9' then some (c.toNat - '0'.toNat) else none

def toChar (d : Nat) : Char := Char.ofNat ('0'.toNat + d)

def value (ds : Digits) : Nat := ds.foldl (fun n d => 10 * n + d) 0

/-- The digits of a number without leading zeros; zero is one digit. -/
def ofNat (n : Nat) : Digits := (Nat.toDigits 10 n).map fun c => c.toNat - '0'.toNat

def text (ds : Digits) : String := String.ofList (ds.map toChar)

def span : List Char → Digits × List Char
  | [] => ([], [])
  | c :: rest =>
    match ofChar? c with
    | some d => let (ds, rest) := span rest; (d :: ds, rest)
    | none => ([], c :: rest)

@[simp] theorem value_nil : value [] = 0 := rfl

/-- The part split off holds as many characters as digits, so nothing is lost. -/
theorem length_span (cs : List Char) : (span cs).1.length + (span cs).2.length = cs.length := by
  induction cs with
  | nil => rfl
  | cons c rest ih =>
    cases h : ofChar? c with
    | none => simp [span, h]
    | some d => simp [span, h]; omega

end Digits
end StockFlow
