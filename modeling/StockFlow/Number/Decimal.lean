import StockFlow.Number.Digits

/-!
# Written numbers

Two readings of numbers as text. A `Literal` is what a constant equation may say: a decimal with an
optional sign, point and exponent, or a spelling of infinity or of the undefined number. A
`Numeral` is a number token of a document, kept digit by digit until its reader decides on its
precision.
-/

namespace StockFlow

structure Decimal where
  negative : Bool
  digits : Nat
  exponent : Int
  deriving DecidableEq, Repr

inductive Literal where
  | finite (value : Decimal)
  | infinite (negative : Bool)
  | undefined (negative : Bool)
  deriving DecidableEq, Repr

namespace Literal

def takeSign : List Char → Bool × List Char
  | '-' :: rest => (true, rest)
  | '+' :: rest => (false, rest)
  | cs => (false, cs)

/-- Reads an exponent mark with its digits; `some 0` where there is nothing to read. -/
def readExponent? : List Char → Option Int
  | [] => some 0
  | mark :: rest =>
    if mark = 'e' ∨ mark = 'E' then
      let (negative, rest) := takeSign rest
      match Digits.span rest with
      | ([], _) => none
      | (ds, []) => some (if negative then -(Digits.value ds : Int) else Digits.value ds)
      | _ => none
    else none

/-- Reads an unsigned decimal; a point needs a digit on at least one side. -/
def readDecimal? (negative : Bool) (cs : List Char) : Option Decimal := do
  let (whole, rest) := Digits.span cs
  let (fraction, rest) := match rest with
    | '.' :: rest => Digits.span rest
    | rest => ([], rest)
  if whole.isEmpty ∧ fraction.isEmpty then none
  else
    let exponent ← readExponent? rest
    some ⟨negative, Digits.value (whole ++ fraction), exponent - fraction.length⟩

/-- Reads a number; the words for infinity and the undefined number may be in any case. -/
def read? (text : String) : Option Literal :=
  let (negative, rest) := takeSign text.toList
  match readDecimal? negative rest with
  | some value => some (.finite value)
  | none =>
    let word := String.ofList (rest.map Char.toLower)
    if word = "inf" ∨ word = "infinity" then some (.infinite negative)
    else if word = "nan" then some (.undefined negative)
    else none

end Literal

/-- A number token of a document: sign, digits before and after the point, power of ten. -/
structure Numeral where
  negative : Bool
  whole : Digits
  fraction : Digits
  exponent : Int
  integral : Bool
  deriving DecidableEq, Repr

namespace Numeral

def toInt? (n : Numeral) : Option Int :=
  if n.integral then
    some (if n.negative then -(Digits.value n.whole : Int) else Digits.value n.whole)
  else none

def toDecimal (n : Numeral) : Decimal :=
  ⟨n.negative, Digits.value (n.whole ++ n.fraction), n.exponent - n.fraction.length⟩

def ofNat (n : Nat) : Numeral := ⟨false, Digits.ofNat n, [], 0, true⟩

def significandLimit : Nat := Nat.pow 2 64 - 1

/-- Appends digits to a significand until the next one would pass the limit; returns the
significand and how many digits were left out. -/
def accumulate (significand : Nat) : Digits → Nat × Nat
  | [] => (significand, 0)
  | d :: ds =>
    if 10 * significand + d ≤ significandLimit then accumulate (10 * significand + d) ds
    else (significand, ds.length + 1)

/-- The number as a 64-bit significand and a power of ten: digits that do not fit are dropped. -/
def scaled (n : Numeral) : Nat × Int :=
  let (significand, dropped) := accumulate 0 n.whole
  let (significand, unused) := accumulate significand n.fraction
  (significand, n.exponent + dropped - (n.fraction.length - unused : Nat))

end Numeral
end StockFlow
