import StockFlow.Number.Digits
import StockFlow.Number.Shortest

/-!
# Number styles

How digits and a power of ten become text. A style says which exponents are written positionally,
whether a whole number ends in `.0`, and which way a tie between two shortest decimals goes.
-/

namespace StockFlow

structure NumberStyle where
  tie : Tie
  /-- The powers of ten of the leading digit that are written out in full. -/
  inFull : Int → Bool
  /-- Whether a whole number written out in full ends in `.0`. -/
  pointZero : Bool

namespace NumberStyle

/-- Every number is written out in full, whole numbers without a point. -/
def positional : NumberStyle := ⟨.up, fun _ => true, false⟩

/-- Numbers of documents: written out in full from `0.00001` up to below `10 ^ 16`, always with a
point; beyond, one digit before the point and a signed exponent. -/
def document : NumberStyle := ⟨.even, fun magnitude => -5 ≤ magnitude && magnitude < 16, true⟩

/-- Digits written out in full: zeros fill up to the point on either side. -/
def full (style : NumberStyle) (ds : Digits) (exponent : Int) : String :=
  if 0 ≤ exponent then
    Digits.text (ds ++ List.replicate exponent.toNat 0) ++ if style.pointZero then ".0" else ""
  else
    let places := (-exponent).toNat
    let padded := List.replicate (places + 1 - ds.length) 0 ++ ds
    Digits.text (padded.take (padded.length - places)) ++ "." ++
      Digits.text (padded.drop (padded.length - places))

/-- One digit before the point, then the power of ten of that digit. -/
def scientific (ds : Digits) (magnitude : Int) : String :=
  let tail := if ds.tail.isEmpty then "" else "." ++ Digits.text ds.tail
  let sign := if magnitude < 0 then "-" else "+"
  Digits.text (ds.take 1) ++ tail ++ "e" ++ sign ++ Digits.text (Digits.ofNat magnitude.natAbs)

def unsigned (style : NumberStyle) (digits : Nat) (exponent : Int) : String :=
  let ds := Digits.ofNat digits
  let magnitude := exponent + ds.length - 1
  if style.inFull magnitude then style.full ds exponent else scientific ds magnitude

example : positional.unsigned 15 (-1) = "1.5" := by cbv
example : positional.unsigned 1 3 = "1000" := by cbv
example : positional.unsigned 25 (-3) = "0.025" := by cbv
example : document.unsigned 1 3 = "1000.0" := by cbv
example : document.unsigned 12 15 = "1.2e+16" := by cbv
example : document.unsigned 1 (-6) = "1e-6" := by cbv

end NumberStyle
end StockFlow
