import StockFlow.Text.LetterCase

/-!
# Lowercase texts

Lowercasing works character by character, with two exceptions: a capital I with a dot becomes two
characters, and a capital sigma at the end of a word becomes a final sigma.
-/

namespace StockFlow.Text

open LetterCase

/-- Whether the first character that is not passed over has letter case. -/
def startsCased (cs : List Char) : Bool :=
  match cs.find? (!isIgnorable ·) with
  | some c => isCased c
  | none => false

/-- The lowercase form of a character between the characters before it (nearest first) and after
it. -/
def lowercaseBetween (before : List Char) (c : Char) (after : List Char) : List Char :=
  if c = 'Σ' then [if startsCased before && !startsCased after then 'ς' else 'σ']
  else if c = 'İ' then ['i', Char.ofNat 0x307]
  else [lowercase c]

def lowercaseAfter (before : List Char) : List Char → List Char
  | [] => []
  | c :: after => lowercaseBetween before c after ++ lowercaseAfter (c :: before) after

def lowercase (s : String) : String := String.ofList (lowercaseAfter [] s.toList)

end StockFlow.Text
