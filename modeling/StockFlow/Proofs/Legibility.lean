import Mathlib.Data.List.Nodup
import StockFlow.Equation.Printer

/-!
# Legible equations

Where all names and numbers are words, the text of an equation can be read in one way only: what a text
begins with tells what kind of equation it is the text of, and behind each part of the text stands
something that cannot belong to the part. So equations with the same text differ in nothing but the
values of their constants.
-/

namespace StockFlow

variable {α β : Type}

namespace Equation

/-! ## Words -/

/-- Whether a character stands between words. -/
def isSeparator (c : Char) : Bool := c = ' ' || c = '(' || c = ')' || c = ','

/-- Whether a character is an operator before an operand. -/
def isSign (c : Char) : Bool := c = '+' || c = '-' || c = '!'

/-- Whether a text has no separators, and begins with something that is no sign. Letters, digits and marks
such as `_`, `$`, `.` and `·` make words. -/
def isWord (text : String) : Bool :=
  text.toList.all (!isSeparator ·) && text.toList.head?.any (!isSign ·)

/-- Whether a text is a word that begins with a digit, whatever characters are digits. -/
def isNumber (isDigit : Char → Bool) (text : String) : Bool :=
  isWord text && text.toList.head?.any isDigit

/-- Whether a text is a word that does not begin with a digit. -/
def isName (isDigit : Char → Bool) (text : String) : Bool :=
  isWord text && !text.toList.head?.any isDigit

mutual

/-- Whether the constants of an equation are written as numbers, and its variables and functions as
names. -/
def isLegible (isDigit : Char → Bool) : Equation α → Bool
  | constant text _ => isNumber isDigit text
  | reference name => isName isDigit name
  | call function arguments => isName isDigit function && allLegible isDigit arguments
  | group inner => isLegible isDigit inner
  | unary _ operand => isLegible isDigit operand
  | binary _ left right => isLegible isDigit left && isLegible isDigit right
  | conditional condition whenTrue whenFalse =>
    isLegible isDigit condition && isLegible isDigit whenTrue && isLegible isDigit whenFalse

def allLegible (isDigit : Char → Bool) : List (Equation α) → Bool
  | [] => true
  | first :: rest => isLegible isDigit first && allLegible isDigit rest

end

mutual

/-- An equation without the values of its constants. -/
def skeleton : Equation α → Equation Unit
  | constant text _ => constant text ()
  | reference name => reference name
  | call function arguments => call function (skeletons arguments)
  | group inner => group (skeleton inner)
  | unary operator operand => unary operator (skeleton operand)
  | binary operator left right => binary operator (skeleton left) (skeleton right)
  | conditional condition whenTrue whenFalse =>
    conditional (skeleton condition) (skeleton whenTrue) (skeleton whenFalse)

def skeletons : List (Equation α) → List (Equation Unit)
  | [] => []
  | first :: rest => skeleton first :: skeletons rest

end

section

variable {isDigit : Char → Bool} {text : String} {rest more : List Char}

theorem plain_of_all {word : List Char} (all : word.all (!isSeparator ·) = true) :
    ∀ c ∈ word, isSeparator c = false := by
  simpa using all

theorem plain_of_isWord (word : isWord text = true) : ∀ c ∈ text.toList, isSeparator c = false :=
  plain_of_all (Bool.and_eq_true_iff.mp word).1

theorem exists_of_isWord (word : isWord text = true) : ∃ first others, text.toList = first :: others ∧
    isSign first = false ∧ isSeparator first = false := by
  have start := (Bool.and_eq_true_iff.mp word).2
  cases whole : text.toList with
  | nil =>
    rw [whole] at start
    cases start
  | cons first others =>
    rw [whole] at start
    have plain := plain_of_isWord word first (whole ▸ List.mem_cons_self)
    exact ⟨first, others, rfl, by simpa using start, plain⟩

theorem isWord_of_isNumber (number : isNumber isDigit text = true) : isWord text = true :=
  (Bool.and_eq_true_iff.mp number).1

theorem isWord_of_isName (name : isName isDigit text = true) : isWord text = true :=
  (Bool.and_eq_true_iff.mp name).1

/-- Texts without separators before separators are the same where the whole texts are. -/
theorem append_inj_of_plain {word other : List Char} (plain : ∀ c ∈ word, isSeparator c = false)
    (plain' : ∀ c ∈ other, isSeparator c = false) (ends : ∀ c ∈ rest.head?, isSeparator c = true)
    (ends' : ∀ c ∈ more.head?, isSeparator c = true) (same : word ++ rest = other ++ more) :
    word = other ∧ rest = more := by
  induction word generalizing other with
  | nil =>
    cases other with
    | nil => exact ⟨rfl, same⟩
    | cons d further =>
      have here : rest = d :: (further ++ more) := same
      have separates := ends d (by rw [here]; rfl)
      rw [plain' d List.mem_cons_self] at separates
      cases separates
  | cons c tail ih =>
    cases other with
    | nil =>
      have here : c :: (tail ++ rest) = more := same
      have separates := ends' c (by rw [← here]; rfl)
      rw [plain c List.mem_cons_self] at separates
      cases separates
    | cons d further =>
      obtain ⟨rfl, tails⟩ := List.cons.inj same
      obtain ⟨rfl, after⟩ := ih (fun c member => plain c (List.mem_cons_of_mem _ member))
        (fun c member => plain' c (List.mem_cons_of_mem _ member)) tails
      exact ⟨rfl, after⟩

theorem append_inj_of_isWord {other : String} (word : isWord text = true) (word' : isWord other = true)
    (ends : ∀ c ∈ rest.head?, isSeparator c = true) (ends' : ∀ c ∈ more.head?, isSeparator c = true)
    (same : text.toList ++ rest = other.toList ++ more) : text = other ∧ rest = more :=
  (append_inj_of_plain (plain_of_isWord word) (plain_of_isWord word') ends ends' same).imp_left
    String.toList_inj.mp

end

/-! ## What stands behind an equation -/

/-- What may stand behind an equation: nothing, a bracket, a comma, or a space and then no bracket. -/
inductive Closes : List Char → Prop
  | nothing : Closes []
  | bracket {rest : List Char} : Closes (')' :: rest)
  | comma {rest : List Char} : Closes (',' :: rest)
  | space {rest : List Char} (apart : rest.head? ≠ some '(') : Closes (' ' :: rest)

theorem Closes.isSeparator {rest : List Char} (closes : Closes rest) :
    ∀ c ∈ rest.head?, isSeparator c = true := by
  cases closes with
  | nothing => simp
  | bracket | comma | space => rintro c ⟨⟩; rfl

theorem Closes.head?_ne {rest : List Char} (closes : Closes rest) : rest.head? ≠ some '(' := by
  cases closes <;> simp

end Equation

open Equation (isSeparator isSign)

theorem UnaryOperator.exists_sign (operator : UnaryOperator) :
    ∃ c, operator.sign.toList = [c] ∧ isSign c = true := by
  cases operator <;> exact ⟨_, rfl, rfl⟩

theorem UnaryOperator.sign_injective {operator other : UnaryOperator}
    (same : operator.sign = other.sign) : operator = other := by
  have distinct : ([positive, negative, not].map sign).Nodup := by decide
  exact List.inj_on_of_nodup_map distinct (by cases operator <;> decide) (by cases other <;> decide) same

theorem BinaryOperator.plain_sign (operator : BinaryOperator) :
    ∀ c ∈ operator.sign.toList, isSeparator c = false := by
  apply Equation.plain_of_all
  cases operator <;> rfl

theorem BinaryOperator.sign_injective {operator other : BinaryOperator}
    (same : operator.sign = other.sign) : operator = other := by
  have distinct : ([add, sub, exp, mul, div, mod, gt, lt, gte, lte, eq, neq, and, or].map sign).Nodup := by
    decide
  exact List.inj_on_of_nodup_map distinct (by cases operator <;> decide) (by cases other <;> decide) same

/-- What stands between the operands closes the left one. -/
theorem BinaryOperator.closes_sign (operator : BinaryOperator) (rest : List Char) :
    Equation.Closes (' ' :: (operator.sign.toList ++ rest)) := by
  refine .space ?_
  cases operator <;> exact fun same => nomatch same

namespace Equation

/-! ## Texts of equations -/

/-- The text of the arguments of a call. -/
def listText (equations : List (Equation α)) : List Char :=
  (String.intercalate ", " (printAll equations)).toList

/-- The text of the further arguments of a call. -/
def listTail : List (Equation α) → List Char
  | [] => []
  | first :: rest => ',' :: ' ' :: listText (first :: rest)

theorem listText_cons (first : Equation α) (rest : List (Equation α)) :
    listText (first :: rest) = first.print.toList ++ listTail rest := by
  cases rest with
  | nil => rw [listText, printAll, printAll, String.intercalate_singleton, listTail, List.append_nil]
  | cons second rest =>
    rw [listText, printAll, printAll, String.intercalate_cons_cons, String.toList_append,
      String.toList_append, List.append_assoc]
    rfl

theorem closes_listTail (equations : List (Equation α)) (rest : List Char) :
    Closes (listTail equations ++ ')' :: rest) := by
  cases equations with
  | nil => exact .bracket
  | cons => exact .comma

theorem listText_append_eq {equations : List (Equation α)} {others : List (Equation β)}
    {rest more : List Char} (same : listTail equations ++ ')' :: rest = listTail others ++ ')' :: more) :
    listText equations ++ ')' :: rest = listText others ++ ')' :: more := by
  cases equations with
  | nil =>
    cases others with
    | nil => exact same
    | cons => cases same
  | cons =>
    cases others with
    | nil => cases same
    | cons => exact (List.cons.inj (List.cons.inj same).2).2

theorem toList_print_call (function : Name) (arguments : List (Equation α)) :
    (call function arguments).print.toList = function.toList ++ '(' :: (listText arguments ++ [')']) := by
  show (function ++ "(" ++ String.intercalate ", " (printAll arguments) ++ ")").toList = _
  simp [listText]

theorem toList_print_group (inner : Equation α) :
    (group inner).print.toList = '(' :: (inner.print.toList ++ [')']) := by
  show ("(" ++ inner.print ++ ")").toList = _
  simp

theorem toList_print_unary (operator : UnaryOperator) (operand : Equation α) :
    (unary operator operand).print.toList = operator.sign.toList ++ operand.print.toList :=
  String.toList_append

theorem toList_print_binary (operator : BinaryOperator) (left right : Equation α) :
    (binary operator left right).print.toList = '(' :: (left.print.toList ++ ' ' ::
      (operator.sign.toList ++ ' ' :: (right.print.toList ++ [')']))) := by
  show ("(" ++ left.print ++ " " ++ operator.sign ++ " " ++ right.print ++ ")").toList = _
  simp

theorem toList_print_conditional (condition whenTrue whenFalse : Equation α) :
    (conditional condition whenTrue whenFalse).print.toList = "if (".toList ++ (condition.print.toList ++
      ')' :: (" then (".toList ++ (whenTrue.print.toList ++ ')' :: (" else (".toList ++
        (whenFalse.print.toList ++ [')']))))) := by
  show ("if (" ++ condition.print ++ ") then (" ++ whenTrue.print ++ ") else (" ++ whenFalse.print ++
    ")").toList = _
  simp

/-! ## Forms -/

/-- What a text begins with. -/
inductive Form where
  | number
  | name
  | call
  | bracket
  | sign
  | condition

def form : Equation α → Form
  | constant _ _ => .number
  | reference _ => .name
  | call _ _ => .call
  | group _ => .bracket
  | unary _ _ => .sign
  | binary _ _ _ => .bracket
  | conditional _ _ _ => .condition

/-- The form of the equation that stands at the beginning of a text. -/
def formOf (isDigit : Char → Bool) (text : List Char) : Form :=
  if "if (".toList.isPrefixOf text then .condition
  else if text.head? = some '(' then .bracket
  else if text.head?.any isSign then .sign
  else if text.head?.any isDigit then .number
  else if (text.dropWhile (!isSeparator ·)).head? = some '(' then .call
  else .name

section

variable {isDigit : Char → Bool} {text : String} {rest : List Char}

/-- A word is not the beginning of a conditional, unless a space and a bracket follow. -/
theorem not_isPrefixOf_of_isWord (word : isWord text = true) (ends : ∀ c ∈ rest.head?, isSeparator c = true)
    (apart : ∀ more, rest ≠ ' ' :: '(' :: more) :
    "if (".toList.isPrefixOf (text.toList ++ rest) = false := by
  refine Bool.eq_false_iff.mpr fun begins => ?_
  obtain ⟨more, whole⟩ := List.isPrefixOf_iff_prefix.mp begins
  have same : "if".toList ++ (' ' :: '(' :: more) = text.toList ++ rest := whole
  have split :=
    append_inj_of_plain (plain_of_all rfl) (plain_of_isWord word) (by rintro c ⟨⟩; rfl) ends same
  exact apart more split.2.symm

theorem Closes.ne_space_bracket (closes : Closes rest) : ∀ more, rest ≠ ' ' :: '(' :: more := by
  rintro more rfl
  cases closes with
  | space apart => exact apart rfl

theorem dropWhile_append_of_plain {word : List Char} (plain : ∀ c ∈ word, isSeparator c = false)
    (ends : ∀ c ∈ rest.head?, isSeparator c = true) :
    (word ++ rest).dropWhile (!isSeparator ·) = rest := by
  rw [List.dropWhile_append_of_pos fun c member => by simp [plain c member]]
  cases rest with
  | nil => rfl
  | cons c _ => simp [ends c rfl]

/-- The form of a text that begins with a word. -/
theorem formOf_append_of_isWord (word : isWord text = true) (ends : ∀ c ∈ rest.head?, isSeparator c = true)
    (apart : ∀ more, rest ≠ ' ' :: '(' :: more) : formOf isDigit (text.toList ++ rest) =
      if text.toList.head?.any isDigit then .number else if rest.head? = some '(' then .call else .name := by
  obtain ⟨first, others, whole, unsigned, here⟩ := exists_of_isWord word
  have inside : ¬ some first = some '(' := by
    rintro ⟨⟩
    cases here
  have unsigned : ¬ (some first).any isSign = true := by simpa using unsigned
  rw [formOf, not_isPrefixOf_of_isWord word ends apart,
    dropWhile_append_of_plain (plain_of_isWord word) ends, whole, List.cons_append, List.head?_cons,
    List.head?_cons, if_neg Bool.false_ne_true, if_neg inside, if_neg unsigned]

/-- The beginning of a text tells the form of the equation that stands there. -/
theorem formOf_print {equation : Equation α} (legible : equation.isLegible isDigit = true)
    (closes : Closes rest) : formOf isDigit (equation.print.toList ++ rest) = equation.form := by
  cases equation with
  | constant text value =>
    have word := isWord_of_isNumber legible
    rw [print, formOf_append_of_isWord word closes.isSeparator closes.ne_space_bracket,
      (Bool.and_eq_true_iff.mp legible).2]
    rfl
  | reference name =>
    have word := isWord_of_isName legible
    have begins : name.toList.head?.any isDigit = false := by
      simpa using (Bool.and_eq_true_iff.mp legible).2
    rw [print, formOf_append_of_isWord word closes.isSeparator closes.ne_space_bracket, begins,
      if_neg Bool.false_ne_true, if_neg closes.head?_ne]
    rfl
  | call function arguments =>
    obtain ⟨named, -⟩ := Bool.and_eq_true_iff.mp legible
    have begins : function.toList.head?.any isDigit = false := by
      simpa using (Bool.and_eq_true_iff.mp named).2
    rw [toList_print_call, List.append_assoc, formOf_append_of_isWord (isWord_of_isName named)
      (by rintro c ⟨⟩; rfl) (fun more => by simp), begins]
    rfl
  | group inner =>
    rw [toList_print_group]
    rfl
  | unary operator operand =>
    rw [toList_print_unary]
    cases operator <;> rfl
  | binary operator left right =>
    rw [toList_print_binary]
    rfl
  | conditional condition whenTrue whenFalse =>
    rw [toList_print_conditional]
    rfl

theorem form_eq_of_append_eq {equation : Equation α} {other : Equation β} {more : List Char}
    (legible : equation.isLegible isDigit = true) (legible' : other.isLegible isDigit = true)
    (closes : Closes rest) (closes' : Closes more)
    (same : equation.print.toList ++ rest = other.print.toList ++ more) : equation.form = other.form := by
  rw [← formOf_print legible closes, ← formOf_print legible' closes', same]

theorem exists_cons_of_isWord (word : isWord text = true) :
    ∃ c others, text.toList = c :: others ∧ c ≠ ')' := by
  obtain ⟨first, others, whole, -, here⟩ := exists_of_isWord word
  refine ⟨first, others, whole, ?_⟩
  rintro rfl
  cases here

/-- The text of an equation begins with something, and not with a closing bracket. -/
theorem exists_cons_of_isLegible {equation : Equation α} (legible : equation.isLegible isDigit = true) :
    ∃ c others, equation.print.toList = c :: others ∧ c ≠ ')' := by
  cases equation with
  | constant text value => exact exists_cons_of_isWord (isWord_of_isNumber legible)
  | reference name => exact exists_cons_of_isWord (isWord_of_isName legible)
  | call function arguments =>
    obtain ⟨named, -⟩ := Bool.and_eq_true_iff.mp legible
    obtain ⟨c, others, whole, apart⟩ := exists_cons_of_isWord (isWord_of_isName named)
    exact ⟨c, _, by rw [toList_print_call, whole]; rfl, apart⟩
  | group inner => exact ⟨'(', _, toList_print_group inner, by decide⟩
  | unary operator operand =>
    obtain ⟨c, sign, isSign⟩ := operator.exists_sign
    refine ⟨c, _, by rw [toList_print_unary, sign]; rfl, ?_⟩
    rintro rfl
    cases isSign
  | binary operator left right => exact ⟨'(', _, toList_print_binary operator left right, by decide⟩
  | conditional condition whenTrue whenFalse =>
    exact ⟨'i', _, toList_print_conditional condition whenTrue whenFalse, by decide⟩

end

/-! ## Reading -/

section

variable {isDigit : Char → Bool}

mutual

/-- What stands before something that closes an equation is the text of one equation only. -/
theorem print_append_inj : ∀ {equation : Equation α} {other : Equation β} {rest more : List Char},
    equation.isLegible isDigit = true → other.isLegible isDigit = true → Closes rest → Closes more →
    equation.print.toList ++ rest = other.print.toList ++ more →
    equation.skeleton = other.skeleton ∧ rest = more
  | constant text value, other, rest, more, legible, legible', closes, closes', same => by
    have alike := form_eq_of_append_eq legible legible' closes closes' same
    cases other with
    | constant text' value' =>
      obtain ⟨texts, rests⟩ := append_inj_of_isWord (isWord_of_isNumber legible)
        (isWord_of_isNumber legible') closes.isSeparator closes'.isSeparator same
      exact ⟨by rw [skeleton, skeleton, texts], rests⟩
    | reference | call | group | unary | binary | conditional => cases alike
  | reference name, other, rest, more, legible, legible', closes, closes', same => by
    have alike := form_eq_of_append_eq legible legible' closes closes' same
    cases other with
    | reference name' =>
      obtain ⟨names, rests⟩ := append_inj_of_isWord (isWord_of_isName legible)
        (isWord_of_isName legible') closes.isSeparator closes'.isSeparator same
      exact ⟨by rw [skeleton, skeleton, names], rests⟩
    | constant | call | group | unary | binary | conditional => cases alike
  | call function arguments, other, rest, more, legible, legible', closes, closes', same => by
    have alike := form_eq_of_append_eq legible legible' closes closes' same
    cases other with
    | call function' arguments' =>
      obtain ⟨named, legible⟩ := Bool.and_eq_true_iff.mp legible
      obtain ⟨named', legible'⟩ := Bool.and_eq_true_iff.mp legible'
      simp only [toList_print_call, List.append_assoc, List.cons_append, List.nil_append] at same
      obtain ⟨functions, lists⟩ := append_inj_of_isWord (isWord_of_isName named)
        (isWord_of_isName named') (by rintro c ⟨⟩; rfl) (by rintro c ⟨⟩; rfl) same
      obtain ⟨inner, rests⟩ := listText_append_inj legible legible' (List.cons.inj lists).2
      exact ⟨by rw [skeleton, skeleton, functions, inner], rests⟩
    | constant | reference | group | unary | binary | conditional => cases alike
  | group inner, other, rest, more, legible, legible', closes, closes', same => by
    -- a group has the form of an operation, whose left side nothing that closes a group follows
    have alike := form_eq_of_append_eq legible legible' closes closes' same
    cases other with
    | group inner' =>
      rw [isLegible] at legible legible'
      simp only [toList_print_group, List.append_assoc, List.cons_append, List.nil_append] at same
      obtain ⟨inside, rests⟩ :=
        print_append_inj legible legible' .bracket .bracket (List.cons.inj same).2
      exact ⟨by rw [skeleton, skeleton, inside], (List.cons.inj rests).2⟩
    | binary operator left right =>
      rw [isLegible] at legible
      obtain ⟨legible', -⟩ := Bool.and_eq_true_iff.mp legible'
      simp only [toList_print_group, toList_print_binary, List.append_assoc, List.cons_append,
        List.nil_append] at same
      obtain ⟨-, rests⟩ :=
        print_append_inj legible legible' .bracket (operator.closes_sign _) (List.cons.inj same).2
      cases rests
    | constant | reference | call | unary | conditional => cases alike
  | unary operator operand, other, rest, more, legible, legible', closes, closes', same => by
    have alike := form_eq_of_append_eq legible legible' closes closes' same
    cases other with
    | unary operator' operand' =>
      rw [isLegible] at legible legible'
      obtain ⟨c, sign, -⟩ := operator.exists_sign
      obtain ⟨c', sign', -⟩ := operator'.exists_sign
      simp only [toList_print_unary, sign, sign', List.cons_append, List.nil_append] at same
      obtain ⟨rfl, after⟩ := List.cons.inj same
      obtain ⟨operands, rests⟩ := print_append_inj legible legible' closes closes' after
      have operators := UnaryOperator.sign_injective (String.toList_inj.mp (sign.trans sign'.symm))
      exact ⟨by rw [skeleton, skeleton, operators, operands], rests⟩
    | constant | reference | call | group | binary | conditional => cases alike
  | binary operator left right, other, rest, more, legible, legible', closes, closes', same => by
    have alike := form_eq_of_append_eq legible legible' closes closes' same
    obtain ⟨first, second⟩ := Bool.and_eq_true_iff.mp legible
    cases other with
    | group inner =>
      rw [isLegible] at legible'
      simp only [toList_print_group, toList_print_binary, List.append_assoc, List.cons_append,
        List.nil_append] at same
      obtain ⟨-, rests⟩ :=
        print_append_inj first legible' (operator.closes_sign _) .bracket (List.cons.inj same).2
      cases rests
    | binary operator' left' right' =>
      obtain ⟨first', second'⟩ := Bool.and_eq_true_iff.mp legible'
      simp only [toList_print_binary, List.append_assoc, List.cons_append, List.nil_append] at same
      obtain ⟨lefts, rests⟩ := print_append_inj first first' (operator.closes_sign _)
        (operator'.closes_sign _) (List.cons.inj same).2
      obtain ⟨signs, rests⟩ := append_inj_of_plain operator.plain_sign operator'.plain_sign
        (by rintro c ⟨⟩; rfl) (by rintro c ⟨⟩; rfl) (List.cons.inj rests).2
      obtain ⟨rights, rests⟩ :=
        print_append_inj second second' .bracket .bracket (List.cons.inj rests).2
      have operators := BinaryOperator.sign_injective (String.toList_inj.mp signs)
      exact ⟨by rw [skeleton, skeleton, lefts, operators, rights], (List.cons.inj rests).2⟩
    | constant | reference | call | unary | conditional => cases alike
  | conditional condition whenTrue whenFalse, other, rest, more, legible, legible', closes, closes', same => by
    have alike := form_eq_of_append_eq legible legible' closes closes' same
    cases other with
    | conditional condition' whenTrue' whenFalse' =>
      obtain ⟨legible, third⟩ := Bool.and_eq_true_iff.mp legible
      obtain ⟨first, second⟩ := Bool.and_eq_true_iff.mp legible
      obtain ⟨legible', third'⟩ := Bool.and_eq_true_iff.mp legible'
      obtain ⟨first', second'⟩ := Bool.and_eq_true_iff.mp legible'
      simp only [toList_print_conditional, List.append_assoc, List.cons_append, List.nil_append,
        List.append_cancel_left_eq] at same
      obtain ⟨conditions, rests⟩ := print_append_inj first first' .bracket .bracket same
      simp only [List.cons.injEq, true_and, List.append_cancel_left_eq] at rests
      obtain ⟨trues, rests⟩ := print_append_inj second second' .bracket .bracket rests
      simp only [List.cons.injEq, true_and, List.append_cancel_left_eq] at rests
      obtain ⟨falses, rests⟩ := print_append_inj third third' .bracket .bracket rests
      exact ⟨by rw [skeleton, skeleton, conditions, trues, falses], (List.cons.inj rests).2⟩
    | constant | reference | call | group | unary | binary => cases alike

theorem listText_append_inj : ∀ {equations : List (Equation α)} {others : List (Equation β)}
    {rest more : List Char}, allLegible isDigit equations = true → allLegible isDigit others = true →
    listText equations ++ ')' :: rest = listText others ++ ')' :: more →
    skeletons equations = skeletons others ∧ rest = more
  | [], [], _, _, _, _, same => ⟨rfl, (List.cons.inj same).2⟩
  | [], other :: others, _, _, _, legible', same => by
    obtain ⟨c, text, whole, apart⟩ := exists_cons_of_isLegible (Bool.and_eq_true_iff.mp legible').1
    rw [listText_cons, whole] at same
    exact absurd (List.cons.inj same).1.symm apart
  | first :: rest, [], _, _, legible, _, same => by
    obtain ⟨c, text, whole, apart⟩ := exists_cons_of_isLegible (Bool.and_eq_true_iff.mp legible).1
    rw [listText_cons, whole] at same
    exact absurd (List.cons.inj same).1 apart
  | first :: rest, first' :: rest', _, _, legible, legible', same => by
    obtain ⟨here, others⟩ := Bool.and_eq_true_iff.mp legible
    obtain ⟨here', others'⟩ := Bool.and_eq_true_iff.mp legible'
    rw [listText_cons, listText_cons, List.append_assoc, List.append_assoc] at same
    obtain ⟨firsts, tails⟩ :=
      print_append_inj here here' (closes_listTail rest _) (closes_listTail rest' _) same
    obtain ⟨lists, rests⟩ := listText_append_inj others others' (listText_append_eq tails)
    exact ⟨by rw [skeletons, skeletons, firsts, lists], rests⟩

end

mutual

/-- The values of constants are not written. -/
theorem print_skeleton : ∀ equation : Equation α, equation.skeleton.print = equation.print
  | constant _ _ => rfl
  | reference _ => rfl
  | call _ arguments => by rw [skeleton, print, print, printAll_skeletons arguments]
  | group inner => by rw [skeleton, print, print, print_skeleton inner]
  | unary _ operand => by rw [skeleton, print, print, print_skeleton operand]
  | binary _ left right => by
    rw [skeleton, print, print, print_skeleton left, print_skeleton right]
  | conditional condition whenTrue whenFalse => by
    rw [skeleton, print, print, print_skeleton condition, print_skeleton whenTrue,
      print_skeleton whenFalse]

theorem printAll_skeletons : ∀ equations : List (Equation α),
    printAll (skeletons equations) = printAll equations
  | [] => rfl
  | first :: rest => by
    rw [skeletons, printAll, printAll, print_skeleton first, printAll_skeletons rest]

end

/-- Whatever characters are digits: two equations with names and numbers for words have the same text exactly
if they are the same but for the values of their constants. -/
theorem print_eq_iff {equation : Equation α} {other : Equation β}
    (legible : equation.isLegible isDigit = true) (legible' : other.isLegible isDigit = true) :
    equation.print = other.print ↔ equation.skeleton = other.skeleton := by
  constructor
  · intro same
    exact (print_append_inj legible legible' .nothing .nothing (by rw [same])).1
  · intro same
    rw [← print_skeleton equation, same, print_skeleton other]

/-- A variable named like the beginning of a conditional, a sign before a conditional, and a group that has
the operands of an operator. -/
theorem print_eq_iff_assorted :
    let choice (x : Nat) : Equation Nat := .unary .negative (.conditional (.reference "if")
      (.call "max" [.reference "$·if·0·smth1.output", .constant "2.0" x]) (.call "pi" []))
    let sum (x : Nat) : Equation Nat := .binary .sub (.reference "if") (choice x)
    (sum 2).isLegible Char.isDigit = true ∧ (sum 3).isLegible Char.isDigit = true ∧
      (Equation.group (choice 2)).isLegible Char.isDigit = true ∧
      (sum 2).print = (sum 3).print ∧ (sum 2).print ≠ (Equation.group (choice 2)).print := by
  intro choice sum
  have two : (sum 2).isLegible Char.isDigit = true := by decide
  have three : (sum 3).isLegible Char.isDigit = true := by decide
  have grouped : (Equation.group (choice 2)).isLegible Char.isDigit = true := by decide
  exact ⟨two, three, grouped, (print_eq_iff two three).mpr rfl,
    fun same => nomatch (print_eq_iff two grouped).mp same⟩

end

end Equation
end StockFlow
