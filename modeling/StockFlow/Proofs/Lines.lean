import StockFlow.Proofs.Answers
import StockFlow.Session.Worker

/-!
# Lines

The text of every value is one line: what could break it is escaped, in the names and texts at every
depth, and numbers have no such characters. So a worker has one line for each line that holds something,
and its lines are the responses of an engine that has served the requests before.
-/

namespace StockFlow

/-! ## Texts without control characters -/

/-- Whether a text has no character below the space. -/
def IsLine (text : String) : Prop := ∀ c ∈ text.toList, 0x20 ≤ c.toNat

instance (text : String) : Decidable (IsLine text) :=
  decidable_of_iff (text.toList.all fun c => 0x20 ≤ c.toNat) (by simp [IsLine])

@[simp] theorem isLine_append {first second : String} :
    IsLine (first ++ second) ↔ IsLine first ∧ IsLine second := by
  simp [IsLine, or_imp, forall_and]

theorem isLine_intercalate {texts : List String} (all : ∀ text ∈ texts, IsLine text) :
    IsLine (",".intercalate texts) := by
  induction texts with
  | nil => decide
  | cons first rest ih =>
    have others := ih fun text member => all text (List.mem_cons_of_mem _ member)
    have alone := all first List.mem_cons_self
    cases rest with
    | nil => simpa using alone
    | cons second rest =>
      rw [String.intercalate_cons_cons, isLine_append, isLine_append]
      exact ⟨⟨alone, by decide⟩, others⟩

/-! ## Numbers -/

theorem isLine_of_digits {text : String} {n : Nat} (digits : text.toList = Nat.toDigits 10 n) :
    IsLine text := by
  intro c member
  rw [digits] at member
  have digit := Nat.isDigit_of_mem_toDigits (by decide) (by decide) member
  simp only [Char.isDigit, Bool.and_eq_true, decide_eq_true_eq, UInt32.le_iff_toNat_le] at digit
  exact (by decide : 0x20 ≤ 48).trans digit.1

theorem isLine_toString (n : Int) : IsLine (toString n) := by
  cases n with
  | ofNat n => exact isLine_of_digits Nat.toList_repr
  | negSucc n =>
    show IsLine ("-" ++ (n + 1).repr)
    exact isLine_append.mpr ⟨by decide, isLine_of_digits Nat.toList_repr⟩

namespace Digits

variable {ds : Digits}

theorem isLine_text (small : ∀ d ∈ ds, d < 10) : IsLine (text ds) := by
  have visible : ∀ d < 10, 0x20 ≤ (toChar d).toNat := by decide
  simp only [IsLine, text, String.toList_ofList, List.forall_mem_map]
  exact fun d digit => visible d (small d digit)

theorem lt_of_mem_ofNat {n d : Nat} (digit : d ∈ ofNat n) : d < 10 := by
  obtain ⟨c, member, rfl⟩ := List.mem_map.mp digit
  have digit := Nat.isDigit_of_mem_toDigits (by decide) (by decide) member
  simp only [Char.isDigit, Bool.and_eq_true, decide_eq_true_eq, UInt32.le_iff_toNat_le] at digit
  have upper : c.toNat ≤ 57 := digit.2
  have zero : '0'.toNat = 48 := rfl
  omega

end Digits

namespace NumberStyle

variable {style : NumberStyle}

theorem isLine_full {ds : Digits} (small : ∀ d ∈ ds, d < 10) (exponent : Int) :
    IsLine (style.full ds exponent) := by
  unfold full
  split
  · rw [isLine_append]
    constructor
    · apply Digits.isLine_text
      simp only [List.mem_append, List.mem_replicate]
      rintro d (digit | ⟨-, rfl⟩)
      · exact small d digit
      · decide
    · split <;> decide
  · have padded : ∀ d ∈ List.replicate ((-exponent).toNat + 1 - ds.length) 0 ++ ds, d < 10 := by
      simp only [List.mem_append, List.mem_replicate]
      rintro d (⟨-, rfl⟩ | digit)
      · decide
      · exact small d digit
    simp only [isLine_append]
    exact ⟨⟨Digits.isLine_text fun d digit => padded d (List.mem_of_mem_take digit), by decide⟩,
      Digits.isLine_text fun d digit => padded d (List.mem_of_mem_drop digit)⟩

theorem isLine_scientific {ds : Digits} (small : ∀ d ∈ ds, d < 10) (magnitude : Int) :
    IsLine (scientific ds magnitude) := by
  have head : IsLine (Digits.text (ds.take 1)) :=
    Digits.isLine_text fun d digit => small d (List.mem_of_mem_take digit)
  have tail : IsLine (Digits.text ds.tail) :=
    Digits.isLine_text fun d digit => small d (List.mem_of_mem_tail digit)
  have power : IsLine (Digits.text (Digits.ofNat magnitude.natAbs)) :=
    Digits.isLine_text fun d => Digits.lt_of_mem_ofNat
  have point : IsLine "." ∧ IsLine "e" ∧ IsLine "" ∧ IsLine "-" ∧ IsLine "+" := by decide
  unfold scientific
  split <;> split <;> simp [head, tail, power, point]

theorem isLine_unsigned (digits : Nat) (exponent : Int) : IsLine (style.unsigned digits exponent) := by
  have small : ∀ d ∈ Digits.ofNat digits, d < 10 := fun d => Digits.lt_of_mem_ofNat
  unfold unsigned
  dsimp only
  split
  · exact isLine_full small exponent
  · exact isLine_scientific small _

end NumberStyle

theorem Double.isLine_text (style : NumberStyle) (x : Float) : IsLine (Double.text style x) := by
  have sign : IsLine (if isNegative x then "-" else "") := by split <;> decide
  unfold Double.text
  dsimp only
  split
  · decide
  · split
    · exact isLine_append.mpr ⟨sign, by decide⟩
    · split <;> exact isLine_append.mpr ⟨sign, NumberStyle.isLine_unsigned _ _⟩

/-! ## Values -/

namespace Value

theorem le_of_mem_escape (c : Char) : ∀ d ∈ escape c, 0x20 ≤ d.toNat := by
  have visible : ∀ n < 16, 0x20 ≤ (hexDigit n).toNat := by decide
  unfold escape
  split
  · simp
  split
  · simp
  split
  · rename_i control
    have high := visible (c.toNat / 16) (by omega)
    have low := visible (c.toNat % 16) (by omega)
    repeat' split
    case isFalse =>
      simp [high, low]
    all_goals simp
  · rename_i plain
    simpa using plain

theorem isLine_quote (s : String) : IsLine (quote s) := by
  have inside : IsLine (String.ofList (s.toList.flatMap escape)) := by
    simp only [IsLine, String.toList_ofList, List.mem_flatMap]
    rintro c ⟨before, -, member⟩
    exact le_of_mem_escape before c member
  simp only [quote, isLine_append]
  exact ⟨⟨by decide, inside⟩, by decide⟩

mutual

/-- The text of a value is one line. -/
theorem isLine_render : ∀ value : Value Float, IsLine value.render
  | null => by decide
  | boolean value => by cases value <;> decide
  | integer value => isLine_toString value
  | real value => by
    unfold render
    split
    · exact Double.isLine_text _ _
    · decide
  | text value => isLine_quote value
  | list elements => by
    simp only [render, isLine_append]
    exact ⟨⟨by decide, isLine_intercalate (isLine_renderAll elements)⟩, by decide⟩
  | record members => by
    simp only [render, isLine_append]
    exact ⟨⟨by decide, isLine_intercalate (isLine_renderMembers members)⟩, by decide⟩

theorem isLine_renderAll : ∀ elements : List (Value Float), ∀ text ∈ renderAll elements, IsLine text
  | [] => by simp [renderAll]
  | first :: rest => by
    rw [renderAll, List.forall_mem_cons]
    exact ⟨isLine_render first, isLine_renderAll rest⟩

theorem isLine_renderMembers :
    ∀ members : List (String × Value Float), ∀ text ∈ renderMembers members, IsLine text
  | [] => by simp [renderMembers]
  | (name, first) :: rest => by
    rw [renderMembers, List.forall_mem_cons, isLine_append, isLine_append]
    exact ⟨⟨⟨isLine_quote name, by decide⟩, isLine_render first⟩, isLine_renderMembers rest⟩

end

end Value

/-! ## Sessions of lines -/

namespace Worker

section Sessions

variable {α : Type} [Scalar α] {worker : Worker α} {line : String} {parts : List (Value α)}

/-- The request that a line holds: a list. -/
def request? (line : String) : Option (Value α) :=
  match Value.parse? (Text.trim line) with
  | some (.list parts) => some (.list parts)
  | _ => none

/-- Answers lines one after the other; `complain` is what the reader says of a line that is no JSON. -/
def converse (complain : String → String) : List String → Worker α → List (Option String) × Worker α
  | [], worker => ([], worker)
  | line :: rest, worker =>
    let (answer, worker) := worker.handleLine line
    let (answers, worker) := converse complain rest worker
    (answer.write? (complain line) :: answers, worker)

theorem not_blank_of_parse? {value : Value α} (parsed : Value.parse? (Text.trim line) = some value) :
    Text.trim line ≠ "" := by
  intro blank
  have empty : (Value.parse? "" : Option (Value α)) = none := rfl
  simp [blank, empty] at parsed

theorem request?_of_list (parsed : Value.parse? (Text.trim line) = some (.list parts)) :
    request? line = some (.list parts) := by
  simp [request?, parsed]

theorem request?_of_other
    (other : ∀ parts : List (Value α), Value.parse? (Text.trim line) ≠ some (.list parts)) :
    (request? line : Option (Value α)) = none := by
  unfold request?
  split
  · rename_i parts parsed
    exact absurd parsed (other parts)
  · rfl

/-! ### One line -/

theorem handleLine_of_blank (blank : Text.trim line = "") : worker.handleLine line = (.silence, worker) := by
  simp [handleLine, blank]

theorem handleLine_of_list (parsed : Value.parse? (Text.trim line) = some (.list parts)) :
    worker.handleLine line = (.response (worker.engine.handle (.list parts)).1,
      { worker with engine := (worker.engine.handle (.list parts)).2 }) := by
  simp [handleLine, not_blank_of_parse? parsed, parsed, send]

theorem handleLine_of_other (filled : Text.trim line ≠ "")
    (other : ∀ parts : List (Value α), Value.parse? (Text.trim line) ≠ some (.list parts))
    (complaint : String) :
    (worker.handleLine line).2 = worker ∧ ∃ message, (worker.handleLine line).1.write? complaint =
      some (Engine.failure (.null : Value α) message).render := by
  cases parsed : (Value.parse? (Text.trim line) : Option (Value α)) with
  | none =>
    have handled : worker.handleLine line = (.malformed, worker) := by
      simp [handleLine, filled, parsed]
    rw [handled]
    exact ⟨rfl, complaint, rfl⟩
  | some value =>
    have handled : worker.handleLine line =
        (.response (Engine.failure .null "request must be a JSON array"), worker) := by
      cases value with
      | list parts => exact absurd parsed (other parts)
      | _ => simp [handleLine, filled, parsed]
    rw [handled]
    exact ⟨rfl, "request must be a JSON array", rfl⟩

/-! ### Many lines -/

/-- A line reaches the engine as the request that it holds. -/
theorem engine_handleLine : (worker.handleLine line).2.engine =
    (Engine.serve (request? line).toList worker.engine).2 := by
  by_cases held : ∃ parts : List (Value α), Value.parse? (Text.trim line) = some (.list parts)
  · obtain ⟨parts, parsed⟩ := held
    simp [handleLine_of_list parsed, request?_of_list parsed, Engine.serve]
  · have other := not_exists.mp held
    rw [request?_of_other other]
    by_cases blank : Text.trim line = ""
    · simp [handleLine_of_blank blank, Engine.serve]
    · simp [(handleLine_of_other blank other "").1, Engine.serve]

theorem engine_converse (complain : String → String) (lines : List String) (worker : Worker α) :
    (converse complain lines worker).2.engine =
      (Engine.serve (lines.filterMap request?) worker.engine).2 := by
  induction lines generalizing worker with
  | nil => rfl
  | cons line rest ih =>
    have together : (line :: rest).filterMap (request? (α := α)) =
        (request? line).toList ++ rest.filterMap request? := by
      cases held : (request? line : Option (Value α)) <;> simp [held]
    rw [together, Engine.serve_append]
    simp [converse, ih, engine_handleLine]

theorem converse_append (complain : String → String) (before after : List String) (worker : Worker α) :
    converse complain (before ++ after) worker =
      ((converse complain before worker).1 ++ (converse complain after (converse complain before worker).2).1,
        (converse complain after (converse complain before worker).2).2) := by
  induction before generalizing worker with
  | nil => rfl
  | cons line rest ih => simp [converse, ih]

theorem length_converse (complain : String → String) (lines : List String) (worker : Worker α) :
    (converse complain lines worker).1.length = lines.length := by
  induction lines generalizing worker with
  | nil => rfl
  | cons line rest ih => simp [converse, ih]

theorem converse_at (complain : String → String) (before after : List String) (worker : Worker α) :
    (converse complain (before ++ line :: after) worker).1[before.length]? =
      some (((converse complain before worker).2.handleLine line).1.write? (complain line)) := by
  simp [converse_append, converse, length_converse]

theorem converse_concat (complain : String → String) (before : List String) (worker : Worker α) :
    (converse complain (before ++ [line]) worker).2 =
      ((converse complain before worker).2.handleLine line).2 := by
  simp [converse_append, converse]

end Sessions

theorem isLine_of_write? {answer : Answer Float} {complaint text : String}
    (written : answer.write? complaint = some text) : IsLine text := by
  cases answer with
  | silence => cases written
  | malformed | response =>
    cases written
    exact Value.isLine_render _

theorem exists_write?_of_filled {worker : Worker Float} {line : String} (filled : Text.trim line ≠ "")
    (complaint : String) : ∃ text, (worker.handleLine line).1.write? complaint = some text := by
  by_cases held : ∃ parts : List (Value Float), Value.parse? (Text.trim line) = some (.list parts)
  · obtain ⟨parts, parsed⟩ := held
    rw [handleLine_of_list parsed]
    exact ⟨_, rfl⟩
  · obtain ⟨-, message, written⟩ := handleLine_of_other filled (not_exists.mp held) complaint
    exact ⟨_, written⟩

/-- In any session a blank line has no answer, and any other line has one line as its answer. Where it
holds a list, that is the text of the response of the engine, which has served the lists of the lines
before; else it is the text of a failure, which leaves the engine as it was. -/
theorem converse_carries (complain : String → String) (worker : Worker Float)
    (before after : List String) (line : String) :
    let engine := (Engine.serve (before.filterMap request?) worker.engine).2
    let answer? := (converse complain (before ++ line :: after) worker).1[before.length]?
    (converse complain before worker).2.engine = engine ∧
      (Text.trim line = "" → answer? = some none) ∧
      (Text.trim line ≠ "" → ∃ text, answer? = some (some text) ∧ IsLine text) ∧
      (∀ parts, Value.parse? (Text.trim line) = some (.list parts) →
        answer? = some (some (engine.handle (.list parts)).1.render)) ∧
      (Text.trim line ≠ "" →
        (∀ parts : List (Value Float), Value.parse? (Text.trim line) ≠ some (.list parts)) →
          (∃ message, answer? = some (some (Engine.failure (.null : Value Float) message).render)) ∧
            (converse complain (before ++ [line]) worker).2.engine = engine) := by
  intro engine answer?
  have reached : (converse complain before worker).2.engine = engine :=
    engine_converse complain before worker
  have answered : answer? =
      some (((converse complain before worker).2.handleLine line).1.write? (complain line)) :=
    converse_at complain before after worker
  rw [answered, converse_concat]
  refine ⟨reached, fun blank => ?_, fun filled => ?_, fun parts parsed => ?_, fun filled other => ?_⟩
  · rw [handleLine_of_blank blank]
    rfl
  · obtain ⟨text, written⟩ := exists_write?_of_filled filled (complain line)
    exact ⟨text, congrArg some written, isLine_of_write? written⟩
  · rw [handleLine_of_list parsed, reached]
    rfl
  · obtain ⟨kept, message, written⟩ := handleLine_of_other filled other (complain line)
    exact ⟨⟨message, congrArg some written⟩, by rw [kept, reached]⟩

theorem converse_carries_nested : ∃ worker : Worker Float,
    Worker.start (Project.compile Plan.nested) = .ok worker ∧
      let answers := (converse (fun _ => "expected value") ["", "[7, \"reset\"]", "3"] worker).1
      answers[0]? = some none ∧
        (∃ parts, Value.parse? (Text.trim "[7, \"reset\"]") = some (.list parts) ∧
          answers[1]? = some (some (worker.engine.handle (.list parts)).1.render)) ∧
        ∃ message, answers[2]? = some (some (Engine.failure (.null : Value Float) message).render) := by
  obtain ⟨project, plan, compiled, planned, -⟩ := Plan.nested_runs
  let worker : Worker Float := ⟨.start (.start plan), 1⟩
  have started : Worker.start (Project.compile Plan.nested) = .ok worker := by
    simp [Worker.start, compiled, Simulation.ofProject, planned, bind, Except.bind, pure, Except.pure, worker]
  have held : ∃ parts : List (Value Float),
      Value.parse? (Text.trim "[7, \"reset\"]") = some (.list parts) := by
    have check : (request? "[7, \"reset\"]" : Option (Value Float)).isSome := by decide +kernel
    by_contra other
    rw [request?_of_other (not_exists.mp other)] at check
    cases check
  have other : ∀ parts : List (Value Float), Value.parse? (Text.trim "3") ≠ some (.list parts) := by
    have check : (request? "3" : Option (Value Float)).isNone := by decide +kernel
    intro parts parsed
    rw [request?_of_list parsed] at check
    cases check
  obtain ⟨parts, parsed⟩ := held
  obtain ⟨-, silent, -⟩ := converse_carries (fun _ => "expected value") worker [] ["[7, \"reset\"]", "3"] ""
  obtain ⟨-, -, -, answered, -⟩ :=
    converse_carries (fun _ => "expected value") worker [""] ["3"] "[7, \"reset\"]"
  obtain ⟨-, -, -, -, failed⟩ :=
    converse_carries (fun _ => "expected value") worker ["", "[7, \"reset\"]"] [] "3"
  exact ⟨worker, started, silent rfl, ⟨parts, parsed, answered parts parsed⟩,
    (failed (by decide) other).1⟩

end Worker
end StockFlow
