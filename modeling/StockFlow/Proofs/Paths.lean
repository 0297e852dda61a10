import Mathlib.Data.List.TakeDrop
import Mathlib.Data.List.TakeWhile
import StockFlow.Function

/-!
# Paths

A path is its own first step or goes on behind a dot, and a mark is a dot in front of it. A plain
name can be a step of a path and cannot be mistaken for a path or for a call.
-/

namespace StockFlow

namespace Path

/-- Whether there is a dot in a name or a path. -/
def IsDotted (path : Path) : Prop := '.' ∈ path.toList

instance {path : Path} : Decidable (IsDotted path) := inferInstanceAs (Decidable (_ ∈ _))

variable {path rest : Path} {head : Name}

theorem ne_dot_of_not_dotted (plain : ¬ IsDotted path) :
    ∀ c ∈ path.toList, decide (c ≠ '.') = true := by
  intro c member
  refine decide_eq_true fun same => plain ?_
  rwa [same] at member

theorem split_of_not_dotted (plain : ¬ IsDotted path) : split path = (path, none) := by
  unfold split
  rw [List.span_eq_takeWhile_dropWhile,
    List.dropWhile_eq_nil_iff.mpr (ne_dot_of_not_dotted plain)]

theorem split_of_append (plain : ¬ IsDotted head)
    (whole : path.toList = head.toList ++ '.' :: rest.toList) : split path = (head, some rest) := by
  unfold split
  rw [List.span_eq_takeWhile_dropWhile, whole,
    List.takeWhile_append_of_pos (ne_dot_of_not_dotted plain),
    List.dropWhile_append_of_pos (ne_dot_of_not_dotted plain)]
  simp [String.ofList_toList]

/-- A path is its own first step, or goes on behind a dot. -/
theorem split_cases (path : Path) :
    (¬ IsDotted path ∧ split path = (path, none)) ∨
    ∃ head rest : String, ¬ IsDotted head ∧ path.toList = head.toList ++ '.' :: rest.toList ∧
      split path = (head, some rest) := by
  by_cases dotted : IsDotted path
  · obtain ⟨before, after, whole, first⟩ := List.eq_append_cons_of_mem dotted
    have plain : ¬ IsDotted (String.ofList before) := by
      rwa [IsDotted, String.toList_ofList]
    have joined : path.toList = (String.ofList before).toList ++ '.' :: (String.ofList after).toList := by
      simp only [String.toList_ofList, whole]
    exact .inr ⟨_, _, plain, joined, split_of_append plain joined⟩
  · exact .inl ⟨dotted, split_of_not_dotted dotted⟩

theorem eq_of_split {path : Path} {head : Name} (whole : split path = (head, none)) : head = path := by
  rcases split_cases path with ⟨-, found⟩ | ⟨_, _, -, -, found⟩
  · exact (congrArg Prod.fst (found.symm.trans whole)).symm
  · cases found.symm.trans whole

theorem after?_eq_some {lead text rest : String} :
    after? lead text = some rest ↔ text.toList = lead.toList ++ rest.toList := by
  unfold after?
  constructor
  · intro found
    split at found
    · rename_i starts
      obtain ⟨tail, whole⟩ := List.isPrefixOf_iff_prefix.mp starts
      cases found
      rw [String.toList_ofList, ← whole, ← String.length_toList, List.drop_left]
    · cases found
  · intro whole
    have starts : lead.toList.isPrefixOf text.toList = true :=
      List.isPrefixOf_iff_prefix.mpr ⟨rest.toList, whole.symm⟩
    rw [if_pos starts, whole, ← String.length_toList, List.drop_left, String.ofList_toList]

theorem head_of_not_dotted (plain : ¬ IsDotted path) : Path.head path = path := by
  rw [Path.head, split_of_not_dotted plain]

/-- A mark leaves no name for the first step. -/
theorem after?_of_not_dotted {lead text : String} (dotted : IsDotted lead) (plain : ¬ IsDotted text) :
    after? lead text = none := by
  refine Option.eq_none_iff_forall_ne_some.mpr fun rest found => plain ?_
  rw [IsDotted, after?_eq_some.mp found]
  exact List.mem_append_left _ dotted

theorem after?_of_head (named : Path.head path ≠ "") : after? "." path = none := by
  refine Option.eq_none_iff_forall_ne_some.mpr fun rest found => named ?_
  have whole : path.toList = "".toList ++ '.' :: rest.toList := after?_eq_some.mp found
  rw [Path.head, split_of_append (by decide) whole]

theorem unmarked_of_not_dotted (plain : ¬ IsDotted path) : unmarked path = path := by
  have unmarked_ : after? "." path = none := by
    refine Option.eq_none_iff_forall_ne_some.mpr fun rest found => plain ?_
    simp [IsDotted, after?_eq_some.mp found]
  rw [unmarked, unmarked_, Option.getD_none]

theorem unmarked_of_head (named : Path.head path ≠ "") : unmarked path = path := by
  rw [unmarked, after?_of_head named, Option.getD_none]

theorem isMarked_of_head (named : Path.head path ≠ "") : isMarked path = false := by
  rw [isMarked, after?_of_head named]
  rfl

theorem after?_mark (path : Path) : after? "." ("." ++ path) = some path :=
  after?_eq_some.mpr (String.toList_append ..)


/-! ## Steps -/

/-- Whether no step of a path is empty. -/
def IsSolid (path : Path) : Prop := [] ∉ path.toList.splitOn '.'

instance : Decidable (IsSolid path) := inferInstanceAs (Decidable (_ ∉ _))

theorem IsSolid.ne_empty (solid : IsSolid path) : path ≠ "" := by
  rintro rfl
  exact solid (by simp)

theorem IsSolid.of_append (solid : IsSolid path) (plain : ¬ IsDotted head)
    (whole : path.toList = head.toList ++ '.' :: rest.toList) : head ≠ "" ∧ IsSolid rest := by
  have steps : path.toList.splitOn '.' = head.toList :: rest.toList.splitOn '.' := by
    rw [whole]
    refine List.splitOnP_append_cons_of_forall_mem ?_ '.' (by simp) _
    exact fun c member => by simpa using ne_dot_of_not_dotted plain c member
  rw [IsSolid, steps, List.mem_cons, not_or] at solid
  refine ⟨?_, solid.2⟩
  rintro rfl
  exact solid.1 rfl

theorem IsSolid.head_ne_empty (solid : IsSolid path) : Path.head path ≠ "" := by
  rcases split_cases path with ⟨-, split⟩ | ⟨head, rest, plain, whole, split⟩
  · rw [Path.head, split]
    exact solid.ne_empty
  · rw [Path.head, split]
    exact (solid.of_append plain whole).1

end Path

namespace Name

/-- Whether a name can be a step of a path: it is not empty, has no dot and is no primitive's. -/
def IsPlain (name : Name) : Prop := name ≠ "" ∧ ¬ Path.IsDotted name ∧ isPrimitive name = false

instance : DecidablePred IsPlain := fun _ => inferInstanceAs (Decidable (_ ∧ _ ∧ _))

end Name
end StockFlow
