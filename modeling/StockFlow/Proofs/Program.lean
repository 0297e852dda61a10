import Mathlib.Data.List.Nodup
import StockFlow.Run.Simulation

/-!
# Programs over a row

A program is sequenced if each assignment reads what is known at the outset or was assigned before.
If it assigns each slot once and no known one, then its result depends on the known slots alone,
every assignment holds in the result as an equation, and making the assignments again changes
nothing.
-/

namespace StockFlow

variable {α : Type} [Scalar α]

/-! ## Rows -/

namespace Row

theorem get_setIfInBounds {row : Row α} {slot other : Nat} {x : α} (inside : slot < row.size) :
    get (row.setIfInBounds slot x) other = if slot = other then x else row.get other := by
  simp only [get, Array.getD_eq_getD_getElem?, Array.getElem?_setIfInBounds]
  split
  · simp
  · rfl

theorem get_setIfInBounds_ne {row : Row α} {slot other : Nat} {x : α} (differ : slot ≠ other) :
    get (row.setIfInBounds slot x) other = row.get other := by
  simp [get, Array.getD_eq_getD_getElem?, differ]

theorem get_of_le {row : Row α} {slot : Nat} (outside : row.size ≤ slot) :
    row.get slot = Scalar.undefined := by
  simp [get, Array.getD_eq_getD_getElem?, outside]

theorem ext_get {row other : Row α} (size : row.size = other.size)
    (same : ∀ slot < row.size, row.get slot = other.get slot) : row = other := by
  refine Array.ext size fun i first second => ?_
  simpa [get, Array.getD, first, second] using same i first

theorem setIfInBounds_get (row : Row α) (slot : Nat) :
    row.setIfInBounds slot (row.get slot) = row := by
  refine ext_get (by simp) fun other inside => ?_
  by_cases same : slot = other
  · rw [get_setIfInBounds (by simpa [same] using inside), if_pos same, same]
  · exact get_setIfInBounds_ne same

end Row

/-! ## Terms -/

namespace Term

/-- The slots that the value of a term depends on. -/
def reads : Term α → List Nat
  | constant _ => []
  | slot index => [index]
  | infinity => []
  | pi => []
  | elementary _ argument => argument.reads
  | maximum left right => left.reads ++ right.reads
  | minimum left right => left.reads ++ right.reads
  | pulse volume first interval => timeSlot :: (volume.reads ++ first.reads ++ interval.reads)
  | quotient left right => left.reads ++ right.reads
  | quotientOr left right otherwise => left.reads ++ right.reads ++ otherwise.reads
  | lookup _ _ argument => argument.reads
  | not operand => operand.reads
  | binary _ left right => left.reads ++ right.reads
  | conditional condition whenTrue whenFalse =>
    condition.reads ++ whenTrue.reads ++ whenFalse.reads

theorem value_congr (dt : α) {row other : Row α} {term : Term α}
    (same : ∀ slot ∈ term.reads, row.get slot = other.get slot) :
    term.value dt row = term.value dt other := by
  induction term <;> simp_all [reads, value, Row.time]

end Term

/-! ## Programs -/

/-- The slots that a program assigns, in its order. -/
def written (program : List (Assignment α)) : List Nat := program.map Assignment.slot

/-- Whether what each assignment of a program reads, in some sense, is known or was assigned before. -/
def SequencedBy (reads : Assignment α → Nat → Prop) (known : Nat → Prop) :
    List (Assignment α) → Prop
  | [] => True
  | a :: rest => (∀ slot, reads a slot → known slot) ∧
    SequencedBy reads (fun slot => known slot ∨ slot = a.slot) rest

/-- Whether each assignment reads only what is known or was assigned before. -/
def Sequenced (known : Nat → Prop) (program : List (Assignment α)) : Prop :=
  SequencedBy (fun a slot => slot ∈ a.term.reads) known program

variable {known more : Nat → Prop} {program first second : List (Assignment α)} {dt : α}
  {row other : Row α}

section

omit [Scalar α]

variable {reads : Assignment α → Nat → Prop}

theorem SequencedBy.mono (sequenced : SequencedBy reads known program)
    (wider : ∀ slot, known slot → more slot) : SequencedBy reads more program := by
  induction program generalizing known more with
  | nil => trivial
  | cons a rest ih =>
    refine ⟨fun slot read => wider slot (sequenced.1 slot read), ih sequenced.2 ?_⟩
    exact fun slot => Or.imp_left (wider slot)

theorem SequencedBy.append (before : SequencedBy reads known first)
    (after : SequencedBy reads (fun slot => known slot ∨ slot ∈ written first) second) :
    SequencedBy reads known (first ++ second) := by
  induction first generalizing known with
  | nil => exact after.mono fun slot => by simp [written]
  | cons a rest ih =>
    refine ⟨before.1, ih before.2 (after.mono fun slot => ?_)⟩
    simp only [written, List.map_cons, List.mem_cons]
    exact (or_assoc ..).mpr

/-- What is read without being known is assigned earlier. -/
theorem SequencedBy.idxOf_lt (sequenced : SequencedBy reads known program)
    (distinct : (written program).Nodup) {a : Assignment α} (member : a ∈ program) {slot : Nat}
    (read : reads a slot) : known slot ∨ slot ∈ written program ∧
      (written program).idxOf slot < (written program).idxOf a.slot := by
  induction program generalizing known with
  | nil => cases member
  | cons b rest ih =>
    obtain ⟨fresh, distinct⟩ := List.nodup_cons.mp distinct
    rcases List.mem_cons.mp member with rfl | member
    · exact .inl (sequenced.1 slot read)
    · have other : b.slot ≠ a.slot := by
        rintro same
        exact fresh (same ▸ List.mem_map_of_mem member)
      have later : (written (b :: rest)).idxOf a.slot = (written rest).idxOf a.slot + 1 :=
        List.idxOf_cons_ne _ other
      rw [later]
      rcases ih sequenced.2 distinct member with (before | rfl) | ⟨listed, earlier⟩
      · exact .inl before
      · refine .inr ⟨List.mem_cons_self, ?_⟩
        have first : (written (b :: rest)).idxOf b.slot = 0 := List.idxOf_cons_self
        omega
      · have differ : b.slot ≠ slot := by
          rintro rfl
          exact fresh listed
        have next : (written (b :: rest)).idxOf slot = (written rest).idxOf slot + 1 :=
          List.idxOf_cons_ne _ differ
        exact .inr ⟨List.mem_cons_of_mem _ listed, by omega⟩

end

namespace Row

theorem size_assign : (assign dt row program).size = row.size := by
  unfold assign
  induction program generalizing row with
  | nil => rfl
  | cons a rest ih => rw [List.foldl_cons, ih, Array.size_setIfInBounds]

theorem assign_cons {a : Assignment α} : assign dt row (a :: program) =
    assign dt (row.setIfInBounds a.slot (a.term.value dt row)) program := rfl

theorem get_assign_of_notMem {slot : Nat} (absent : slot ∉ written program) :
    (assign dt row program).get slot = row.get slot := by
  induction program generalizing row with
  | nil => rfl
  | cons a rest ih =>
    simp only [written, List.map_cons, List.mem_cons, not_or] at absent ih
    rw [assign_cons, ih absent.2, get_setIfInBounds_ne (Ne.symm absent.1)]

/-- In the result of a sequenced program its assignments hold as equations. -/
theorem get_assign (sequenced : Sequenced known program) (distinct : (written program).Nodup)
    (apart : ∀ slot, known slot → slot ∉ written program)
    (inside : ∀ slot ∈ written program, slot < row.size) :
    ∀ a ∈ program, (assign dt row program).get a.slot = a.term.value dt (assign dt row program) := by
  induction program generalizing known row with
  | nil => simp
  | cons a rest ih =>
    obtain ⟨fresh, distinct⟩ := List.nodup_cons.mp distinct
    rw [List.forall_mem_cons, assign_cons]
    constructor
    · -- neither its own slot nor those that its term reads are assigned again
      rw [get_assign_of_notMem fresh, get_setIfInBounds (inside _ List.mem_cons_self), if_pos rfl]
      refine Term.value_congr dt fun slot read => ?_
      have unwritten := apart slot (sequenced.1 slot read)
      simp only [written, List.map_cons, List.mem_cons, not_or] at unwritten
      rw [get_assign_of_notMem unwritten.2, get_setIfInBounds_ne (Ne.symm unwritten.1)]
    · refine ih sequenced.2 distinct ?_ fun slot member => ?_
      · rintro slot (before | rfl)
        · exact fun member => apart slot before (List.mem_cons_of_mem _ member)
        · exact fresh
      · rw [Array.size_setIfInBounds]
        exact inside slot (List.mem_cons_of_mem _ member)

/-- The result of a sequenced program depends on the known slots alone. -/
theorem assign_congr (sequenced : Sequenced known program) (size : row.size = other.size)
    (same : ∀ slot, known slot → row.get slot = other.get slot)
    (inside : ∀ slot ∈ written program, slot < row.size) {slot : Nat}
    (reached : known slot ∨ slot ∈ written program) :
    (assign dt row program).get slot = (assign dt other program).get slot := by
  induction program generalizing known row other with
  | nil => exact same slot (by simpa [written] using reached)
  | cons a rest ih =>
    rw [assign_cons, assign_cons]
    refine ih sequenced.2 (by simp [size]) ?_ ?_ ?_
    · intro slot reached
      have value := Term.value_congr dt fun slot read => same slot (sequenced.1 slot read)
      have here := inside a.slot List.mem_cons_self
      rw [get_setIfInBounds here, get_setIfInBounds (size ▸ here), value]
      split
      · rfl
      · rename_i differ
        exact same slot (reached.resolve_right (Ne.symm differ))
    · intro slot member
      rw [Array.size_setIfInBounds]
      exact inside slot (List.mem_cons_of_mem _ member)
    · simpa [written, or_assoc] using reached

theorem assign_eq_self (holds : ∀ a ∈ program, row.get a.slot = a.term.value dt row) :
    assign dt row program = row := by
  induction program with
  | nil => rfl
  | cons a rest ih =>
    obtain ⟨here, others⟩ := List.forall_mem_cons.mp holds
    rw [assign_cons, ← here, setIfInBounds_get, ih others]

end Row
end StockFlow
