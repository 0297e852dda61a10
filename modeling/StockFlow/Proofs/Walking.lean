import Mathlib.Logic.Relation
import StockFlow.Proofs.Names
import StockFlow.Proofs.Order

/-!
# Walks without a bound

The walk that sorts names goes down their dependencies to a bounded depth only. Without the bound it is
the same walk: each step down takes a name off the waiting ones, so it comes to an end for all dependencies,
those with loops included, and never reaches the bound. Where dependencies are closed and without loops, it
ends with each of the names behind all those that it depends on, directly or through names that are not
among them.
-/

namespace StockFlow.Order

open scoped List

variable {dependencies : Keyed NameSet} {names : List Name}

/-- The walk over names and down their dependencies, however deep they go. -/
inductive Walks (dependencies : Keyed NameSet) : Progress → List Name → Progress → Prop
  | done {p : Progress} : Walks dependencies p [] p
  | pass {p q : Progress} {name : Name} {rest : List Name} (absent : name ∉ p.waiting)
      (after : Walks dependencies p rest q) : Walks dependencies p (name :: rest) q
  | list {p below q : Progress} {name : Name} {rest : List Name} (waits : name ∈ p.waiting)
      (down : Walks dependencies { p with waiting := p.waiting.erase name }
        (needs dependencies name) below)
      (after : Walks dependencies { below with listed := below.listed ++ [name] } rest q) :
      Walks dependencies p (name :: rest) q

/-- A walk ends in one way only. -/
theorem Walks.unique {p q r : Progress} (one : Walks dependencies p names q)
    (two : Walks dependencies p names r) : q = r := by
  induction one generalizing r with
  | done =>
    cases two with
    | done => rfl
  | pass absent _ ih =>
    cases two with
    | pass _ after => exact ih after
    | list waits => exact absurd waits absent
  | list waits _ _ downs afters =>
    cases two with
    | pass absent => exact absurd waits absent
    | list _ down after =>
      obtain rfl := downs down
      exact afters after

/-- A walk neither loses names nor makes new ones. -/
theorem Walks.perm {p q : Progress} (walks : Walks dependencies p names q) :
    (q.listed ++ q.waiting).Perm (p.listed ++ p.waiting) := by
  induction walks with
  | done => exact .refl _
  | pass _ _ ih => exact ih
  | @list p below q name rest waits _ _ downs afters =>
    calc q.listed ++ q.waiting
      _ ~ (below.listed ++ [name]) ++ below.waiting := afters
      _ ~ name :: (below.listed ++ below.waiting) := by
        rw [List.append_assoc]
        exact List.perm_middle
      _ ~ name :: (p.listed ++ p.waiting.erase name) := downs.cons name
      _ ~ p.listed ++ name :: p.waiting.erase name := List.perm_middle.symm
      _ ~ p.listed ++ p.waiting := (List.perm_cons_erase waits).symm.append_left p.listed

theorem Walks.length_waiting_le {p q : Progress} (walks : Walks dependencies p names q) :
    q.waiting.length ≤ p.waiting.length := by
  induction walks with
  | done => exact Nat.le_refl _
  | pass _ _ ih => exact ih
  | list _ _ _ downs afters => exact Nat.le_trans afters (Nat.le_trans downs List.length_erase_le)

/-- A walk is made by visits one after the other, if each visit is a part of one. -/
theorem walks_foldl {visit : Progress → Name → Progress} {depth : Nat}
    (visits : ∀ p name rest q, p.waiting.length ≤ depth → Walks dependencies (visit p name) rest q →
      Walks dependencies p (name :: rest) q)
    {p : Progress} (enough : p.waiting.length ≤ depth) :
    Walks dependencies p names (names.foldl visit p) := by
  induction names generalizing p with
  | nil => exact .done
  | cons name rest ih =>
    have here := (visits p name [] (visit p name) enough .done).length_waiting_le
    exact visits p name rest _ enough (ih (Nat.le_trans here enough))

/-- A visit is a part of a walk, if the bound on its depth is not below the number of waiting names. -/
theorem walks_visit (depth : Nat) (p : Progress) (name : Name) (rest : List Name) (q : Progress)
    (enough : p.waiting.length ≤ depth)
    (after : Walks dependencies (visit dependencies depth p name) rest q) :
    Walks dependencies p (name :: rest) q := by
  induction depth generalizing p name rest q with
  | zero =>
    have none : p.waiting = [] := List.length_eq_zero_iff.mp (Nat.le_zero.mp enough)
    exact .pass (by simp [none]) after
  | succ depth ih =>
    unfold visit at after
    split at after
    · rename_i waits
      have fewer : (p.waiting.erase name).length ≤ depth := by
        have := List.length_erase_of_mem waits
        omega
      exact .list waits (walks_foldl ih fewer) after
    · rename_i absent
      exact .pass absent after

/-- The walk over names that are all waiting comes to an end, for all dependencies, and lists what the sort
does. -/
theorem exists_walks (dependencies : Keyed NameSet) (names : List Name) :
    ∃ q, Walks dependencies ⟨names, []⟩ names q ∧ q.listed = sort dependencies names :=
  ⟨_, walks_foldl (walks_visit names.length) (Nat.le_refl _), rfl⟩

/-- Closed dependencies reach past the names in between. -/
theorem needs_of_transGen (closed : Closed dependencies) {a b : Name}
    (reached : Relation.TransGen (fun x y => y ∈ needs dependencies x) a b) :
    b ∈ needs dependencies a := by
  induction reached with
  | single direct => exact direct
  | tail _ direct ih => exact closed a _ ih _ direct

/-- The walk over distinct names ends in one way only: no name waits, the names are listed in some order,
and each of them stands behind all others that it depends on, directly or through names that need not be
listed. -/
theorem walks_iff_eq_sort (closed : Closed dependencies) (loopless : Loopless dependencies)
    (distinct : names.Nodup) :
    (∀ q, Walks dependencies ⟨names, []⟩ names q ↔ q = ⟨[], sort dependencies names⟩) ∧
      (sort dependencies names).Perm names ∧
      ∀ a ∈ names, ∀ b ∈ names, Relation.TransGen (fun x y => y ∈ needs dependencies x) a b →
        [b, a].Sublist (sort dependencies names) := by
  obtain ⟨perm, -⟩ := sort_follows closed loopless distinct
  refine ⟨?_, perm, fun a first b second reached => ?_⟩
  · obtain ⟨⟨waiting, listed⟩, walks, rfl⟩ := exists_walks dependencies names
    have none : waiting = [] := by
      have lengths := walks.perm.length_eq
      have same := perm.length_eq
      simp only [List.length_append, List.length_nil] at lengths same
      exact List.length_eq_zero_iff.mp (by omega)
    subst none
    intro q
    constructor
    · intro other
      exact other.unique walks
    · rintro rfl
      exact walks
  · have precedes := precedes_of_needs closed loopless (needs_of_transGen closed reached)
    exact precedes.sorted names distinct second first

theorem needs_eq_nil_or_mem (dependencies : Keyed NameSet) (name : Name) :
    needs dependencies name = [] ∨ (name, needs dependencies name) ∈ dependencies := by
  unfold needs
  cases found : dependencies.get? name with
  | none => exact .inl rfl
  | some set => exact .inr (Keyed.mem_of_get? found)

/-- The name in between is not among those to be listed. -/
theorem walks_iff_eq_sort_between :
    let dependencies : Keyed NameSet := [("b", ["a"]), ("c", ["a", "b"])]
    Closed dependencies ∧ Loopless dependencies ∧
      Walks dependencies ⟨["c", "a"], []⟩ ["c", "a"] ⟨[], ["a", "c"]⟩ ∧
      ["a", "c"].Sublist (sort dependencies ["c", "a"]) := by
  intro dependencies
  have closed : Closed dependencies := by
    have all : ∀ entry ∈ dependencies, ∀ b ∈ entry.2, ∀ c ∈ needs dependencies b, c ∈ entry.2 := by
      decide
    intro a b needed
    rcases needs_eq_nil_or_mem dependencies a with none | kept
    · simp [none] at needed
    · exact all _ kept b needed
  have loopless : Loopless dependencies := by
    have all : ∀ entry ∈ dependencies, entry.1 ∉ entry.2 := by decide
    intro a needed
    rcases needs_eq_nil_or_mem dependencies a with none | kept
    · simp [none] at needed
    · exact all _ kept needed
  have distinct : ["c", "a"].Nodup := by decide
  obtain ⟨ends, -, behind⟩ := walks_iff_eq_sort closed loopless distinct
  have through : Relation.TransGen (fun x y => y ∈ needs dependencies x) "c" "a" :=
    .tail (.single (by decide : "b" ∈ needs dependencies "c")) (by decide)
  exact ⟨closed, loopless, (ends _).mpr rfl, behind "c" (by decide) "a" (by decide) through⟩

end StockFlow.Order
