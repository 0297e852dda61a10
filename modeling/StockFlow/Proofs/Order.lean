import Mathlib.Data.List.Nodup
import Mathlib.Data.List.Perm.Basic
import StockFlow.Plan.Order

/-!
# Evaluation orders

For dependencies that are closed and without loops, sorting lists the given names, each once and
each behind those of the given names that it depends on. Names in between that are not among the
given ones do no harm, because closed dependencies reach past them.
-/

namespace StockFlow.Order

variable {dependencies : Keyed NameSet} {names ancestors : List Name}

/-- What a name depends on. -/
def needs (dependencies : Keyed NameSet) (name : Name) : NameSet :=
  (dependencies.get? name).getD []

/-- Whether a name depends on all that its dependencies depend on. -/
def Closed (dependencies : Keyed NameSet) : Prop :=
  ∀ a, ∀ b ∈ needs dependencies a, ∀ c ∈ needs dependencies b, c ∈ needs dependencies a

/-- Whether no name depends on itself. -/
def Loopless (dependencies : Keyed NameSet) : Prop := ∀ a, a ∉ needs dependencies a

/-- Whether each of the listed names stands behind its dependencies among `names`. -/
def Follows (dependencies : Keyed NameSet) (names listed : List Name) : Prop :=
  ∀ before x after, listed = before ++ x :: after →
    ∀ d ∈ needs dependencies x, d ∈ names → d ∈ before

/-- A state of the walk: every name is listed, on the way down to the present one, or waiting. -/
structure Sound (dependencies : Keyed NameSet) (names ancestors : List Name) (p : Progress) : Prop where
  perm : (p.listed ++ (ancestors ++ p.waiting)).Perm names
  follows : Follows dependencies names p.listed

/-- What a part of the walk does: it keeps the state sound and lists the names it is made for. -/
structure Advance (dependencies : Keyed NameSet) (names ancestors : List Name) (p q : Progress)
    (targets : List Name) : Prop where
  sound : Sound dependencies names ancestors q
  fewer : q.waiting.length ≤ p.waiting.length
  kept : p.listed ⊆ q.listed
  listed : ∀ d ∈ targets, d ∈ names → d ∈ q.listed

theorem Follows.append {listed : List Name} {name : Name}
    (follows : Follows dependencies names listed)
    (ready : ∀ d ∈ needs dependencies name, d ∈ names → d ∈ listed) :
    Follows dependencies names (listed ++ [name]) := by
  intro before x after split d needed member
  rcases List.eq_nil_or_concat after with rfl | ⟨after, last, rfl⟩
  · obtain ⟨rfl, same⟩ := List.append_inj' split rfl
    cases same
    exact ready d needed member
  · have shorter : listed ++ [name] = (before ++ x :: after) ++ [last] := by simpa using split
    exact follows before x after (List.append_inj' shorter rfl).1 d needed member

theorem Advance.refl {p : Progress} (sound : Sound dependencies names ancestors p) :
    Advance dependencies names ancestors p p [] :=
  ⟨sound, Nat.le_refl _, List.Subset.refl _, by simp⟩

theorem Advance.trans {p q r : Progress} {first second : List Name}
    (one : Advance dependencies names ancestors p q first)
    (two : Advance dependencies names ancestors q r second) :
    Advance dependencies names ancestors p r (first ++ second) := by
  refine ⟨two.sound, Nat.le_trans two.fewer one.fewer, List.Subset.trans one.kept two.kept, ?_⟩
  intro d member known
  rcases List.mem_append.mp member with member | member
  · exact two.kept (one.listed d member known)
  · exact two.listed d member known

theorem foldl_advance (visit : Progress → Name → Progress) {depth : Nat} (targets : List Name)
    (visits : ∀ d ∈ targets, ∀ p, p.waiting.length ≤ depth → Sound dependencies names ancestors p →
      Advance dependencies names ancestors p (visit p d) [d])
    (p : Progress) (enough : p.waiting.length ≤ depth)
    (sound : Sound dependencies names ancestors p) :
    Advance dependencies names ancestors p (targets.foldl visit p) targets := by
  induction targets generalizing p with
  | nil => exact .refl sound
  | cons d rest ih =>
    have one := visits d List.mem_cons_self p enough sound
    have others := ih (fun d member => visits d (List.mem_cons_of_mem _ member)) (visit p d)
      (Nat.le_trans one.fewer enough) one.sound
    exact one.trans others

theorem Sound.advance_of_not_waiting {name : Name} {p : Progress}
    (sound : Sound dependencies names ancestors p) (loopless : Loopless dependencies)
    (above : ∀ a ∈ ancestors, name ∈ needs dependencies a) (absent : name ∉ p.waiting) :
    Advance dependencies names ancestors p p [name] := by
  refine ⟨sound, Nat.le_refl _, List.Subset.refl _, ?_⟩
  intro d member known
  obtain rfl := List.mem_singleton.mp member
  rcases List.mem_append.mp (sound.perm.mem_iff.mpr known) with listed | rest
  · exact listed
  · rcases List.mem_append.mp rest with onPath | waits
    · exact absurd (above d onPath) (loopless d)
    · exact absurd waits absent

theorem Sound.descend {name : Name} {p : Progress} (sound : Sound dependencies names ancestors p)
    (waits : name ∈ p.waiting) :
    Sound dependencies names (name :: ancestors)
      { p with waiting := p.waiting.erase name } := by
  refine ⟨List.Perm.trans (.append_left _ ?_) sound.perm, sound.follows⟩
  exact List.perm_middle.symm.trans ((List.perm_cons_erase waits).symm.append_left ancestors)

theorem Sound.finish {name : Name} {p : Progress}
    (sound : Sound dependencies names (name :: ancestors) p)
    (ready : ∀ d ∈ needs dependencies name, d ∈ names → d ∈ p.listed) :
    Sound dependencies names ancestors { p with listed := p.listed ++ [name] } := by
  refine ⟨?_, sound.follows.append ready⟩
  simpa using sound.perm

/-- A visit below names that all depend on the visited one. -/
theorem visit_advance (closed : Closed dependencies) (loopless : Loopless dependencies)
    (depth : Nat) (ancestors : List Name) (name : Name)
    (above : ∀ a ∈ ancestors, name ∈ needs dependencies a) (p : Progress)
    (enough : p.waiting.length ≤ depth) (sound : Sound dependencies names ancestors p) :
    Advance dependencies names ancestors p (visit dependencies depth p name) [name] := by
  induction depth generalizing ancestors name p with
  | zero =>
    have none : p.waiting = [] := List.length_eq_zero_iff.mp (Nat.le_zero.mp enough)
    exact sound.advance_of_not_waiting loopless above (by simp [none])
  | succ depth ih =>
    unfold visit
    split
    · -- the name is taken off the waiting ones before its dependencies are visited
      rename_i waits
      have fewer : (p.waiting.erase name).length < p.waiting.length := by
        have := List.length_erase_of_mem waits
        have := List.length_pos_of_mem waits
        omega
      have below := foldl_advance (visit dependencies depth) (needs dependencies name)
        (fun d needed => by
          refine ih (name :: ancestors) d fun a member => ?_
          rcases List.mem_cons.mp member with rfl | member
          · exact needed
          · exact closed a name (above a member) d needed)
        _ (Nat.le_of_lt_succ (Nat.lt_of_lt_of_le fewer enough)) (sound.descend waits)
      refine ⟨below.sound.finish below.listed, Nat.le_trans below.fewer (Nat.le_of_lt fewer), ?_, ?_⟩
      · exact List.Subset.trans below.kept (List.subset_append_left ..)
      · simp
    · rename_i absent
      exact sound.advance_of_not_waiting loopless above absent

/-- Sorting lists the names, each once and each behind its dependencies among them. -/
theorem sort_follows (closed : Closed dependencies) (loopless : Loopless dependencies)
    (distinct : names.Nodup) :
    (sort dependencies names).Perm names ∧ Follows dependencies names (sort dependencies names) := by
  have start : Sound dependencies names [] ⟨names, []⟩ := by
    refine ⟨by simp, ?_⟩
    intro before x after split
    simp at split
  have done := foldl_advance (visit dependencies names.length) names
    (fun d _ => visit_advance closed loopless names.length [] d (by simp)) ⟨names, []⟩
    (Nat.le_refl _) start
  refine ⟨?_, done.sound.follows⟩
  have all := done.sound.perm
  have unique := (List.Perm.nodup_iff all).mpr distinct
  have none : (names.foldl (visit dependencies names.length) ⟨names, []⟩).waiting = [] := by
    refine List.eq_nil_iff_forall_not_mem.mpr fun d waits => ?_
    have known : d ∈ names := all.mem_iff.mp (by simp [waits])
    exact List.disjoint_of_nodup_append unique (done.listed d known known) (by simpa using waits)
  unfold sort
  simpa [none] using all

/-! ## One name before another -/

/-- Whether a name is one that another depends on, but not conversely, and is sorted before it. -/
structure Precedes (dependencies : Keyed NameSet) (a b : Name) : Prop where
  needed : a ∈ needs dependencies b
  free : b ∉ needs dependencies a
  sorted : ∀ names : List Name, names.Nodup → a ∈ names → b ∈ names →
    [a, b].Sublist (sort dependencies names)

theorem precedes_of_needs (closed : Closed dependencies) (loopless : Loopless dependencies)
    {a b : Name} (needed : a ∈ needs dependencies b) : Precedes dependencies a b where
  needed := needed
  free conversely := loopless b (closed b a needed b conversely)
  sorted names distinct first second := by
    obtain ⟨same, follows⟩ := sort_follows closed loopless distinct
    obtain ⟨before, after, split⟩ := List.append_of_mem (same.mem_iff.mpr second)
    rw [split]
    have here := follows before b after split a needed first
    exact (List.singleton_sublist.mpr here).append (List.singleton_sublist.mpr List.mem_cons_self)

end StockFlow.Order
