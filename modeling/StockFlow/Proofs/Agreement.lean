import Mathlib.Data.List.Perm.Basic
import StockFlow.Proofs.Names
import StockFlow.Proofs.Success

/-!
# Computations that agree

Two computations agree if both fail, whatever their faults are, or both succeed with related results.
Agreement is kept by sequences, traversals and folds, so that what two runs of one program on related
inputs have in common is proved step by step. The inputs may differ in one place only, or stand in
different orders.
-/

namespace StockFlow

variable {ε β γ σ τ : Type}

/-- Whether two computations both fail, or both succeed with related results. -/
inductive Agree (related : β → γ → Prop) : Except ε β → Except ε γ → Prop
  | error {fault fault' : ε} : Agree related (.error fault) (.error fault')
  | ok {b : β} {c : γ} (both : related b c) : Agree related (.ok b) (.ok c)

namespace Agree

variable {related : β → γ → Prop} {further : σ → τ → Prop} {x : Except ε β} {y : Except ε γ}

theorem refl {related : β → β → Prop} {x : Except ε β} (same : ∀ b, x = .ok b → related b b) :
    Agree related x x := by
  cases x with
  | error => exact .error
  | ok b => exact .ok (same b rfl)

theorem mono {wider : β → γ → Prop} (agree : Agree related x y)
    (weaker : ∀ b c, x = .ok b → y = .ok c → related b c → wider b c) : Agree wider x y := by
  cases agree with
  | error => exact .error
  | ok both => exact .ok (weaker _ _ rfl rfl both)

theorem with_left (agree : Agree related x y) : Agree (fun b c => x = .ok b ∧ related b c) x y := by
  cases agree with
  | error => exact .error
  | ok both => exact .ok ⟨rfl, both⟩

theorem with_both (agree : Agree related x y) :
    Agree (fun b c => x = .ok b ∧ y = .ok c ∧ related b c) x y :=
  agree.mono fun _ _ first second both => ⟨first, second, both⟩

theorem flip (agree : Agree related x y) : Agree (flip related) y x := by
  cases agree with
  | error => exact .error
  | ok both => exact .ok both

theorem bind {f : β → Except ε σ} {g : γ → Except ε τ} (agree : Agree related x y)
    (each : ∀ b c, related b c → Agree further (f b) (g c)) : Agree further (x >>= f) (y >>= g) := by
  cases agree with
  | error => exact .error
  | ok both => exact each _ _ both

theorem bind_same {x : Except ε β} {f : β → Except ε σ} {g : β → Except ε τ}
    (each : ∀ b, x = .ok b → Agree further (f b) (g b)) : Agree further (x >>= f) (x >>= g) := by
  cases x with
  | error => exact .error
  | ok b => exact each b rfl

theorem exists_iff (agree : Agree related x y) : (∃ b, x = .ok b) ↔ ∃ c, y = .ok c := by
  cases agree <;> simp

theorem map_toOption_eq (agree : Agree related x y) {f : β → σ} {g : γ → σ}
    (same : ∀ b c, related b c → f b = g c) : x.toOption.map f = y.toOption.map g := by
  cases agree with
  | error => rfl
  | ok both => exact congrArg some (same _ _ both)

theorem of_ok (agree : Agree related x y) {b : β} {c : γ} (first : x = .ok b) (second : y = .ok c) :
    related b c := by
  subst first second
  cases agree
  assumption

theorem of_exists_iff (both : (∃ b, x = .ok b) ↔ ∃ c, y = .ok c)
    (each : ∀ b c, x = .ok b → y = .ok c → related b c) : Agree related x y := by
  cases x <;> cases y
  · exact .error
  · simp at both
  · simp at both
  · exact .ok (each _ _ rfl rfl)

theorem mapM {f : β → Except ε σ} {g : γ → Except ε τ} {xs : List β} {ys : List γ}
    (inputs : List.Forall₂ related xs ys) (each : ∀ x y, related x y → Agree further (f x) (g y)) :
    Agree (List.Forall₂ further) (xs.mapM f) (ys.mapM g) := by
  induction inputs with
  | nil => exact .ok .nil
  | cons first _ ih =>
    simp only [List.mapM_cons]
    refine (each _ _ first).bind fun _ _ result => ih.bind fun _ _ others => ?_
    exact .ok (.cons result others)

theorem foldlM {f : σ → β → Except ε σ} {g : τ → γ → Except ε τ} {xs : List β} {ys : List γ}
    (inputs : List.Forall₂ related xs ys) {s : σ} {t : τ} (start : further s t)
    (each : ∀ s t x y, further s t → related x y → Agree further (f s x) (g t y)) :
    Agree further (xs.foldlM f s) (ys.foldlM g t) := by
  induction inputs generalizing s t with
  | nil => exact .ok start
  | cons first _ ih =>
    simp only [List.foldlM_cons]
    exact (each _ _ _ _ start first).bind fun _ _ next => ih next

end Agree

/-! ## Lists that differ in one place -/

/-- Whether two lists differ in one place only, where their items are related. -/
inductive DifferOnce (related : β → β → Prop) : List β → List β → Prop
  | here {a b : β} {rest : List β} (one : related a b) : DifferOnce related (a :: rest) (b :: rest)
  | there {first : β} {xs ys : List β} (later : DifferOnce related xs ys) :
    DifferOnce related (first :: xs) (first :: ys)

namespace DifferOnce

variable {related : β → β → Prop} {other : γ → γ → Prop} {xs ys : List β}

theorem mono {wider : β → β → Prop} (differ : DifferOnce related xs ys)
    (weaker : ∀ a b, related a b → wider a b) : DifferOnce wider xs ys := by
  induction differ with
  | here one => exact .here (weaker _ _ one)
  | there _ ih => exact .there ih

theorem append_left (differ : DifferOnce related xs ys) (more : List β) :
    DifferOnce related (more ++ xs) (more ++ ys) := by
  induction more with
  | nil => exact differ
  | cons first rest ih => exact .there ih

theorem map_eq (differ : DifferOnce related xs ys) {f : β → γ} (same : ∀ a b, related a b → f b = f a) :
    ys.map f = xs.map f := by
  induction differ with
  | here one => rw [List.map_cons, List.map_cons, same _ _ one]
  | there _ ih => rw [List.map_cons, List.map_cons, ih]

theorem agree_mapM (differ : DifferOnce related xs ys) {f : β → Except ε γ}
    (each : ∀ a b, related a b → Agree other (f a) (f b)) :
    Agree (DifferOnce other) (xs.mapM f) (ys.mapM f) := by
  induction differ with
  | here one =>
    simp only [List.mapM_cons]
    refine (each _ _ one).bind fun _ _ result => Agree.bind_same fun _ _ => ?_
    exact .ok (.here result)
  | there _ ih =>
    simp only [List.mapM_cons]
    exact Agree.bind_same fun _ _ => ih.bind fun _ _ later => .ok (.there later)

theorem rel_insertNamed? (differ : DifferOnce related xs ys) {nameOf : β → Name}
    (named : ∀ a b, related a b → nameOf b = nameOf a) (item : β) :
    Option.Rel (DifferOnce related) (insertNamed? nameOf item xs) (insertNamed? nameOf item ys) := by
  induction differ with
  | here one =>
    simp only [insertNamed?, named _ _ one]
    split
    · exact .none
    · split
      · exact .some (.there (.here one))
      · cases insertNamed? nameOf item _ with
        | none => exact .none
        | some => exact .some (.here one)
  | @there _ xs ys later ih =>
    simp only [insertNamed?]
    split
    · exact .none
    · split
      · exact .some (.there (.there later))
      · generalize insertNamed? nameOf item xs = result, insertNamed? nameOf item ys = result' at ih
        cases ih with
        | none => exact .none
        | some inner => exact .some (.there inner)

end DifferOnce

theorem rel_insertNamed?_same {related : β → β → Prop} {nameOf : β → Name} {a b : β} (one : related a b)
    (named : nameOf b = nameOf a) (items : List β) :
    Option.Rel (DifferOnce related) (insertNamed? nameOf a items) (insertNamed? nameOf b items) := by
  induction items with
  | nil => exact .some (.here one)
  | cons first rest ih =>
    simp only [insertNamed?, named]
    split
    · exact .none
    · split
      · exact .some (.here one)
      · generalize insertNamed? nameOf a rest = result, insertNamed? nameOf b rest = result' at ih
        cases ih with
        | none => exact .none
        | some inner => exact .some (.there inner)

/-! ## Items with the same names -/

theorem rel_eq_iff {x y : Option β} : Option.Rel Eq x y ↔ x = y := by
  constructor
  · rintro (same | _)
    · rw [same]
    · rfl
  · rintro rfl
    cases x with
    | none => exact .none
    | some => exact .some rfl

theorem rel_flip {related : β → γ → Prop} {x : Option β} {y : Option γ} (both : Option.Rel related x y) :
    Option.Rel (flip related) y x := by
  cases both with
  | none => exact .none
  | some one => exact .some one

section

variable {nameOf : β → Name} {nameOf' : γ → Name} {related : β → γ → Prop}
  (named : ∀ a b, related a b → nameOf' b = nameOf a)
include named

theorem rel_findNamed {items : List β} {others : List γ} (each : List.Forall₂ related items others)
    (name : Name) :
    Option.Rel related (findNamed nameOf name items) (findNamed nameOf' name others) := by
  induction each with
  | nil => exact .none
  | @cons a b _ _ first _ ih =>
    simp only [findNamed, List.find?_cons, named a b first]
    split
    · exact .some first
    · exact ih

theorem rel_insertNamed? {items : List β} {others : List γ} {a : β} {b : γ} (one : related a b)
    (each : List.Forall₂ related items others) :
    Option.Rel (List.Forall₂ related) (insertNamed? nameOf a items) (insertNamed? nameOf' b others) := by
  induction each with
  | nil => exact .some (.cons one .nil)
  | cons first rest ih =>
    simp only [insertNamed?, named _ _ one, named _ _ first]
    split
    · exact .none
    · split
      · exact .some (.cons one (.cons first rest))
      · generalize insertNamed? nameOf a _ = result, insertNamed? nameOf' b _ = result' at ih
        cases ih with
        | none => exact .none
        | some inner => exact .some (.cons first inner)

end

/-! ## Lists that match in some order -/

section

variable {related : β → γ → Prop} {further : σ → τ → Prop}

/-- Whether the items of a list, put into some order, are related to those of another one by one. -/
def Matches (related : β → γ → Prop) : List β → List γ → Prop :=
  Relation.Comp List.Perm (List.Forall₂ related)

namespace Matches

variable {xs : List β} {ys : List γ}

theorem of_forall₂ (each : List.Forall₂ related xs ys) : Matches related xs ys := ⟨xs, .refl xs, each⟩

theorem mono {wider : β → γ → Prop} (both : Matches related xs ys)
    (weaker : ∀ x y, related x y → wider x y) : Matches wider xs ys := by
  obtain ⟨zs, shuffled, each⟩ := both
  exact ⟨zs, shuffled, each.imp weaker⟩

theorem perm {xs' : List β} {ys' : List γ} (shuffled : xs'.Perm xs) (shuffled' : ys.Perm ys')
    (both : Matches related xs ys) : Matches related xs' ys' := by
  obtain ⟨zs, reordered, each⟩ := both
  have again : Relation.Comp List.Perm (List.Forall₂ related) zs ys' := by
    rw [← List.forall₂_comp_perm_eq_perm_comp_forall₂]
    exact ⟨ys, each, shuffled'⟩
  obtain ⟨last, reordered', each⟩ := again
  exact ⟨last, (shuffled.trans reordered).trans reordered', each⟩

theorem flip (both : Matches related xs ys) : Matches (flip related) ys xs := by
  obtain ⟨zs, shuffled, each⟩ := both
  exact (of_forall₂ each.flip).perm (.refl ys) shuffled.symm

theorem append {xs' : List β} {ys' : List γ} (one : Matches related xs ys)
    (two : Matches related xs' ys') : Matches related (xs ++ xs') (ys ++ ys') := by
  obtain ⟨zs, shuffled, each⟩ := one
  obtain ⟨zs', shuffled', each'⟩ := two
  exact ⟨zs ++ zs', shuffled.append shuffled', List.rel_append each each'⟩

theorem map {f : β → σ} {g : γ → τ} (both : Matches related xs ys)
    (each : ∀ x y, related x y → further (f x) (g y)) : Matches further (xs.map f) (ys.map g) := by
  obtain ⟨zs, shuffled, all⟩ := both
  exact ⟨zs.map f, shuffled.map f, List.rel_map (fun x y => each x y) all⟩

theorem flatMap {f : β → List σ} {g : γ → List τ} (both : Matches related xs ys)
    (each : ∀ x y, related x y → List.Forall₂ further (f x) (g y)) :
    Matches further (xs.flatMap f) (ys.flatMap g) := by
  obtain ⟨zs, shuffled, all⟩ := both
  exact ⟨zs.flatMap f, shuffled.flatMap_right f, List.rel_flatMap all fun x y => each x y⟩

theorem filterMap {f : β → Option σ} {g : γ → Option τ} (both : Matches related xs ys)
    (each : ∀ x y, related x y → Option.Rel further (f x) (g y)) :
    Matches further (xs.filterMap f) (ys.filterMap g) := by
  obtain ⟨zs, shuffled, all⟩ := both
  exact ⟨zs.filterMap f, shuffled.filterMap f, List.rel_filterMap (fun x y => each x y) all⟩

theorem exists_left (both : Matches related xs ys) {y : γ} (member : y ∈ ys) : ∃ x ∈ xs, related x y := by
  obtain ⟨zs, shuffled, each⟩ := both
  obtain ⟨x, inside, one⟩ := exists_left_of_mem each member
  exact ⟨x, shuffled.mem_iff.mpr inside, one⟩

theorem exists_right (both : Matches related xs ys) {x : β} (member : x ∈ xs) : ∃ y ∈ ys, related x y := by
  obtain ⟨zs, shuffled, each⟩ := both
  exact exists_right_of_mem each (shuffled.mem_iff.mp member)

theorem forall_iff (both : Matches related xs ys) {p : β → Prop} {q : γ → Prop}
    (each : ∀ x ∈ xs, ∀ y, related x y → (p x ↔ q y)) : (∀ x ∈ xs, p x) ↔ ∀ y ∈ ys, q y := by
  constructor
  · intro all y member
    obtain ⟨x, inside, one⟩ := both.exists_left member
    exact (each x inside y one).mp (all x inside)
  · intro all x member
    obtain ⟨y, inside, one⟩ := both.exists_right member
    exact (each x member y one).mpr (all y inside)

theorem agree_mapM {f : β → Except ε σ} {g : γ → Except ε τ} (both : Matches related xs ys)
    (each : ∀ x y, related x y → Agree further (f x) (g y)) :
    Agree (Matches further) (xs.mapM f) (ys.mapM g) := by
  obtain ⟨zs, shuffled, all⟩ := both
  have transferred : ∀ {xs zs : List β}, xs.Perm zs → ∀ {results}, xs.mapM f = .ok results →
      ∃ others, zs.mapM f = .ok others ∧ results.Perm others := by
    intro xs zs shuffled results done
    obtain ⟨others, each, same⟩ := List.perm_comp_forall₂ shuffled.symm (mapM_eq_ok.mp done)
    exact ⟨others, mapM_eq_ok.mpr each, same.symm⟩
  have agree := Agree.mapM all each
  refine .of_exists_iff ?_ fun results results' done done' => ?_
  · rw [← agree.exists_iff]
    exact ⟨fun ⟨_, done⟩ => (transferred shuffled done).imp fun _ => And.left,
      fun ⟨_, done⟩ => (transferred shuffled.symm done).imp fun _ => And.left⟩
  · obtain ⟨others, again, reordered⟩ := transferred shuffled done
    exact ⟨others, reordered, agree.of_ok again done'⟩

/-- Lists match with different items exactly if the items of both differ. -/
theorem nodup_iff {g : β → γ} (both : Matches (fun x y => y = g x) xs ys)
    (apart : ∀ x ∈ xs, ∀ y ∈ xs, g x = g y → x = y) : xs.Nodup ↔ ys.Nodup := by
  obtain ⟨zs, shuffled, each⟩ := both
  have images : List.Forall₂ Eq (zs.map g) ys :=
    List.forall₂_map_left_iff.mpr (each.imp fun _ _ => Eq.symm)
  rw [List.forall₂_eq_eq_eq] at images
  rw [shuffled.nodup_iff, ← images]
  refine ⟨fun distinct => distinct.map_on fun x inside y inside' => ?_, List.Nodup.of_map g⟩
  exact apart x (shuffled.mem_iff.mpr inside) y (shuffled.mem_iff.mpr inside')

/-- Items of matching lists are found under corresponding names. -/
theorem rel_findNamed {nameOf : β → Name} {nameOf' : γ → Name} (both : Matches related xs ys)
    (distinct : Distinct nameOf' ys) {name name' : Name}
    (same : ∀ x ∈ xs, ∀ y, related x y → (nameOf x = name ↔ nameOf' y = name')) :
    Option.Rel related (findNamed nameOf name xs) (findNamed nameOf' name' ys) := by
  cases found : findNamed nameOf name xs with
  | some x =>
    have member := mem_of_findNamed found
    obtain ⟨y, inside, one⟩ := both.exists_right member
    have named := (same x member y one).mp (name_of_findNamed found)
    rw [← named, findNamed_of_mem distinct inside]
    exact .some one
  | none =>
    have absent : findNamed nameOf' name' ys = none := by
      refine findNamed_eq_none.mpr fun y member named => ?_
      obtain ⟨x, inside, one⟩ := both.exists_left member
      exact findNamed_eq_none.mp found x inside ((same x inside y one).mpr named)
    rw [absent]
    exact .none

end Matches

end

end StockFlow
