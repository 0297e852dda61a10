import Mathlib.Data.List.Forall2
import Mathlib.Tactic.TypeStar

/-!
# Computations that succeed

What the steps of a computation gave if the whole of it succeeded: of a sequence, of a traversal,
and of a fold, where an invariant is carried from the first state to the last. If it failed, one of its
steps did.
-/

namespace StockFlow

variable {ε β γ σ : Type}

theorem bind_eq_ok {x : Except ε β} {f : β → Except ε γ} {c : γ} :
    (x >>= f) = .ok c ↔ ∃ b, x = .ok b ∧ f b = .ok c := by
  cases x with
  | error fault => simp [bind, Except.bind]
  | ok b => simp [bind, Except.bind]

theorem pure_eq_ok {b c : β} : (pure b : Except ε β) = .ok c ↔ b = c := by
  simp [pure, Except.pure]

theorem exists_bind_eq_ok {x : Except ε β} {f : β → Except ε γ} :
    (∃ c, (x >>= f) = .ok c) ↔ ∃ b, x = .ok b ∧ ∃ c, f b = .ok c := by
  simp only [bind_eq_ok]
  exact exists_comm.trans (exists_congr fun _ => exists_and_left)

theorem exists_pure_eq_ok {b : β} : ∃ c, (pure b : Except ε β) = .ok c := ⟨b, rfl⟩

theorem bind_eq_error {x : Except ε β} {f : β → Except ε γ} {fault : ε} :
    (x >>= f) = .error fault ↔ x = .error fault ∨ ∃ b, x = .ok b ∧ f b = .error fault := by
  cases x with
  | error other => simp [bind, Except.bind]
  | ok b => simp [bind, Except.bind]

theorem toOption_eq_some {x : Except ε β} {b : β} : x.toOption = some b ↔ x = .ok b := by
  cases x <;> simp [Except.toOption]

/-- A traversal succeeds with the results of its elements in their order. -/
theorem mapM_eq_ok {f : β → Except ε γ} {xs : List β} {ys : List γ} :
    xs.mapM f = .ok ys ↔ List.Forall₂ (fun x y => f x = .ok y) xs ys := by
  induction xs generalizing ys with
  | nil =>
    rw [List.mapM_nil, pure_eq_ok, List.forall₂_nil_left_iff]
    exact eq_comm
  | cons x xs ih =>
    simp only [List.mapM_cons, bind_eq_ok, pure_eq_ok, ih]
    constructor
    · rintro ⟨y, first, rest, others, rfl⟩
      exact .cons first others
    · rintro (_ | ⟨first, others⟩)
      exact ⟨_, first, _, others, rfl⟩

theorem exists_mapM {f : β → Except ε γ} {xs : List β} (each : ∀ x ∈ xs, ∃ y, f x = .ok y) :
    ∃ ys, xs.mapM f = .ok ys := by
  simp only [mapM_eq_ok]
  induction xs with
  | nil => exact ⟨[], .nil⟩
  | cons x xs ih =>
    obtain ⟨⟨y, first⟩, others⟩ := List.forall_mem_cons.mp each
    obtain ⟨ys, rest⟩ := ih others
    exact ⟨y :: ys, .cons first rest⟩

/-- The results of a traversal are those of a function on its elements. -/
theorem exists_map_of_forall₂ [Inhabited γ] {f : β → Except ε γ} {xs : List β} {ys : List γ}
    (each : List.Forall₂ (fun x y => f x = .ok y) xs ys) :
    ∃ g : β → γ, ys = xs.map g ∧ ∀ x ∈ xs, f x = .ok (g x) := by
  refine ⟨fun x => (f x).toOption.getD default, ?_⟩
  induction each with
  | nil => exact ⟨rfl, nofun⟩
  | cons first _ ih =>
    obtain ⟨same, others⟩ := ih
    simp only [List.map_cons, ← same, List.forall_mem_cons, first]
    exact ⟨rfl, rfl, others⟩

theorem exists_of_mapM_eq_error {f : β → Except ε γ} {xs : List β} {fault : ε}
    (failed : xs.mapM f = .error fault) : ∃ x ∈ xs, f x = .error fault := by
  induction xs with
  | nil => cases failed
  | cons x xs ih =>
    rw [List.mapM_cons] at failed
    rcases bind_eq_error.mp failed with first | ⟨_, -, failed⟩
    · exact ⟨x, List.mem_cons_self, first⟩
    · rcases bind_eq_error.mp failed with others | ⟨_, -, ⟨⟩⟩
      exact (ih others).imp fun _ => .imp_left (List.mem_cons_of_mem _)

theorem exists_left_of_mem {related : β → γ → Prop} {xs : List β} {ys : List γ}
    (each : List.Forall₂ related xs ys) {y : γ} (member : y ∈ ys) : ∃ x ∈ xs, related x y := by
  induction each with
  | nil => cases member
  | cons first _ ih =>
    rcases List.mem_cons.mp member with rfl | member
    · exact ⟨_, List.mem_cons_self, first⟩
    · obtain ⟨x, inner, result⟩ := ih member
      exact ⟨x, List.mem_cons_of_mem _ inner, result⟩

theorem exists_right_of_mem {related : β → γ → Prop} {xs : List β} {ys : List γ}
    (each : List.Forall₂ related xs ys) {x : β} (member : x ∈ xs) : ∃ y ∈ ys, related x y := by
  induction each with
  | nil => cases member
  | cons first _ ih =>
    rcases List.mem_cons.mp member with rfl | member
    · exact ⟨_, List.mem_cons_self, first⟩
    · obtain ⟨y, inner, result⟩ := ih member
      exact ⟨y, List.mem_cons_of_mem _ inner, result⟩

theorem nodup_of_forall₂ {related : β → γ → Prop} {xs : List β} {ys : List γ}
    (each : List.Forall₂ related xs ys) (distinct : ys.Nodup)
    (unique : ∀ x, ∀ y ∈ ys, ∀ z ∈ ys, related x y → related x z → y = z) : xs.Nodup := by
  induction each with
  | nil => exact List.nodup_nil
  | @cons x y xs ys first others ih =>
    obtain ⟨fresh, distinct⟩ := List.nodup_cons.mp distinct
    refine List.nodup_cons.mpr ⟨fun member => fresh ?_, ih distinct fun x y one z two =>
      unique x y (List.mem_cons_of_mem _ one) z (List.mem_cons_of_mem _ two)⟩
    obtain ⟨z, inside, second⟩ := exists_right_of_mem others member
    rwa [unique x y List.mem_cons_self z (List.mem_cons_of_mem _ inside) first second]

theorem forall₂_trans {related : β → γ → Prop} {further : γ → σ → Prop} {xs : List β} {ys : List γ}
    {zs : List σ} (one : List.Forall₂ related xs ys) (two : List.Forall₂ further ys zs) :
    List.Forall₂ (fun x z => ∃ y, related x y ∧ further y z) xs zs := by
  induction one generalizing zs with
  | nil =>
    cases two
    exact .nil
  | cons first _ ih =>
    rcases two with _ | ⟨second, others⟩
    exact .cons ⟨_, first, second⟩ (ih others)

theorem map_eq_of_forall₂ {related : β → γ → Prop} {f : β → σ} {g : γ → σ} {xs : List β} {ys : List γ}
    (each : List.Forall₂ related xs ys) (same : ∀ x y, related x y → g y = f x) : ys.map g = xs.map f := by
  induction each with
  | nil => rfl
  | cons first _ ih => rw [List.map_cons, List.map_cons, same _ _ first, ih]

theorem forM_eq_ok {f : β → Except ε Unit} {xs : List β} {u : Unit} :
    xs.forM f = .ok u ↔ ∀ x ∈ xs, f x = .ok () := by
  induction xs with
  | nil => exact ⟨fun _ _ member => absurd member List.not_mem_nil, fun _ => rfl⟩
  | cons x xs ih =>
    have unfolded : (x :: xs).forM f = (f x >>= fun _ => xs.forM f) := rfl
    rw [unfolded, bind_eq_ok, List.forall_mem_cons, ← ih]
    exact ⟨fun ⟨_, first, others⟩ => ⟨first, others⟩, fun ⟨first, others⟩ => ⟨_, first, others⟩⟩

theorem map_filterMap_of_forall {f : β → Option γ} {g : γ → σ} {h : β → σ} {xs : List β}
    (each : ∀ x ∈ xs, ∃ y, f x = some y ∧ g y = h x) : (xs.filterMap f).map g = xs.map h := by
  induction xs with
  | nil => rfl
  | cons x xs ih =>
    obtain ⟨⟨y, found, same⟩, others⟩ := List.forall_mem_cons.mp each
    rw [List.filterMap_cons, found, List.map_cons, List.map_cons, ih others, same]

/-- A fold succeeds if each step does, whatever the state before it. -/
theorem exists_foldlM {f : σ → β → Except ε σ} {xs : List β}
    (steps : ∀ s, ∀ x ∈ xs, ∃ t, f s x = .ok t) (s : σ) : ∃ t, xs.foldlM f s = .ok t := by
  induction xs generalizing s with
  | nil => exact ⟨s, rfl⟩
  | cons x xs ih =>
    obtain ⟨next, first⟩ := steps s x List.mem_cons_self
    obtain ⟨t, others⟩ := ih (fun s x member => steps s x (List.mem_cons_of_mem _ member)) next
    exact ⟨t, by rw [List.foldlM_cons, bind_eq_ok]; exact ⟨next, first, others⟩⟩

/-- A fold fails at one of its steps. -/
theorem exists_of_foldlM_eq_error {f : σ → β → Except ε σ} {xs : List β} {s : σ} {fault : ε}
    (failed : xs.foldlM f s = .error fault) : ∃ t, ∃ x ∈ xs, f t x = .error fault := by
  induction xs generalizing s with
  | nil => cases failed
  | cons x xs ih =>
    rw [List.foldlM_cons] at failed
    rcases bind_eq_error.mp failed with first | ⟨_, -, failed⟩
    · exact ⟨s, x, List.mem_cons_self, first⟩
    · obtain ⟨t, y, member, here⟩ := ih failed
      exact ⟨t, y, List.mem_cons_of_mem _ member, here⟩

/-- A fold carries a change of its state and its elements that every step carries. -/
theorem foldlM_map_eq_ok {τ : Type} {f : σ → β → Except ε σ} {f' : τ → γ → Except ε τ}
    {g : σ → τ} {h : β → γ} (steps : ∀ s x t, f s x = .ok t → f' (g s) (h x) = .ok (g t))
    {xs : List β} {s t : σ} (folded : xs.foldlM f s = .ok t) : (xs.map h).foldlM f' (g s) = .ok (g t) := by
  induction xs generalizing s with
  | nil =>
    cases folded
    rfl
  | cons x xs ih =>
    obtain ⟨next, first, others⟩ := bind_eq_ok.mp folded
    exact bind_eq_ok.mpr ⟨g next, steps s x next first, ih others⟩

/-- What every step of a fold preserves holds at its end. The invariant may speak of the elements
already taken. -/
theorem foldlM_induction {f : σ → β → Except ε σ} {s t : σ} {xs : List β}
    (motive : List β → σ → Prop) (start : motive [] s)
    (step : ∀ done x rest s t, xs = done ++ x :: rest → motive done s → f s x = .ok t →
      motive (done ++ [x]) t)
    (folded : xs.foldlM f s = .ok t) : motive xs t := by
  have carried : ∀ rest done s, xs = done ++ rest → motive done s →
      rest.foldlM f s = .ok t → motive xs t := by
    intro rest
    induction rest with
    | nil =>
      intro done s split holds folded
      rw [List.foldlM_nil, pure_eq_ok] at folded
      simpa [split, folded] using holds
    | cons x rest ih =>
      intro done s split holds folded
      obtain ⟨next, first, others⟩ := bind_eq_ok.mp folded
      exact ih (done ++ [x]) next (by simp [split]) (step done x rest s next split holds first) others
  exact carried xs [] s rfl start folded

end StockFlow
