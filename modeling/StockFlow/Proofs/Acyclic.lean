import Mathlib.Data.List.Perm.Subperm
import StockFlow.Proofs.Completeness

/-!
# Closures without cycles

A closure of dependencies succeeds exactly if every source that is followed leads to a variable and
no variable awaits itself, directly or through others. The variables on the way down differ then, so
the bound on the depth is never reached.
-/

namespace StockFlow.Dependencies

open Relation (TransGen)

variable {moment : Moment} {models : Keyed Outline} {outline : Outline}

/-- Whether every source of a variable that is not given leads to a variable. -/
def Resolves (moment : Moment) (models : Keyed Outline) (outline : Outline) : Prop :=
  ∀ node ∈ outline, isGiven moment node = false → ∀ source ∈ node.sources,
    ∃ target, resolve moment models outline node.name source = .ok target

/-- Whether no variable awaits itself. -/
def Acyclic (moment : Moment) (models : Keyed Outline) (outline : Outline) : Prop :=
  ∀ node ∈ outline, ¬ TransGen (Awaits moment models outline) node node

/-- No variable awaits itself if all that it awaits are of lower rank. -/
theorem acyclic_of_rank (rank : Name → Nat) (lower : ∀ node ∈ outline, ∀ next,
    Awaits moment models outline node next → rank next.name < rank node.name) :
    Acyclic moment models outline := by
  intro node member cycle
  have descends : ∀ next, TransGen (Awaits moment models outline) node next →
      rank next.name < rank node.name := by
    intro next reached
    induction reached with
    | single awaits => exact lower node member _ awaits
    | tail before awaits ih =>
      obtain ⟨_, -, last⟩ := Relation.TransGen.tail'_iff.mp before
      exact (lower _ last.mem _ awaits).trans ih
  exact Nat.lt_irrefl _ (descends node cycle)

section

variable (resolves : Resolves moment models outline) (acyclic : Acyclic moment models outline)
  (distinct : Distinct Node.name outline)
include acyclic distinct

theorem name_notMem_path {path : List Node} {node : Node} (inside : path ⊆ outline)
    (member : node ∈ outline) (above : ∀ p ∈ path, TransGen (Awaits moment models outline) p node) :
    node.name ∉ path.map Node.name := by
  intro listed
  obtain ⟨p, onPath, same⟩ := List.mem_map.mp listed
  obtain rfl := distinct.eq_of_name_eq (inside onPath) member same
  exact acyclic p member (above p onPath)

include resolves

/-- Below variables that wait for it, a variable is visited with success. -/
theorem exists_visit {depth : Nat} {path : List Node} {found : Found} {node : Node}
    (member : node ∈ outline) (inside : path ⊆ outline) (apart : (path.map Node.name).Nodup)
    (above : ∀ p ∈ path, TransGen (Awaits moment models outline) p node)
    (enough : depth + path.length = outline.length) :
    ∃ later, visit moment models outline depth (path.map Node.name) found node = .ok later := by
  induction depth generalizing path found node with
  | zero =>
    -- the path and the variable below it are more than the outline has
    have fresh := name_notMem_path acyclic distinct inside member above
    have longer : (node :: path).Nodup := List.Nodup.of_map Node.name (List.nodup_cons.mpr ⟨fresh, apart⟩)
    have fits := (List.subperm_of_subset longer (List.cons_subset.mpr ⟨member, inside⟩)).length_le
    rw [List.length_cons] at fits
    omega
  | succ depth ih =>
    unfold visit
    split
    · exact ⟨_, rfl⟩
    · split
      · exact ⟨_, rfl⟩
      · rename_i open_
        have open_ : isGiven moment node = false := Bool.eq_false_iff.mpr open_
        have fresh := name_notMem_path acyclic distinct inside member above
        simp only [bind_eq_ok, pure_eq_ok]
        refine (exists_foldlM (fun state source among => ?_) _).elim
          fun state folded => ⟨_, state, folded, rfl⟩
        obtain ⟨target, leads⟩ := resolves node member open_ source among
        simp only [leads, bind_eq_ok]
        cases target with
        | none => exact ⟨state, none, rfl, rfl⟩
        | some next =>
          have awaits : Awaits moment models outline node next := ⟨open_, source, among, leads⟩
          have further : ∀ p ∈ node :: path, TransGen (Awaits moment models outline) p next := by
            refine List.forall_mem_cons.mpr ⟨.single awaits, fun p onPath => ?_⟩
            exact (above p onPath).tail awaits
          have within : node :: path ⊆ outline := List.cons_subset.mpr ⟨member, inside⟩
          have off := name_notMem_path acyclic distinct within awaits.mem further
          obtain ⟨later, visited⟩ : ∃ later, visit moment models outline depth
              ((node :: path).map Node.name) state.1 next = .ok later :=
            ih awaits.mem within (List.nodup_cons.mpr ⟨fresh, apart⟩) further
              (by rw [List.length_cons]; omega)
          rw [List.map_cons] at off visited
          let both := NameSet.insertAll ((later.get? next.name).getD [])
            (NameSet.insert next.name state.2)
          refine ⟨(later, both), some next, rfl, ?_⟩
          simp only [if_neg off, bind_eq_ok, pure_eq_ok]
          exact ⟨later, visited, rfl⟩

/-- Where sources lead to variables and no variable awaits itself, a closure succeeds. -/
theorem exists_closure : ∃ found, closure moment models outline = .ok found :=
  exists_foldlM (fun _ _ member => exists_visit resolves acyclic distinct member
    (List.nil_subset _) List.nodup_nil (by simp) (Nat.add_zero _)) []

omit resolves acyclic

/-- A closure succeeds exactly if all sources lead somewhere and there is no cycle. -/
theorem exists_closure_iff : (∃ found, closure moment models outline = .ok found) ↔
    Resolves moment models outline ∧ Acyclic moment models outline := by
  constructor
  · rintro ⟨found, closed⟩
    refine ⟨fun node member => (explains_of_closure closed distinct member).resolved, ?_⟩
    intro node member cycle
    exact loopless_of_closure closed _ (mem_needs_of_transGen closed distinct member cycle)
  · rintro ⟨resolves, acyclic⟩
    exact exists_closure resolves acyclic distinct

end

end StockFlow.Dependencies
