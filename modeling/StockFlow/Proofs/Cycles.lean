import StockFlow.Proofs.Acyclic

/-!
# Cycles of dependencies

Over any variables that have different names, and whatever models there are, a closure of dependencies
either finds all that each variable depends on or has a fault. Where every source that is followed leads to
a variable, the only fault is that of a variable that depends on itself, and there is one exactly if there
is such a variable.
-/

namespace StockFlow.Dependencies

open Relation (TransGen)
open StockFlow.Order (needs)

variable {moment : Moment} {models : Keyed Outline} {outline : Outline} {node next : Node}

/-! ## Direct dependencies -/

/-- Whether a source leads to a variable of an outline and means the value of another one or the same: the
undotted name of a variable means its own value, and the name of a module with a path behind a dot the
value of a variable of the module's model. -/
inductive Leads (models : Keyed Outline) (outline : Outline) : Path → (next leaf : Node) → Prop
  | beside {next : Node} (declared : next ∈ outline) (undotted : ¬ Path.IsDotted next.name) :
    Leads models outline next.name next next
  | inside {next leaf : Node} {source rest : Path} {model : Name} {inner : Outline}
    (declared : next ∈ outline) (undotted : ¬ Path.IsDotted next.name)
    (dotted : source.toList = next.name.toList ++ '.' :: rest.toList)
    (isModule : next.model? = some model) (known : models.get? model = some inner)
    (found : inner.find? (Path.head rest) = some leaf) : Leads models outline source next leaf

/-- Whether a variable depends on another one directly. A variable that is given depends on nothing, and a
source that means the value of such a variable makes nothing depend on it. -/
def DependsOn (moment : Moment) (models : Keyed Outline) (outline : Outline) (node next : Node) : Prop :=
  isGiven moment node = false ∧ ∃ source ∈ node.sources, ∃ leaf,
    Leads models outline source next leaf ∧ isGiven moment leaf = false

section

variable (distinct : Distinct Node.name outline)
include distinct

theorem resolve_eq_ok_iff {name : Name} {source : Path} {target : Option Node} :
    resolve moment models outline name source = .ok target ↔ ∃ next leaf,
      Leads models outline source next leaf ∧ target = if isGiven moment leaf then none else some next := by
  constructor
  · intro resolved
    rcases resolve_eq_ok resolved with ⟨undotted, next, found, same⟩ |
      ⟨head, rest, next, model, inner, leaf, undotted, dotted, -, found, isModule, known, inside, same⟩
    · obtain rfl := name_of_findNamed found
      exact ⟨next, next, .beside (mem_of_findNamed found) undotted, same⟩
    · obtain rfl := name_of_findNamed found
      exact ⟨next, leaf, .inside (mem_of_findNamed found) undotted dotted isModule known inside, same⟩
  · -- names are distinct, so what a source leads to is what is looked up
    rintro ⟨next, leaf, leads, rfl⟩
    unfold resolve
    cases leads with
    | beside declared undotted =>
      have found : outline.find? next.name = some next := findNamed_of_mem distinct declared
      rw [Path.split_of_not_dotted undotted]
      dsimp only
      rw [found]
    | inside declared undotted dotted isModule known inside =>
      have found : outline.find? next.name = some next := findNamed_of_mem distinct declared
      rw [Path.split_of_append undotted dotted]
      dsimp only
      rw [found]
      dsimp only
      rw [isModule]
      dsimp only
      rw [known]
      dsimp only
      rw [inside]

theorem awaits_iff_dependsOn :
    Awaits moment models outline node next ↔ DependsOn moment models outline node next := by
  refine and_congr_right fun _ => exists_congr fun source => and_congr_right fun _ => ?_
  rw [resolve_eq_ok_iff distinct]
  constructor
  · rintro ⟨other, leaf, leads, same⟩
    split at same
    · cases same
    · rename_i open_
      cases same
      exact ⟨leaf, leads, Bool.eq_false_iff.mpr open_⟩
  · rintro ⟨leaf, leads, open_⟩
    exact ⟨next, leaf, leads, by rw [open_]; rfl⟩

theorem resolves_iff_leads : Resolves moment models outline ↔
    ∀ node ∈ outline, isGiven moment node = false → ∀ source ∈ node.sources,
      ∃ next leaf, Leads models outline source next leaf := by
  refine forall₂_congr fun node _ => forall_congr' fun _ => forall₂_congr fun source _ => ?_
  constructor
  · rintro ⟨target, resolved⟩
    obtain ⟨next, leaf, leads, -⟩ := (resolve_eq_ok_iff distinct).mp resolved
    exact ⟨next, leaf, leads⟩
  · rintro ⟨next, leaf, leads⟩
    exact ⟨_, (resolve_eq_ok_iff distinct).mpr ⟨next, leaf, leads, rfl⟩⟩

/-! ## Faults -/

/-- A visit has the fault of a source that leads nowhere or that of a variable on a cycle. -/
theorem cycle_of_visit {depth : Nat} {path : List Node} {found : Found} {fault : Fault}
    (failed : visit moment models outline depth (path.map Node.name) found node = .error fault)
    (member : node ∈ outline) (inside : path ⊆ outline) (apart : ((node :: path).map Node.name).Nodup)
    (above : ∀ p ∈ path, TransGen (Awaits moment models outline) p node)
    (enough : depth + path.length = outline.length) :
    (∃ v ∈ outline, isGiven moment v = false ∧ ∃ source ∈ v.sources,
      resolve moment models outline v.name source = .error fault) ∨
    ∃ v, TransGen (Awaits moment models outline) v v ∧ fault = .model .circularDependency v.name := by
  have within : node :: path ⊆ outline := List.cons_subset.mpr ⟨member, inside⟩
  induction depth generalizing path found node with
  | zero =>
    -- the path and the variable below it are more than the outline has
    have fits := (List.subperm_of_subset (List.Nodup.of_map Node.name apart) within).length_le
    rw [List.length_cons] at fits
    omega
  | succ depth ih =>
    unfold visit at failed
    split at failed
    · cases failed
    · split at failed
      · cases failed
      · rename_i open_
        have open_ : isGiven moment node = false := Bool.eq_false_iff.mpr open_
        rcases bind_eq_error.mp failed with folded | ⟨_, -, ⟨⟩⟩
        obtain ⟨state, source, among, stepped⟩ := exists_of_foldlM_eq_error folded
        rcases bind_eq_error.mp stepped with nowhere | ⟨target, resolved, stepped⟩
        · exact .inl ⟨node, member, open_, source, among, nowhere⟩
        · cases target with
          | none => cases stepped
          | some next =>
            have awaits : Awaits moment models outline node next := ⟨open_, source, among, resolved⟩
            have further : ∀ p ∈ node :: path, TransGen (Awaits moment models outline) p next :=
              List.forall_mem_cons.mpr ⟨.single awaits, fun p onPath => (above p onPath).tail awaits⟩
            dsimp only at stepped
            split at stepped
            · rename_i listed
              cases stepped
              obtain ⟨p, onPath, same⟩ := List.mem_map.mp (List.map_cons ▸ listed)
              obtain rfl := distinct.eq_of_name_eq (within onPath) awaits.mem same
              -- the cycle leads from the variable to one above it, and back
              refine .inr ⟨node, ?_, rfl⟩
              rcases List.mem_cons.mp onPath with rfl | higher
              · exact .single awaits
              · exact .head awaits (above p higher)
            · rename_i unlisted
              rcases bind_eq_error.mp stepped with below | ⟨_, -, ⟨⟩⟩
              have below : visit moment models outline depth ((node :: path).map Node.name) state.1 next =
                  .error fault := below
              exact ih below awaits.mem within (List.nodup_cons.mpr ⟨unlisted, apart⟩) further
                (by rw [List.length_cons]; omega) (List.cons_subset.mpr ⟨awaits.mem, within⟩)

theorem cycle_of_closure {fault : Fault} (failed : closure moment models outline = .error fault)
    (resolves : Resolves moment models outline) :
    ∃ v, TransGen (Awaits moment models outline) v v ∧ fault = .model .circularDependency v.name := by
  obtain ⟨found, node, member, visited⟩ := exists_of_foldlM_eq_error failed
  have visited : visit moment models outline outline.length (List.map Node.name []) found node =
      .error fault := visited
  rcases cycle_of_visit distinct visited member (List.nil_subset _) (List.nodup_singleton _)
    (by simp) (Nat.add_zero _) with ⟨v, inside, open_, source, among, nowhere⟩ | cycle
  · obtain ⟨target, resolved⟩ := resolves v inside open_ source among
    rw [nowhere] at resolved
    cases resolved
  · exact cycle

/-! ## The closure -/

omit distinct in
/-- The names that a closure has sets for are those of the variables. -/
theorem isSome_get?_iff {found : Found} (closed : closure moment models outline = .ok found)
    {name : Name} : (found.get? name).isSome = true ↔ ∃ node ∈ outline, node.name = name := by
  obtain ⟨explained, all⟩ := explained_of_closure closed
  constructor
  · intro present
    obtain ⟨set, at_⟩ := Option.isSome_iff_exists.mp present
    obtain ⟨node, member, named, -⟩ := explained name set at_
    exact ⟨node, member, named⟩
  · rintro ⟨node, member, rfl⟩
    exact all node member

/-- For all variables that have different names, all models and both moments: if every source of a variable
that is not given leads to a variable, the closure succeeds exactly if no variable depends on itself,
directly or through others; it then has a set for each variable, and for nothing else, of the names of
all that the variable depends on; and otherwise its fault is that of a variable that depends on itself. If
some source leads nowhere, there is a fault. -/
theorem closure_or_cycle :
    ((∀ node ∈ outline, isGiven moment node = false → ∀ source ∈ node.sources,
        ∃ next leaf, Leads models outline source next leaf) →
      ((∃ found, closure moment models outline = .ok found) ↔
        ∀ node, ¬ TransGen (DependsOn moment models outline) node node) ∧
      (∀ found, closure moment models outline = .ok found →
        (∀ name, (found.get? name).isSome = true ↔ ∃ node ∈ outline, node.name = name) ∧
        ∀ node ∈ outline, ∃ set, found.get? node.name = some set ∧ ∀ name, name ∈ set ↔
          ∃ next, TransGen (DependsOn moment models outline) node next ∧ next.name = name) ∧
      ((∃ node, TransGen (DependsOn moment models outline) node node) →
        ∃ node, TransGen (DependsOn moment models outline) node node ∧
          closure moment models outline = .error (.model .circularDependency node.name))) ∧
    (∀ node ∈ outline, isGiven moment node = false → ∀ source ∈ node.sources,
      (¬ ∃ next leaf, Leads models outline source next leaf) →
        ∃ fault, closure moment models outline = .error fault) := by
  have edges : DependsOn moment models outline = Awaits moment models outline := by
    funext node next
    exact propext (awaits_iff_dependsOn distinct).symm
  -- a cycle lies in the outline, since whatever is awaited does
  have acyclic : (∀ node, ¬ TransGen (Awaits moment models outline) node node) ↔
      Acyclic moment models outline := by
    refine ⟨fun all node _ => all node, fun all node cycle => ?_⟩
    obtain ⟨_, -, last⟩ := Relation.TransGen.tail'_iff.mp cycle
    exact all node last.mem cycle
  rw [← resolves_iff_leads distinct, edges, acyclic]
  refine ⟨fun resolves => ⟨?_, fun found closed => ⟨fun name => isSome_get?_iff closed, ?_⟩, ?_⟩, ?_⟩
  · rw [exists_closure_iff distinct, and_iff_right resolves]
  · intro node member
    obtain ⟨set, at_⟩ := Option.isSome_iff_exists.mp
      ((isSome_get?_iff closed).mpr ⟨node, member, rfl⟩)
    have whole : needs found node.name = set := by rw [needs, at_, Option.getD_some]
    exact ⟨set, at_, fun name => whole ▸ mem_needs_iff closed distinct member⟩
  · rintro ⟨node, cycle⟩
    cases ends : closure moment models outline with
    | ok found => exact absurd cycle (acyclic.mpr ((exists_closure_iff distinct).mp ⟨found, ends⟩).2 node)
    | error fault =>
      obtain ⟨v, itself, rfl⟩ := cycle_of_closure distinct ends resolves
      exact ⟨v, itself, rfl⟩
  · intro node member open_ source among nowhere
    cases ends : closure moment models outline with
    | error fault => exact ⟨fault, rfl⟩
    | ok found =>
      obtain ⟨resolves, -⟩ := (exists_closure_iff distinct).mp ⟨found, ends⟩
      exact absurd ((resolves_iff_leads distinct).mp resolves node member open_ source among) nowhere

end

/-- A module takes `x`, which reads a stock of the module and the stock beside it, which starts at `x`: at a
step nothing depends on itself, at the start `s` and `x` do. -/
theorem closure_or_cycle_looping :
    let models : Keyed Outline := [("sub", [⟨"y", true, none, []⟩])]
    let s : Node := ⟨"s", true, none, ["x"]⟩
    let outline : Outline := [⟨"m", false, some "sub", ["x"]⟩, s, ⟨"x", false, none, ["m.y", "s"]⟩]
    (∃ found, closure .step models outline = .ok found ∧ found.get? "m" = some ["x"] ∧
      ∀ node, ¬ TransGen (DependsOn .step models outline) node node) ∧
    TransGen (DependsOn .start models outline) s s ∧
      ∃ node, closure .start models outline = .error (.model .circularDependency node) := by
  intro models s outline
  let x : Node := ⟨"x", false, none, ["m.y", "s"]⟩
  let m : Node := ⟨"m", false, some "sub", ["x"]⟩
  have distinct : Distinct Node.name outline := by
    show (outline.map Node.name).Nodup
    decide
  have toX : Leads models outline x.name x x := .beside (by decide) (by decide)
  have toS : Leads models outline s.name s s := .beside (by decide) (by decide)
  have intoM : Leads models outline "m.y" m ⟨"y", true, none, []⟩ :=
    have dotted : "m.y".toList = "m".toList ++ '.' :: "y".toList := by decide
    .inside (by decide) (by decide) dotted rfl rfl rfl
  have known : ∀ node ∈ outline, ∀ source ∈ node.sources, source ∈ ["x", "s", "m.y"] := by decide
  have leads : ∀ source ∈ ["x", "s", "m.y"], ∃ next leaf, Leads models outline source next leaf := by
    simp only [List.forall_mem_cons, List.not_mem_nil, false_imp_iff, implies_true, and_true]
    exact ⟨⟨x, x, toX⟩, ⟨s, s, toS⟩, ⟨m, _, intoM⟩⟩
  have resolved : ∀ moment, ∀ node ∈ outline, isGiven moment node = false → ∀ source ∈ node.sources,
      ∃ next leaf, Leads models outline source next leaf :=
    fun _ node member _ source among => leads source (known node member source among)
  have atStep := (@closure_or_cycle .step models outline distinct).1 (resolved .step)
  have atStart := (@closure_or_cycle .start models outline distinct).1 (resolved .start)
  have around : TransGen (DependsOn .start models outline) s s :=
    .tail (.single ⟨rfl, "x", by decide, x, toX, rfl⟩) ⟨rfl, "s", by decide, s, toS, rfl⟩
  obtain ⟨node, -, failed⟩ := atStart.2.2 ⟨s, around⟩
  have evaluated : (closure .step models outline).toOption.bind (·.get? "m") = some ["x"] := by
    decide +kernel
  obtain ⟨found, closed, own⟩ := Option.bind_eq_some_iff.mp evaluated
  have closed := toOption_eq_some.mp closed
  exact ⟨⟨found, closed, own, atStep.1.mp ⟨found, closed⟩⟩, around, node.name, failed⟩

end StockFlow.Dependencies
