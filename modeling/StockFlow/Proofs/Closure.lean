import StockFlow.Model.Dependencies
import StockFlow.Proofs.Names
import StockFlow.Proofs.Order
import StockFlow.Proofs.Paths
import StockFlow.Proofs.Success

/-!
# Closures of dependencies

What a successful closure says: every source of a variable that is not given leads somewhere, the
set of a variable holds what it awaits and the sets of those, and nothing else, and no variable is in
its own set. The walk keeps this of all sets found so far, and never touches the names above it.
-/

namespace StockFlow.Dependencies

open StockFlow.Order (needs)

variable {moment : Moment} {models : Keyed Outline} {outline : Outline}

/-! ## Direct dependencies -/

/-- Whether a variable waits for another one directly. -/
def Awaits (moment : Moment) (models : Keyed Outline) (outline : Outline) (node next : Node) : Prop :=
  isGiven moment node = false ∧
    ∃ source ∈ node.sources, resolve moment models outline node.name source = .ok (some next)

/-- A source that leads somewhere is the name of a variable, or goes on behind a dot to a variable of
a module's model. -/
theorem resolve_eq_ok {name : Name} {source : Path} {target : Option Node}
    (resolved : resolve moment models outline name source = .ok target) :
    (¬ Path.IsDotted source ∧ ∃ node, outline.find? source = some node ∧
      target = if isGiven moment node then none else some node) ∨
    ∃ (head : Name) (rest : Path) (node : Node) (model : Name) (inner : Outline) (leaf : Node),
      ¬ Path.IsDotted head ∧ source.toList = head.toList ++ '.' :: rest.toList ∧
      Path.split source = (head, some rest) ∧ outline.find? head = some node ∧
      node.model? = some model ∧ models.get? model = some inner ∧
      inner.find? (Path.head rest) = some leaf ∧
      target = if isGiven moment leaf then none else some node := by
  unfold resolve at resolved
  rcases Path.split_cases source with ⟨plain, split⟩ | ⟨head, rest, plain, whole, split⟩
  · rw [split] at resolved
    dsimp only at resolved
    split at resolved
    · cases resolved
    · rename_i node found
      exact .inl ⟨plain, node, found, (Except.ok.inj resolved).symm⟩
  · rw [split] at resolved
    dsimp only at resolved
    split at resolved
    · cases resolved
    · rename_i node found
      split at resolved
      · cases resolved
      · rename_i model isModule
        split at resolved
        · cases resolved
        · rename_i inner linked
          split at resolved
          · cases resolved
          · rename_i leaf inside
            exact .inr ⟨head, rest, node, model, inner, leaf, plain, whole, split, found, isModule,
              linked, inside, (Except.ok.inj resolved).symm⟩

theorem of_isGiven {node : Node} (given : isGiven moment node = true) :
    node.isStock = true ∧ moment = .step := by
  simpa [isGiven] using given

theorem eq_of_given_eq_some {given : Bool} {node next : Node}
    (same : some next = if given then none else some node) : next = node := by
  split at same
  · cases same
  · exact Option.some.inj same

theorem mem_of_resolve {name : Name} {source : Path} {next : Node}
    (resolved : resolve moment models outline name source = .ok (some next)) : next ∈ outline := by
  rcases resolve_eq_ok resolved with
    ⟨-, node, found, same⟩ | ⟨_, _, node, _, _, _, -, -, -, found, -, -, -, same⟩
  · exact eq_of_given_eq_some same ▸ mem_of_findNamed found
  · exact eq_of_given_eq_some same ▸ mem_of_findNamed found

theorem Awaits.mem {node next : Node} (awaits : Awaits moment models outline node next) :
    next ∈ outline := by
  obtain ⟨-, _, -, resolved⟩ := awaits
  exact mem_of_resolve resolved

/-! ## Sets that have been found -/

/-- Whether what has been found is kept. -/
def Extends (found later : Found) : Prop :=
  ∀ name set, found.get? name = some set → later.get? name = some set

theorem Extends.needs {found later : Found} (kept : Extends found later) {name d : Name}
    (needed : d ∈ needs found name) : d ∈ needs later name := by
  unfold Order.needs at needed ⊢
  cases at_ : found.get? name with
  | none => simp [at_] at needed
  | some set =>
    rw [kept name set at_]
    rwa [at_] at needed

/-- Whether a set holds the dependencies of a variable, as far as they have been found. -/
structure Explains (moment : Moment) (models : Keyed Outline) (outline : Outline) (found : Found)
    (node : Node) (set : NameSet) : Prop where
  resolved : isGiven moment node = false → ∀ source ∈ node.sources,
    ∃ target, resolve moment models outline node.name source = .ok target
  direct : ∀ next, Awaits moment models outline node next → next.name ∈ set
  inner : ∀ d ∈ set, ∃ below, found.get? d = some below ∧ below ⊆ set
  only : ∀ d ∈ set, ∃ next, Awaits moment models outline node next ∧
    (d = next.name ∨ d ∈ needs found next.name)
  loopless : node.name ∉ set

/-- Whether every set that has been found is that of a variable. -/
def Explained (moment : Moment) (models : Keyed Outline) (outline : Outline) (found : Found) : Prop :=
  ∀ name set, found.get? name = some set →
    ∃ node ∈ outline, node.name = name ∧ Explains moment models outline found node set

theorem Explains.mono {found later : Found} {node : Node} {set : NameSet}
    (explains : Explains moment models outline found node set) (kept : Extends found later) :
    Explains moment models outline later node set where
  resolved := explains.resolved
  direct := explains.direct
  inner d member := by
    obtain ⟨below, at_, within⟩ := explains.inner d member
    exact ⟨below, kept d below at_, within⟩
  only d member := by
    obtain ⟨next, awaited, which⟩ := explains.only d member
    exact ⟨next, awaited, which.imp_right kept.needs⟩
  loopless := explains.loopless

/-- What the walk below the variables of `path` does to the sets found so far. -/
structure Grows (moment : Moment) (models : Keyed Outline) (outline : Outline) (path : List Name)
    (found later : Found) : Prop where
  explained : Explained moment models outline later
  kept : Extends found later
  above : ∀ name ∈ path, later.get? name = found.get? name

theorem Grows.put {path : List Name} {found later : Found} {node : Node} {set : NameSet}
    (grows : Grows moment models outline (node.name :: path) found later)
    (fresh : found.get? node.name = none) (member : node ∈ outline) (off : node.name ∉ path)
    (explains : Explains moment models outline later node set) :
    Grows moment models outline path found (later.put node.name set) := by
  have absent : later.get? node.name = none := by
    rw [grows.above node.name List.mem_cons_self, fresh]
  have kept : Extends later (later.put node.name set) := by
    intro name other at_
    rw [Keyed.get?_put, if_neg, at_]
    rintro rfl
    rw [absent] at at_
    cases at_
  refine ⟨?_, fun name other at_ => kept name other (grows.kept name other at_), ?_⟩
  · intro name other at_
    rw [Keyed.get?_put] at at_
    split at at_
    · rename_i same
      cases at_
      exact ⟨node, member, same.symm, explains.mono kept⟩
    · obtain ⟨owner, inside, named, before⟩ := grows.explained name other at_
      exact ⟨owner, inside, named, before.mono kept⟩
  · intro name inside
    rw [Keyed.get?_put, if_neg, grows.above name (List.mem_cons_of_mem _ inside)]
    rintro rfl
    exact off inside

/-! ## The walk -/

/-- The state after some sources of a variable have been followed. -/
structure Followed (moment : Moment) (models : Keyed Outline) (outline : Outline) (path : List Name)
    (found : Found) (node : Node) (done : List Path) (state : Found × NameSet) : Prop where
  grows : Grows moment models outline (node.name :: path) found state.1
  resolved : ∀ source ∈ done, ∃ target, resolve moment models outline node.name source = .ok target ∧
    ∀ next, target = some next → next.name ∈ state.2
  inner : ∀ d ∈ state.2, ∃ below, state.1.get? d = some below ∧ below ⊆ state.2
  only : ∀ d ∈ state.2, ∃ source ∈ done, ∃ next,
    resolve moment models outline node.name source = .ok (some next) ∧
      (d = next.name ∨ d ∈ needs state.1 next.name)

theorem Followed.step {path : List Name} {found later : Found} {node next : Node} {done : List Path}
    {state : Found × NameSet} {source : Path}
    (followed : Followed moment models outline path found node done state)
    (leads : resolve moment models outline node.name source = .ok (some next))
    (grows : Grows moment models outline (node.name :: path) state.1 later)
    {below : NameSet} (visited : later.get? next.name = some below) :
    Followed moment models outline path found node (done ++ [source])
      (later, NameSet.insertAll below (NameSet.insert next.name state.2)) := by
  have joined : ∀ d, d ∈ NameSet.insertAll below (NameSet.insert next.name state.2) ↔
      d ∈ below ∨ d = next.name ∨ d ∈ state.2 := by
    intro d
    rw [NameSet.mem_insertAll, NameSet.mem_insert]
  have reached : needs later next.name = below := by
    rw [Order.needs, visited, Option.getD_some]
  refine ⟨⟨grows.explained, ?_, ?_⟩, ?_, ?_, ?_⟩
  · exact fun name set at_ => grows.kept name set (followed.grows.kept name set at_)
  · exact fun name inside => by rw [grows.above name inside, followed.grows.above name inside]
  · intro other member
    rcases List.mem_append.mp member with earlier | last
    · obtain ⟨target, leads, each⟩ := followed.resolved other earlier
      exact ⟨target, leads, fun next same => (joined _).mpr (.inr (.inr (each next same)))⟩
    · obtain rfl := List.mem_singleton.mp last
      refine ⟨some next, leads, fun other same => ?_⟩
      cases same
      exact (joined _).mpr (.inr (.inl rfl))
  · -- whatever is found at the next variable was closed when that was visited
    intro d member
    obtain ⟨_, -, -, explains⟩ := grows.explained _ _ visited
    rcases (joined d).mp member with further | rfl | earlier
    · obtain ⟨set, at_, within⟩ := explains.inner d further
      exact ⟨set, at_, fun e inside => (joined e).mpr (.inl (within inside))⟩
    · exact ⟨below, visited, fun e inside => (joined e).mpr (.inl inside)⟩
    · obtain ⟨set, at_, within⟩ := followed.inner d earlier
      exact ⟨set, grows.kept d set at_, fun e inside => (joined e).mpr (.inr (.inr (within inside)))⟩
  · intro d member
    rcases (joined d).mp member with further | rfl | earlier
    · exact ⟨source, by simp, next, leads, .inr (reached ▸ further)⟩
    · exact ⟨source, by simp, next, leads, .inl rfl⟩
    · obtain ⟨other, inside, target, leads, which⟩ := followed.only d earlier
      exact ⟨other, by simp [inside], target, leads, which.imp_right (Extends.needs grows.kept)⟩

theorem Followed.skip {path : List Name} {found : Found} {node : Node} {done : List Path}
    {state : Found × NameSet} {source : Path}
    (followed : Followed moment models outline path found node done state)
    (leads : resolve moment models outline node.name source = .ok none) :
    Followed moment models outline path found node (done ++ [source]) state := by
  refine ⟨followed.grows, ?_, followed.inner, ?_⟩
  · intro other member
    rcases List.mem_append.mp member with earlier | last
    · exact followed.resolved other earlier
    · obtain rfl := List.mem_singleton.mp last
      exact ⟨none, leads, by simp⟩
  · intro d member
    obtain ⟨other, inside, rest⟩ := followed.only d member
    exact ⟨other, by simp [inside], rest⟩

theorem Followed.explains {path : List Name} {found : Found} {node : Node}
    {state : Found × NameSet} (open_ : isGiven moment node = false)
    (followed : Followed moment models outline path found node node.sources state)
    (fresh : found.get? node.name = none) :
    Explains moment models outline state.1 node state.2 where
  resolved _ source member := by
    obtain ⟨target, leads, -⟩ := followed.resolved source member
    exact ⟨target, leads⟩
  direct next := by
    rintro ⟨-, source, member, leads⟩
    obtain ⟨target, same, each⟩ := followed.resolved source member
    rw [leads] at same
    cases same
    exact each next rfl
  inner := followed.inner
  only d member := by
    obtain ⟨source, inside, next, leads, which⟩ := followed.only d member
    exact ⟨next, ⟨open_, source, inside, leads⟩, which⟩
  loopless member := by
    obtain ⟨below, at_, -⟩ := followed.inner _ member
    rw [followed.grows.above _ List.mem_cons_self, fresh] at at_
    cases at_

/-- A visit finds the set of its variable and keeps the sets found before. -/
theorem visit_grows {depth : Nat} {path : List Name} {found later : Found} {node : Node}
    (visited : visit moment models outline depth path found node = .ok later)
    (member : node ∈ outline) (off : node.name ∉ path)
    (explained : Explained moment models outline found) :
    Grows moment models outline path found later ∧ (later.get? node.name).isSome = true := by
  induction depth generalizing path found later node with
  | zero => cases visited
  | succ depth ih =>
    unfold visit at visited
    split at visited
    · -- the variable has its set already
      rename_i known
      cases visited
      exact ⟨⟨explained, fun _ _ at_ => at_, fun _ _ => rfl⟩, known⟩
    · rename_i unknown
      have fresh : found.get? node.name = none := by simpa using unknown
      have self : Grows moment models outline (node.name :: path) found found :=
        ⟨explained, fun _ _ at_ => at_, fun _ _ => rfl⟩
      split at visited
      · rename_i given
        cases visited
        refine ⟨self.put fresh member off ⟨?_, ?_, ?_, ?_, ?_⟩, by simp [Keyed.get?_put]⟩
        · simp [given]
        · rintro next ⟨open_, -⟩
          rw [given] at open_
          cases open_
        all_goals simp
      · rename_i open_
        simp only [bind_eq_ok, pure_eq_ok] at visited
        obtain ⟨⟨last, set⟩, folded, rfl⟩ := visited
        -- no visit below touches the variables of the path, so the set is still missing at the end
        have followed : Followed moment models outline path found node node.sources (last, set) := by
          refine foldlM_induction
            (fun done state => Followed moment models outline path found node done state)
            ⟨self, by simp, by simp, by simp⟩ ?_ folded
          intro done source rest state after _ followed stepped
          simp only [bind_eq_ok] at stepped
          obtain ⟨target, leads, stepped⟩ := stepped
          split at stepped
          · rw [pure_eq_ok] at stepped
            exact stepped ▸ followed.skip leads
          · rename_i next
            split at stepped
            · cases stepped
            · rename_i below
              simp only [bind_eq_ok, pure_eq_ok] at stepped
              obtain ⟨reached, inner, rfl⟩ := stepped
              obtain ⟨grows, found_⟩ := ih inner (mem_of_resolve leads) below followed.grows.explained
              obtain ⟨set, at_⟩ := Option.isSome_iff_exists.mp found_
              rw [at_, Option.getD_some]
              exact followed.step leads grows at_
        exact ⟨followed.grows.put fresh member off (followed.explains (by simpa using open_) fresh),
          by simp [Keyed.get?_put]⟩

/-! ## The closure -/

/-- A successful closure has the set of every variable. -/
theorem explained_of_closure {found : Keyed NameSet}
    (closed : closure moment models outline = .ok found) :
    Explained moment models outline found ∧
      ∀ node ∈ outline, (found.get? node.name).isSome = true := by
  refine foldlM_induction
    (fun done found => Explained moment models outline found ∧
      ∀ node ∈ done, (found.get? node.name).isSome = true) ?_ ?_ closed
  · exact ⟨by simp [Explained, Keyed.get?], by simp⟩
  · rintro done node rest found later split ⟨explained, before⟩ visited
    have member : node ∈ outline := by simp [split]
    obtain ⟨grows, here⟩ := visit_grows visited member List.not_mem_nil explained
    refine ⟨grows.explained, fun other inside => ?_⟩
    rcases List.mem_append.mp inside with earlier | last
    · obtain ⟨set, at_⟩ := Option.isSome_iff_exists.mp (before other earlier)
      rw [grows.kept _ _ at_]
      rfl
    · rwa [List.mem_singleton.mp last]

section

variable {found : Keyed NameSet} (closed : closure moment models outline = .ok found)
include closed

theorem explains_of_closure (distinct : Distinct Node.name outline) {node : Node}
    (member : node ∈ outline) :
    Explains moment models outline found node (needs found node.name) := by
  obtain ⟨explained, all⟩ := explained_of_closure closed
  obtain ⟨set, at_⟩ := Option.isSome_iff_exists.mp (all node member)
  obtain ⟨other, inside, same, explains⟩ := explained _ _ at_
  rw [distinct.eq_of_name_eq inside member same] at explains
  rwa [needs, at_, Option.getD_some]

theorem closed_of_closure : Order.Closed found := by
  intro a b needed c further
  obtain ⟨explained, -⟩ := explained_of_closure closed
  unfold needs at needed further ⊢
  cases at_ : found.get? a with
  | none => simp [at_] at needed
  | some set =>
    obtain ⟨_, -, -, explains⟩ := explained _ _ at_
    rw [at_] at needed
    obtain ⟨below, atB, within⟩ := explains.inner b needed
    rw [atB] at further
    exact within further

theorem loopless_of_closure : Order.Loopless found := by
  intro a needed
  obtain ⟨explained, -⟩ := explained_of_closure closed
  unfold needs at needed
  cases at_ : found.get? a with
  | none => simp [at_] at needed
  | some set =>
    obtain ⟨_, -, rfl, explains⟩ := explained _ _ at_
    rw [at_] at needed
    exact explains.loopless needed

end

end StockFlow.Dependencies
