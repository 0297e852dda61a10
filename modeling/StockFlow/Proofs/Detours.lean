import StockFlow.Proofs.Acyclic
import StockFlow.Proofs.Agreement

/-!
# Detours in dependencies

A detour leads one source of a module through a variable of its own, whose only source is the module's
former one. What the module awaited it then awaits through that variable, so a closure of dependencies
succeeds with the detour exactly if it does without.
-/

namespace StockFlow

/-- A detour of one input of a module: in place of `source` it reads `via`, an auxiliary variable that
refers to `source`. -/
structure Detour where
  via : Name
  /-- The equation of the variable `via` as a text. -/
  text : String
  source : Name
  module : Name
  model : Name
  /-- The inputs before the one that takes the detour. -/
  before : List Input
  target : Name
  after : List Input

namespace Detour

/-- Whether the names on a detour are names of variables, and nothing but that. -/
structure IsClear (detour : Detour) : Prop where
  undotted : ¬ Path.IsDotted detour.source
  unreserved : isReserved detour.source = false
  plain : detour.via.IsPlain
  unclocked : ClockReference.ofName? detour.via = none
  late : detour.via ≠ "main"
  around : detour.source ≠ detour.via
  other : detour.module ≠ detour.via

end Detour

namespace Dependencies

open Relation (TransGen ReflTransGen)

variable {moment : Moment} {models others : Keyed Outline} {outline longer : Outline}

/-! ## Sources that lead to the same -/

theorem rel_given {related : Node → Node → Prop} {node next leaf leaf' : Node} (close : related node next)
    (same : leaf'.isStock = leaf.isStock) :
    Option.Rel related (if isGiven moment leaf then none else some node)
      (if isGiven moment leaf' then none else some next) := by
  rw [isGiven, isGiven, same]
  split
  · exact .none
  · exact .some close

/-- Two sources lead to related variables in two outlines if their first steps do, and their second steps
are the same and lead to variables that are both stocks or both none. -/
theorem agree_resolve {related : Node → Node → Prop}
    (same : ∀ node next, related node next →
      next.isStock = node.isStock ∧ next.model? = node.model?)
    {owner owner' : Name} {source source' : Path}
    (first : Option.Rel related (outline.find? (Path.head source)) (longer.find? (Path.head source')))
    (further : (Path.split source').2 = (Path.split source).2)
    (second : ∀ rest, (Path.split source).2 = some rest → ∀ model,
      (∃ node ∈ outline, node.model? = some model) →
        Option.Rel (fun inner inner' : Outline => (inner'.find? (Path.head rest)).map Node.isStock =
          (inner.find? (Path.head rest)).map Node.isStock) (models.get? model) (others.get? model)) :
    Agree (Option.Rel related) (resolve moment models outline owner source)
      (resolve moment others longer owner' source') := by
  unfold resolve
  unfold Path.head at first
  rcases split : Path.split source with ⟨head, _ | rest⟩ <;>
    rcases split' : Path.split source' with ⟨head', _ | rest'⟩ <;>
    simp only [split, split', reduceCtorEq, Option.some.injEq] at first further second
  · obtain rfl := Path.eq_of_split split
    obtain rfl := Path.eq_of_split split'
    dsimp only
    generalize Outline.find? outline head = here, Outline.find? longer head' = there at first
    cases first with
    | none => exact .error
    | @some node next close => exact .ok (rel_given close (same _ _ close).1)
  · subst further
    have inner := second _ rfl
    dsimp only
    generalize found : Outline.find? outline head = here, Outline.find? longer head' = there at first
    cases first with
    | none => exact .error
    | @some node next close =>
      dsimp only
      rw [(same _ _ close).2]
      cases instantiates : node.model? with
      | none => exact .error
      | some model =>
        have inner := inner model ⟨node, mem_of_findNamed found, instantiates⟩
        dsimp only
        generalize Keyed.get? models model = below, Keyed.get? others model = below' at inner
        cases inner with
        | none => exact .error
        | @some inner inner' stocks =>
          dsimp only
          generalize Outline.find? inner (Path.head _) = leaf,
            Outline.find? inner' (Path.head _) = leaf' at stocks
          cases leaf <;> cases leaf'
          · exact .error
          · cases stocks
          · cases stocks
          · exact .ok (rel_given close (Option.some.inj stocks))

theorem name_of_resolve {name : Name} {source : Path} {next : Node} (undotted : ¬ Path.IsDotted source)
    (resolved : resolve moment models outline name source = .ok (some next)) : next.name = source := by
  rcases resolve_eq_ok resolved with ⟨-, node, found, leads⟩ | ⟨_, _, _, _, _, _, -, whole, -⟩
  · rw [eq_of_given_eq_some leads]
    exact name_of_findNamed found
  · exact absurd (by rw [Path.IsDotted, whole]; simp) undotted

/-! ## Cycles -/

/-- Whether a variable of a name awaits one of another name. -/
def AwaitsNamed (moment : Moment) (models : Keyed Outline) (outline : Outline) (name other : Name) :
    Prop :=
  ∃ node ∈ outline, ∃ next, Awaits moment models outline node next ∧ node.name = name ∧
    next.name = other

/-- Where a name leads to another one, a node of that name leads to one of the other name. -/
theorem exists_awaits_of_named (distinct : Distinct Node.name outline) {name other : Name}
    (reached : TransGen (AwaitsNamed moment models outline) name other) :
    ∃ node ∈ outline, ∃ next ∈ outline, TransGen (Awaits moment models outline) node next ∧
      node.name = name ∧ next.name = other := by
  induction reached with
  | single awaits =>
    obtain ⟨node, member, next, awaits, rfl, rfl⟩ := awaits
    exact ⟨node, member, next, awaits.mem, .single awaits, rfl, rfl⟩
  | tail _ awaits ih =>
    obtain ⟨node, member, next, inside, reached, rfl, rfl⟩ := ih
    obtain ⟨again, member', last, awaits, same, rfl⟩ := awaits
    -- the next link begins at a node of the same name, which is the node reached so far
    obtain rfl := distinct.eq_of_name_eq member' inside same
    exact ⟨node, member, last, awaits.mem, reached.tail awaits, rfl, rfl⟩

/-- Where a node leads to another one, so do their names. -/
theorem awaitsNamed_of_awaits {node next : Node} (member : node ∈ outline)
    (reached : TransGen (Awaits moment models outline) node next) :
    next ∈ outline ∧ TransGen (AwaitsNamed moment models outline) node.name next.name := by
  induction reached with
  | single awaits => exact ⟨awaits.mem, .single ⟨node, member, _, awaits, rfl, rfl⟩⟩
  | tail _ awaits ih => exact ⟨awaits.mem, ih.2.tail ⟨_, ih.1, _, awaits, rfl, rfl⟩⟩

theorem acyclic_iff (distinct : Distinct Node.name outline) : Acyclic moment models outline ↔
    ∀ name, ¬ TransGen (AwaitsNamed moment models outline) name name := by
  constructor
  · intro acyclic name cycle
    obtain ⟨node, member, next, inside, reached, rfl, same⟩ := exists_awaits_of_named distinct cycle
    obtain rfl := distinct.eq_of_name_eq inside member same
    exact acyclic _ member reached
  · intro acyclic node member cycle
    exact acyclic _ (awaitsNamed_of_awaits member cycle).2

/-- A path from beside a detour that ends beside it is one without it; a path that ends in the middle of the
detour has passed its start. -/
theorem straighten {β : Type} {edge edge' : β → β → Prop} {start stop middle : β} (enters : stop ≠ middle)
    (fewer : ∀ a b, edge' a b → a ≠ middle → b ≠ middle → edge a b)
    (into : ∀ a, edge' a middle → a = start)
    (out : ∀ b, edge' middle b → b = stop ∧ edge start stop) {a b : β}
    (reached : TransGen edge' a b) (apart : a ≠ middle) :
    (b ≠ middle → TransGen edge a b) ∧ (b = middle → ReflTransGen edge a start) := by
  induction reached with
  | single first =>
    refine ⟨fun off => .single (fewer _ _ first apart off), ?_⟩
    rintro rfl
    rw [into _ first]
  | @tail b c before last ih =>
    by_cases on : b = middle
    · subst on
      obtain ⟨rfl, straight⟩ := out _ last
      exact ⟨fun _ => .tail' (ih.2 rfl) straight, fun here => absurd here enters⟩
    · refine ⟨fun off => (ih.1 on).tail (fewer _ _ last on off), ?_⟩
      rintro rfl
      rw [← into _ last]
      exact (ih.1 on).to_reflTransGen

/-- A detour through a node of its own on an edge neither makes a cycle nor breaks one. -/
theorem acyclic_iff_of_detour {β : Type} {edge edge' : β → β → Prop} {start stop middle : β}
    (enters : stop ≠ middle) (fewer : ∀ a b, edge' a b → a ≠ middle → b ≠ middle → edge a b)
    (into : ∀ a, edge' a middle → a = start)
    (out : ∀ b, edge' middle b → b = stop ∧ edge start stop)
    (more : ∀ a b, edge a b → edge' a b ∨ a = start ∧ b = stop ∧ edge' start middle ∧ edge' middle stop) :
    (∀ a, ¬ TransGen edge a a) ↔ ∀ a, ¬ TransGen edge' a a := by
  constructor
  · intro acyclic a cycle
    by_cases on : a = middle
    · subst on
      obtain ⟨b, first, rest⟩ := TransGen.head'_iff.mp cycle
      obtain ⟨rfl, straight⟩ := out _ first
      have back := Relation.reflTransGen_iff_eq_or_transGen.mp rest
      have passed := (straighten enters fewer into out (back.resolve_left enters.symm) enters).2 rfl
      exact acyclic _ (TransGen.tail' passed straight)
    · exact acyclic a ((straighten enters fewer into out cycle on).1 on)
  · intro acyclic a cycle
    refine acyclic a (TransGen.trans_induction_on (motive := fun {a b} _ => TransGen edge' a b) cycle
      (fun {a b} first => ?_) fun _ _ => TransGen.trans)
    rcases more _ _ first with same | ⟨rfl, rfl, before, after⟩
    · exact .single same
    · exact .tail (.single before) after

/-- Whether what two outlines tell of a second step is the same: that it leads to a stock, to another
variable, or to none. -/
def AgreeInside (models others : Keyed Outline) (source : Path) : Prop :=
  ∀ rest, (Path.split source).2 = some rest → ∀ model,
    Option.Rel (fun inner inner' : Outline => (inner'.find? (Path.head rest)).map Node.isStock =
      (inner.find? (Path.head rest)).map Node.isStock) (models.get? model) (others.get? model)

/-- Where all sources lead to the same, closures of one outline succeed alike. -/
theorem agree_closure (distinct : Distinct Node.name outline)
    (inside : ∀ node ∈ outline, ∀ source ∈ node.sources, AgreeInside models others source) :
    Agree (fun _ _ => True) (closure moment models outline) (closure moment others outline) := by
  have leads : ∀ node ∈ outline, ∀ source ∈ node.sources, ∀ target,
      resolve moment models outline node.name source = .ok target ↔
        resolve moment others outline node.name source = .ok target := by
    intro node member source among target
    have agree : Agree (Option.Rel Eq) (resolve moment models outline node.name source)
        (resolve moment others outline node.name source) :=
      agree_resolve (fun _ _ same => by simp [same]) (rel_eq_iff.mpr rfl) rfl
        fun rest further model _ => inside node member source among rest further model
    constructor
    · intro resolved
      obtain ⟨other, resolved'⟩ := agree.exists_iff.mp ⟨_, resolved⟩
      rw [rel_eq_iff.mp (agree.of_ok resolved resolved'), resolved']
    · intro resolved
      obtain ⟨other, resolved'⟩ := agree.exists_iff.mpr ⟨_, resolved⟩
      rw [resolved', rel_eq_iff.mp (agree.of_ok resolved' resolved)]
  refine .of_exists_iff ?_ fun _ _ _ _ => trivial
  rw [exists_closure_iff distinct, exists_closure_iff distinct, acyclic_iff distinct,
    acyclic_iff distinct]
  have resolves : Resolves moment models outline ↔ Resolves moment others outline :=
    forall₂_congr fun node member => forall_congr' fun _ => forall₂_congr fun source among =>
      exists_congr (leads node member source among)
  have awaits : AwaitsNamed moment models outline = AwaitsNamed moment others outline := by
    funext name other
    refine propext (exists_congr fun node => and_congr_right fun member => exists_congr fun next =>
      and_congr_left fun _ => and_congr_right fun _ => exists_congr fun source =>
        and_congr_right fun among => leads node member source among (some next))
  rw [resolves, awaits]

end Dependencies

namespace Detour

open Dependencies

variable {detour : Detour} {moment : Moment} {models others : Keyed Outline} {outline longer : Outline}

/-- Whether two nodes are the same but for the detour: the module reads its middle in place of its
source. -/
structure Turned (detour : Detour) (node next : Node) : Prop where
  name : next.name = node.name
  isStock : next.isStock = node.isStock
  model? : next.model? = node.model?
  forth : ∀ source ∈ next.sources,
    source ∈ node.sources ∨ source = detour.via ∧ node.name = detour.module
  back : ∀ source ∈ node.sources,
    source ∈ next.sources ∨ source = detour.source ∧ node.name = detour.module

/-- Whether an outline is another one with a detour. -/
structure Routes (detour : Detour) (outline longer : Outline) : Prop where
  distinct : Distinct Node.name outline
  distinct' : Distinct Node.name longer
  beside : ∀ name ≠ detour.via, Option.Rel detour.Turned (outline.find? name) (longer.find? name)
  unnamed : outline.find? detour.via = none
  middle : longer.find? detour.via = some ⟨detour.via, false, none, [detour.source]⟩
  straight : ∃ node ∈ outline, node.name = detour.module ∧ node.isStock = false ∧
    detour.source ∈ node.sources
  around : ∃ node ∈ longer, node.name = detour.module ∧ node.isStock = false ∧
    detour.via ∈ node.sources
  unread : ∀ node ∈ outline, detour.via ∉ node.sources

namespace Routes

variable (routes : detour.Routes outline longer)
include routes

theorem turned {node next : Node} (member : node ∈ outline) (member' : next ∈ longer)
    (same : next.name = node.name) : detour.Turned node next := by
  have found : outline.find? node.name = some node := findNamed_of_mem routes.distinct member
  have found' : longer.find? node.name = some next :=
    same ▸ findNamed_of_mem routes.distinct' member'
  have apart : node.name ≠ detour.via := by
    intro here
    rw [here, routes.unnamed] at found
    cases found
  have both := routes.beside node.name apart
  rw [found, found'] at both
  cases both
  assumption

theorem exists_longer {node : Node} (member : node ∈ outline) : ∃ next ∈ longer, next.name = node.name ∧
    detour.Turned node next := by
  have found : outline.find? node.name = some node := findNamed_of_mem routes.distinct member
  have apart : node.name ≠ detour.via := by
    intro here
    rw [here, routes.unnamed] at found
    cases found
  have both := routes.beside node.name apart
  rw [found] at both
  generalize there : longer.find? node.name = next at both
  cases both with
  | some turned => exact ⟨_, mem_of_findNamed there, turned.name, turned⟩

theorem exists_shorter {next : Node} (member : next ∈ longer) (apart : next.name ≠ detour.via) :
    ∃ node ∈ outline, next.name = node.name ∧ detour.Turned node next := by
  have found : longer.find? next.name = some next := findNamed_of_mem routes.distinct' member
  have both := routes.beside next.name apart
  rw [found] at both
  generalize there : outline.find? next.name = node at both
  cases both with
  | some turned => exact ⟨_, mem_of_findNamed there, turned.name, turned⟩

theorem eq_middle {next : Node} (member : next ∈ longer) (here : next.name = detour.via) :
    next = ⟨detour.via, false, none, [detour.source]⟩ := by
  have found : longer.find? next.name = some next := findNamed_of_mem routes.distinct' member
  rw [here, routes.middle] at found
  exact (Option.some.inj found).symm

/-- A source of the shorter outline leads to the same in both. -/
theorem agree_resolve {owner owner' : Name} {source : Path} (apart : source ≠ detour.via)
    (inside : AgreeInside models others source) :
    Agree (Option.Rel detour.Turned) (resolve moment models outline owner source)
      (resolve moment others longer owner' source) := by
  by_cases head : Path.head source = detour.via
  · -- behind a dot the middle of the detour leads nowhere, since it is no module
    unfold resolve
    unfold Path.head at head
    rcases split : Path.split source with ⟨first, _ | rest⟩
    · rcases Path.split_cases source with ⟨-, whole⟩ | ⟨_, _, -, -, whole⟩
      · rw [whole] at head
        exact absurd head apart
      · rw [whole] at split
        cases split
    · rw [split] at head
      dsimp only at head ⊢
      rw [head, routes.unnamed, routes.middle]
      exact .error
  · exact Dependencies.agree_resolve (fun _ _ turned => ⟨turned.isStock, turned.model?⟩)
      (routes.beside _ head) rfl fun rest further model _ => inside rest further model

variable (clear : detour.IsClear)
  (inside : ∀ node ∈ outline, ∀ source ∈ node.sources, AgreeInside models others source)
include clear inside

omit clear in
theorem agree_of_mem {node : Node} (member : node ∈ outline) {source : Path}
    (among : source ∈ node.sources) {owner owner' : Name} :
    Agree (Option.Rel detour.Turned) (resolve moment models outline owner source)
      (resolve moment others longer owner' source) :=
  routes.agree_resolve (fun same => routes.unread node member (same ▸ among))
    (inside node member source among)

omit clear in
theorem shortens {node next : Node} (member : node ∈ outline) {source : Path}
    (among : source ∈ node.sources) {owner : Name}
    (resolved : resolve moment others longer owner source = .ok (some next)) :
    ∃ target, resolve moment models outline node.name source = .ok (some target) ∧
      detour.Turned target next := by
  have agree : Agree (Option.Rel detour.Turned) (resolve moment models outline node.name source)
      (resolve moment others longer owner source) := routes.agree_of_mem inside member among
  obtain ⟨target, resolved'⟩ := agree.exists_iff.mpr ⟨_, resolved⟩
  cases agree.of_ok resolved' resolved with
  | some turned => exact ⟨_, resolved', turned⟩

omit clear in
theorem lengthens {node next : Node} (member : node ∈ outline) {source : Path}
    (among : source ∈ node.sources) (owner : Name)
    (resolved : resolve moment models outline node.name source = .ok (some next)) :
    ∃ target, resolve moment others longer owner source = .ok (some target) ∧
      detour.Turned next target := by
  have agree : Agree (Option.Rel detour.Turned) (resolve moment models outline node.name source)
      (resolve moment others longer owner source) := routes.agree_of_mem inside member among
  obtain ⟨target, resolved'⟩ := agree.exists_iff.mp ⟨_, resolved⟩
  cases agree.of_ok resolved resolved' with
  | some turned => exact ⟨_, resolved', turned⟩

omit inside in
theorem resolve_via {owner : Name} : resolve moment others longer owner detour.via =
    .ok (some ⟨detour.via, false, none, [detour.source]⟩) := by
  unfold resolve
  rw [Path.split_of_not_dotted clear.plain.2.1]
  dsimp only
  rw [routes.middle]
  rfl

theorem resolves_iff : Resolves moment models outline ↔ Resolves moment others longer := by
  obtain ⟨module, present, named, isStock, reads⟩ := routes.straight
  have starts : isGiven moment module = false := by rw [isGiven, isStock, Bool.false_and]
  constructor
  · intro resolves next member open_ source among
    have goes : ∀ node ∈ outline, isGiven moment node = false → source ∈ node.sources →
        ∃ target, resolve moment others longer next.name source = .ok target :=
      fun node member open_ among =>
        (routes.agree_of_mem inside member among).exists_iff.mp (resolves node member open_ source among)
    by_cases here : next.name = detour.via
    · rw [routes.eq_middle member here] at among
      obtain rfl := List.mem_singleton.mp among
      exact goes module present starts reads
    · obtain ⟨node, member', same, turned⟩ := routes.exists_shorter member here
      rcases turned.forth source among with kept | ⟨rfl, -⟩
      · exact goes node member' (by rwa [isGiven, ← turned.isStock]) kept
      · exact ⟨_, routes.resolve_via clear⟩
  · intro resolves node member open_ source among
    obtain ⟨next, member', same, turned⟩ := routes.exists_longer member
    have agree : ∀ {owner'}, Agree (Option.Rel detour.Turned)
        (resolve moment models outline node.name source) (resolve moment others longer owner' source) :=
      routes.agree_of_mem inside member among
    rcases turned.back source among with kept | ⟨rfl, -⟩
    · exact agree.exists_iff.mpr (resolves next member' (by rwa [isGiven, turned.isStock]) source kept)
    · exact agree.exists_iff.mpr
        (resolves _ (mem_of_findNamed routes.middle) rfl _ (List.mem_singleton.mpr rfl))

/-- Beside the middle of the detour, what awaits something with the detour does so without it. -/
theorem awaitsNamed_shorter {name other : Name}
    (awaits : AwaitsNamed moment others longer name other) (off : name ≠ detour.via)
    (off' : other ≠ detour.via) : AwaitsNamed moment models outline name other := by
  obtain ⟨next, member, further, ⟨open_, source, among, resolved⟩, rfl, rfl⟩ := awaits
  obtain ⟨node, member', same, turned⟩ := routes.exists_shorter member off
  rcases turned.forth source among with kept | ⟨rfl, -⟩
  · obtain ⟨target, resolved', turned'⟩ := routes.shortens inside member' kept resolved
    exact ⟨node, member', target, ⟨by rwa [isGiven, ← turned.isStock], source, kept, resolved'⟩,
      same.symm, turned'.name.symm⟩
  · rw [routes.resolve_via clear] at resolved
    cases resolved
    exact absurd rfl off'

omit clear in
/-- Only the module that takes the detour awaits the middle of it. -/
theorem eq_module_of_awaitsNamed {name : Name}
    (awaits : AwaitsNamed moment others longer name detour.via) : name = detour.module := by
  obtain ⟨module, present, named, isStock, reads⟩ := routes.straight
  obtain ⟨next, member, further, ⟨open_, source, among, resolved⟩, rfl, there⟩ := awaits
  have into : ∀ node ∈ outline, source ∈ node.sources → False := by
    intro node member' kept
    obtain ⟨target, resolved', turned⟩ := routes.shortens inside member' kept resolved
    exact findNamed_eq_none.mp routes.unnamed target (mem_of_resolve resolved')
      (turned.name.symm.trans there)
  by_cases here : next.name = detour.via
  · rw [routes.eq_middle member here] at among
    obtain rfl := List.mem_singleton.mp among
    exact (into module present reads).elim
  · obtain ⟨node, member', same, turned⟩ := routes.exists_shorter member here
    rcases turned.forth source among with kept | ⟨-, isModule⟩
    · exact (into node member' kept).elim
    · exact same.trans isModule

/-- The middle of the detour awaits its source alone, which the module awaits without the detour. -/
theorem eq_source_of_awaitsNamed {name : Name}
    (awaits : AwaitsNamed moment others longer detour.via name) :
    name = detour.source ∧ AwaitsNamed moment models outline detour.module detour.source := by
  obtain ⟨module, present, named, isStock, reads⟩ := routes.straight
  obtain ⟨next, member, further, ⟨open_, source, among, resolved⟩, here, rfl⟩ := awaits
  rw [routes.eq_middle member here] at among
  obtain rfl := List.mem_singleton.mp among
  obtain ⟨target, resolved', turned⟩ := routes.shortens inside present reads resolved
  have ends : target.name = detour.source := name_of_resolve clear.undotted resolved'
  refine ⟨turned.name.trans ends, module, present, target, ⟨?_, _, reads, resolved'⟩, named, ends⟩
  rw [isGiven, isStock, Bool.false_and]

/-- What awaits something without the detour does so with it, directly or by the middle of it. -/
theorem awaitsNamed_longer {name other : Name}
    (awaits : AwaitsNamed moment models outline name other) :
    AwaitsNamed moment others longer name other ∨ name = detour.module ∧ other = detour.source ∧
      AwaitsNamed moment others longer detour.module detour.via ∧
        AwaitsNamed moment others longer detour.via detour.source := by
  obtain ⟨turn, present', named', isStock', reads'⟩ := routes.around
  obtain ⟨node, member, further, ⟨open_, source, among, resolved⟩, rfl, rfl⟩ := awaits
  obtain ⟨next, member', same, turned⟩ := routes.exists_longer member
  rcases turned.back source among with kept | ⟨rfl, isModule⟩
  · obtain ⟨target, resolved', turned'⟩ := routes.lengthens inside member among next.name resolved
    exact .inl ⟨next, member', target, ⟨by rwa [isGiven, turned.isStock], source, kept, resolved'⟩,
      same, turned'.name⟩
  · obtain ⟨target, resolved', turned'⟩ := routes.lengthens inside member among detour.via resolved
    have ends : further.name = detour.source := name_of_resolve clear.undotted resolved
    refine .inr ⟨isModule, ends, ⟨turn, present', _, ⟨?_, _, reads', routes.resolve_via clear⟩,
      named', rfl⟩, ⟨_, mem_of_findNamed routes.middle, target,
        ⟨rfl, _, List.mem_singleton.mpr rfl, resolved'⟩, rfl, turned'.name.trans ends⟩⟩
    rw [isGiven, isStock', Bool.false_and]

theorem acyclic_iff : Acyclic moment models outline ↔ Acyclic moment others longer := by
  rw [Dependencies.acyclic_iff routes.distinct, Dependencies.acyclic_iff routes.distinct']
  exact acyclic_iff_of_detour clear.around
    (fun _ _ => routes.awaitsNamed_shorter clear inside)
    (fun _ => routes.eq_module_of_awaitsNamed inside)
    (fun _ => routes.eq_source_of_awaitsNamed clear inside)
    fun _ _ => routes.awaitsNamed_longer clear inside

/-- Closures succeed with a detour exactly if they do without it. -/
theorem agree_closure :
    Agree (fun _ _ => True) (closure moment models outline) (closure moment others longer) := by
  refine .of_exists_iff ?_ fun _ _ _ _ => trivial
  rw [exists_closure_iff routes.distinct, exists_closure_iff routes.distinct',
    routes.resolves_iff clear inside, routes.acyclic_iff clear inside]

end Routes

end Detour

end StockFlow
