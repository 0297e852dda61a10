import StockFlow.Proofs.Hoisting
import StockFlow.Proofs.Identifiers
import StockFlow.Proofs.Rearranging

/-!
# Variables under other names

A definition in which the identifiers are renamed is checked to the same variable, but for the names, and
the calls in its equation are expanded alike: what is made for a call bears a name made from the new name
of the variable that calls.
-/

namespace StockFlow

variable {α : Type}

open Name (Derives Renames relabel)

/-! ## Equations -/

namespace Equation

mutual

/-- Applies a function to every name in an equation that is not the name of a function. -/
def mapReferences (f : Name → Name) : Equation α → Equation α
  | constant text value => constant text value
  | reference name => reference (f name)
  | call function arguments => call function (mapReferencesAll f arguments)
  | group inner => group (mapReferences f inner)
  | unary operator operand => unary operator (mapReferences f operand)
  | binary operator left right => binary operator (mapReferences f left) (mapReferences f right)
  | conditional condition whenTrue whenFalse =>
    conditional (mapReferences f condition) (mapReferences f whenTrue) (mapReferences f whenFalse)

def mapReferencesAll (f : Name → Name) : List (Equation α) → List (Equation α)
  | [] => []
  | first :: rest => mapReferences f first :: mapReferencesAll f rest

end

mutual

/-- Where a function leaves the names of all called functions alone, it maps references alone. -/
theorem mapReferences_eq_mapNames {f : Name → Name} : ∀ {equation : Equation α},
    (∀ call ∈ equation.calls, f call.1 = call.1) → equation.mapReferences f = equation.mapNames f
  | constant _ _, _ => rfl
  | reference _, _ => rfl
  | call _ _, functions => by
    obtain ⟨first, others⟩ := List.forall_mem_cons.mp functions
    rw [mapReferences, mapNames, first, mapReferencesAll_eq_mapNamesAll others]
  | group _, functions => by
    rw [calls] at functions
    rw [mapReferences, mapNames, mapReferences_eq_mapNames functions]
  | unary _ _, functions => by
    rw [calls] at functions
    rw [mapReferences, mapNames, mapReferences_eq_mapNames functions]
  | binary _ _ _, functions => by
    obtain ⟨first, second⟩ := List.forall_mem_append.mp functions
    rw [mapReferences, mapNames, mapReferences_eq_mapNames first, mapReferences_eq_mapNames second]
  | conditional _ _ _, functions => by
    simp only [calls, List.forall_mem_append] at functions
    rw [mapReferences, mapNames, mapReferences_eq_mapNames functions.1.1,
      mapReferences_eq_mapNames functions.1.2, mapReferences_eq_mapNames functions.2]

theorem mapReferencesAll_eq_mapNamesAll {f : Name → Name} : ∀ {equations : List (Equation α)},
    (∀ call ∈ callsAll equations, f call.1 = call.1) →
      mapReferencesAll f equations = mapNamesAll f equations
  | [], _ => rfl
  | _ :: _, functions => by
    obtain ⟨first, others⟩ := List.forall_mem_append.mp functions
    rw [mapReferencesAll, mapNamesAll, mapReferences_eq_mapNames first,
      mapReferencesAll_eq_mapNamesAll others]

end

mutual

/-- References may be mapped before or after all names, if that is the same for each of them. -/
theorem mapNames_mapReferences {f g h : Name → Name} : ∀ {equation : Equation α},
    (∀ name ∈ equation.references, f (g name) = h (f name)) →
      (equation.mapReferences g).mapNames f = (equation.mapNames f).mapReferences h
  | constant _ _, _ => rfl
  | reference name, same => congrArg reference (same name (List.mem_singleton_self name))
  | call _ _, same => by
    rw [references] at same
    rw [mapReferences, mapNames, mapNames, mapReferences, mapNamesAll_mapReferencesAll same]
  | group _, same => by
    rw [references] at same
    rw [mapReferences, mapNames, mapNames, mapReferences, mapNames_mapReferences same]
  | unary _ _, same => by
    rw [references] at same
    rw [mapReferences, mapNames, mapNames, mapReferences, mapNames_mapReferences same]
  | binary _ _ _, same => by
    obtain ⟨first, second⟩ := List.forall_mem_append.mp same
    rw [mapReferences, mapNames, mapNames, mapReferences, mapNames_mapReferences first,
      mapNames_mapReferences second]
  | conditional _ _ _, same => by
    simp only [references, List.forall_mem_append] at same
    rw [mapReferences, mapNames, mapNames, mapReferences, mapNames_mapReferences same.1.1,
      mapNames_mapReferences same.1.2, mapNames_mapReferences same.2]

theorem mapNamesAll_mapReferencesAll {f g h : Name → Name} : ∀ {equations : List (Equation α)},
    (∀ name ∈ referencesAll equations, f (g name) = h (f name)) →
      mapNamesAll f (mapReferencesAll g equations) = mapReferencesAll h (mapNamesAll f equations)
  | [], _ => rfl
  | _ :: _, same => by
    obtain ⟨first, others⟩ := List.forall_mem_append.mp same
    rw [mapReferencesAll, mapNamesAll, mapNamesAll, mapReferencesAll, mapNames_mapReferences first,
      mapNamesAll_mapReferencesAll others]

end

/-- Whether all names that an equation refers to are derived from some identifiers. -/
def DerivesFrom (known : Name → Prop) (equation : Equation α) : Prop :=
  ∀ name ∈ equation.references, Derives known name

/-- Whether an equation is another one under the names that a renaming of some identifiers gives. -/
structure Recasts (f : Name → Name) (known : Name → Prop) (equation other : Equation α) : Prop where
  relabels : other = equation.mapReferences (relabel f)
  derives : equation.DerivesFrom known

/-- Whether an equation that calls primitives alone is another one under the new names. -/
structure Reduces (f : Name → Name) (known : Name → Prop) (equation other : Equation α) : Prop
    extends Recasts f known equation other where
  primitive : ∀ call ∈ equation.calls, isPrimitive call.1 = true

namespace Reduces

variable {f : Name → Name} {known : Name → Prop} {first first' second second' third third' : Equation α}

theorem group (reduces : Reduces f known first first') : Reduces f known (.group first) (.group first') where
  relabels := congrArg Equation.group reduces.relabels
  derives := reduces.derives
  primitive := reduces.primitive

theorem unary (operator : UnaryOperator) (reduces : Reduces f known first first') :
    Reduces f known (.unary operator first) (.unary operator first') where
  relabels := congrArg (Equation.unary operator) reduces.relabels
  derives := reduces.derives
  primitive := reduces.primitive

theorem binary (operator : BinaryOperator) (one : Reduces f known first first')
    (two : Reduces f known second second') :
    Reduces f known (.binary operator first second) (.binary operator first' second') where
  relabels := congrArg₂ (Equation.binary operator) one.relabels two.relabels
  derives := List.forall_mem_append.mpr ⟨one.derives, two.derives⟩
  primitive := List.forall_mem_append.mpr ⟨one.primitive, two.primitive⟩

theorem conditional (one : Reduces f known first first') (two : Reduces f known second second')
    (three : Reduces f known third third') :
    Reduces f known (.conditional first second third) (.conditional first' second' third') where
  relabels := by rw [mapReferences, ← one.relabels, ← two.relabels, ← three.relabels]
  derives := List.forall_mem_append.mpr
    ⟨List.forall_mem_append.mpr ⟨one.derives, two.derives⟩, three.derives⟩
  primitive := List.forall_mem_append.mpr
    ⟨List.forall_mem_append.mpr ⟨one.primitive, two.primitive⟩, three.primitive⟩

theorem call {function : Name} (primitive : isPrimitive function = true)
    {arguments others : List (Equation α)} (each : List.Forall₂ (Reduces f known) arguments others) :
    Reduces f known (.call function arguments) (.call function others) := by
  have all : others = mapReferencesAll (relabel f) arguments ∧
      (∀ name ∈ referencesAll arguments, Derives known name) ∧
        ∀ call ∈ callsAll arguments, isPrimitive call.1 = true := by
    induction each with
    | nil => exact ⟨rfl, nofun, nofun⟩
    | cons one _ ih =>
      exact ⟨congrArg₂ List.cons one.relabels ih.1, List.forall_mem_append.mpr ⟨one.derives, ih.2.1⟩,
        List.forall_mem_append.mpr ⟨one.primitive, ih.2.2⟩⟩
  exact ⟨⟨congrArg (Equation.call function) all.1, all.2.1⟩,
    List.forall_mem_cons.mpr ⟨primitive, all.2.2⟩⟩

end Reduces

end Equation

/-! ## Definitions -/

namespace Document.Variable

/-- The names of variables in a definition that is no module: its own, those that its equation refers to
and those of its flows. -/
def mentions : Document.Variable α → List Name
  | stock definition =>
    definition.name :: (definition.equation?.elim [] Equation.references ++
      (definition.inflows ++ definition.outflows))
  | flow definition => definition.name :: definition.equation?.elim [] Equation.references
  | auxiliary definition => definition.name :: definition.equation?.elim [] Equation.references
  | module _ => []

/-- Whether a text without a tree means nothing: it is neither a number nor blank. -/
def IsMeaningless (text : String) : Prop :=
  Literal.read? (Text.trim text) = none ∧ Text.isAllBlank text = false

/-- Whether a definition that is no module is another one under other names. A text that only stands
beside an equation may be any, and so may one that means nothing. -/
inductive Renames (f : Name → Name) : Document.Variable α → Document.Variable α → Prop
  | stock {definition : Stock α} {text : String}
    (kept : definition.equation? = none →
      text = definition.text ∨ IsMeaningless definition.text ∧ IsMeaningless text) :
    Renames f (.stock definition) (.stock ⟨f definition.name, text,
      definition.equation?.map (Equation.mapReferences f), definition.inflows.map f,
      definition.outflows.map f, definition.nonNegative⟩)
  | flow {definition : Flow α} {text : String}
    (kept : definition.equation? = none →
      text = definition.text ∨ IsMeaningless definition.text ∧ IsMeaningless text) :
    Renames f (.flow definition) (.flow ⟨f definition.name, text,
      definition.equation?.map (Equation.mapReferences f), definition.graph?, definition.nonNegative⟩)
  | auxiliary {definition : Auxiliary α} {text : String}
    (kept : definition.equation? = none →
      text = definition.text ∨ IsMeaningless definition.text ∧ IsMeaningless text) :
    Renames f (.auxiliary definition) (.auxiliary ⟨f definition.name, text,
      definition.equation?.map (Equation.mapReferences f), definition.graph?⟩)

namespace Renames

variable {f g : Name → Name} {definition other : Document.Variable α}

theorem name_eq (renames : definition.Renames f other) : other.name = f definition.name := by
  cases renames <;> rfl

theorem name_mem (renames : definition.Renames f other) : definition.name ∈ definition.mentions := by
  cases renames <;> exact List.mem_cons_self

/-- Only what happens to the names in a definition matters. -/
theorem congr (renames : definition.Renames f other)
    (same : ∀ name ∈ definition.mentions, f name = g name) : definition.Renames g other := by
  have equation : ∀ equation? : Option (Equation α),
      (∀ name ∈ equation?.elim [] Equation.references, f name = g name) →
        equation?.map (Equation.mapReferences f) = equation?.map (Equation.mapReferences g) := by
    rintro (_ | equation) same
    · rfl
    · have mapped := Equation.mapNames_mapReferences (f := id) same
      rw [Equation.mapNames_id, Equation.mapNames_id] at mapped
      exact congrArg some mapped
  cases renames with
  | @stock definition text kept =>
    simp only [mentions, List.forall_mem_cons, List.forall_mem_append] at same
    obtain ⟨here, refers, inflows, outflows⟩ := same
    rw [here, equation _ refers, List.map_congr_left inflows, List.map_congr_left outflows]
    exact .stock kept
  | @flow definition text kept =>
    obtain ⟨here, refers⟩ := List.forall_mem_cons.mp same
    rw [here, equation _ refers]
    exact .flow kept
  | @auxiliary definition text kept =>
    obtain ⟨here, refers⟩ := List.forall_mem_cons.mp same
    rw [here, equation _ refers]
    exact .auxiliary kept

end Renames

end Document.Variable

/-! ## Checked variables -/

/-- Whether a module was made for a call in the equation of one of some identifiers. -/
structure Module.IsCall (known : Name → Prop) (module : Module) : Prop where
  name : ∃ owner rest, known owner ∧ Name.IsTame rest ∧ module.name = Name.made owner rest
  function : ∃ function : Stateful, module.model = Stateful.modelName function.name ∧
    ∀ input ∈ module.inputs, input.target ∈ function.inputs ∧ Derives known input.source.path

theorem Module.IsCall.derives {known : Name → Prop} {module : Module} (isCall : module.IsCall known) :
    Derives known module.name := by
  obtain ⟨owner, rest, own, isTame, same⟩ := isCall.name
  exact same ▸ .made own isTame

/-- Whether an input is another one with another name for its source. -/
structure Input.Relabels (f : Name → Name) (input other : Input) : Prop where
  target : other.target = input.target
  source : ∃ path, input.source = .relative path ∧ other.source = .relative (f path)

namespace Variable

/-- Whether a variable is another one with other names for those in it. -/
inductive Relabels (f : Name → Name) : Variable α → Variable α → Prop
  | stock {stock : Stock α} {text : String} : Relabels f (.stock stock)
    (.stock ⟨f stock.name, text, stock.initial.mapReferences f, stock.inflows.map f,
      stock.outflows.map f, stock.nonNegative⟩)
  | formula {formula : Formula α} {text : String} : Relabels f (.formula formula)
    (.formula ⟨f formula.name, text, formula.equation.mapReferences f, formula.table?,
      formula.isFlow, formula.nonNegative⟩)
  | module {name model : Name} {inputs others : List Input}
    (each : List.Forall₂ (Input.Relabels f) inputs others) :
    Relabels f (.module ⟨name, model, inputs⟩) (.module ⟨f name, model, others⟩)

/-- Whether all names in a variable are derived from some identifiers, and a module is one made for a
call. -/
structure DerivesFrom (known : Name → Prop) (v : Variable α) : Prop where
  name : Derives known v.name
  equation : ∀ equation, v.equation? = some equation → equation.DerivesFrom known
  flows : ∀ flow ∈ v.flows, Derives known flow
  module : ∀ module, v.module? = some module → module.IsCall known

section

variable {known : Name → Prop}

theorem DerivesFrom.ofStock {stock : Stock α} (name : Derives known stock.name)
    (initial : stock.initial.DerivesFrom known)
    (flows : ∀ flow ∈ stock.inflows ++ stock.outflows, Derives known flow) :
    (Variable.stock stock).DerivesFrom known where
  name := name
  equation _ own := Option.some.inj own ▸ initial
  flows := flows
  module _ own := absurd own.symm (Option.some_ne_none _)

theorem DerivesFrom.ofFormula {formula : Formula α} (name : Derives known formula.name)
    (equation : formula.equation.DerivesFrom known) : (Variable.formula formula).DerivesFrom known where
  name := name
  equation _ own := Option.some.inj own ▸ equation
  flows _ member := absurd member List.not_mem_nil
  module _ own := absurd own.symm (Option.some_ne_none _)

theorem DerivesFrom.ofModule {module : Module} (isCall : module.IsCall known) :
    (Variable.module module : Variable α).DerivesFrom known where
  name := isCall.derives
  equation _ own := absurd own.symm (Option.some_ne_none _)
  flows _ member := absurd member List.not_mem_nil
  module _ own := Option.some.inj own ▸ isCall

end

/-- Whether a variable is another one under the names that a renaming of some identifiers gives. -/
structure Recasts (f : Name → Name) (known : Name → Prop) (v w : Variable α) : Prop where
  relabels : v.Relabels (relabel f) w
  derives : v.DerivesFrom known

/-- Whether a variable that calls primitives alone is another one under the new names. -/
structure Reduces (f : Name → Name) (known : Name → Prop) (v w : Variable α) : Prop
    extends Recasts f known v w where
  primitive : v.IsPrimitive

theorem Relabels.name_eq {f : Name → Name} {v w : Variable α} (relabels : v.Relabels f w) :
    w.name = f v.name := by
  cases relabels <;> rfl

theorem Relabels.table?_eq {f : Name → Name} {v w : Variable α} (relabels : v.Relabels f w) :
    w.table? = v.table? := by
  cases relabels <;> rfl

/-- A variable that is no module is itself under its own names. -/
theorem Relabels.refl {v : Variable α} (own : v.isModule = false) : v.Relabels id v := by
  have same : ∀ equation : Equation α, equation.mapReferences id = equation := fun equation => by
    rw [Equation.mapReferences_eq_mapNames (fun _ _ => rfl), Equation.mapNames_id]
  cases v with
  | module => cases own
  | formula formula =>
    have refl : (Variable.formula formula).Relabels id (.formula ⟨formula.name, formula.text,
        formula.equation.mapReferences id, formula.table?, formula.isFlow, formula.nonNegative⟩) := .formula
    rwa [same] at refl
  | stock stock =>
    have refl : (Variable.stock stock).Relabels id (.stock ⟨stock.name, stock.text,
        stock.initial.mapReferences id, stock.inflows.map id, stock.outflows.map id,
        stock.nonNegative⟩) := .stock
    rwa [same, List.map_id, List.map_id] at refl

theorem Relabels.isModule_eq {f : Name → Name} {v w : Variable α} (relabels : v.Relabels f w) :
    w.isModule = v.isModule := by
  cases relabels <;> rfl

open Document.Variable (IsMeaningless)

variable [Scalar α] {f : Name → Name} {known : Name → Prop} (renames : Renames f known)
include renames

theorem agree_readEquation {name name' : Name} {equation? : Option (Equation α)} {text text' : String}
    (kept : equation? = none → text' = text ∨ IsMeaningless text ∧ IsMeaningless text')
    (spells : ∀ name ∈ equation?.elim [] Equation.references, Name.Spells known name) :
    Agree (Equation.Recasts f known) (readEquation name equation? text)
      (readEquation name' (equation?.map (Equation.mapReferences (relabel f))) text') := by
  cases equation? with
  | some equation =>
    refine .ok ⟨?_, fun name refers => ?_⟩
    · exact Equation.mapNames_mapReferences fun name refers => (spells name refers).canonical_relabel renames
    · rw [Equation.references_mapNames] at refers
      obtain ⟨written, inside, rfl⟩ := List.mem_map.mp refers
      exact (spells written inside).derives renames
  | none =>
    have fails : ∀ name {text}, Literal.read? (Text.trim text) = none →
        ∃ fault, readEquation name (none : Option (Equation α)) text = .error fault := by
      intro name text unread
      simp only [readEquation, unread]
      split <;> exact ⟨_, rfl⟩
    rw [Option.map_none]
    rcases kept rfl with rfl | ⟨⟨unread, -⟩, unread', -⟩
    · cases read : Literal.read? (Text.trim text') with
      | none =>
        obtain ⟨_, same⟩ := fails name read
        obtain ⟨_, same'⟩ := fails name' read
        rw [same, same']
        exact .error
      | some literal =>
        simp only [readEquation, read]
        exact .ok ⟨rfl, fun _ refers => absurd refers List.not_mem_nil⟩
    · obtain ⟨_, same⟩ := fails name unread
      obtain ⟨_, same'⟩ := fails name' unread'
      rw [same, same']
      exact .error

theorem agree_readFormula {name name' : Name} {equation? : Option (Equation α)} {text text' : String}
    (kept : equation? = none → text' = text ∨ IsMeaningless text ∧ IsMeaningless text')
    (spells : ∀ name ∈ equation?.elim [] Equation.references, Name.Spells known name)
    (table? : Option (Table α)) :
    Agree (Equation.Recasts f known) (readFormula name equation? text table?)
      (readFormula name' (equation?.map (Equation.mapReferences (relabel f))) text' table?) := by
  have same : (table?.isSome && (equation?.map (Equation.mapReferences (relabel f))).isNone &&
      Text.isAllBlank text') = (table?.isSome && equation?.isNone && Text.isAllBlank text) := by
    cases equation? with
    | none =>
      rcases kept rfl with rfl | ⟨⟨-, written⟩, -, written'⟩
      · rw [Option.map_none]
      · rw [written, written', Bool.and_false, Bool.and_false]
    | some => simp
  have time : isReserved "time" = true := rfl
  unfold readFormula
  rw [same]
  split
  · refine .ok ⟨congrArg Equation.reference (renames.relabel_reserved time).symm, ?_⟩
    exact fun name refers => List.mem_singleton.mp refers ▸ .reserved time
  · exact agree_readEquation renames kept spells

theorem map_canonical_relabel {names : List Name} (spells : ∀ name ∈ names, Name.Spells known name) :
    (names.map (relabel f)).map Name.canonical = (names.map Name.canonical).map (relabel f) := by
  rw [List.map_map, List.map_map]
  refine List.map_congr_left fun name member => ?_
  rw [Function.comp_apply, Function.comp_apply, (spells name member).canonical_relabel renames]

/-- A definition under other names is checked to the same variable, but for its names. -/
theorem agree_ofDefinition_of_renames {definition other : Document.Variable α}
    (same : definition.Renames (relabel f) other)
    (spells : ∀ name ∈ definition.mentions, Name.Spells known name) :
    Agree (Recasts f known) (ofDefinition definition) (ofDefinition other) := by
  cases same with
  | @stock definition text kept =>
    simp only [Document.Variable.mentions, List.forall_mem_cons, List.forall_mem_append] at spells
    obtain ⟨here, refers, inflows, outflows⟩ := spells
    simp only [ofDefinition]
    refine (agree_readEquation renames kept refers).bind ?_
    rintro initial _ ⟨rfl, derives⟩
    rw [here.canonical_relabel renames, map_canonical_relabel renames inflows,
      map_canonical_relabel renames outflows]
    refine .ok ⟨.stock, .ofStock (here.derives renames) derives fun flow member => ?_⟩
    rw [← List.map_append] at member
    obtain ⟨written, inside, rfl⟩ := List.mem_map.mp member
    exact ((List.forall_mem_append.mpr ⟨inflows, outflows⟩) written inside).derives renames
  | @flow definition text kept =>
    obtain ⟨here, refers⟩ := List.forall_mem_cons.mp spells
    simp only [ofDefinition]
    refine (agree_readFormula renames kept refers (readTable definition.graph?)).bind ?_
    rintro equation _ ⟨rfl, derives⟩
    rw [here.canonical_relabel renames]
    exact .ok ⟨.formula, .ofFormula (here.derives renames) derives⟩
  | @auxiliary definition text kept =>
    obtain ⟨here, refers⟩ := List.forall_mem_cons.mp spells
    simp only [ofDefinition]
    refine (agree_readFormula renames kept refers (readTable definition.graph?)).bind ?_
    rintro equation _ ⟨rfl, derives⟩
    rw [here.canonical_relabel renames]
    exact .ok ⟨.formula, .ofFormula (here.derives renames) derives⟩

end Variable

/-! ## Expansions -/

namespace Expansion

theorem stem_append (owner : Name) (call : Nat) (rest : String) :
    stem owner call ++ rest = Name.made owner (toString call ++ "·" ++ rest) := by
  simp only [stem, Name.made, String.append_assoc]

theorem isTame_toString (n : Nat) : Name.IsTame (toString n) := by
  have digits : ∀ n ∈ List.range 58, 48 ≤ n → Char.ofNat n ∈ Name.tame := by decide
  intro c member
  rw [Nat.toString_eq_ofList_toDigits, String.toList_ofList] at member
  have digit := Nat.isDigit_of_mem_toDigits (by decide) (by decide) member
  obtain ⟨least, most⟩ : 48 ≤ c.toNat ∧ c.toNat ≤ 57 := by
    simpa [Char.isDigit, UInt32.le_iff_toNat_le] using digit
  rw [← Char.ofNat_toNat c]
  exact digits c.toNat (List.mem_range.mpr (by omega)) least

theorem argumentName_eq (owner : Name) (call index : Nat) : argumentName owner call index =
    Name.made owner (toString call ++ "·" ++ "arg" ++ toString index) := by
  rw [argumentName, stem_append, Name.made_append]

theorem isTame_rest {rest : String} (call : Nat) (isTame : Name.IsTame rest) :
    Name.IsTame (toString call ++ "·" ++ rest) :=
  ((isTame_toString call).append (by decide)).append isTame

theorem isTame_argument (call index : Nat) :
    Name.IsTame (toString call ++ "·" ++ "arg" ++ toString index) :=
  (isTame_rest call (by decide)).append (isTame_toString index)

/-- Whether a definition that was made for a call is one that was made for the same call under new
names. -/
inductive Recasts (f : Name → Name) (known : Name → Prop) :
    Document.Variable α → Document.Variable α → Prop
  | argument {owner rest : String} {equation other : Equation α} (own : known owner)
    (isTame : Name.IsTame rest) (reduces : Equation.Reduces f known equation other) :
    Recasts f known (.auxiliary ⟨Name.made owner rest, equation.print, some equation, none⟩)
      (.auxiliary ⟨Name.made (f owner) rest, other.print, some other, none⟩)
  | call {owner rest : String} {function : Stateful} {wires : List (Name × Name)} (own : known owner)
    (isTame : Name.IsTame rest)
    (each : ∀ wire ∈ wires, Derives known wire.1 ∧ wire.2 ∈ function.inputs) :
    Recasts f known
      (.module ⟨Name.made owner rest, Stateful.modelName function.name, wires.map fun wire =>
        ⟨wire.1, Name.made owner rest ++ "." ++ wire.2⟩⟩)
      (.module ⟨Name.made (f owner) rest, Stateful.modelName function.name, wires.map fun wire =>
        ⟨relabel f wire.1, Name.made (f owner) rest ++ "." ++ wire.2⟩⟩)

/-- Whether two expansions make the same for the same calls but for the names. -/
structure Relates {β : Type} (f : Name → Name) (known : Name → Prop) (related : β → β → Prop)
    (expanded other : Expanded α β) : Prop where
  result : related expanded.result other.result
  calls : other.calls = expanded.calls
  made : List.Forall₂ (Recasts f known) expanded.made other.made

variable {f : Name → Name} {known : Name → Prop} {owner : Name}

section

variable (renames : Renames f known) (own : known owner)

section

variable {equation other : Equation α} (reduces : Equation.Reduces f known equation other)
  {arguments others : List (Equation α)}
  (each : List.Forall₂ (Equation.Reduces f known) arguments others)
include own

section
include reduces

theorem derives_argumentSource (call index : Nat) :
    Derives known (argumentSource owner call index equation) := by
  cases equation with
  | reference name => exact reduces.derives name (List.mem_singleton_self name)
  | constant | call | group | unary | binary | conditional =>
    rw [argumentSource, argumentName_eq]
    · exact .made own (isTame_argument call index)
    · intro name same
      cases same

theorem forall₂_argumentVariable (call index : Nat) :
    List.Forall₂ (Recasts f known) (argumentVariable owner call index equation)
      (argumentVariable (f owner) call index other) := by
  have made : List.Forall₂ (Recasts f known)
      [.auxiliary ⟨argumentName owner call index, equation.print, some equation, none⟩]
      [.auxiliary ⟨argumentName (f owner) call index, other.print, some other, none⟩] := by
    refine .cons ?_ .nil
    rw [argumentName_eq, argumentName_eq]
    exact .argument own (isTame_argument call index) reduces
  have relabels := reduces.relabels
  cases equation with
  | reference name =>
    subst relabels
    exact .nil
  | constant | call | group | unary | binary | conditional =>
    subst relabels
    exact made

end

include renames in
theorem argumentSource_relabel (call index : Nat) :
    argumentSource (f owner) call index (equation.mapReferences (relabel f)) =
      relabel f (argumentSource owner call index equation) := by
  cases equation with
  | reference name => rfl
  | constant | call | group | unary | binary | conditional =>
    simp only [Equation.mapReferences, argumentSource, argumentName_eq, renames.relabel_made own]

include each

theorem derives_sources (call index : Nat) :
    ∀ source ∈ sources owner call index arguments, Derives known source := by
  induction each generalizing index with
  | nil => nofun
  | cons one _ ih => exact List.forall_mem_cons.mpr ⟨derives_argumentSource own one call index, ih _⟩

theorem forall₂_hoisted (call index : Nat) :
    List.Forall₂ (Recasts f known) (hoisted owner call index arguments)
      (hoisted (f owner) call index others) := by
  induction each generalizing index with
  | nil => exact .nil
  | cons one _ ih => exact List.rel_append (forall₂_argumentVariable own one call index) (ih _)

include renames in
theorem sources_relabel (call index : Nat) :
    sources (f owner) call index others = (sources owner call index arguments).map (relabel f) := by
  induction each generalizing index with
  | nil => rfl
  | cons one _ ih =>
    rw [sources, sources, List.map_cons, ih, one.relabels, argumentSource_relabel renames own]

end

include renames own

theorem recasts_callModule (call : Nat) (function : Stateful) {arguments others : List (Equation α)}
    (each : List.Forall₂ (Equation.Reduces f known) arguments others) :
    Recasts f known (α := α) (.module (callModule owner call function arguments))
      (.module (callModule (f owner) call function others)) := by
  have isTame : Name.IsTame function.name := by cases function <;> decide
  rw [callModule, callModule, sources_relabel renames own each, List.zip_map_left, List.map_map]
  simp only [moduleName, stem_append]
  refine .call own (isTame_rest call isTame) fun wire member => ?_
  obtain ⟨source, target⟩ := wire
  exact ⟨derives_sources own each call 0 source (List.of_mem_zip member).1, (List.of_mem_zip member).2⟩

theorem agree_expandCall_of_relates (function : Name) {arguments others : Expanded α (List (Equation α))}
    (relates : Relates f known (List.Forall₂ (Equation.Reduces f known)) arguments others) :
    Agree (Relates f known (Equation.Reduces f known)) (expandCall owner function arguments)
      (expandCall (f owner) function others) := by
  unfold expandCall
  split
  · rename_i primitive
    exact .ok ⟨.call primitive relates.result, relates.calls, relates.made⟩
  · split
    · exact .error
    · rename_i stateful found
      obtain rfl : stateful.name = function := by simpa using List.find?_some found
      dsimp only
      rw [← relates.result.length_eq, relates.calls]
      split
      · exact .error
      · have output : ∀ owner, moduleName owner arguments.calls stateful.name ++ ".output" =
            Name.made owner (toString arguments.calls ++ "·" ++ stateful.name ++ ".output") := by
          intro owner
          rw [moduleName, stem_append, Name.made_append]
        have isTame : Name.IsTame stateful.name := by cases stateful <;> decide
        rw [output, output]
        refine .ok ⟨⟨⟨?_, ?_⟩, nofun⟩, rfl, ?_⟩
        · exact congrArg Equation.reference (renames.relabel_made own).symm
        · refine List.forall_mem_singleton.mpr (.made own ?_)
          exact (isTame_rest _ isTame).append (by decide)
        · exact List.rel_append (List.rel_append relates.made (forall₂_hoisted own relates.result _ 0))
            (.cons (recasts_callModule renames own _ stateful relates.result) .nil)

end

mutual

/-- An equation under new names is expanded like the other one, and what is made for its calls bears names
made from the new name of its variable. -/
theorem agree_expand_of_relabels (renames : Renames f known) (own : known owner) : ∀
    {equation : Equation α} {calls : Nat}, equation.DerivesFrom known →
      Agree (Relates f known (Equation.Reduces f known)) (expand owner equation calls)
        (expand (f owner) (equation.mapReferences (relabel f)) calls)
  | .constant _ _, _, _ => .ok ⟨⟨⟨rfl, nofun⟩, nofun⟩, rfl, .nil⟩
  | .reference _, _, derives => .ok ⟨⟨⟨rfl, derives⟩, nofun⟩, rfl, .nil⟩
  | .call function _, _, derives =>
    (agree_expandAll_of_relabels renames own derives).bind fun _ _ relates =>
      agree_expandCall_of_relates renames own function relates
  | .group operand, _, derives => by
    have inside : operand.DerivesFrom known := derives
    refine (agree_expand_of_relabels renames own inside).bind fun inner inner' one => ?_
    exact .ok ⟨one.result.group, one.calls, one.made⟩
  | .unary operator operand, _, derives => by
    have inside : operand.DerivesFrom known := derives
    refine (agree_expand_of_relabels renames own inside).bind fun inner inner' one => ?_
    exact .ok ⟨one.result.unary operator, one.calls, one.made⟩
  | .binary operator _ _, _, derives => by
    obtain ⟨first, second⟩ := List.forall_mem_append.mp derives
    refine (agree_expand_of_relabels renames own first).bind fun left left' one => ?_
    rw [one.calls]
    refine (agree_expand_of_relabels renames own second).bind fun right right' two => ?_
    exact .ok ⟨one.result.binary operator two.result, two.calls, List.rel_append one.made two.made⟩
  | .conditional _ _ _, _, derives => by
    obtain ⟨both, third⟩ := List.forall_mem_append.mp derives
    obtain ⟨first, second⟩ := List.forall_mem_append.mp both
    refine (agree_expand_of_relabels renames own first).bind fun condition condition' one => ?_
    rw [one.calls]
    refine (agree_expand_of_relabels renames own second).bind fun whenTrue whenTrue' two => ?_
    rw [two.calls]
    refine (agree_expand_of_relabels renames own third).bind fun whenFalse whenFalse' three => ?_
    exact .ok ⟨one.result.conditional two.result three.result, three.calls,
      List.rel_append (List.rel_append one.made two.made) three.made⟩

theorem agree_expandAll_of_relabels (renames : Renames f known) (own : known owner) : ∀
    {equations : List (Equation α)} {calls : Nat},
    (∀ name ∈ Equation.referencesAll equations, Derives known name) →
      Agree (Relates f known (List.Forall₂ (Equation.Reduces f known))) (expandAll owner equations calls)
        (expandAll (f owner) (Equation.mapReferencesAll (relabel f) equations) calls)
  | [], _, _ => .ok ⟨.nil, rfl, .nil⟩
  | _ :: _, _, derives => by
    obtain ⟨here, others⟩ := List.forall_mem_append.mp derives
    refine (agree_expand_of_relabels renames own here).bind fun first first' one => ?_
    rw [one.calls]
    refine (agree_expandAll_of_relabels renames own others).bind fun rest rest' all => ?_
    exact .ok ⟨.cons one.result all.result, all.calls, List.rel_append one.made all.made⟩

end

end Expansion

/-- Whether an input of a module made for a call is the one with the new name for its source. -/
structure Input.Recasts (f : Name → Name) (known : Name → Prop) (function : Stateful)
    (input other : Input) : Prop where
  relabels : input.Relabels (relabel f) other
  target : input.target ∈ function.inputs
  derives : Derives known input.source.path

section

variable [Scalar α] {f : Name → Name} {known : Name → Prop} (renames : Renames f known)
include renames

theorem Input.agree_resolve_of_renames {owner rest source : String} {function : Stateful} {target : Name}
    (own : known owner) (isTame : Name.IsTame rest) (derives : Derives known source)
    (among : target ∈ function.inputs) : Agree (Option.Rel (Input.Recasts f known function))
      (Input.resolve (Name.made owner rest) ⟨source, Name.made owner rest ++ "." ++ target⟩)
      (Input.resolve (Name.made (f owner) rest)
        ⟨relabel f source, Name.made (f owner) rest ++ "." ++ target⟩) := by
  have each : ∀ input ∈ function.inputs, input ≠ "" ∧ Name.IsTame input := by
    rw [Stateful.inputs]
    decide
  obtain ⟨named, tame⟩ := each target among
  have reads : ∀ {owner : Name}, owner.IsIdentifier → Path.after? (Name.made owner rest ++ ".")
      (Name.canonical (Name.made owner rest ++ "." ++ target)) = some target := by
    intro owner identifier
    rw [Name.made_append, Name.made_append, Name.IsTame.canonical_eq, Path.after?_eq_some,
      ← String.toList_append, Name.made_append]
    exact ((Name.IsTame.append (by decide) identifier.isTame).append (by decide)).append
      ((isTame.append (by decide)).append tame)
  have relative : ∀ {known : Name → Prop} {source : Name}, Derives known source →
      (∀ name, known name → name.IsIdentifier) → Source.ofSymbol source = .relative source := by
    intro known source derives identifier
    rw [Source.ofSymbol, derives.after?_dot identifier]
  unfold Input.resolve
  simp only [derives.canonical_eq renames.identifier, derives.canonical_relabel renames,
    derives.after?_relabel renames own, reads (renames.identifier owner own),
    reads (renames.renamed owner own), relative derives renames.identifier,
    relative (derives.relabel renames) renames.identifier', named, if_false]
  split
  · exact .ok .none
  · exact .ok (Option.Rel.some ⟨⟨rfl, _, rfl, rfl⟩, among, derives⟩)

namespace Variable

/-- What is made for a call under new names is checked to the same variable, but for its names. -/
theorem agree_ofDefinition_of_recasts {definition other : Document.Variable α}
    (recasts : Expansion.Recasts f known definition other) :
    Agree (Reduces f known) (ofDefinition definition) (ofDefinition other) := by
  cases recasts with
  | @argument owner rest equation _ own isTame reduces =>
    have same : Document.Variable.Renames (relabel f)
        (.auxiliary ⟨Name.made owner rest, equation.print, some equation, none⟩)
        (.auxiliary ⟨Name.made (f owner) rest, (equation.mapReferences (relabel f)).print,
          some (equation.mapReferences (relabel f)), none⟩) := by
      rw [← renames.relabel_made own]
      exact .auxiliary fun none => absurd none (Option.some_ne_none _)
    -- the variable made for an argument is an auxiliary like those that are written
    rw [reduces.relabels]
    refine (agree_ofDefinition_of_renames renames same ?_).with_left.mono ?_
    · refine List.forall_mem_cons.mpr ⟨.inr (.made own isTame), fun name refers => .inr ?_⟩
      exact reduces.derives name refers
    · rintro v w checked - ⟨-, recasts⟩
      refine ⟨recasts, ?_⟩
      cases checked
      rintro _ ⟨⟩ call member
      rw [Equation.calls_mapNames] at member
      obtain ⟨call, among, rfl⟩ := List.mem_map.mp member
      rw [canonical_of_isPrimitive (reduces.primitive call among)]
      exact reduces.primitive call among
  | @call owner rest function wires own isTame each =>
    have derives : Derives known (Name.made owner rest) := .made own isTame
    have named := derives.canonical_eq renames.identifier
    have named' := derives.canonical_relabel renames
    rw [renames.relabel_made own] at named'
    simp only [ofDefinition, named, named']
    have inputs : Agree (List.Forall₂ (Option.Rel (Input.Recasts f known function)))
        ((wires.map fun wire => ⟨wire.1, Name.made owner rest ++ "." ++ wire.2⟩).mapM
          (Input.resolve (Name.made owner rest)))
        ((wires.map fun wire => ⟨relabel f wire.1, Name.made (f owner) rest ++ "." ++ wire.2⟩).mapM
          (Input.resolve (Name.made (f owner) rest))) := by
      have pairs : List.Forall₂ (fun connection other : Document.Connection => ∃ wire ∈ wires,
          connection = ⟨wire.1, Name.made owner rest ++ "." ++ wire.2⟩ ∧
            other = ⟨relabel f wire.1, Name.made (f owner) rest ++ "." ++ wire.2⟩)
          (wires.map fun wire => ⟨wire.1, Name.made owner rest ++ "." ++ wire.2⟩)
          (wires.map fun wire => ⟨relabel f wire.1, Name.made (f owner) rest ++ "." ++ wire.2⟩) := by
        rw [List.forall₂_map_left_iff, List.forall₂_map_right_iff, List.forall₂_same]
        exact fun wire member => ⟨wire, member, rfl, rfl⟩
      refine Agree.mapM pairs ?_
      rintro _ _ ⟨wire, member, rfl, rfl⟩
      exact Input.agree_resolve_of_renames renames own isTame (each wire member).1 (each wire member).2
    refine inputs.bind fun found found' both => .ok ?_
    have wired : List.Forall₂ (Input.Recasts f known function) (found.filterMap id) (found'.filterMap id) :=
      List.rel_filterMap (fun _ _ one => one) both
    refine ⟨⟨?_, .ofModule ?_⟩, fun _ own => absurd own.symm (Option.some_ne_none _)⟩
    · rw [← renames.relabel_made own]
      exact .module (wired.imp fun _ _ one => one.relabels)
    · refine ⟨⟨owner, rest, own, isTame, rfl⟩, function, rfl, fun input member => ?_⟩
      obtain ⟨_, -, one⟩ := exists_right_of_mem wired member
      exact ⟨one.target, one.derives⟩

end Variable

end

end StockFlow
