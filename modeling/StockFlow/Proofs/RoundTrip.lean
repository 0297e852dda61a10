import StockFlow.Proofs.Numerals
import StockFlow.Proofs.Writing

/-!
# Round trips

A project that is encoded as a document is decoded from it if its numbers are. What a record leaves out is
what its absence means, and every part of a variable's document has a value. The numbers of a decoded project
are finite, so to decode, encode and decode again is to decode once.
-/

namespace StockFlow

variable {α : Type}

/-! ## Numbers -/

namespace Equation

mutual

/-- The numbers in an equation, from left to right. -/
def scalars : Equation α → List α
  | constant _ value => [value]
  | reference _ => []
  | call _ arguments => scalarsAll arguments
  | group inner => scalars inner
  | unary _ operand => scalars operand
  | binary _ left right => scalars left ++ scalars right
  | conditional condition whenTrue whenFalse => scalars condition ++ scalars whenTrue ++ scalars whenFalse

def scalarsAll : List (Equation α) → List α
  | [] => []
  | first :: rest => scalars first ++ scalarsAll rest

end

end Equation

def GraphicalFunction.scalars (graph : GraphicalFunction α) : List α :=
  graph.xPoints?.getD [] ++ graph.yPoints ++ graph.xScale?.elim [] fun ends => [ends.1, ends.2]

def TimeSpec.scalars (spec : TimeSpec α) : List α :=
  [spec.start, spec.stop, spec.dt] ++ spec.saveStep?.toList

namespace Document

/-- The numbers of a variable: those of its equation and of its curve. -/
def Variable.scalars : Variable α → List α
  | stock definition => definition.equation?.elim [] Equation.scalars
  | flow definition =>
    definition.equation?.elim [] Equation.scalars ++ definition.graph?.elim [] GraphicalFunction.scalars
  | auxiliary definition =>
    definition.equation?.elim [] Equation.scalars ++ definition.graph?.elim [] GraphicalFunction.scalars
  | module _ => []

def Model.scalars (model : Model α) : List α :=
  model.timeSpec?.elim [] TimeSpec.scalars ++ model.definitions.flatMap Variable.scalars

/-- The numbers of a project: those of its time specifications and of its variables. -/
def Project.scalars (project : Project α) : List α :=
  project.timeSpec.scalars ++ project.models.flatMap Model.scalars

end Document

variable [Scalar α]

/-- Whether the document of a number is decoded to the number. -/
def Json.Reads (scalar : α → Json) (x : α) : Prop := scalar? (scalar x) = some x

namespace Json.Reads

variable {scalar : α → Json} {x : α} (reads : Reads scalar x)
include reads

theorem exists_token : ∃ token, scalar x = .number token ∧ Scalar.ofNumeral? token = some x := by
  unfold Reads scalar? at reads
  cases document : scalar x with
  | number token =>
    rw [document] at reads
    exact ⟨token, rfl, reads⟩
  | null | boolean _ | text _ | list _ | object _ | unpaired =>
    rw [document] at reads
    cases reads

theorem ne_null : scalar x ≠ .null := by
  obtain ⟨token, document, -⟩ := reads.exists_token
  rw [document]
  nofun

theorem hasValue : (scalar x).hasValue (Numeral.inRange α) = true := by
  obtain ⟨token, document, decoded⟩ := reads.exists_token
  rw [document]
  show (Scalar.ofNumeral? token : Option α).isSome = true
  rw [decoded]
  rfl

end Json.Reads

open Json (Reads)

variable {scalar : α → Json}

/-! ## Equations -/

namespace Equation

mutual

/-- An equation is decoded from its document. -/
theorem ofJson?_toJson : ∀ {equation : Equation α}, (∀ x ∈ equation.scalars, Reads scalar x) →
    ofJson? (equation.toJson scalar) = some equation
  | .constant written value, reads => by
    obtain ⟨token, document, decoded⟩ := (reads value List.mem_cons_self).exists_token
    rw [toJson, document]
    simp [ofJson?, decoded]
  | .reference _, _ => rfl
  | .call _ arguments, reads => by
    have decoded : ofJsonAll? (toJsonAll scalar arguments) = some arguments := ofJsonAll?_toJsonAll reads
    simp [toJson, ofJson?, decoded]
  | .group inner, reads => by
    have decoded : ofJson? (inner.toJson scalar) = some inner := ofJson?_toJson reads
    simp [toJson, ofJson?, decoded]
  | .unary operator operand, reads => by
    have decoded : ofJson? (operand.toJson scalar) = some operand := ofJson?_toJson reads
    simp [toJson, ofJson?, decoded, UnaryOperator.ofJson?_name]
  | .binary operator left right, reads => by
    simp only [scalars, List.forall_mem_append] at reads
    have decoded := ofJson?_toJson reads.1
    have decoded' := ofJson?_toJson reads.2
    simp [toJson, ofJson?, decoded, decoded', BinaryOperator.ofJson?_name]
  | .conditional condition whenTrue whenFalse, reads => by
    simp only [scalars, List.forall_mem_append] at reads
    have decoded := ofJson?_toJson reads.1.1
    have decoded' := ofJson?_toJson reads.1.2
    have decoded'' := ofJson?_toJson reads.2
    simp [toJson, ofJson?, decoded, decoded', decoded'']

theorem ofJsonAll?_toJsonAll : ∀ {equations : List (Equation α)},
    (∀ x ∈ scalarsAll equations, Reads scalar x) →
      ofJsonAll? (toJsonAll scalar equations) = some equations
  | [], _ => rfl
  | first :: rest, reads => by
    simp only [scalarsAll, List.forall_mem_append] at reads
    have decoded := ofJson?_toJson reads.1
    have decoded' := ofJsonAll?_toJsonAll reads.2
    simp [toJsonAll, ofJsonAll?, decoded, decoded']

end

mutual

theorem hasValue_toJson : ∀ {equation : Equation α}, (∀ x ∈ equation.scalars, Reads scalar x) →
    (equation.toJson scalar).hasValue (Numeral.inRange α) = true
  | .constant written value, reads => by
    have value := (reads value List.mem_cons_self).hasValue
    simp [toJson, Json.hasValue, Json.allHaveValue, Json.membersHaveValue, value]
  | .reference _, _ => rfl
  | .call _ arguments, reads => by
    have values : Json.allHaveValue (Numeral.inRange α) (toJsonAll scalar arguments) = true :=
      allHaveValue_toJsonAll reads
    simp [toJson, Json.hasValue, Json.allHaveValue, Json.membersHaveValue, values]
  | .group inner, reads => by
    have value : (inner.toJson scalar).hasValue (Numeral.inRange α) = true := hasValue_toJson reads
    simp [toJson, Json.hasValue, Json.membersHaveValue, value]
  | .unary operator operand, reads => by
    have value : (operand.toJson scalar).hasValue (Numeral.inRange α) = true := hasValue_toJson reads
    simp [toJson, Json.hasValue, Json.allHaveValue, Json.membersHaveValue, value]
  | .binary operator left right, reads => by
    simp only [scalars, List.forall_mem_append] at reads
    have value := hasValue_toJson reads.1
    have value' := hasValue_toJson reads.2
    simp [toJson, Json.hasValue, Json.allHaveValue, Json.membersHaveValue, value, value']
  | .conditional condition whenTrue whenFalse, reads => by
    simp only [scalars, List.forall_mem_append] at reads
    have value := hasValue_toJson reads.1.1
    have value' := hasValue_toJson reads.1.2
    have value'' := hasValue_toJson reads.2
    simp [toJson, Json.hasValue, Json.allHaveValue, Json.membersHaveValue, value, value', value'']

theorem allHaveValue_toJsonAll : ∀ {equations : List (Equation α)},
    (∀ x ∈ scalarsAll equations, Reads scalar x) →
      Json.allHaveValue (Numeral.inRange α) (toJsonAll scalar equations) = true
  | [], _ => rfl
  | first :: rest, reads => by
    simp only [scalarsAll, List.forall_mem_append] at reads
    have value := hasValue_toJson reads.1
    have values := allHaveValue_toJsonAll reads.2
    simp [toJsonAll, Json.allHaveValue, value, values]

end

omit [Scalar α] in
theorem toJson_ne_null (equation : Equation α) : equation.toJson scalar ≠ .null := by
  cases equation <;> nofun

end Equation

/-! ## Curves and time specifications -/

namespace GraphicalFunction

variable {graph : GraphicalFunction α}

theorem listOf_scalars {values : List α} (reads : ∀ x ∈ values, Reads scalar x) :
    Json.listOf Json.scalar? (.list (values.map scalar)) = some values := Json.listOf_map reads

theorem scaleOfJson?_ends {ends : α × α} (reads : ∀ x ∈ [ends.1, ends.2], Reads scalar x) :
    scaleOfJson? (.object [("min", scalar ends.1), ("max", scalar ends.2)]) = some ends := by
  have low : Json.required [("min", scalar ends.1), ("max", scalar ends.2)] "min" Json.scalar? =
      some ends.1 := reads _ (by simp)
  have high : Json.required [("min", scalar ends.1), ("max", scalar ends.2)] "max" Json.scalar? =
      some ends.2 := reads _ (by simp)
  have fields : Json.fields? ["min", "max"] (.object [("min", scalar ends.1), ("max", scalar ends.2)]) =
      some [("min", scalar ends.1), ("max", scalar ends.2)] := rfl
  simp only [scaleOfJson?, fields, low, high, Option.bind_eq_bind, Option.bind_some]

theorem ofJson?_toJson (reads : ∀ x ∈ graph.scalars, Reads scalar x) :
    ofJson? (graph.toJson scalar) = some graph := by
  simp only [scalars, List.forall_mem_append] at reads
  obtain ⟨⟨xReads, yReads⟩, scaleReads⟩ := reads
  have nodup : ((graph.slots scalar).map Prod.fst).Nodup := by
    show ["x_points", "y_points", "x_scale"].Nodup
    decide
  have xPoints : Json.optional (Json.written (graph.slots scalar)) "x_points" (Json.listOf Json.scalar?) =
      some graph.xPoints? := by
    refine Json.optional_written nodup rfl (fun values given => listOf_scalars ?_) fun _ _ => nofun
    rwa [Option.mem_def.mp given] at xReads
  have yPoints : Json.required (Json.written (graph.slots scalar)) "y_points" (Json.listOf Json.scalar?) =
      some graph.yPoints := Json.required_written nodup rfl (listOf_scalars yReads)
  have xScale : Json.optional (Json.written (graph.slots scalar)) "x_scale" scaleOfJson? =
      some graph.xScale? := by
    refine Json.optional_written nodup rfl (fun values given => scaleOfJson?_ends ?_) fun _ _ => nofun
    rwa [Option.mem_def.mp given] at scaleReads
  rw [toJson_eq]
  simp only [ofJson?, Json.fields?_written nodup, Option.bind_eq_bind, Option.bind_some, xPoints, yPoints,
    xScale]

theorem hasValue_toJson (reads : ∀ x ∈ graph.scalars, Reads scalar x) :
    (graph.toJson scalar).hasValue (Numeral.inRange α) = true := by
  simp only [scalars, List.forall_mem_append] at reads
  obtain ⟨⟨xReads, yReads⟩, scaleReads⟩ := reads
  have points : ∀ {values : List α}, (∀ x ∈ values, Reads scalar x) →
      Json.hasValue (Numeral.inRange α) (.list (values.map scalar)) = true :=
    fun reads => Json.hasValue_map fun x member => (reads x member).hasValue
  rw [toJson_eq]
  refine Json.hasValue_written ?_
  simp only [slots, List.forall_mem_cons, Option.map_eq_some_iff, Option.some.injEq]
  refine ⟨?_, ?_, ?_, List.forall_mem_nil _⟩
  · rintro _ ⟨values, given, rfl⟩
    rw [given] at xReads
    exact points xReads
  · rintro _ rfl
    exact points yReads
  · rintro _ ⟨ends, given, rfl⟩
    rw [given] at scaleReads
    have low := (scaleReads ends.1 (by simp)).hasValue
    have high := (scaleReads ends.2 (by simp)).hasValue
    simp [Json.hasValue, Json.membersHaveValue, low, high]

end GraphicalFunction

theorem TimeSpec.ofJson?_toJson {spec : TimeSpec α} (reads : ∀ x ∈ spec.scalars, Reads scalar x) :
    ofJson? (spec.toJson scalar) = some spec := by
  simp only [scalars, List.forall_mem_append, List.forall_mem_cons, Option.mem_toList] at reads
  obtain ⟨⟨startReads, stopReads, dtReads, -⟩, saveReads⟩ := reads
  have nodup : ((spec.slots scalar).map Prod.fst).Nodup := by
    show ["start", "stop", "dt", "save_step"].Nodup
    decide
  have start : Json.required (Json.written (spec.slots scalar)) "start" Json.scalar? = some spec.start :=
    Json.required_written nodup rfl startReads
  have stop : Json.required (Json.written (spec.slots scalar)) "stop" Json.scalar? = some spec.stop :=
    Json.required_written nodup rfl stopReads
  have dt : Json.required (Json.written (spec.slots scalar)) "dt" Json.scalar? = some spec.dt :=
    Json.required_written nodup rfl dtReads
  have saveStep : Json.optional (Json.written (spec.slots scalar)) "save_step" Json.scalar? =
      some spec.saveStep? :=
    Json.optional_written nodup rfl saveReads fun x given => (saveReads x given).ne_null
  rw [toJson_eq]
  simp only [ofJson?, Json.fields?_written nodup, Option.bind_eq_bind, Option.bind_some, start, stop, dt,
    saveStep]

/-! ## Variables -/

namespace Document

section

variable {slots : List (String × Option Json)} (nodup : (slots.map Prod.fst).Nodup) {name : String}
include nodup

/-- A text is left out if it is empty. -/
theorem defaulted_text {text : String}
    (slot : slots.lookup name = some (if text != "" then some (.text text) else none)) :
    Json.defaulted (Json.written slots) name "" Json.text? = some text :=
  Json.defaulted_written nodup slot (fun _ => rfl) fun empty => by simpa using empty

/-- A list is left out if it is empty. -/
theorem defaulted_list {β : Type} {values : List β} {encode : β → Json} (decode : Json → Option β)
    (slot : slots.lookup name = some (if !values.isEmpty then some (.list (values.map encode)) else none))
    (decoded : ∀ value ∈ values, decode (encode value) = some value) :
    Json.defaulted (Json.written slots) name [] (Json.listOf decode) = some values :=
  Json.defaulted_written nodup slot (fun _ => Json.listOf_map decoded) fun empty => by simpa using empty

/-- A mark is left out if it is not set. -/
theorem defaulted_mark {mark : Bool}
    (slot : slots.lookup name = some (if mark then some (.boolean true) else none)) :
    Json.defaulted (Json.written slots) name false Json.boolean? = some mark :=
  Json.defaulted_written nodup slot (fun set => set ▸ rfl) id

theorem optional_equation {equation? : Option (Equation α)}
    (slot : slots.lookup name = some (equation?.map (Equation.toJson scalar)))
    (reads : ∀ x ∈ equation?.elim [] Equation.scalars, Reads scalar x) :
    Json.optional (Json.written slots) name Equation.ofJson? = some equation? := by
  refine Json.optional_written nodup slot (fun equation given => Equation.ofJson?_toJson ?_)
    fun equation _ => equation.toJson_ne_null
  rwa [Option.mem_def.mp given] at reads

theorem optional_graph {graph? : Option (GraphicalFunction α)}
    (slot : slots.lookup name = some (graph?.map (GraphicalFunction.toJson scalar)))
    (reads : ∀ x ∈ graph?.elim [] GraphicalFunction.scalars, Reads scalar x) :
    Json.optional (Json.written slots) name GraphicalFunction.ofJson? = some graph? := by
  refine Json.optional_written nodup slot (fun graph given => GraphicalFunction.ofJson?_toJson ?_)
    fun _ _ => nofun
  rwa [Option.mem_def.mp given] at reads

end

theorem Stock.ofJson?_slots {stock : Stock α}
    (reads : ∀ x ∈ stock.equation?.elim [] Equation.scalars, Reads scalar x) :
    ofJson? (.object (Json.written (stock.slots scalar))) = some stock := by
  have nodup : ((stock.slots scalar).map Prod.fst).Nodup := (Variable.stock stock).nodup_slots scalar
  have name : Json.required (Json.written (stock.slots scalar)) "ident" Json.text? = some stock.name :=
    Json.required_written nodup rfl rfl
  have text := defaulted_text nodup (rfl : (stock.slots scalar).lookup "equation" = _)
  have equation := optional_equation nodup (rfl : (stock.slots scalar).lookup "ast" = _) reads
  have inflows := defaulted_list nodup Json.text? (rfl : (stock.slots scalar).lookup "inflows" = _)
    fun _ _ => rfl
  have outflows := defaulted_list nodup Json.text? (rfl : (stock.slots scalar).lookup "outflows" = _)
    fun _ _ => rfl
  have mark := defaulted_mark nodup (rfl : (stock.slots scalar).lookup "non_negative" = _)
  simp only [ofJson?, Json.fields?_written nodup, Option.bind_eq_bind, Option.bind_some, name, text, equation,
    inflows, outflows, mark]

theorem Flow.ofJson?_slots {flow : Flow α} (reads : ∀ x ∈ (Variable.flow flow).scalars, Reads scalar x) :
    ofJson? (.object (Json.written (flow.slots scalar))) = some flow := by
  simp only [Variable.scalars, List.forall_mem_append] at reads
  have nodup : ((flow.slots scalar).map Prod.fst).Nodup := (Variable.flow flow).nodup_slots scalar
  have name : Json.required (Json.written (flow.slots scalar)) "ident" Json.text? = some flow.name :=
    Json.required_written nodup rfl rfl
  have text := defaulted_text nodup (rfl : (flow.slots scalar).lookup "equation" = _)
  have equation := optional_equation nodup (rfl : (flow.slots scalar).lookup "ast" = _) reads.1
  have graph := optional_graph nodup (rfl : (flow.slots scalar).lookup "gf" = _) reads.2
  have mark := defaulted_mark nodup (rfl : (flow.slots scalar).lookup "non_negative" = _)
  simp only [ofJson?, Json.fields?_written nodup, Option.bind_eq_bind, Option.bind_some, name, text, equation,
    graph, mark]

theorem Auxiliary.ofJson?_slots {auxiliary : Auxiliary α}
    (reads : ∀ x ∈ (Variable.auxiliary auxiliary).scalars, Reads scalar x) :
    ofJson? (.object (Json.written (auxiliary.slots scalar))) = some auxiliary := by
  simp only [Variable.scalars, List.forall_mem_append] at reads
  have nodup : ((auxiliary.slots scalar).map Prod.fst).Nodup :=
    (Variable.auxiliary auxiliary).nodup_slots scalar
  have name : Json.required (Json.written (auxiliary.slots scalar)) "ident" Json.text? =
      some auxiliary.name := Json.required_written nodup rfl rfl
  have text := defaulted_text nodup (rfl : (auxiliary.slots scalar).lookup "equation" = _)
  have equation := optional_equation nodup (rfl : (auxiliary.slots scalar).lookup "ast" = _) reads.1
  have graph := optional_graph nodup (rfl : (auxiliary.slots scalar).lookup "gf" = _) reads.2
  simp only [ofJson?, Json.fields?_written nodup, Option.bind_eq_bind, Option.bind_some, name, text, equation,
    graph]

theorem Connection.ofJson?_toJson (connection : Connection) :
    ofJson? connection.toJson = some connection := rfl

theorem Module.ofJson?_slots (module : Module) :
    ofJson? (.object (Json.written module.slots)) = some module := by
  have nodup : (module.slots.map Prod.fst).Nodup := by
    show ["type", "ident", "model_name", "references"].Nodup
    decide
  have name : Json.required (Json.written module.slots) "ident" Json.text? = some module.name :=
    Json.required_written nodup rfl rfl
  have model : Json.required (Json.written module.slots) "model_name" Json.text? = some module.model :=
    Json.required_written nodup rfl rfl
  have connections := defaulted_list nodup Connection.ofJson?
    (rfl : module.slots.lookup "references" = _) fun connection _ => connection.ofJson?_toJson
  simp only [ofJson?, Json.fields?_written nodup, Option.bind_eq_bind, Option.bind_some, name, model,
    connections]

theorem hasValue_equation {equation? : Option (Equation α)}
    (reads : ∀ x ∈ equation?.elim [] Equation.scalars, Reads scalar x) (document : Json)
    (given : equation?.map (Equation.toJson scalar) = some document) :
    document.hasValue (Numeral.inRange α) = true := by
  obtain ⟨equation, rfl, rfl⟩ := Option.map_eq_some_iff.mp given
  exact Equation.hasValue_toJson reads

theorem hasValue_graph {graph? : Option (GraphicalFunction α)}
    (reads : ∀ x ∈ graph?.elim [] GraphicalFunction.scalars, Reads scalar x) (document : Json)
    (given : graph?.map (GraphicalFunction.toJson scalar) = some document) :
    document.hasValue (Numeral.inRange α) = true := by
  obtain ⟨graph, rfl, rfl⟩ := Option.map_eq_some_iff.mp given
  exact GraphicalFunction.hasValue_toJson reads

theorem hasValue_ite {inRange : Numeral → Bool} {condition : Bool} {value : Json}
    (hasValue : value.hasValue inRange = true) (document : Json)
    (given : (if condition then some value else none) = some document) :
    document.hasValue inRange = true := by
  obtain ⟨-, same⟩ := Option.ite_none_right_eq_some.mp given
  cases same
  exact hasValue

/-- Every part of the document of a variable has a value. -/
theorem Variable.hasValue_toJson {definition : Variable α}
    (reads : ∀ x ∈ definition.scalars, Reads scalar x) :
    (definition.toJson scalar).hasValue (Numeral.inRange α) = true := by
  have text : ∀ text document, some (Json.text text) = some document →
      document.hasValue (Numeral.inRange α) = true := by
    intro text document same
    cases same
    rfl
  rw [toJson_eq]
  refine Json.hasValue_written ?_
  cases definition with
  | stock stock =>
    simp only [slots, Stock.slots, List.forall_mem_cons]
    exact ⟨text _, text _, hasValue_ite rfl, hasValue_equation reads,
      hasValue_ite (Json.hasValue_ofNames _), hasValue_ite (Json.hasValue_ofNames _), hasValue_ite rfl,
      List.forall_mem_nil _⟩
  | flow flow =>
    simp only [scalars, List.forall_mem_append] at reads
    simp only [slots, Flow.slots, List.forall_mem_cons]
    exact ⟨text _, text _, hasValue_ite rfl, hasValue_equation reads.1, hasValue_graph reads.2,
      hasValue_ite rfl, List.forall_mem_nil _⟩
  | auxiliary auxiliary =>
    simp only [scalars, List.forall_mem_append] at reads
    simp only [slots, Auxiliary.slots, List.forall_mem_cons]
    exact ⟨text _, text _, hasValue_ite rfl, hasValue_equation reads.1, hasValue_graph reads.2,
      List.forall_mem_nil _⟩
  | module module =>
    simp only [slots, Module.slots, List.forall_mem_cons]
    exact ⟨text _, text _, text _, hasValue_ite (Json.hasValue_map fun _ _ => rfl), List.forall_mem_nil _⟩

theorem Variable.ofJson?_toJson {definition : Variable α}
    (reads : ∀ x ∈ definition.scalars, Reads scalar x) :
    ofJson? (definition.toJson scalar) = some definition := by
  have values := hasValue_toJson reads
  rw [toJson_eq] at values ⊢
  simp only [ofJson?, if_pos values, Json.fields?_written (definition.nodup_slots scalar),
    definition.required_type scalar, Option.bind_eq_bind, Option.bind_some]
  cases definition with
  | stock stock =>
    show (Stock.ofJson? _).map Variable.stock = _
    rw [slots, Stock.ofJson?_slots reads]
    rfl
  | flow flow =>
    show (Flow.ofJson? _).map Variable.flow = _
    rw [slots, Flow.ofJson?_slots reads]
    rfl
  | auxiliary auxiliary =>
    show (Auxiliary.ofJson? _).map Variable.auxiliary = _
    rw [slots, Auxiliary.ofJson?_slots reads]
    rfl
  | module module =>
    show (Module.ofJson? _).map Variable.module = _
    rw [slots, Module.ofJson?_slots]
    rfl

/-! ## Models and projects -/

theorem Model.ofJson?_toJson {model : Model α} (reads : ∀ x ∈ model.scalars, Reads scalar x) :
    ofJson? (model.toJson scalar) = some model := by
  simp only [scalars, List.forall_mem_append, List.forall_mem_flatMap] at reads
  have nodup : ((model.slots scalar).map Prod.fst).Nodup := by
    show ["name", "sim_specs", "variables"].Nodup
    decide
  have name : Json.required (Json.written (model.slots scalar)) "name" Json.text? = some model.name :=
    Json.required_written nodup rfl rfl
  have timeSpec : Json.optional (Json.written (model.slots scalar)) "sim_specs" TimeSpec.ofJson? =
      some model.timeSpec? := by
    refine Json.optional_written nodup rfl (fun spec given => TimeSpec.ofJson?_toJson ?_) fun _ _ => nofun
    have reads := reads.1
    rwa [Option.mem_def.mp given] at reads
  have definitions := defaulted_list nodup Variable.ofJson?
    (rfl : (model.slots scalar).lookup "variables" = _) fun definition member =>
      Variable.ofJson?_toJson (reads.2 definition member)
  rw [toJson_eq]
  simp only [ofJson?, Json.fields?_written nodup, Option.bind_eq_bind, Option.bind_some, name, timeSpec,
    definitions]

/-- A project is decoded from its document if its numbers are decoded from theirs. -/
theorem Project.ofJson?_toJson {project : Project α} (reads : ∀ x ∈ project.scalars, Reads scalar x) :
    ofJson? (project.toJson scalar) = some project := by
  simp only [scalars, List.forall_mem_append, List.forall_mem_flatMap] at reads
  have nodup : ((project.slots scalar).map Prod.fst).Nodup := by
    show ["name", "sim_specs", "models"].Nodup
    decide
  have name := defaulted_text nodup (rfl : (project.slots scalar).lookup "name" = _)
  have timeSpec : Json.required (Json.written (project.slots scalar)) "sim_specs" TimeSpec.ofJson? =
      some project.timeSpec := Json.required_written nodup rfl (TimeSpec.ofJson?_toJson reads.1)
  have models : Json.required (Json.written (project.slots scalar)) "models" (Json.listOf Model.ofJson?) =
      some project.models :=
    Json.required_written nodup rfl (Json.listOf_map fun model member =>
      Model.ofJson?_toJson (reads.2 model member))
  rw [toJson_eq]
  simp only [ofJson?, Json.fields?_written nodup, Option.bind_eq_bind, Option.bind_some, name, timeSpec,
    models]

end Document

/-! ## Numbers of decoded documents -/

/-- Whether a number is the value of a token. -/
def Scalar.IsRead (x : α) : Prop := ∃ token, Scalar.ofNumeral? token = some x

open Scalar (IsRead)

namespace Json

variable {β : Type} {members : List (String × Json)} {name : String} {decode : Json → Option β}

theorem exists_of_required {value : β} (decoded : required members name decode = some value) :
    ∃ document, decode document = some value := by
  obtain ⟨document, -, decoded⟩ := Option.bind_eq_some_iff.mp decoded
  exact ⟨document, decoded⟩

theorem exists_of_defaulted {value default : β}
    (decoded : defaulted members name default decode = some value) :
    value = default ∨ ∃ document, decode document = some value := by
  unfold defaulted at decoded
  split at decoded
  · exact .inr ⟨_, decoded⟩
  · exact .inl (Option.some.inj decoded).symm

theorem exists_of_optional {value? : Option β} (decoded : optional members name decode = some value?) :
    ∀ value ∈ value?, ∃ document, decode document = some value := by
  unfold optional at decoded
  split at decoded
  · cases decoded
    nofun
  · cases decoded
    nofun
  · obtain ⟨value, one, rfl⟩ := Option.map_eq_some_iff.mp decoded
    intro other given
    cases given
    exact ⟨_, one⟩

theorem exists_of_listOf {values : List β} {document : Json}
    (decoded : listOf decode document = some values) :
    ∀ value ∈ values, ∃ document, decode document = some value := by
  obtain ⟨documents, -, all⟩ := Option.bind_eq_some_iff.mp decoded
  clear decoded
  induction documents generalizing values with
  | nil =>
    cases all
    nofun
  | cons first rest ih =>
    simp only [List.mapM_cons, Option.bind_eq_bind, Option.bind_eq_some_iff, Option.pure_def,
      Option.some.injEq] at all
    obtain ⟨value, one, others, all, rfl⟩ := all
    exact List.forall_mem_cons.mpr ⟨⟨first, one⟩, ih all⟩

theorem isRead_of_scalar? {document : Json} {x : α} (decoded : scalar? document = some x) : IsRead x := by
  obtain ⟨token, -, decoded⟩ := Option.bind_eq_some_iff.mp decoded
  exact ⟨token, decoded⟩

end Json

namespace Equation

/-- The numbers of a decoded equation are values of tokens, by the cases of the decoder. -/
theorem isRead_of_decoded :
    (∀ document (equation : Equation α), ofJson? document = some equation →
      ∀ x ∈ equation.scalars, IsRead x) ∧
    ∀ documents (equations : List (Equation α)), ofJsonAll? documents = some equations →
      ∀ x ∈ scalarsAll equations, IsRead x := by
  refine ofJson?.mutual_induct
    (fun document => ∀ equation : Equation α, ofJson? document = some equation →
      ∀ x ∈ equation.scalars, IsRead x)
    (fun documents => ∀ equations : List (Equation α), ofJsonAll? documents = some equations →
      ∀ x ∈ scalarsAll equations, IsRead x)
    ?constant ?reference ?call ?group ?unary ?binary ?conditional ?other ?noObject ?nil ?cons
  case constant =>
    intro written token equation decoded
    simp only [ofJson?, Option.map_eq_some_iff] at decoded
    obtain ⟨value, decoded, rfl⟩ := decoded
    exact List.forall_mem_cons.mpr ⟨⟨token, decoded⟩, nofun⟩
  case reference =>
    intro name equation decoded
    simp only [ofJson?, Option.some.injEq] at decoded
    subst decoded
    nofun
  case call =>
    intro function arguments ih equation decoded
    simp only [ofJson?, Option.map_eq_some_iff] at decoded
    obtain ⟨equations, decoded, rfl⟩ := decoded
    exact ih equations decoded
  case group =>
    intro inner ih equation decoded
    simp only [ofJson?, Option.map_eq_some_iff] at decoded
    obtain ⟨equation, decoded, rfl⟩ := decoded
    exact ih equation decoded
  case unary =>
    intro operator operand ih equation decoded
    simp only [ofJson?, Option.bind_eq_bind, Option.bind_eq_some_iff, Option.some.injEq] at decoded
    obtain ⟨operator, -, operand, decoded, rfl⟩ := decoded
    exact ih operand decoded
  case binary =>
    intro operator left right ih ih' equation decoded
    simp only [ofJson?, Option.bind_eq_bind, Option.bind_eq_some_iff, Option.some.injEq] at decoded
    obtain ⟨operator, -, left, decoded, right, decoded', rfl⟩ := decoded
    exact List.forall_mem_append.mpr ⟨ih left decoded, ih' right decoded'⟩
  case conditional =>
    intro condition whenTrue whenFalse ih ih' ih'' equation decoded
    simp only [ofJson?, Option.bind_eq_bind, Option.bind_eq_some_iff, Option.some.injEq] at decoded
    obtain ⟨condition, decoded, whenTrue, decoded', whenFalse, decoded'', rfl⟩ := decoded
    exact List.forall_mem_append.mpr
      ⟨List.forall_mem_append.mpr ⟨ih condition decoded, ih' whenTrue decoded'⟩, ih'' whenFalse decoded''⟩
  case other =>
    intro kind content notParen notConst notVar notApp notOp1 notOp2 notIf equation decoded
    rw [ofJson?] at decoded
    · cases decoded
    all_goals assumption
  case noObject =>
    intro document noObject equation decoded
    rw [ofJson?] at decoded
    · cases decoded
    · exact noObject
  case nil =>
    intro equations decoded
    cases decoded
    nofun
  case cons =>
    intro first rest ih ih' equations decoded
    simp only [ofJsonAll?, Option.bind_eq_bind, Option.bind_eq_some_iff, Option.some.injEq] at decoded
    obtain ⟨first, decoded, rest, decoded', rfl⟩ := decoded
    exact List.forall_mem_append.mpr ⟨ih first decoded, ih' rest decoded'⟩

end Equation

theorem Json.isRead_of_listOf {document : Json} {values : List α}
    (decoded : listOf scalar? document = some values) :
    ∀ x ∈ values, IsRead x := by
  intro x member
  obtain ⟨_, decoded⟩ := exists_of_listOf decoded x member
  exact isRead_of_scalar? decoded

theorem GraphicalFunction.isRead_of_ofJson? {document : Json} {graph : GraphicalFunction α}
    (decoded : ofJson? document = some graph) : ∀ x ∈ graph.scalars, IsRead x := by
  simp only [ofJson?, Option.bind_eq_bind, Option.bind_eq_some_iff, Option.some.injEq] at decoded
  obtain ⟨members, -, xPoints?, xDecoded, yPoints, yDecoded, xScale?, scaleDecoded, rfl⟩ := decoded
  simp only [scalars, List.forall_mem_append]
  refine ⟨⟨?_, ?_⟩, ?_⟩
  · cases xPoints? with
    | none => nofun
    | some values =>
      obtain ⟨_, decoded⟩ := Json.exists_of_optional xDecoded values rfl
      exact Json.isRead_of_listOf decoded
  · obtain ⟨_, decoded⟩ := Json.exists_of_required yDecoded
    exact Json.isRead_of_listOf decoded
  · cases xScale? with
    | none => nofun
    | some ends =>
      obtain ⟨_, decoded⟩ := Json.exists_of_optional scaleDecoded ends rfl
      simp only [scaleOfJson?, Option.bind_eq_bind, Option.bind_eq_some_iff, Option.some.injEq] at decoded
      obtain ⟨members, -, low, lowDecoded, high, highDecoded, rfl⟩ := decoded
      obtain ⟨_, lowDecoded⟩ := Json.exists_of_required lowDecoded
      obtain ⟨_, highDecoded⟩ := Json.exists_of_required highDecoded
      simp only [Option.elim_some, List.forall_mem_cons]
      exact ⟨Json.isRead_of_scalar? lowDecoded, Json.isRead_of_scalar? highDecoded, nofun⟩

theorem TimeSpec.isRead_of_ofJson? {document : Json} {spec : TimeSpec α}
    (decoded : ofJson? document = some spec) : ∀ x ∈ spec.scalars, IsRead x := by
  simp only [ofJson?, Option.bind_eq_bind, Option.bind_eq_some_iff, Option.some.injEq] at decoded
  obtain ⟨members, -, start, startDecoded, stop, stopDecoded, dt, dtDecoded, saveStep?, saveDecoded, rfl⟩ :=
    decoded
  obtain ⟨_, startDecoded⟩ := Json.exists_of_required startDecoded
  obtain ⟨_, stopDecoded⟩ := Json.exists_of_required stopDecoded
  obtain ⟨_, dtDecoded⟩ := Json.exists_of_required dtDecoded
  simp only [scalars, List.forall_mem_append, List.forall_mem_cons, Option.mem_toList]
  refine ⟨⟨Json.isRead_of_scalar? startDecoded, Json.isRead_of_scalar? stopDecoded,
    Json.isRead_of_scalar? dtDecoded, nofun⟩, fun x given => ?_⟩
  obtain ⟨_, decoded⟩ := Json.exists_of_optional saveDecoded x given
  exact Json.isRead_of_scalar? decoded

namespace Document

theorem isRead_of_equation {members : List (String × Json)} {equation? : Option (Equation α)}
    (decoded : Json.optional members "ast" Equation.ofJson? = some equation?) :
    ∀ x ∈ equation?.elim [] Equation.scalars, IsRead x := by
  cases equation? with
  | none => nofun
  | some equation =>
    obtain ⟨document, decoded⟩ := Json.exists_of_optional decoded equation rfl
    exact Equation.isRead_of_decoded.1 document equation decoded

theorem isRead_of_graph {members : List (String × Json)} {graph? : Option (GraphicalFunction α)}
    (decoded : Json.optional members "gf" GraphicalFunction.ofJson? = some graph?) :
    ∀ x ∈ graph?.elim [] GraphicalFunction.scalars, IsRead x := by
  cases graph? with
  | none => nofun
  | some graph =>
    obtain ⟨document, decoded⟩ := Json.exists_of_optional decoded graph rfl
    exact GraphicalFunction.isRead_of_ofJson? decoded

theorem Stock.isRead_of_ofJson? {document : Json} {stock : Stock α}
    (decoded : ofJson? document = some stock) : ∀ x ∈ (Variable.stock stock).scalars, IsRead x := by
  simp only [ofJson?, Option.bind_eq_bind, Option.bind_eq_some_iff, Option.some.injEq] at decoded
  obtain ⟨members, -, name, -, text, -, equation?, equation, -, -, -, -, -, -, rfl⟩ := decoded
  exact isRead_of_equation equation

theorem Flow.isRead_of_ofJson? {document : Json} {flow : Flow α} (decoded : ofJson? document = some flow) :
    ∀ x ∈ (Variable.flow flow).scalars, IsRead x := by
  simp only [ofJson?, Option.bind_eq_bind, Option.bind_eq_some_iff, Option.some.injEq] at decoded
  obtain ⟨members, -, name, -, text, -, equation?, equation, graph?, graph, -, -, rfl⟩ := decoded
  exact List.forall_mem_append.mpr ⟨isRead_of_equation equation, isRead_of_graph graph⟩

theorem Auxiliary.isRead_of_ofJson? {document : Json} {auxiliary : Auxiliary α}
    (decoded : ofJson? document = some auxiliary) :
    ∀ x ∈ (Variable.auxiliary auxiliary).scalars, IsRead x := by
  simp only [ofJson?, Option.bind_eq_bind, Option.bind_eq_some_iff, Option.some.injEq] at decoded
  obtain ⟨members, -, name, -, text, -, equation?, equation, graph?, graph, rfl⟩ := decoded
  exact List.forall_mem_append.mpr ⟨isRead_of_equation equation, isRead_of_graph graph⟩

theorem Variable.isRead_of_ofJson? {document : Json} {definition : Variable α}
    (decoded : ofJson? document = some definition) : ∀ x ∈ definition.scalars, IsRead x := by
  unfold ofJson? at decoded
  split at decoded
  · simp only [Option.bind_eq_bind, Option.bind_eq_some_iff] at decoded
    obtain ⟨members, -, kind, -, decoded⟩ := decoded
    split at decoded
    · obtain ⟨stock, given, rfl⟩ := Option.map_eq_some_iff.mp decoded
      exact Stock.isRead_of_ofJson? given
    · obtain ⟨flow, given, rfl⟩ := Option.map_eq_some_iff.mp decoded
      exact Flow.isRead_of_ofJson? given
    · obtain ⟨auxiliary, given, rfl⟩ := Option.map_eq_some_iff.mp decoded
      exact Auxiliary.isRead_of_ofJson? given
    · obtain ⟨module, -, rfl⟩ := Option.map_eq_some_iff.mp decoded
      nofun
    · cases decoded
  · cases decoded

theorem Model.isRead_of_ofJson? {document : Json} {model : Model α}
    (decoded : ofJson? document = some model) : ∀ x ∈ model.scalars, IsRead x := by
  simp only [ofJson?, Option.bind_eq_bind, Option.bind_eq_some_iff, Option.some.injEq] at decoded
  obtain ⟨members, -, name, -, timeSpec?, timeSpec, definitions, definitionsDecoded, rfl⟩ := decoded
  simp only [scalars, List.forall_mem_append, List.forall_mem_flatMap]
  constructor
  · cases timeSpec? with
    | none => nofun
    | some spec =>
      obtain ⟨_, decoded⟩ := Json.exists_of_optional timeSpec spec rfl
      exact TimeSpec.isRead_of_ofJson? decoded
  · rcases Json.exists_of_defaulted definitionsDecoded with rfl | ⟨_, decoded⟩
    · nofun
    · intro definition member
      obtain ⟨_, decoded⟩ := Json.exists_of_listOf decoded definition member
      exact Variable.isRead_of_ofJson? decoded

/-- Every number of a decoded project is the value of a token. -/
theorem Project.isRead_of_ofJson? {document : Json} {project : Project α}
    (decoded : ofJson? document = some project) : ∀ x ∈ project.scalars, IsRead x := by
  simp only [ofJson?, Option.bind_eq_bind, Option.bind_eq_some_iff, Option.some.injEq] at decoded
  obtain ⟨members, -, name, -, timeSpec, specDecoded, models, modelsDecoded, rfl⟩ := decoded
  obtain ⟨_, specDecoded⟩ := Json.exists_of_required specDecoded
  obtain ⟨_, modelsDecoded⟩ := Json.exists_of_required modelsDecoded
  simp only [scalars, List.forall_mem_append, List.forall_mem_flatMap]
  refine ⟨TimeSpec.isRead_of_ofJson? specDecoded, fun model member => ?_⟩
  obtain ⟨_, decoded⟩ := Json.exists_of_listOf modelsDecoded model member
  exact Model.isRead_of_ofJson? decoded

/-- A project with a variable of each kind, some with all fields and some with none that can be left out. -/
def assorted : Project Float :=
  ⟨"", ⟨0, 10, 0.25, some 0⟩,
    [⟨"main", none,
      [.stock ⟨"level", "100", some (.constant "100" 100), ["in", "in"], [], true⟩,
        .flow ⟨"in", "", none, some ⟨some [], [-0.5, 1e300], some (0, 0.1)⟩, false⟩,
        .auxiliary ⟨"gap", "goal - level", some (.conditional
          (.binary .gt (.reference "level") (.constant "0" 0))
          (.group (.unary .negative (.call "max" [.reference "time", .call "pi" []])))
          (.constant "3" 3)), none⟩,
        .module ⟨"m", "sub", []⟩]⟩,
    ⟨"sub", some ⟨0, 1, 1, none⟩, []⟩]⟩

/-- A document whose fields are in another order, one of them `null` and one unknown. -/
def scattered : Json :=
  .object [
    ("models", .list [.object [("variables", .list []), ("sim_specs", .null), ("name", .text "main")]]),
    ("note", .list [.null]),
    ("sim_specs", .object [("dt", .number ⟨false, [2, 5], [], -2, false⟩),
      ("stop", .number ⟨false, [1], [], 1, false⟩), ("start", .number ⟨true, [0], [], 0, false⟩)]),
    ("name", .text "")]

end Document

end StockFlow
