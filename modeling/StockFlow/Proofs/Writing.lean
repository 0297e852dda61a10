import Mathlib.Data.List.Nodup
import StockFlow.Document.Encode

/-!
# Records

The document of a record as its slots, each of which has a name and possibly a document. No two slots have
the same name, so each field is found in the slot of its name, and none is given twice.
-/

namespace StockFlow

namespace Json

variable {α β : Type}

/-! ## Slots -/

/-- The members of the slots that have a document. -/
def written (slots : List (String × Option Json)) : List (String × Json) :=
  slots.flatMap fun slot => fieldOf slot.1 id slot.2

theorem fieldOf_some (name : String) (document : Json) :
    fieldOf name id (some document) = field name document := rfl

theorem fieldOf_ite (condition : Bool) (name : String) (document : Json) :
    fieldOf name id (if condition then some document else none) = fieldIf condition name document := by
  cases condition <;> rfl

theorem fieldOf_map (name : String) (encode : β → Json) (value? : Option β) :
    fieldOf name id (value?.map encode) = fieldOf name encode value? := by
  cases value? <;> rfl

theorem written_nil : written [] = [] := rfl

theorem written_cons (name : String) (document? : Option Json) (slots : List (String × Option Json)) :
    written ((name, document?) :: slots) = fieldOf name id document? ++ written slots := rfl

theorem names_written (slots : List (String × Option Json)) :
    ((written slots).map Prod.fst).Sublist (slots.map Prod.fst) := by
  induction slots with
  | nil => exact .slnil
  | cons slot slots ih =>
    obtain ⟨name, _ | document⟩ := slot
    · exact ih.cons _
    · exact ih.cons_cons _

section

variable {slots : List (String × Option Json)} (nodup : (slots.map Prod.fst).Nodup)
include nodup

/-- No field is given twice where no two slots have the same name. -/
theorem fields?_written (names : List String) :
    fields? names (.object (written slots)) = some (written slots) := by
  have once : ∀ name, ((written slots).filter (·.1 == name)).length ≤ 1 := by
    intro name
    have count := List.nodup_iff_count_le_one.mp (nodup.sublist (names_written slots)) name
    rwa [List.count_eq_countP, List.countP_map, List.countP_eq_length_filter] at count
  have all : (names.all fun name => decide (((written slots).filter (·.1 == name)).length ≤ 1)) = true :=
    List.all_eq_true.mpr fun name _ => decide_eq_true (once name)
  show (if names.all fun name => decide (((written slots).filter (·.1 == name)).length ≤ 1) then
    some (written slots) else none) = some (written slots)
  rw [if_pos all]

theorem lookup_written {name : String} {document? : Option Json}
    (slot : slots.lookup name = some document?) : (written slots).lookup name = document? := by
  induction slots with
  | nil => cases slot
  | cons first slots ih =>
    obtain ⟨other, document?'⟩ := first
    obtain ⟨apart, nodup⟩ := List.nodup_cons.mp nodup
    rw [List.lookup_cons] at slot
    cases same : name == other with
    | true =>
      rw [same] at slot
      cases slot
      obtain rfl := eq_of_beq same
      cases document? with
      | some document =>
        show List.lookup name ((name, document) :: written slots) = _
        rw [List.lookup_cons_self]
      | none =>
        have absent : name ∉ (written slots).map Prod.fst :=
          fun member => apart ((names_written slots).subset member)
        show List.lookup name (written slots) = none
        exact List.lookup_eq_none_iff.mpr fun entry member =>
          bne_iff_ne.mpr fun same => absent (same ▸ List.mem_map_of_mem member)
    | false =>
      rw [same] at slot
      have found := ih nodup slot
      cases document?' with
      | none => exact found
      | some document =>
        show List.lookup name ((other, document) :: written slots) = _
        rw [List.lookup_cons, same]
        exact found

variable {name : String} {document : Json} {decode : Json → Option β}

theorem required_written {value : β} (slot : slots.lookup name = some (some document))
    (decoded : decode document = some value) : required (written slots) name decode = some value := by
  rw [required, lookup_written nodup slot]
  exact decoded

/-- A field that is left out if it has its own value. -/
theorem defaulted_written {value default : β} {condition : Bool}
    (slot : slots.lookup name = some (if condition then some document else none))
    (decoded : condition = true → decode document = some value)
    (absent : condition = false → value = default) :
    defaulted (written slots) name default decode = some value := by
  rw [defaulted, lookup_written nodup slot]
  cases condition
  · rw [absent rfl]
    rfl
  · exact decoded rfl

/-- A field that is left out if there is no value. No value has the document `null`, which would be read as
none. -/
theorem optional_written {value? : Option β} {encode : β → Json}
    (slot : slots.lookup name = some (value?.map encode))
    (decoded : ∀ value ∈ value?, decode (encode value) = some value)
    (present : ∀ value ∈ value?, encode value ≠ .null) :
    optional (written slots) name decode = some value? := by
  rw [optional, lookup_written nodup slot]
  cases value? with
  | none => rfl
  | some value =>
    have decoded := decoded value rfl
    have present := present value rfl
    rw [Option.map_some]
    cases document : encode value with
    | null => exact absurd document present
    | boolean _ | number _ | text _ | list _ | object _ | unpaired =>
      rw [document] at decoded
      dsimp only
      rw [decoded]
      rfl

end

theorem listOf_map {values : List β} {encode : β → Json} {decode : Json → Option β}
    (decoded : ∀ value ∈ values, decode (encode value) = some value) :
    listOf decode (.list (values.map encode)) = some values := by
  show (values.map encode).mapM decode = some values
  induction values with
  | nil => rfl
  | cons first rest ih =>
    rw [List.map_cons, List.mapM_cons, decoded first List.mem_cons_self,
      ih fun value member => decoded value (List.mem_cons_of_mem _ member)]
    rfl

/-! ## Parts that have values -/

section

variable {inRange : Numeral → Bool}

theorem hasValue_written {slots : List (String × Option Json)}
    (values : ∀ slot ∈ slots, ∀ document, slot.2 = some document → hasValue inRange document = true) :
    hasValue inRange (.object (written slots)) = true := by
  show membersHaveValue inRange (written slots) = true
  induction slots with
  | nil => rfl
  | cons slot slots ih =>
    obtain ⟨name, document?⟩ := slot
    have rest := ih fun slot member => values slot (List.mem_cons_of_mem _ member)
    cases document? with
    | none => exact rest
    | some document =>
      have first := values _ List.mem_cons_self document rfl
      show (hasValue inRange document && membersHaveValue inRange (written slots)) = true
      rw [first, rest]
      rfl

theorem hasValue_map {values : List β} {encode : β → Json}
    (all : ∀ value ∈ values, hasValue inRange (encode value) = true) :
    hasValue inRange (.list (values.map encode)) = true := by
  show allHaveValue inRange (values.map encode) = true
  induction values with
  | nil => rfl
  | cons first rest ih =>
    rw [List.map_cons, allHaveValue, all first List.mem_cons_self,
      ih fun value member => all value (List.mem_cons_of_mem _ member)]
    rfl

theorem hasValue_ofNames (names : List Name) : hasValue inRange (ofNames names) = true :=
  hasValue_map fun _ _ => rfl

end

end Json

/-! ## The slots of each record -/

variable {α : Type} (scalar : α → Json)

def GraphicalFunction.slots (graph : GraphicalFunction α) : List (String × Option Json) :=
  [("x_points", graph.xPoints?.map fun values => .list (values.map scalar)),
    ("y_points", some (.list (graph.yPoints.map scalar))),
    ("x_scale", graph.xScale?.map fun ends => .object [("min", scalar ends.1), ("max", scalar ends.2)])]

theorem GraphicalFunction.toJson_eq (graph : GraphicalFunction α) :
    graph.toJson scalar = .object (Json.written (graph.slots scalar)) := by
  simp only [toJson, slots, Json.written_cons, Json.written_nil, Json.fieldOf_some, Json.fieldOf_map,
    List.append_assoc, List.append_nil]

def TimeSpec.slots (spec : TimeSpec α) : List (String × Option Json) :=
  [("start", some (scalar spec.start)), ("stop", some (scalar spec.stop)), ("dt", some (scalar spec.dt)),
    ("save_step", spec.saveStep?.map scalar)]

theorem TimeSpec.toJson_eq (spec : TimeSpec α) :
    spec.toJson scalar = .object (Json.written (spec.slots scalar)) := by
  simp only [toJson, slots, Json.written_cons, Json.written_nil, Json.fieldOf_some, Json.fieldOf_map,
    List.append_assoc, List.append_nil]

namespace Document

/-- The slots of a stock after the name of its kind. -/
def Stock.slots (stock : Stock α) : List (String × Option Json) :=
  [("type", some (.text "stock")), ("ident", some (.text stock.name)),
    ("equation", if stock.text != "" then some (.text stock.text) else none),
    ("ast", stock.equation?.map (Equation.toJson scalar)),
    ("inflows", if !stock.inflows.isEmpty then some (Json.ofNames stock.inflows) else none),
    ("outflows", if !stock.outflows.isEmpty then some (Json.ofNames stock.outflows) else none),
    ("non_negative", if stock.nonNegative then some (.boolean true) else none)]

def Flow.slots (flow : Flow α) : List (String × Option Json) :=
  [("type", some (.text "flow")), ("ident", some (.text flow.name)),
    ("equation", if flow.text != "" then some (.text flow.text) else none),
    ("ast", flow.equation?.map (Equation.toJson scalar)),
    ("gf", flow.graph?.map (GraphicalFunction.toJson scalar)),
    ("non_negative", if flow.nonNegative then some (.boolean true) else none)]

def Auxiliary.slots (auxiliary : Auxiliary α) : List (String × Option Json) :=
  [("type", some (.text "aux")), ("ident", some (.text auxiliary.name)),
    ("equation", if auxiliary.text != "" then some (.text auxiliary.text) else none),
    ("ast", auxiliary.equation?.map (Equation.toJson scalar)),
    ("gf", auxiliary.graph?.map (GraphicalFunction.toJson scalar))]

def Module.slots (module : Module) : List (String × Option Json) :=
  [("type", some (.text "module")), ("ident", some (.text module.name)),
    ("model_name", some (.text module.model)),
    ("references", if !module.connections.isEmpty then
      some (.list (module.connections.map Connection.toJson)) else none)]

def Variable.slots : Variable α → List (String × Option Json)
  | stock definition => definition.slots scalar
  | flow definition => definition.slots scalar
  | auxiliary definition => definition.slots scalar
  | module definition => definition.slots

/-- No two slots of a variable have the same name. -/
theorem Variable.nodup_slots (definition : Variable α) :
    ((definition.slots scalar).map Prod.fst).Nodup := by
  cases definition with
  | stock _ =>
    show ["type", "ident", "equation", "ast", "inflows", "outflows", "non_negative"].Nodup
    decide
  | flow _ =>
    show ["type", "ident", "equation", "ast", "gf", "non_negative"].Nodup
    decide
  | auxiliary _ =>
    show ["type", "ident", "equation", "ast", "gf"].Nodup
    decide
  | module _ =>
    show ["type", "ident", "model_name", "references"].Nodup
    decide

/-- The name of a variable's kind. -/
def Variable.kind : Variable α → String
  | stock _ => "stock"
  | flow _ => "flow"
  | auxiliary _ => "aux"
  | module _ => "module"

theorem Variable.required_type (definition : Variable α) :
    Json.required (Json.written (definition.slots scalar)) "type" Json.text? = some definition.kind := by
  have nodup := definition.nodup_slots scalar
  cases definition <;> exact Json.required_written nodup rfl rfl

theorem Variable.toJson_eq (definition : Variable α) :
    definition.toJson scalar = .object (Json.written (definition.slots scalar)) := by
  cases definition <;>
    simp only [toJson, slots, Stock.fields, Stock.slots, Flow.fields, Flow.slots, Auxiliary.fields,
      Auxiliary.slots, Module.fields, Module.slots, Json.written_cons, Json.written_nil, Json.fieldOf_some,
      Json.fieldOf_map, Json.fieldOf_ite, List.append_assoc, List.append_nil] <;> rfl

def Model.slots (model : Model α) : List (String × Option Json) :=
  [("name", some (.text model.name)), ("sim_specs", model.timeSpec?.map (TimeSpec.toJson scalar)),
    ("variables", if !model.definitions.isEmpty then
      some (.list (model.definitions.map (Variable.toJson scalar))) else none)]

theorem Model.toJson_eq (model : Model α) :
    model.toJson scalar = .object (Json.written (model.slots scalar)) := by
  simp only [toJson, slots, Json.written_cons, Json.written_nil, Json.fieldOf_some, Json.fieldOf_map,
    Json.fieldOf_ite, List.append_assoc, List.append_nil]

def Project.slots (project : Project α) : List (String × Option Json) :=
  [("name", if project.name != "" then some (.text project.name) else none),
    ("sim_specs", some (project.timeSpec.toJson scalar)),
    ("models", some (.list (project.models.map (Model.toJson scalar))))]

theorem Project.toJson_eq (project : Project α) :
    project.toJson scalar = .object (Json.written (project.slots scalar)) := by
  simp only [toJson, slots, Json.written_cons, Json.written_nil, Json.fieldOf_some, Json.fieldOf_ite,
    List.append_assoc, List.append_nil]

end Document
end StockFlow
