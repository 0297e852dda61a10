import Mathlib.Data.List.Sort
import StockFlow.Keyed

/-!
# Looking up names

What is found under a name among items, in a keyed list and along a path. Items inserted by name
stay in increasing order, so each name is found once; a path without a dot is its own first step.
-/

namespace StockFlow

variable {β γ : Type}

/-! ## Items with names -/

/-- Items in increasing order of their names. -/
def Ascending (nameOf : β → Name) (items : List β) : Prop :=
  items.Pairwise fun a b => nameOf a < nameOf b

/-- No two items of a list have one name. -/
def Distinct (nameOf : β → Name) (items : List β) : Prop := (items.map nameOf).Nodup

section Items

variable {nameOf : β → Name} {name : Name} {item : β} {items result : List β}

theorem Ascending.distinct (ascending : Ascending nameOf items) : Distinct nameOf items :=
  List.pairwise_map.mpr (ascending.imp String.ne_of_lt)

/-- Items in order of their names are determined by which they are. -/
theorem Ascending.ext (first : Ascending nameOf items) (second : Ascending nameOf result)
    (same : ∀ item, item ∈ items ↔ item ∈ result) : items = result := by
  have irreflexive : Std.Irrefl fun a b : β => nameOf a < nameOf b := ⟨fun _ => String.lt_irrefl _⟩
  have antisymmetric : Std.Antisymm fun a b : β => nameOf a < nameOf b :=
    ⟨fun _ _ less more => absurd (String.lt_trans less more) (String.lt_irrefl _)⟩
  exact first.eq_of_mem_iff second same

theorem Distinct.eq_of_name_eq (distinct : Distinct nameOf items) {a b : β} (first : a ∈ items)
    (second : b ∈ items) (same : nameOf a = nameOf b) : a = b :=
  List.inj_on_of_nodup_map distinct first second same

theorem mem_of_findNamed (found : findNamed nameOf name items = some item) : item ∈ items :=
  List.mem_of_find?_eq_some found

theorem name_of_findNamed (found : findNamed nameOf name items = some item) :
    nameOf item = name := by
  simpa using List.find?_some found

theorem findNamed_eq_none :
    findNamed nameOf name items = none ↔ ∀ item ∈ items, nameOf item ≠ name := by
  simp [findNamed]

theorem findNamed_isSome :
    (findNamed nameOf name items).isSome = true ↔ ∃ item ∈ items, nameOf item = name := by
  simp [findNamed]

theorem exists_findNamed (member : item ∈ items) (named : nameOf item = name) :
    ∃ other, findNamed nameOf name items = some other :=
  Option.isSome_iff_exists.mp (findNamed_isSome.mpr ⟨item, member, named⟩)

theorem findNamed_of_mem (distinct : Distinct nameOf items) (member : item ∈ items) :
    findNamed nameOf (nameOf item) items = some item := by
  cases found : findNamed nameOf (nameOf item) items with
  | none => exact absurd rfl (findNamed_eq_none.mp found item member)
  | some other =>
    rw [distinct.eq_of_name_eq (mem_of_findNamed found) member (name_of_findNamed found)]

theorem findNamed_map {h : β → γ} {nameOf' : γ → Name} (same : ∀ item, nameOf' (h item) = nameOf item) :
    findNamed nameOf' name (items.map h) = (findNamed nameOf name items).map h := by
  simp only [findNamed, List.find?_map, Function.comp_def, same]

theorem findNamed_append {more : List β} (found : findNamed nameOf name items = some item) :
    findNamed nameOf name (items ++ more) = some item := by
  simp only [findNamed] at found ⊢
  rw [List.find?_append, found, Option.some_or]

theorem mem_insertNamed? (inserted : insertNamed? nameOf item items = some result) {other : β} :
    other ∈ result ↔ other = item ∨ other ∈ items := by
  induction items generalizing result with
  | nil =>
    cases inserted
    simp
  | cons head tail ih =>
    unfold insertNamed? at inserted
    split at inserted
    · cases inserted
    · split at inserted
      · cases inserted
        simp
      · obtain ⟨rest, inner, rfl⟩ := Option.map_eq_some_iff.mp inserted
        simp only [List.mem_cons, ih inner]
        exact or_left_comm

theorem Ascending.insertNamed? (ascending : Ascending nameOf items)
    (inserted : insertNamed? nameOf item items = some result) : Ascending nameOf result := by
  induction items generalizing result with
  | nil =>
    cases inserted
    exact List.pairwise_singleton _ _
  | cons head tail ih =>
    obtain ⟨least, rest⟩ := List.pairwise_cons.mp ascending
    unfold StockFlow.insertNamed? at inserted
    split at inserted
    · cases inserted
    · rename_i differs
      split at inserted
      · rename_i less
        cases inserted
        refine List.pairwise_cons.mpr ⟨?_, ascending⟩
        intro other member
        rcases List.mem_cons.mp member with rfl | member
        · exact less
        · exact String.lt_trans less (least other member)
      · rename_i notLess
        obtain ⟨after, inner, rfl⟩ := Option.map_eq_some_iff.mp inserted
        refine List.pairwise_cons.mpr ⟨?_, ih rest inner⟩
        intro other member
        rcases (mem_insertNamed? inner).mp member with rfl | member
        · refine String.not_le.mp fun le => differs ?_
          exact String.le_antisymm le (String.not_lt.mp notLess)
        · exact least other member

theorem exists_insertNamed?_iff (ascending : Ascending nameOf items) :
    (∃ result, StockFlow.insertNamed? nameOf item items = some result) ↔
      ∀ other ∈ items, nameOf other ≠ nameOf item := by
  induction items with
  | nil => simp [StockFlow.insertNamed?]
  | cons head tail ih =>
    obtain ⟨least, rest⟩ := List.pairwise_cons.mp ascending
    rw [List.forall_mem_cons]
    unfold StockFlow.insertNamed?
    split
    · rename_i same
      simp [same]
    · rename_i differs
      split
      · rename_i less
        refine iff_of_true ⟨_, rfl⟩ ⟨Ne.symm differs, fun other member => ?_⟩
        exact (String.ne_of_lt (String.lt_trans less (least other member))).symm
      · rw [and_iff_right (Ne.symm differs), ← ih rest]
        simp [Option.map_eq_some_iff]

theorem insertNamed?_map {h : β → γ} {nameOf' : γ → Name}
    (same : ∀ item, nameOf' (h item) = nameOf item) (item : β) (items : List β) :
    StockFlow.insertNamed? nameOf' (h item) (items.map h) =
      (StockFlow.insertNamed? nameOf item items).map (List.map h) := by
  induction items with
  | nil => rfl
  | cons head tail ih =>
    simp only [List.map_cons, StockFlow.insertNamed?, same, ih]
    split
    · rfl
    · split
      · rfl
      · simp [Function.comp_def]

end Items

/-! ## Keyed lists -/

namespace Keyed

variable {kept : Keyed β} {name : Name} {value : β}

theorem mem_of_get? (found : kept.get? name = some value) : (name, value) ∈ kept := by
  obtain ⟨before, after, split, -⟩ := List.lookup_eq_some_iff.mp found
  simp [split]

theorem mem_put {other : Name × β} (member : other ∈ put name value kept) :
    other = (name, value) ∨ other ∈ kept := by
  induction kept with
  | nil => exact .inl (List.mem_singleton.mp member)
  | cons entry tail ih =>
    unfold put at member
    split at member
    · exact (List.mem_cons.mp member).imp_right (List.mem_cons_of_mem _)
    · split at member
      · exact List.mem_cons.mp member
      · rcases List.mem_cons.mp member with rfl | member
        · exact .inr List.mem_cons_self
        · exact (ih member).imp_right (List.mem_cons_of_mem _)

theorem mem_of_mem_ofList {entries : List (Name × β)} {other : Name × β}
    (member : other ∈ ofList entries) : other ∈ entries := by
  have carried : ∀ (entries : List (Name × β)) (kept : Keyed β),
      other ∈ entries.foldl (fun kept entry => put entry.1 entry.2 kept) kept →
        other ∈ entries ∨ other ∈ kept := by
    intro entries
    induction entries with
    | nil => exact fun kept member => .inr member
    | cons entry rest ih =>
      intro kept member
      rcases ih _ member with later | before
      · exact .inl (List.mem_cons_of_mem _ later)
      · rcases mem_put before with rfl | before
        · exact .inl List.mem_cons_self
        · exact .inr before
  exact (carried entries [] member).resolve_right List.not_mem_nil

theorem isSome_get?_ofList (entries : List (Name × β)) (name : Name) :
    ((ofList entries).get? name).isSome = entries.any fun entry => entry.1 == name := by
  have carried : ∀ (entries : List (Name × β)) (kept : Keyed β),
      ((entries.foldl (fun kept entry => put entry.1 entry.2 kept) kept).get? name).isSome =
        ((entries.any fun entry => entry.1 == name) || (kept.get? name).isSome) := by
    intro entries
    induction entries with
    | nil => simp
    | cons entry rest ih =>
      intro kept
      rw [List.foldl_cons, ih, get?_put, List.any_cons]
      by_cases same : name = entry.1
      · simp [same]
      · simp [same, beq_false_of_ne (Ne.symm same)]
  rw [ofList, carried]
  simp [get?]

theorem get?_eq_none : kept.get? name = none ↔ ∀ entry ∈ kept, entry.1 ≠ name := by
  simp only [get?, List.lookup_eq_none_iff, bne_iff_ne]
  exact forall₂_congr fun _ _ => ne_comm

theorem get?_of_mem (distinct : Distinct Prod.fst kept) (member : (name, value) ∈ kept) :
    kept.get? name = some value := by
  cases found : kept.get? name with
  | none => exact absurd rfl (get?_eq_none.mp found _ member)
  | some other =>
    have same := distinct.eq_of_name_eq (mem_of_get? found) member rfl
    cases same
    rfl

theorem get?_map {f : Name → β → γ} :
    get? (kept.map fun entry => (entry.1, f entry.1 entry.2)) name = (kept.get? name).map (f name) := by
  induction kept with
  | nil => rfl
  | cons entry tail ih =>
    obtain ⟨head, value⟩ := entry
    simp only [get?, List.map_cons, List.lookup_cons] at ih ⊢
    cases same : name == head with
    | true => simp [beq_iff_eq.mp same]
    | false => exact ih

theorem get?_of_items {nameOf : γ → Name} {f : γ → β} (items : List γ) (name : Name) :
    get? (items.map fun item => (nameOf item, f item)) name = (findNamed nameOf name items).map f := by
  induction items with
  | nil => rfl
  | cons first rest ih =>
    unfold get? findNamed at ih ⊢
    rw [List.map_cons, List.lookup_cons, List.find?_cons, Bool.beq_comm (a := name), ih]
    cases nameOf first == name <;> rfl

end Keyed

/-! ## Sets of names -/

namespace NameSet

theorem ascending_insert {name : Name} {set : NameSet} (ascending : Ascending id set) :
    Ascending id (insert name set) := by
  induction set with
  | nil => exact List.pairwise_singleton _ _
  | cons head tail ih =>
    obtain ⟨least, rest⟩ := List.pairwise_cons.mp ascending
    unfold insert
    split
    · exact ascending
    · rename_i differs
      split
      · rename_i less
        refine List.pairwise_cons.mpr ⟨List.forall_mem_cons.mpr ⟨less, ?_⟩, ascending⟩
        exact fun other member => String.lt_trans less (least other member)
      · rename_i notLess
        refine List.pairwise_cons.mpr ⟨fun other member => ?_, ih rest⟩
        rcases mem_insert.mp member with rfl | member
        · refine String.not_le.mp fun le => differs ?_
          exact String.le_antisymm le (String.not_lt.mp notLess)
        · exact least other member

theorem ascending_ofList (names : List Name) : Ascending id (ofList names) := by
  have start : Ascending id ([] : NameSet) := .nil
  unfold ofList insertAll
  generalize ([] : NameSet) = set at start
  induction names generalizing set with
  | nil => exact start
  | cons name rest ih => exact ih _ (ascending_insert start)

/-- Sets of the same names are equal. -/
theorem ofList_congr {names others : List Name} (same : ∀ name, name ∈ names ↔ name ∈ others) :
    ofList names = ofList others :=
  (ascending_ofList names).ext (ascending_ofList others) fun name => by
    rw [mem_ofList, mem_ofList, same]

end NameSet

end StockFlow
