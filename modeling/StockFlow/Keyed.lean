import StockFlow.Name

/-!
# Sets of names, values kept under names, and items with names

All are lists in increasing order of names without repetition, so that equal contents are equal
data whatever the order of insertion. Names are ordered character by character.
-/

namespace StockFlow

abbrev NameSet := List Name

namespace NameSet

def insert (name : Name) : NameSet → NameSet
  | [] => [name]
  | head :: tail =>
    if name = head then head :: tail
    else if name < head then name :: head :: tail
    else head :: insert name tail

def insertAll (names : List Name) (set : NameSet) : NameSet :=
  names.foldl (fun set name => insert name set) set

def ofList (names : List Name) : NameSet := insertAll names []

theorem mem_insert {name other : Name} {set : NameSet} :
    other ∈ insert name set ↔ other = name ∨ other ∈ set := by
  induction set with
  | nil => simp [insert]
  | cons head tail ih =>
    unfold insert
    split
    · subst_vars; simp
    · split
      · simp
      · simp only [List.mem_cons, ih]
        exact ⟨fun h => h.elim (fun h => .inr (.inl h)) (fun h => h.imp_right .inr),
          fun h => h.elim (fun h => .inr (.inl h)) (fun h => h.imp_right .inr)⟩

theorem mem_insertAll {names : List Name} {other : Name} {set : NameSet} :
    other ∈ insertAll names set ↔ other ∈ names ∨ other ∈ set := by
  induction names generalizing set with
  | nil => simp [insertAll]
  | cons name rest ih =>
    have step : insertAll (name :: rest) set = insertAll rest (insert name set) := rfl
    rw [step, ih, mem_insert, List.mem_cons]
    exact ⟨fun h => h.elim (fun h => .inl (.inr h)) (fun h => h.imp_left .inl),
      fun h => h.elim (fun h => h.elim (fun h => .inr (.inl h)) .inl) (fun h => .inr (.inr h))⟩

theorem mem_ofList {names : List Name} {other : Name} : other ∈ ofList names ↔ other ∈ names := by
  simp [ofList, mem_insertAll]

end NameSet

/-- Values kept under names, in increasing order of the names. -/
abbrev Keyed (β : Type) := List (Name × β)

namespace Keyed

variable {β : Type}

/-- Keeps a value under a name, in place of what was kept there. -/
def put (name : Name) (value : β) : Keyed β → Keyed β
  | [] => [(name, value)]
  | (head, kept) :: tail =>
    if name = head then (name, value) :: tail
    else if name < head then (name, value) :: (head, kept) :: tail
    else (head, kept) :: put name value tail

/-- Keeps the values of a list; of two under one name the later stays. -/
def ofList (entries : List (Name × β)) : Keyed β :=
  entries.foldl (fun kept entry => put entry.1 entry.2 kept) []

def get? (kept : Keyed β) (name : Name) : Option β := List.lookup name kept

/-- What was kept last under a name is found there, and nothing else changes. -/
theorem get?_put {name other : Name} {value : β} {kept : Keyed β} :
    (kept.put name value).get? other = if other = name then some value else kept.get? other := by
  unfold get?
  induction kept with
  | nil => grind [put]
  | cons entry tail ih => grind [put]

end Keyed

/-! ## Items with names -/

def findNamed {β : Type} (nameOf : β → Name) (name : Name) (items : List β) : Option β :=
  items.find? fun item => nameOf item == name

/-- Puts an item into its place among items in order of names; none if its name is taken. -/
def insertNamed? {β : Type} (nameOf : β → Name) (item : β) : List β → Option (List β)
  | [] => some [item]
  | head :: tail =>
    if nameOf item = nameOf head then none
    else if nameOf item < nameOf head then some (item :: head :: tail)
    else (insertNamed? nameOf item tail).map (head :: ·)

end StockFlow
