import Mathlib.Data.List.Nodup
import StockFlow.Plan.Instance
import StockFlow.Proofs.Names
import StockFlow.Proofs.Paths

/-!
# Trees of instances

What a path leads to does not depend on the notes of a tree. The slots of an instance's own variables
and the blocks of the instances below it divide its block, so each slot of the block belongs to one
name; only the slot of the time belongs to none.
-/

namespace StockFlow.Instance

variable {β γ : Type}

/-! ## Shapes -/

mutual

/-- A tree of instances without its notes. -/
def shape : Instance β → Instance Unit
  | ⟨name, model, shift, size, slots, _, children⟩ =>
    ⟨name, model, shift, size, slots, (), shapes children⟩

/-- Trees of instances without their notes. -/
def shapes : List (Instance β) → List (Instance Unit)
  | [] => []
  | first :: rest => first.shape :: shapes rest

end

theorem shapes_eq_map (nodes : List (Instance β)) : shapes nodes = nodes.map shape := by
  induction nodes with
  | nil => rfl
  | cons first rest ih => rw [shapes, List.map_cons, ih]

section

variable {node : Instance β} {other : Instance γ} (same : node.shape = other.shape)
include same

theorem slots_eq_of_shape : node.slots = other.slots := by
  cases node
  cases other
  injection same

theorem size_eq_of_shape : node.size = other.size := by
  cases node
  cases other
  injection same

theorem shift_eq_of_shape : node.shift = other.shift := by
  cases node
  cases other
  injection same

theorem children_eq_of_shape : node.children.map shape = other.children.map shape := by
  cases node
  cases other
  rw [← shapes_eq_map, ← shapes_eq_map]
  injection same

end

theorem names_shapes (nodes : List (Instance β)) :
    (nodes.map shape).map Instance.name = nodes.map Instance.name := by
  rw [List.map_map]
  refine List.map_congr_left fun node _ => ?_
  cases node
  rfl

/-! ## Looking up paths -/

theorem childSlot?_eq (children : List (Instance β)) (name : Name) (path : Path) :
    childSlot? children name path = (findNamed Instance.name name children).bind (·.slot? path) := by
  induction children with
  | nil => rfl
  | cons first rest ih =>
    unfold childSlot? findNamed
    rw [List.find?_cons]
    split
    · rename_i same
      simp [same]
    · rename_i differ
      rw [ih, findNamed, beq_eq_false_iff_ne.mpr differ]

/-- The slot that a path without a mark leads to, where `time` is a name like any other. -/
def locate? (node : Instance β) (path : Path) : Option Nat :=
  match node.slots.get? path with
  | some slot => some slot
  | none =>
    if path = "" then node.slots.get? node.name
    else (node.child? (Path.split path).1).bind (·.slot? ((Path.split path).2.getD ""))

theorem slot?_eq (node : Instance β) (path : Path) :
    node.slot? path = if path = "time" then some timeSlot else node.locate? (Path.unmarked path) := by
  cases node with
  | mk name _ _ _ slots _ children =>
    cases own : slots.get? (Path.unmarked path) <;>
      simp [slot?, locate?, child?, childSlot?_eq, own]

theorem slot?_own {node : Instance β} {name : Name} {slot : Nat} (plain : ¬ Path.IsDotted name)
    (notTime : name ≠ "time") (found : node.slots.get? name = some slot) :
    node.slot? name = some slot := by
  rw [slot?_eq, if_neg notTime, Path.unmarked_of_not_dotted plain, locate?, found]

theorem locate?_cases {node : Instance β} {path : Path} {slot : Nat}
    (located : node.locate? path = some slot) :
    (∃ name, node.slots.get? name = some slot) ∨
      ∃ name child rest, node.child? name = some child ∧ child.slot? rest = some slot := by
  unfold locate? at located
  split at located
  · rename_i found
    cases located
    exact .inl ⟨path, found⟩
  · split at located
    · exact .inl ⟨_, located⟩
    · obtain ⟨child, found, below⟩ := Option.bind_eq_some_iff.mp located
      exact .inr ⟨_, child, _, found, below⟩

theorem locate?_eq_some {node : Instance β} {path : Path} {slot : Nat}
    (absent : node.slots.get? path = none) (named : path ≠ "") :
    node.locate? path = some slot ↔ ∃ child, node.child? (Path.split path).1 = some child ∧
      child.slot? ((Path.split path).2.getD "") = some slot := by
  rw [locate?, absent, if_neg named, Option.bind_eq_some_iff]

/-- Behind the name of an instance a path goes on in that instance, unless a variable has the whole path
for its name. -/
theorem slot?_child {node child : Instance β} {name : Name} {rest : Path} (named : name ≠ "")
    (undotted : ¬ Path.IsDotted name) (visible : node.slots.get? (name ++ "." ++ rest) = none)
    (inside : node.child? name = some child) : node.slot? (name ++ "." ++ rest) = child.slot? rest := by
  have whole : (name ++ "." ++ rest).toList = name.toList ++ '.' :: rest.toList := by
    simp [String.toList_append]
  have dotted : Path.IsDotted (name ++ "." ++ rest) := by simp [Path.IsDotted, whole]
  have split := Path.split_of_append undotted whole
  have head : Path.head (name ++ "." ++ rest) ≠ "" := by rwa [Path.head, split]
  have notTime : name ++ "." ++ rest ≠ "time" := by
    intro same
    rw [same] at dotted
    exact absurd dotted (by decide)
  have notEmpty : name ++ "." ++ rest ≠ "" := by
    intro same
    rw [same] at dotted
    exact absurd dotted (by decide)
  rw [slot?_eq, if_neg notTime, Path.unmarked_of_head head, locate?, visible, if_neg notEmpty, split, inside]
  rfl

theorem locate?_isSome_iff {node : Instance β} {path : Path} : (node.locate? path).isSome = true ↔
    (node.slots.get? path).isSome = true ∨
      path = "" ∧ (node.slots.get? node.name).isSome = true ∨
      path ≠ "" ∧ ∃ child, node.child? (Path.head path) = some child ∧
        (child.slot? ((Path.split path).2.getD "")).isSome = true := by
  unfold locate? Path.head
  cases own : node.slots.get? path with
  | some slot => simp
  | none =>
    by_cases ends : path = ""
    · simp [ends]
    · cases inside : node.child? (Path.split path).1 <;> simp [ends]

mutual

theorem slot?_shape : ∀ (node : Instance β) (path : Path), node.shape.slot? path = node.slot? path
  | ⟨_, _, _, _, _, _, children⟩, path => by
    unfold shape slot?
    simp only [childSlot?_shapes children]

theorem childSlot?_shapes : ∀ (children : List (Instance β)) (name : Name) (path : Path),
    childSlot? (shapes children) name path = childSlot? children name path
  | [], _, _ => rfl
  | first :: rest, name, path => by
    have named : first.shape.name = first.name := by
      cases first
      rfl
    unfold shapes childSlot?
    rw [named, slot?_shape first, childSlot?_shapes rest]

end

theorem slot?_eq_of_shape {node : Instance β} {other : Instance γ} (same : node.shape = other.shape)
    (path : Path) : node.slot? path = other.slot? path := by
  rw [← slot?_shape, same, slot?_shape]

section

variable {node : Instance β} {path : Path} {slot : Nat}

theorem name_of_child? {name : Name} {child : Instance β} (found : node.child? name = some child) :
    child.name = name :=
  name_of_findNamed found

theorem mem_of_child? {name : Name} {child : Instance β} (found : node.child? name = some child) :
    child ∈ node.children :=
  mem_of_findNamed found

end

/-! ## Blocks -/

/-- Whether a slot lies in the block of an instance. -/
def Owns (node : Instance β) (slot : Nat) : Prop :=
  node.shift ≤ slot ∧ slot < node.shift + node.size

/-- Whether the blocks of instances follow each other from a first slot up to a last one. -/
def Stacked : Nat → List (Instance β) → Nat → Prop
  | first, [], last => first = last
  | first, node :: rest, last => node.shift = first ∧ Stacked (first + node.size) rest last

section Stacked

variable {nodes : List (Instance β)} {first last slot : Nat}

theorem Stacked.le (stacked : Stacked first nodes last) : first ≤ last := by
  induction nodes generalizing first with
  | nil => exact Nat.le_of_eq stacked
  | cons node rest ih => exact Nat.le_trans (Nat.le_add_right ..) (ih stacked.2)

theorem Stacked.bounds (stacked : Stacked first nodes last) {node : Instance β}
    (member : node ∈ nodes) (owned : node.Owns slot) : first ≤ slot ∧ slot < last := by
  induction nodes generalizing first with
  | nil => cases member
  | cons head rest ih =>
    obtain ⟨rfl, others⟩ := stacked
    rcases List.mem_cons.mp member with rfl | member
    · exact ⟨owned.1, Nat.lt_of_lt_of_le owned.2 others.le⟩
    · have inner := ih others member
      exact ⟨Nat.le_trans (Nat.le_add_right ..) inner.1, inner.2⟩

theorem Stacked.le_shift (stacked : Stacked first nodes last) {node : Instance β}
    (member : node ∈ nodes) : first ≤ node.shift := by
  induction nodes generalizing first with
  | nil => cases member
  | cons head rest ih =>
    obtain ⟨rfl, others⟩ := stacked
    rcases List.mem_cons.mp member with rfl | member
    · exact Nat.le_refl _
    · exact Nat.le_trans (Nat.le_add_right ..) (ih others member)

theorem Stacked.unique (stacked : Stacked first nodes last) {node other : Instance β}
    (one : node ∈ nodes) (two : other ∈ nodes) (owned : node.Owns slot) (also : other.Owns slot) :
    node = other := by
  induction nodes generalizing first with
  | nil => cases one
  | cons head rest ih =>
    obtain ⟨rfl, others⟩ := stacked
    rcases List.mem_cons.mp one with here | one <;> rcases List.mem_cons.mp two with there | two
    · rw [here, there]
    · exact absurd (here ▸ owned).2 (Nat.not_lt.mpr (others.bounds two also).1)
    · exact absurd (there ▸ also).2 (Nat.not_lt.mpr (others.bounds one owned).1)
    · exact ih others one two

theorem Stacked.exists_owner (stacked : Stacked first nodes last) (above : first ≤ slot)
    (below : slot < last) : ∃ node ∈ nodes, node.Owns slot := by
  induction nodes generalizing first with
  | nil =>
    have : first = last := stacked
    omega
  | cons head rest ih =>
    obtain ⟨rfl, others⟩ := stacked
    by_cases inside : slot < head.shift + head.size
    · exact ⟨head, List.mem_cons_self, above, inside⟩
    · obtain ⟨node, member, owned⟩ := ih others (Nat.not_lt.mp inside)
      exact ⟨node, List.mem_cons_of_mem _ member, owned⟩

end Stacked

theorem stacked_shape {nodes : List (Instance β)} {first last : Nat} :
    Stacked first (nodes.map shape) last ↔ Stacked first nodes last := by
  induction nodes generalizing first with
  | nil => rfl
  | cons node rest ih =>
    cases node
    exact and_congr_right fun _ => ih

/-- Whether a slot is that of the variable of a name, or lies in the block of the instance of that
name. -/
def Belongs (node : Instance β) (name : Name) (slot : Nat) : Prop :=
  node.slots.get? name = some slot ∨ ∃ child, node.child? name = some child ∧ child.Owns slot

/-- Whether the own slots of an instance, numbered from `first` on, and then the blocks of those
below it fill its block. Only the slot of the time may stand before them. -/
structure Tidy (node : Instance β) (first : Nat) : Prop where
  names : Distinct Prod.fst node.slots
  modules : Distinct Instance.name node.children
  numbered : node.slots.map Prod.snd = List.range' first node.slots.length
  stacked : Stacked (first + node.slots.length) node.children (node.shift + node.size)
  late : timeSlot < first
  shift_le : node.shift ≤ first
  reserved : ∀ slot, node.shift ≤ slot → slot < first → slot = timeSlot

namespace Tidy

variable {node child : Instance β} {first slot : Nat} {name other : Name}

theorem child?_of_mem (tidy : node.Tidy first) (member : child ∈ node.children) :
    node.child? child.name = some child :=
  findNamed_of_mem tidy.modules member

theorem bounds_of_get? (tidy : node.Tidy first) (found : node.slots.get? name = some slot) :
    first ≤ slot ∧ slot < first + node.slots.length := by
  have listed : slot ∈ node.slots.map Prod.snd :=
    List.mem_map_of_mem (f := Prod.snd) (Keyed.mem_of_get? found)
  rwa [tidy.numbered, List.mem_range'_1] at listed

theorem owns (tidy : node.Tidy first) (belongs : node.Belongs name slot) :
    node.Owns slot ∧ timeSlot < slot := by
  have late := tidy.late
  have start := tidy.shift_le
  have enough := tidy.stacked.le
  rcases belongs with found | ⟨child, found, owned⟩
  · have := tidy.bounds_of_get? found
    exact ⟨⟨by omega, by omega⟩, by omega⟩
  · have := tidy.stacked.bounds (mem_of_child? found) owned
    exact ⟨⟨by omega, by omega⟩, by omega⟩

theorem unique (tidy : node.Tidy first) (one : node.Belongs name slot)
    (two : node.Belongs other slot) : name = other := by
  rcases one with found | ⟨child, found, owned⟩ <;> rcases two with also | ⟨sibling, also, within⟩
  · have entries : (node.slots.map Prod.snd).Nodup := tidy.numbered ▸ List.nodup_range'
    have same := List.inj_on_of_nodup_map entries (Keyed.mem_of_get? found) (Keyed.mem_of_get? also) rfl
    exact congrArg Prod.fst same
  · have := tidy.bounds_of_get? found
    have := tidy.stacked.bounds (mem_of_child? also) within
    omega
  · have := tidy.bounds_of_get? also
    have := tidy.stacked.bounds (mem_of_child? found) owned
    omega
  · rw [← name_of_child? found, ← name_of_child? also,
      tidy.stacked.unique (mem_of_child? found) (mem_of_child? also) owned within]

theorem exists_belongs (tidy : node.Tidy first) (owned : node.Owns slot) :
    slot = timeSlot ∨ ∃ name, node.Belongs name slot := by
  by_cases early : slot < first
  · exact .inl (tidy.reserved slot owned.1 early)
  right
  by_cases own : slot < first + node.slots.length
  · have listed : slot ∈ node.slots.map Prod.snd := by
      rw [tidy.numbered, List.mem_range'_1]
      omega
    obtain ⟨⟨name, _⟩, member, rfl⟩ := List.mem_map.mp listed
    exact ⟨name, .inl (Keyed.get?_of_mem tidy.names member)⟩
  · obtain ⟨child, member, within⟩ := tidy.stacked.exists_owner (by omega) owned.2
    exact ⟨child.name, .inr ⟨child, tidy.child?_of_mem member, within⟩⟩

theorem of_shape {node : Instance γ} {other : Instance β} (tidy : node.Tidy first)
    (same : node.shape = other.shape) : other.Tidy first := by
  have slots := slots_eq_of_shape same
  have size := size_eq_of_shape same
  have shift := shift_eq_of_shape same
  have children := children_eq_of_shape same
  refine ⟨slots ▸ tidy.names, ?_, slots ▸ tidy.numbered, ?_, tidy.late, shift ▸ tidy.shift_le,
    shift ▸ tidy.reserved⟩
  · rw [Distinct, ← names_shapes, ← children, names_shapes]
    exact tidy.modules
  · rw [← stacked_shape, ← children, stacked_shape, ← slots, ← shift, ← size]
    exact tidy.stacked

end Tidy
end StockFlow.Instance
