import Mathlib.Data.List.Basic
import StockFlow.Proofs.Declarations

/-!
# Identifiers

Names of lowercase letters, digits and underscores are their own canonical forms, and so are the names
that calls make of them. A renaming of identifiers extends to those made names: it takes the owner's name
in each to the owner's new name, tells all names apart that it told apart, and keeps how paths split.
-/

namespace StockFlow

/-! ## Canonical forms -/

namespace Name

/-- The characters of identifiers. -/
def letters : List Char := "abcdefghijklmnopqrstuvwxyz0123456789_".toList

/-- The characters of identifiers, of the names made from them and of paths. -/
def tame : List Char := '$' :: '·' :: '.' :: letters

/-- Whether a name is one that a variable may bear without being written in any special way. -/
structure IsIdentifier (name : Name) : Prop where
  nonempty : name ≠ ""
  spelled : ∀ c ∈ name.toList, c ∈ letters
  unreserved : isReserved name = false

/-- Whether something holds of all characters of a list is told by going through the list. -/
theorem all_iff_forall_mem {cs : List Char} {p : Char → Prop} [DecidablePred p] :
    (cs.all fun c => p c) = true ↔ ∀ c ∈ cs, p c := by
  simp only [List.all_eq_true, decide_eq_true_eq]

instance : DecidablePred IsIdentifier := fun name =>
  decidable_of_iff
    (name ≠ "" ∧ (name.toList.all fun c => c ∈ letters) = true ∧ isReserved name = false)
    ⟨fun ⟨nonempty, spelled, unreserved⟩ => ⟨nonempty, all_iff_forall_mem.mp spelled, unreserved⟩,
      fun ⟨nonempty, spelled, unreserved⟩ => ⟨nonempty, all_iff_forall_mem.mpr spelled, unreserved⟩⟩

/-- Whether all characters of a name are tame. -/
def IsTame (name : String) : Prop := ∀ c ∈ name.toList, c ∈ tame

instance : DecidablePred IsTame := fun name =>
  decidable_of_iff ((name.toList.all fun c => c ∈ tame) = true) all_iff_forall_mem

theorem IsTame.append {first second : String} (one : IsTame first) (two : IsTame second) :
    IsTame (first ++ second) := by
  unfold IsTame
  rw [String.toList_append]
  exact List.forall_mem_append.mpr ⟨one, two⟩

theorem IsIdentifier.isTame {name : Name} (identifier : name.IsIdentifier) : IsTame name :=
  fun c member => List.mem_cons_of_mem _ (List.mem_cons_of_mem _ (List.mem_cons_of_mem _
    (identifier.spelled c member)))

theorem IsIdentifier.notMem {name : Name} (identifier : name.IsIdentifier) {c : Char}
    (strange : c ∉ letters) : c ∉ name.toList := fun member => strange (identifier.spelled c member)

theorem IsIdentifier.isPlain {name : Name} (identifier : name.IsIdentifier) : name.IsPlain :=
  ⟨identifier.nonempty, identifier.notMem (by decide), (Bool.or_eq_false_iff.mp identifier.unreserved).1⟩

section

variable {cs : List Char} (spelled : ∀ c ∈ cs, c ∈ tame)
include spelled

theorem trimEnds_eq_self : Text.trimEnds Text.isBlank cs = cs := by
  have dropped : ∀ {cs : List Char}, (∀ c ∈ cs, c ∈ tame) → cs.dropWhile Text.isBlank = cs := by
    intro cs spelled
    have clear : ∀ c ∈ tame, Text.isBlank c = false := all_iff_forall_mem.mp (by decide)
    cases cs with
    | nil => rfl
    | cons c rest => rw [List.dropWhile_cons_of_neg (by simp [clear c (spelled c List.mem_cons_self)])]
  rw [Text.trimEnds, dropped spelled, dropped (by simpa using spelled), List.reverse_reverse]

theorem unquote_eq_self : unquote cs = cs := by
  unfold unquote
  split
  · exact absurd (spelled _ List.mem_cons_self) (by decide)
  · rfl

theorem unescape_eq_self : unescape cs = cs := by
  fun_induction unescape cs with
  | case1 rest ih => exact absurd (spelled _ List.mem_cons_self) (by decide)
  | case2 c rest _ ih => rw [ih (List.forall_mem_cons.mp spelled).2]
  | case3 => rfl

theorem joinWords_eq_self : joinWords cs = cs := by
  fun_induction joinWords cs with
  | case1 rest ih => exact absurd (spelled _ List.mem_cons_self) (by decide)
  | case2 rest ih => exact absurd (spelled _ List.mem_cons_self) (by decide)
  | case3 c rest _ _ ih =>
    have kept : ∀ c ∈ tame, ¬ (c = '\n' ∨ c = '\r' ∨ c = ' ' ∨ c.toNat = 0xA0) :=
      all_iff_forall_mem.mp (by decide)
    rw [ih (List.forall_mem_cons.mp spelled).2, if_neg (kept c (spelled c List.mem_cons_self))]
  | case4 => rfl

theorem lowercaseAfter_eq_self {before : List Char} : Text.lowercaseAfter before cs = cs := by
  induction cs generalizing before with
  | nil => rfl
  | cons c rest ih =>
    have kept : ∀ c ∈ tame, c ≠ 'Σ' ∧ c ≠ 'İ' ∧ LetterCase.lowercase c = c :=
      all_iff_forall_mem.mp (by decide)
    obtain ⟨here, others⟩ := List.forall_mem_cons.mp spelled
    obtain ⟨notSigma, notDotted, same⟩ := kept c here
    rw [Text.lowercaseAfter, ih others, Text.lowercaseBetween, if_neg notSigma, if_neg notDotted, same]
    rfl

end

/-- A name of tame characters is its own canonical form. -/
theorem IsTame.canonical_eq {name : String} (isTame : IsTame name) : canonical name = name := by
  rw [canonical, trimEnds_eq_self isTame, unquote_eq_self isTame, unescape_eq_self isTame,
    joinWords_eq_self isTame, Text.lowercase, String.toList_ofList, lowercaseAfter_eq_self isTame,
    String.ofList_toList]

theorem canonical_of_isReserved {name : Name} (reserved : isReserved name = true) :
    canonical name = name := by
  rcases Bool.or_eq_true_iff.mp reserved with primitive | clocked
  · exact canonical_of_isPrimitive primitive
  · obtain ⟨clock, found⟩ := Option.isSome_iff_exists.mp clocked
    exact ClockReference.canonical_of_ofName? found

theorem isReserved_of_cons_dollar {name : Name} {cs : List Char} (starts : name.toList = '$' :: cs) :
    isReserved name = false := by
  refine Bool.or_eq_false_iff.mpr ⟨Bool.eq_false_iff.mpr fun primitive => ?_, ?_⟩
  · obtain ⟨entry, member, rfl⟩ := mem_names_of_isPrimitive primitive
    exact Primitive.head_ne_dollar entry member (by rw [starts]; rfl)
  · rw [ClockReference.ofName?_of_cons_dollar starts]
    rfl

/-! ## Names made for calls -/

/-- A name made for a call in the equation of a variable. -/
def made (owner rest : String) : Name := "$·" ++ owner ++ "·" ++ rest

/-- A name with the identifier in it renamed: in a name made for a call that is the owner's. -/
def relabel (f : Name → Name) (name : Name) : Name :=
  match Path.after? "$·" name with
  | some whole =>
    let (owner, rest) := whole.toList.span (· ≠ '·')
    "$·" ++ f (String.ofList owner) ++ String.ofList rest
  | none => f name

theorem toList_made (owner rest : String) :
    (made owner rest).toList = '$' :: '·' :: (owner.toList ++ '·' :: rest.toList) := by
  simp [made, String.toList_append]

theorem made_append (owner rest more : String) : made owner rest ++ more = made owner (rest ++ more) :=
  String.append_assoc

theorem span_mark {cs rest : List Char} (clear : '·' ∉ cs) :
    (cs ++ '·' :: rest).span (· ≠ '·') = (cs, '·' :: rest) := by
  have stops : ∀ c ∈ cs, decide (c ≠ '·') = true := fun c member =>
    decide_eq_true fun same => clear (same ▸ member)
  rw [List.span_eq_takeWhile_dropWhile, List.takeWhile_append_of_pos stops,
    List.dropWhile_append_of_pos stops]
  simp

/-- A made name tells its owner's name and what it was made for. -/
theorem made_inj {owner other rest rest' : String} (clear : '·' ∉ owner.toList)
    (clear' : '·' ∉ other.toList) (same : made owner rest = made other rest') :
    owner = other ∧ rest = rest' := by
  have letters := congrArg String.toList same
  rw [toList_made, toList_made, List.cons.injEq, List.cons.injEq] at letters
  have parts := congrArg (List.span (· ≠ '·')) letters.2.2
  rw [span_mark clear, span_mark clear'] at parts
  obtain ⟨first, last⟩ := Prod.mk.inj parts
  exact ⟨String.toList_inj.mp first, String.toList_inj.mp (List.tail_eq_of_cons_eq last)⟩

theorem relabel_made {f : Name → Name} {owner rest : String} (clear : '·' ∉ owner.toList) :
    relabel f (made owner rest) = made (f owner) rest := by
  have starts : Path.after? "$·" (made owner rest) = some (owner ++ "·" ++ rest) :=
    Path.after?_eq_some.mpr (by simp [made, String.toList_append])
  have letters : (owner ++ "·" ++ rest).toList = owner.toList ++ '·' :: rest.toList := by
    simp [String.toList_append]
  rw [relabel, starts]
  dsimp only
  rw [letters, span_mark clear]
  refine String.toList_inj.mp ?_
  simp [made, String.toList_append]

theorem relabel_of_head {f : Name → Name} {name : Name} (plain : name.toList.head? ≠ some '$') :
    relabel f name = f name := by
  have absent : Path.after? "$·" name = none := by
    refine Option.eq_none_iff_forall_ne_some.mpr fun rest found => plain ?_
    rw [Path.after?_eq_some.mp found]
    rfl
  rw [relabel, absent]

theorem not_isDotted_of_isReserved {name : Name} (reserved : isReserved name = true) : ¬ Path.IsDotted name := by
  rcases Bool.or_eq_true_iff.mp reserved with primitive | clocked
  · have undotted : ∀ entry ∈ Primitive.names, ¬ Path.IsDotted entry.1 := by decide
    obtain ⟨entry, member, rfl⟩ := mem_names_of_isPrimitive primitive
    exact undotted entry member
  · have undotted : ∀ entry ∈ [("time", ClockReference.time), ("dt", .step), ("initial_time", .start),
        ("final_time", .stop)], ¬ Path.IsDotted entry.1 := by decide
    obtain ⟨clock, found⟩ := Option.isSome_iff_exists.mp clocked
    exact undotted _ (Keyed.mem_of_get? found)

theorem isDotted_made {owner rest : String} (undotted : ¬ Path.IsDotted owner) :
    Path.IsDotted (made owner rest) ↔ Path.IsDotted rest := by
  have apart : '.' ∉ owner.toList := undotted
  rw [Path.IsDotted, toList_made]
  simp [apart, Path.IsDotted]

/-! ## Renaming -/

/-- Whether a map renames some identifiers to identifiers, different ones to different ones, and leaves
alone all names that are reserved, however they are written. -/
structure Renames (f : Name → Name) (known : Name → Prop) : Prop where
  reserved : ∀ name, isReserved (canonical name) = true → f name = name
  identifier : ∀ name, known name → name.IsIdentifier
  renamed : ∀ name, known name → (f name).IsIdentifier
  injective : ∀ name other, known name → known other → f name = f other → name = other

/-- Whether a canonical name is reserved, one of some identifiers, or made from one for a call. -/
inductive Derives (known : Name → Prop) : Name → Prop
  | reserved {name : Name} (reserved : isReserved name = true) : Derives known name
  | own {name : Name} (own : known name) : Derives known name
  | made {owner rest : String} (own : known owner) (isTame : IsTame rest) :
    Derives known (made owner rest)

variable {f : Name → Name} {known : Name → Prop}

namespace Renames

variable (renames : Renames f known) {name owner rest : String}
include renames

theorem clear (own : known owner) : '·' ∉ owner.toList := (renames.identifier owner own).notMem (by decide)

theorem clear' (own : known owner) : '·' ∉ (f owner).toList := (renames.renamed owner own).notMem (by decide)

theorem identifier' : ∀ name, (∃ old, known old ∧ f old = name) → name.IsIdentifier := by
  rintro _ ⟨old, own, rfl⟩
  exact renames.renamed old own

theorem relabel_written (reserved : isReserved (canonical name) = true) : relabel f name = name := by
  refine (relabel_of_head fun starts => ?_).trans (renames.reserved name reserved)
  obtain ⟨cs, whole⟩ := List.head?_eq_some_iff.mp starts
  obtain ⟨rest, canonical⟩ := canonical_cons_dollar whole
  rw [isReserved_of_cons_dollar canonical] at reserved
  cases reserved

theorem relabel_reserved (reserved : isReserved name = true) : relabel f name = name :=
  renames.relabel_written (by rwa [canonical_of_isReserved reserved])

theorem relabel_own (own : known name) : relabel f name = f name :=
  relabel_of_head fun starts => (renames.identifier name own).notMem (by decide : '$' ∉ letters)
    (List.mem_of_mem_head? starts)

theorem relabel_made (own : known owner) : relabel f (made owner rest) = made (f owner) rest :=
  Name.relabel_made (renames.clear own)

/-- A name that is renamed to a made one was made alike. -/
theorem eq_made (derives : Derives known name) (own : known owner)
    (same : relabel f name = made (f owner) rest) : name = made owner rest := by
  cases derives with
  | reserved reserved =>
    rw [renames.relabel_reserved reserved] at same
    rw [isReserved_of_cons_dollar (same ▸ toList_made ..)] at reserved
    cases reserved
  | own here =>
    rw [renames.relabel_own here] at same
    refine absurd ?_ ((renames.renamed name here).notMem (by decide : '$' ∉ letters))
    rw [same, toList_made]
    exact List.mem_cons_self
  | made here =>
    rw [renames.relabel_made here] at same
    obtain ⟨first, rfl⟩ := made_inj (renames.clear' here) (renames.clear' own) same
    rw [renames.injective _ _ here own first]

end Renames

namespace Derives

variable {name other : Name}

/-- A renaming takes names derived from identifiers to names derived from the new identifiers. -/
theorem relabel (derives : Derives known name) (renames : Renames f known) :
    Derives (fun name => ∃ old, known old ∧ f old = name) (relabel f name) := by
  cases derives with
  | reserved reserved =>
    rw [renames.relabel_reserved reserved]
    exact .reserved reserved
  | own own =>
    rw [renames.relabel_own own]
    exact .own ⟨name, own, rfl⟩
  | made own isTame =>
    rw [renames.relabel_made own]
    exact .made ⟨_, own, rfl⟩ isTame

theorem canonical_eq (derives : Derives known name)
    (identifier : ∀ name, known name → name.IsIdentifier) : canonical name = name := by
  cases derives with
  | reserved reserved => exact canonical_of_isReserved reserved
  | own own => exact (identifier name own).isTame.canonical_eq
  | made own isTame =>
    refine IsTame.canonical_eq ?_
    exact ((IsTame.append (by decide) (identifier _ own).isTame).append (by decide)).append isTame

theorem ne_empty (derives : Derives known name)
    (identifier : ∀ name, known name → name.IsIdentifier) : name ≠ "" := by
  cases derives with
  | reserved reserved =>
    rintro rfl
    cases reserved
  | own own => exact (identifier name own).nonempty
  | made =>
    intro same
    cases (toList_made ..).symm.trans (congrArg String.toList same)

theorem canonical_relabel (derives : Derives known name) (renames : Renames f known) :
    canonical (Name.relabel f name) = Name.relabel f name :=
  (derives.relabel renames).canonical_eq renames.identifier'

theorem isReserved_relabel (derives : Derives known name) (renames : Renames f known) :
    isReserved (Name.relabel f name) = isReserved name := by
  cases derives with
  | reserved reserved => rw [renames.relabel_reserved reserved]
  | own own =>
    rw [renames.relabel_own own, (renames.renamed name own).unreserved,
      (renames.identifier name own).unreserved]
  | made own =>
    rw [renames.relabel_made own, isReserved_of_cons_dollar (toList_made ..),
      isReserved_of_cons_dollar (toList_made ..)]

/-- A renaming tells all names apart that are derived from its identifiers. -/
theorem relabel_inj (derives : Derives known name) (derives' : Derives known other)
    (renames : Renames f known) (same : Name.relabel f name = Name.relabel f other) : name = other := by
  have reserved := derives.isReserved_relabel renames
  rw [same, derives'.isReserved_relabel renames] at reserved
  cases derives' with
  | reserved isReserved =>
    rw [isReserved] at reserved
    rwa [renames.relabel_reserved reserved.symm, renames.relabel_reserved isReserved] at same
  | made own => exact renames.eq_made derives own (same.trans (renames.relabel_made own))
  | own own' =>
    cases derives with
    | reserved isReserved =>
      rw [isReserved] at reserved
      rwa [renames.relabel_reserved isReserved, renames.relabel_reserved reserved] at same
    | own own =>
      rw [renames.relabel_own own, renames.relabel_own own'] at same
      exact renames.injective _ _ own own' same
    | made own =>
      have back := same.symm.trans (renames.relabel_made own)
      exact (renames.eq_made (.own own') own back).symm

end Derives

/-- Whether a name, as it is written, is a reserved one or derived from some identifiers. -/
def Spells (known : Name → Prop) (name : Name) : Prop :=
  isReserved (canonical name) = true ∨ Derives known name

namespace Spells

variable {name : Name}

theorem derives (spells : Spells known name) (renames : Renames f known) :
    Derives known (canonical name) := by
  rcases spells with reserved | derives
  · exact .reserved reserved
  · rwa [derives.canonical_eq renames.identifier]

theorem canonical_relabel (spells : Spells known name) (renames : Renames f known) :
    canonical (relabel f name) = relabel f (canonical name) := by
  rcases spells with reserved | derives
  · rw [renames.relabel_written reserved, renames.relabel_reserved reserved]
  · rw [derives.canonical_relabel renames, derives.canonical_eq renames.identifier]

end Spells

namespace Derives

variable {name : Name}

/-! ### Paths -/

/-- A name has no dot before and after renaming, or what is behind its first dot stays. -/
theorem split_cases (derives : Derives known name) (renames : Renames f known) :
    ¬ Path.IsDotted name ∧ ¬ Path.IsDotted (Name.relabel f name) ∨
      ∃ head rest, Derives known head ∧ Path.split name = (head, some rest) ∧
        Path.split (Name.relabel f name) = (Name.relabel f head, some rest) := by
  have plain : ∀ {name : Name}, name.IsIdentifier → ¬ Path.IsDotted name := fun identifier =>
    identifier.notMem (by decide)
  cases derives with
  | reserved reserved =>
    have undotted := not_isDotted_of_isReserved reserved
    exact .inl ⟨undotted, (renames.relabel_reserved reserved).symm ▸ undotted⟩
  | own own =>
    exact .inl ⟨plain (renames.identifier name own),
      renames.relabel_own own ▸ plain (renames.renamed name own)⟩
  | @made owner rest own isTame =>
    have undotted := plain (renames.identifier owner own)
    have undotted' := plain (renames.renamed owner own)
    rw [renames.relabel_made own]
    rcases Path.split_cases rest with ⟨last, -⟩ | ⟨head, tail, first, whole, -⟩
    · exact .inl ⟨mt (isDotted_made undotted).mp last, mt (isDotted_made undotted').mp last⟩
    · have begins : IsTame head := fun c member => isTame c (whole ▸ List.mem_append_left _ member)
      have splits : ∀ {owner : String}, ¬ Path.IsDotted owner →
          Path.split (Name.made owner rest) = (Name.made owner head, some tail) := fun undotted =>
        Path.split_of_append (mt (isDotted_made undotted).mp first) (by
          rw [toList_made, toList_made, whole]
          simp)
      refine .inr ⟨Name.made owner head, tail, .made own begins, splits undotted, ?_⟩
      rw [renames.relabel_made own]
      exact splits undotted'

/-- What a name adds to a made name is kept by renaming. -/
theorem after?_relabel {owner rest : String} (derives : Derives known name) (renames : Renames f known)
    (own : known owner) : Path.after? (Name.made (f owner) rest ++ ".") (Name.relabel f name) =
      Path.after? (Name.made owner rest ++ ".") name := by
  refine Option.ext fun tail => ?_
  have added : ∀ {owner : String} {name : Name}, Path.after? (Name.made owner rest ++ ".") name =
      some tail ↔ name = Name.made owner (rest ++ "." ++ tail) := by
    intro owner name
    rw [Path.after?_eq_some, ← String.toList_append, String.toList_inj, made_append, made_append]
  rw [added, added]
  constructor
  · exact renames.eq_made derives own
  · rintro rfl
    exact renames.relabel_made own

/-- No derived name is marked as a path from the root. -/
theorem after?_dot (derives : Derives known name)
    (identifier : ∀ name, known name → name.IsIdentifier) : Path.after? "." name = none := by
  refine Option.eq_none_iff_forall_ne_some.mpr fun rest found => ?_
  have letters : name.toList = '.' :: rest.toList := by simpa using Path.after?_eq_some.mp found
  have dotted : Path.IsDotted name := by
    rw [Path.IsDotted, letters]
    exact List.mem_cons_self
  cases derives with
  | reserved reserved => exact not_isDotted_of_isReserved reserved dotted
  | own own => exact (identifier name own).notMem (by decide) dotted
  | made own =>
    rw [toList_made, List.cons.injEq] at letters
    exact absurd letters.1 (by decide)

end Derives

end Name
end StockFlow
