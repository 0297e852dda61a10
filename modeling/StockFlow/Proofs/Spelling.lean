import StockFlow.Proofs.Identifiers

/-!
# Names that are their own canonical form

Making a name canonical takes one pair of quotes, one layer of escapes and the blanks around it
away. A name from which each of these is gone is made canonical no further, and only such a name: a
variable that is addressed by its canonical name and one that is addressed by the canonical form of
that name are the same exactly then.
-/

namespace StockFlow

/-! ## Lowercase forms -/

namespace LetterCase

/-- Whether lowercasing leaves a character as it is wherever it stands. -/
def isLower (c : Char) : Bool := lowercase c == c && c != 'İ'

/-- The characters that making a name canonical looks for. -/
def isMark (c : Char) : Bool := Text.isBlank c || c == '"' || c == '\\'

/-- Whether a character is a lowercase form and no mark. -/
def isPlainLower (c : Char) : Bool := isLower c && !isMark c

namespace Run

/-- The run of the lowercase forms of a run. -/
def image (run : Run) : Run where
  first := (run.first + run.distance).toNat
  last := (run.last + run.distance).toNat
  step := run.step
  distance := 0

/-- Two runs have no character in common: one ends before the other starts, or they alternate. -/
def apart (one two : Run) : Bool :=
  Nat.blt one.last two.first || Nat.blt two.last one.first ||
    (two.step == 2 && (one.step == 2 || one.first == one.last) && (one.first + two.first) % 2 == 1)

variable {run one two : Run} {n : Nat}

theorem holds_iff : run.holds n = true ↔
    run.first ≤ n ∧ n ≤ run.last ∧ (n - run.first) % run.step = 0 := by
  simp [holds, and_assoc]

theorem holds_image (low : 0 ≤ run.first + run.distance) (held : run.holds n = true) :
    run.image.holds (n + run.distance).toNat = true := by
  rw [holds_iff] at held ⊢
  obtain ⟨above, below, even⟩ := held
  have same : (n + run.distance).toNat - (run.first + run.distance).toNat = n - run.first := by omega
  exact ⟨by simp only [image]; omega, by simp only [image]; omega, by simpa only [image, same]⟩

theorem holds_of_apart (apart : one.apart two = true) (held : one.holds n = true) :
    two.holds n = false := by
  rw [holds_iff] at held
  refine Bool.eq_false_iff.mpr fun also => ?_
  rw [holds_iff] at also
  simp only [Run.apart, Bool.or_eq_true, Bool.and_eq_true, Nat.blt_eq, beq_iff_eq] at apart
  rcases apart with (before | after) | ⟨⟨two_step, one_step | single⟩, alternate⟩
  · omega
  · omega
  · rw [one_step] at held
    rw [two_step] at also
    omega
  · rw [two_step] at also
    omega

end Run

theorem image_apart_run :
    (lowercaseRuns.all fun run => lowercaseRuns.all fun other => run.image.apart other) = true := by
  decide +kernel

/-- Runs that together have all marks, and the one letter whose lowercase form is longer. -/
def markedRuns : List Run := [
    ⟨0, 0x60, 1, 0⟩, ⟨0x85, 0xA0, 1, 0⟩, ⟨0x130, 0x130, 1, 0⟩, ⟨0x1680, 0x1680, 1, 0⟩,
    ⟨0x2000, 0x205F, 1, 0⟩, ⟨0x3000, 0x3000, 1, 0⟩]

theorem image_apart_marked :
    (lowercaseRuns.all fun run => markedRuns.all fun other => run.image.apart other) = true := by
  decide +kernel

theorem image_low : ∀ run ∈ lowercaseRuns, 0 ≤ (run.first : Int) + run.distance := by decide +kernel

theorem holds_of_marked {c : Char} (marked : isMark c = true ∨ c = 'İ') :
    ∃ run ∈ markedRuns, run.holds c.toNat = true := by
  simp only [markedRuns, List.exists_mem_cons_iff, Run.holds_iff, Nat.mod_one, and_true]
  rcases marked with marked | rfl
  · simp only [isMark, Text.isBlank, Bool.or_eq_true, Bool.and_eq_true, decide_eq_true_eq, beq_iff_eq,
      ← Char.toNat_inj] at marked
    have quote : '"'.toNat = 0x22 := rfl
    have backslash : '\\'.toNat = 0x5C := rfl
    omega
  · decide

theorem toLower_of_holds : ∀ n < 0x80,
    (Char.ofNat n).toLower = Char.ofNat n ∨ (Run.mk 0x41 0x5A 1 32).holds n = true := by
  decide

theorem lowercase_of_forall {n : Nat} (clear : ∀ run ∈ lowercaseRuns, run.holds n = false) :
    lowercase (Char.ofNat n) = Char.ofNat n := by
  by_cases valid : n.isValidChar
  · have code : (Char.ofNat n).toNat = n := by
      rw [Char.ofNat, dif_pos valid]
      rfl
    unfold lowercase
    rw [code]
    split
    · rename_i low
      refine (toLower_of_holds n low).resolve_right fun held => ?_
      exact absurd held (Bool.eq_false_iff.mp (clear _ List.mem_cons_self))
    · rw [List.find?_eq_none.mpr fun run member => by simp [clear run member]]
  · rw [Char.ofNat, dif_neg valid]
    decide

/-- The lowercase form of a character of the runs moves no further. -/
theorem isPlainLower_of_holds {run : Run} (member : run ∈ lowercaseRuns) {n : Nat}
    (held : run.holds n = true) : isPlainLower (Char.ofNat (n + run.distance).toNat) = true := by
  have image := Run.holds_image (image_low run member) held
  generalize (n + run.distance).toNat = code at image
  have same : lowercase (Char.ofNat code) = Char.ofNat code := by
    refine lowercase_of_forall fun other member' => ?_
    have apart := List.all_eq_true.mp image_apart_run run member
    exact Run.holds_of_apart (List.all_eq_true.mp apart other member') image
  have clear : ¬ (isMark (Char.ofNat code) = true ∨ Char.ofNat code = 'İ') := by
    intro marked
    by_cases valid : code.isValidChar
    · obtain ⟨other, member', held'⟩ := holds_of_marked marked
      have apart := List.all_eq_true.mp image_apart_marked run member
      rw [Char.ofNat, dif_pos valid] at held'
      exact absurd held' (Bool.eq_false_iff.mp
        (Run.holds_of_apart (List.all_eq_true.mp apart other member') image))
    · rw [Char.ofNat, dif_neg valid] at marked
      exact absurd marked (by decide)
  obtain ⟨unmarked, undotted⟩ := not_or.mp clear
  simp [isPlainLower, isLower, same, undotted, Bool.eq_false_iff.mpr unmarked]

theorem isPlainLower_toLower : ∀ n < 0x80,
    (Char.ofNat n).toLower = Char.ofNat n ∨ isPlainLower (Char.ofNat n).toLower = true := by
  decide

theorem lowercase_cases (c : Char) : lowercase c = c ∨ isPlainLower (lowercase c) = true := by
  unfold lowercase
  split
  · rename_i low
    rcases isPlainLower_toLower c.toNat low with same | lower <;> rw [Char.ofNat_toNat] at *
    · exact .inl same
    · exact .inr lower
  · split
    · rename_i run found
      have held := List.find?_some found
      exact .inr (isPlainLower_of_holds (List.mem_of_find?_eq_some found) held)
    · exact .inl rfl

end LetterCase

namespace Text

open LetterCase

theorem mem_lowercaseBetween {before after : List Char} {c d : Char}
    (member : d ∈ lowercaseBetween before c after) :
    isPlainLower d = true ∨ d = c ∧ isLower d = true := by
  unfold lowercaseBetween at member
  split at member
  · split at member <;> cases List.mem_singleton.mp member <;> exact .inl (by decide)
  · split at member
    · have lower : ['i', Char.ofNat 0x307].all isPlainLower = true := by decide
      exact .inl (List.all_eq_true.mp lower d member)
    · rename_i undotted
      cases List.mem_singleton.mp member
      rcases lowercase_cases c with same | lower
      · rw [same]
        exact .inr ⟨rfl, by simp [isLower, same, undotted]⟩
      · exact .inl lower

/-- A lowercase text has lowercase letters only, and no mark that was not in the text. -/
theorem mem_lowercaseAfter {before cs : List Char} {d : Char} (member : d ∈ lowercaseAfter before cs) :
    isPlainLower d = true ∨ d ∈ cs ∧ isLower d = true := by
  induction cs generalizing before with
  | nil => cases member
  | cons c after ih =>
    rcases List.mem_append.mp member with here | later
    · exact (mem_lowercaseBetween here).imp_right (And.imp_left fun same => List.mem_cons.mpr (.inl same))
    · exact (ih later).imp_right (And.imp_left (List.mem_cons_of_mem c))

theorem lowercaseBetween_of_isLower {before after : List Char} {c : Char} (lower : isLower c = true) :
    lowercaseBetween before c after = [c] := by
  obtain ⟨same, undotted⟩ := Bool.and_eq_true_iff.mp lower
  have notSigma : c ≠ 'Σ' := by
    rintro rfl
    exact absurd same (by decide)
  rw [lowercaseBetween, if_neg notSigma, if_neg (by simpa using undotted), beq_iff_eq.mp same]

theorem lowercaseAfter_of_isLower {before cs : List Char} (lower : ∀ c ∈ cs, isLower c = true) :
    lowercaseAfter before cs = cs := by
  induction cs generalizing before with
  | nil => rfl
  | cons c after ih =>
    obtain ⟨here, later⟩ := List.forall_mem_cons.mp lower
    rw [lowercaseAfter, lowercaseBetween_of_isLower here, ih later, List.singleton_append]

end Text

/-! ## Canonical names -/

namespace Name

open LetterCase Text

/-- Whether joining words replaces a character. -/
def IsBreak (c : Char) : Prop := c = '\n' ∨ c = '\r' ∨ c = ' ' ∨ c.toNat = 0xA0

/-- A text without blanks at its ends, without quotes around it and without escapes. -/
structure IsBare (cs : List Char) : Prop where
  starts : ∀ c ∈ cs.head?, isBlank c = false
  ends : ∀ c ∈ cs.getLast?, isBlank c = false
  unquoted : cs.head? = some '"' → cs.getLast? = some '"' → cs.length < 2
  unescaped : ∀ c ∈ ['\\', 'n', 'r'], ¬ ['\\', c] <:+: cs

section

variable {cs : List Char}

theorem isMark_of_isBreak {c : Char} (breaks : IsBreak c) : isMark c = true := by
  rcases breaks with rfl | rfl | rfl | nonBreaking
  · rfl
  · rfl
  · rfl
  · simp [isMark, isBlank, nonBreaking]

theorem length_unescape_le (cs : List Char) : (unescape cs).length ≤ cs.length := by
  fun_induction unescape cs <;> grind

theorem length_joinWords_le (cs : List Char) : (joinWords cs).length ≤ cs.length := by
  fun_induction joinWords cs <;> grind

theorem mem_joinWords {d : Char} (member : d ∈ joinWords cs) : d = '_' ∨ d ∈ cs ∧ ¬ IsBreak d := by
  fun_induction joinWords cs with
  | case1 rest ih => grind
  | case2 rest ih => grind
  | case3 c rest _ _ ih => grind [IsBreak]
  | case4 => cases member

theorem infix_cons {a b c : Char} :
    [a, b] <:+: c :: cs ↔ (a = c ∧ cs.head? = some b) ∨ [a, b] <:+: cs := by
  rw [List.infix_cons_iff, List.cons_prefix_cons, List.singleton_prefix_iff_head?_eq_some]

theorem unescape_of_clear (clear : ¬ ['\\', '\\'] <:+: cs) : unescape cs = cs := by
  fun_induction unescape cs with
  | case1 rest ih => exact absurd (infix_cons.mpr (.inl ⟨rfl, rfl⟩)) clear
  | case2 c rest _ ih => rw [ih fun later => clear (infix_cons.mpr (.inr later))]
  | case3 => rfl

theorem clear_of_length_unescape (same : (unescape cs).length = cs.length) :
    ¬ ['\\', '\\'] <:+: cs := by
  fun_induction unescape cs with
  | case1 rest ih =>
    have shorter := length_unescape_le rest
    simp only [List.length_cons] at same
    omega
  | case2 c rest single ih =>
    rw [infix_cons]
    rintro (⟨rfl, next⟩ | later)
    · obtain ⟨more, rfl⟩ := List.head?_eq_some_iff.mp next
      exact single more rfl rfl
    · exact ih (Nat.succ.inj same) later
  | case3 => simp

theorem joinWords_of_clear (joined : ∀ c ∈ cs, ¬ IsBreak c)
    (clear : ∀ c ∈ ['n', 'r'], ¬ ['\\', c] <:+: cs) : joinWords cs = cs := by
  fun_induction joinWords cs with
  | case1 rest ih => exact absurd (infix_cons.mpr (.inl ⟨rfl, rfl⟩)) (clear 'n' (by simp))
  | case2 rest ih => exact absurd (infix_cons.mpr (.inl ⟨rfl, rfl⟩)) (clear 'r' (by simp))
  | case3 c rest _ _ ih =>
    obtain ⟨here, later⟩ := List.forall_mem_cons.mp joined
    rw [ih later fun c member inner => clear c member (infix_cons.mpr (.inr inner))]
    exact congrArg (· :: rest) (if_neg here)
  | case4 => rfl

theorem clear_of_length_joinWords (same : (joinWords cs).length = cs.length) :
    ∀ c ∈ ['n', 'r'], ¬ ['\\', c] <:+: cs := by
  fun_induction joinWords cs with
  | case1 rest ih =>
    have shorter := length_joinWords_le rest
    simp only [List.length_cons] at same
    omega
  | case2 rest ih =>
    have shorter := length_joinWords_le rest
    simp only [List.length_cons] at same
    omega
  | case3 c rest notLine notReturn ih =>
    intro d member
    rw [infix_cons]
    rintro (⟨rfl, next⟩ | later)
    · obtain ⟨more, rfl⟩ := List.head?_eq_some_iff.mp next
      rcases List.mem_pair.mp member with rfl | rfl
      · exact notLine more rfl rfl
      · exact notReturn more rfl rfl
    · exact ih (Nat.succ.inj same) d member later
  | case4 => simp

/-! Blanks at the ends and quotes around a text. -/

theorem dropWhile_iff {test : Char → Bool} :
    cs.dropWhile test = cs ↔ ∀ c ∈ cs.head?, test c = false := by
  cases cs with
  | nil => simp
  | cons c rest => simp

theorem trimEnds_iff {test : Char → Bool} : trimEnds test cs = cs ↔
    (∀ c ∈ cs.head?, test c = false) ∧ ∀ c ∈ cs.getLast?, test c = false := by
  constructor
  · intro same
    have inner := (List.dropWhile_sublist test (l := (cs.dropWhile test).reverse)).length_le
    have whole := congrArg List.length same
    rw [trimEnds, List.length_reverse] at whole
    rw [List.length_reverse, whole] at inner
    have front : cs.dropWhile test = cs := (List.dropWhile_sublist test).eq_of_length_le inner
    rw [trimEnds, front, List.reverse_eq_iff] at same
    exact ⟨dropWhile_iff.mp front, by simpa using dropWhile_iff.mp same⟩
  · rintro ⟨starts, ends⟩
    rw [trimEnds, dropWhile_iff.mpr starts, dropWhile_iff.mpr (by simpa using ends),
      List.reverse_reverse]

theorem unquote_iff : unquote cs = cs ↔
    (cs.head? = some '"' → cs.getLast? = some '"' → cs.length < 2) := by
  unfold unquote
  split
  · rename_i rest
    rcases rest.eq_nil_or_concat with rfl | ⟨rest, last, rfl⟩
    · simp
    · have last_cons : ('"' :: (rest ++ [last])).getLast? = some last := by
        rw [← List.cons_append, List.getLast?_concat]
      by_cases quoted : last = '"'
      · have shorter : rest ≠ '"' :: (rest ++ ['"']) := fun same =>
          absurd (congrArg List.length same) (by simp; omega)
        simpa [quoted, shorter] using quoted ▸ last_cons
      · simp [quoted, last_cons]
  · rename_i other
    cases cs with
    | nil => simp
    | cons c rest => simpa using fun same => absurd same (by simpa using other rest)

/-- No step makes a text longer, so a text that is as long afterwards left nothing to any of them. -/
theorem isBare_of_length
    (whole : (joinWords (unescape (unquote (trimEnds isBlank cs)))).length = cs.length) :
    IsBare cs := by
  have trimming := trimEnds_sublist isBlank cs
  have unquoting := unquote_sublist (trimEnds isBlank cs)
  have unescaping := length_unescape_le (unquote (trimEnds isBlank cs))
  have joining := length_joinWords_le (unescape (unquote (trimEnds isBlank cs)))
  have shorter := unquoting.length_le
  have trimmed : trimEnds isBlank cs = cs := trimming.eq_of_length_le (by omega)
  rw [trimmed] at unquoting unescaping joining whole
  have unquoted : unquote cs = cs := unquoting.eq_of_length_le (by omega)
  rw [unquoted] at unescaping joining whole
  have unescaped := clear_of_length_unescape (by omega : (unescape cs).length = cs.length)
  rw [unescape_of_clear unescaped] at whole
  exact {
    starts := (trimEnds_iff.mp trimmed).1
    ends := (trimEnds_iff.mp trimmed).2
    unquoted := unquote_iff.mp unquoted
    unescaped := List.forall_mem_cons.mpr ⟨unescaped, clear_of_length_joinWords whole⟩ }

theorem IsBare.joinWords_eq (bare : IsBare cs) (joined : ∀ c ∈ cs, ¬ IsBreak c) :
    joinWords (unescape (unquote (trimEnds isBlank cs))) = cs := by
  obtain ⟨unescaped, clear⟩ := List.forall_mem_cons.mp bare.unescaped
  rw [trimEnds_iff.mpr ⟨bare.starts, bare.ends⟩, unquote_iff.mpr bare.unquoted,
    unescape_of_clear unescaped, joinWords_of_clear joined clear]

end

theorem mem_canonical {name : String} {c : Char} (member : c ∈ (canonical name).toList) :
    isLower c = true ∧ ¬ IsBreak c := by
  rw [canonical, Text.lowercase, String.toList_ofList, String.toList_ofList] at member
  rcases mem_lowercaseAfter member with plain | ⟨kept, lower⟩
  · obtain ⟨lower, unmarked⟩ := Bool.and_eq_true_iff.mp plain
    refine ⟨lower, fun breaks => ?_⟩
    simp [isMark_of_isBreak breaks] at unmarked
  · refine ⟨lower, ?_⟩
    rcases mem_joinWords kept with rfl | ⟨_, unbroken⟩
    · simp [IsBreak]
    · exact unbroken

theorem canonical_of_isLower {name : String} (lower : ∀ c ∈ name.toList, isLower c = true) :
    canonical name =
      String.ofList (joinWords (unescape (unquote (trimEnds isBlank name.toList)))) := by
  rw [canonical, Text.lowercase, String.toList_ofList, lowercaseAfter_of_isLower]
  intro c member
  rcases mem_joinWords member with rfl | ⟨kept, _⟩
  · decide
  · exact lower c ((trimEnds_sublist ..).subset ((unquote_sublist _).subset (mem_unescape kept)))

/-- A name is its own canonical form when it is bare and written in lowercase without breaks. -/
theorem canonical_eq_self_iff {name : Name} : canonical name = name ↔
    (∀ c ∈ name.toList, isLower c = true ∧ ¬ IsBreak c) ∧ IsBare name.toList := by
  constructor
  · intro same
    have spelled : ∀ c ∈ name.toList, isLower c = true ∧ ¬ IsBreak c := fun c member =>
      mem_canonical (by rwa [same])
    rw [canonical_of_isLower fun c member => (spelled c member).1] at same
    have whole := congrArg (fun text => text.toList.length) same
    exact ⟨spelled, isBare_of_length (by simpa only [String.toList_ofList] using whole)⟩
  · rintro ⟨spelled, bare⟩
    rw [canonical_of_isLower fun c member => (spelled c member).1,
      bare.joinWords_eq fun c member => (spelled c member).2, String.ofList_toList]

/-- Making a canonical name canonical again changes nothing exactly when it is bare. -/
theorem canonical_canonical_iff (name : String) :
    canonical (canonical name) = canonical name ↔ IsBare (canonical name).toList := by
  rw [canonical_eq_self_iff, and_iff_right fun c => mem_canonical]

/-- What is enclosed in a second pair of quotes is one variable, and its canonical name another. -/
example : canonical "\"\"a\"\"" = "\"a\"" ∧ canonical "\"a\"" = "a" := by decide +kernel

/-! ## Longer names -/

theorem infix_append {a b : Char} {front back : List Char} (inner : [a, b] <:+: front ++ back) :
    [a, b] <:+: front ∨ [a, b] <:+: back ∨ front.getLast? = some a ∧ back.head? = some b := by
  induction front with
  | nil => exact .inr (.inl inner)
  | cons c rest ih =>
    rcases infix_cons.mp inner with ⟨rfl, next⟩ | later
    · cases rest with
      | nil => exact .inr (.inr ⟨rfl, next⟩)
      | cons d more => exact .inl (infix_cons.mpr (.inl ⟨rfl, next⟩))
    · rcases ih later with within | behind | ⟨last, first⟩
      · exact .inl (infix_cons.mpr (.inr within))
      · exact .inr (.inl behind)
      · exact .inr (.inr ⟨by rw [List.getLast?_cons, last]; rfl, first⟩)

theorem mem_tame_isLower {c : Char} (member : c ∈ tame) :
    isLower c = true ∧ isMark c = false ∧ ¬ IsBreak c := by
  have lower : ∀ c ∈ tame, isLower c = true ∧ isMark c = false :=
    all_iff_forall_mem.mp (by decide)
  obtain ⟨isLower, unmarked⟩ := lower c member
  exact ⟨isLower, unmarked, fun breaks => by simp [isMark_of_isBreak breaks] at unmarked⟩

theorem isBlank_of_isMark {c : Char} (unmarked : isMark c = false) : isBlank c = false := by
  simp only [isMark, Bool.or_eq_false_iff] at unmarked
  exact unmarked.1.1

/-- What is written behind a canonical name leaves it canonical, if it does not make an escape with the last
character of the name. -/
theorem canonical_append {name rest : String} (fixed : canonical name = name) (isTame : IsTame rest)
    (apart : ∀ c ∈ ['\\', 'n', 'r'], rest.toList.head? ≠ some c) :
    canonical (name ++ rest) = name ++ rest := by
  obtain ⟨spelled, bare⟩ := canonical_eq_self_iff.mp fixed
  refine canonical_eq_self_iff.mpr ?_
  rw [String.toList_append]
  cases behind : rest.toList with
  | nil =>
    rw [List.append_nil]
    exact ⟨spelled, bare⟩
  | cons first more =>
    rw [IsTame, behind] at isTame
    refine ⟨List.forall_mem_append.mpr ⟨spelled, fun c member => ?_⟩, ?_, ?_, ?_, fun c escape inner => ?_⟩
    · exact (mem_tame_isLower (isTame c member)).imp_right And.right
    · cases front : name.toList with
      | nil =>
        rintro c ⟨⟩
        exact isBlank_of_isMark (mem_tame_isLower (isTame _ List.mem_cons_self)).2.1
      | cons head tail =>
        rintro c ⟨⟩
        exact bare.starts _ (by rw [front]; rfl)
    · intro c last
      rw [List.getLast?_append_of_ne_nil _ (List.cons_ne_nil _ _)] at last
      exact isBlank_of_isMark (mem_tame_isLower (isTame c (List.mem_of_getLast? last))).2.1
    · intro _ last
      rw [List.getLast?_append_of_ne_nil _ (List.cons_ne_nil _ _)] at last
      exact absurd (mem_tame_isLower (isTame _ (List.mem_of_getLast? last))).2.1 (by decide)
    · rcases infix_append inner with within | later | ⟨-, next⟩
      · exact bare.unescaped c escape within
      · exact absurd (mem_tame_isLower (isTame _ (later.subset List.mem_cons_self))).2.1 (by decide)
      · exact apart c escape (behind ▸ next)

end Name
end StockFlow
