import StockFlow.Proofs.Paths

/-!
# Canonical names

What canonical names keep of the names as they are written: no dot is put into a name, and a name
that starts with a dollar sign still does.
-/

namespace StockFlow

/-! ## Lowercase letters -/

namespace LetterCase

theorem toLower_eq_dot : ∀ n < 0x80, (Char.ofNat n).toLower = '.' → n = 46 := by decide

/-- Beyond the first code points every lowercase form lies above the dot. -/
theorem dot_lt_lowercaseRuns : ∀ run ∈ lowercaseRuns, 46 < (run.first : Int) + run.distance := by
  decide +kernel

theorem ofNat_eq_dot {n : Nat} (same : Char.ofNat n = '.') : n = 46 := by
  by_cases valid : n.isValidChar
  · rw [Char.ofNat, dif_pos valid] at same
    exact congrArg Char.toNat same
  · rw [Char.ofNat, dif_neg valid] at same
    exact absurd (congrArg Char.toNat same) (by decide)

theorem lowercase_ne_dot {c : Char} (other : c ≠ '.') : lowercase c ≠ '.' := by
  intro same
  refine other (Char.toNat_inj.mp ?_)
  unfold lowercase at same
  split at same
  · rename_i low
    exact toLower_eq_dot c.toNat low (by rwa [Char.ofNat_toNat])
  · split at same
    · rename_i run found
      have above := dot_lt_lowercaseRuns run (List.mem_of_find?_eq_some found)
      have held := List.find?_some found
      simp only [Run.holds, Bool.and_eq_true, decide_eq_true_eq] at held
      have moved := ofNat_eq_dot same
      omega
    · rw [same]

end LetterCase

namespace Text

theorem dot_mem_lowercaseAfter {before cs : List Char} (dotted : '.' ∈ lowercaseAfter before cs) :
    '.' ∈ cs := by
  induction cs generalizing before with
  | nil => exact dotted
  | cons c after ih =>
    rcases List.mem_append.mp dotted with first | rest
    · refine List.mem_cons.mpr (.inl (Decidable.byContradiction fun other => ?_))
      have kept := LetterCase.lowercase_ne_dot (Ne.symm other)
      unfold lowercaseBetween at first
      split at first
      · split at first <;> simp at first
      · split at first
        · simp at first
        · exact kept (List.mem_singleton.mp first).symm
    · exact List.mem_cons_of_mem c (ih rest)

theorem trimEnds_sublist (test : Char → Bool) (cs : List Char) : (trimEnds test cs).Sublist cs := by
  have inner := (List.dropWhile_sublist test (l := (cs.dropWhile test).reverse)).reverse
  rw [List.reverse_reverse] at inner
  exact inner.trans (List.dropWhile_sublist test)

theorem trimEnds_cons (test : Char → Bool) {c : Char} (cs : List Char) (kept : test c = false) :
    ∃ rest, trimEnds test (c :: cs) = c :: rest := by
  unfold trimEnds
  rw [List.dropWhile_cons_of_neg (by simp [kept]), List.reverse_cons, List.dropWhile_append]
  split
  · simp [kept]
  · simp

end Text

/-! ## Names -/

namespace Name

theorem mem_unescape {c : Char} {cs : List Char} (member : c ∈ unescape cs) : c ∈ cs := by
  fun_induction unescape cs with
  | case1 rest ih => grind
  | case2 d rest _ ih => grind
  | case3 => exact member

theorem dot_mem_joinWords {cs : List Char} (member : '.' ∈ joinWords cs) : '.' ∈ cs := by
  fun_induction joinWords cs with
  | case1 rest ih => grind
  | case2 rest ih => grind
  | case3 c rest _ _ ih => grind
  | case4 => exact member

theorem unquote_sublist (cs : List Char) : (unquote cs).Sublist cs := by
  unfold unquote
  split
  · split
    · exact (List.dropLast_sublist _).trans (List.sublist_cons_self ..)
    · exact List.Sublist.refl _
  · exact List.Sublist.refl _

/-- Making a name canonical does not put a dot into it. -/
theorem isDotted_of_canonical {name : String} (dotted : Path.IsDotted (canonical name)) :
    Path.IsDotted name := by
  unfold Path.IsDotted canonical Text.lowercase at dotted
  rw [String.toList_ofList, String.toList_ofList] at dotted
  have inner := mem_unescape (dot_mem_joinWords (Text.dot_mem_lowercaseAfter dotted))
  exact (Text.trimEnds_sublist ..).subset ((unquote_sublist _).subset inner)

theorem canonical_cons_dollar {name : String} {cs : List Char} (starts : name.toList = '$' :: cs) :
    ∃ rest, (canonical name).toList = '$' :: rest := by
  obtain ⟨trimmed, eq⟩ := Text.trimEnds_cons Text.isBlank cs (by decide : Text.isBlank '$' = false)
  unfold canonical Text.lowercase
  rw [starts, eq, String.toList_ofList, String.toList_ofList]
  exact ⟨_, rfl⟩

end Name
end StockFlow
