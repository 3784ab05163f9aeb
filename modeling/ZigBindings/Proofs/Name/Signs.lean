import ZigBindings.Proofs.Name.Escaping

/-! A number sign is kept where names are normalised. It is no letter and stands between no words, so
a declaration name has as many of them as the name it was made from. -/

namespace ZigBindings.Name
open Text

theorem count_breakAcronyms (s : List Char) : (breakAcronyms s).count '#' = s.count '#' := by
  fun_induction breakAcronyms s with
  | case1 a b c rest _ ih => simp [List.count_cons, ih]
  | case2 a b c rest _ ih => simp [List.count_cons, ih]
  | case3 => rfl

theorem count_breakHumps (s : List Char) : (breakHumps s).count '#' = s.count '#' := by
  fun_induction breakHumps s with
  | case1 a b rest _ ih => simp [List.count_cons, ih]
  | case2 a b rest _ ih => simp [List.count_cons, ih]
  | case3 => rfl

theorem count_flatten_pieces (s : List Char) :
    ((pieces s).1 :: (pieces s).2).flatten.count '#' = s.count '#' := by
  induction s with
  | nil => rfl
  | cons c rest ih =>
    rw [pieces]
    dsimp only
    split
    case isTrue separates =>
      have other : c ≠ '#' := by
        rintro rfl
        exact absurd separates (by decide)
      rw [List.flatten_cons, List.nil_append, ih, List.count_cons_of_ne other]
    case isFalse =>
      rw [List.flatten_cons, List.cons_append, List.count_cons, List.count_cons, ← List.flatten_cons, ih]

theorem flatten_filter_nonempty (parts : List (List Char)) :
    (parts.filter (!·.isEmpty)).flatten = parts.flatten := by
  induction parts with
  | nil => rfl
  | cons part rest ih => cases part <;> simp [ih]

theorem count_words (s : List Char) : (words s).flatten.count '#' = s.count '#' := by
  rw [words]
  dsimp only
  rw [flatten_filter_nonempty, count_flatten_pieces, count_breakHumps, count_breakAcronyms]

theorem lowerLetter_eq_sign {c : Char} : lowerLetter c = '#' ↔ c = '#' := by
  constructor
  · intro sign
    have fixed := @lowerLetter_of_gap c (0, 96) (by decide) (by rw [sign]; decide)
    exact fixed.symm.trans sign
  · rintro rfl
    rfl

theorem count_lowerAfter (before s : List Char) : (lowerAfter before s).count '#' = s.count '#' := by
  induction s generalizing before with
  | nil => rfl
  | cons c rest ih =>
    rw [lowerAfter, List.count_append, ih, List.count_cons, Nat.add_comm]
    refine congrArg (rest.count '#' + ·) ?_
    split
    case isTrue sigma =>
      rw [beq_iff_eq] at sigma
      subst sigma
      split <;> decide
    case isFalse =>
      split
      case isTrue dotted =>
        rw [beq_iff_eq] at dotted
        subst dotted
        decide
      case isFalse =>
        rw [List.count_singleton]
        exact if_congr (by simp only [beq_iff_eq, lowerLetter_eq_sign]) rfl rfl

theorem count_joinWords (parts : List (List Char)) :
    (joinWords parts).count '#' = parts.flatten.count '#' := by
  induction parts with
  | nil => rfl
  | cons part rest ih =>
    cases rest with
    | nil => simp [joinWords]
    | cons next others =>
      rw [joinWords, List.intercalate_cons_cons, List.count_append, List.count_append, ← joinWords, ih,
        @List.flatten_cons _ part, List.count_append]
      rfl

theorem count_flatten_lower (parts : List (List Char)) :
    (parts.map lower).flatten.count '#' = parts.flatten.count '#' := by
  induction parts with
  | nil => rfl
  | cons part rest ih =>
    rw [List.map_cons, List.flatten_cons, List.flatten_cons, List.count_append, List.count_append, ih, lower,
      count_lowerAfter]

theorem count_declaration (raw : String) : (declaration raw).toList.count '#' = raw.toList.count '#' := by
  rw [declaration, String.toList_ofList, declarationChars, count_joinWords, count_flatten_lower, count_words]

/-- Two texts that go on alike behind as many number signs are the same. -/
theorem append_sign_injective {first second rest other : List Char}
    (counts : first.count '#' = second.count '#') (same : first ++ '#' :: rest = second ++ '#' :: other) :
    first = second ∧ rest = other := by
  induction first generalizing second with
  | nil =>
    cases second with
    | nil => exact ⟨rfl, (List.cons.inj same).2⟩
    | cons c second =>
      obtain ⟨rfl, -⟩ := List.cons.inj same
      simp at counts
  | cons c first ih =>
    cases second with
    | nil =>
      obtain ⟨rfl, -⟩ := List.cons.inj same
      simp at counts
    | cons d second =>
      obtain ⟨rfl, others⟩ := List.cons.inj same
      obtain ⟨rfl, rest⟩ := ih (by simpa [List.count_cons] using counts) others
      exact ⟨rfl, rest⟩

end ZigBindings.Name
