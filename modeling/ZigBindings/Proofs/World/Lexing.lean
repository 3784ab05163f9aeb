import Mathlib.Data.List.Induction
import ZigBindings.World.TypeExpr

/-! Tokens of a text. Every name goes on for as long as it can, and white space stands around tokens
only. -/

namespace ZigBindings.TypeExpr

inductive Sign : Char → Token → Prop where
  | opening : Sign '<' .opening
  | closing : Sign '>' .closing
  | comma : Sign ',' .comma

inductive Lexed : List Char → List Token → Prop where
  | done : Lexed [] []
  | blank {c : Char} {rest : List Char} {tokens : List Token} (white : Text.isBlank c = true)
    (behind : Lexed rest tokens) : Lexed (c :: rest) tokens
  | sign {c : Char} {token : Token} {rest : List Char} {tokens : List Token} (sign : Sign c token)
    (behind : Lexed rest tokens) : Lexed (c :: rest) (token :: tokens)
  | name {c : Char} {rest : List Char} {tokens : List Token} (starts : Name.startsIdentifier c = true)
    (behind : Lexed (rest.dropWhile continuesName) tokens) :
    Lexed (c :: rest) (.name (String.ofList (c :: rest.takeWhile continuesName)) :: tokens)

theorem continuesName_of_starts {c : Char} (starts : Name.startsIdentifier c = true) :
    continuesName c = true := by
  simp [continuesName, Name.continuesIdentifier, starts]

theorem continuesName_range {c : Char} (continues : continuesName c = true) :
    45 ≤ c.toNat ∧ c.toNat ≤ 122 := by
  simp only [continuesName, Name.continuesIdentifier, Name.startsIdentifier, Name.isCapital, Name.isSmall,
    Name.isAsciiDigit, Bool.or_eq_true, Bool.and_eq_true, decide_eq_true_eq, beq_iff_eq] at continues
  rcases continues with (((capital | small) | rfl) | digit) | rfl
  · have code : 65 ≤ c.toNat ∧ c.toNat ≤ 90 := capital
    omega
  · have code : 97 ≤ c.toNat ∧ c.toNat ≤ 122 := small
    omega
  · decide
  · have code : 48 ≤ c.toNat ∧ c.toNat ≤ 57 := digit
    omega
  · decide

theorem not_continuesName_of_isBlank {c : Char} (white : Text.isBlank c = true) :
    continuesName c = false := by
  refine Bool.eq_false_iff.mpr fun continues => ?_
  have range := continuesName_range continues
  simp only [Text.isBlank, Bool.or_eq_true, Bool.and_eq_true, decide_eq_true_eq, beq_iff_eq] at white
  omega

theorem not_starts {c : Char} (stops : continuesName c = false) : Name.startsIdentifier c = false :=
  Bool.eq_false_iff.mpr fun starts => by rw [continuesName_of_starts starts] at stops; cases stops

@[simp] theorem flush_nil (tokens : List Token) : flush [] tokens = tokens := rfl

@[simp] theorem map_flush_nil (tokens : Option (List Token)) : tokens.map (flush []) = tokens :=
  Option.map_id'

/-! ### One token at a time -/

theorem lexAfter_blank {c : Char} (white : Text.isBlank c = true) (pending rest : List Char) :
    lexAfter pending (c :: rest) = (lexAfter [] rest).map (flush pending) := by
  have stops := not_continuesName_of_isBlank white
  have sign : (c == '<') = false ∧ (c == '>') = false ∧ (c == ',') = false := by
    refine ⟨?_, ?_, ?_⟩ <;> exact beq_false_of_ne (by rintro rfl; cases white)
  simp [lexAfter, stops, not_starts stops, sign, white]

theorem lexAfter_sign {c : Char} {token : Token} (sign : Sign c token) (pending rest : List Char) :
    lexAfter pending (c :: rest) = (lexAfter [] rest).map fun tokens => flush pending (token :: tokens) := by
  have stops : continuesName c = false := by cases sign <;> decide
  cases sign <;> simp [lexAfter, stops, not_starts stops]

theorem lexAfter_other {c : Char} {pending : List Char} (ends : (!pending.isEmpty && continuesName c) = false)
    (fresh : Name.startsIdentifier c = false) (dark : Text.isBlank c = false)
    (plain : ∀ token, ¬ Sign c token) (rest : List Char) : lexAfter pending (c :: rest) = none := by
  have sign : (c == '<') = false ∧ (c == '>') = false ∧ (c == ',') = false :=
    ⟨beq_false_of_ne fun same => plain .opening (same ▸ .opening),
      beq_false_of_ne fun same => plain .closing (same ▸ .closing),
      beq_false_of_ne fun same => plain .comma (same ▸ .comma)⟩
  simp [lexAfter, ends, fresh, sign, dark]

theorem lexAfter_stop {c : Char} (stops : continuesName c = false) (pending rest : List Char) :
    lexAfter pending (c :: rest) = (lexAfter [] (c :: rest)).map (flush pending) := by
  by_cases white : Text.isBlank c = true
  · simp [lexAfter_blank white]
  · by_cases sign : ∃ token, Sign c token
    · obtain ⟨token, sign⟩ := sign
      simp [lexAfter_sign sign, Function.comp_def]
    · have dark := Bool.eq_false_iff.mpr white
      have plain := not_exists.mp sign
      rw [lexAfter_other (by simp [stops]) (not_starts stops) dark plain,
        lexAfter_other (by simp) (not_starts stops) dark plain]
      rfl

/-- What follows a name that was begun is read like a text of its own, from where the name ends. -/
theorem lexAfter_pending {pending : List Char} (begun : pending ≠ []) (s : List Char) :
    lexAfter pending s = (lexAfter [] (s.dropWhile continuesName)).map
      (flush ((s.takeWhile continuesName).reverse ++ pending)) := by
  induction s generalizing pending with
  | nil => rfl
  | cons c rest ih =>
    by_cases continues : continuesName c = true
    · simp only [lexAfter, List.isEmpty_eq_false_iff.mpr begun, Bool.not_false, Bool.true_and, continues,
        if_true, ih (List.cons_ne_nil c pending), List.dropWhile_cons_of_pos,
        List.takeWhile_cons_of_pos, List.reverse_cons, List.append_assoc, List.singleton_append]
    · rw [lexAfter_stop (Bool.eq_false_iff.mpr continues), List.dropWhile_cons_of_neg continues,
        List.takeWhile_cons_of_neg continues]
      rfl

theorem lexAfter_name {c : Char} (starts : Name.startsIdentifier c = true) (rest : List Char) :
    lexAfter [] (c :: rest) = (lexAfter [] (rest.dropWhile continuesName)).map
      (.name (String.ofList (c :: rest.takeWhile continuesName)) :: ·) := by
  have begun : lexAfter [] (c :: rest) = (lexAfter [c] rest).map (flush []) := by
    simp [lexAfter, starts]
  rw [begun, lexAfter_pending (List.cons_ne_nil c []), Option.map_map]
  refine congrArg (Option.map · _) (funext fun tokens => ?_)
  simp [flush]

/-! ### Whole texts -/

theorem lexAfter_of_lexed {s : List Char} {tokens : List Token} (lexed : Lexed s tokens) :
    lexAfter [] s = some tokens := by
  induction lexed with
  | done => rfl
  | blank white _ ih => simp [lexAfter_blank white, ih]
  | sign sign _ ih => simp [lexAfter_sign sign, ih]
  | name starts _ ih => simp [lexAfter_name starts, ih]

theorem lexed_of_lexAfter {s : List Char} {tokens : List Token} (done : lexAfter [] s = some tokens) :
    Lexed s tokens := by
  induction length : s.length using Nat.strongRecOn generalizing s tokens with
  | ind length ih =>
    subst length
    cases s with
    | nil =>
      cases done
      exact .done
    | cons c rest =>
      by_cases starts : Name.startsIdentifier c = true
      · rw [lexAfter_name starts, Option.map_eq_some_iff] at done
        obtain ⟨others, done, rfl⟩ := done
        have shorter := (List.dropWhile_sublist continuesName (l := rest)).length_le
        exact .name starts (ih _ (Nat.lt_succ_of_le shorter) done rfl)
      · by_cases white : Text.isBlank c = true
        · rw [lexAfter_blank white, Option.map_eq_some_iff] at done
          obtain ⟨others, done, rfl⟩ := done
          exact .blank white (ih _ (Nat.lt_succ_self _) done rfl)
        · by_cases sign : ∃ token, Sign c token
          · obtain ⟨token, sign⟩ := sign
            rw [lexAfter_sign sign, Option.map_eq_some_iff] at done
            obtain ⟨others, done, rfl⟩ := done
            exact .sign sign (ih _ (Nat.lt_succ_self _) done rfl)
          · rw [lexAfter_other rfl (Bool.eq_false_iff.mpr starts) (Bool.eq_false_iff.mpr white)
              (not_exists.mp sign)] at done
            cases done

theorem lexAfter_concat {c : Char} (white : Text.isBlank c = true) (pending s : List Char) :
    lexAfter pending (s ++ [c]) = lexAfter pending s := by
  induction s generalizing pending with
  | nil => exact lexAfter_blank white pending []
  | cons d rest ih => simp only [List.cons_append, lexAfter, ih]

theorem lexAfter_trimRight (s : List Char) : lexAfter [] (Text.trimRight s) = lexAfter [] s := by
  induction s using List.reverseRecOn with
  | nil => rfl
  | append_singleton rest c ih =>
    rw [Text.trimRight, List.reverse_append, List.reverse_singleton, List.singleton_append,
      List.dropWhile_cons]
    split
    case isTrue white => rw [lexAfter_concat white, ← ih, Text.trimRight]
    case isFalse => rw [List.reverse_cons, List.reverse_reverse]

theorem lexAfter_trimLeft (s : List Char) : lexAfter [] (Text.trimLeft s) = lexAfter [] s := by
  induction s with
  | nil => rfl
  | cons c rest ih =>
    rw [Text.trimLeft, List.dropWhile_cons]
    split
    case isTrue white => simp [lexAfter_blank white, ← ih, Text.trimLeft]
    case isFalse => rfl

theorem lexAfter_trim {s : List Char} {tokens : List Token} :
    lexAfter [] (Text.trim s) = some tokens ↔ Lexed s tokens := by
  rw [Text.trim, lexAfter_trimRight, lexAfter_trimLeft]
  exact ⟨lexed_of_lexAfter, lexAfter_of_lexed⟩

end ZigBindings.TypeExpr
