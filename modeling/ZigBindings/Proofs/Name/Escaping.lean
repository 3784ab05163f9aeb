import ZigBindings.Proofs.Module.Headers
import ZigBindings.Proofs.Name.Lowering

/-! Identifiers and the names behind them. Escaping keeps names apart, so two identifiers are equal
exactly if the declaration names are, and no identifier that was made from a declaration name has a
capital in it. -/

namespace ZigBindings.Name
open Text

theorem isSpecial_iff {c : Char} : (c == '\\' || c == '"') = true ↔ c = '\\' ∨ c = '"' := by simp

theorem escape_injective {first second : List Char} (same : escape first = escape second) :
    first = second := by
  induction first generalizing second with
  | nil =>
    cases second with
    | nil => rfl
    | cons d other =>
      rw [escape, escape] at same
      split at same <;> cases same
  | cons c rest ih =>
    cases second with
    | nil =>
      rw [escape, escape] at same
      split at same <;> cases same
    | cons d other =>
      rw [escape, escape] at same
      split at same
      case isTrue =>
        split at same
        case isTrue =>
          obtain ⟨rfl, others⟩ := List.cons.inj (List.cons.inj same).2
          rw [ih others]
        case isFalse common => exact absurd (isSpecial_iff.mpr (.inl (List.cons.inj same).1.symm)) common
      case isFalse common =>
        split at same
        case isTrue => exact absurd (isSpecial_iff.mpr (.inl (List.cons.inj same).1)) common
        case isFalse =>
          obtain ⟨rfl, others⟩ := List.cons.inj same
          rw [ih others]

theorem escapedChars_injective {first second : List Char}
    (same : escapedChars first = escapedChars second) : first = second := by
  have bare : ∀ {name rest : List Char}, (isPlain name && !isReserved name) = true →
      name ≠ '@' :: rest := fun plain quoted => by
    rw [quoted, Bool.and_eq_true] at plain
    exact not_at_of_isPlain plain.1 rfl
  rw [escapedChars, escapedChars] at same
  split at same
  case isTrue plain =>
    split at same
    case isTrue => exact same
    case isFalse => exact absurd same (bare plain)
  case isFalse =>
    split at same
    case isTrue plain => exact absurd same.symm (bare plain)
    case isFalse =>
      simp only [List.cons_append, List.cons.injEq, List.append_cancel_right_eq, true_and] at same
      exact escape_injective same

theorem escaped_injective {first second : String} (same : escaped first = escaped second) :
    first = second :=
  String.toList_injective (escapedChars_injective (String.ofList_injective same))

theorem isCapital_iff {c : Char} : isCapital c = true ↔ 65 ≤ c.toNat ∧ c.toNat ≤ 90 := by
  rw [isCapital, Bool.and_eq_true, decide_eq_true_eq, decide_eq_true_eq]
  exact Iff.rfl

theorem not_isCapital_of_small {c : Char} (small : Small c) : isCapital c = false := by
  have ascii : ∀ n < 128, isCapital (Char.ofNat n).toLower = false := by decide +kernel
  rw [Bool.eq_false_iff]
  intro capital
  have between := isCapital_iff.mp capital
  have lowered := ascii c.toNat (by omega)
  have below : lowerLetter c = c.toLower := if_pos (by omega)
  rw [Char.ofNat_toNat, ← below, small.1, capital] at lowered
  cases lowered

theorem mem_joinWords {c : Char} {words : List (List Char)} (member : c ∈ joinWords words) :
    c = '_' ∨ ∃ word ∈ words, c ∈ word := by
  induction words with
  | nil => cases member
  | cons word rest ih =>
    cases rest with
    | nil =>
      rw [joinWords, List.intercalate_singleton] at member
      exact .inr ⟨word, by simp, member⟩
    | cons next others =>
      rw [joinWords, List.intercalate_cons_cons, List.append_assoc] at member
      rcases List.mem_append.mp member with first | member
      · exact .inr ⟨word, by simp, first⟩
      · rcases List.mem_append.mp member with line | behind
        · exact .inl (List.mem_singleton.mp line)
        · exact (ih behind).imp_right fun ⟨word, inside, found⟩ => ⟨word, by simp [inside], found⟩

theorem not_isCapital_declaration {raw : List Char} :
    ∀ c ∈ declarationChars raw, isCapital c = false := by
  intro c member
  rcases mem_joinWords member with rfl | ⟨_, inside, found⟩
  · decide
  · obtain ⟨word, -, rfl⟩ := List.mem_map.mp inside
    exact not_isCapital_of_small (small_of_mem_lower c found)

theorem mem_escape {c : Char} {raw : List Char} (member : c ∈ escape raw) : c = '\\' ∨ c ∈ raw := by
  induction raw with
  | nil => cases member
  | cons d rest ih =>
    rw [escape] at member
    split at member
    · rcases List.mem_cons.mp member with rfl | member
      · exact .inl rfl
      · rcases List.mem_cons.mp member with rfl | member
        · exact .inr List.mem_cons_self
        · exact (ih member).imp_right (List.mem_cons_of_mem _)
    · rcases List.mem_cons.mp member with rfl | member
      · exact .inr List.mem_cons_self
      · exact (ih member).imp_right (List.mem_cons_of_mem _)

theorem not_isCapital_identifier {raw : String} : ∀ c ∈ (identifier raw).toList, isCapital c = false := by
  intro c member
  rw [identifier, escaped, String.toList_ofList, declaration, String.toList_ofList, escapedChars] at member
  split at member
  case isTrue => exact not_isCapital_declaration c member
  case isFalse =>
    simp only [List.cons_append, List.mem_cons, List.mem_append, List.not_mem_nil, or_false] at member
    rcases member with rfl | rfl | inside | rfl
    · decide
    · decide
    · rcases mem_escape inside with rfl | inside
      · decide
      · exact not_isCapital_declaration c inside
    · decide

theorem identifier_ne {raw name : String} (capital : name.toList.any isCapital = true) :
    identifier raw ≠ name := by
  rintro rfl
  obtain ⟨c, member, capital⟩ := List.any_eq_true.mp capital
  rw [not_isCapital_identifier c member] at capital
  cases capital

end ZigBindings.Name
