import Mathlib.Data.List.TakeWhile
import ZigBindings.Module.Header

/-! Names of entry points are read back from the headers they are written in. The writer and the
reader differ on one kind of name: a plain one that ends with a line break is written as it is,
while a name that is read has no line break outside quotes. -/

namespace ZigBindings

namespace Text

theorem isWord_small {c : Char} (small : c.toNat < 128) :
    isWord c = (c.isAlphanum || c == '_') := by
  rw [isWord, if_pos small]

theorem isWord_break : isWord '\n' = false := by decide

theorem isWord_parenthesis : isWord '(' = false := by decide

end Text

namespace Name
open Text

theorem isWord_of_continues {c : Char} (continues : continuesIdentifier c = true) :
    isWord c = true := by
  simp only [continuesIdentifier, startsIdentifier, isCapital, isSmall, isAsciiDigit,
    Bool.or_eq_true, Bool.and_eq_true, decide_eq_true_eq, beq_iff_eq, Char.le_def,
    UInt32.le_iff_toNat_le] at continues
  have code : c.toNat = c.val.toNat := rfl
  have small : c.toNat < 128 := by
    rcases continues with ((capital | lower) | rfl) | digit
    · have := capital.2
      have : ('Z' : Char).val.toNat = 90 := rfl
      omega
    · have := lower.2
      have : ('z' : Char).val.toNat = 122 := rfl
      omega
    · decide
    · have := digit.2
      have : ('9' : Char).val.toNat = 57 := rfl
      omega
  have letters : c.isAlphanum = (decide (c.val ≥ 'A'.val ∧ c.val ≤ 'Z'.val) ||
      c.val ≥ 'a'.val && c.val ≤ 'z'.val || c.val ≥ '0'.val && c.val ≤ '9'.val) := rfl
  rw [isWord_small small, letters]
  simp only [Bool.or_eq_true, Bool.and_eq_true, decide_eq_true_eq, beq_iff_eq, ge_iff_le,
    UInt32.le_iff_toNat_le]
  rcases continues with ((capital | lower) | rfl) | digit
  · exact .inl (.inl (.inl capital))
  · exact .inl (.inl (.inr lower))
  · exact .inr rfl
  · exact .inl (.inr digit)

theorem isWord_of_starts {c : Char} (starts : startsIdentifier c = true) : isWord c = true :=
  isWord_of_continues (by rw [continuesIdentifier, starts, Bool.true_or])

theorem isWord_of_isIdentifier {name : List Char} (identifier : isIdentifier name = true) :
    ∀ c ∈ name, isWord c = true := by
  cases name with
  | nil => simp
  | cons c rest =>
    simp only [isIdentifier, Bool.and_eq_true, List.all_eq_true] at identifier
    intro d member
    rcases List.mem_cons.mp member with rfl | member
    · exact isWord_of_starts identifier.1
    · exact isWord_of_continues (identifier.2 d member)

/-- The name is written without quotes and ends with a line break. -/
def isBroken (raw : List Char) : Bool :=
  isPlain raw && !isReserved raw && raw.getLast? == some '\n'

theorem escapedChars_of_isBroken {raw : List Char} (broken : isBroken raw = true) :
    escapedChars raw = raw := by
  simp only [isBroken, Bool.and_eq_true] at broken
  rw [escapedChars, if_pos (by rw [broken.1.1, broken.1.2]; rfl)]

theorem break_mem_of_isBroken {raw : List Char} (broken : isBroken raw = true) : '\n' ∈ raw := by
  simp only [isBroken, Bool.and_eq_true, beq_iff_eq] at broken
  exact List.mem_of_getLast? broken.2

theorem isIdentifier_of_isPlain {raw : List Char} (plain : isPlain raw = true)
    (unbroken : raw.getLast? ≠ some '\n') : isIdentifier raw = true := by
  rwa [isPlain, dropFinalBreak, if_neg unbroken] at plain

theorem not_at_of_isPlain {c : Char} {rest : List Char} (plain : isPlain (c :: rest) = true) :
    c ≠ '@' := by
  rintro rfl
  cases rest with
  | nil => exact absurd plain (by decide)
  | cons d rest =>
    rw [isPlain, dropFinalBreak] at plain
    split at plain
    · rw [List.dropLast_cons_cons] at plain
      exact absurd plain (by simp [isIdentifier, startsIdentifier, isCapital, isSmall])
    · exact absurd plain (by simp [isIdentifier, startsIdentifier, isCapital, isSmall])

theorem not_isPlain_of_mem {raw : List Char} (member : '#' ∈ raw) : isPlain raw = false := by
  have stays : '#' ∈ dropFinalBreak raw := by
    rw [dropFinalBreak]
    split
    case isTrue last =>
      obtain ⟨init, rfl⟩ := List.getLast?_eq_some_iff.mp last
      rw [List.dropLast_concat]
      simpa using member
    case isFalse => exact member
  cases plain : isPlain raw with
  | false => rfl
  | true => exact absurd (isWord_of_isIdentifier plain '#' stays) (by decide)

end Name

namespace Module
open Name Text

theorem quotedRest_escape (raw rest : List Char) :
    quotedRest (escape raw ++ '"' :: rest) = some (escape raw ++ ['"'], rest) := by
  induction raw with
  | nil => rfl
  | cons c raw ih =>
    rw [escape]
    split
    case isTrue special =>
      have visible : (c == '\n') = false := by
        simp only [Bool.or_eq_true, beq_iff_eq] at special
        rcases special with rfl | rfl <;> decide
      simp [quotedRest, visible, ih]
    case isFalse common =>
      simp only [Bool.or_eq_true, beq_iff_eq, not_or] at common
      rw [List.cons_append, quotedRest, if_neg (by simpa using common.2), ih]
      · rfl
      · exact fun h => absurd h common.1
      · exact fun _ _ h => absurd h common.1

/-- The reader finds the name that the writer wrote, unless a line break ends it unquoted. -/
theorem declaredName_escaped {raw : List Char} (sound : isBroken raw = false) (rest : List Char) :
    declaredName (escapedChars raw ++ '(' :: rest) = some (escapedChars raw, '(' :: rest) := by
  rw [escapedChars]
  split
  case isTrue bare =>
    simp only [Bool.and_eq_true] at bare
    have unbroken : raw.getLast? ≠ some '\n' := by
      rw [isBroken, bare.1, bare.2] at sound
      simpa using sound
    have identifier := isIdentifier_of_isPlain bare.1 unbroken
    have word := isWord_of_isIdentifier identifier
    cases raw with
    | nil => cases identifier
    | cons c name =>
      have starts := (Bool.and_eq_true _ _ ▸ identifier : _ ∧ _).1
      have others : ∀ d ∈ name, isWord d = true := fun d member => word d (by simp [member])
      rw [List.cons_append, declaredName, if_pos starts]
      · rw [List.takeWhile_append_of_pos others, List.dropWhile_append_of_pos others,
          List.takeWhile_cons_of_neg (by simp [isWord_parenthesis]),
          List.dropWhile_cons_of_neg (by simp [isWord_parenthesis]), List.append_nil]
      · exact fun _ at' => absurd at' (not_at_of_isPlain bare.1)
  case isFalse =>
    have quoted := quotedRest_escape raw ('(' :: rest)
    simp only [List.cons_append, List.append_assoc, declaredName, quoted,
      Option.map_some, List.nil_append]

theorem dropWord_append (word rest : List Char) : dropWord word (word ++ rest) = some rest := by
  rw [dropWord, if_pos (List.isPrefixOf_iff_prefix.mpr (List.prefix_append word rest)),
    List.drop_left]

theorem header?_escaped {raw : List Char} (sound : isBroken raw = false) (rest : List Char) :
    header? ("pub export fn ".toList ++ (escapedChars raw ++ '(' :: rest)) =
      some (escapedChars raw, rest) := by
  have flush : trimLeft ("pub export fn ".toList ++ (escapedChars raw ++ '(' :: rest)) =
      "pub export fn ".toList ++ (escapedChars raw ++ '(' :: rest) := by
    rw [trimLeft]
    exact List.dropWhile_cons_of_neg (by decide)
  rw [header?, flush, dropWord_append]
  simp only [Option.bind_eq_bind, Option.bind_some, declaredName_escaped sound]
  exact congrArg (Option.bind · _) (dropWord_append ['('] rest)

theorem mem_declared {raw : List Char} (sound : isBroken raw = false) (rest : List Char) :
    escapedChars raw ∈
      declared ("pub export fn ".toList ++ (escapedChars raw ++ '(' :: rest)) := by
  have found := header?_escaped sound rest
  rw [declared]
  generalize "pub export fn ".toList ++ (escapedChars raw ++ '(' :: rest) = code at found
  cases code with
  | nil => cases found
  | cons c code =>
    rw [declaredFrom, if_pos rfl, found]
    exact List.mem_cons_self

theorem declaredName_form {s name rest : List Char} (found : declaredName s = some (name, rest)) :
    name.head? = some '@' ∨ ∀ c ∈ name, isWord c = true := by
  rw [declaredName.eq_def] at found
  split at found
  · obtain ⟨_, _, pair⟩ := Option.map_eq_some_iff.mp found
    cases pair
    exact .inl rfl
  · rename_i c other _
    split at found
    case isTrue starts =>
      cases found
      refine .inr fun d member => ?_
      rcases List.mem_cons.mp member with rfl | member
      · exact isWord_of_starts starts
      · exact List.mem_takeWhile_imp member
    case isFalse => cases found
  · cases found

theorem declaredFrom_form {skip : Nat} {atStart : Bool} {s name : List Char}
    (member : name ∈ declaredFrom skip atStart s) :
    name.head? = some '@' ∨ ∀ c ∈ name, isWord c = true := by
  induction s generalizing skip atStart with
  | nil => cases skip <;> cases member
  | cons c rest ih =>
    cases skip with
    | succ skip => exact ih member
    | zero =>
      rw [declaredFrom] at member
      split at member
      case h_1 first after found =>
        rcases List.mem_cons.mp member with rfl | member
        · split at found
          · simp only [header?, Option.bind_eq_bind, Option.bind_eq_some_iff] at found
            obtain ⟨_, _, pair, named, _, _, rebuilt⟩ := found
            cases rebuilt
            exact declaredName_form named
          · cases found
        · exact ih member
      case h_2 => exact ih member

/-- No text declares a name that ends with a line break and stands without quotes. -/
theorem not_mem_declared {raw : List Char} (broken : isBroken raw = true) (s : List Char) :
    escapedChars raw ∉ declared s := by
  rw [escapedChars_of_isBroken broken]
  intro member
  rcases declaredFrom_form member with quoted | word
  · simp only [isBroken, Bool.and_eq_true] at broken
    cases raw with
    | nil => cases quoted
    | cons c rest => exact not_at_of_isPlain broken.1.1 (by simpa using quoted)
  · exact absurd (word '\n' (break_mem_of_isBroken broken)) (by simp [isWord_break])

end Module

end ZigBindings
