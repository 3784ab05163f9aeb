import ZigBindings.Proofs.Name.Lowering
import ZigBindings.Proofs.Name.Tokens

/-! Declaration names are in normal form: words without capitals or separators, joined by single
underscores. Such a name has no boundaries but its underscores, so it is taken apart into the words it
is made of and comes out again as it was. -/

namespace ZigBindings.Name
open Text

/-! ### Words between separators -/

def parts (s : List Char) : List (List Char) := ((pieces s).1 :: (pieces s).2).filter (!·.isEmpty)

theorem words_eq (s : List Char) : words s = parts (breakHumps (breakAcronyms s)) := rfl

theorem pieces_append {word : List Char} (plain : ∀ c ∈ word, isSeparator c = false) (rest : List Char) :
    pieces (word ++ rest) = (word ++ (pieces rest).1, (pieces rest).2) := by
  induction word with
  | nil => rfl
  | cons c word ih =>
    obtain ⟨first, others⟩ := List.forall_mem_cons.mp plain
    rw [List.cons_append, pieces, ih others, first]
    rfl

theorem parts_separator {c : Char} (separates : isSeparator c = true) (rest : List Char) :
    parts (c :: rest) = parts rest := by
  rw [parts, pieces, separates]
  rfl

theorem parts_separators {signs : List Char} (separate : ∀ c ∈ signs, isSeparator c = true) (rest : List Char) :
    parts (signs ++ rest) = parts rest := by
  induction signs with
  | nil => rfl
  | cons c signs ih =>
    obtain ⟨first, others⟩ := List.forall_mem_cons.mp separate
    rw [List.cons_append, parts_separator first, ih others]

theorem parts_word {word : List Char} (some : word ≠ []) (plain : ∀ c ∈ word, isSeparator c = false) :
    parts word = [word] := by
  have whole := pieces_append plain []
  rw [List.append_nil, pieces, List.append_nil] at whole
  rw [parts, whole, List.filter_cons_of_pos (by simpa using some)]
  rfl

theorem parts_append {word : List Char} (some : word ≠ []) (plain : ∀ c ∈ word, isSeparator c = false)
    {c : Char} (separates : isSeparator c = true) (rest : List Char) :
    parts (word ++ c :: rest) = word :: parts rest := by
  rw [parts, pieces_append plain, pieces, separates]
  change List.filter _ ((word ++ []) :: _) = _
  rw [List.append_nil, List.filter_cons_of_pos (by simpa using some)]
  rfl

theorem parts_joinWords {given : List (List Char)}
    (each : ∀ word ∈ given, word ≠ [] ∧ ∀ c ∈ word, isSeparator c = false) : parts (joinWords given) = given := by
  induction given with
  | nil => rfl
  | cons word rest ih =>
    obtain ⟨⟨some, plain⟩, others⟩ := List.forall_mem_cons.mp each
    cases rest with
    | nil =>
      rw [joinWords, List.intercalate_singleton]
      exact parts_word some plain
    | cons next behind =>
      rw [joinWords, List.intercalate_cons_cons, List.append_assoc, List.singleton_append,
        parts_append some plain (by decide), ← joinWords, ih others]

theorem mem_words {s word : List Char} (member : word ∈ words s) :
    word ≠ [] ∧ ∀ c ∈ word, isSeparator c = false := by
  rw [words_eq, parts, List.mem_filter] at member
  exact ⟨by simpa using member.2, not_isSeparator_pieces _ word member.1⟩

/-! ### Texts without boundaries inside -/

theorem breakAcronyms_eq {s : List Char} (lone : s.IsChain fun a b => (isCapital a && isCapital b) = false) :
    breakAcronyms s = s := by
  fun_induction breakAcronyms s with
  | case1 a b c rest acronym =>
    rw [Bool.and_eq_true, (List.isChain_cons_cons.mp lone).1] at acronym
    cases acronym.1
  | case2 a b c rest _ ih => rw [ih (List.isChain_cons_cons.mp lone).2]
  | case3 => rfl

theorem breakHumps_eq {s : List Char} (small : ∀ c ∈ s, isCapital c = false) : breakHumps s = s := by
  fun_induction breakHumps s with
  | case1 a b rest hump =>
    rw [Bool.and_eq_true, small b (by simp)] at hump
    cases hump.2
  | case2 a b rest _ ih => rw [ih fun c member => small c (List.mem_cons_of_mem _ member)]
  | case3 => rfl

theorem words_of_small {s : List Char} (small : ∀ c ∈ s, isCapital c = false) : words s = parts s := by
  have lone : s.IsChain fun a b => (isCapital a && isCapital b) = false :=
    List.Pairwise.isChain (List.pairwise_of_forall_mem_list fun a member _ _ => by rw [small a member, Bool.false_and])
  rw [words_eq, breakAcronyms_eq lone, breakHumps_eq small]

/-! ### Normal form -/

/-- Words joined by single underscores, with none at the ends; no capitals and no other separators. -/
structure Normal (name : List Char) : Prop where
  words : ∃ given, name = joinWords given ∧ ∀ word ∈ given, word ≠ [] ∧ '_' ∉ word
  starts : name.head? ≠ some '_'
  ends : name.getLast? ≠ some '_'
  capitals : ∀ c ∈ name, isCapital c = false
  separators : ∀ c ∈ name, isSeparator c = true → c = '_'

variable {given : List (List Char)} {c : Char}

theorem mem_of_head_joinWords (some : ∀ word ∈ given, word ≠ []) (first : c ∈ (joinWords given).head?) :
    ∃ word ∈ given, c ∈ word := by
  cases given with
  | nil => cases first
  | cons word rest =>
    refine ⟨word, List.mem_cons_self, List.mem_of_head? ?_⟩
    obtain ⟨d, others, rfl⟩ := List.exists_cons_of_ne_nil (some word List.mem_cons_self)
    cases rest <;> exact first

theorem mem_of_last_joinWords (some : ∀ word ∈ given, word ≠ []) (last : c ∈ (joinWords given).getLast?) :
    ∃ word ∈ given, c ∈ word := by
  induction given with
  | nil => cases last
  | cons word rest ih =>
    cases rest with
    | nil =>
      rw [joinWords, List.intercalate_singleton] at last
      exact ⟨word, List.mem_cons_self, List.mem_of_getLast? last⟩
    | cons next behind =>
      have filled : joinWords (next :: behind) ≠ [] := by
        obtain ⟨d, others, rfl⟩ := List.exists_cons_of_ne_nil (some next (by simp))
        cases behind <;> exact List.cons_ne_nil _ _
      rw [joinWords, List.intercalate_cons_cons, ← joinWords, List.getLast?_append_of_ne_nil _ filled] at last
      obtain ⟨word, member, inside⟩ := ih (fun word member => some word (List.mem_cons_of_mem _ member)) last
      exact ⟨word, List.mem_cons_of_mem _ member, inside⟩

theorem lowered_words (raw : List Char) :
    ∀ word ∈ (words raw).map lower, word ≠ [] ∧ ∀ c ∈ word, isSeparator c = false := by
  refine List.forall_mem_map.mpr fun word member => ?_
  obtain ⟨some, plain⟩ := mem_words member
  exact ⟨lower_ne_nil some, not_isSeparator_lower plain⟩

theorem declarationChars_normal (raw : List Char) : Normal (declarationChars raw) := by
  have each := lowered_words raw
  have some : ∀ word ∈ (words raw).map lower, word ≠ [] := fun word member => (each word member).1
  have bare : ∀ word ∈ (words raw).map lower, '_' ∉ word := fun word member line =>
    absurd ((each word member).2 _ line) (by decide)
  refine ⟨⟨_, rfl, fun word member => ⟨some word member, bare word member⟩⟩, ?_, ?_, not_isCapital_declaration, ?_⟩
  · intro line
    obtain ⟨word, member, inside⟩ := mem_of_head_joinWords some line
    exact bare word member inside
  · intro line
    obtain ⟨word, member, inside⟩ := mem_of_last_joinWords some line
    exact bare word member inside
  · intro c member separates
    rcases mem_joinWords member with line | ⟨word, known, inside⟩
    · exact line
    · rw [(each word known).2 c inside] at separates
      cases separates

theorem declarationChars_declarationChars (raw : List Char) :
    declarationChars (declarationChars raw) = declarationChars raw := by
  have again : words (declarationChars raw) = (words raw).map lower := by
    rw [words_of_small not_isCapital_declaration]
    exact parts_joinWords (lowered_words raw)
  have fixed : ((words raw).map lower).map lower = (words raw).map lower := by
    rw [List.map_map]
    exact List.map_congr_left fun word _ => lower_lower word
  calc
    declarationChars (declarationChars raw) = joinWords ((words (declarationChars raw)).map lower) := rfl
    _ = joinWords ((words raw).map lower) := by rw [again, fixed]

theorem declaration_declaration (raw : String) : declaration (declaration raw) = declaration raw := by
  rw [declaration, declaration, String.toList_ofList, declarationChars_declarationChars]

end ZigBindings.Name
