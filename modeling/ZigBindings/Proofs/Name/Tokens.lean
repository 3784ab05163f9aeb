import ZigBindings.Proofs.Emission.Fresh
import ZigBindings.Proofs.Name.Signs

/-! Identifiers as single tokens of the target language: a bare name that is not reserved, or a quoted
one whose text is escaped. What a name is made into is such a token, but a number behind it may end the
quotes or come to a reserved name, and a line break or a lone underscore is no name to go by. -/

namespace ZigBindings.Name
open Text

inductive Escaped : List Char → Prop where
  | nil : Escaped []
  | plain {c : Char} {rest : List Char} (quote : c ≠ '"') (slash : c ≠ '\\') (behind : Escaped rest) :
      Escaped (c :: rest)
  | special {c : Char} {rest : List Char} (some : c = '\\' ∨ c = '"') (behind : Escaped rest) :
      Escaped ('\\' :: c :: rest)

theorem escape_escaped (raw : List Char) : Escaped (escape raw) := by
  induction raw with
  | nil => exact .nil
  | cons c rest ih =>
    rw [escape]
    split
    case isTrue some => exact .special (isSpecial_iff.mp some) ih
    case isFalse common =>
      exact .plain (fun quote => common (isSpecial_iff.mpr (.inr quote)))
        (fun slash => common (isSpecial_iff.mpr (.inl slash))) ih

/-- One complete identifier. -/
inductive IsToken : List Char → Prop where
  | bare {name : List Char} (identifier : isIdentifier name = true) (free : isReserved name = false) : IsToken name
  | quoted {body : List Char} (escaped : Escaped body) : IsToken ('@' :: '"' :: (body ++ ['"']))

theorem IsToken.ends {rest : List Char} (token : IsToken ('@' :: rest)) : rest.getLast? = some '"' := by
  cases token with
  | bare identifier => simp [isIdentifier, startsIdentifier, isCapital, isSmall] at identifier
  | quoted => rw [← List.cons_append, List.getLast?_append_cons, List.getLast?_singleton]

theorem IsToken.of_escapedChars {raw : List Char} (line : '\n' ∉ raw) : IsToken (escapedChars raw) := by
  rw [escapedChars]
  split
  case isTrue plain =>
    rw [Bool.and_eq_true, Bool.not_eq_true'] at plain
    have unbroken : raw.getLast? ≠ some '\n' := fun last => line (List.mem_of_getLast? last)
    exact .bare (isIdentifier_of_isPlain plain.1 unbroken) plain.2
  case isFalse => exact .quoted (escape_escaped raw)

/-! ### Usable names -/

def endsLine (c : Char) : Bool := c == '\n' || c == '\r'

/-- An identifier on one line that can be declared and referred to. -/
structure Usable (name : List Char) : Prop where
  token : IsToken name
  referred : name ≠ ['_']
  filled : name ≠ ['@', '"', '"']
  line : ∀ c ∈ name, endsLine c = false

theorem mem_escape_iff {c : Char} {raw : List Char} (common : c ≠ '\\') : c ∈ escape raw ↔ c ∈ raw := by
  refine ⟨fun member => (mem_escape member).resolve_left common, fun member => ?_⟩
  induction raw with
  | nil => cases member
  | cons d rest ih =>
    rw [escape]
    rcases List.mem_cons.mp member with rfl | member
    · split <;> simp
    · split <;> simp [ih member]

theorem mem_escapedChars_iff {c : Char} {raw : List Char} (slash : c ≠ '\\') (sign : c ≠ '@') (quote : c ≠ '"') :
    c ∈ escapedChars raw ↔ c ∈ raw := by
  rw [escapedChars]
  split
  · rfl
  · simp [sign, quote, mem_escape_iff slash]

theorem endsLine_escapedChars {raw : List Char} :
    (∀ c ∈ escapedChars raw, endsLine c = false) ↔ ∀ c ∈ raw, endsLine c = false := by
  have same : ∀ c, endsLine c = true → (c ∈ escapedChars raw ↔ c ∈ raw) := by
    rintro c some
    refine mem_escapedChars_iff ?_ ?_ ?_ <;> rintro rfl <;> exact absurd some (by decide)
  simp only [← Bool.not_eq_true]
  exact forall_congr' fun c => imp_not_comm.trans
    ((forall_congr' fun some => not_congr (same c some)).trans imp_not_comm)

theorem escapedChars_usable {raw : List Char} :
    Usable (escapedChars raw) ↔ raw ≠ [] ∧ raw ≠ ['_'] ∧ ∀ c ∈ raw, endsLine c = false := by
  rw [← endsLine_escapedChars]
  constructor
  · intro usable
    refine ⟨?_, ?_, usable.line⟩
    · rintro rfl
      exact usable.filled rfl
    · rintro rfl
      exact usable.referred rfl
  · rintro ⟨some, named, line⟩
    have one : '\n' ∉ raw := fun member => absurd (endsLine_escapedChars.mp line _ member) (by decide)
    refine ⟨.of_escapedChars one, fun lone => named ?_, fun empty => some ?_, line⟩
    · exact escapedChars_injective (lone.trans rfl)
    · exact escapedChars_injective (empty.trans rfl)

/-- A name is made into an identifier that can be used exactly if it is not empty, not a lone underscore
and on one line. -/
theorem escaped_usable_iff (raw : String) :
    Usable (escaped raw).toList ↔ raw ≠ "" ∧ raw ≠ "_" ∧ ∀ c ∈ raw.toList, endsLine c = false := by
  rw [escaped, String.toList_ofList, escapedChars_usable]
  exact and_congr (not_congr String.toList_eq_nil_iff)
    (and_congr_left' (not_congr ⟨fun same => String.toList_injective same, fun same => same ▸ rfl⟩))

/-- An underscore and a name before a line break stay as they are, and quotes leave a line break. -/
theorem escaped_unusable : (escaped "_" = "_" ∧ ¬ Usable "_".toList) ∧
    (escaped "ping\n" = "ping\n" ∧ ¬ Usable "ping\n".toList) ∧
    escaped "two\nlines" = "@\"two\nlines\"" ∧ ¬ Usable "@\"two\nlines\"".toList := by
  have broken {name : List Char} (member : '\n' ∈ name) : ¬ Usable name := fun usable =>
    absurd (usable.line _ member) (by decide)
  exact ⟨⟨by decide +kernel, fun usable => usable.referred rfl⟩, ⟨by decide +kernel, broken (by decide)⟩,
    by decide +kernel, broken (by decide)⟩

/-! ### Identifiers of declaration names -/

theorem not_isSeparator_pieces (s : List Char) :
    ∀ part ∈ (pieces s).1 :: (pieces s).2, ∀ c ∈ part, isSeparator c = false := by
  induction s with
  | nil => simp [pieces]
  | cons d rest ih =>
    obtain ⟨first, others⟩ := List.forall_mem_cons.mp ih
    rw [pieces]
    dsimp only
    split
    case isTrue => exact List.forall_mem_cons.mpr ⟨by simp, ih⟩
    case isFalse plain =>
      refine List.forall_mem_cons.mpr ⟨List.forall_mem_cons.mpr ⟨?_, first⟩, others⟩
      exact Bool.eq_false_iff.mpr plain

theorem not_line_declaration (raw : List Char) : '\n' ∉ declarationChars raw := by
  intro member
  rcases mem_joinWords member with line | ⟨_, inside, found⟩
  · exact absurd line (by decide)
  · obtain ⟨word, known, rfl⟩ := List.mem_map.mp inside
    rw [words] at known
    have plain := not_isSeparator_pieces _ word (List.mem_filter.mp known).1
    exact absurd (not_isSeparator_lower plain _ found) (by decide)

theorem not_line_identifier (raw : String) : '\n' ∉ (identifier raw).toList := by
  rw [identifier, escaped, String.toList_ofList, declaration, String.toList_ofList,
    mem_escapedChars_iff (by decide) (by decide) (by decide)]
  exact not_line_declaration raw.toList

theorem identifier_isToken (raw : String) : IsToken (identifier raw).toList := by
  rw [identifier, escaped, String.toList_ofList, declaration, String.toList_ofList]
  exact .of_escapedChars (not_line_declaration raw.toList)

/-! ### Numbered identifiers -/

open Emission (numbered digits_reverse)

theorem dropFinalBreak_of_isIdentifier {name : List Char} (identifier : isIdentifier name = true) :
    dropFinalBreak name = name := by
  rw [dropFinalBreak, if_neg]
  intro last
  exact absurd (isWord_of_isIdentifier identifier _ (List.mem_of_getLast? last)) (by decide)

theorem isDigit_of_isDigit {c : Char} (digit : c.isDigit = true) : isDigit c = true := by
  have code : c.toNat < 128 := by
    simp only [Char.isDigit, Bool.and_eq_true, decide_eq_true_eq, ge_iff_le, UInt32.le_iff_toNat_le] at digit
    have same : c.toNat = c.val.toNat := rfl
    have last : ('9' : Char).val.toNat = 57 := rfl
    omega
  rw [isDigit, if_pos code, digit]

theorem continues_of_isDigit {c : Char} (digit : c.isDigit = true) : continuesIdentifier c = true := by
  have ascii : isAsciiDigit c = c.isDigit := rfl
  rw [continuesIdentifier, ascii, digit, Bool.or_true]

theorem toString_digits (n : Nat) : (∀ c ∈ (toString n).toList, c.isDigit = true) ∧
    ∃ init last, (toString n).toList = init ++ [last] ∧ last.isDigit = true := by
  have digits : ∀ c ∈ (toString n).toList, c.isDigit = true := fun c member =>
    digits_reverse n c (List.mem_reverse.mpr member)
  refine ⟨digits, ?_⟩
  have some : (toString n).toList ≠ [] := by
    have same : (toString n).toList = Nat.toDigits 10 n := Nat.toList_repr
    rw [same]
    exact Nat.toDigits_ne_nil
  obtain ⟨init, last, same⟩ := (List.eq_nil_or_concat' _).resolve_left some
  exact ⟨init, last, same, digits last (same ▸ List.mem_append_right _ (List.mem_singleton_self last))⟩

theorem numbered_last (stem : String) (n : Nat) : ∃ init last,
    (numbered stem n).toList = init ++ [last] ∧ stem.toList <+: init ∧ last.isDigit = true := by
  obtain ⟨-, init, last, same, digit⟩ := toString_digits n
  refine ⟨stem.toList ++ init, last, ?_, List.prefix_append _ _, digit⟩
  rw [numbered, String.toList_append, same, List.append_assoc]

theorem not_isToken_numbered {body : List Char} {name : String} (quoted : name.toList = '@' :: body) (n : Nat) :
    ¬ IsToken (numbered name n).toList := by
  obtain ⟨init, last, same, ⟨middle, rfl⟩, digit⟩ := numbered_last name n
  rw [same, quoted]
  intro token
  have quote : last = '"' := by simpa using token.ends
  exact absurd digit (quote ▸ by decide)

theorem isIdentifier_numbered {name : String} (bare : isIdentifier name.toList = true) (n : Nat) :
    isIdentifier (numbered name n).toList = true := by
  have digits := (toString_digits n).1
  rw [numbered, String.toList_append]
  cases chars : name.toList with
  | nil => rw [chars] at bare; cases bare
  | cons c rest =>
    rw [chars, isIdentifier, Bool.and_eq_true] at bare
    rw [List.cons_append, isIdentifier, Bool.and_eq_true, List.all_append, Bool.and_eq_true]
    exact ⟨bare.1, bare.2, List.all_eq_true.mpr fun d member => continues_of_isDigit (digits d member)⟩

/-- Float types are the only names with a number among the keywords and the primitives. -/
def floats : List String := ["f16", "f32", "f64", "f80", "f128"]

theorem isIntegerType_cons (c : Char) {digits : List Char} (some : digits ≠ []) :
    isIntegerType (c :: digits) = ((c == 'i' || c == 'u') && digits.all isDigit) := by
  cases digits with
  | nil => exact absurd rfl some
  | cons => rfl

/-- Only the sign of an integer type may stand alone, since with digits it is reserved. -/
theorem isIntegerType_numbered {name : String} (bare : isIdentifier name.toList = true)
    (free : isReserved name.toList = false) (n : Nat) :
    isIntegerType (numbered name n).toList = true ↔ name = "i" ∨ name = "u" := by
  obtain ⟨digits, -⟩ := toString_digits n
  have all : (toString n).toList.all isDigit = true :=
    List.all_eq_true.mpr fun d member => isDigit_of_isDigit (digits d member)
  cases chars : name.toList with
  | nil => rw [chars] at bare; cases bare
  | cons c rest =>
    have digits : rest ++ (toString n).toList ≠ [] := by simp
    have whole : (numbered name n).toList = c :: (rest ++ (toString n).toList) := by
      rw [numbered, String.toList_append, chars, List.cons_append]
    rw [whole, isIntegerType_cons c digits, List.all_append, all, Bool.and_true, Bool.and_eq_true]
    have alone : (c == 'i' || c == 'u') = true → rest.all isDigit = true → rest = [] := by
      intro sign rest_digits
      by_contra more
      have type : isIntegerType (dropFinalBreak name.toList) = true := by
        rw [dropFinalBreak_of_isIdentifier bare, chars, isIntegerType_cons c more, sign, rest_digits]
        rfl
      rw [isReserved, type, Bool.or_true] at free
      cases free
    constructor
    · rintro ⟨sign, rest_digits⟩
      rw [alone sign rest_digits] at chars
      rw [Bool.or_eq_true, beq_iff_eq, beq_iff_eq] at sign
      refine sign.imp (fun same => ?_) fun same => ?_ <;>
        exact String.toList_injective (chars.trans (by rw [same]; rfl))
    · rintro (rfl | rfl) <;> cases chars <;> exact ⟨rfl, rfl⟩

theorem isReserved_numbered {name : String} (bare : isIdentifier name.toList = true)
    (free : isReserved name.toList = false) (n : Nat) :
    isReserved (numbered name n).toList = true ↔ name = "i" ∨ name = "u" ∨ numbered name n ∈ floats := by
  obtain ⟨init, last, same, -, digit⟩ := numbered_last name n
  have words : ∀ word ∈ keywords, word.toList.getLast?.any Char.isDigit = false := by decide +kernel
  have types : ∀ word ∈ primitives, word.toList.getLast?.any Char.isDigit = true → word ∈ floats := by
    decide +kernel
  have known : ∀ word ∈ floats, word ∈ primitives := by decide
  have ends : (numbered name n).toList.getLast?.any Char.isDigit = true := by simp [same, digit]
  have none : numbered name n ∉ keywords := fun member => by
    rw [words _ member] at ends
    cases ends
  have float : numbered name n ∈ primitives ↔ numbered name n ∈ floats :=
    ⟨fun member => types _ member ends, known _⟩
  rw [isReserved, dropFinalBreak_of_isIdentifier (isIdentifier_numbered bare n), String.ofList_toList,
    Bool.or_eq_true, Bool.or_eq_true, List.contains_iff_mem, List.contains_iff_mem,
    isIntegerType_numbered bare free, float, or_iff_right none, or_comm, or_assoc]

/-- A name stays an identifier with a number behind it: it is bare, and the two are neither an integer
type nor a float type. -/
structure Bears (name numbered : String) : Prop where
  bare : isIdentifier name.toList = true
  integer : name ≠ "i" ∧ name ≠ "u"
  float : numbered ∉ floats

theorem isToken_numbered {name : String} (token : IsToken name.toList) (n : Nat) :
    IsToken (numbered name n).toList ↔ Bears name (numbered name n) := by
  generalize chars : name.toList = text at token
  cases token with
  | bare bare free =>
    rw [← chars] at bare free
    have whole := isIdentifier_numbered bare n
    have reserved := isReserved_numbered bare free n
    constructor
    · intro token
      have free : ¬ isReserved (numbered name n).toList = true := by
        generalize (numbered name n).toList = text at token whole
        cases token with
        | bare _ free => rw [free]; decide
        | quoted => cases whole
      rw [reserved, not_or, not_or] at free
      exact ⟨bare, ⟨free.1, free.2.1⟩, free.2.2⟩
    · intro bears
      refine .bare whole (Bool.eq_false_iff.mpr fun some => ?_)
      rcases reserved.mp some with signed | unsigned | float
      · exact bears.integer.1 signed
      · exact bears.integer.2 unsigned
      · exact bears.float float
  | @quoted body =>
    refine iff_of_false (not_isToken_numbered chars n) fun bears => ?_
    have never := bears.bare
    rw [chars] at never
    cases never

end ZigBindings.Name
