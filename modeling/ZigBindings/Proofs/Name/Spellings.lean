import Mathlib.Data.List.Chain
import ZigBindings.Proofs.Name.Normal

/-! Spellings of a list of words. However the words are told apart, by separators or by capitals, a
declaration name is the words joined by underscores: every boundary between two words is found, and none
inside a word. -/

namespace ZigBindings.Name
open Text

def isTail (c : Char) : Bool := isSmall c || isAsciiDigit c

/-- A small letter and at least one more small letter or digit. -/
def IsWord : List Char → Prop
  | first :: second :: rest => isSmall first = true ∧ ∀ c ∈ second :: rest, isTail c = true
  | _ => False

def capitalised : List Char → List Char
  | [] => []
  | first :: rest => first.toUpper :: rest

def pascalCase (words : List (List Char)) : List Char := (words.map capitalised).flatten

def camelCase : List (List Char) → List Char
  | [] => []
  | word :: words => word ++ pascalCase words

inductive Cased (word : List Char) : List Char → Prop where
  | plain : Cased word word
  | capital : Cased word (capitalised word)

/-- The words one after another, each as it is or capitalised. Two words have any separators between them,
or none if the second one is capitalised. -/
inductive Spells : List (List Char) → List Char → Prop where
  | last {word text : List Char} (cased : Cased word text) : Spells [word] text
  | apart {word text signs rest : List Char} {words : List (List Char)} (cased : Cased word text)
      (some : signs ≠ []) (separate : ∀ c ∈ signs, isSeparator c = true) (behind : Spells words rest) :
      Spells (word :: words) (text ++ (signs ++ rest))
  | hump {word text rest : List Char} {words : List (List Char)} (cased : Cased word text)
      (capital : rest.head?.any isCapital = true) (behind : Spells words rest) :
      Spells (word :: words) (text ++ rest)

/-! ### Letters -/

theorem isTail_iff {c : Char} : isTail c = true ↔
    (97 ≤ c.toNat ∧ c.toNat ≤ 122) ∨ (48 ≤ c.toNat ∧ c.toNat ≤ 57) := by
  rw [isTail, isSmall, isAsciiDigit, Bool.or_eq_true, Bool.and_eq_true, Bool.and_eq_true, decide_eq_true_eq,
    decide_eq_true_eq, decide_eq_true_eq, decide_eq_true_eq]
  exact Iff.rfl

theorem isTail_of_isSmall {c : Char} (small : isSmall c = true) : isTail c = true := by
  rw [isTail, small, Bool.true_or]

theorem tail_spec {c : Char} (tail : isTail c = true) :
    isCapital c = false ∧ isSeparator c = false ∧ c.toLower = c := by
  have each : ∀ n < 128, isTail (Char.ofNat n) = true → isCapital (Char.ofNat n) = false ∧
      isSeparator (Char.ofNat n) = false ∧ (Char.ofNat n).toLower = Char.ofNat n := by decide +kernel
  have ascii := isTail_iff.mp tail
  have one := each c.toNat (by omega)
  rw [Char.ofNat_toNat] at one
  exact one tail

theorem upper_spec {c : Char} (small : isSmall c = true) :
    c.toUpper.toNat < 128 ∧ isCapital c.toUpper = true ∧ isSeparator c.toUpper = false ∧ c.toUpper.toLower = c := by
  have each : ∀ n < 128, isSmall (Char.ofNat n) = true → (Char.ofNat n).toUpper.toNat < 128 ∧
      isCapital (Char.ofNat n).toUpper = true ∧ isSeparator (Char.ofNat n).toUpper = false ∧
      (Char.ofNat n).toUpper.toLower = Char.ofNat n := by decide +kernel
  have ascii := isTail_iff.mp (isTail_of_isSmall small)
  have one := each c.toNat (by omega)
  rw [Char.ofNat_toNat] at one
  exact one small

theorem sign_spec {c : Char} (separates : isSeparator c = true) : isCapital c = false ∧ isTail c = false := by
  have each : ∀ n < 128, isCapital (Char.ofNat n) = true → isSeparator (Char.ofNat n) = false := by decide +kernel
  constructor
  · refine Bool.eq_false_iff.mpr fun capital => ?_
    have ascii := isCapital_iff.mp capital
    have one := each c.toNat (by omega)
    rw [Char.ofNat_toNat, separates] at one
    cases one capital
  · refine Bool.eq_false_iff.mpr fun tail => ?_
    rw [(tail_spec tail).2.1] at separates
    cases separates

theorem lowerAfter_ascii {before s : List Char} (ascii : ∀ c ∈ s, c.toNat < 128) :
    lowerAfter before s = s.map Char.toLower := by
  induction s generalizing before with
  | nil => rfl
  | cons c rest ih =>
    obtain ⟨low, others⟩ := List.forall_mem_cons.mp ascii
    have plain : c ≠ 'Σ' ∧ c ≠ 'İ' := by
      constructor <;> rintro rfl <;> exact absurd low (by decide)
    rw [lowerAfter, ih others, beq_eq_false_iff_ne.mpr plain.1, beq_eq_false_iff_ne.mpr plain.2, lowerLetter, if_pos low]
    rfl

/-! ### A word in a text -/

structure Standing (word text : List Char) : Prop where
  shape : ∃ first tail, text = first :: tail ∧ tail ≠ [] ∧ ∀ c ∈ tail, isTail c = true
  plain : ∀ c ∈ text, isSeparator c = false
  lowered : lower text = word

theorem Cased.standing {word text : List Char} (known : IsWord word) (cased : Cased word text) :
    Standing word text := by
  obtain ⟨first, second, rest, rfl, small, tails⟩ : ∃ first second rest, word = first :: second :: rest ∧
      isSmall first = true ∧ ∀ c ∈ second :: rest, isTail c = true := by
    match word, known with
    | first :: second :: rest, known => exact ⟨first, second, rest, rfl, known⟩
  have fixed : (second :: rest).map Char.toLower = second :: rest :=
    (List.map_congr_left fun c member => (tail_spec (tails c member)).2.2).trans (List.map_id _)
  have stands : ∀ c, c.toNat < 128 → isSeparator c = false → c.toLower = first →
      Standing (first :: second :: rest) (c :: second :: rest) := by
    intro c ascii plain lowered
    refine ⟨⟨c, second :: rest, rfl, by simp, tails⟩, List.forall_mem_cons.mpr ⟨plain, fun d member => ?_⟩, ?_⟩
    · exact (tail_spec (tails d member)).2.1
    · rw [lower, lowerAfter_ascii (List.forall_mem_cons.mpr ⟨ascii, fun d member => ?_⟩), List.map_cons, lowered, fixed]
      have := isTail_iff.mp (tails d member)
      omega
  cases cased with
  | plain =>
    have tail := isTail_of_isSmall small
    have ascii := isTail_iff.mp tail
    exact stands first (by omega) (tail_spec tail).2.1 (tail_spec tail).2.2
  | capital =>
    obtain ⟨ascii, -, plain, lowered⟩ := upper_spec small
    exact stands first.toUpper ascii plain lowered

theorem Standing.filled {word text : List Char} (stands : Standing word text) : text ≠ [] := by
  obtain ⟨first, tail, rfl, -⟩ := stands.shape
  exact List.cons_ne_nil _ _

/-! ### Boundaries -/

theorem breakHumps_cons_of_small {a b : Char} (small : isCapital b = false) (rest : List Char) :
    breakHumps (a :: b :: rest) = a :: breakHumps (b :: rest) := by
  rw [breakHumps, small, Bool.and_false]
  rfl

theorem breakHumps_end {a : Char} (tail : isTail a = true) (rest : List Char) : breakHumps (a :: rest) =
    if rest.head?.any isCapital then a :: '_' :: breakHumps rest else a :: breakHumps rest := by
  cases rest with
  | nil => rfl
  | cons b rest =>
    rw [breakHumps, ← isTail, tail, Bool.true_and, List.head?_cons, Option.any_some]

theorem breakHumps_standing {word text : List Char} (stands : Standing word text) (rest : List Char) :
    breakHumps (text ++ rest) =
      text ++ if rest.head?.any isCapital then '_' :: breakHumps rest else breakHumps rest := by
  obtain ⟨first, tail, rfl, some, tails⟩ := stands.shape
  clear stands
  induction tail generalizing first with
  | nil => exact absurd rfl some
  | cons c tail ih =>
    obtain ⟨one, others⟩ := List.forall_mem_cons.mp tails
    rw [List.cons_append, List.cons_append, breakHumps_cons_of_small (tail_spec one).1]
    cases tail with
    | nil =>
      rw [List.nil_append, breakHumps_end one]
      split <;> rfl
    | cons d tail =>
      rw [← List.cons_append, ih c (by simp) others]
      rfl

theorem breakHumps_signs {signs : List Char} (separate : ∀ c ∈ signs, isSeparator c = true) (rest : List Char) :
    breakHumps (signs ++ rest) = signs ++ breakHumps rest := by
  induction signs with
  | nil => rfl
  | cons c signs ih =>
    obtain ⟨one, others⟩ := List.forall_mem_cons.mp separate
    rw [List.cons_append, List.cons_append, ← ih others]
    cases signs ++ rest with
    | nil => rfl
    | cons d behind =>
      rw [breakHumps, ← isTail, (sign_spec one).2, Bool.false_and]
      rfl

/-- No two capitals stand side by side, so there is no acronym. -/
def Lone (s : List Char) : Prop := s.IsChain fun a b => (isCapital a && isCapital b) = false

theorem Standing.lone {word text : List Char} (stands : Standing word text) :
    Lone text ∧ ∀ c ∈ text.getLast?, isCapital c = false := by
  obtain ⟨first, tail, rfl, some, tails⟩ := stands.shape
  have small : ∀ c ∈ tail, isCapital c = false := fun c member => (tail_spec (tails c member)).1
  constructor
  · have inside : tail.Pairwise fun a b => (isCapital a && isCapital b) = false :=
      List.pairwise_of_forall_mem_list fun a member _ _ => by rw [small a member, Bool.false_and]
    refine (List.pairwise_cons.mpr ⟨fun b member => ?_, inside⟩).isChain
    rw [small b member, Bool.and_false]
  · intro c last
    rw [List.getLast?_cons_of_ne_nil some] at last
    exact small c (List.mem_of_getLast? last)

theorem Lone.append {front behind : List Char} (first : Lone front) (small : ∀ c ∈ front.getLast?, isCapital c = false)
    (second : Lone behind) : Lone (front ++ behind) := by
  refine List.isChain_append.mpr ⟨first, second, fun a last b _ => ?_⟩
  rw [small a last, Bool.false_and]

theorem lone_signs {signs : List Char} (separate : ∀ c ∈ signs, isSeparator c = true) : Lone signs :=
  (List.pairwise_of_forall_mem_list fun a member _ _ => by rw [(sign_spec (separate a member)).1, Bool.false_and]).isChain

variable {given : List (List Char)} {text : List Char}

theorem Spells.lone (each : ∀ word ∈ given, IsWord word) (spelled : Spells given text) : Lone text := by
  induction spelled with
  | last cased => exact (cased.standing (each _ List.mem_cons_self)).lone.1
  | apart cased some separate behind ih =>
    obtain ⟨known, others⟩ := List.forall_mem_cons.mp each
    obtain ⟨first, small⟩ := (cased.standing known).lone
    refine first.append small ((lone_signs separate).append (fun c last => ?_) (ih others))
    exact (sign_spec (separate c (List.mem_of_getLast? last))).1
  | hump cased capital behind ih =>
    obtain ⟨known, others⟩ := List.forall_mem_cons.mp each
    obtain ⟨first, small⟩ := (cased.standing known).lone
    exact first.append small (ih others)

/-! ### Spellings -/

/-- Taken apart at its boundaries, a spelling gives the words back. -/
theorem Spells.apart_words (each : ∀ word ∈ given, IsWord word) (spelled : Spells given text) :
    (parts (breakHumps text)).map lower = given := by
  induction spelled with
  | @last word text cased =>
    have stands := cased.standing (each _ List.mem_cons_self)
    have alone := breakHumps_standing stands []
    rw [List.append_nil] at alone
    rw [alone]
    change List.map lower (parts (text ++ [])) = _
    rw [List.append_nil, parts_word stands.filled stands.plain, List.map_singleton, stands.lowered]
  | @apart word text signs rest words cased some separate behind ih =>
    obtain ⟨known, others⟩ := List.forall_mem_cons.mp each
    have stands := cased.standing known
    obtain ⟨sign, signs, rfl⟩ := List.exists_cons_of_ne_nil some
    have border : ((sign :: signs) ++ rest).head?.any isCapital = false :=
      (sign_spec (separate sign List.mem_cons_self)).1
    rw [breakHumps_standing stands, border, breakHumps_signs separate]
    change List.map lower (parts (text ++ sign :: (signs ++ breakHumps rest))) = _
    obtain ⟨first, more⟩ := List.forall_mem_cons.mp separate
    rw [parts_append stands.filled stands.plain first, parts_separators more, List.map_cons, stands.lowered, ih others]
  | @hump word text rest words cased capital behind ih =>
    obtain ⟨known, others⟩ := List.forall_mem_cons.mp each
    have stands := cased.standing known
    rw [breakHumps_standing stands, capital]
    change List.map lower (parts (text ++ '_' :: breakHumps rest)) = _
    rw [parts_append stands.filled stands.plain (by decide), List.map_cons, stands.lowered, ih others]

theorem Spells.declared (each : ∀ word ∈ given, IsWord word) (spelled : Spells given text) :
    declarationChars text = joinWords given := by
  rw [declarationChars, words_eq, breakAcronyms_eq (spelled.lone each), spelled.apart_words each]

theorem head_capitalised {word : List Char} (known : IsWord word) (rest : List Char) :
    (capitalised word ++ rest).head?.any isCapital = true := by
  match word, known with
  | first :: second :: tail, known => exact (upper_spec known.1).2.1

theorem pascalCase_spells {word : List Char} (each : ∀ other ∈ word :: given, IsWord other) :
    Spells (word :: given) (pascalCase (word :: given)) := by
  induction given generalizing word with
  | nil =>
    have whole : pascalCase [word] = capitalised word := by simp [pascalCase]
    rw [whole]
    exact .last .capital
  | cons next given ih =>
    obtain ⟨known, others⟩ := List.forall_mem_cons.mp each
    refine .hump .capital ?_ (ih others)
    exact head_capitalised (others next List.mem_cons_self) (pascalCase given)

theorem camelCase_spells {word : List Char} (each : ∀ other ∈ word :: given, IsWord other) :
    Spells (word :: given) (camelCase (word :: given)) := by
  cases given with
  | nil =>
    have whole : camelCase [word] = word := by simp [camelCase, pascalCase]
    rw [whole]
    exact .last .plain
  | cons next given =>
    obtain ⟨known, others⟩ := List.forall_mem_cons.mp each
    refine .hump .plain ?_ (pascalCase_spells others)
    exact head_capitalised (others next List.mem_cons_self) (pascalCase given)

/-- Every spelling of the same words has the same declaration name: the words joined by underscores. -/
theorem spellings_meet (given : List (List Char)) (some : given ≠ []) (each : ∀ word ∈ given, IsWord word) :
    declaration (String.ofList (camelCase given)) = String.ofList (joinWords given) ∧
    declaration (String.ofList (pascalCase given)) = String.ofList (joinWords given) ∧
    ∀ text, Spells given text → declaration (String.ofList text) = String.ofList (joinWords given) := by
  have meets : ∀ text, Spells given text → declaration (String.ofList text) = String.ofList (joinWords given) := by
    intro text spelled
    rw [declaration, String.toList_ofList, spelled.declared each]
  obtain ⟨word, words, rfl⟩ := List.exists_cons_of_ne_nil some
  exact ⟨meets _ (camelCase_spells each), meets _ (pascalCase_spells each), meets⟩

def heading : List (List Char) := ["get".toList, "url2".toList, "sum".toList]

theorem heading_met : (heading ≠ [] ∧ ∀ word ∈ heading, IsWord word) ∧
    declaration "getUrl2Sum" = "get_url2_sum" ∧ declaration "GetUrl2Sum" = "get_url2_sum" ∧
    declaration "Get-\tUrl2::sum" = "get_url2_sum" := by
  have each : ∀ word ∈ heading, IsWord word := by simp [heading, IsWord, isTail, isSmall, isAsciiDigit]
  have hyphen : ∀ c ∈ ['-', '\t'], isSeparator c = true :=
    List.forall_mem_cons.mpr ⟨by decide, List.forall_mem_singleton.mpr (by decide)⟩
  have colons : ∀ c ∈ [':', ':'], isSeparator c = true :=
    List.forall_mem_cons.mpr ⟨by decide, List.forall_mem_singleton.mpr (by decide)⟩
  have mixed : Spells heading "Get-\tUrl2::sum".toList :=
    .apart .capital (List.cons_ne_nil '-' ['\t']) hyphen (.apart .capital (List.cons_ne_nil ':' [':']) colons (.last .plain))
  obtain ⟨camel, pascal, meets⟩ := spellings_meet heading (List.cons_ne_nil _ _) each
  exact ⟨⟨List.cons_ne_nil _ _, each⟩, camel, pascal, meets _ mixed⟩

end ZigBindings.Name
