import ZigBindings.Proofs.Name.Escaping
import ZigBindings.Zig.Lines

/-! Reading string literals and quoted identifiers of the generated source. A text that is written
between quotes as it is comes back from there only if it has no quote and no backslash; one that was
escaped always does. -/

namespace ZigBindings.Zig

def hexDigit? (c : Char) : Option Nat :=
  if c.isDigit then some (c.toNat - 48)
  else if 'a' ≤ c && c ≤ 'f' then some (c.toNat - 87)
  else if 'A' ≤ c && c ≤ 'F' then some (c.toNat - 55)
  else none

def hexNumber : List Char → Option Nat
  | [] => some 0
  | c :: rest => do
    let digit ← hexDigit? c
    let n ← hexNumber rest
    pure (16 ^ rest.length * digit + n)

/-- What an escape stands for, and the number of characters behind its backslash. A byte of eight bits
is no character. -/
def unescape : List Char → Option (Char × Nat)
  | 'n' :: _ => some ('\n', 1)
  | 'r' :: _ => some ('\r', 1)
  | 't' :: _ => some ('\t', 1)
  | '\\' :: _ => some ('\\', 1)
  | '\x27' :: _ => some ('\x27', 1)
  | '"' :: _ => some ('"', 1)
  | 'x' :: a :: b :: _ => do
    let n ← hexNumber [a, b]
    if n < 128 then some (Char.ofNat n, 3) else none
  | 'u' :: '\x7b' :: rest => do
    let digits := rest.takeWhile (· != '\x7d')
    let n ← hexNumber digits
    match rest.dropWhile (· != '\x7d') with
    | '\x7d' :: _ => if n.isValidChar then some (Char.ofNat n, digits.length + 3) else none
    | _ => none
  | _ => none

/-- The text of a literal from behind its opening quote on, and what follows its closing quote. The
first `skip` characters belong to an escape that was read already. -/
def readFrom : Nat → List Char → Option (List Char × List Char)
  | _, [] => none
  | skip + 1, _ :: rest => readFrom skip rest
  | 0, c :: rest =>
    if c == '"' then some ([], rest)
    else if c == '\\' then
      (unescape rest).bind fun (meant, length) =>
        (readFrom length rest).map fun (text, behind) => (meant :: text, behind)
    else (readFrom 0 rest).map fun (text, behind) => (c :: text, behind)

def readLiteral (s : List Char) : Option (List Char × List Char) := readFrom 0 s

/-- What an identifier denotes, quoted or not, and what follows it. -/
def readIdentifier : List Char → Option (List Char × List Char)
  | '@' :: '"' :: rest => readLiteral rest
  | c :: rest =>
    if Name.startsIdentifier c then
      some (c :: rest.takeWhile Name.continuesIdentifier, rest.dropWhile Name.continuesIdentifier)
    else none
  | [] => none

section
variable {s rest : List Char} {c : Char}

theorem readFrom_eq (skip : Nat) (s : List Char) : readFrom skip s = readLiteral (s.drop skip) := by
  induction skip generalizing s with
  | zero => rfl
  | succ skip ih =>
    cases s with
    | nil => rfl
    | cons c rest => exact ih rest

theorem readLiteral_quote (rest : List Char) : readLiteral ('"' :: rest) = some ([], rest) := rfl

theorem readLiteral_plain (quote : c ≠ '"') (slash : c ≠ '\\') (rest : List Char) :
    readLiteral (c :: rest) = (readLiteral rest).map fun (text, behind) => (c :: text, behind) := by
  rw [readLiteral, readFrom, if_neg (by simpa using quote), if_neg (by simpa using slash)]
  rfl

theorem readLiteral_escape {v behind : List Char} (read : readLiteral ('\\' :: rest) = some (v, behind)) :
    ∃ meant length text, unescape rest = some (meant, length) ∧
      readLiteral (rest.drop length) = some (text, behind) ∧ v = meant :: text := by
  rw [readLiteral, readFrom, if_neg (by decide), if_pos (by decide)] at read
  obtain ⟨⟨meant, length⟩, stands, read⟩ := Option.bind_eq_some_iff.mp read
  obtain ⟨⟨text, _⟩, others, same⟩ := Option.map_eq_some_iff.mp read
  cases same
  exact ⟨meant, length, text, stands, by rw [← readFrom_eq]; exact others, rfl⟩

theorem quote_not_mem_of_hexNumber {digits : List Char} {n : Nat} (number : hexNumber digits = some n) :
    '"' ∉ digits := by
  induction digits generalizing n with
  | nil => simp
  | cons c rest ih =>
    obtain ⟨digit, first, number⟩ := Option.bind_eq_some_iff.mp number
    obtain ⟨m, others, -⟩ := Option.bind_eq_some_iff.mp number
    rintro (_ | ⟨_, member⟩)
    · rw [show hexDigit? '"' = none by decide] at first
      cases first
    · exact ih others member

/-- An escape is a part of the text; the only one with a quote in it stands for that quote. -/
theorem unescape_spec {meant : Char} {length : Nat} (stands : unescape s = some (meant, length)) :
    0 < length ∧ length ≤ s.length ∧ ('"' ∈ s.take length → length = 1 ∧ meant = '"') := by
  rw [unescape.eq_def] at stands
  split at stands
  case h_7 a b rest =>
    obtain ⟨n, number, stands⟩ := Option.bind_eq_some_iff.mp stands
    split at stands
    case isFalse => cases stands
    case isTrue =>
      cases stands
      have none := quote_not_mem_of_hexNumber number
      simp only [List.mem_cons, List.not_mem_nil, or_false, not_or] at none
      refine ⟨by omega, by simp, fun member => ?_⟩
      simp only [List.take_succ_cons, List.take_zero, List.mem_cons, List.not_mem_nil, or_false] at member
      exact absurd member (by simp [none])
  case h_8 rest =>
    obtain ⟨n, number, stands⟩ := Option.bind_eq_some_iff.mp stands
    split at stands
    case h_1 behind closes =>
      split at stands
      case isFalse => cases stands
      case isTrue =>
        cases stands
        have whole := List.takeWhile_append_dropWhile (p := (· != '\x7d')) (l := rest)
        rw [closes] at whole
        have none := quote_not_mem_of_hexNumber number
        generalize rest.takeWhile (· != '\x7d') = digits at whole none
        subst whole
        refine ⟨by omega, by simp only [List.length_cons, List.length_append]; omega, fun member => ?_⟩
        have taken : ('u' :: '\x7b' :: (digits ++ '\x7d' :: behind)).take (digits.length + 3) =
            'u' :: '\x7b' :: (digits ++ ['\x7d']) := by
          rw [List.take_succ_cons, List.take_succ_cons, List.append_cons, List.take_left' (by simp)]
        rw [taken] at member
        simp [none] at member
    case h_2 => cases stands
  case h_9 => cases stands
  all_goals
    cases stands
    simp

/-- Where a literal that goes on behind its end would end: on another line, or not in a backslash. -/
def Clear (tail : List Char) : Prop :=
  ∀ v behind, readLiteral tail = some (v, behind) → '\n' ∈ v ∨ v.getLast? ≠ some '\\'

variable {q tail v behind : List Char}

theorem escape_cases (read : readLiteral ('\\' :: (q ++ '"' :: tail)) = some (v, behind)) :
    (∃ code others meant text, q = code ++ others ∧ code ≠ [] ∧ v = meant :: text ∧
      readLiteral (others ++ '"' :: tail) = some (text, behind)) ∨
    (q = [] ∧ ∃ text, v = '"' :: text ∧ readLiteral tail = some (text, behind)) := by
  obtain ⟨meant, length, text, stands, further, rfl⟩ := readLiteral_escape read
  obtain ⟨some, inside, quoted⟩ := unescape_spec stands
  by_cases within : length ≤ q.length
  · left
    refine ⟨q.take length, q.drop length, meant, text, (List.take_append_drop _ _).symm, ?_, rfl, ?_⟩
    · exact List.ne_nil_of_length_pos (by rw [List.length_take]; omega)
    · rwa [List.drop_append_of_le_length within] at further
  · have member : '"' ∈ (q ++ '"' :: tail).take length := by
      rw [List.take_append, List.take_of_length_le (by omega)]
      obtain ⟨more, same⟩ : ∃ more, length - q.length = more + 1 := ⟨length - q.length - 1, by omega⟩
      simp [same]
    obtain ⟨rfl, rfl⟩ := quoted member
    obtain rfl : q = [] := List.length_eq_zero_iff.mp (by omega)
    exact .inr ⟨rfl, text, rfl, further⟩

theorem read_ne_append {u : List Char} (ahead : u ≠ []) (line : '\n' ∉ u ++ q) (clear : Clear tail)
    (read : readLiteral (q ++ '"' :: tail) = some (v, behind)) : v ≠ u ++ q := by
  induction length : q.length using Nat.strong_induction_on generalizing q u v with
  | _ n ih =>
    cases q with
    | nil =>
      cases read
      simpa using ahead.symm
    | cons c q =>
      simp only [List.mem_append, List.mem_cons, not_or] at line
      rw [List.cons_append] at read
      by_cases quote : c = '"'
      · subst quote
        cases read
        simp
      by_cases slash : c = '\\'
      · subst slash
        rintro rfl
        rcases escape_cases read with ⟨code, others, meant, text, rfl, some, same, further⟩ | ⟨rfl, text, same, further⟩
        · cases u with
          | nil => exact ahead rfl
          | cons d u =>
            obtain ⟨rfl, rest⟩ := List.cons.inj same
            have shorter : others.length < n := by simp at length; omega
            refine ih _ shorter (u := u ++ '\\' :: code) (by simp) ?_ further rfl (rest.symm.trans ?_)
            · simp only [List.mem_append, List.mem_cons, not_or] at line ⊢
              exact ⟨⟨line.1.2, by decide, line.2.2.1⟩, line.2.2.2⟩
            · simp
        · cases u with
          | nil => exact ahead rfl
          | cons d u =>
            obtain ⟨rfl, rest⟩ := List.cons.inj same
            rcases clear _ _ further with broken | ends
            · rw [← rest] at broken
              rcases List.mem_append.mp broken with early | last
              · exact line.1 (List.mem_cons_of_mem _ early)
              · exact absurd (List.mem_singleton.mp last) (by decide)
            · rw [← rest] at ends
              simp at ends
      · rw [readLiteral_plain quote slash] at read
        obtain ⟨⟨text, _⟩, read, same⟩ := Option.map_eq_some_iff.mp read
        cases same
        cases u with
        | nil => exact absurd rfl ahead
        | cons d u =>
          intro same
          obtain ⟨rfl, rest⟩ := List.cons.inj same
          have shorter : q.length < n := by simp at length; omega
          refine ih _ shorter (u := u ++ [c]) (by simp) ?_ read rfl (rest.trans (by simp))
          simp_all

/-- A text on one line that stands between quotes as it is is read as itself exactly if it has neither
a quote nor a backslash. -/
theorem readLiteral_raw (line : '\n' ∉ q) (clear : Clear tail) :
    readLiteral (q ++ '"' :: tail) = some (q, behind) ↔ (∀ c ∈ q, c ≠ '"' ∧ c ≠ '\\') ∧ behind = tail := by
  induction q with
  | nil => simp [readLiteral_quote, eq_comm]
  | cons c q ih =>
    simp only [List.mem_cons, not_or] at line
    rw [List.cons_append]
    by_cases quote : c = '"'
    · simp [quote, readLiteral_quote]
    by_cases slash : c = '\\'
    · subst slash
      refine iff_of_false (fun read => ?_) (by simp)
      rcases escape_cases read with ⟨code, others, meant, text, rfl, some, same, further⟩ | ⟨rfl, text, same, further⟩
      · obtain ⟨-, rest⟩ := List.cons.inj same
        exact read_ne_append some line.2 clear further rest.symm
      · cases same
    · rw [readLiteral_plain quote slash]
      have step : (∃ result, readLiteral (q ++ '"' :: tail) = some result ∧
          (c :: result.1, result.2) = (c :: q, behind)) ↔ readLiteral (q ++ '"' :: tail) = some (q, behind) := by
        simp only [Prod.mk.injEq, List.cons.injEq, true_and]
        exact ⟨fun ⟨_, read, text, rest⟩ => by rw [read, ← text, ← rest], fun read => ⟨_, read, rfl, rfl⟩⟩
      rw [Option.map_eq_some_iff, step, ih line.2, List.forall_mem_cons]
      exact and_congr_left' ⟨fun others => ⟨⟨quote, slash⟩, others⟩, And.right⟩

theorem readLiteral_escaped (raw tail : List Char) :
    readLiteral (Name.escape raw ++ '"' :: tail) = some (raw, tail) := by
  induction raw with
  | nil => rfl
  | cons c rest ih =>
    rw [Name.escape]
    split
    case isTrue special =>
      have stands : ∀ s, unescape (c :: s) = some (c, 1) := fun s => by
        rcases Name.isSpecial_iff.mp special with rfl | rfl <;> rfl
      rw [List.cons_append, List.cons_append, readLiteral, readFrom, if_neg (by decide), if_pos (by decide),
        stands, Option.bind_some]
      exact congrArg (Option.map _) ih
    case isFalse plain =>
      rw [List.cons_append, readLiteral_plain (by simp_all) (by simp_all), ih]
      rfl

end

section
variable {raw : List Char}

theorem readIdentifier_bare {name rest : List Char} (identifier : Name.isIdentifier name = true)
    (ends : rest.head?.any Name.continuesIdentifier = false) :
    readIdentifier (name ++ rest) = some (name, rest) := by
  cases name with
  | nil => cases identifier
  | cons c name =>
    simp only [Name.isIdentifier, Bool.and_eq_true] at identifier
    have all := List.all_eq_true.mp identifier.2
    have stops : rest.takeWhile Name.continuesIdentifier = [] ∧ rest.dropWhile Name.continuesIdentifier = rest := by
      cases rest with
      | nil => exact ⟨rfl, rfl⟩
      | cons d rest => simp_all
    have other : c ≠ '@' := by
      rintro rfl
      exact absurd identifier.1 (by decide)
    rw [List.cons_append, readIdentifier.eq_def]
    split
    case h_1 same =>
      exact absurd (List.cons.inj same).1 other
    case h_2 d others same =>
      obtain ⟨rfl, rfl⟩ := List.cons.inj same
      rw [if_pos identifier.1, List.takeWhile_append_of_pos all, List.dropWhile_append_of_pos all, stops.1, stops.2,
        List.append_nil]
    case h_3 never => cases never

theorem readIdentifier_escaped (sound : Name.isBroken raw = false) (rest : List Char) :
    readIdentifier (Name.escapedChars raw ++ '(' :: rest) = some (raw, '(' :: rest) := by
  rw [Name.escapedChars]
  split
  case isTrue bare =>
    rw [Name.isBroken, bare, Bool.true_and, beq_eq_false_iff_ne] at sound
    rw [Bool.and_eq_true, Name.isPlain, Text.dropFinalBreak, if_neg sound] at bare
    exact readIdentifier_bare bare.1 (show Name.continuesIdentifier '(' = false by decide)
  case isFalse =>
    rw [List.cons_append, List.cons_append, List.append_assoc]
    exact readLiteral_escaped raw _

theorem readIdentifier_broken (broken : Name.isBroken raw = true) (rest : List Char) :
    readIdentifier (Name.escapedChars raw ++ '(' :: rest) = some (raw.dropLast, '\n' :: '(' :: rest) := by
  rw [Name.escapedChars_of_isBroken broken]
  simp only [Name.isBroken, Bool.and_eq_true, beq_iff_eq] at broken
  obtain ⟨⟨plain, -⟩, ends⟩ := broken
  rw [Name.isPlain, Text.dropFinalBreak, if_pos ends] at plain
  have whole : raw ++ '(' :: rest = raw.dropLast ++ '\n' :: '(' :: rest := by
    obtain ⟨front, rfl⟩ := List.getLast?_eq_some_iff.mp ends
    simp
  rw [whole]
  exact readIdentifier_bare plain (show Name.continuesIdentifier '\n' = false by decide)

theorem readIdentifier_escaped_iff (raw rest : List Char) :
    (∃ behind, readIdentifier (Name.escapedChars raw ++ '(' :: rest) = some (raw, behind)) ↔
      Name.isBroken raw = false := by
  cases broken : Name.isBroken raw with
  | false => exact iff_of_true ⟨_, readIdentifier_escaped broken rest⟩ rfl
  | true =>
    refine iff_of_false ?_ (by decide)
    rintro ⟨behind, read⟩
    rw [readIdentifier_broken broken] at read
    have shorter := congrArg List.length (Prod.mk.inj (Option.some.inj read)).1
    have some : 0 < raw.length := List.length_pos_of_mem (Name.break_mem_of_isBroken broken)
    rw [List.length_dropLast] at shorter
    omega

end

end ZigBindings.Zig
