import ZigBindings.Proofs.Zig.Lines

/-! Texts that are moved in twice. A text whose first and last lines show something loses no line on the
way, and what has been moved in once is moved in further by as much as it would be at first. -/

namespace ZigBindings.Zig

variable {indent outer inner : Int} {l s : List Char} {c : Char} {rows others middle : List (List Char)}

theorem lines_cons (c : Char) (s : List Char) :
    lines (c :: s) = if c = '\n' then [] :: lines s else (c :: (splitLines s).1) :: (splitLines s).2 := by
  simp only [lines, splitLines, beq_iff_eq]
  split <;> rfl

theorem not_line_of_mem_lines (member : l ∈ lines s) : '\n' ∉ l := by
  induction s generalizing l with
  | nil =>
    cases List.mem_singleton.mp member
    exact List.not_mem_nil
  | cons c rest ih =>
    rw [lines_cons] at member
    split at member
    case isTrue =>
      rcases List.mem_cons.mp member with rfl | member
      · exact List.not_mem_nil
      · exact ih member
    case isFalse other =>
      rcases List.mem_cons.mp member with rfl | member
      · exact List.not_mem_cons_of_ne_of_not_mem (Ne.symm other) (ih List.mem_cons_self)
      · exact ih (List.mem_cons_of_mem _ member)

section Shown

def shown (indent : Int) (l : List Char) : List Char :=
  if isBlankText l then [] else List.replicate indent.toNat ' ' ++ l

theorem textLine_eq (indent : Int) (l : List Char) : textLine indent l = shown indent l ++ ['\n'] := by
  rw [textLine, shown]
  split <;> rfl

theorem isBlankText_shown (indent : Int) (l : List Char) : isBlankText (shown indent l) = isBlankText l := by
  cases blank : isBlankText l with
  | true => rw [shown, if_pos blank]; rfl
  | false =>
    rw [shown, if_neg (by simp [blank])]
    rw [isBlankText] at blank ⊢
    rw [List.all_append, blank, Bool.and_false]

theorem not_line_shown (line : '\n' ∉ l) : '\n' ∉ shown indent l := by
  rw [shown]
  split
  · exact List.not_mem_nil
  · simp [line]

theorem shown_shown {total : Int} (sum : outer.toNat + inner.toNat = total.toNat) (l : List Char) :
    shown outer (shown inner l) = shown total l := by
  rw [shown, isBlankText_shown]
  split
  case isTrue blank => rw [shown, if_pos blank]
  case isFalse visible =>
    rw [shown, shown, if_neg visible, if_neg visible, ← List.append_assoc, List.replicate_append_replicate, sum]

end Shown

section Framed

structure Framed (rows : List (List Char)) : Prop where
  first : ∃ row ∈ rows.head?, isBlankText row = false
  last : ∃ row ∈ rows.getLast?, isBlankText row = false

theorem Framed.singleton (visible : isBlankText l = false) : Framed [l] := ⟨⟨l, rfl, visible⟩, ⟨l, rfl, visible⟩⟩

theorem Framed.around (top : Framed rows) (bottom : Framed others) : Framed (rows ++ (middle ++ others)) := by
  obtain ⟨first, head, shows⟩ := top.first
  obtain ⟨last, tail, visible⟩ := bottom.last
  refine ⟨⟨first, ?_, shows⟩, ⟨last, ?_, visible⟩⟩
  · rw [Option.mem_def] at head ⊢
    rw [List.head?_append, head]
    rfl
  · rw [Option.mem_def] at tail ⊢
    rw [List.getLast?_append, List.getLast?_append, tail]
    rfl

theorem Framed.congr {α : Type} {rows : List α} {f g : α → List Char}
    (alike : ∀ row, isBlankText (f row) = isBlankText (g row)) (framed : Framed (rows.map f)) :
    Framed (rows.map g) := by
  obtain ⟨_, head, shows⟩ := framed.first
  obtain ⟨_, tail, visible⟩ := framed.last
  rw [Option.mem_def, List.head?_map, Option.map_eq_some_iff] at head
  rw [Option.mem_def, List.getLast?_map, Option.map_eq_some_iff] at tail
  obtain ⟨first, head, rfl⟩ := head
  obtain ⟨last, tail, rfl⟩ := tail
  exact ⟨⟨g first, by rw [Option.mem_def, List.head?_map, head]; rfl, alike first ▸ shows⟩,
    ⟨g last, by rw [Option.mem_def, List.getLast?_map, tail]; rfl, alike last ▸ visible⟩⟩

theorem Framed.intercalate {parts : List (List (List Char))} (some : parts ≠ [])
    (each : ∀ rows ∈ parts, Framed rows) (middle : List (List Char)) : Framed (middle.intercalate parts) := by
  induction parts with
  | nil => exact absurd rfl some
  | cons rows rest ih =>
    obtain ⟨first, behind⟩ := List.forall_mem_cons.mp each
    cases rest with
    | nil => rwa [List.intercalate_singleton]
    | cons next rest =>
      rw [List.intercalate_cons_cons, List.append_assoc]
      exact first.around (ih (List.cons_ne_nil _ _) behind)

theorem isBlankText_of_mem (member : c ∈ l) (visible : Text.isBlank c = false) : isBlankText l = false := by
  rw [isBlankText, List.all_eq_false]
  exact ⟨c, member, by simp [visible]⟩

theorem ne_break (visible : Text.isBlank c = false) : c ≠ '\n' := by
  rintro rfl
  cases visible

theorem first_line (starts : s.head? = some c) (visible : Text.isBlank c = false) :
    ∃ row ∈ (lines s).head?, c ∈ row := by
  cases s with
  | nil => cases starts
  | cons d rest =>
    obtain rfl : d = c := Option.some.inj starts
    rw [lines_cons, if_neg (ne_break visible)]
    exact ⟨_, rfl, List.mem_cons_self⟩

theorem last_line (ends : s.getLast? = some c) (visible : Text.isBlank c = false) :
    ∃ row ∈ (lines s).getLast?, c ∈ row := by
  induction s with
  | nil => cases ends
  | cons d rest ih =>
    cases rest with
    | nil =>
      obtain rfl : d = c := Option.some.inj ends
      rw [lines_cons, if_neg (ne_break visible)]
      exact ⟨[d], rfl, List.mem_cons_self⟩
    | cons e rest =>
      obtain ⟨row, last, member⟩ := ih (by rwa [List.getLast?_cons_cons] at ends)
      rw [lines_cons]
      split
      case isTrue => exact ⟨row, by rwa [lines, List.getLast?_cons_cons], member⟩
      case isFalse =>
        rw [lines] at last
        cases behind : (splitLines (e :: rest)).2 with
        | nil =>
          rw [behind] at last
          obtain rfl : (splitLines (e :: rest)).1 = row := Option.some.inj last
          exact ⟨_, rfl, List.mem_cons_of_mem _ member⟩
        | cons next more =>
          rw [behind, List.getLast?_cons_cons] at last
          exact ⟨row, by rwa [List.getLast?_cons_cons], member⟩

theorem framed_lines {d : Char} (starts : s.head? = some c) (ends : s.getLast? = some d)
    (visible : Text.isBlank c = false) (shows : Text.isBlank d = false) : Framed (lines s) := by
  obtain ⟨first, head, inside⟩ := first_line starts visible
  obtain ⟨last, tail, member⟩ := last_line ends shows
  exact ⟨⟨first, head, isBlankText_of_mem inside visible⟩, ⟨last, tail, isBlankText_of_mem member shows⟩⟩

end Framed

section Sheet

theorem lines_sheet (each : ∀ row ∈ rows, '\n' ∉ row) :
    lines (rows.flatMap fun row => row ++ ['\n']) = rows ++ [[]] := by
  induction rows with
  | nil => rfl
  | cons row rest ih =>
    obtain ⟨line, others⟩ := List.forall_mem_cons.mp each
    rw [List.flatMap_cons, List.append_assoc, List.singleton_append, lines_append_break, lines_of_line line,
      ih others]
    rfl

theorem dropBreaks_eq (starts : s.head? ≠ some '\n') : s.dropWhile (· == '\n') = s := by
  cases s with
  | nil => rfl
  | cons c rest => exact List.dropWhile_cons_of_neg (by simpa using starts)

theorem trimBreaks_concat (starts : s.head? ≠ some '\n') (ends : s.getLast? ≠ some '\n') :
    trimBreaks (s ++ ['\n']) = s := by
  cases s with
  | nil => rfl
  | cons c rest =>
    have front : (c :: rest ++ ['\n']).dropWhile (· == '\n') = c :: rest ++ ['\n'] := dropBreaks_eq starts
    have back : (c :: rest).reverse.head? ≠ some '\n' := by rwa [List.head?_reverse]
    rw [trimBreaks, front, List.reverse_concat, List.dropWhile_cons_of_pos rfl, dropBreaks_eq back,
      List.reverse_reverse]

theorem head_ne_break (visible : isBlankText l = false) (line : '\n' ∉ l) (behind : List Char) :
    (l ++ behind).head? ≠ some '\n' := by
  cases l with
  | nil => cases visible
  | cons c rest => exact fun starts => line (Option.some.inj starts ▸ List.mem_cons_self)

theorem lines_trimBreaks (each : ∀ row ∈ rows, '\n' ∉ row) (framed : Framed rows) :
    lines (trimBreaks (rows.flatMap fun row => row ++ ['\n'])) = rows := by
  obtain ⟨last, tail, visible⟩ := framed.last
  obtain ⟨front, rfl⟩ := List.getLast?_eq_some_iff.mp tail
  have whole : (front ++ [last]).flatMap (fun row => row ++ ['\n']) =
      front.flatMap (fun row => row ++ ['\n']) ++ last ++ ['\n'] := by simp
  have filled : last ≠ [] := by
    rintro rfl
    cases visible
  have starts : (front.flatMap (fun row => row ++ ['\n']) ++ last).head? ≠ some '\n' := by
    obtain ⟨first, head, shows⟩ := framed.first
    cases front with
    | nil => simpa using head_ne_break visible (each last (by simp)) []
    | cons row rest =>
      obtain rfl : row = first := Option.some.inj head
      rw [List.flatMap_cons, List.append_assoc, List.append_assoc]
      exact head_ne_break shows (each row (by simp)) _
  have ends : (front.flatMap (fun row => row ++ ['\n']) ++ last).getLast? ≠ some '\n' := by
    rw [List.getLast?_append_of_ne_nil _ filled]
    exact fun line => each last (by simp) (List.mem_of_getLast? line)
  have split := lines_sheet each
  rw [whole, lines_append_break] at split
  rw [whole, trimBreaks_concat starts ends]
  exact List.append_cancel_right split

/-- Lines that have been moved in are moved in once more. -/
theorem text_sheet (each : ∀ row ∈ rows, '\n' ∉ row) (framed : Framed rows) (indent : Int) :
    text indent (rows.flatMap fun row => row ++ ['\n']) = rows.flatMap (textLine indent) := by
  rw [text_eq, lines_trimBreaks each framed]

end Sheet

end ZigBindings.Zig
