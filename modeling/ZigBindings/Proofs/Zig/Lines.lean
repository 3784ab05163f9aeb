import Mathlib.Data.List.Basic
import ZigBindings.Zig.Stmt

/-! Lines of a text that is moved in. A line of its own stays one, at its new indentation. -/

namespace ZigBindings.Zig

def lines (s : List Char) : List (List Char) := (splitLines s).1 :: (splitLines s).2

theorem text_eq (indent : Int) (code : List Char) :
    text indent code = (lines (trimBreaks code)).flatMap (textLine indent) := rfl

theorem lines_append_break (a b : List Char) : lines (a ++ '\n' :: b) = lines a ++ lines b := by
  induction a with
  | nil => rfl
  | cons c a ih =>
    obtain ⟨first, others⟩ := List.cons.inj ih
    simp only [lines, splitLines, List.cons_append, first, others]
    split <;> rfl

theorem lines_of_line {l : List Char} (line : '\n' ∉ l) : lines l = [l] := by
  induction l with
  | nil => rfl
  | cons c l ih =>
    simp only [List.mem_cons, not_or] at line
    obtain ⟨first, others⟩ := List.cons.inj (ih line.2)
    simp only [lines, splitLines, first, others, beq_iff_eq, Ne.symm line.1, if_false]

/-- The text is nothing, or it has a line break where the other text goes on. -/
def EndsLine (a : List Char) : Prop := a = [] ∨ ∃ front, a = front ++ ['\n']

theorem EndsLine.append {a b : List Char} (first : EndsLine a) (second : EndsLine b) : EndsLine (a ++ b) := by
  rcases second with rfl | ⟨front, rfl⟩
  · rwa [List.append_nil]
  · exact .inr ⟨a ++ front, (List.append_assoc _ _ _).symm⟩

variable {a b l : List Char}

theorem mem_lines (line : '\n' ∉ l) (before : EndsLine a) (after : b = [] ∨ ∃ rest, b = '\n' :: rest) :
    l ∈ lines (a ++ (l ++ b)) := by
  have behind : l ∈ lines (l ++ b) := by
    rcases after with rfl | ⟨rest, rfl⟩
    · rw [List.append_nil, lines_of_line line]
      exact List.mem_singleton_self l
    · rw [lines_append_break, lines_of_line line]
      exact List.mem_cons_self
  rcases before with rfl | ⟨front, rfl⟩
  · exact behind
  · rw [List.append_assoc, List.singleton_append, lines_append_break]
    exact List.mem_append_right _ behind

theorem dropBreaks_append (some : l ≠ []) (line : '\n' ∉ l) (a b : List Char) :
    ∃ a', (a ++ (l ++ b)).dropWhile (· == '\n') = a' ++ (l ++ b) ∧ a' <:+ a := by
  induction a with
  | nil =>
    cases l with
    | nil => exact absurd rfl some
    | cons c l =>
      simp only [List.mem_cons, not_or] at line
      exact ⟨[], List.dropWhile_cons_of_neg (by simpa using Ne.symm line.1), List.suffix_refl _⟩
  | cons c a ih =>
    by_cases break_ : c = '\n'
    · obtain ⟨a', same, suffix⟩ := ih
      exact ⟨a', by rw [List.cons_append, List.dropWhile_cons_of_pos (by simpa using break_), same],
        suffix.trans (List.suffix_cons c a)⟩
    · exact ⟨c :: a, List.dropWhile_cons_of_neg (by simpa using break_), List.suffix_refl _⟩

theorem trimBreaks_append (some : l ≠ []) (line : '\n' ∉ l) (a b : List Char) :
    ∃ a' b', trimBreaks (a ++ (l ++ b)) = a' ++ (l ++ b') ∧ a' <:+ a ∧ b' <+: b := by
  obtain ⟨a', first, suffix⟩ := dropBreaks_append some line a b
  have some' : l.reverse ≠ [] := by simpa using some
  obtain ⟨b', last, behind⟩ := dropBreaks_append some' (by simpa using line) b.reverse a'.reverse
  have reversed : (a' ++ (l ++ b)).reverse = b.reverse ++ (l.reverse ++ a'.reverse) := by simp
  refine ⟨a', b'.reverse, by rw [trimBreaks, first, reversed, last]; simp, suffix, ?_⟩
  rw [← List.reverse_suffix, List.reverse_reverse]
  exact behind

theorem EndsLine.suffix {a' : List Char} (ends : EndsLine a) (suffix : a' <:+ a) : EndsLine a' := by
  rcases List.eq_nil_or_concat a' with rfl | ⟨front, c, rfl⟩
  · exact .inl rfl
  · rcases ends with rfl | ⟨other, rfl⟩
    · exact absurd (List.suffix_nil.mp suffix) (by simp)
    · obtain ⟨before, same⟩ := suffix
      rw [List.concat_eq_append, ← List.append_assoc] at same
      obtain ⟨-, last⟩ := List.append_inj' same rfl
      rw [List.concat_eq_append, last]
      exact .inr ⟨front, rfl⟩

/-- A line stays a line when the text around it is moved in. -/
theorem text_line (indent : Int) (visible : isBlankText l = false) (line : '\n' ∉ l) (before : EndsLine a)
    (b : List Char) :
    ∃ p q, text indent (a ++ (l ++ '\n' :: b)) = p ++ (Zig.line indent l ++ q) := by
  have some : l ≠ [] := by
    rintro rfl
    cases visible
  obtain ⟨a', b', same, suffix, behind⟩ := trimBreaks_append some line a ('\n' :: b)
  have after : b' = [] ∨ ∃ rest, b' = '\n' :: rest := by
    cases b' with
    | nil => exact .inl rfl
    | cons c rest => exact .inr ⟨rest, by rw [(List.cons_prefix_cons.mp behind).1]⟩
  obtain ⟨others, more, whole⟩ := List.append_of_mem (mem_lines line (before.suffix suffix) after)
  refine ⟨others.flatMap (textLine indent), more.flatMap (textLine indent), ?_⟩
  rw [text_eq, same, whole, List.flatMap_append, List.flatMap_cons, textLine, visible]
  rfl

namespace Stmt

theorem line_endsLine (indent : Int) (code : List Char) : EndsLine (Zig.line indent code) := .inr ⟨_, rfl⟩

theorem render_endsLine (width : Int) (s : Stmt) : EndsLine (s.render width) := by
  cases s with
  | ifSome | switchOption | forEach => exact .inr ⟨_, (List.append_assoc _ _ _).symm⟩
  | _ => exact line_endsLine _ _

theorem renderAll_append (width : Int) (first second : List Stmt) :
    renderAll width (first ++ second) = renderAll width first ++ renderAll width second := by
  induction first with
  | nil => rfl
  | cons s rest ih => rw [List.cons_append, renderAll, renderAll, ih, List.append_assoc]

theorem renderAll_endsLine (width : Int) (body : List Stmt) : EndsLine (renderAll width body) := by
  induction body with
  | nil => exact .inl rfl
  | cons s rest ih => exact (render_endsLine width s).append ih

end Stmt

end ZigBindings.Zig
