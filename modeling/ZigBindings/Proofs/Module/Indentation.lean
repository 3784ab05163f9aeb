import ZigBindings.Proofs.Module.Pieces
import ZigBindings.Proofs.Zig.Rows

/-! Rendered scopes that are moved in. A scope is a row of lines, each with its depth, and a line comes to
the same indentation whether it is rendered there or rendered flat and moved in afterwards. -/

namespace ZigBindings

namespace Scope
open Zig

/-- The lines of a piece, each with its depth below the scope. -/
def Piece.rows (path : List String) : Piece → List (Nat × List Char)
  | gap => [(0, [])]
  | fragment code => (lines (trimBreaks code)).map (path.length, ·)
  | opens segment => [(path.length, ("pub const " ++ segment ++ " = struct \x7b").toList)]
  | closes => [(path.dropLast.length, "\x7d;".toList)]

def rows (s : Scope) : List (Nat × List Char) := Piece.trail Piece.rows [] s.pieces

/-- How a line of some depth is written. -/
def written (width indent : Int) (row : Nat × List Char) : List Char := shown (indent + row.1 * width) row.2

variable {s : Scope} {α β : Type} {read : List String → Piece → List α} {path : List String} {width indent : Int}

namespace Piece

theorem trail_flatMap (read : List String → Piece → List α) (f : α → List β) (path : List String)
    (pieces : List Piece) :
    (trail read path pieces).flatMap f = trail (fun path piece => (read path piece).flatMap f) path pieces := by
  induction pieces generalizing path with
  | nil => rfl
  | cons piece rest ih => rw [trail, List.flatMap_append, ih, trail]

theorem mem_trail {x : α} {pieces : List Piece} (member : x ∈ trail read path pieces) :
    ∃ piece ∈ pieces, ∃ prior, x ∈ read prior piece := by
  induction pieces generalizing path with
  | nil => cases member
  | cons piece rest ih =>
    rcases List.mem_append.mp member with here | member
    · exact ⟨piece, List.mem_cons_self, path, here⟩
    · obtain ⟨found, inside, read⟩ := ih member
      exact ⟨found, List.mem_cons_of_mem _ inside, read⟩

theorem subset_trail (read : List String → Piece → List α) (path : List String) {piece : Piece}
    {pieces : List Piece} (member : piece ∈ pieces) : ∃ prior, read prior piece ⊆ trail read path pieces := by
  induction pieces generalizing path with
  | nil => cases member
  | cons other rest ih =>
    rcases List.mem_cons.mp member with rfl | member
    · exact ⟨path, List.subset_append_left _ _⟩
    · obtain ⟨prior, inside⟩ := ih (other.after path) member
      exact ⟨prior, List.Subset.trans inside (List.subset_append_right _ _)⟩

theorem header_visible (segment : String) :
    isBlankText ("pub const " ++ segment ++ " = struct \x7b").toList = false := by
  rw [String.toList_append, String.toList_append]
  rfl

theorem footer_visible : isBlankText "\x7d;".toList = false := by decide

theorem text_rows (piece : Piece) :
    text width indent path piece = (piece.rows path).flatMap fun row => written width indent row ++ ['\n'] := by
  simp only [written, ← textLine_eq]
  cases piece with
  | gap => rfl
  | fragment code => rw [text, text_eq, rows, List.flatMap_map]
  | opens segment =>
    rw [text, rows, List.flatMap_singleton, textLine, header_visible]
    rfl
  | closes =>
    rw [text, rows, List.flatMap_singleton, textLine, footer_visible]
    rfl

end Piece

theorem render_rows (level : Int) (s : Scope) :
    s.render level width = (s.rows.map (written width (level * width))).flatMap fun row => row ++ ['\n'] := by
  have each : Piece.text width (level * width) =
      fun path piece => (piece.rows path).flatMap fun row => written width (level * width) row ++ ['\n'] := by
    funext path piece
    exact Piece.text_rows piece
  rw [render_eq, each, List.flatMap_map, rows, Piece.trail_flatMap]

/-- No segment of a path has a line break, and every fragment has something in its first line and in its
last one, line breaks around it aside. -/
def Plain (s : Scope) : Prop :=
  ∀ path fragments, (path, fragments) ∈ s.walk [] →
    (∀ segment ∈ path, '\n' ∉ segment.toList) ∧ ∀ code ∈ fragments, Framed (lines (trimBreaks code))

theorem Plain.segment (plain : s.Plain) {segment : String} (member : .opens segment ∈ s.pieces) :
    '\n' ∉ segment.toList := by
  obtain ⟨prior, opens⟩ := Piece.subset_trail Piece.opened [] member
  have walked : prior ++ [segment] ∈ (s.walk []).map Prod.fst := by
    rw [← opened_eq]
    exact List.mem_cons_of_mem _ (opens (List.mem_singleton_self _))
  obtain ⟨⟨_, fragments⟩, inside, rfl⟩ := List.mem_map.mp walked
  exact (plain _ _ inside).1 segment (by simp)

theorem Plain.rows_line (plain : s.Plain) : ∀ row ∈ s.rows, '\n' ∉ row.2 := by
  intro row member
  obtain ⟨piece, inside, prior, read⟩ := Piece.mem_trail member
  cases piece with
  | gap =>
    cases List.mem_singleton.mp read
    exact List.not_mem_nil
  | fragment code =>
    obtain ⟨l, found, rfl⟩ := List.mem_map.mp read
    exact not_line_of_mem_lines found
  | opens segment =>
    cases List.mem_singleton.mp read
    simp [plain.segment inside]
  | closes =>
    cases List.mem_singleton.mp read
    exact (by decide : '\n' ∉ "\x7d;".toList)

def Piece.lines (path : List String) (piece : Piece) : List (List Char) := (piece.rows path).flatMap fun row => [row.2]

theorem rows_lines (s : Scope) : s.rows.map Prod.snd = Piece.trail Piece.lines [] s.pieces := by
  rw [List.map_eq_flatMap, rows, Piece.trail_flatMap]
  rfl

theorem piecesAll_framed (children : Scopes) :
    ∀ rows ∈ (piecesAll children).map (Piece.trail Piece.lines path), Framed rows := by
  induction children using Scopes.ind with
  | nil => exact fun _ member => by cases member
  | cons segment scope rest ih =>
    rw [trail_cons]
    have header : Framed (Piece.lines path (.opens segment)) := .singleton (Piece.header_visible segment)
    have footer : Framed (Piece.lines (path ++ [segment]) .closes) := .singleton Piece.footer_visible
    exact List.forall_mem_cons.mpr ⟨header.around footer, ih⟩

theorem Plain.framed (plain : s.Plain) (filled : s.isEmpty = false) : Framed (s.rows.map Prod.snd) := by
  rw [rows_lines]
  cases s with
  | node fragments children =>
    rw [trail_node]
    refine Framed.intercalate ?_ (List.forall_mem_append.mpr ⟨?_, piecesAll_framed children⟩) _
    · cases fragments with
      | cons => exact List.cons_ne_nil _ _
      | nil =>
        cases children with
        | nil => cases filled
        | cons => exact List.cons_ne_nil _ _
    · intro rows member
      obtain ⟨code, stands, rfl⟩ := List.mem_map.mp member
      have own := (plain [] fragments List.mem_cons_self).2 code stands
      rwa [Piece.lines, Piece.rows, List.flatMap_map, List.flatMap_singleton']

theorem toNat_levels (width : Int) (level depth : Nat) :
    (level * width).toNat + (0 * width + depth * width).toNat = (level * width + depth * width).toNat := by
  rw [Int.zero_mul, Int.zero_add]
  rcases Int.le_total 0 width with wide | narrow
  · exact (Int.toNat_add (Int.mul_nonneg (Int.natCast_nonneg level) wide)
      (Int.mul_nonneg (Int.natCast_nonneg depth) wide)).symm
  · have outer : level * width ≤ 0 := Int.mul_nonpos_of_nonneg_of_nonpos (Int.natCast_nonneg level) narrow
    have inner : depth * width ≤ 0 := Int.mul_nonpos_of_nonneg_of_nonpos (Int.natCast_nonneg depth) narrow
    omega

theorem text_render (filled : s.isEmpty = false) (plain : s.Plain) (width : Int) (level : Nat) :
    Zig.text (level * width) (s.render 0 width) = s.render level width := by
  have each : ∀ row ∈ s.rows.map (written width (0 * width)), '\n' ∉ row :=
    List.forall_mem_map.mpr fun row member => not_line_shown (plain.rows_line row member)
  have framed : Framed (s.rows.map (written width (0 * width))) :=
    (plain.framed filled).congr fun row => (isBlankText_shown _ _).symm
  rw [render_rows, text_sheet each framed, render_rows, List.flatMap_map, List.flatMap_map]
  refine List.flatMap_congr fun row _ => ?_
  rw [textLine_eq, written, written, shown_shown (toNat_levels width level row.1)]

end Scope

end ZigBindings
