import ZigBindings.Proofs.Module.Walks

/-! A rendered scope piece by piece. Its fragments come in the order of a walk, and each of them
stands inside the namespaces of its path, at their indentation. -/

namespace ZigBindings

namespace Scope

/-- What a rendered scope is made of. -/
inductive Piece where
  | gap
  | fragment (code : List Char)
  | opens (segment : String)
  | closes

namespace Piece

def after (path : List String) : Piece → List String
  | gap => path
  | fragment _ => path
  | opens segment => path ++ [segment]
  | closes => path.dropLast

/-- Reads pieces one after the other, each with the namespaces that are open in front of it. -/
def trail {α : Type} (read : List String → Piece → List α) : List String → List Piece → List α
  | _, [] => []
  | path, piece :: rest => read path piece ++ trail read (piece.after path) rest

/-- The source text of a piece. Every open namespace moves it in. -/
def text (width indent : Int) (path : List String) : Piece → List Char
  | gap => ['\n']
  | fragment code => Zig.text (indent + path.length * width) code
  | opens segment =>
    Zig.line (indent + path.length * width) ("pub const " ++ segment ++ " = struct \x7b").toList
  | closes => Zig.line (indent + path.dropLast.length * width) "\x7d;".toList

/-- A fragment with the namespaces around it. -/
def placed (path : List String) : Piece → List (List String × List Char)
  | fragment code => [(path, code)]
  | gap | opens _ | closes => []

/-- The path of a namespace that opens. -/
def opened (path : List String) : Piece → List (List String)
  | opens segment => [path ++ [segment]]
  | gap | fragment _ | closes => []

variable {α : Type} {read : List String → Piece → List α} {path : List String}

theorem trail_append (read : List String → Piece → List α) (path : List String) (first second : List Piece) :
    trail read path (first ++ second) =
      trail read path first ++ trail read (first.foldl after path) second := by
  induction first generalizing path with
  | nil => rfl
  | cons piece rest ih => rw [List.cons_append, trail, ih, trail, List.foldl_cons, List.append_assoc]

/-- Whatever the pieces open they close. -/
def Closed (pieces : List Piece) : Prop := ∀ path, pieces.foldl after path = path

theorem Closed.append {first second : List Piece} (one : Closed first) (two : Closed second) :
    Closed (first ++ second) := fun path => by
  rw [List.foldl_append, one, two]

theorem Closed.struct {pieces : List Piece} (inside : Closed pieces) (segment : String) :
    Closed (opens segment :: (pieces ++ [closes])) := fun path => by
  rw [List.foldl_cons, List.foldl_append, inside]
  exact List.dropLast_concat

theorem trail_struct {pieces : List Piece} (inside : Closed pieces) (segment : String) :
    trail read path (opens segment :: (pieces ++ [closes])) =
      read path (opens segment) ++ (trail read (path ++ [segment]) pieces ++ read (path ++ [segment]) closes) := by
  rw [trail, after, trail_append, inside, trail, trail, List.append_nil]

def join (sections : List (List Piece)) : List Piece := List.intercalate [gap] sections

variable {sections : List (List Piece)}

theorem join_closed (each : ∀ pieces ∈ sections, Closed pieces) : Closed (join sections) := by
  induction sections with
  | nil => exact fun _ => rfl
  | cons pieces rest ih =>
    obtain ⟨first, others⟩ := List.forall_mem_cons.mp each
    cases rest with
    | nil => rwa [join, List.intercalate_singleton]
    | cons next rest =>
      have spaced : Closed (pieces ++ [gap]) := first.append fun _ => rfl
      rw [join, List.intercalate_cons_cons]
      exact spaced.append (ih others)

theorem trail_join (each : ∀ pieces ∈ sections, Closed pieces) :
    trail read path (join sections) =
      List.intercalate (read path gap) (sections.map (trail read path)) := by
  induction sections with
  | nil => rfl
  | cons pieces rest ih =>
    obtain ⟨first, others⟩ := List.forall_mem_cons.mp each
    cases rest with
    | nil => rw [join, List.intercalate_singleton, List.map_singleton, List.intercalate_singleton]
    | cons next rest =>
      have spaced : Closed (pieces ++ [gap]) := first.append fun _ => rfl
      rw [join, List.intercalate_cons_cons, ← join, trail_append, trail_append, spaced, first, ih others, trail,
        trail, List.append_nil]
      exact List.intercalate_cons_cons.symm

end Piece

mutual
def pieces : Scope → List Piece
  | node fragments children =>
    Piece.join (fragments.map (fun code => [.fragment code]) ++ piecesAll children)

def piecesAll : Scopes → List (List Piece)
  | .nil => []
  | .cons segment scope rest => (.opens segment :: (scope.pieces ++ [.closes])) :: piecesAll rest
end

theorem fragments_closed (fragments : List (List Char)) :
    ∀ pieces ∈ fragments.map fun code => [Piece.fragment code], Piece.Closed pieces := by
  intro pieces member
  obtain ⟨code, -, rfl⟩ := List.mem_map.mp member
  exact fun _ => rfl

mutual
theorem pieces_closed : ∀ s : Scope, Piece.Closed s.pieces
  | node fragments children =>
    Piece.join_closed (List.forall_mem_append.mpr ⟨fragments_closed fragments, piecesAll_closed children⟩)

theorem piecesAll_closed : ∀ children : Scopes, ∀ pieces ∈ piecesAll children, Piece.Closed pieces
  | .nil => fun _ member => by cases member
  | .cons segment scope rest =>
    List.forall_mem_cons.mpr ⟨(pieces_closed scope).struct segment, piecesAll_closed rest⟩
end

variable {α : Type} {read : List String → Piece → List α} {path : List String}

theorem trail_node (fragments : List (List Char)) (children : Scopes) :
    Piece.trail read path (node fragments children).pieces =
      List.intercalate (read path .gap) (fragments.map (fun code => read path (.fragment code)) ++
        (piecesAll children).map (Piece.trail read path)) := by
  have each := List.forall_mem_append.mpr ⟨fragments_closed fragments, piecesAll_closed children⟩
  have alone : Piece.trail read path ∘ (fun code => [Piece.fragment code]) =
      fun code => read path (.fragment code) := by
    funext code
    exact List.append_nil _
  rw [pieces, Piece.trail_join each, List.map_append, List.map_map, alone]

theorem trail_cons (segment : String) (scope : Scope) (rest : Scopes) :
    (piecesAll (.cons segment scope rest)).map (Piece.trail read path) =
      (read path (.opens segment) ++
        (Piece.trail read (path ++ [segment]) scope.pieces ++ read (path ++ [segment]) .closes)) ::
          (piecesAll rest).map (Piece.trail read path) := by
  rw [piecesAll, List.map_cons, Piece.trail_struct (pieces_closed scope)]

mutual
theorem renderAt_eq (width indent : Int) : ∀ (s : Scope) (path : List String),
    s.renderAt width (indent + path.length * width) = Piece.trail (Piece.text width indent) path s.pieces
  | node fragments children, path => by
    rw [trail_node, renderAt, renderAll_eq width indent children path, joinSections]
    rfl

theorem renderAll_eq (width indent : Int) : ∀ (children : Scopes) (path : List String),
    renderAll width (indent + path.length * width) children =
      (piecesAll children).map (Piece.trail (Piece.text width indent) path)
  | .nil, path => rfl
  | .cons segment scope rest, path => by
    have deeper : indent + path.length * width + width = indent + ((path ++ [segment]).length : Nat) * width := by
      rw [List.length_append, List.length_singleton, Int.natCast_add, Int.natCast_one, Int.add_mul, Int.one_mul,
        Int.add_assoc]
    rw [trail_cons, renderAll, renderAll_eq width indent rest path, deeper,
      renderAt_eq width indent scope (path ++ [segment]), Piece.text, Piece.text, List.dropLast_concat, List.append_assoc]
end

theorem render_eq (level : Int) (s : Scope) :
    s.render level width = Piece.trail (Piece.text width (level * width)) [] s.pieces := by
  have flat := renderAt_eq width (level * width) s []
  rwa [List.length_nil, Int.natCast_zero, Int.zero_mul, Int.add_zero] at flat

theorem intercalate_nil {β : Type} (parts : List (List β)) : List.intercalate [] parts = parts.flatten := by
  induction parts with
  | nil => rfl
  | cons part rest ih =>
    cases rest with
    | nil => rw [List.intercalate_singleton, List.flatten_singleton]
    | cons =>
      rw [List.intercalate_cons_cons, ih, List.append_nil]
      rfl

/-- A reading that leaves gaps out and does not mind where namespaces close. -/
structure Ordered (read : List String → Piece → List α) (enter : List String → List α) : Prop where
  gap : ∀ path, read path .gap = []
  opens : ∀ path segment, read path (.opens segment) = enter (path ++ [segment])
  closes : ∀ path, read path .closes = []

mutual
theorem trail_walk {enter : List String → List α} (ordered : Ordered read enter) :
    ∀ (s : Scope) (path : List String), enter path ++ Piece.trail read path s.pieces =
      (s.walk path).flatMap fun entry => enter entry.1 ++ entry.2.flatMap fun code => read entry.1 (.fragment code)
  | node fragments children, path => by
    rw [trail_node, ordered.gap, intercalate_nil, List.flatten_append, trail_walkAll ordered children path, walk,
      List.flatMap_cons, List.append_assoc, ← List.flatMap_def]

theorem trail_walkAll {enter : List String → List α} (ordered : Ordered read enter) :
    ∀ (children : Scopes) (path : List String), ((piecesAll children).map (Piece.trail read path)).flatten =
      (walkAll path children).flatMap fun entry =>
        enter entry.1 ++ entry.2.flatMap fun code => read entry.1 (.fragment code)
  | .nil, _ => rfl
  | .cons segment scope rest, path => by
    rw [trail_cons, List.flatten_cons, ordered.opens, ordered.closes, List.append_nil,
      trail_walk ordered scope (path ++ [segment]), trail_walkAll ordered rest path, walkAll, List.flatMap_append]
end

theorem placed_ordered : Ordered Piece.placed fun _ => [] := ⟨fun _ => rfl, fun _ _ => rfl, fun _ => rfl⟩

theorem opened_ordered : Ordered Piece.opened fun path => [path] := ⟨fun _ => rfl, fun _ _ => rfl, fun _ => rfl⟩

theorem placed_eq (s : Scope) :
    Piece.trail Piece.placed [] s.pieces = (s.walk []).flatMap fun entry => entry.2.map (entry.1, ·) := by
  have order := trail_walk placed_ordered s []
  simpa only [List.nil_append, Piece.placed, ← List.map_eq_flatMap] using order

theorem opened_eq (s : Scope) : [] :: Piece.trail Piece.opened [] s.pieces = (s.walk []).map Prod.fst := by
  have order := trail_walk opened_ordered s []
  have alone (fragments : List (List Char)) : (fragments.flatMap fun _ => ([] : List (List String))) = [] := by simp
  simpa only [List.singleton_append, Piece.opened, alone, ← List.map_eq_flatMap] using order

/-- Nothing that is filed is lost, and nothing comes twice. A walk, with a stack or without, meets the root
and every start of a path that something was filed under once, in lexicographic order and with just the
fragments filed there, in order. A rendered scope opens the namespaces in that order and has the same
fragments in the same order, each at the indentation of the namespaces of its path, and whatever it opens
it closes. How filings under different paths were interleaved cannot be told from either. -/
theorem filings_kept (filings : List Filing) :
    ((ofFilings filings).walk []).Pairwise (fun first second => first.1 < second.1) ∧
    (∀ path fragments, (path, fragments) ∈ (ofFilings filings).walk [] ↔
      (path = [] ∨ ∃ filing ∈ filings, path <+: filing.1) ∧ fragments = filedUnder path filings) ∧
    visit [([], ofFilings filings)] = (ofFilings filings).walk [] ∧
    (∀ level width, (ofFilings filings).render level width =
      Piece.trail (Piece.text width (level * width)) [] (ofFilings filings).pieces) ∧
    Piece.trail Piece.placed [] (ofFilings filings).pieces =
      ((ofFilings filings).walk []).flatMap (fun entry => entry.2.map (entry.1, ·)) ∧
    [] :: Piece.trail Piece.opened [] (ofFilings filings).pieces = ((ofFilings filings).walk []).map Prod.fst ∧
    Piece.Closed (ofFilings filings).pieces ∧
    ∀ others, (∀ path, filedUnder path filings = filedUnder path others) →
      (ofFilings filings).walk [] = (ofFilings others).walk [] ∧
      ∀ level width, (ofFilings filings).render level width = (ofFilings others).render level width := by
  refine ⟨(ofFilings_sorted filings).walk_increasing [], fun _ _ => mem_walk_ofFilings filings, ?_,
    fun level width => render_eq level _, placed_eq _, opened_eq _, pieces_closed _, fun others alike => ?_⟩
  · rw [visit_eq, List.flatMap_singleton]
  · rw [ofFilings_eq alike]
    exact ⟨rfl, fun _ _ => rfl⟩

def shelved : List Filing :=
  [(["b"], "b;".toList), ([], "root;".toList), (["a", "c"], "c;".toList), (["b"], "d;".toList)]

def reshelved : List Filing :=
  [(["a", "c"], "c;".toList), (["b"], "b;".toList), (["b"], "d;".toList), ([], "root;".toList)]

theorem shelved_kept : (∀ path, filedUnder path shelved = filedUnder path reshelved) ∧
    (ofFilings shelved).walk [] = (ofFilings reshelved).walk [] ∧
    ((ofFilings reshelved).walk []).map Prod.fst = [[], ["a"], ["a", "c"], ["b"]] ∧
    (ofFilings shelved).render 0 2 = (ofFilings reshelved).render 0 2 := by
  have alike : ∀ path, filedUnder path shelved = filedUnder path reshelved := fun path => by
    by_cases inner : ["a", "c"] = path
    · subst inner
      rfl
    · by_cases other : ["b"] = path
      · subst other
        rfl
      · simp [filedUnder, shelved, reshelved, List.filter_cons, inner, other]
  have same := (filings_kept shelved).2.2.2.2.2.2.2 reshelved alike
  exact ⟨alike, same.1, by decide, same.2 0 2⟩

end Scope

end ZigBindings
