import ZigBindings.Proofs.Generate.Namespaces
import ZigBindings.Proofs.Module.Indentation
import ZigBindings.Proofs.Name.Tokens

/-! The trees of a module in their places. Namespaces are named on one line, and wrappers begin and end with
lines that show something, so a tree that is rendered flat and moved in is rendered in place. -/

namespace ZigBindings
open Zig

theorem Registry.scopePath_identifiers {r : Registry} {key : Key} {path : List String}
    (filed : r.scopePath key = .ok path) : ∀ segment ∈ path, ∃ raw, segment = Name.identifier raw := by
  cases key with
  | name name =>
    cases filed
    exact List.forall_mem_singleton.mpr ⟨_, rfl⟩
  | interface id =>
    simp only [scopePath, bind_eq_ok, pure_eq_ok, Except.ok.injEq] at filed
    obtain ⟨_, _, rfl⟩ := filed
    simp only [List.forall_mem_cons, List.not_mem_nil, false_implies, implies_true, and_true]
    exact ⟨⟨_, rfl⟩, ⟨_, rfl⟩, ⟨_, rfl⟩⟩

theorem Wrapper.assemble_framed {c : Char} {header : String} (starts : header.toList.head? = some c)
    (visible : Text.isBlank c = false) (direction : Direction) (width : Int) (s : Emission) :
    Framed (lines (trimBreaks (assemble direction width header s))) := by
  obtain ⟨middle, whole⟩ : ∃ middle, assemble direction width header s =
      header.toList ++ (middle ++ ['\x7d']) ++ ['\n'] := by
    rw [assemble, line, line, Int.toNat_zero, List.replicate_zero, List.nil_append, List.nil_append]
    exact ⟨['\n'] ++ _ ++ _, by simp only [List.append_assoc]; rfl⟩
  have first : (header.toList ++ (middle ++ ['\x7d'])).head? = some c := by rw [List.head?_append, starts]; rfl
  have last : (header.toList ++ (middle ++ ['\x7d'])).getLast? = some '\x7d' := by simp
  have begins : some c ≠ some '\n' := fun same => ne_break visible (Option.some.inj same)
  rw [whole, trimBreaks_concat (first ▸ begins) (last ▸ by decide)]
  exact framed_lines first last visible (by decide)

theorem Wrapper.source_framed {shared : Shared} {place : Place} {direction : Direction} {f : Function}
    {text : List Char} (compiled : source shared place direction f = .ok text) :
    Framed (lines (trimBreaks text)) := by
  obtain ⟨s, laid, -⟩ := source_flows compiled fun _ _ _ _ _ _ _ (never : False) => never.elim
  obtain ⟨-, types, result, -, rfl⟩ := laid
  refine assemble_framed (c := 'p') ?_ (by decide) _ _ _
  simp only [String.toList_append, List.append_assoc]
  cases direction <;> rfl

namespace Scope

variable {s : Scope} {path : List String} {segment : String}

theorem Reaches.opens (reaches : s.Reaches path) (member : segment ∈ path) :
    ∃ prior, segment ∈ (s.under prior).segments := by
  induction path generalizing s with
  | nil => cases member
  | cons name rest ih =>
    rcases List.mem_cons.mp member with rfl | member
    · exact ⟨[], reaches.1⟩
    · obtain ⟨prior, inside⟩ := ih reaches.2 member
      exact ⟨name :: prior, inside⟩

theorem filled_of_mem {code : List Char} (member : code ∈ (s.under path).fragments) : s.isEmpty = false := by
  by_contra bare
  have empty : s = .empty := by
    match s, bare with
    | .node [] .nil, _ => rfl
    | .node (_ :: _) _, bare => exact absurd rfl bare
    | .node [] (.cons ..), bare => exact absurd rfl bare
  rw [empty, under_empty] at member
  cases member

end Scope

namespace Generate
open ZigBindings.Module

variable {r : Registry} {id : Nat} {o : Options}

theorem Generation.plain (g : Generation r id o) (direction : Direction) :
    (g.contents.tree direction).Plain := by
  intro path fragments member
  obtain ⟨_, rfl, reaches, rfl⟩ := (g.files.sorted direction).mem_walk.mp member
  refine ⟨fun segment inside => ?_, fun code stands => ?_⟩
  · obtain ⟨prior, opens⟩ := reaches.opens inside
    obtain ⟨place, f, listed, start⟩ := g.segments opens
    have named : segment ∈ place.path := start.subset (by simp)
    obtain ⟨entry, -, ⟨-, rfl⟩ | ⟨_, _, -, filed, -⟩⟩ := tasks_wrap g.works listed
    · cases named
    · obtain ⟨raw, rfl⟩ := Registry.scopePath_identifiers filed segment named
      exact Name.not_line_identifier raw
  · obtain ⟨wrapped, -, source⟩ := related_of_mem (g.fragments direction path).flip _ stands
    exact Wrapper.source_framed source

end Generate

namespace Module

/-- The function that makes the exports, around what stands in its place inside. -/
def exportsAround (o : Options) (inside : List Char) : List Char :=
  line 0 ("pub fn " ++ o.exportsType.display ++ "(comptime " ++ o.implParam.display ++ ": type) type \x7b").toList ++
    line o.width "return struct \x7b".toList ++ inside ++ ['\n'] ++
    line (2 * o.width) "comptime \x7b".toList ++ line (3 * o.width) (verifyFunction ++ "(@This());").toList ++
    line (2 * o.width) "\x7d".toList ++ line o.width "\x7d;".toList ++ line 0 "\x7d".toList

end Module

namespace Generate
open ZigBindings.Module

/-- Rendering goes with moving in. A scope that is rendered flat and written at the indentation of a level
is the scope rendered at that level; so the imports of a module are written as they are rendered, and the
exports stand two levels deep as if they had been rendered there. -/
theorem trees_in_place :
    (∀ s : Scope, s.isEmpty = false → s.Plain → ∀ (width : Int) (level : Nat),
      text (level * width) (s.render 0 width) = s.render level width) ∧
    ∀ (r : Registry) (id : Nat) (o : Options) (g : Generation r id o),
      (∀ direction, (g.contents.tree direction).Plain) ∧
      (g.contents.imports.isEmpty = false →
        text 0 (g.contents.imports.render 0 o.width) = g.contents.imports.render 0 o.width) ∧
      (g.contents.exports.isEmpty = false →
        exportsWrapper o g.contents.exports = exportsAround o (g.contents.exports.render 2 o.width)) := by
  refine ⟨fun s filled plain => Scope.text_render filled plain, fun r id o g => ⟨g.plain, fun filled => ?_, fun filled => ?_⟩⟩
  · have flat := Scope.text_render filled (g.plain .outward) o.width 0
    rwa [Int.natCast_zero, Int.zero_mul] at flat
  · exact congrArg (exportsAround o) (Scope.text_render filled (g.plain .inward) o.width 2)

def nook : Scope :=
  .node ["const a = 1;".toList] (.cons "b" (.node ["fn c() void \x7b\n\n\x7d\n".toList] .nil) .nil)

theorem nook_plain : nook.Plain := by
  intro path fragments member
  simp only [nook, Scope.walk, Scope.walkAll, List.mem_cons, List.nil_append, List.append_nil, List.not_mem_nil,
    or_false, Prod.mk.injEq] at member
  rcases member with ⟨rfl, rfl⟩ | ⟨rfl, rfl⟩
  · exact ⟨nofun, List.forall_mem_singleton.mpr ⟨⟨_, rfl, rfl⟩, ⟨_, rfl, rfl⟩⟩⟩
  · exact ⟨by decide, List.forall_mem_singleton.mpr ⟨⟨_, rfl, rfl⟩, ⟨_, rfl, rfl⟩⟩⟩

def echoing : Registry where
  worlds := #[{ name := "echo", imports := [(.name "hear", .function { name := "hear" })],
                exports := [(.name "call", .function { name := "call" })] }]

theorem nook_in_place : (nook.isEmpty = false ∧ nook.Plain ∧ text (2 * 4) (nook.render 0 4) = nook.render 2 4) ∧
    ∃ g : Generation echoing 0 {}, g.contents.imports.isEmpty = false ∧ g.contents.exports.isEmpty = false ∧
      text 0 (g.contents.imports.render 0 4) = g.contents.imports.render 0 4 ∧
      exportsWrapper {} g.contents.exports = exportsAround {} (g.contents.exports.render 2 4) := by
  refine ⟨⟨rfl, nook_plain, trees_in_place.1 nook rfl nook_plain 4 2⟩, ?_⟩
  obtain ⟨g, -, todo⟩ := @exists_generation echoing _ 0 {} _ _ rfl rfl rfl
    (List.forall_mem_cons.mpr ⟨⟨_, rfl⟩, List.forall_mem_singleton.mpr ⟨_, rfl⟩⟩) (by decide)
  have hears : .wrap .outward {} { name := "hear" } ∈ g.todo := by simp [todo]
  have calls : .wrap .inward {} { name := "call" } ∈ g.todo := by simp [todo]
  obtain ⟨_, -, imported⟩ := g.compiled hears
  obtain ⟨_, -, exported⟩ := g.compiled calls
  have imports : g.contents.imports.isEmpty = false := Scope.filled_of_mem imported
  have exports : g.contents.exports.isEmpty = false := Scope.filled_of_mem exported
  have settled := (trees_in_place.2 echoing 0 {} g).2
  exact ⟨g, imports, exports, settled.1 imports, settled.2 exports⟩

end Generate

end ZigBindings
