import ZigBindings.Proofs.Generate.Reachability
import ZigBindings.Proofs.Zig.Literals

/-! The symbols of entry points behind the identifiers that declare them. Every identifier denotes the
name it was made from, so different symbols are declared under different identifiers; and in a module
that was generated no identifier is read as another one. -/

namespace ZigBindings
open Zig

namespace Name

/-- The name that an identifier denotes: what stands between its quotes, without the backslashes in front
of quotes and backslashes, or else the identifier itself. -/
def denotedChars : List Char → List Char
  | '@' :: '"' :: rest => ((readLiteral rest).map Prod.fst).getD ('@' :: '"' :: rest)
  | name => name

def denoted (identifier : String) : String :=
  String.ofList (denotedChars identifier.toList)

theorem denotedChars_escapedChars (raw : List Char) : denotedChars (escapedChars raw) = raw := by
  rw [escapedChars]
  split
  case isTrue plain =>
    rw [Bool.and_eq_true] at plain
    unfold denotedChars
    split
    case h_1 => exact absurd rfl (not_at_of_isPlain plain.1)
    case h_2 => rfl
  case isFalse =>
    change ((readLiteral (escape raw ++ ['"'])).map Prod.fst).getD _ = raw
    rw [readLiteral_escaped raw []]
    rfl

theorem denoted_escaped (raw : String) : denoted (escaped raw) = raw := by
  rw [denoted, escaped, String.toList_ofList, denotedChars_escapedChars, String.ofList_toList]

end Name

namespace Generate

variable {r : Registry} {id : Nat} {o : Options} {place : Wrapper.Place} {f : Function}

theorem Generation.sound (g : Generation r id o) (member : .wrap .inward place f ∈ g.todo) :
    Name.isBroken (Wrapper.exportSymbol place f).toList = false := by
  have recorded := runAll_backed g.runs fun _ member => by cases member
  have symbols : g.contents.symbols = g.todo.filterMap Task.symbol? := recorded.1
  have listed : (place.path, Wrapper.exportSymbol place f) ∈ g.contents.symbols :=
    symbols ▸ List.mem_filterMap.mpr ⟨_, member, rfl⟩
  have checked := Module.checkExports_settles recorded.2
  by_contra broken
  obtain ⟨fault, stopped, -⟩ := checked.2 fun sound =>
    broken (sound (place.path, Wrapper.exportSymbol place f) listed)
  rw [g.checks] at stopped
  cases stopped

/-- The entry point is declared in the module by an identifier that is read as this name. -/
def Generation.Declares (g : Generation r id o) (place : Wrapper.Place) (f : Function) (name : String) : Prop :=
  ∃ code ∈ ((g.contents.tree .inward).under place.path).fragments, ∃ rest behind,
    Wrapper.source g.shared place .inward f = .ok code ∧ code = "pub export fn ".toList ++ rest ∧
      readIdentifier rest = some (name.toList, behind)

theorem Generation.declares (g : Generation r id o) (member : .wrap .inward place f ∈ g.todo) :
    g.Declares place f (Wrapper.exportSymbol place f) := by
  obtain ⟨code, compiled, stands⟩ := g.compiled member
  obtain ⟨rest, header⟩ := Wrapper.inward_header (Wrapper.source_inward compiled)
  exact ⟨code, stands, _, _, compiled, header, readIdentifier_escaped (g.sound member) rest⟩

theorem source_symbol {shared : Wrapper.Shared} {text : List Char}
    (compiled : Wrapper.source shared place .inward f = .ok text) :
    ∃ rest, text = ("pub export fn " ++ Name.escaped (Wrapper.exportSymbol place f) ++ "(").toList ++ rest := by
  obtain ⟨rest, header⟩ := Wrapper.inward_header (Wrapper.source_inward compiled)
  refine ⟨rest, ?_⟩
  simp only [header, Name.escaped, String.toList_append, String.toList_ofList, List.append_assoc]
  rfl

/-- Every identifier denotes the name that it was made from, so no two names share one. Entry points with
different symbols are declared under different identifiers, and in one module these are read as the
symbols they stand for. -/
theorem symbols_denoted :
    (∀ raw, Name.denoted (Name.escaped raw) = raw) ∧ Function.Injective Name.escaped ∧
    (∀ (shared shared' : Wrapper.Shared) (place place' : Wrapper.Place) (f f' : Function) (text text' : List Char),
      Wrapper.source shared place .inward f = .ok text → Wrapper.source shared' place' .inward f' = .ok text' →
      Wrapper.exportSymbol place f ≠ Wrapper.exportSymbol place' f' → ∃ first second rest others,
        text = ("pub export fn " ++ first ++ "(").toList ++ rest ∧
        text' = ("pub export fn " ++ second ++ "(").toList ++ others ∧
        Name.denoted first = Wrapper.exportSymbol place f ∧ Name.denoted second = Wrapper.exportSymbol place' f' ∧
        first ≠ second) ∧
    ∀ (r : Registry) (id : Nat) (o : Options) (g : Generation r id o) (place place' : Wrapper.Place)
      (f f' : Function), .wrap .inward place f ∈ g.todo → .wrap .inward place' f' ∈ g.todo →
      Wrapper.exportSymbol place f ≠ Wrapper.exportSymbol place' f' →
      ∃ name other, g.Declares place f name ∧ g.Declares place' f' other ∧ name ≠ other := by
  have injective : Function.Injective Name.escaped := Function.LeftInverse.injective Name.denoted_escaped
  refine ⟨Name.denoted_escaped, injective, ?_, ?_⟩
  · intro shared shared' place place' f f' text text' compiled compiled' apart
    obtain ⟨rest, header⟩ := source_symbol compiled
    obtain ⟨others, header'⟩ := source_symbol compiled'
    exact ⟨_, _, rest, others, header, header', Name.denoted_escaped _, Name.denoted_escaped _, injective.ne apart⟩
  · intro r id o g place place' f f' member member' apart
    exact ⟨_, _, g.declares member, g.declares member', apart⟩

def chiming : Registry where
  worlds := #[{ name := "bells", exports := [(.name "ping", .function { name := "ping" }),
    (.name "\"ping\"", .function { name := "\"ping\"" })] }]

theorem chiming_denoted :
    (∃ first second rest others, Wrapper.source { arena := #[] } {} .inward { name := "ping" } =
        .ok (("pub export fn " ++ first ++ "(").toList ++ rest) ∧
      Wrapper.source { arena := #[] } {} .inward { name := "\"ping\"" } =
        .ok (("pub export fn " ++ second ++ "(").toList ++ others) ∧ first ≠ second) ∧
    ∃ g : Generation chiming 0 {}, ∃ name other, g.Declares {} { name := "ping" } name ∧
      g.Declares {} { name := "\"ping\"" } other ∧ name ≠ other := by
  have apart : Wrapper.exportSymbol {} { name := "ping" } ≠ Wrapper.exportSymbol {} { name := "\"ping\"" } := by
    decide
  constructor
  · obtain ⟨first, second, rest, others, text, text', -, -, other⟩ :=
      symbols_denoted.2.2.1 { arena := #[] } { arena := #[] } {} {} { name := "ping" } { name := "\"ping\"" } _ _
        rfl rfl apart
    exact ⟨first, second, rest, others, congrArg Except.ok text, congrArg Except.ok text', other⟩
  · obtain ⟨g, -, todo⟩ := @exists_generation chiming _ 0 {} _ _ rfl rfl rfl
      (List.forall_mem_cons.mpr ⟨⟨_, rfl⟩, List.forall_mem_singleton.mpr ⟨_, rfl⟩⟩) (by decide)
    refine ⟨g, symbols_denoted.2.2.2 chiming 0 {} g {} {} _ _ ?_ ?_ apart⟩ <;> rw [todo] <;> simp

end Generate

end ZigBindings
