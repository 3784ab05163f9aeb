import Mathlib.Data.List.Perm.Basic
import Mathlib.Data.List.Sort
import ZigBindings.Proofs.Generate.Reachability
import ZigBindings.Proofs.Wrapper.Twins

/-! What a module does not depend on. It is made of what is filed under each path: neither the numbers
of definitions nor the order of items that are filed under different paths can be told from it. -/

namespace ZigBindings

namespace Generate
open ZigBindings.Module

variable {R : Nat → Nat → Prop} {r r' : Registry} {id id' : Nat} {o : Options}

/-- The same function at the same place, up to the numbers of definitions. -/
def Wrapped.Alike (R : Nat → Nat → Prop) (wrapped other : Wrapped) : Prop :=
  wrapped.1 = other.1 ∧ wrapped.2.Alike R other.2

/-- Another world of the same name that files the same functions under every path. -/
structure Generation.Mirrored (g : Generation r id o) (R : Nat → Nat → Prop) (r' : Registry) (id' : Nat)
    (w : World) (names : List String) (todo : List Task) : Prop where
  twins : Twins R r.types r'.types
  found : Registry.at? r'.worlds id' = .ok w
  name : w.name = g.world.name
  reserves : reserved r' w o = .ok names
  names : g.names.Perm names
  works : tasks r' w = .ok todo
  filed : ∀ direction path, List.Forall₂ (Wrapped.Alike R) (filed direction path g.todo) (filed direction path todo)

namespace Generation.Mirrored

variable {g : Generation r id o} {w : World} {names : List String} {todo : List Task}
  (mirrored : g.Mirrored R r' id' w names todo)
include mirrored

theorem source {wrapped other : Wrapped} (alike : Wrapped.Alike R wrapped other) (direction : Direction) :
    Agree Eq (Wrapper.source g.shared wrapped.1 direction wrapped.2)
      (Wrapper.source ⟨r'.types, o, names⟩ other.1 direction other.2) :=
  alike.1 ▸ Wrapper.source_agree mirrored.twins alike.2 mirrored.names o _ direction

theorem of_wrap {direction : Direction} {place : Wrapper.Place} {f : Function}
    (member : .wrap direction place f ∈ todo) :
    ∃ h, .wrap direction place h ∈ g.todo ∧ h.Alike R f := by
  obtain ⟨⟨_, h⟩, inside, rfl, alike⟩ :=
    related_of_mem (mirrored.filed direction place.path).flip _ (mem_filed.mpr ⟨member, rfl⟩)
  exact ⟨h, (mem_filed.mp inside).1, alike⟩

theorem to_wrap {direction : Direction} {place : Wrapper.Place} {f : Function}
    (member : .wrap direction place f ∈ g.todo) :
    ∃ h, .wrap direction place h ∈ todo ∧ f.Alike R h := by
  obtain ⟨⟨_, h⟩, inside, same, alike⟩ :=
    related_of_mem (mirrored.filed direction place.path) _ (mem_filed.mpr ⟨member, rfl⟩)
  cases same
  exact ⟨h, (mem_filed.mp inside).1, alike⟩

theorem compiles : ∀ task ∈ todo, task.Compiles ⟨r'.types, o, names⟩ := by
  intro task member
  cases task with
  | skipType => trivial
  | wrap direction place f =>
    obtain ⟨h, inside, alike⟩ := mirrored.of_wrap member
    obtain ⟨code, compiled, -⟩ := g.compiled inside
    have agree : Agree Eq _ (Wrapper.source ⟨r'.types, o, names⟩ place direction f) :=
      @source _ _ _ _ _ _ _ _ _ _ mirrored (place, h) (place, f) ⟨rfl, alike⟩ direction
    exact ⟨code, agree.ok_iff.mp compiled⟩

theorem sources_eq {direction : Direction} {wrapped others : List Wrapped} {codes also : List (List Char)}
    (alike : List.Forall₂ (Wrapped.Alike R) wrapped others) (first : Sources g.shared direction wrapped codes)
    (second : Sources ⟨r'.types, o, names⟩ direction others also) : codes = also := by
  induction alike generalizing codes also with
  | nil =>
    cases first
    cases second
    rfl
  | cons alike _ ih =>
    cases first with
    | cons first rest =>
      cases second with
      | cons second behind =>
        have both := ((mirrored.source alike direction).ok_iff.mp first).symm.trans second
        rw [ih rest behind, Except.ok.inj both]

theorem tree_eq {c : Contents} (files : Files ⟨r'.types, o, names⟩ todo {} c) (direction : Direction) :
    g.contents.tree direction = c.tree direction := by
  refine Scope.eq_of_same (fun path => ⟨?_, ?_⟩) (g.files.sorted direction)
  · obtain ⟨codes, compiled, stand⟩ := g.files.fragments direction path
    obtain ⟨others, also, beside⟩ := files.fragments direction path
    have same := mirrored.sources_eq (mirrored.filed direction path) compiled also
    rw [stand, beside, same]
  · refine List.Pairwise.eq_of_mem_iff (g.files.sorted direction path) (files.sorted direction path)
      fun segment => ?_
    rw [g.files.segments, files.segments]
    refine or_congr_left ⟨?_, ?_⟩
    · rintro ⟨place, f, member, below⟩
      obtain ⟨h, inside, -⟩ := mirrored.to_wrap member
      exact ⟨place, h, inside, below⟩
    · rintro ⟨place, f, member, below⟩
      obtain ⟨h, inside, -⟩ := mirrored.of_wrap member
      exact ⟨place, h, inside, below⟩

theorem symbol_mem {symbol : List String × String} (member : symbol ∈ todo.filterMap Task.symbol?) :
    symbol ∈ g.contents.symbols := by
  obtain ⟨task, inside, records⟩ := List.mem_filterMap.mp member
  cases task with
  | skipType => cases records
  | wrap direction place f =>
    cases direction with
    | outward => cases records
    | inward =>
      cases records
      obtain ⟨h, listed, alike⟩ := mirrored.of_wrap inside
      rw [(runAll_backed g.runs fun _ member => by cases member).1, Wrapper.exportSymbol, ← alike.name]
      exact List.mem_append_right _ (List.mem_filterMap.mpr ⟨_, listed, rfl⟩)

theorem files_eq : (Generate.files r' id' o).2 = .ok [g.output] := by
  obtain ⟨c, runs⟩ := runAll_ok mirrored.compiles {}
  have files : Files ⟨r'.types, o, names⟩ todo {} c :=
    runAll_files runs fun direction => by cases direction <;> exact Scope.empty_sorted
  have imports : g.contents.imports = c.imports := mirrored.tree_eq files .outward
  have exports : g.contents.exports = c.exports := mirrored.tree_eq files .inward
  have checks : checkExports c = .ok () := by
    have each := ok_of_forM g.checks
    rw [exports] at each
    refine (@Settles.forM _ _ _ (fun _ => True) (fun _ _ => True) _ fun symbol member => ?_).1 fun _ _ => trivial
    rw [(runAll_backed runs fun _ member => by cases member).1] at member
    exact .of_described (each symbol (mirrored.symbol_mem ((List.mem_append.mp member).resolve_left (by simp))))
  rw [(⟨w, names, todo, c, mirrored.found, mirrored.reserves, mirrored.works, runs, checks⟩ :
    Generation r' id' o).files_eq]
  simp only [output, fileName, sections, mirrored.name, imports, exports]

end Generation.Mirrored

/-- Worlds with the same items in another order, which keeps the order of the functions that are filed
under one path. -/
structure Interleaved (r : Registry) (w w' : World) : Prop where
  name : w.name = w'.name
  imports : w.imports.Perm w'.imports
  exports : w.exports.Perm w'.exports
  order : ∀ todo todo', tasks r w = .ok todo → tasks r w' = .ok todo' →
    ∀ direction path, filed direction path todo = filed direction path todo'

theorem Interleaved.symm {w w' : World} (interleaved : Interleaved r w w') : Interleaved r w' w where
  name := interleaved.name.symm
  imports := interleaved.imports.symm
  exports := interleaved.exports.symm
  order todo todo' works also direction path := (interleaved.order todo' todo also works direction path).symm

/-- What the members of a list come to, they come to in any order. -/
theorem mapM_perm {α β : Type} {f : α → Except Fault β} {xs ys : List α} (perm : xs.Perm ys) {made : List β}
    (done : xs.mapM f = .ok made) : ∃ others, ys.mapM f = .ok others ∧ made.Perm others := by
  obtain ⟨others, each, also⟩ := List.perm_comp_forall₂ perm.symm (mapM_eq_ok.mp done)
  exact ⟨others, mapM_eq_ok.mpr each, also.symm⟩

theorem Interleaved.files {w w' : World} (interleaved : Interleaved r w w') {i j : Nat}
    (found : Registry.at? r.worlds i = .ok w) (also : Registry.at? r.worlds j = .ok w') {outputs : List Output}
    (done : (files r i o).2 = .ok outputs) : (files r j o).2 = .ok outputs := by
  obtain ⟨g, rfl⟩ := files_eq_ok done
  have same : g.world = w := Except.ok.inj (g.found.symm.trans found)
  have reserves := g.reserves
  have works := g.works
  rw [same] at reserves works
  simp only [reserved, bind_eq_ok, pure_eq_ok, Except.ok.injEq] at reserves
  obtain ⟨exportsType, named, implParam, bound, rows, listed, rows_eq⟩ := reserves
  obtain ⟨others, relisted, permuted⟩ := mapM_perm (interleaved.imports.append interleaved.exports) listed
  obtain ⟨todo, retasked⟩ : ∃ todo, tasks r w' = .ok todo := by
    simp only [tasks, bind_eq_ok, pure_eq_ok, Except.ok.injEq] at works ⊢
    obtain ⟨imports, incoming, exports, outgoing, -⟩ := works
    obtain ⟨incomings, first, -⟩ := mapM_perm interleaved.imports incoming
    obtain ⟨outgoings, second, -⟩ := mapM_perm interleaved.exports outgoing
    exact ⟨_, _, first, _, second, rfl⟩
  have mirrored : g.Mirrored Eq r j w' (exportsType ++ implParam ++ [verifyFunction] ++ others.flatten) todo := by
    refine ⟨.refl _, also, ?_, ?_, ?_, retasked, fun direction path => ?_⟩
    · rw [same]
      exact interleaved.name.symm
    · simp only [reserved, named, bound, relisted, ok_bind, pure_eq_ok]
    · rw [← rows_eq]
      exact permuted.flatten.append_left _
    · rw [interleaved.order _ _ works retasked]
      exact List.forall₂_same.mpr fun wrapped _ => ⟨rfl, .refl _⟩
  exact mirrored.files_eq

/-- Functions are compiled independently of each other. Worlds of one name whose items are interleaved
in another way have the same module, or none of them has one. -/
theorem files_interleaved {w w' : World} (interleaved : Interleaved r w w') {i j : Nat}
    (found : Registry.at? r.worlds i = .ok w) (also : Registry.at? r.worlds j = .ok w') (o : Options)
    (outputs : List Output) : (files r i o).2 = .ok outputs ↔ (files r j o).2 = .ok outputs :=
  ⟨interleaved.files found also, interleaved.symm.files also found⟩

def clocks : Registry where
  interfaces := #[{ name := some "clock", functions := [("now", { name := "now" })] }]
  worlds := #[
    { name := "lamp", imports := [(.name "glow", .function { name := "glow" }), (.name "clock", .interface 0)] },
    { name := "lamp", imports := [(.name "clock", .interface 0), (.name "glow", .function { name := "glow" })] }]

theorem clocks_interleaved : ∃ w w', Registry.at? clocks.worlds 0 = .ok w ∧ Registry.at? clocks.worlds 1 = .ok w' ∧
    Interleaved clocks w w' ∧ (∃ outputs, (files clocks 0 {}).2 = .ok outputs) ∧
      ∀ outputs, (files clocks 0 {}).2 = .ok outputs ↔ (files clocks 1 {}).2 = .ok outputs := by
  have interleaved : Interleaved clocks clocks.worlds[0] clocks.worlds[1] := by
    refine ⟨rfl, .swap _ _ _, .refl _, fun todo todo' works also direction path => ?_⟩
    obtain rfl : [.wrap .outward {} { name := "glow" }, .wrap .outward ⟨["clock"], "clock"⟩ { name := "now" }] = todo :=
      Except.ok.inj ((by rfl : _ = tasks clocks clocks.worlds[0]).trans works)
    obtain rfl :
        [.wrap .outward ⟨["clock"], "clock"⟩ { name := "now" }, .wrap .outward {} { name := "glow" }] = todo' :=
      Except.ok.inj ((by rfl : _ = tasks clocks clocks.worlds[1]).trans also)
    by_cases root : path = [] <;> cases direction <;> simp [filed, Task.filed?, List.filterMap_cons, root]
  exact ⟨_, _, rfl, rfl, interleaved, ⟨_, rfl⟩, files_interleaved interleaved rfl rfl {}⟩

end Generate

end ZigBindings
