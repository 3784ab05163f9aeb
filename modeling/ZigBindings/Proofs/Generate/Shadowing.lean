import ZigBindings.Proofs.Generate.Reachability
import ZigBindings.Proofs.Wrapper.Naming

/-! Locals and the declarations around them. All that the containers of a module declare is reserved
before its wrappers are made, so no local has the name of a declaration, unless it is the slot of an
option. -/

namespace ZigBindings.Generate
open Emission Zig.Stmt

/-- What a module declares around the wrappers of a direction: the function that makes the exports,
with its parameter, the function that verifies them, all imported functions, all namespaces and, for
entry points, all other entry points. -/
inductive Declared (o : Options) (todo : List Task) (direction : Direction) : String → Prop where
  | exportsType {name : String} (given : o.exportsType = .text name) : Declared o todo direction name
  | implParam {name : String} (given : o.implParam = .text name) : Declared o todo direction name
  | verifies : Declared o todo direction Module.verifyFunction
  | imported {place : Wrapper.Place} {f : Function} (member : .wrap .outward place f ∈ todo) :
    Declared o todo direction (Wrapper.identifier place f .outward)
  | exported {place : Wrapper.Place} {f : Function} (inside : direction = .inward)
    (member : .wrap .inward place f ∈ todo) :
    Declared o todo direction (Wrapper.identifier place f .inward)
  | namespaced {way : Direction} {place : Wrapper.Place} {f : Function} {segment : String}
    (member : .wrap way place f ∈ todo) (inside : segment ∈ place.path) :
    Declared o todo direction segment

variable {r : Registry} {w : World} {o : Options} {names : List String} {todo : List Task}

theorem reserved_options (reserves : reserved r w o = .ok names) :
    (∀ name, o.exportsType = .text name → name ∈ names) ∧
      (∀ name, o.implParam = .text name → name ∈ names) ∧ Module.verifyFunction ∈ names := by
  simp only [reserved, bind_eq_ok, pure_eq_ok, Except.ok.injEq] at reserves
  obtain ⟨exportsType, first, implParam, second, own, each, rfl⟩ := reserves
  refine ⟨fun name given => ?_, fun name given => ?_, by simp⟩
  · rw [given] at first
    cases first
    simp
  · rw [given] at second
    cases second
    simp

/-- The identifiers of all items are reserved, except those of entry points in namespaces. -/
theorem reserved_items (reserves : reserved r w o = .ok names) (works : tasks r w = .ok todo)
    {way : Direction} {place : Wrapper.Place} {f : Function} (member : .wrap way place f ∈ todo) :
    place.path ⊆ names ∧ Name.identifier f.name ∈ names ∧
      (place.path = [] → Name.escaped f.name ∈ names) := by
  simp only [reserved, bind_eq_ok, pure_eq_ok, Except.ok.injEq] at reserves
  obtain ⟨_, _, _, _, own, each, rfl⟩ := reserves
  obtain ⟨entry, listed, origin⟩ := tasks_wrap works member
  obtain ⟨given, kept, reserves⟩ := ok_of_mapM each entry listed
  have inner : given ⊆ own.flatten := fun x known => List.mem_flatten_of_mem kept known
  obtain ⟨found, rfl⟩ | ⟨id, interface, found, filed, -, known, named⟩ := origin
  · rw [reservedBy, found] at reserves
    cases reserves
    exact ⟨List.nil_subset _, List.mem_append_right _ (inner (by simp)),
      fun _ => List.mem_append_right _ (inner (by simp))⟩
  · simp only [reservedBy, found, filed, known, ok_bind, pure_eq_ok, Except.ok.injEq] at reserves
    subst reserves
    obtain ⟨item, carried, rfl⟩ := List.mem_map.mp named
    refine ⟨fun x segment => ?_, ?_, fun flat => absurd flat (scopePath_ne_nil filed)⟩
    · exact List.mem_append_right _ (inner (List.mem_append_left _ segment))
    · exact List.mem_append_right _ (inner (List.mem_append_right _ (List.mem_map_of_mem carried)))

theorem not_lettered_identifier {place : Wrapper.Place} {f : Function} (nested : place.path ≠ []) :
    lettered (Wrapper.identifier place f .inward) = false := by
  have signed : '#' ∈ (place.linkName ++ "#" ++ f.name).toList := by simp
  rw [Wrapper.identifier, Wrapper.exportSymbol, if_neg (by simpa using nested), lettered, Name.escaped,
    String.toList_ofList, Name.escapedChars, Name.not_isPlain_of_mem signed]
  rfl

theorem Declared.reserved {direction : Direction} {x : String} (declared : Declared o todo direction x)
    (reserves : reserved r w o = .ok names) (works : tasks r w = .ok todo) :
    x ∈ names ∨ direction = .inward ∧ lettered x = false := by
  obtain ⟨exportsType, implParam, verifies⟩ := reserved_options reserves
  cases declared with
  | exportsType given => exact .inl (exportsType x given)
  | implParam given => exact .inl (implParam x given)
  | verifies => exact .inl verifies
  | imported member => exact .inl (reserved_items reserves works member).2.1
  | @exported place f inside member =>
    by_cases flat : place.path = []
    · left
      rw [Wrapper.identifier, Wrapper.exportSymbol, if_pos (List.isEmpty_iff.mpr flat)]
      exact (reserved_items reserves works member).2.2 flat
    · exact .inr ⟨inside, not_lettered_identifier flat⟩
  | namespaced member inside => exact .inl ((reserved_items reserves works member).1 inside)

/-- In every wrapper of a module the names introduced are apart from each other. None of them is
declared around the wrapper, unless it is the slot of an option in an entry point. -/
theorem files_shadow {id : Nat} {outputs : List Output} (done : (files r id o).2 = .ok outputs) :
    ∃ g : Generation r id o, outputs = [g.output] ∧
      ∀ direction place f, .wrap direction place f ∈ g.todo →
        ∃ text s, Wrapper.source g.shared place direction f = .ok text ∧
          text ∈ ((g.contents.tree direction).under place.path).fragments ∧
          Wrapper.LaidOut g.shared place direction f text s ∧
          (s.params ++ s.areas ++ localsAll s.body).Nodup ∧
          ∀ x ∈ s.params ++ s.areas ++ localsAll s.body, Declared o g.todo direction x →
            direction = .inward ∧ ∃ option, IsSlot option x := by
  obtain ⟨g, made⟩ := files_eq_ok done
  refine ⟨g, made, fun direction place f member => ?_⟩
  obtain ⟨text, compiled, stands⟩ := g.compiled member
  obtain ⟨s, laid, sig, flow, idle, -⟩ :=
    Wrapper.source_flows compiled fun _ _ _ _ _ _ _ (never : False) => never.elim
  have starts := Wrapper.start_starts g.shared direction f sig
  refine ⟨text, s, compiled, stands, laid, Wrapper.distinct starts flow idle, fun x inside declared => ?_⟩
  obtain ⟨taken, letters⟩ := Wrapper.unreserved starts flow idle inside
  rcases declared.reserved g.reserves g.works with known | ⟨inward, quoted⟩
  · exact taken known
  · rw [letters inward] at quoted
    cases quoted

/-- A function that returns an option of nothing. Its name is also that of a slot. -/
def offer : Function where
  name := "option0_0"
  results := { anon := some (.ref 1) }

def offering : Registry where
  types := #[⟨.tuple [], none⟩, ⟨.option (.ref 0), none⟩]
  worlds := #[{ name := "w", exports := [(.name offer.name, .function offer)] }]

theorem offering_made : ∃ g : Generation offering 0 {},
    g.names = ["Exports", "Impl", "verifyExports", "option0_0", "option0_0"] ∧
      g.todo = [.wrap .inward {} offer] := by
  refine exists_generation rfl rfl rfl (fun task member => ?_) fun symbol member => ?_
  · cases List.mem_singleton.mp member
    exact ⟨_, rfl⟩
  · cases List.mem_singleton.mp member
    decide

theorem offering_apart : ∃ outputs, (files offering 0 {}).2 = .ok outputs ∧
    ∃ g : Generation offering 0 {}, outputs = [g.output] ∧
      ∀ direction place f, .wrap direction place f ∈ g.todo →
        ∃ text s, Wrapper.source g.shared place direction f = .ok text ∧
          text ∈ ((g.contents.tree direction).under place.path).fragments ∧
          Wrapper.LaidOut g.shared place direction f text s ∧
          (s.params ++ s.areas ++ localsAll s.body).Nodup ∧
          ∀ x ∈ s.params ++ s.areas ++ localsAll s.body, Declared {} g.todo direction x →
            direction = .inward ∧ ∃ option, IsSlot option x := by
  obtain ⟨g, -⟩ := offering_made
  exact ⟨_, g.files_eq, files_shadow g.files_eq⟩

theorem offer_reached : ∃ s, Wrapper.emission ⟨offering.types, {},
    ["Exports", "Impl", "verifyExports", "option0_0", "option0_0"]⟩ {} .inward offer = .ok s ∧
    "option0_0" ∈ localsAll s.body :=
  ⟨_, rfl, by decide +kernel⟩

/-- The slot of the option that comes back is declared under the function's own name. -/
theorem offering_shadowed : ∃ g : Generation offering 0 {},
    (files offering 0 {}).2 = .ok [g.output] ∧ .wrap .inward {} offer ∈ g.todo ∧
      (∃ text s, Wrapper.source g.shared {} .inward offer = .ok text ∧
        Wrapper.LaidOut g.shared {} .inward offer text s ∧ "option0_0" ∈ localsAll s.body) ∧
      Declared {} g.todo .inward "option0_0" := by
  obtain ⟨g, names, todo⟩ := offering_made
  have member : .wrap .inward {} offer ∈ g.todo := by simp [todo]
  have shared : g.shared = ⟨offering.types, {},
      ["Exports", "Impl", "verifyExports", "option0_0", "option0_0"]⟩ := by
    rw [Generation.shared, names]
  obtain ⟨text, compiled, -⟩ := g.compiled member
  obtain ⟨s, laid, -⟩ :=
    Wrapper.source_flows compiled fun _ _ _ _ _ _ _ (never : False) => never.elim
  obtain ⟨last, reached, slot⟩ := offer_reached
  obtain rfl : last = s := Except.ok.inj (reached.symm.trans (shared ▸ laid.1))
  exact ⟨g, g.files_eq, member, ⟨text, last, compiled, laid, slot⟩, .exported rfl member⟩

end ZigBindings.Generate
