import ZigBindings.Proofs.Generate.Tasks
import ZigBindings.Proofs.Module.Containers

/-! What a world's module is made of. Under each path stand the wrappers of exactly those functions
that are filed there, in the order of the items. -/

namespace ZigBindings

namespace Module

/-- What has been filed of one direction. -/
def Contents.tree (c : Contents) : Direction → Scope
  | .outward => c.imports
  | .inward => c.exports

end Module

namespace Generate
open ZigBindings.Module

variable {r : Registry} {id : Nat} {o : Options}

/-- How the module of a world came about. -/
structure Generation (r : Registry) (id : Nat) (o : Options) where
  world : World
  names : List String
  todo : List Task
  contents : Contents
  found : Registry.at? r.worlds id = .ok world
  reserves : reserved r world o = .ok names
  works : tasks r world = .ok todo
  runs : (runAll ⟨r.types, o, names⟩ {} todo).2 = .ok contents
  checks : checkExports contents = .ok ()

namespace Generation

def shared (g : Generation r id o) : Wrapper.Shared := ⟨r.types, o, g.names⟩

def output (g : Generation r id o) : Output :=
  ⟨fileName g.world, String.ofList (Scope.joinSections (sections o g.world.name g.contents))⟩

end Generation

theorem files_eq_ok {outputs : List Output} (done : (files r id o).2 = .ok outputs) :
    ∃ g : Generation r id o, outputs = [g.output] := by
  rw [files] at done
  split at done
  case h_1 => cases done
  case h_2 w names todo prepared =>
    simp only [bind_eq_ok, pure_eq_ok, Except.ok.injEq, Prod.mk.injEq] at prepared
    obtain ⟨w, found, names, reserves, todo, works, rfl, rfl, rfl⟩ := prepared
    simp only [bind_eq_ok, pure_eq_ok, assemble, Except.ok.injEq] at done
    obtain ⟨c, runs, _, ⟨_, checks, rfl⟩, rfl⟩ := done
    exact ⟨⟨w, names, todo, c, found, reserves, works, runs, checks⟩, rfl⟩

theorem Generation.files_eq (g : Generation r id o) : (files r id o).2 = .ok [g.output] := by
  simp only [Generate.files, g.found, g.reserves, g.works, ok_bind, pure_eq_ok, g.runs, assemble,
    g.checks]
  rfl

variable {shared : Wrapper.Shared} {todo : List Task} {c c' : Contents} {direction : Direction}
  {path : List String}

abbrev Wrapped := Wrapper.Place × Function

def Task.filed? (direction : Direction) (path : List String) : Task → Option Wrapped
  | wrap way place f => if way = direction ∧ path = place.path then some (place, f) else none
  | skipType _ _ => none

/-- The functions of a direction that are filed under a path, in order. -/
def filed (direction : Direction) (path : List String) (todo : List Task) : List Wrapped :=
  todo.filterMap (Task.filed? direction path)

@[simp] theorem mem_filed {place : Wrapper.Place} {f : Function} :
    (place, f) ∈ filed direction path todo ↔ .wrap direction place f ∈ todo ∧ path = place.path := by
  simp only [filed, List.mem_filterMap]
  constructor
  · rintro ⟨task, member, files⟩
    cases task with
    | skipType => cases files
    | wrap way place f =>
      rw [Task.filed?] at files
      split at files
      case isTrue same =>
        cases files
        exact ⟨same.1 ▸ member, same.2⟩
      case isFalse => cases files
  · rintro ⟨member, rfl⟩
    exact ⟨_, member, if_pos ⟨rfl, rfl⟩⟩

abbrev Sources (shared : Wrapper.Shared) (direction : Direction) : List Wrapped → List (List Char) → Prop :=
  List.Forall₂ fun wrapped code => Wrapper.source shared wrapped.1 direction wrapped.2 = .ok code

/-- Some functions have been filed: their sources stand under their paths, behind what stood there
before, and the segments of their paths have become namespaces. -/
structure Files (shared : Wrapper.Shared) (todo : List Task) (c c' : Contents) : Prop where
  sorted : ∀ direction, (c'.tree direction).Sorted
  fragments : ∀ direction path, ∃ codes, Sources shared direction (filed direction path todo) codes ∧
    ((c'.tree direction).under path).fragments = ((c.tree direction).under path).fragments ++ codes
  segments : ∀ direction path segment, segment ∈ ((c'.tree direction).under path).segments ↔
    (∃ place f, .wrap direction place f ∈ todo ∧ path ++ [segment] <+: place.path) ∨
      segment ∈ ((c.tree direction).under path).segments

theorem Files.nil (sorted : ∀ direction, (c.tree direction).Sorted) : Files shared [] c c where
  sorted := sorted
  fragments _ _ := ⟨[], .nil, (List.append_nil _).symm⟩
  segments _ _ _ := by simp

theorem Files.append {first second : List Task} {middle : Contents}
    (left : Files shared first c middle) (right : Files shared second middle c') :
    Files shared (first ++ second) c c' where
  sorted := right.sorted
  fragments direction path := by
    obtain ⟨before, compiled, stand⟩ := left.fragments direction path
    obtain ⟨after, others, behind⟩ := right.fragments direction path
    refine ⟨before ++ after, ?_, by rw [behind, stand, List.append_assoc]⟩
    rw [filed, List.filterMap_append]
    exact List.rel_append compiled others
  segments direction path segment := by
    rw [right.segments, left.segments, ← or_assoc]
    refine or_congr_left ⟨?_, ?_⟩
    · rintro (⟨place, f, member, below⟩ | ⟨place, f, member, below⟩)
      · exact ⟨place, f, List.mem_append_right _ member, below⟩
      · exact ⟨place, f, List.mem_append_left _ member, below⟩
    · rintro ⟨place, f, member, below⟩
      rcases List.mem_append.mp member with member | member
      · exact .inr ⟨place, f, member, below⟩
      · exact .inl ⟨place, f, member, below⟩

theorem file_tree (way : Direction) (place : Wrapper.Place) (f : Function) (code : List Char)
    (c : Contents) : (file way place f code c).tree direction =
      if way = direction then (c.tree direction).file code place.path else c.tree direction := by
  cases way <;> cases direction <;> rfl

theorem Task.run_files {task : Task} (done : task.run shared c = .ok c')
    (sorted : ∀ direction, (c.tree direction).Sorted) : Files shared [task] c c' := by
  cases task with
  | skipType way name =>
    cases done
    exact ⟨sorted, fun _ _ => ⟨[], .nil, (List.append_nil _).symm⟩, by simp⟩
  | wrap way place f =>
    simp only [Task.run, bind_eq_ok, pure_eq_ok, Except.ok.injEq] at done
    obtain ⟨code, compiled, rfl⟩ := done
    refine ⟨fun direction => ?_, fun direction path => ?_, fun direction path segment => ?_⟩
    all_goals rw [file_tree]
    · split
      · exact Scope.file_sorted (sorted direction)
      · exact sorted direction
    · split
      case isTrue same =>
        subst same
        rw [Scope.fragments_file (sorted way)]
        refine ⟨_, ?_, rfl⟩
        by_cases here : path = place.path
        · simp [filed, Task.filed?, here, compiled]
        · simp [filed, Task.filed?, here]
      case isFalse other =>
        exact ⟨[], by simp [filed, Task.filed?, other], (List.append_nil _).symm⟩
    · split
      case isTrue same =>
        subst same
        rw [Scope.segments_file (sorted way)]
        simp
      case isFalse other => simp [Ne.symm other]

theorem runAll_files (done : (runAll shared c todo).2 = .ok c')
    (sorted : ∀ direction, (c.tree direction).Sorted) : Files shared todo c c' := by
  induction todo generalizing c with
  | nil =>
    cases done
    exact .nil sorted
  | cons task rest ih =>
    obtain ⟨middle, first, others⟩ := runAll_cons.mp done
    have one := Task.run_files first sorted
    exact one.append (ih others one.sorted)

theorem Generation.files (g : Generation r id o) : Files g.shared g.todo {} g.contents :=
  runAll_files g.runs fun direction => by cases direction <;> exact Scope.empty_sorted

theorem bare_tree (direction : Direction) : ({} : Contents).tree direction = .empty := by cases direction <;> rfl

theorem Generation.fragments (g : Generation r id o) (direction : Direction) (path : List String) :
    Sources g.shared direction (filed direction path g.todo) ((g.contents.tree direction).under path).fragments := by
  obtain ⟨codes, compiled, stand⟩ := g.files.fragments direction path
  rw [bare_tree, Scope.under_empty] at stand
  rw [stand]
  exact compiled

theorem Generation.segments (g : Generation r id o) {segment : String}
    (member : segment ∈ ((g.contents.tree direction).under path).segments) :
    ∃ place f, .wrap direction place f ∈ g.todo ∧ path ++ [segment] <+: place.path := by
  refine ((g.files.segments direction path segment).mp member).resolve_right ?_
  rw [bare_tree, Scope.under_empty]
  exact List.not_mem_nil

/-- Every function of the world has a wrapper, which stands under the function's path. -/
theorem Generation.compiled (g : Generation r id o) {place : Wrapper.Place} {f : Function}
    (member : .wrap direction place f ∈ g.todo) :
    ∃ code, Wrapper.source g.shared place direction f = .ok code ∧
      code ∈ ((g.contents.tree direction).under place.path).fragments := by
  obtain ⟨code, inside, source⟩ :=
    related_of_mem (g.fragments direction place.path) _ (mem_filed.mpr ⟨member, rfl⟩)
  exact ⟨code, source, inside⟩

end Generate

end ZigBindings
