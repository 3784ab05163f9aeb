import ZigBindings.Proofs.Generate.Contents
import ZigBindings.Proofs.Module.Headers

/-! The check of a module's exports. A world whose functions all have wrappers becomes a module
unless a function of its own, which is filed outside all namespaces, has a plain name that a line
break ends. -/

namespace ZigBindings
open Zig

section
variable {shared : Wrapper.Shared} {place : Wrapper.Place} {f : Function} {code : List Char}

theorem Wrapper.assemble_header (direction : Direction) (width : Int) (header : String) (s : Emission) :
    ∃ rest, assemble direction width header s = header.toList ++ '\n' :: rest := by
  rw [assemble, line, Int.toNat_zero, List.replicate_zero, List.nil_append]
  exact ⟨_, by simp only [List.append_assoc, List.singleton_append]; rfl⟩

theorem Wrapper.inward_header (compiled : Wrapper.inward shared place f = .ok code) :
    ∃ rest, code = "pub export fn ".toList ++
      (Name.escapedChars (exportSymbol place f).toList ++ '(' :: rest) := by
  simp only [inward, bind_eq_ok, pure_eq_ok, Except.ok.injEq] at compiled
  obtain ⟨_, _, _, _, setting, _, s, _, rfl⟩ := compiled
  obtain ⟨rest, whole⟩ := assemble_header .inward shared.options.width _ s
  refine ⟨(parameters s.params (setting.signature.params.map Slot.name) ++ ") " ++
    Emission.slotOrVoid setting.signature.results ++ " \x7b").toList ++ '\n' :: rest, whole.trans ?_⟩
  simp only [Name.escaped, String.toList_append, String.toList_ofList, List.append_assoc]
  rfl

theorem Wrapper.source_inward (compiled : Wrapper.source shared place .inward f = .ok code) :
    Wrapper.inward shared place f = .ok code := by
  rw [source] at compiled
  cases done : Wrapper.inward shared place f with
  | error fault => rw [done] at compiled; cases compiled
  | ok text => rw [done] at compiled; exact compiled

theorem Wrapper.escaped_mem_declared (compiled : Wrapper.source shared place .inward f = .ok code)
    (sound : Name.isBroken (exportSymbol place f).toList = false) :
    Name.escapedChars (exportSymbol place f).toList ∈ Module.declared code := by
  obtain ⟨rest, rfl⟩ := inward_header (source_inward compiled)
  exact Module.mem_declared sound rest

/-- Only an entry point outside all namespaces can have a broken name. -/
theorem Wrapper.isBroken_exportSymbol :
    Name.isBroken (exportSymbol place f).toList = (place.path.isEmpty && Name.isBroken f.name.toList) := by
  rw [exportSymbol]
  split
  case isTrue flat => rw [flat, Bool.true_and]
  case isFalse nested =>
    have signed : '#' ∈ (place.linkName ++ "#" ++ f.name).toList := by simp
    rw [Bool.eq_false_iff.mpr nested, Bool.false_and, Name.isBroken, Name.not_isPlain_of_mem signed,
      Bool.false_and, Bool.false_and]

end

namespace Module

theorem mem_declaredIn {scope : Scope} {path : List String} {raw : String} :
    (path, Name.escaped raw) ∈ declaredIn scope ↔
      ∃ code, Scope.Found (scope.walk []) path code ∧ Name.escapedChars raw.toList ∈ declared code := by
  simp only [declaredIn, List.mem_flatMap, List.mem_map, Scope.Found, Prod.mk.injEq, Prod.exists]
  constructor
  · rintro ⟨_, fragments, member, name, ⟨code, inside, declares⟩, rfl, same⟩
    refine ⟨code, ⟨fragments, member, inside⟩, ?_⟩
    rwa [← String.ofList_injective same]
  · rintro ⟨code, ⟨fragments, member, inside⟩, declares⟩
    exact ⟨path, fragments, member, _, ⟨code, inside, declares⟩, rfl, rfl⟩

/-- The recorded symbol belongs to an entry point whose source is filed under the recorded path. -/
def Backed (shared : Wrapper.Shared) (c : Contents) (symbol : List String × String) : Prop :=
  ∃ place f code, symbol = (place.path, Wrapper.exportSymbol place f) ∧
    Wrapper.source shared place .inward f = .ok code ∧
      Scope.Found (c.exports.walk []) place.path code

section
variable {shared : Wrapper.Shared} {c : Contents}

theorem Backed.contains_eq {symbol : List String × String} (backed : Backed shared c symbol) :
    (declaredIn c.exports).contains (symbol.1, Name.escaped symbol.2) =
      !Name.isBroken symbol.2.toList := by
  obtain ⟨place, f, code, rfl, compiled, found⟩ := backed
  cases broken : Name.isBroken (Wrapper.exportSymbol place f).toList with
  | false =>
    rw [Bool.not_false, List.contains_iff_mem, mem_declaredIn]
    exact ⟨code, found, Wrapper.escaped_mem_declared compiled broken⟩
  | true =>
    rw [Bool.not_true, ← Bool.not_eq_true, List.contains_iff_mem, mem_declaredIn]
    rintro ⟨other, _, declares⟩
    exact not_mem_declared broken other declares

theorem checkExports_settles (backed : ∀ symbol ∈ c.symbols, Backed shared c symbol) :
    Settles (checkExports c) (∀ symbol ∈ c.symbols, Name.isBroken symbol.2.toList = false)
      (· = .ok ()) fun fault => ∃ symbol ∈ c.symbols, Name.isBroken symbol.2.toList = true ∧
        fault = .generation (.unreachableExport symbol.2) none := by
  refine Settles.weaken (@Settles.forM _ _ _ _
    (fun symbol fault => fault = .generation (.unreachableExport symbol.2) none) _
      fun symbol member => ?_) fun fault stopped => ?_
  · simp only [(backed symbol member).contains_eq]
    cases Name.isBroken symbol.2.toList with
    | false => exact ⟨fun _ => rfl, fun never => absurd rfl never⟩
    | true => exact ⟨fun never => (by cases never), fun _ => ⟨_, rfl, rfl⟩⟩
  · obtain ⟨symbol, member, broken, rfl⟩ := stopped
    exact ⟨symbol, member, by simpa using broken, rfl⟩

end

end Module

namespace Generate
open ZigBindings.Module

def Task.symbol? : Task → Option (List String × String)
  | wrap .inward place f => some (place.path, Wrapper.exportSymbol place f)
  | _ => none

variable {shared : Wrapper.Shared} {r : Registry} {w : World}

theorem Task.run_backed {task : Task} {c c' : Contents} (done : task.run shared c = .ok c')
    (backed : ∀ symbol ∈ c.symbols, Backed shared c symbol) :
    c'.symbols = c.symbols ++ task.symbol?.toList ∧ ∀ symbol ∈ c'.symbols, Backed shared c' symbol := by
  cases task with
  | skipType =>
    cases done
    exact ⟨(List.append_nil _).symm, backed⟩
  | wrap direction place f =>
    simp only [Task.run, bind_eq_ok, pure_eq_ok, Except.ok.injEq] at done
    obtain ⟨code, compiled, rfl⟩ := done
    cases direction with
    | outward => exact ⟨(List.append_nil _).symm, backed⟩
    | inward =>
      have filed : ∀ path other, Scope.Found ((c.exports.file code place.path).walk []) path other ↔ _ :=
        Scope.file_adds code place.path c.exports []
      refine ⟨rfl, fun symbol member => ?_⟩
      rcases List.mem_append.mp member with old | new
      · obtain ⟨other, g, text, same, also, found⟩ := backed symbol old
        exact ⟨other, g, text, same, also, (filed _ _).mpr (.inr found)⟩
      · exact ⟨place, f, code, List.mem_singleton.mp new, compiled, (filed _ _).mpr (.inl ⟨rfl, rfl⟩)⟩

theorem runAll_backed {todo : List Task} {c c' : Contents} (done : (runAll shared c todo).2 = .ok c')
    (backed : ∀ symbol ∈ c.symbols, Backed shared c symbol) :
    c'.symbols = c.symbols ++ todo.filterMap Task.symbol? ∧
      ∀ symbol ∈ c'.symbols, Backed shared c' symbol := by
  induction todo generalizing c with
  | nil =>
    cases done
    exact ⟨(List.append_nil _).symm, backed⟩
  | cons task rest ih =>
    obtain ⟨middle, first, others⟩ := runAll_cons.mp done
    obtain ⟨recorded, kept⟩ := Task.run_backed first backed
    obtain ⟨all, ends⟩ := ih others kept
    refine ⟨?_, ends⟩
    rw [all, recorded, List.append_assoc]
    cases records : task.symbol? with
    | none => rw [List.filterMap_cons_none records]; rfl
    | some symbol => rw [List.filterMap_cons_some records]; rfl

/-- Functions that all have wrappers come to a module if no entry point has a broken name. -/
theorem exists_generation {id : Nat} {o : Options} {names : List String} {todo : List Task}
    (found : Registry.at? r.worlds id = .ok w) (reserves : reserved r w o = .ok names)
    (works : tasks r w = .ok todo) (each : ∀ task ∈ todo, task.Compiles ⟨r.types, o, names⟩)
    (sound : ∀ symbol ∈ todo.filterMap Task.symbol?, Name.isBroken symbol.2.toList = false) :
    ∃ g : Generation r id o, g.names = names ∧ g.todo = todo := by
  obtain ⟨c, runs⟩ := runAll_ok each {}
  obtain ⟨recorded, backed⟩ := runAll_backed runs fun _ member => by cases member
  have checks := (checkExports_settles backed).1 fun symbol member =>
    sound symbol (by rw [recorded] at member; exact member)
  exact ⟨⟨w, names, todo, c, found, reserves, works, runs, checks⟩, rfl, rfl⟩

/-- The world exports a function of its own under this name, and the name is broken. -/
def Breaks (w : World) (name : String) : Prop :=
  Name.isBroken name.toList = true ∧ ∃ key f, (key, Item.function f) ∈ w.exports ∧ f.name = name

theorem breaks_iff {todo : List Task} (work : tasks r w = .ok todo) {name : String} :
    Breaks w name ↔
      Name.isBroken name.toList = true ∧ ∃ path, (path, name) ∈ todo.filterMap Task.symbol? := by
  refine and_congr_right fun broken => ?_
  simp only [List.mem_filterMap]
  constructor
  · rintro ⟨key, f, member, rfl⟩
    have own : itemTasks r .inward (key, Item.function f) = .ok [.wrap .inward {} f] := rfl
    exact ⟨[], _, (mem_tasks work).mpr (.inr ⟨_, member, _, own, List.mem_singleton_self _⟩), rfl⟩
  · rintro ⟨path, task, member, records⟩
    cases task with
    | skipType => cases records
    | wrap direction place f =>
      cases direction with
      | outward => cases records
      | inward =>
        cases records
        rw [Wrapper.isBroken_exportSymbol, Bool.and_eq_true, List.isEmpty_iff] at broken
        rcases (mem_tasks work).mp member with ⟨entry, _, own, made, inside⟩ | ⟨entry, listed, own, made, inside⟩
        · cases (itemTasks_wrap made inside).1
        · obtain ⟨-, ⟨found, rfl⟩ | ⟨id, interface, -, filed, -⟩⟩ := itemTasks_wrap made inside
          · exact ⟨entry.1, f, found ▸ listed, rfl⟩
          · exact absurd broken.1 (scopePath_ne_nil filed)

/-- A world whose functions all have wrappers becomes a module, unless a function of its own has a
broken name; the check then calls its entry point unreachable. -/
theorem files_settle {id : Nat} {o : Options} {names : List String} {todo : List Task}
    (world : Registry.at? r.worlds id = .ok w) (names_ok : reserved r w o = .ok names)
    (work : tasks r w = .ok todo) (each : ∀ task ∈ todo, task.Compiles ⟨r.types, o, names⟩) :
    Settles (files r id o).2 (∀ name, ¬ Breaks w name)
      (fun result => ∃ text, result = .ok [⟨fileName w, text⟩])
      fun fault => ∃ name, Breaks w name ∧ fault = .generation (.unreachableExport name) none := by
  obtain ⟨c, done⟩ := runAll_ok each {}
  obtain ⟨recorded, backed⟩ := runAll_backed done fun _ member => by cases member
  have checked := checkExports_settles backed
  have result : (files r id o).2 = checkExports c >>= fun _ =>
      pure [⟨fileName w, String.ofList (Scope.joinSections (sections o w.name c))⟩] := by
    simp only [files, world, names_ok, work, ok_bind, pure_eq_ok, done, assemble]
    cases checkExports c <;> rfl
  rw [result]
  have broken_of : ∀ symbol ∈ c.symbols, Name.isBroken symbol.2.toList = true → Breaks w symbol.2 :=
    fun symbol member broken =>
      (breaks_iff work).mpr ⟨broken, symbol.1, by rw [recorded] at member; exact member⟩
  constructor
  · intro sound
    rw [checked.1 fun symbol member => Bool.eq_false_iff.mpr fun broken =>
      sound _ (broken_of symbol member broken)]
    exact ⟨_, rfl⟩
  · intro some
    obtain ⟨name, breaks⟩ := not_forall_not.mp some
    obtain ⟨broken, path, member⟩ := (breaks_iff work).mp breaks
    have fails : ¬ ∀ symbol ∈ c.symbols, Name.isBroken symbol.2.toList = false := fun sound => by
      have := sound (path, name) (by rw [recorded]; exact member)
      rw [this] at broken
      cases broken
    obtain ⟨_, stopped, symbol, inside, also, rfl⟩ := checked.2 fails
    exact ⟨_, by rw [stopped]; rfl, symbol.2, broken_of symbol inside also, rfl⟩

def ringing (name : String) : Registry where
  worlds := #[{ name := "bells", exports := [(.name name, .function { name })] }]

theorem ringing_reachable : (reserved (ringing "ping") (ringing "ping").worlds[0] {}).isOk ∧
    (tasks (ringing "ping") (ringing "ping").worlds[0]).isOk ∧
    ∃ text, (files (ringing "ping") 0 {}).2 = .ok [⟨"bells.zig", text⟩] := by
  refine ⟨rfl, rfl, ?_⟩
  have settled := @files_settle (ringing "ping") _ 0 {} _ _ rfl rfl rfl fun task member => by
    cases List.mem_singleton.mp member
    exact ⟨_, rfl⟩
  refine settled.1 fun name breaks => ?_
  obtain ⟨broken, key, f, member, rfl⟩ := breaks
  cases List.mem_singleton.mp member
  exact absurd broken (by decide)

/-- A line break after the name is enough. -/
theorem ringing_unreachable :
    reserved (ringing "ping\n") (ringing "ping\n").worlds[0] {} =
      .ok ["Exports", "Impl", "verifyExports", "ping", "ping\n"] ∧
    (∀ task ∈ [Task.wrap .inward {} { name := "ping\n" }],
      task.Compiles ⟨#[], {}, ["Exports", "Impl", "verifyExports", "ping", "ping\n"]⟩) ∧
    tasks (ringing "ping\n") (ringing "ping\n").worlds[0] = .ok [.wrap .inward {} { name := "ping\n" }] ∧
    (files (ringing "ping\n") 0 {}).2 = .error (.generation (.unreachableExport "ping\n") none) := by
  refine ⟨rfl, fun task member => ?_, rfl, rfl⟩
  cases List.mem_singleton.mp member
  exact ⟨_, rfl⟩

end Generate

end ZigBindings
