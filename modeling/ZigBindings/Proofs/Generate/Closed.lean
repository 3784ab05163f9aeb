import ZigBindings.Proofs.Generate.Reachability
import ZigBindings.Proofs.World.Parsing
import ZigBindings.Proofs.Wrapper.Locals

/-! Generation from a parsed world. Its registry is closed, so no id that a wrapper or an item
looks up is missing, whatever else may keep a module from being made. -/

namespace ZigBindings
open Zig

variable {α β : Type}

/-- The computation does not come upon an id outside its table. -/
def Lands (computation : Except Fault α) : Prop := computation ≠ .error .dangling

namespace Lands

theorem pure (a : α) : Lands (pure a) := fun never => by cases never

theorem throw {fault : Fault} (other : fault ≠ .dangling) : Lands (throw fault : Except Fault α) :=
  fun same => other (Except.error.inj same)

theorem of_ok {x : Except Fault α} {a : α} (done : x = .ok a) : Lands x := by
  rw [done]
  exact pure a

theorem of_error {fault : Fault} (lands : Lands (.error fault : Except Fault α)) :
    Lands (.error fault : Except Fault β) := fun same => lands (by cases same; rfl)

theorem bind {x : Except Fault α} {next : α → Except Fault β} (first : Lands x)
    (others : ∀ a, x = .ok a → Lands (next a)) : Lands (x >>= next) := by
  cases x with
  | error fault => exact fun same => first (by cases same; rfl)
  | ok a => exact others a rfl

theorem mapM {f : α → Except Fault β} {xs : List α} (each : ∀ x ∈ xs, Lands (f x)) :
    Lands (xs.mapM f) := by
  induction xs with
  | nil => exact pure []
  | cons x rest ih =>
    rw [List.mapM_cons]
    refine bind (each x (by simp)) fun y _ => ?_
    exact bind (ih fun other member => each other (by simp [member])) fun ys _ => pure (y :: ys)

theorem forM {step : α → Except Fault Unit} {xs : List α} (each : ∀ x ∈ xs, Lands (step x)) :
    Lands (xs.forM step) := by
  induction xs with
  | nil => exact pure ()
  | cons x rest ih =>
    rw [List.forM_eq_forM, List.forM_cons]
    exact bind (each x (by simp)) fun _ _ => ih fun other member => each other (by simp [member])

theorem at? {table : Array α} {id : Nat} (inside : id < table.size) : Lands (Registry.at? table id) := by
  rw [Registry.at?, Array.getElem?_eq_getElem inside]
  exact pure _

theorem locate {x : Except Fault α} (lands : Lands x) (site : Site) :
    Lands (x.mapError (Fault.locate site)) := by
  cases x with
  | ok a => exact pure a
  | error fault =>
    refine fun same => lands ?_
    cases fault with
    | generation cause at? => cases at? <;> cases same
    | dangling => rfl
    | _ => cases same

end Lands

section
variable {a : Arena} {ty : Ty}

theorem spellWithin_lands (closed : a.Closed) (inside : a.InRange ty) (depth : Nat) :
    Lands (spellWithin a depth ty) := by
  induction depth generalizing ty with
  | zero =>
    cases ty with
    | prim p => exact .pure _
    | ref id => exact .throw (by simp)
  | succ depth ih =>
    cases ty with
    | prim p => exact .pure _
    | ref id =>
      obtain ⟨kind, found⟩ := Arena.kind_of_lt (inside id rfl)
      simp only [spellWithin, found, ok_bind]
      cases kind with
      | tuple elements =>
        exact .bind (.mapM fun ty member => ih (closed.part found ty member)) fun parts _ => .pure _
      | _ => exact .throw (by simp [Fault.unsupportedType])

theorem spell_lands (closed : a.Closed) (inside : a.InRange ty) : Lands (spell a ty) :=
  spellWithin_lands closed inside a.depth

theorem checkWithin_lands (closed : a.Closed) (inside : a.InRange ty) (depth : Nat) :
    Lands (checkWithin a depth ty) := by
  induction depth generalizing ty with
  | zero =>
    cases ty with
    | prim p => exact .pure _
    | ref id => exact .throw (by simp)
  | succ depth ih =>
    cases ty with
    | prim p => exact .pure _
    | ref id =>
      obtain ⟨kind, found⟩ := Arena.kind_of_lt (inside id rfl)
      have part := closed.part found
      simp only [checkWithin, found, ok_bind]
      cases kind with
      | tuple elements => exact .forM fun ty member => ih (part ty member)
      | option inner | list inner =>
        exact .bind (spell_lands closed (part inner (List.mem_singleton_self _))) fun _ _ => .pure _
      | _ => exact .throw (by simp [Fault.unsupportedType])

theorem check_lands (closed : a.Closed) (inside : a.InRange ty) : Lands (check a ty) :=
  checkWithin_lands closed inside a.depth

theorem spellResults_lands (closed : a.Closed) {results : Results}
    (inside : ∀ ty ∈ results.types, a.InRange ty) : Lands (spellResults a results) := by
  obtain ⟨anon, named⟩ := results
  cases anon with
  | some ty => exact spell_lands closed (inside ty (List.mem_singleton_self _))
  | none =>
    rw [spellResults]
    dsimp only
    split
    · exact .pure _
    · refine .bind (.mapM fun field member => ?_) fun fields _ => .pure _
      exact .bind (spell_lands closed (inside field.2 (List.mem_map_of_mem member))) fun _ _ => .pure _

end

namespace Wrapper

variable {shared : Shared} {direction : Direction} {f : Function}

theorem Ends.lands {compiled : Except Fault (List Char)} (ends : Ends shared direction f compiled) :
    Lands compiled := by
  rcases ends with ⟨text, rfl, -⟩ | ⟨rfl, -⟩ | ⟨rfl, -⟩
  · exact .pure text
  · exact .throw (by simp)
  · exact .throw (by simp)

theorem outward_lands (closed : shared.arena.Closed) (inside : ∀ ty ∈ f.types, shared.arena.InRange ty)
    (place : Place) : Lands (outward shared place f) := by
  have params : Lands (f.params.mapM fun p => spell shared.arena p.2) :=
    .mapM fun p member => spell_lands closed ((forall_types.mp inside).1 p member)
  have results := spellResults_lands closed (forall_types.mp inside).2
  rw [outward]
  refine params.bind fun types spelled => results.bind fun result answered => ?_
  have spellable : ∀ ty ∈ f.types, Spellable shared.arena ty := by
    refine forall_types.mpr ⟨fun p member => ?_, spellResults_spellable answered⟩
    obtain ⟨text, -, spelled⟩ := ok_of_mapM spelled p member
    exact spellWithin_spellable spelled
  have ends := (outward_ends place spelled answered spellable).lands
  rwa [outward, spelled, answered] at ends

theorem inward_lands (closed : shared.arena.Closed) (inside : ∀ ty ∈ f.types, shared.arena.InRange ty)
    (place : Place) : Lands (inward shared place f) := by
  have params : Lands (f.params.forM fun p => check shared.arena p.2) :=
    .forM fun p member => check_lands closed ((forall_types.mp inside).1 p member)
  have results : Lands (f.results.types.forM (check shared.arena)) :=
    .forM fun ty member => check_lands closed ((forall_types.mp inside).2 ty member)
  rw [inward]
  refine params.bind fun _ checked => results.bind fun _ also => ?_
  have passable : ∀ ty ∈ f.types, Passable shared.arena ty := forall_types.mpr
    ⟨fun p member => checkWithin_passable (ok_of_forM checked p member),
      fun ty member => checkWithin_passable (ok_of_forM also ty member)⟩
  have ends := (inward_ends place checked also passable).lands
  rwa [inward, checked, also] at ends

theorem source_lands (closed : shared.arena.Closed) (inside : ∀ ty ∈ f.types, shared.arena.InRange ty)
    (place : Place) : Lands (source shared place direction f) := by
  cases direction with
  | outward => exact (outward_lands closed inside place).locate _
  | inward => exact (inward_lands closed inside place).locate _

end Wrapper

theorem Function.Within.types {f : Function} {a : Arena} (within : f.Within a) :
    ∀ ty ∈ f.types, a.InRange ty := by
  refine Wrapper.forall_types.mpr ⟨within.params, fun ty member => ?_⟩
  rw [Results.types.eq_def] at member
  split at member
  case h_1 found => exact List.mem_singleton.mp member ▸ within.anon _ found
  case h_2 =>
    obtain ⟨field, inside, rfl⟩ := List.mem_map.mp member
    exact within.named field inside

theorem Module.checkExports_lands (c : Contents) : Lands (checkExports c) := .forM fun symbol _ => by
  dsimp only
  split
  · exact .pure ()
  · exact .throw (by simp)

namespace Generate

theorem runAll_lands {shared : Wrapper.Shared} {todo : List Task}
    (each : ∀ direction place f, .wrap direction place f ∈ todo → Lands (Wrapper.source shared place direction f))
    (c : Module.Contents) : Lands (runAll shared c todo).2 := by
  induction todo generalizing c with
  | nil => exact .pure c
  | cons task rest ih =>
    have first : Lands (task.run shared c) := by
      cases task with
      | wrap direction place f => exact .bind (each _ _ _ List.mem_cons_self) fun _ _ => .pure _
      | skipType => exact .pure c
    rw [runAll]
    cases done : task.run shared c with
    | error fault =>
      rw [done] at first
      exact first
    | ok middle => exact ih (fun _ _ _ member => each _ _ _ (List.mem_cons_of_mem _ member)) middle

end Generate

namespace Registry
open Generate

variable {r : Registry} {names : List String} {w : World}

theorem typedef_lands {a : Arena} {id : Nat} (inside : id < a.size) : Lands (a.typedef id) := by
  rw [Arena.typedef, Array.getElem?_eq_getElem inside]
  exact .pure _

namespace Parsed

variable (parsed : r.Parsed names w)
include parsed

theorem packaged_ok {entry : Key × Item} (carried : r.Carries entry) {id : Nat}
    (key : entry.1 = .interface id) : ∃ i name number package, r.interfaces[id]? = some i ∧
      i.name = some name ∧ i.package = some number ∧ r.packages[number]? = some package ∧
        r.packaged id = .ok (package, name) := by
  obtain ⟨_, item⟩ := entry
  cases key
  cases item with
  | function f => cases carried.1
  | type id =>
    obtain ⟨⟨_, same⟩, -⟩ := carried
    cases same
  | interface other =>
    obtain ⟨i, found, ⟨-, _, -, same⟩ | ⟨packaged, same⟩⟩ := carried
    · cases same
    cases same
    have sound := parsed.interfaces i (Array.mem_of_getElem? found)
    obtain ⟨name, named⟩ := Option.isSome_iff_exists.mp sound.named
    obtain ⟨number, packaged⟩ := Option.isSome_iff_exists.mp packaged
    have present := Array.getElem?_eq_getElem (sound.package number packaged)
    refine ⟨i, name, number, _, found, named, packaged, present, ?_⟩
    simp only [Registry.packaged, Registry.at?, found, named, packaged, present, pure_eq_ok, ok_bind]

theorem placed {entry : Key × Item} (carried : r.Carries entry) :
    (∃ path, r.scopePath entry.1 = .ok path) ∧ ∃ linkName, r.linkName entry.1 = .ok linkName := by
  cases key : entry.1 with
  | name name => exact ⟨⟨_, rfl⟩, _, rfl⟩
  | interface id =>
    obtain ⟨_, _, _, _, -, -, -, -, packaged⟩ := parsed.packaged_ok carried key
    exact ⟨⟨_, by rw [scopePath, packaged]; rfl⟩, _, by rw [linkName, packaged]; rfl⟩

theorem itemTasks_lands {entry : Key × Item} (carried : r.Carries entry) (direction : Direction) :
    Lands (itemTasks r direction entry) := by
  obtain ⟨⟨path, filed⟩, linkName, linked⟩ := parsed.placed carried
  obtain ⟨key, item⟩ := entry
  cases item with
  | function f => exact .pure _
  | interface id =>
    obtain ⟨i, found, -⟩ := carried
    refine (Lands.of_ok filed).bind fun _ _ => (Lands.of_ok linked).bind fun _ _ => ?_
    exact (Lands.at? (Array.getElem?_eq_some_iff.mp found).1).bind fun _ _ => .pure _
  | type id => exact (typedef_lands carried.2).bind fun _ _ => .pure _

theorem reservedBy_lands {entry : Key × Item} (carried : r.Carries entry) : Lands (reservedBy r entry) := by
  obtain ⟨⟨path, filed⟩, -⟩ := parsed.placed carried
  obtain ⟨key, item⟩ := entry
  cases item with
  | function f => exact .pure _
  | interface id =>
    obtain ⟨i, found, -⟩ := carried
    refine (Lands.of_ok filed).bind fun _ _ => ?_
    exact (Lands.at? (Array.getElem?_eq_some_iff.mp found).1).bind fun _ _ => .pure _
  | type id => exact .pure _

theorem carried {entry : Key × Item} (listed : entry ∈ w.imports ++ w.exports) : r.Carries entry := by
  rcases List.mem_append.mp listed with incoming | outgoing
  · exact parsed.imports.carried entry incoming
  · exact parsed.exports.carried entry outgoing

theorem reserved_lands (o : Options) : Lands (reserved r w o) := by
  have option : ∀ value, Lands (optionName value) := fun value => by
    rw [optionName.eq_def]
    split
    · exact .pure _
    · exact .pure _
    · exact .throw (by simp)
  refine (option _).bind fun _ _ => (option _).bind fun _ _ => ?_
  exact (Lands.mapM fun entry listed => parsed.reservedBy_lands (parsed.carried listed)).bind
    fun _ _ => .pure _

theorem tasks_lands : Lands (tasks r w) := by
  refine (Lands.mapM fun entry listed => parsed.itemTasks_lands (parsed.imports.carried entry listed) _).bind
    fun _ _ => ?_
  exact (Lands.mapM fun entry listed => parsed.itemTasks_lands (parsed.exports.carried entry listed) _).bind
    fun _ _ => .pure _

theorem task_within {todo : List Task} (work : tasks r w = .ok todo) {direction : Direction}
    {place : Wrapper.Place} {f : Function} (member : .wrap direction place f ∈ todo) :
    f.Within r.types := by
  obtain ⟨⟨key, item⟩, listed, origin⟩ := tasks_wrap work member
  have carried := parsed.carried listed
  obtain ⟨found, -⟩ | ⟨id, interface, found, -, -, known, named⟩ := origin
  · cases found
    exact carried.2
  · cases found
    obtain ⟨i, present, -⟩ := carried
    rw [Registry.at?, present] at known
    cases known
    obtain ⟨⟨name, g⟩, entered, rfl⟩ := List.mem_map.mp named
    exact (parsed.interfaces interface (Array.mem_of_getElem? present)).within name g entered

theorem files_lands (o : Options) : Lands (files r 0 o).2 := by
  have found : at? r.worlds 0 = .ok w := by
    rw [parsed.world]
    rfl
  have reserves := parsed.reserved_lands o
  have works := parsed.tasks_lands
  rw [Generate.files, found]
  simp only [ok_bind]
  cases named : reserved r w o with
  | error fault =>
    rw [named] at reserves
    exact Lands.of_error reserves
  | ok reservedNames =>
    cases work : tasks r w with
    | error fault =>
      rw [work] at works
      exact Lands.of_error works
    | ok todo =>
      have sources : Lands (runAll ⟨r.types, o, reservedNames⟩ {} todo).2 :=
        runAll_lands (fun direction place f member => Wrapper.source_lands parsed.types
          (parsed.task_within work member).types place) {}
      refine sources.bind fun contents _ => Lands.bind ?_ fun text _ => .pure _
      exact (Module.checkExports_lands contents).bind fun _ _ => .pure _

end Parsed

end Registry

namespace World
open Registry

/-- A registry made of a description is closed. All that its definitions, functions, interfaces and
items refer to is there, packages and the keys of items are entered once, and every key has a path
and a link name. So nothing that generation looks up is missing. -/
theorem parse_closed {description : Entries} {r : Registry} {id : Nat}
    (parsed : parse description = .ok (r, id)) :
    ∃ w, r.worlds[id]? = some w ∧ r.Parsed (interfaceNames description) w ∧
      (∀ entry ∈ w.imports ++ w.exports,
        (∃ path, r.scopePath entry.1 = .ok path) ∧ (∃ linkName, r.linkName entry.1 = .ok linkName) ∧
          ∀ number, entry.1 = .interface number → ∃ i, r.interfaces[number]? = some i ∧
            i.name.isSome ∧ i.package.isSome) ∧
      ∀ o, (Generate.files r id o).2 ≠ .error .dangling := by
  obtain ⟨rfl, w, closed⟩ := parse_parsed parsed
  refine ⟨w, by rw [closed.world]; rfl, closed, fun entry listed => ?_, closed.files_lands⟩
  have carried := closed.carried listed
  obtain ⟨path, linkName⟩ := closed.placed carried
  refine ⟨path, linkName, fun number key => ?_⟩
  obtain ⟨i, _, _, _, found, named, packaged, -⟩ := closed.packaged_ok carried key
  exact ⟨i, found, by rw [named]; rfl, by rw [packaged]; rfl⟩

def lamp : Entries :=
  [(.text "world", .text "lamp"),
    (.text "types", .mapping [(.text "level", .text "option<u8>")]),
    (.text "interfaces", .mapping [(.text "home:light/switch@1.0.0", .mapping
      [(.text "functions", .mapping [(.text "flip", .mapping [])])])]),
    (.text "imports", .list [.mapping [(.text "interface", .text "home:light/switch@1.0.0")]]),
    (.text "exports", .list [.mapping [(.text "function", .text "dim"),
      (.text "params", .mapping [(.text "to", .text "level")])]])]

theorem lamp_closed : ∃ r id, parse lamp = .ok (r, id) ∧
    ∃ w, r.worlds[id]? = some w ∧ r.Parsed (interfaceNames lamp) w ∧
      (∀ entry ∈ w.imports ++ w.exports,
        (∃ path, r.scopePath entry.1 = .ok path) ∧ (∃ linkName, r.linkName entry.1 = .ok linkName) ∧
          ∀ number, entry.1 = .interface number → ∃ i, r.interfaces[number]? = some i ∧
            i.name.isSome ∧ i.package.isSome) ∧
      ∀ o, (Generate.files r id o).2 ≠ .error .dangling := by
  obtain ⟨⟨r, id⟩, parsed⟩ := isOk_iff.mp (show (parse lamp).isOk = true by decide +kernel)
  exact ⟨r, id, parsed, parse_closed parsed⟩

end World

end ZigBindings
