import Mathlib.Data.List.Nodup
import ZigBindings.Proofs.World.Closed
import ZigBindings.World.Parse

/-! What a parsed world promises. All ids stand in their tables, functions and items go by names of
their own, and every interface is the one that its name describes. -/

namespace ZigBindings

/-- The types of a function's values stand in the arena. -/
structure Function.Within (f : Function) (a : Arena) : Prop where
  params : ∀ p ∈ f.params, a.InRange p.2
  anon : ∀ ty, f.results.anon = some ty → a.InRange ty
  named : ∀ p ∈ f.results.named, a.InRange p.2

/-- Functions are entered under their own names, each name once. -/
structure ProperFunctions (functions : List (String × Function)) : Prop where
  apart : (functions.map (·.1)).Nodup
  named : ∀ name f, (name, f) ∈ functions → name = f.name

/-- An interface has a name, proper functions, and a package of the registry if any. -/
structure Interface.Sound (i : Interface) (r : Registry) : Prop where
  functions : ProperFunctions i.functions
  within : ∀ name f, (name, f) ∈ i.functions → f.Within r.types
  named : i.name.isSome
  package : ∀ id, i.package = some id → id < r.packages.size

namespace Registry

/-- The interface is what this name says: one of a package, or one that stands by itself. -/
def Describes (r : Registry) (name : String) (i : Interface) : Prop :=
  match World.qualified? name with
  | some (package, short) => ∃ id, i.package = some id ∧ r.packages[id]? = some package ∧ i.name = some short
  | none => i.package = none ∧ i.name = some name

/-- The item of an entry is there, and the entry goes by the item's own name or number. -/
def Carries (r : Registry) : Key × Item → Prop
  | (key, .function f) => key = .name f.name ∧ f.Within r.types
  | (key, .interface id) => ∃ i, r.interfaces[id]? = some i ∧
      ((i.package = none ∧ ∃ name, i.name = some name ∧ key = .name name) ∨
        (i.package.isSome ∧ key = .interface id))
  | (key, .type id) => (∃ name, key = .name name) ∧ id < r.types.size

structure ProperItems (r : Registry) (items : List (Key × Item)) : Prop where
  apart : (items.map (·.1)).Nodup
  carried : ∀ entry ∈ items, r.Carries entry

theorem ProperItems.nil (r : Registry) : r.ProperItems [] := ⟨List.nodup_nil, by simp⟩

/-- The registry of a description whose interfaces have these names. -/
structure Parsed (r : Registry) (names : List String) (w : World) : Prop where
  types : r.types.Closed
  packages : r.packages.toList.Nodup
  interfaces : ∀ i ∈ r.interfaces, i.Sound r
  apart : names.Nodup
  length : names.length = r.interfaces.size
  described : ∀ (id : Nat) i name, r.interfaces[id]? = some i → names[id]? = some name →
    r.Describes name i
  world : r.worlds = #[w]
  package : ∀ id, w.package = some id → id < r.packages.size
  imports : r.ProperItems w.imports
  exports : r.ProperItems w.exports

structure Grows (r s : Registry) : Prop where
  types : r.types.size ≤ s.types.size
  packages : ∀ (id : Nat) p, r.packages[id]? = some p → s.packages[id]? = some p
  interfaces : ∀ (id : Nat) i, r.interfaces[id]? = some i → s.interfaces[id]? = some i

namespace Grows

variable {r s : Registry}

theorem refl (r : Registry) : r.Grows r := ⟨le_rfl, fun _ _ found => found, fun _ _ found => found⟩

theorem addInterface (r : Registry) (i : Interface) : r.Grows (r.addInterface i).2 := by
  refine ⟨le_rfl, fun _ _ found => found, fun id j found => ?_⟩
  obtain ⟨inside, same⟩ := Array.getElem?_eq_some_iff.mp found
  rw [Registry.addInterface, Array.getElem?_push_lt inside, same]

variable (grows : r.Grows s)
include grows

theorem trans {t : Registry} (more : s.Grows t) : r.Grows t :=
  ⟨grows.types.trans more.types, fun id p found => more.packages id p (grows.packages id p found),
    fun id i found => more.interfaces id i (grows.interfaces id i found)⟩

theorem function {f : Function} (within : f.Within r.types) : f.Within s.types where
  params p member := (within.params p member).mono grows.types
  anon ty found := (within.anon ty found).mono grows.types
  named p member := (within.named p member).mono grows.types

theorem packaged {id : Nat} (inside : id < r.packages.size) : id < s.packages.size := by
  have kept := grows.packages id _ (Array.getElem?_eq_getElem inside)
  exact (Array.getElem?_eq_some_iff.mp kept).1

theorem interface {i : Interface} (sound : i.Sound r) : i.Sound s where
  functions := sound.functions
  within name f member := grows.function (sound.within name f member)
  named := sound.named
  package id found := grows.packaged (sound.package id found)

theorem describes {name : String} {i : Interface} (described : r.Describes name i) :
    s.Describes name i := by
  rw [Describes] at described ⊢
  split at described
  · obtain ⟨id, package, found, short⟩ := described
    exact ⟨id, package, grows.packages id _ found, short⟩
  · exact described

theorem carries {entry : Key × Item} (carried : r.Carries entry) : s.Carries entry := by
  obtain ⟨key, item⟩ := entry
  cases item with
  | function f => exact ⟨carried.1, grows.function carried.2⟩
  | interface id =>
    obtain ⟨i, found, goes⟩ := carried
    exact ⟨i, grows.interfaces id i found, goes⟩
  | type id => exact ⟨carried.1, carried.2.trans_le grows.types⟩

theorem items {items : List (Key × Item)} (proper : r.ProperItems items) : s.ProperItems items :=
  ⟨proper.apart, fun entry member => grows.carries (proper.carried entry member)⟩

end Grows

end Registry

namespace World
open Document

variable {α β : Type} {d m : Draft}

/-! ### Types and functions -/

/-- Only the types have changed, and none is lost. -/
structure Draft.Extends (d m : Draft) : Prop where
  le : d.registry.types.size ≤ m.registry.types.size
  rest : m = { d with registry := { d.registry with types := m.registry.types } }

/-- The types read so far are closed, and declared names stand for some of them. -/
structure Draft.Typed (d : Draft) : Prop where
  closed : d.registry.types.Closed
  known : TypeExpr.Known d.declared d.registry.types

namespace Draft.Extends

theorem refl (d : Draft) : d.Extends d := ⟨le_rfl, rfl⟩

theorem trans {n : Draft} (first : d.Extends m) (second : m.Extends n) : d.Extends n :=
  ⟨first.le.trans second.le, by rw [second.rest, first.rest]⟩

theorem declared (extends_ : d.Extends m) : m.declared = d.declared := by rw [extends_.rest]

theorem interfaces (extends_ : d.Extends m) : m.interfaces = d.interfaces := by rw [extends_.rest]

theorem entered (extends_ : d.Extends m) : m.registry.interfaces = d.registry.interfaces := by rw [extends_.rest]

theorem packages (extends_ : d.Extends m) : m.registry.packages = d.registry.packages := by rw [extends_.rest]

theorem grows (extends_ : d.Extends m) : d.registry.Grows m.registry where
  types := extends_.le
  packages id p found := by rw [extends_.rest]; exact found
  interfaces id i found := by rw [extends_.rest]; exact found

end Draft.Extends

def Reads (d : Draft) (inside : Arena → α → Prop) (reading : Except Fault (α × Draft)) : Prop :=
  Ensures reading fun result => d.Extends result.2 ∧ result.2.Typed ∧ inside result.2.registry.types result.1

namespace Reads

variable {inside : Arena → α → Prop} {also : Arena → β → Prop}

theorem pure {a : α} (typed : d.Typed) (stands : inside d.registry.types a) :
    Reads d inside (Pure.pure (a, d)) := Ensures.pure ⟨.refl d, typed, stands⟩

theorem throw (fault : Fault) : Reads d inside (throw fault : Except Fault (α × Draft)) := Ensures.throw fault

theorem bind {reading : Except Fault (α × Draft)} {next : α × Draft → Except Fault (β × Draft)}
    (first : Reads d inside reading)
    (others : ∀ a m, d.Extends m → m.Typed → inside m.registry.types a → Reads m also (next (a, m))) :
    Reads d also (reading >>= next) :=
  Ensures.bind first fun (a, m) ⟨added, typed, stands⟩ =>
    (others a m added typed stands).mono fun _ ⟨more, rest⟩ => ⟨added.trans more, rest⟩

theorem bind_any {x : Except Fault α} {next : α → Except Fault (β × Draft)}
    (others : ∀ a, Reads d also (next a)) : Reads d also (x >>= next) := Ensures.bind_any others

end Reads

def AllInRange (a : Arena) (entries : List (String × Ty)) : Prop := ∀ e ∈ entries, a.InRange e.2

theorem typeExpr_reads (typed : d.Typed) (text : String) : Reads d Arena.InRange (d.typeExpr text) :=
  Ensures.bind (TypeExpr.read_grown typed.known typed.closed text) fun (_, _) ⟨grown, inside⟩ =>
    .pure ⟨⟨grown.le, rfl⟩, ⟨grown.closed, typed.known.mono grown.le⟩, inside⟩

theorem typed_reads (typed : d.Typed) (entries : Entries) : Reads d AllInRange (d.typed entries) := by
  induction entries generalizing d with
  | nil => exact .pure typed (by simp [AllInRange])
  | cons entry rest ih =>
    refine (typeExpr_reads typed _).bind fun ty m _ typed inside => ?_
    refine (ih typed).bind fun others n more typed also => .pure typed ?_
    exact List.forall_mem_cons.mpr ⟨inside.mono more.le, also⟩

theorem cases_reads (typed : d.Typed) (entries : Entries) :
    Reads d (fun a cases => ∀ c ∈ cases, ∀ ty, c.2 = some ty → a.InRange ty) (d.cases entries) := by
  induction entries generalizing d with
  | nil => exact .pure typed (by simp)
  | cons entry rest ih =>
    rw [Draft.cases]
    split
    · refine (ih typed).bind fun others n _ typed also => .pure typed ?_
      exact List.forall_mem_cons.mpr ⟨by simp, also⟩
    · refine (typeExpr_reads typed _).bind fun ty m _ typed inside => ?_
      refine (ih typed).bind fun others n more typed also => .pure typed ?_
      refine List.forall_mem_cons.mpr ⟨fun other same => ?_, also⟩
      cases same
      exact inside.mono more.le

abbrev PartsInRange (a : Arena) (kind : Kind) : Prop := ∀ ty ∈ kind.parts, a.InRange ty

theorem synonym_reads (typed : d.Typed) (name : String) (id : Nat) (text : String) :
    Reads d PartsInRange (d.synonym name id text) := by
  refine (typeExpr_reads typed text).bind fun target m _ typed inside => ?_
  dsimp only
  split
  · exact .throw _
  · cases target with
    | prim p => exact .pure typed (List.forall_mem_singleton.mpr inside)
    | ref made =>
      dsimp only
      cases found : m.registry.types.typedef made with
      | error fault => exact .throw fault
      | ok definition =>
        have held : m.registry.types.kind made = .ok definition.kind := by rw [Arena.kind, found]; rfl
        rw [ok_bind]
        split
        · exact .pure typed (typed.closed.part held)
        · exact .pure typed (List.forall_mem_singleton.mpr inside)

theorem definition_reads (typed : d.Typed) (name : String) (id : Nat) (body : Document) :
    Reads d PartsInRange (d.definition name id body) := by
  rw [Draft.definition.eq_def]
  split
  · exact synonym_reads typed name id _
  · split
    · refine (typed_reads typed _).bind fun fields m _ typed inside => .pure typed ?_
      exact List.forall_mem_map.mpr inside
    · refine (cases_reads typed _).bind fun cases m _ typed inside => .pure typed fun ty part => ?_
      obtain ⟨c, member, found⟩ := List.mem_filterMap.mp part
      exact inside c member ty found
    · exact .pure typed (List.forall_mem_nil _)
    · exact .pure typed (List.forall_mem_nil _)
    · exact .pure typed (List.forall_mem_nil _)
    all_goals exact .throw _
  · exact .throw _

theorem results_reads (typed : d.Typed) (name : String) (body : Entries) :
    Reads d (fun a results => (∀ ty, results.anon = some ty → a.InRange ty) ∧ AllInRange a results.named)
      (d.results name body) := by
  rw [Draft.results]
  dsimp only
  split
  · exact .throw _
  split
  · split
    · exact .pure typed (by simp [AllInRange])
    · refine (typeExpr_reads typed _).bind fun ty m _ typed inside => .pure typed ⟨?_, by simp [AllInRange]⟩
      rintro other same
      cases same
      exact inside
  · exact .bind_any fun _ => (typed_reads typed _).bind fun named m _ typed inside =>
      .pure typed ⟨by simp, inside⟩

theorem function_reads (typed : d.Typed) (name : String) (body : Entries) :
    Reads d (fun a f => f.name = name ∧ f.Within a) (d.function name body) :=
  .bind_any fun _ => (typed_reads typed _).bind fun _ _ _ typed inside =>
    (results_reads typed name body).bind fun _ _ more typed also =>
      .pure typed ⟨rfl, fun p member => (inside p member).mono more.le, also.1, also.2⟩

/-! ### Interfaces -/

theorem mem_put {name : String} {value : α} {entries : List (String × α)} {entry : String × α}
    (member : entry ∈ put name value entries) : entry = (name, value) ∨ entry ∈ entries := by
  induction entries with
  | nil => exact .inl (List.mem_singleton.mp member)
  | cons first rest ih =>
    rw [put] at member
    split at member
    case isTrue same =>
      rcases List.mem_cons.mp member with rfl | behind
      · exact .inl (by rw [same])
      · exact .inr (List.mem_cons_of_mem _ behind)
    case isFalse =>
      rcases List.mem_cons.mp member with rfl | behind
      · exact .inr List.mem_cons_self
      · exact (ih behind).imp_right (List.mem_cons_of_mem _)

theorem put_apart {name : String} {value : α} {entries : List (String × α)}
    (apart : (entries.map (·.1)).Nodup) : ((put name value entries).map (·.1)).Nodup := by
  induction entries with
  | nil => exact List.nodup_singleton _
  | cons first rest ih =>
    obtain ⟨unused, others⟩ := List.nodup_cons.mp apart
    rw [put]
    split
    case isTrue => exact apart
    case isFalse differ =>
      refine List.nodup_cons.mpr ⟨fun again => ?_, ih others⟩
      obtain ⟨entry, member, same⟩ := List.mem_map.mp again
      rcases mem_put member with rfl | inside
      · exact differ same.symm
      · exact unused (List.mem_map.mpr ⟨entry, inside, same⟩)

def FunctionsStand (a : Arena) (functions : List (String × Function)) : Prop :=
  ProperFunctions functions ∧ ∀ name f, (name, f) ∈ functions → f.Within a

theorem functions_reads (typed : d.Typed) {done : List (String × Function)}
    (stand : FunctionsStand d.registry.types done) (entries : Entries) :
    Reads d FunctionsStand (d.functions done entries) := by
  induction entries generalizing d done with
  | nil => exact .pure typed stand
  | cons entry rest ih =>
    refine .bind_any fun body => (function_reads typed _ body).bind fun f m added typed made => ?_
    obtain ⟨named, within⟩ := made
    refine ih typed ⟨⟨put_apart stand.1.apart, fun name g member => ?_⟩, fun name g member => ?_⟩
    · rcases mem_put member with same | old
      · cases same
        exact named.symm
      · exact stand.1.named name g old
    · rcases mem_put member with same | old
      · cases same
        exact within
      · exact added.grows.function (stand.2 name g old)

/-- All that has been read of a description is sound, and nothing is known of its world yet. -/
structure Draft.Sound (d : Draft) : Prop where
  typed : d.Typed
  packages : d.registry.packages.toList.Nodup
  interfaces : ∀ i ∈ d.registry.interfaces, i.Sound d.registry
  apart : (d.interfaces.map (·.1)).Nodup
  numbered : d.interfaces.map (·.2) = List.range d.registry.interfaces.size
  described : ∀ name id, (name, id) ∈ d.interfaces →
    ∃ i, d.registry.interfaces[id]? = some i ∧ d.registry.Describes name i
  worlds : d.registry.worlds = #[]

theorem Draft.Sound.extend (sound : d.Sound) (added : d.Extends m) (typed : m.Typed) : m.Sound := by
  have grows := added.grows
  obtain ⟨le, rest⟩ := added
  refine ⟨typed, ?_, ?_, ?_, ?_, ?_, ?_⟩
  · rw [rest]
    exact sound.packages
  · intro i member
    refine grows.interface (sound.interfaces i ?_)
    rw [rest] at member
    exact member
  · rw [rest]
    exact sound.apart
  · rw [rest]
    exact sound.numbered
  · intro name id member
    have old : (name, id) ∈ d.interfaces := by
      rw [rest] at member
      exact member
    obtain ⟨i, found, described⟩ := sound.described name id old
    exact ⟨i, grows.interfaces id i found, grows.describes described⟩
  · rw [rest]
    exact sound.worlds

theorem package_spec (d : Draft) (p : Package) : ∃ packages : Array Package,
    (d.package p).2 = { d with registry := { d.registry with packages } } ∧
      packages[(d.package p).1]? = some p ∧
      (∀ (id : Nat) q, d.registry.packages[id]? = some q → packages[id]? = some q) ∧
      (d.registry.packages.toList.Nodup → packages.toList.Nodup) := by
  rw [Draft.package]
  split
  case h_1 id found =>
    obtain ⟨inside, same, -⟩ := Array.findIdx?_eq_some_iff_getElem.mp found
    exact ⟨d.registry.packages, rfl, Array.getElem?_eq_some_iff.mpr ⟨inside, by simpa using same⟩,
      fun _ _ known => known, fun apart => apart⟩
  case h_2 missing =>
    refine ⟨d.registry.packages.push p, rfl, by simp [Registry.addPackage], fun id q known => ?_, fun apart => ?_⟩
    · obtain ⟨inside, same⟩ := Array.getElem?_eq_some_iff.mp known
      rw [Array.getElem?_push_lt inside, same]
    · rw [Array.toList_push]
      refine List.nodup_append.mpr ⟨apart, List.nodup_singleton _, ?_⟩
      rintro q member other last rfl
      cases List.mem_singleton.mp last
      simpa using Array.findIdx?_eq_none_iff.mp missing _ (Array.mem_toList_iff.mp member)

/-- New packages leave everything else as it is. -/
theorem Draft.Sound.repackage (sound : d.Sound) {packages : Array Package}
    (kept : ∀ (id : Nat) p, d.registry.packages[id]? = some p → packages[id]? = some p)
    (apart : packages.toList.Nodup) : { d with registry := { d.registry with packages } }.Sound := by
  have grows : d.registry.Grows { d.registry with packages } := ⟨le_rfl, kept, fun _ _ found => found⟩
  refine ⟨⟨sound.typed.closed, sound.typed.known⟩, apart, fun i member =>
    grows.interface (sound.interfaces i member), sound.apart, sound.numbered, ?_, sound.worlds⟩
  intro name id member
  obtain ⟨i, found, described⟩ := sound.described name id member
  exact ⟨i, found, grows.describes described⟩

theorem Draft.Sound.enter (sound : d.Sound) {name : String} {i : Interface} (standing : i.Sound d.registry)
    (described : d.registry.Describes name i) (unused : d.interfaces.lookup name = none) :
    Draft.Sound { d with
      registry := (d.registry.addInterface i).2,
      interfaces := d.interfaces ++ [(name, (d.registry.addInterface i).1)] } := by
  have grows := Registry.Grows.addInterface d.registry i
  refine ⟨⟨sound.typed.closed, sound.typed.known⟩, sound.packages, fun j member => ?_, ?_, ?_, ?_, sound.worlds⟩
  · rcases Array.mem_push.mp member with old | rfl
    · exact grows.interface (sound.interfaces j old)
    · exact grows.interface standing
  · rw [List.map_append]
    refine List.nodup_append.mpr ⟨sound.apart, List.nodup_singleton _, ?_⟩
    rintro other member _ last rfl
    cases List.mem_singleton.mp last
    obtain ⟨entry, inside, same⟩ := List.mem_map.mp member
    exact absurd same.symm (by simpa using List.lookup_eq_none_iff.mp unused entry inside)
  · simp [sound.numbered, Registry.addInterface, List.range_succ]
  · intro other id member
    rcases List.mem_append.mp member with old | last
    · obtain ⟨j, found, known⟩ := sound.described other id old
      exact ⟨j, grows.interfaces id j found, grows.describes known⟩
    · cases List.mem_singleton.mp last
      exact ⟨i, by simp [Registry.addInterface], grows.describes described⟩

theorem proper_nil : ProperFunctions [] := ⟨List.nodup_nil, by simp⟩

theorem functions_enter (sound : d.Sound) {name : String} {entry : Interface} (named : entry.name.isSome)
    (packaged : ∀ id, entry.package = some id → id < d.registry.packages.size)
    (described : d.registry.Describes name entry) (unused : d.interfaces.lookup name = none)
    (body : Document) :
    Ensures (do
      let body ← entriesOf (some body)
      let functions ← entriesOf (Document.find? body "functions")
      let (functions, m) ← d.functions [] functions
      let (id, registry) := m.registry.addInterface { entry with functions }
      pure { m with registry, interfaces := m.interfaces ++ [(name, id)] } : Except Fault Draft)
      fun m => m.Sound ∧ d.registry.Grows m.registry ∧
        m.interfaces.map (·.1) = d.interfaces.map (·.1) ++ [name] := by
  refine .bind_any fun _ => .bind_any fun _ => Ensures.bind
    (functions_reads sound.typed ⟨proper_nil, by simp⟩ _) fun (functions, n) ⟨added, typed, proper, within⟩ => ?_
  have grows := added.grows
  have same : n.interfaces = d.interfaces := added.interfaces
  refine .pure ⟨(sound.extend added typed).enter ⟨proper, within, named, fun id found =>
    grows.packaged (packaged id found)⟩ (grows.describes described) (by rw [same]; exact unused),
    grows.trans (.addInterface n.registry _), ?_⟩
  simp only [same, List.map_append, List.map_cons, List.map_nil]

theorem interface_sound (sound : d.Sound) (name : String) (body : Document) :
    Ensures (d.interface name body) fun m => m.Sound ∧ d.registry.Grows m.registry ∧
      m.interfaces.map (·.1) = d.interfaces.map (·.1) ++ [name] := by
  rw [Draft.interface]
  split
  · exact .throw _
  case isFalse unused =>
    rw [Bool.not_eq_true, Option.isSome_eq_false_iff, Option.isNone_iff_eq_none] at unused
    dsimp only
    split
    case h_1 package short qualified =>
      obtain ⟨packages, same, found, kept, apart⟩ := package_spec d package
      rw [same]
      have grows : d.registry.Grows { d.registry with packages } := ⟨le_rfl, kept, fun _ _ found => found⟩
      refine (functions_enter (sound.repackage kept (apart sound.packages)) rfl ?_ ?_ unused body).mono
        fun m ⟨ends, more, names⟩ => ⟨ends, grows.trans more, names⟩
      · rintro id known
        cases known
        exact (Array.getElem?_eq_some_iff.mp found).1
      · rw [Registry.Describes, qualified]
        exact ⟨_, rfl, found, rfl⟩
    case h_2 plain =>
      refine functions_enter sound rfl (by simp) ?_ unused body
      rw [Registry.Describes, plain]
      exact ⟨rfl, rfl⟩

theorem interfaces_sound (sound : d.Sound) (entries : Entries) :
    Ensures (entries.foldlM (fun d (name, body) => d.interface name.display body) d) fun m =>
      m.Sound ∧ d.registry.Grows m.registry ∧
        m.interfaces.map (·.1) = d.interfaces.map (·.1) ++ entries.map (·.1.display) := by
  induction entries generalizing d with
  | nil => exact .pure ⟨sound, .refl _, (List.append_nil _).symm⟩
  | cons entry rest ih =>
    refine Ensures.bind (interface_sound sound _ _) fun m ⟨sound, grows, added⟩ => ?_
    refine (ih sound).mono fun n ⟨sound, further, more⟩ => ⟨sound, grows.trans further, ?_⟩
    rw [more, added, List.append_assoc]
    rfl

/-! ### Named types -/

theorem lookup_put (name other : String) (value : α) (entries : List (String × α)) :
    (put name value entries).lookup other = if other = name then some value else entries.lookup other := by
  induction entries with
  | nil =>
    rw [put, List.lookup_cons, beq_eq_decide]
    by_cases same : other = name <;> simp [same]
  | cons entry rest ih =>
    obtain ⟨key, old⟩ := entry
    rw [put]
    split
    case isTrue same =>
      subst same
      by_cases here : other = key <;> simp [List.lookup_cons, beq_eq_decide, here]
    case isFalse differ =>
      rw [List.lookup_cons, List.lookup_cons, ih, beq_eq_decide]
      by_cases here : other = key
      · simp [here, differ]
      · simp [here]

theorem Draft.Sound.declare (sound : d.Sound) (name : String) :
    (d.declare name).Sound ∧ d.registry.Grows (d.declare name).registry ∧
      (d.declare name).interfaces = d.interfaces := by
  have grows : d.registry.Grows (d.declare name).registry := by
    refine ⟨?_, fun _ _ found => found, fun _ _ found => found⟩
    simp [Draft.declare, Registry.addType]
  refine ⟨⟨⟨?_, ?_⟩, sound.packages, fun i member => grows.interface (sound.interfaces i member), sound.apart,
    sound.numbered, fun other id member => ?_, sound.worlds⟩, grows, rfl⟩
  · exact sound.typed.closed.push (List.forall_mem_nil _) _
  · intro other id known
    simp only [Draft.declare, Registry.addType, Array.size_push, lookup_put] at known ⊢
    split at known
    case isTrue =>
      cases known
      exact Nat.lt_succ_self _
    case isFalse => exact Nat.lt_succ_of_lt (sound.typed.known other id known)
  · obtain ⟨i, found, described⟩ := sound.described other id member
    exact ⟨i, found, grows.describes described⟩

theorem define_sound (sound : d.Sound) (name : String) (body : Document) :
    Ensures (d.define name body) fun m =>
      m.Sound ∧ d.registry.Grows m.registry ∧ m.interfaces = d.interfaces :=
  Ensures.bind (definition_reads sound.typed name _ body) fun (kind, m) ⟨added, typed, inside⟩ => by
    have le : m.registry.types.size ≤ (m.registry.types.setIfInBounds ((d.declared.lookup name).getD 0)
        ⟨kind, some name⟩).size := by simp
    have set : m.Extends { m with registry := { m.registry with
        types := m.registry.types.setIfInBounds ((d.declared.lookup name).getD 0) ⟨kind, some name⟩ } } := ⟨le, rfl⟩
    exact .pure ⟨(sound.extend added typed).extend set ⟨typed.closed.set inside _ _, typed.known.mono le⟩,
      (added.trans set).grows, added.interfaces⟩

theorem types_sound (sound : d.Sound) (types : Option Document) :
    Ensures (d.types types) fun m =>
      m.Sound ∧ d.registry.Grows m.registry ∧ m.interfaces = d.interfaces := by
  rw [Draft.types.eq_def]
  split
  case h_1 entries =>
    have declared : ∀ names : List String, (names.foldl Draft.declare d).Sound ∧
        d.registry.Grows (names.foldl Draft.declare d).registry ∧
        (names.foldl Draft.declare d).interfaces = d.interfaces := fun names => by
      induction names generalizing d with
      | nil => exact ⟨sound, .refl _, rfl⟩
      | cons name rest ih =>
        obtain ⟨after, grows, same⟩ := sound.declare name
        obtain ⟨ends, more, also⟩ := ih after
        exact ⟨ends, grows.trans more, also.trans same⟩
    exact .foldlM (fun m entry ⟨sound, grows, same⟩ => (define_sound sound _ entry.2).mono
      fun n ⟨ends, more, also⟩ => ⟨ends, grows.trans more, also.trans same⟩) (declared _)
  case h_5 => exact .pure ⟨sound, .refl _, rfl⟩
  all_goals
    split
    · exact .pure ⟨sound, .refl _, rfl⟩
    · exact .throw _

/-! ### The world -/

theorem mem_of_lookup {name : String} {value : α} {entries : List (String × α)}
    (found : entries.lookup name = some value) : (name, value) ∈ entries := by
  obtain ⟨before, after, rfl, -⟩ := List.lookup_eq_some_iff.mp found
  simp

theorem item_carries (sound : d.Sound) (part : String) (entry : Document) :
    Ensures (d.item part entry) fun (_, key, item, m) =>
      d.Extends m ∧ m.Typed ∧ m.registry.Carries (key, item) := by
  rw [Draft.item.eq_def]
  split
  case h_2 => exact .throw _
  case h_1 body =>
    split
    case h_1 name _ _ =>
      exact Ensures.bind (function_reads sound.typed _ body) fun (f, m) ⟨added, typed, named, within⟩ =>
        .pure ⟨added, typed, congrArg Key.name named.symm, within⟩
    case h_2 name _ =>
      split
      case h_1 => exact .throw _
      case h_2 id found =>
        obtain ⟨i, known, described⟩ := sound.described _ id (mem_of_lookup found)
        have held : Registry.at? d.registry.interfaces id = .ok i := by rw [Registry.at?, known]; rfl
        rw [held, ok_bind]
        refine .pure ⟨.refl d, sound.typed, i, known, ?_⟩
        rw [Registry.Describes] at described
        split at described
        · obtain ⟨package, packaged, -⟩ := described
          exact .inr (by simp [packaged])
        · exact .inl ⟨described.1, _, described.2, by simp [described.1]⟩
    case h_3 name _ =>
      split
      case h_1 => exact .throw _
      case h_2 id found =>
        exact .pure ⟨.refl d, sound.typed, ⟨_, rfl⟩, sound.typed.known _ _ found⟩
    case h_4 => exact .throw _

theorem items_proper (sound : d.Sound) (part : String) {done : List (Key × Item)}
    (proper : d.registry.ProperItems done) (entries : List Document) :
    Ensures (d.items part done entries) fun (items, m) =>
      d.Extends m ∧ m.Typed ∧ m.registry.ProperItems items := by
  induction entries generalizing d done with
  | nil => exact .pure ⟨.refl d, sound.typed, proper⟩
  | cons entry rest ih =>
    refine Ensures.bind (item_carries sound part entry) fun (name, key, item, m) ⟨added, typed, carried⟩ => ?_
    dsimp only
    split
    · exact .throw _
    case isFalse unused =>
      rw [Bool.not_eq_true, Option.isSome_eq_false_iff, Option.isNone_iff_eq_none] at unused
      have grown := added.grows.items proper
      have next : m.registry.ProperItems (done ++ [(key, item)]) := by
        refine ⟨?_, List.forall_mem_append.mpr ⟨grown.carried, List.forall_mem_singleton.mpr carried⟩⟩
        rw [List.map_append]
        refine List.nodup_append.mpr ⟨proper.apart, List.nodup_singleton _, ?_⟩
        rintro other member _ last rfl
        cases List.mem_singleton.mp last
        obtain ⟨entry, inside, same⟩ := List.mem_map.mp member
        exact absurd same.symm (by simpa using List.lookup_eq_none_iff.mp unused entry inside)
      exact (ih (sound.extend added typed) next).mono fun _ ⟨more, rest⟩ => ⟨added.trans more, rest⟩

theorem worldPackage_sound (sound : d.Sound) (package : Option Document) :
    Ensures (d.worldPackage package) fun (package, m) => m.Sound ∧ m.interfaces = d.interfaces ∧
      ∀ id, package = some id → id < m.registry.packages.size := by
  rw [Draft.worldPackage.eq_def]
  split
  · exact .pure ⟨sound, rfl, by simp⟩
  · split
    · exact .throw _
    case h_2 p _ =>
      obtain ⟨packages, same, found, kept, apart⟩ := package_spec d p
      change Ensures (Pure.pure (some (d.package p).1, (d.package p).2)) _
      rw [same]
      refine .pure ⟨sound.repackage kept (apart sound.packages), rfl, fun id known => ?_⟩
      cases known
      exact (Array.getElem?_eq_some_iff.mp found).1

theorem empty_sound : ({} : Draft).Sound where
  typed := ⟨.empty, fun _ _ never => by cases never⟩
  packages := List.nodup_nil
  interfaces _ member := by cases Array.not_mem_empty _ member
  apart := List.nodup_nil
  numbered := rfl
  described _ _ member := by cases member
  worlds := rfl

/-- The names that a description declares interfaces under. -/
def interfaceNames (description : Entries) : List String :=
  match Document.find? description "interfaces" with
  | some (.mapping entries) => entries.map (·.1.display)
  | _ => []

theorem interfaceNames_eq {description entries : Entries}
    (found : entriesOf (Document.find? description "interfaces") = .ok entries) :
    interfaceNames description = entries.map (·.1.display) := by
  rw [interfaceNames]
  cases given : Document.find? description "interfaces" with
  | none =>
    rw [given] at found
    cases found
    rfl
  | some document =>
    rw [given] at found
    cases document with
    | mapping entries =>
      cases found
      rfl
    | scalar _ | list _ =>
      rw [entriesOf] at found
      · split at found
        · cases found
          rfl
        · cases found
      · simp

theorem Draft.Sound.parsed (sound : d.Sound) {w : World}
    (package : ∀ id, w.package = some id → id < d.registry.packages.size)
    (imports : d.registry.ProperItems w.imports) (exports : d.registry.ProperItems w.exports) :
    (d.registry.addWorld w).2.Parsed (d.interfaces.map (·.1)) w := by
  have grows : d.registry.Grows (d.registry.addWorld w).2 := ⟨le_rfl, fun _ _ found => found, fun _ _ found => found⟩
  have length : d.interfaces.length = d.registry.interfaces.size := by
    have counted := congrArg List.length sound.numbered
    rwa [List.length_map, List.length_range] at counted
  refine ⟨sound.typed.closed, sound.packages, fun i member => grows.interface (sound.interfaces i member),
    sound.apart, by rw [List.length_map, length]; rfl, fun id i name found named => ?_, ?_, package,
    grows.items imports, grows.items exports⟩
  · rw [List.getElem?_map, Option.map_eq_some_iff] at named
    obtain ⟨⟨other, number⟩, entered, rfl⟩ := named
    obtain ⟨j, held, described⟩ := sound.described other number (List.mem_of_getElem? entered)
    have inside : id < d.registry.interfaces.size := (Array.getElem?_eq_some_iff.mp found).1
    have ranged : some number = some id := by
      rw [← List.getElem?_range inside, ← sound.numbered, List.getElem?_map, entered]
      rfl
    cases ranged
    cases found.symm.trans held
    exact grows.describes described
  · simp [Registry.addWorld, sound.worlds]

/-- A registry made of a description has all that its parts refer to. -/
theorem parse_parsed {description : Entries} {r : Registry} {id : Nat}
    (parsed : parse description = .ok (r, id)) :
    id = 0 ∧ ∃ w, r.Parsed (interfaceNames description) w := by
  rw [parse.eq_def] at parsed
  split at parsed
  case h_1 => cases parsed
  case h_2 name _ =>
    obtain ⟨⟨package, d₁⟩, packaged, parsed⟩ := bind_eq_ok.mp parsed
    obtain ⟨sound₁, names₁, inside⟩ := worldPackage_sound empty_sound _ _ packaged
    obtain ⟨d₂, typed, parsed⟩ := bind_eq_ok.mp parsed
    obtain ⟨sound₂, grows₂, names₂⟩ := types_sound sound₁ _ _ typed
    obtain ⟨entries, given, parsed⟩ := bind_eq_ok.mp parsed
    obtain ⟨d₃, entered, parsed⟩ := bind_eq_ok.mp parsed
    obtain ⟨sound₃, grows₃, names₃⟩ := interfaces_sound sound₂ entries _ entered
    obtain ⟨_, _, parsed⟩ := bind_eq_ok.mp parsed
    obtain ⟨⟨imports, d₄⟩, incoming, parsed⟩ := bind_eq_ok.mp parsed
    obtain ⟨added, types₄, proper⟩ := items_proper sound₃ _ (.nil _) _ _ incoming
    obtain ⟨_, _, parsed⟩ := bind_eq_ok.mp parsed
    obtain ⟨⟨exports, d₅⟩, outgoing, parsed⟩ := bind_eq_ok.mp parsed
    have sound₄ := sound₃.extend added types₄
    obtain ⟨more, types₅, also⟩ := items_proper sound₄ _ (.nil _) _ _ outgoing
    have sound₅ := sound₄.extend more types₅
    cases parsed
    have names : d₅.interfaces.map (·.1) = interfaceNames description := by
      rw [more.interfaces, added.interfaces, names₃, names₂, names₁, interfaceNames_eq given]
      rfl
    have grows := ((grows₂.trans grows₃).trans added.grows).trans more.grows
    exact ⟨congrArg Array.size sound₅.worlds, _, names ▸ sound₅.parsed
      (fun id known => grows.packaged (inside id known)) (more.grows.items proper) also⟩

end World

end ZigBindings
