import ZigBindings.Proofs.Generate.Order
import ZigBindings.Proofs.World.Items

/-! The order in which types and interfaces are declared makes no difference to the module: it changes
the numbers of types, packages and interfaces, and none of them can be told from the module. -/

namespace ZigBindings

namespace World

variable {N R : Nat → Nat → Prop} {r s : Registry} {w v : World}

/-! ### Keys and interfaces -/

section
variable (interfaces : ∀ p q, N p q → Counterparts R r s p q)
include interfaces

theorem packaged_alike {p q : Nat} (same : N p q) : Agree Eq (r.packaged p) (s.packaged q) := by
  obtain ⟨i, j, found, there, name, package, -⟩ := interfaces p q same
  simp only [Registry.packaged, Registry.at?, found, there, pure_eq_ok, ok_bind, name]
  generalize i.package = own, j.package = other at package
  cases package with
  | none => exact .throw _ _
  | some held =>
    obtain ⟨package, here, beside⟩ := held
    cases j.name with
    | none => exact .throw _ _
    | some short =>
      simp only [here, beside]
      exact .rfl

theorem scopePath_alike {key other : Key} (alike : key.Alike N other) :
    Agree Eq (r.scopePath key) (s.scopePath other) := by
  cases alike with
  | name => exact .rfl
  | interface same => exact (packaged_alike interfaces same).bind_eq fun _ => .rfl

theorem linkName_alike {key other : Key} (alike : key.Alike N other) :
    Agree Eq (r.linkName key) (s.linkName other) := by
  cases alike with
  | name => exact .rfl
  | interface same => exact (packaged_alike interfaces same).bind_eq fun _ => .rfl

end

end World

namespace Generate
open World

variable {N R : Nat → Nat → Prop} {r s : Registry} {w v : World} {id : Nat} {o : Options}

/-- The same step, up to the numbers of types. Those that are only reported do not count. -/
inductive Task.Alike (R : Nat → Nat → Prop) : Task → Task → Prop where
  | wrap (direction : Direction) (place : Wrapper.Place) {f g : Function} : f.Alike R g →
    Alike R (.wrap direction place f) (.wrap direction place g)
  | skipType (direction other : Direction) (name also : Option String) :
    Alike R (.skipType direction name) (.skipType other also)

theorem filed_alike {todo others : List Task} (alike : List.Forall₂ (Task.Alike R) todo others) (direction : Direction)
    (path : List String) :
    List.Forall₂ (Wrapped.Alike R) (filed direction path todo) (filed direction path others) := by
  induction alike with
  | nil => exact .nil
  | cons first _ ih =>
    cases first with
    | skipType => exact ih
    | wrap way place alike =>
      rw [filed, filed, List.filterMap_cons, List.filterMap_cons, Task.filed?, Task.filed?]
      by_cases here : way = direction ∧ path = place.path
      · rw [if_pos here, if_pos here]
        exact .cons ⟨rfl, alike⟩ ih
      · rw [if_neg here, if_neg here]
        exact ih

theorem identifiers_eq {functions others : List (String × Function)} (alike : FunctionsAlike R functions others) :
    (functions.map fun f => Name.identifier f.2.name) = others.map fun f => Name.identifier f.2.name := by
  induction alike with
  | nil => rfl
  | cons first _ ih => rw [List.map_cons, List.map_cons, ih, first.2.name]

section
variable (replica : Replica N R r s w v)
include replica

theorem itemTasks_alike (direction : Direction) {entry other : Key × Item} (alike : EntryAlike N R entry other) :
    Agree (List.Forall₂ (Task.Alike R)) (itemTasks r direction entry) (itemTasks s direction other) := by
  obtain ⟨key, item⟩ := entry
  obtain ⟨also, thing⟩ := other
  obtain ⟨keys, items⟩ := alike
  cases items with
  | function same => exact .pure (.cons (.wrap direction {} same) .nil)
  | @interface p q same =>
    refine (scopePath_alike replica.interfaces keys).bind_eq fun path => ?_
    refine (linkName_alike replica.interfaces keys).bind_eq fun linkName => ?_
    obtain ⟨i, j, found, there, -, -, functions⟩ := replica.interfaces p q same
    simp only [Registry.at?, found, there, pure_eq_ok, ok_bind]
    refine .ok (List.forall₂_map_left_iff.mpr (List.forall₂_map_right_iff.mpr ?_))
    exact functions.imp fun _ _ same => .wrap direction ⟨path, linkName⟩ same.2
  | @type i j same =>
    obtain ⟨d, e, found, there, -⟩ := replica.mirrors i j same
    simp only [itemTasks, Arena.typedef, found, there, pure_eq_ok, ok_bind]
    exact .ok (.cons (.skipType _ _ _ _) .nil)

theorem tasks_alike : Agree (List.Forall₂ (Task.Alike R)) (tasks r w) (tasks s v) := by
  refine (Agree.mapM replica.imports fun _ _ => itemTasks_alike replica .outward).bind fun _ _ imports => ?_
  refine (Agree.mapM replica.exports fun _ _ => itemTasks_alike replica .inward).bind fun _ _ exports => ?_
  exact .pure (List.rel_append (List.rel_flatten imports) (List.rel_flatten exports))

theorem reservedBy_alike {entry other : Key × Item} (alike : EntryAlike N R entry other) :
    Agree Eq (reservedBy r entry) (reservedBy s other) := by
  obtain ⟨key, item⟩ := entry
  obtain ⟨also, thing⟩ := other
  obtain ⟨keys, items⟩ := alike
  cases items with
  | function same =>
    refine .pure ?_
    rw [same.name]
  | @interface p q same =>
    refine (scopePath_alike replica.interfaces keys).bind_eq fun path => ?_
    obtain ⟨i, j, found, there, -, -, functions⟩ := replica.interfaces p q same
    simp only [Registry.at?, found, there, pure_eq_ok, ok_bind]
    rw [identifiers_eq functions]
    exact .rfl
  | type => exact .rfl

theorem reserved_alike : Agree Eq (reserved r w o) (reserved s v o) := by
  refine Agree.rfl.bind_eq fun exportsType => Agree.rfl.bind_eq fun implParam => ?_
  refine Agree.bind_eq ?_ fun names => .rfl
  exact Agree.mapM_eq (List.rel_append replica.imports replica.exports) fun _ _ => reservedBy_alike replica

theorem files_replica {id' : Nat} (found : Registry.at? r.worlds id = .ok w) (also : Registry.at? s.worlds id' = .ok v)
    {outputs : List Output} (done : (files r id o).2 = .ok outputs) : (files s id' o).2 = .ok outputs := by
  obtain ⟨g, rfl⟩ := files_eq_ok done
  have same : w = g.world := Except.ok.inj (found.symm.trans g.found)
  subst same
  obtain ⟨names, reserves, rfl⟩ := (reserved_alike replica).of_ok g.reserves
  obtain ⟨todo, works, alike⟩ := (tasks_alike replica).of_ok g.works
  have mirrored : g.Mirrored R s id' v g.names todo :=
    ⟨replica.mirrors.twins replica.size, also, replica.name.symm, reserves, .refl _, works, filed_alike alike⟩
  exact mirrored.files_eq

end

/-- The files that a description comes to. -/
def filesOf (description : Entries) (o : Options) : Except Fault (List Output) := do
  let (r, id) ← World.parse description
  (files r id o).2

theorem filesOf_reordered {description other : Entries} (reordered : Reordered description other)
    {outputs : List Output} (done : filesOf description o = .ok outputs) : filesOf other o = .ok outputs := by
  obtain ⟨⟨r, id⟩, parsed, made⟩ := bind_eq_ok.mp done
  obtain ⟨s, id', N, R, w, v, again, found, also, replica⟩ := parse_reordered reordered parsed
  exact bind_eq_ok.mpr ⟨_, again, files_replica replica found also made⟩

/-- Types and interfaces may be declared in any order. The same files are made in both, or none in either. -/
theorem files_declared {description other : Entries} (reordered : Reordered description other) (o : Options) :
    (∀ outputs, filesOf description o = .ok outputs ↔ filesOf other o = .ok outputs) ∧
      ((∃ fault, filesOf description o = .error fault) ↔ ∃ fault, filesOf other o = .error fault) := by
  have same : ∀ outputs, filesOf description o = .ok outputs ↔ filesOf other o = .ok outputs := fun outputs =>
    ⟨filesOf_reordered reordered, filesOf_reordered reordered.symm⟩
  refine ⟨same, ?_⟩
  cases first : filesOf description o with
  | ok outputs => simp [(same outputs).mp first]
  | error fault =>
    cases second : filesOf other o with
    | ok outputs => simp [(same outputs).mpr second] at first
    | error => simp

def dimmer (types interfaces : Entries) : Entries :=
  [(.text "world", .text "dimmer"), (.text "types", .mapping types), (.text "interfaces", .mapping interfaces),
    (.text "imports", .list [.mapping [(.text "interface", .text "home:light/switch@1.0.0")],
      .mapping [(.text "interface", .text "clock")]])]

def levels : Entries :=
  [(.text "level", .text "tuple<u8>"), (.text "range", .text "tuple<level, level>")]

def switches : Entries :=
  [(.text "home:light/switch@1.0.0", .mapping [(.text "functions", .mapping [(.text "dim", .mapping
      [(.text "params", .mapping [(.text "within", .text "range")])])])]),
    (.text "clock", .mapping [(.text "functions", .mapping [(.text "now", .mapping [(.text "result", .text "u64")])])])]

/-- Both orders come to files, though the types stand in the arenas in different places. -/
theorem dimmer_declared : Reordered (dimmer levels switches) (dimmer levels.reverse switches.reverse) ∧
    (World.parse (dimmer levels switches)).map (·.1.types) ≠
      (World.parse (dimmer levels.reverse switches.reverse)).map (·.1.types) ∧
    (filesOf (dimmer levels switches) {}).isOk ∧
    (∀ outputs, filesOf (dimmer levels switches) {} = .ok outputs ↔
      filesOf (dimmer levels.reverse switches.reverse) {} = .ok outputs) ∧
    ((∃ fault, filesOf (dimmer levels switches) {} = .error fault) ↔
      ∃ fault, filesOf (dimmer levels.reverse switches.reverse) {} = .error fault) := by
  have reordered : Reordered (dimmer levels switches) (dimmer levels.reverse switches.reverse) := by
    refine ⟨.mapping (List.reverse_perm _).symm (by simp [levels]) (by decide),
      .mapping (List.reverse_perm _).symm (by simp [switches]) (by decide), fun key noTypes noInterfaces => ?_⟩
    simp [Document.find?, dimmer, List.find?_cons, noTypes.symm, noInterfaces.symm]
  exact ⟨reordered, by decide +kernel, by decide +kernel, files_declared reordered {}⟩

end Generate

end ZigBindings
