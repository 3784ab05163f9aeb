import ZigBindings.Proofs.World.Definitions

/-! Interfaces may be declared in any order. The functions of an interface are read alike wherever it
stands, so in the end the same interfaces are known under the same names. -/

namespace ZigBindings

namespace World
open Document TypeExpr

variable {R₀ R S : Nat → Nat → Prop} {d e m t u v : Draft} {name : String}

/-! ### One interface -/

structure Entered (name : String) (functions : List (String × Function)) (d m : Draft) : Prop where
  declared : m.declared = d.declared
  types : d.registry.types.Appends m.registry.types
  interfaces : m.interfaces = d.interfaces ++ [(name, d.registry.interfaces.size)]
  entered : ∃ i : Interface, i.functions = functions ∧ m.registry.interfaces = d.registry.interfaces.push i

theorem Entered.of_extends {packages : Array Package}
    (added : Draft.Extends { d with registry := { d.registry with packages } } m)
    (types : d.registry.types.Appends m.registry.types) (entry : Interface) (functions : List (String × Function)) :
    Entered name functions d { m with
      registry := (m.registry.addInterface { entry with functions }).2,
      interfaces := m.interfaces ++ [(name, m.registry.interfaces.size)] } where
  declared := added.declared
  types := types
  interfaces := by rw [added.interfaces, added.entered]
  entered := ⟨{ entry with functions }, rfl, by rw [Registry.addInterface, added.entered]⟩

theorem interface_eq (unused : d.interfaces.lookup name = none) (body : Document) :
    ∃ (entry : Interface) (packages : Array Package), d.interface name body = (do
      let body ← entriesOf (some body)
      let functions ← entriesOf (Document.find? body "functions")
      let (functions, m) ← Draft.functions { d with registry := { d.registry with packages } } [] functions
      let (id, registry) := m.registry.addInterface { entry with functions }
      pure { m with registry, interfaces := m.interfaces ++ [(name, id)] }) := by
  rw [Draft.interface, unused, if_neg (by simp)]
  dsimp only
  split
  case h_1 package short _ =>
    obtain ⟨packages, same, -⟩ := package_spec d package
    rw [same]
    exact ⟨_, packages, rfl⟩
  case h_2 => exact ⟨_, d.registry.packages, rfl⟩

theorem interface_unused {body : Document} (done : d.interface name body = .ok m) :
    d.interfaces.lookup name = none := by
  rw [Draft.interface] at done
  split at done
  case isTrue => cases done
  case isFalse unused => rwa [Bool.not_eq_true, Option.isSome_eq_false_iff, Option.isNone_iff_eq_none] at unused

theorem interface_alike (beside : Beside R₀ R d e) (unused : d.interfaces.lookup name = none)
    (free : e.interfaces.lookup name = none) (body : Document) :
    Agree (fun m n => ∃ f g S, Growth R₀ R d.registry.types e.registry.types S m.registry.types n.registry.types ∧
        FunctionsAlike S f g ∧ Entered name f d m ∧ Entered name g e n)
      (d.interface name body) (e.interface name body) := by
  obtain ⟨entry, packages, first⟩ := interface_eq unused body
  obtain ⟨other, also, second⟩ := interface_eq free body
  rw [first, second]
  have start : Beside R₀ R { d with registry := { d.registry with packages } }
      { e with registry := { e.registry with packages := also } } := ⟨beside.tables, beside.covers⟩
  refine Agree.rfl.bind_eq fun _ => Agree.rfl.bind_eq fun functions => ?_
  refine (functions_alike start .nil functions).bind fun (f, m) (g, n) ⟨left, right, S, step, alike⟩ => .pure ?_
  exact ⟨f, g, S, step, alike, .of_extends left step.left entry f, .of_extends right step.right other g⟩

theorem interface_entered {body : Document} (done : d.interface name body = .ok m) : ∃ f, Entered name f d m := by
  have unused := interface_unused done
  obtain ⟨_, -, f, -, -, -, -, entered, -⟩ := (interface_alike (.of_tables (.refl _)) unused unused body).of_ok done
  exact ⟨f, entered⟩

/-! ### All interfaces -/

abbrev Draft.openNext (d : Draft) (entry : Scalar × Document) : Except Fault Draft :=
  d.interface entry.1.display entry.2

/-- Interfaces have come in at the end, if at all, and no type is declared or changed. -/
structure Draft.Opens (d m : Draft) : Prop where
  declared : m.declared = d.declared
  types : d.registry.types.Appends m.registry.types
  listed : d.interfaces <+: m.interfaces
  kept : ∀ (id : Nat) i, d.registry.interfaces[id]? = some i → m.registry.interfaces[id]? = some i

theorem Draft.Opens.refl (d : Draft) : d.Opens d := ⟨rfl, .refl _, List.prefix_rfl, fun _ _ found => found⟩

theorem Draft.Opens.trans (first : d.Opens m) (second : m.Opens t) : d.Opens t where
  declared := second.declared.trans first.declared
  types := first.types.trans second.types
  listed := first.listed.trans second.listed
  kept id i found := second.kept id i (first.kept id i found)

theorem Entered.opens {functions : List (String × Function)} (entered : Entered name functions d m) : d.Opens m where
  declared := entered.declared
  types := entered.types
  listed := ⟨_, entered.interfaces.symm⟩
  kept id i found := by
    obtain ⟨j, -, pushed⟩ := entered.entered
    obtain ⟨inside, same⟩ := Array.getElem?_eq_some_iff.mp found
    rw [pushed, Array.getElem?_push_lt inside, same]

theorem interfaces_open (entries : Entries) : Ensures (entries.foldlM Draft.openNext d) d.Opens :=
  .foldlM (fun _ _ opens _ done => (interface_entered done).elim fun _ entered => opens.trans entered.opens) (.refl d)

structure Opened (d : Draft) (before : Entries) (u : Draft) : Prop where
  opens : d.Opens u
  sound : u.Sound
  names : u.interfaces.map (·.1) = before.map (·.1.display)

theorem lookup_eq_none_of_names {names : List String} {entries : List (String × Nat)}
    (listed : entries.map (·.1) = names) (unlisted : name ∉ names) : entries.lookup name = none :=
  List.lookup_eq_none_iff.mpr fun _ member => bne_iff_ne.mpr fun same =>
    unlisted (listed ▸ same ▸ List.mem_map_of_mem member)

section
variable {entries before after : Entries} {entry : Scalar × Document}

theorem Opened.start (sound : d.Sound) (none : d.interfaces = []) : Opened d [] d :=
  ⟨.refl d, sound, by rw [none]; rfl⟩

theorem Opened.step (opened : Opened d before u) (done : u.openNext entry = .ok v) :
    Opened d (before ++ [entry]) v := by
  obtain ⟨f, entered⟩ := interface_entered done
  obtain ⟨sound, -, names⟩ := interface_sound opened.sound _ _ _ done
  refine ⟨opened.opens.trans entered.opens, sound, ?_⟩
  rw [names, opened.names, List.map_append]
  rfl

theorem Opened.keeps : ∀ before entry after, entries = before ++ entry :: after → ∀ u v, Opened d before u →
    u.openNext entry = .ok v → Opened d (before ++ [entry]) v :=
  fun _ _ _ _ _ _ opened => opened.step

theorem Opened.unused (opened : Opened d before u) (apart : (entries.map (·.1.display)).Nodup)
    (split : entries = before ++ entry :: after) : u.interfaces.lookup entry.1.display = none := by
  rw [split, List.map_append, List.map_cons, List.nodup_append] at apart
  exact lookup_eq_none_of_names opened.names fun listed => apart.2.2 _ listed _ List.mem_cons_self rfl

theorem Opened.event (start : Opened d [] d) (done : entries.foldlM Draft.openNext d = .ok t)
    (member : entry ∈ entries) : ∃ u v, d.Opens u ∧ u.interfaces.lookup entry.1.display = none ∧
      u.openNext entry = .ok v ∧ v.Opens t := by
  obtain ⟨before, after, u, v, -, opened, made, ends⟩ := foldlM_event Opened.keeps start done entry member
  exact ⟨u, v, opened.opens, interface_unused made, made, interfaces_open after _ ends⟩

theorem Entered.found {functions : List (String × Function)} (entered : Entered name functions u v)
    (unused : u.interfaces.lookup name = none) (opens : v.Opens t) :
    ∃ id i, t.interfaces.lookup name = some id ∧ t.registry.interfaces[id]? = some i ∧ i.functions = functions := by
  obtain ⟨i, rfl, pushed⟩ := entered.entered
  obtain ⟨rest, listed⟩ := opens.listed
  refine ⟨u.registry.interfaces.size, i, ?_, opens.kept _ _ ?_, rfl⟩
  · rw [← listed, entered.interfaces, List.lookup_append, List.lookup_append, unused]
    simp
  · rw [pushed, Array.getElem?_push_size]

end

/-! ### Interfaces of two descriptions -/

structure InterfaceAlike (R : Nat → Nat → Prop) (r s : Registry) (i j : Interface) : Prop where
  name : i.name = j.name
  package : Option.Rel (fun p q => ∃ package, r.packages[p]? = some package ∧ s.packages[q]? = some package)
    i.package j.package
  functions : FunctionsAlike R i.functions j.functions

/-- Interfaces of one name differ in their functions at most. -/
theorem InterfaceAlike.of_described {r s : Registry} {i j : Interface} (first : r.Describes name i)
    (second : s.Describes name j) (functions : FunctionsAlike R i.functions j.functions) :
    InterfaceAlike R r s i j := by
  rw [Registry.Describes] at first second
  cases read : qualified? name with
  | none =>
    rw [read] at first second
    refine ⟨first.2.trans second.2.symm, ?_, functions⟩
    rw [first.1, second.1]
    exact .none
  | some qualified =>
    rw [read] at first second
    obtain ⟨p, packaged, found, named⟩ := first
    obtain ⟨q, also, there, same⟩ := second
    refine ⟨named.trans same.symm, ?_, functions⟩
    rw [packaged, also]
    exact .some ⟨_, found, there⟩

def Counterparts (R : Nat → Nat → Prop) (r s : Registry) (p q : Nat) : Prop :=
  ∃ i j, r.interfaces[p]? = some i ∧ s.interfaces[q]? = some j ∧ InterfaceAlike R r s i j

theorem Draft.Sound.described_of_lookup (sound : d.Sound) {id : Nat} {i : Interface}
    (known : d.interfaces.lookup name = some id) (found : d.registry.interfaces[id]? = some i) :
    d.registry.Describes name i := by
  obtain ⟨j, there, described⟩ := sound.described name id (mem_of_lookup known)
  cases found.symm.trans there
  exact described

section
variable {entries shuffled : Entries} {k : Draft} (left : Opened d [] d) (right : Opened e [] e)
  (tables : Tables R d.declared e.declared) (perm : entries.Perm shuffled)
include left right tables perm

theorem Opened.shuffled_ok (apart : (entries.map (·.1.display)).Nodup)
    (done : entries.foldlM Draft.openNext d = .ok t) : ∃ k, shuffled.foldlM Draft.openNext e = .ok k := by
  refine @foldlM_ok _ _ _ (Opened e) _ _ (fun before entry after split u opened => ?_) right
  have member : entry ∈ shuffled := by simp [split]
  obtain ⟨v, w, opens, unused, made, -⟩ := left.event done (perm.mem_iff.mpr member)
  have free := opened.unused ((perm.map _).nodup_iff.mp apart) split
  have beside : Beside R R v u := .of_tables (opens.declared ▸ opened.opens.declared ▸ tables)
  obtain ⟨n, again, -⟩ := (interface_alike beside unused free entry.2).of_ok made
  exact ⟨n, again, opened.step again⟩

variable (done : entries.foldlM Draft.openNext d = .ok t) (shuffles : shuffled.foldlM Draft.openNext e = .ok k)
include done shuffles

theorem Opened.shuffled_size (size : d.registry.types.size = e.registry.types.size) :
    t.registry.types.size = k.registry.types.size := by
  have none : d.interfaces = [] := List.map_eq_nil_iff.mp left.names
  have grows {S : Nat → Nat → Prop} {u v : Draft} (alike : Tables S d.declared u.declared) {entry : Scalar × Document}
      (made : u.openNext entry = .ok v) :
      v.registry.types.size = u.registry.types.size + growth Draft.openNext d entry := by
    have unused : d.interfaces.lookup entry.1.display = Option.none := by rw [none]; rfl
    refine World.growth_eq ((interface_alike (.of_tables alike) unused (interface_unused made) entry.2).mono ?_) made
    rintro m n ⟨_, _, _, step, -⟩
    exact ⟨step.left.size, step.level⟩
  have first := foldlM_grows Opened.keeps left done (fun d : Draft => d.registry.types.size)
    (growth Draft.openNext d) fun _ _ _ _ _ _ opened made => @grows Eq _ _ (opened.opens.declared ▸ .refl _) _ made
  have second := foldlM_grows Opened.keeps right shuffles (fun d : Draft => d.registry.types.size)
    (growth Draft.openNext d) fun _ _ _ _ _ _ opened made => @grows R _ _ (opened.opens.declared ▸ tables) _ made
  rw [first, second, size, (perm.map (growth Draft.openNext d)).sum_eq]

theorem Opened.shuffled_found {entry : Scalar × Document} (member : entry ∈ entries) :
    ∃ p q i j, t.interfaces.lookup entry.1.display = some p ∧ k.interfaces.lookup entry.1.display = some q ∧
      t.registry.interfaces[p]? = some i ∧ k.registry.interfaces[q]? = some j ∧
        FunctionsAlike (Covered R t.registry.types k.registry.types) i.functions j.functions := by
  obtain ⟨u, v, opens, unused, made, ends⟩ := left.event done member
  obtain ⟨w, x, begins, free, also, closes⟩ := right.event shuffles (perm.mem_iff.mp member)
  have beside : Beside R R u w := .of_tables (opens.declared ▸ begins.declared ▸ tables)
  obtain ⟨_, again, f, g, S, step, alike, first, second⟩ := (interface_alike beside unused free entry.2).of_ok made
  cases again.symm.trans also
  obtain ⟨p, i, known, found, rfl⟩ := first.found unused ends
  obtain ⟨q, j, there, beyond, rfl⟩ := second.found free closes
  refine ⟨p, q, i, j, known, there, found, beyond, alike.mono fun a b same => ⟨S, ?_, same⟩⟩
  exact step.covers.appends ends.types closes.types

end

theorem interfaces_shuffled (sound : d.Sound) (also : e.Sound) (none : d.interfaces = []) (neither : e.interfaces = [])
    (reflects : Reflects R d e) {entries shuffled : Entries} (perm : entries.Perm shuffled)
    (apart : (entries.map (·.1.display)).Nodup) (done : entries.foldlM Draft.openNext d = .ok t) :
    ∃ k S, shuffled.foldlM Draft.openNext e = .ok k ∧ Reflects S t k ∧
      Tables (Counterparts S t.registry k.registry) t.interfaces k.interfaces := by
  have left := Opened.start sound none
  have right := Opened.start also neither
  obtain ⟨k, shuffles⟩ := left.shuffled_ok right reflects.tables perm apart done
  have opens := interfaces_open entries t done
  have closes := interfaces_open shuffled k shuffles
  obtain ⟨sound, -, names⟩ := interfaces_sound sound entries t done
  obtain ⟨beyond, -, shown⟩ := interfaces_sound also shuffled k shuffles
  rw [none] at names
  rw [neither] at shown
  refine ⟨k, Covered R _ _, shuffles, ⟨?_, reflects.mirrors.covered opens.types closes.types,
    left.shuffled_size right reflects.tables perm done shuffles reflects.size⟩, fun name => ?_⟩
  · rw [opens.declared, closes.declared]
    exact reflects.tables.mono fun _ _ => covered_of_base
  · by_cases listed : name ∈ entries.map (·.1.display)
    · obtain ⟨entry, member, rfl⟩ := List.mem_map.mp listed
      obtain ⟨p, q, i, j, known, there, found, stands, functions⟩ :=
        left.shuffled_found right reflects.tables perm done shuffles member
      rw [known, there]
      exact .some ⟨i, j, found, stands, .of_described (sound.described_of_lookup known found)
        (beyond.described_of_lookup there stands) functions⟩
    · rw [lookup_eq_none_of_names names listed,
        lookup_eq_none_of_names shown fun member => listed ((perm.map _).mem_iff.mpr member)]
      exact .none

end World

end ZigBindings
