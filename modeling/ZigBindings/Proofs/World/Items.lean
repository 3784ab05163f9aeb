import ZigBindings.Proofs.World.Interfaces

/-! Imports and exports refer to types and interfaces by name. The order in which these were declared
changes their numbers, so a description comes to the same world up to numbers. -/

namespace ZigBindings

variable {R₀ R S N : Nat → Nat → Prop}

/-- The same key, up to the numbers of interfaces. -/
inductive Key.Alike (N : Nat → Nat → Prop) : Key → Key → Prop where
  | name (name : String) : Alike N (.name name) (.name name)
  | interface {p q : Nat} : N p q → Alike N (.interface p) (.interface q)

/-- The same item, up to the numbers of interfaces and types. -/
inductive Item.Alike (N R : Nat → Nat → Prop) : Item → Item → Prop where
  | function {f g : Function} : f.Alike R g → Alike N R (.function f) (.function g)
  | interface {p q : Nat} : N p q → Alike N R (.interface p) (.interface q)
  | type {i j : Nat} : R i j → Alike N R (.type i) (.type j)

structure EntryAlike (N R : Nat → Nat → Prop) (entry other : Key × Item) : Prop where
  key : entry.1.Alike N other.1
  item : entry.2.Alike N R other.2

theorem EntryAlike.mono (wider : ∀ i j, R i j → S i j) {entry other : Key × Item} (alike : EntryAlike N R entry other) :
    EntryAlike N S entry other := by
  obtain ⟨key, item⟩ := entry
  obtain ⟨other, thing⟩ := other
  obtain ⟨keys, items⟩ := alike
  refine ⟨keys, ?_⟩
  cases items with
  | function same => exact .function (same.mono wider)
  | interface same => exact .interface same
  | type same => exact .type (wider _ _ same)

/-- Related numbers have no other relations. -/
def Matches (N : Nat → Nat → Prop) : Prop :=
  ∀ p q p' q', N p q → N p' q' → (p = p' ↔ q = q')

theorem Key.Alike.eq_iff (pairs : Matches N) {key key' other other' : Key} (alike : key.Alike N other)
    (also : key'.Alike N other') : key = key' ↔ other = other' := by
  cases alike with
  | name name =>
    cases also with
    | name => exact .rfl
    | interface => exact ⟨fun never => (by cases never), fun never => by cases never⟩
  | interface same =>
    cases also with
    | name => exact ⟨fun never => (by cases never), fun never => by cases never⟩
    | interface too => simpa using pairs _ _ _ _ same too

theorem lookup_alike (pairs : Matches N) {entries others : List (Key × Item)}
    (alike : List.Forall₂ (EntryAlike N R) entries others) {key other : Key} (same : key.Alike N other) :
    (entries.lookup key).isSome = (others.lookup other).isSome := by
  induction alike with
  | nil => rfl
  | @cons entry opposite _ _ first _ ih =>
    have taken := same.eq_iff pairs first.key
    by_cases here : key = entry.1
    · rw [List.lookup_cons, List.lookup_cons, beq_iff_eq.mpr here, beq_iff_eq.mpr (taken.mp here)]
      rfl
    · have free : other ≠ opposite.1 := fun there => here (taken.mpr there)
      rw [List.lookup_cons, List.lookup_cons, beq_eq_false_iff_ne.mpr here, beq_eq_false_iff_ne.mpr free]
      exact ih

namespace World
open Document TypeExpr

variable {d e m n t : Draft}

theorem InterfaceAlike.isNone {r s : Registry} {i j : Interface} (alike : InterfaceAlike R r s i j) :
    i.package.isNone = j.package.isNone := by
  obtain ⟨-, package, -⟩ := alike
  generalize i.package = p, j.package = q at package
  cases package <;> rfl

structure Facing (R₀ N R : Nat → Nat → Prop) (d e : Draft) : Prop extends Beside R₀ R d e where
  names : Tables N d.interfaces e.interfaces
  interfaces : ∀ p q, N p q → Counterparts R d.registry e.registry p q

theorem Facing.step (facing : Facing R₀ N R d e) (left : d.Extends m) (right : e.Extends n)
    (step : Growth R₀ R d.registry.types e.registry.types S m.registry.types n.registry.types) : Facing R₀ N S m n where
  toBeside := facing.toBeside.step left right step
  names := by
    rw [left.interfaces, right.interfaces]
    exact facing.names
  interfaces p q same := by
    obtain ⟨i, j, found, there, alike⟩ := facing.interfaces p q same
    refine ⟨i, j, left.entered ▸ found, right.entered ▸ there, alike.name, ?_, alike.functions.mono step.grows⟩
    rw [left.packages, right.packages]
    exact alike.package

theorem item_alike (facing : Facing R₀ N R d e) (part : String) (entry : Document) :
    Agree (fun p q => p.1 = q.1 ∧ Along R₀ R d e (EntryAlike N) ((p.2.1, p.2.2.1), p.2.2.2) ((q.2.1, q.2.2.1), q.2.2.2))
      (d.item part entry) (e.item part entry) := by
  cases entry with
  | scalar | list => exact .throw _ _
  | mapping body =>
    rw [Draft.item.eq_def, Draft.item.eq_def]
    dsimp only
    cases find? body "function" with
    | some name =>
      refine (function_alike facing.toBeside _ body).bind fun p q along => ?_
      obtain ⟨left, right, S, step, alike⟩ := along
      exact .pure ⟨rfl, left, right, S, step, .name _, .function alike⟩
    | none =>
      cases find? body "interface" with
      | some name =>
        dsimp only
        generalize d.interfaces.lookup name.display = found, e.interfaces.lookup name.display = known,
          facing.names name.display = same
        cases same with
        | none => exact .throw _ _
        | @some p q same =>
          obtain ⟨i, j, found, there, alike⟩ := facing.interfaces p q same
          simp only [Registry.at?, found, there, pure_eq_ok, ok_bind, alike.isNone]
          refine .ok ⟨rfl, .refl d, .refl e, R, .refl facing.covers, ?_, .interface same⟩
          split
          · exact .name _
          · exact .interface same
      | none =>
        cases find? body "type" with
        | none => exact .throw _ _
        | some name =>
          dsimp only
          generalize d.declared.lookup name.display = found, e.declared.lookup name.display = known,
            facing.tables name.display = same
          cases same with
          | none => exact .throw _ _
          | some same => exact .pure ⟨rfl, .refl d, .refl e, R, .refl facing.covers, .name _, .type same⟩

theorem items_alike (pairs : Matches N) (facing : Facing R₀ N R d e) (part : String) {done others : List (Key × Item)}
    (alike : List.Forall₂ (EntryAlike N R) done others) (entries : List Document) :
    Agree (Along R₀ R d e fun S => List.Forall₂ (EntryAlike N S)) (d.items part done entries)
      (e.items part others entries) := by
  induction entries generalizing R d e done others with
  | nil => exact facing.toBeside.pure alike
  | cons entry rest ih =>
    refine (item_alike facing part entry).bind fun (name, key, item, m) (_, other, thing, n)
      ⟨_, left, right, S, step, same⟩ => ?_
    dsimp only at left right step ⊢
    rw [lookup_alike pairs alike same.key]
    split
    · exact .throw _ _
    · have longer := List.rel_append (alike.imp fun _ _ => .mono step.grows) (.cons same .nil)
      refine (ih (facing.step left right step) longer).mono fun p q ⟨more, also, T, further, ends⟩ => ?_
      exact ⟨left.trans more, right.trans also, T, step.trans further, ends⟩

/-! ### Worlds -/

/-- The same world in registries that differ in the numbers of types, packages and interfaces. -/
structure Replica (N R : Nat → Nat → Prop) (r s : Registry) (w v : World) : Prop where
  mirrors : Mirrors R r.types s.types
  size : r.types.size = s.types.size
  interfaces : ∀ p q, N p q → Counterparts R r s p q
  name : w.name = v.name
  imports : List.Forall₂ (EntryAlike N R) w.imports v.imports
  exports : List.Forall₂ (EntryAlike N R) w.exports v.exports

/-- A description with the types and the interfaces in another order, and the same otherwise. -/
structure Reordered (description other : Entries) : Prop where
  types : Shuffled (find? description "types") (find? other "types")
  interfaces : Shuffled (find? description "interfaces") (find? other "interfaces")
  rest : ∀ key, key ≠ "types" → key ≠ "interfaces" → find? description key = find? other key

theorem Reordered.symm {description other : Entries} (reordered : Reordered description other) :
    Reordered other description where
  types := reordered.types.symm
  interfaces := reordered.interfaces.symm
  rest key noTypes noInterfaces := (reordered.rest key noTypes noInterfaces).symm

theorem entriesOf_shuffled {part other : Option Document} (shuffled : Shuffled part other) {entries : Entries}
    (given : entriesOf part = .ok entries) :
    ∃ others, entriesOf other = .ok others ∧ entries.Perm others ∧ (entries.map (·.1.display)).Nodup := by
  cases shuffled with
  | mapping perm texts apart =>
    cases given
    exact ⟨_, rfl, perm, display_nodup texts apart⟩
  | same plain =>
    refine ⟨entries, given, .refl _, ?_⟩
    rw [entriesOf.eq_def] at given
    split at given
    · cases given
      exact List.nodup_nil
    · exact absurd rfl (plain _)
    · split at given
      · cases given
        exact List.nodup_nil
      · cases given

theorem worldPackage_keeps (package : Option Document) :
    Ensures (d.worldPackage package) fun (_, m) => m.declared = d.declared ∧ m.registry.types = d.registry.types := by
  rw [Draft.worldPackage.eq_def]
  split
  · exact .pure ⟨rfl, rfl⟩
  · split
    · exact .throw _
    case h_2 p _ =>
      obtain ⟨packages, same, -⟩ := package_spec d p
      change Ensures (Pure.pure (some (d.package p).1, (d.package p).2)) _
      rw [same]
      exact .pure ⟨rfl, rfl⟩

theorem Draft.Sound.name_eq (sound : d.Sound) {name other : String} {id : Nat}
    (known : d.interfaces.lookup name = some id) (also : d.interfaces.lookup other = some id) : name = other := by
  have apart : (d.interfaces.map (·.2)).Nodup := sound.numbered ▸ List.nodup_range
  exact congrArg Prod.fst (List.inj_on_of_nodup_map apart (mem_of_lookup known) (mem_of_lookup also) rfl)

theorem shares_matches (first : d.Sound) (second : e.Sound) : Matches (Shares d.interfaces e.interfaces) := by
  rintro p q p' q' ⟨name, known, there⟩ ⟨other, also, beside⟩
  constructor
  · rintro rfl
    cases first.name_eq known also
    exact Option.some.inj (there.symm.trans beside)
  · rintro rfl
    cases second.name_eq there beside
    exact Option.some.inj (known.symm.trans also)

theorem shares_tables {declared others : Declared} (tables : Tables R declared others) :
    Tables (Shares declared others) declared others := tables_shares fun name => by
  generalize declared.lookup name = found, others.lookup name = known, tables name = same
  cases same <;> rfl

theorem related_of_shares {declared others : Declared} (tables : Tables R declared others) {i j : Nat} :
    Shares declared others i j → R i j := by
  rintro ⟨name, known, there⟩
  have same := tables name
  rw [known, there] at same
  cases same
  assumption

theorem Replica.of_step (reflects : Reflects R d e) (facing : Facing R N S m n)
    (step : Growth R R d.registry.types e.registry.types S m.registry.types n.registry.types) {w v : World}
    (name : w.name = v.name) (imports : List.Forall₂ (EntryAlike N S) w.imports v.imports)
    (exports : List.Forall₂ (EntryAlike N S) w.exports v.exports) :
    Replica N (Covered R m.registry.types n.registry.types)
      (m.registry.addWorld w).2 (n.registry.addWorld v).2 w v := by
  have covered : ∀ i j, S i j → Covered R m.registry.types n.registry.types i j :=
    fun i j same => ⟨S, step.covers, same⟩
  refine ⟨reflects.mirrors.covered step.left step.right, ?_, fun p q same => ?_, name,
    imports.imp fun _ _ => .mono covered, exports.imp fun _ _ => .mono covered⟩
  · have level := step.level
    have size := reflects.size
    change m.registry.types.size = n.registry.types.size
    omega
  · obtain ⟨i, j, found, there, alike⟩ := facing.interfaces p q same
    exact ⟨i, j, found, there, alike.name, alike.package, alike.functions.mono covered⟩

/-- A reordered description is read as well, and as the same world. -/
theorem parse_reordered {description other : Entries} (reordered : Reordered description other)
    {r : Registry} {id : Nat} (parsed : parse description = .ok (r, id)) :
    ∃ s id' N R w v, parse other = .ok (s, id') ∧ Registry.at? r.worlds id = .ok w ∧
      Registry.at? s.worlds id' = .ok v ∧ Replica N R r s w v := by
  have kept := reordered.rest
  rw [parse.eq_def] at parsed
  split at parsed
  case h_1 => cases parsed
  case h_2 name named =>
    obtain ⟨⟨package, d₁⟩, packaged, parsed⟩ := bind_eq_ok.mp parsed
    obtain ⟨d₂, typed, parsed⟩ := bind_eq_ok.mp parsed
    obtain ⟨entries, given, parsed⟩ := bind_eq_ok.mp parsed
    obtain ⟨d₃, entered, parsed⟩ := bind_eq_ok.mp parsed
    obtain ⟨_, listed, parsed⟩ := bind_eq_ok.mp parsed
    obtain ⟨⟨imports, d₄⟩, incoming, parsed⟩ := bind_eq_ok.mp parsed
    obtain ⟨_, numbered, parsed⟩ := bind_eq_ok.mp parsed
    obtain ⟨⟨exports, d₅⟩, outgoing, parsed⟩ := bind_eq_ok.mp parsed
    cases parsed
    obtain ⟨sound₁, names₁, -⟩ := worldPackage_sound empty_sound _ _ packaged
    obtain ⟨declared, empty⟩ := worldPackage_keeps _ _ packaged
    obtain ⟨e₂, R₂, typed', reflects₂⟩ := types_shuffled declared empty reordered.types typed
    obtain ⟨sound₂, -, names₂⟩ := types_sound sound₁ _ _ typed
    obtain ⟨also₂, -, shown₂⟩ := types_sound sound₁ _ _ typed'
    obtain ⟨shuffled, given', perm, apart⟩ := entriesOf_shuffled reordered.interfaces given
    obtain ⟨e₃, R₃, entered', reflects₃, counterparts⟩ := interfaces_shuffled sound₂ also₂ (names₂.trans names₁)
      (shown₂.trans names₁) reflects₂ perm apart entered
    obtain ⟨sound₃, -⟩ := interfaces_sound sound₂ _ _ entered
    obtain ⟨also₃, -⟩ := interfaces_sound also₂ _ _ entered'
    have pairs := shares_matches sound₃ also₃
    have facing : Facing R₃ (Shares d₃.interfaces e₃.interfaces) R₃ d₃ e₃ :=
      ⟨.of_tables reflects₃.tables, shares_tables counterparts, fun _ _ => related_of_shares counterparts⟩
    obtain ⟨⟨imports', e₄⟩, incoming', left, right, S, step, alike⟩ :=
      (items_alike pairs facing "imports" .nil _).of_ok incoming
    have facing := facing.step left right step
    obtain ⟨⟨exports', e₅⟩, outgoing', further, beyond, T, next, also⟩ :=
      (items_alike pairs facing "exports" .nil _).of_ok outgoing
    have facing := facing.step further beyond next
    have replica := Replica.of_step reflects₃ facing (step.trans next) (w := ⟨name, package, imports, exports⟩)
      (v := ⟨name, package, imports', exports'⟩) rfl (alike.imp fun _ _ => .mono next.grows) also
    refine ⟨_, (e₅.registry.addWorld ⟨name, package, imports', exports'⟩).1, _, _, _, _, ?_, ?_, ?_, replica⟩
    · rw [parse.eq_def, ← kept "world" (by decide) (by decide), named]
      simp only [← kept "package" (by decide) (by decide), ← kept "imports" (by decide) (by decide),
        ← kept "exports" (by decide) (by decide), packaged, typed', given', entered', listed, incoming', numbered,
        outgoing', ok_bind]
      rfl
    · simp [Registry.at?, pure_eq_ok]
    · simp [Registry.at?, Registry.addWorld, pure_eq_ok]

end World

end ZigBindings
