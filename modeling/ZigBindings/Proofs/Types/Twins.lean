import Mathlib.Data.Option.Defs
import ZigBindings.Layout.Measure
import ZigBindings.Layout.Flat
import ZigBindings.Proofs.Agreement
import ZigBindings.Zig.Spelling

/-! Arenas that hold the same definitions under other numbers. Nothing that is computed from a type
depends on the numbers, so it comes out the same for types that belong together. -/

namespace ZigBindings

variable {R : Nat → Nat → Prop}

/-- The same type, up to the numbers of definitions. -/
inductive Ty.Alike (R : Nat → Nat → Prop) : Ty → Ty → Prop where
  | prim (p : Primitive) : Alike R (.prim p) (.prim p)
  | ref {i j : Nat} : R i j → Alike R (.ref i) (.ref j)

def NamedAlike (R : Nat → Nat → Prop) (f g : String × Ty) : Prop :=
  f.1 = g.1 ∧ f.2.Alike R g.2

inductive Kind.Alike (R : Nat → Nat → Prop) : Kind → Kind → Prop where
  | record {fields others : List (String × Ty)} :
    List.Forall₂ (NamedAlike R) fields others → Alike R (.record fields) (.record others)
  | tuple {elements others : List Ty} :
    List.Forall₂ (Ty.Alike R) elements others → Alike R (.tuple elements) (.tuple others)
  | variant {cases others : List (String × Option Ty)} :
    List.Forall₂ (fun c d => c.1 = d.1 ∧ Option.Rel (Ty.Alike R) c.2 d.2) cases others →
      Alike R (.variant cases) (.variant others)
  | enumeration (cases : List String) : Alike R (.enumeration cases) (.enumeration cases)
  | flags (names : List String) : Alike R (.flags names) (.flags names)
  | option {payload other : Ty} : payload.Alike R other → Alike R (.option payload) (.option other)
  | result {ok err ok' err' : Option Ty} : Option.Rel (Ty.Alike R) ok ok' → Option.Rel (Ty.Alike R) err err' →
    Alike R (.result ok err) (.result ok' err')
  | list {element other : Ty} : element.Alike R other → Alike R (.list element) (.list other)
  | resource : Alike R .resource .resource
  | alias {target other : Ty} : target.Alike R other → Alike R (.alias target) (.alias other)

structure Function.Alike (R : Nat → Nat → Prop) (f g : Function) : Prop where
  name : f.name = g.name
  params : List.Forall₂ (NamedAlike R) f.params g.params
  anon : Option.Rel (Ty.Alike R) f.results.anon g.results.anon
  named : List.Forall₂ (NamedAlike R) f.results.named g.results.named

/-- Related numbers stand for the same definitions, and there are as many of them in both arenas. -/
structure Twins (R : Nat → Nat → Prop) (a b : Arena) : Prop where
  size : a.size = b.size
  kinds : ∀ i j, R i j → Agree (Kind.Alike R) (a.kind i) (b.kind j)

/-! ### Relations -/

theorem Ty.Alike.refl (t : Ty) : t.Alike Eq t := by
  cases t with
  | prim p => exact .prim p
  | ref id => exact .ref rfl

theorem Option.rel_refl {α : Type} {related : α → α → Prop} (same : ∀ a, related a a) (x : Option α) :
    Option.Rel related x x := by
  cases x with
  | none => exact .none
  | some a => exact .some (same a)

theorem Option.rel_mono {α β : Type} {related other : α → β → Prop} (wider : ∀ a b, related a b → other a b)
    {x : Option α} {y : Option β} (alike : Option.Rel related x y) : Option.Rel other x y := by
  cases alike with
  | none => exact .none
  | some same => exact .some (wider _ _ same)

theorem NamedAlike.refl_all (fields : List (String × Ty)) : List.Forall₂ (NamedAlike Eq) fields fields :=
  List.forall₂_same.mpr fun f _ => ⟨rfl, .refl f.2⟩

theorem Kind.Alike.refl (k : Kind) : k.Alike Eq k := by
  cases k with
  | record fields => exact .record (NamedAlike.refl_all fields)
  | tuple elements => exact .tuple (List.forall₂_same.mpr fun t _ => .refl t)
  | variant cases => exact .variant (List.forall₂_same.mpr fun c _ => ⟨rfl, Option.rel_refl .refl c.2⟩)
  | enumeration cases => exact .enumeration cases
  | flags names => exact .flags names
  | option payload => exact .option (.refl payload)
  | result ok err => exact .result (Option.rel_refl .refl ok) (Option.rel_refl .refl err)
  | list element => exact .list (.refl element)
  | resource => exact .resource
  | «alias» target => exact .alias (.refl target)

theorem Function.Alike.refl (f : Function) : f.Alike Eq f :=
  ⟨rfl, NamedAlike.refl_all _, Option.rel_refl .refl _, NamedAlike.refl_all _⟩

theorem Twins.refl (a : Arena) : Twins Eq a a :=
  ⟨rfl, fun _ _ same => same ▸ .refl .refl _⟩

section
variable {S : Nat → Nat → Prop} (wider : ∀ i j, R i j → S i j)
include wider

theorem Ty.Alike.mono {t u : Ty} (alike : t.Alike R u) : t.Alike S u := by
  cases alike with
  | prim p => exact .prim p
  | ref same => exact .ref (wider _ _ same)

theorem NamedAlike.mono {f g : String × Ty} (alike : NamedAlike R f g) : NamedAlike S f g :=
  ⟨alike.1, alike.2.mono wider⟩

theorem Kind.Alike.mono {k l : Kind} (alike : k.Alike R l) : k.Alike S l := by
  cases alike with
  | record fields => exact .record (fields.imp fun _ _ => .mono wider)
  | tuple elements => exact .tuple (elements.imp fun _ _ => .mono wider)
  | variant cases =>
    exact .variant (cases.imp fun _ _ same => ⟨same.1, Option.rel_mono (fun _ _ => .mono wider) same.2⟩)
  | enumeration cases => exact .enumeration cases
  | flags names => exact .flags names
  | option payload => exact .option (payload.mono wider)
  | result ok err =>
    exact .result (Option.rel_mono (fun _ _ => .mono wider) ok) (Option.rel_mono (fun _ _ => .mono wider) err)
  | list element => exact .list (element.mono wider)
  | resource => exact .resource
  | «alias» target => exact .alias (target.mono wider)

theorem Function.Alike.mono {f g : Function} (alike : f.Alike R g) : f.Alike S g :=
  ⟨alike.name, alike.params.imp fun _ _ => .mono wider, Option.rel_mono (fun _ _ => .mono wider) alike.anon,
    alike.named.imp fun _ _ => .mono wider⟩

end

theorem types_alike {fields others : List (String × Ty)} (alike : List.Forall₂ (NamedAlike R) fields others) :
    List.Forall₂ (Ty.Alike R) (fields.map (·.2)) (others.map (·.2)) := by
  rw [List.forall₂_map_left_iff, List.forall₂_map_right_iff]
  exact alike.imp fun _ _ same => same.2

theorem names_eq {fields others : List (String × Ty)} (alike : List.Forall₂ (NamedAlike R) fields others)
    {α : Type} (f : String → α) : (fields.map fun p => f p.1) = others.map fun p => f p.1 := by
  induction alike with
  | nil => rfl
  | cons first _ ih => rw [List.map_cons, List.map_cons, ih, first.1]

theorem payloads_alike {cases others : List (Option Ty)}
    (alike : List.Forall₂ (Option.Rel (Ty.Alike R)) cases others) :
    List.Forall₂ (Ty.Alike R) (cases.filterMap fun c => c) (others.filterMap fun c => c) :=
  List.rel_filterMap (fun _ _ same => same) alike

theorem case_payloads_alike {cases others : List (String × Option Ty)}
    (alike : List.Forall₂ (fun c d => c.1 = d.1 ∧ Option.Rel (Ty.Alike R) c.2 d.2) cases others) :
    List.Forall₂ (Ty.Alike R) (cases.filterMap (·.2)) (others.filterMap (·.2)) :=
  List.rel_filterMap (fun _ _ same => same.2) alike

namespace Function.Alike

variable {f g : Function} (alike : f.Alike R g)
include alike

theorem types : List.Forall₂ (Ty.Alike R) f.results.types g.results.types := by
  obtain ⟨_, _, anon, named⟩ := f
  obtain ⟨_, _, other, others⟩ := g
  cases alike.anon with
  | none => exact types_alike alike.named
  | some same => exact .cons same .nil

theorem isNamed : f.results.isNamed = g.results.isNamed := by
  obtain ⟨_, _, anon, named⟩ := f
  obtain ⟨_, _, other, others⟩ := g
  cases alike.anon with
  | some same => rfl
  | none =>
    cases alike.named with
    | nil => rfl
    | cons => rfl

end Function.Alike

/-! ### Layouts -/

section
variable {a b : Arena} {t u : Ty} (twins : Twins R a b)
include twins

theorem Twins.unaliasWithin (depth : Nat) (same : t.Alike R u) :
    Agree (Ty.Alike R) (a.unaliasWithin depth t) (b.unaliasWithin depth u) := by
  induction depth generalizing t u with
  | zero =>
    cases same with
    | prim p => exact .pure (.prim p)
    | ref => exact .throw _ _
  | succ depth ih =>
    cases same with
    | prim p => exact .pure (.prim p)
    | @ref i j same =>
      refine (twins.kinds i j same).bind fun kind other alike => ?_
      cases alike with
      | «alias» target => exact ih target
      | _ => exact .pure (.ref same)

theorem Twins.unalias (same : t.Alike R u) : Agree (Ty.Alike R) (a.unalias t) (b.unalias u) := by
  rw [Arena.unalias, Arena.unalias, Arena.depth, Arena.depth, twins.size]
  exact twins.unaliasWithin _ same

theorem Twins.flattenWithin (depth : Nat) (same : t.Alike R u) :
    Agree Eq (Layout.flattenWithin a depth t) (Layout.flattenWithin b depth u) := by
  induction depth generalizing t u with
  | zero =>
    cases same with
    | prim p => exact .pure rfl
    | ref => exact .throw _ _
  | succ depth ih =>
    cases same with
    | prim p => exact .pure rfl
    | @ref i j same =>
      refine (twins.kinds i j same).bind fun kind other alike => ?_
      cases alike with
      | record fields => exact (Agree.mapM_eq fields fun _ _ same => ih same.2).bind_eq fun _ => .rfl
      | tuple elements => exact (Agree.mapM_eq elements fun _ _ => ih).bind_eq fun _ => .rfl
      | variant cases => exact (Agree.mapM_eq (case_payloads_alike cases) fun _ _ => ih).bind_eq fun _ => .rfl
      | enumeration | flags | list | resource => exact .rfl
      | option payload => exact (ih payload).bind_eq fun _ => .rfl
      | result ok err =>
        exact (Agree.mapM_eq (payloads_alike (.cons ok (.cons err .nil))) fun _ _ => ih).bind_eq fun _ => .rfl
      | «alias» target => exact ih target

theorem Twins.flatten (same : t.Alike R u) : Agree Eq (Layout.flatten a t) (Layout.flatten b u) := by
  rw [Layout.flatten, Layout.flatten, Arena.depth, Arena.depth, twins.size]
  exact twins.flattenWithin _ same

theorem Twins.flattenAll {types others : List Ty} (same : List.Forall₂ (Ty.Alike R) types others) :
    Agree Eq (Layout.flattenAll a types) (Layout.flattenAll b others) :=
  (Agree.mapM_eq same fun _ _ => twins.flatten).bind_eq fun _ => .rfl

theorem Twins.measureWithin (depth : Nat) (same : t.Alike R u) :
    Agree Eq (Layout.measureWithin a depth t) (Layout.measureWithin b depth u) := by
  induction depth generalizing t u with
  | zero =>
    cases same with
    | prim p => exact .pure rfl
    | ref => exact .throw _ _
  | succ depth ih =>
    cases same with
    | prim p => exact .pure rfl
    | @ref i j same =>
      refine (twins.kinds i j same).bind fun kind other alike => ?_
      cases alike with
      | record fields => exact (Agree.mapM_eq fields fun _ _ same => ih same.2).bind_eq fun _ => .rfl
      | tuple elements => exact (Agree.mapM_eq elements fun _ _ => ih).bind_eq fun _ => .rfl
      | @variant cases others alike =>
        refine (Agree.mapM_eq (case_payloads_alike alike) fun _ _ => ih).bind_eq fun _ => ?_
        rw [alike.length_eq]
        exact .rfl
      | enumeration | flags | list | resource => exact .rfl
      | option payload => exact (ih payload).bind_eq fun _ => .rfl
      | result ok err =>
        exact (Agree.mapM_eq (payloads_alike (.cons ok (.cons err .nil))) fun _ _ => ih).bind_eq fun _ => .rfl
      | «alias» target => exact ih target

theorem Twins.measure (same : t.Alike R u) : Agree Eq (Layout.measure a t) (Layout.measure b u) := by
  rw [Layout.measure, Layout.measure, Arena.depth, Arena.depth, twins.size]
  exact twins.measureWithin _ same

section
variable {types others : List Ty} (same : List.Forall₂ (Ty.Alike R) types others)
include same

theorem Twins.measureAll : Agree Eq (Layout.measureAll a types) (Layout.measureAll b others) :=
  Agree.mapM_eq same fun _ _ => twins.measure

theorem Twins.fieldOffsets : Agree Eq (Layout.fieldOffsets a types) (Layout.fieldOffsets b others) :=
  (twins.measureAll same).bind_eq fun _ => .rfl

theorem Twins.recordLayout : Agree Eq (Layout.recordLayout a types) (Layout.recordLayout b others) :=
  (twins.measureAll same).bind_eq fun _ => .rfl

end

theorem Twins.payloadOffset {i j : Nat} (same : R i j) :
    Agree Eq (Layout.payloadOffset a i) (Layout.payloadOffset b j) := by
  refine (twins.kinds i j same).bind fun kind other alike => ?_
  have cases : (kind.cases? = none ∧ other.cases? = none) ∨ ∃ cases others, kind.cases? = some cases ∧
      other.cases? = some others ∧ List.Forall₂ (Option.Rel (Ty.Alike R)) cases others := by
    cases alike with
    | variant cases =>
      refine .inr ⟨_, _, rfl, rfl, ?_⟩
      rw [List.forall₂_map_left_iff, List.forall₂_map_right_iff]
      exact cases.imp fun _ _ same => same.2
    | enumeration cases =>
      refine .inr ⟨_, _, rfl, rfl, ?_⟩
      exact List.forall₂_same.mpr fun c member => by
        obtain ⟨_, -, rfl⟩ := List.mem_map.mp member
        exact .none
    | option payload => exact .inr ⟨_, _, rfl, rfl, .cons .none (.cons (.some payload) .nil)⟩
    | result ok err => exact .inr ⟨_, _, rfl, rfl, .cons ok (.cons err .nil)⟩
    | _ => exact .inl ⟨rfl, rfl⟩
  rcases cases with ⟨none, also⟩ | ⟨cases, others, some, also, alike⟩
  · rw [none, also]
    exact .throw _ _
  · rw [some, also]
    refine (twins.measureAll (payloads_alike alike)).bind_eq fun _ => ?_
    rw [alike.length_eq]
    exact .rfl

/-! ### Spellings -/

theorem Twins.spellWithin (depth : Nat) (same : t.Alike R u) :
    Agree Eq (Zig.spellWithin a depth t) (Zig.spellWithin b depth u) := by
  induction depth generalizing t u with
  | zero =>
    cases same with
    | prim p => exact .pure rfl
    | ref => exact .throw _ _
  | succ depth ih =>
    cases same with
    | prim p => exact .pure rfl
    | @ref i j same =>
      refine (twins.kinds i j same).bind fun kind other alike => ?_
      cases alike with
      | tuple elements => exact (Agree.mapM_eq elements fun _ _ => ih).bind_eq fun _ => .rfl
      | _ => exact .throw _ _

theorem Twins.spell (same : t.Alike R u) : Agree Eq (Zig.spell a t) (Zig.spell b u) := by
  rw [Zig.spell, Zig.spell, Arena.depth, Arena.depth, twins.size]
  exact twins.spellWithin _ same

theorem Twins.spellResults {f g : Function} (alike : f.Alike R g) :
    Agree Eq (Zig.spellResults a f.results) (Zig.spellResults b g.results) := by
  obtain ⟨_, _, anon, named⟩ := f
  obtain ⟨_, _, other, others⟩ := g
  rw [Zig.spellResults.eq_def, Zig.spellResults.eq_def]
  cases alike.anon with
  | some same => exact twins.spell same
  | none =>
    have all : Agree Eq (named.mapM (Zig.spellField a)) (others.mapM (Zig.spellField b)) :=
      Agree.mapM_eq alike.named fun f g same => by
        rw [Zig.spellField, Zig.spellField, same.1]
        exact (twins.spell same.2).bind_eq fun _ => .rfl
    cases alike.named with
    | nil => exact .rfl
    | cons => exact all.bind_eq fun _ => .rfl

theorem Twins.checkWithin (depth : Nat) (same : t.Alike R u) :
    Agree Eq (Zig.checkWithin a depth t) (Zig.checkWithin b depth u) := by
  induction depth generalizing t u with
  | zero =>
    cases same with
    | prim p => exact .pure rfl
    | ref => exact .throw _ _
  | succ depth ih =>
    cases same with
    | prim p => exact .pure rfl
    | @ref i j same =>
      refine (twins.kinds i j same).bind fun kind other alike => ?_
      cases alike with
      | tuple elements => exact Agree.forM elements fun _ _ => ih
      | option inner | list inner => exact (twins.spell inner).map fun _ _ _ => rfl
      | _ => exact .throw _ _

theorem Twins.check (same : t.Alike R u) : Agree Eq (Zig.check a t) (Zig.check b u) := by
  rw [Zig.check, Zig.check, Arena.depth, Arena.depth, twins.size]
  exact twins.checkWithin _ same

end

end ZigBindings
