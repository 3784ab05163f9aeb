import ZigBindings.Proofs.World.Parsing
import ZigBindings.Proofs.World.Reading

/-! Reading the same part of a description on from two drafts. As long as the same names are declared
it is read alike: both drafts get the same new types, and what is made of them belongs together. -/

namespace ZigBindings

namespace World
open Document TypeExpr

variable {α β γ δ : Type} {R₀ R : Nat → Nat → Prop} {d e : Draft}

/-- Drafts whose declared names and whose types belong together. -/
structure Beside (R₀ R : Nat → Nat → Prop) (d e : Draft) : Prop where
  tables : Tables R d.declared e.declared
  covers : Covers R₀ R d.registry.types e.registry.types

/-- Only types have come in, alike in both drafts, and the values made of them are related. -/
def Along (R₀ R : Nat → Nat → Prop) (d e : Draft) (related : (Nat → Nat → Prop) → α → β → Prop)
    (p : α × Draft) (q : β × Draft) : Prop :=
  d.Extends p.2 ∧ e.Extends q.2 ∧
    ∃ S, Growth R₀ R d.registry.types e.registry.types S p.2.registry.types q.2.registry.types ∧ related S p.1 q.1

namespace Beside

variable {related : (Nat → Nat → Prop) → α → β → Prop} {next : (Nat → Nat → Prop) → γ → δ → Prop}

theorem of_tables (tables : Tables R d.declared e.declared) : Beside R R d e := ⟨tables, fun _ _ => .inl⟩

theorem pure (beside : Beside R₀ R d e) {a : α} {b : β} (same : related R a b) :
    Agree (Along R₀ R d e related) (Pure.pure (a, d) : Except Fault (α × Draft)) (Pure.pure (b, e)) :=
  .pure ⟨.refl d, .refl e, R, .refl beside.covers, same⟩

theorem step {S : Nat → Nat → Prop} {m n : Draft} (beside : Beside R₀ R d e) (left : d.Extends m) (right : e.Extends n)
    (step : Growth R₀ R d.registry.types e.registry.types S m.registry.types n.registry.types) : Beside R₀ S m n := by
  refine ⟨?_, step.covers⟩
  rw [left.declared, right.declared]
  exact beside.tables.mono step.grows

theorem bind (beside : Beside R₀ R d e) {x : Except Fault (α × Draft)} {y : Except Fault (β × Draft)}
    (first : Agree (Along R₀ R d e related) x y) {f : α × Draft → Except Fault (γ × Draft)}
    {g : β × Draft → Except Fault (δ × Draft)}
    (after : ∀ S a b m n, (∀ i j, R i j → S i j) → Beside R₀ S m n → related S a b →
      Agree (Along R₀ S m n next) (f (a, m)) (g (b, n))) : Agree (Along R₀ R d e next) (x >>= f) (y >>= g) := by
  refine first.bind fun (a, m) (b, n) ⟨left, right, S, step, same⟩ => ?_
  have later := beside.step left right step
  refine (after S a b m n step.grows later same).mono fun p q ⟨more, also, T, further, ends⟩ => ?_
  exact ⟨left.trans more, right.trans also, T, step.trans further, ends⟩

end Beside

section
variable (beside : Beside R₀ R d e)
include beside

theorem typeExpr_alike (text : String) : Agree (Along R₀ R d e Ty.Alike) (d.typeExpr text) (e.typeExpr text) :=
  (read_alike beside.tables beside.covers text).bind fun _ _ ⟨S, step, same⟩ =>
    .pure ⟨⟨step.left.size, rfl⟩, ⟨step.right.size, rfl⟩, S, step, same⟩

theorem typed_alike (entries : Entries) :
    Agree (Along R₀ R d e fun S => List.Forall₂ (NamedAlike S)) (d.typed entries) (e.typed entries) := by
  induction entries generalizing R d e with
  | nil => exact beside.pure .nil
  | cons entry rest ih =>
    refine beside.bind (typeExpr_alike beside _) fun S ty other m n _ beside same => ?_
    refine beside.bind (ih beside) fun T others also k l wider beside alike => ?_
    exact beside.pure (.cons ⟨rfl, same.mono wider⟩ alike)

theorem cases_alike (entries : Entries) :
    Agree (Along R₀ R d e fun S => List.Forall₂ fun c k => c.1 = k.1 ∧ Option.Rel (Ty.Alike S) c.2 k.2)
      (d.cases entries) (e.cases entries) := by
  induction entries generalizing R d e with
  | nil => exact beside.pure .nil
  | cons entry rest ih =>
    rw [Draft.cases, Draft.cases]
    split
    · refine beside.bind (ih beside) fun T others also k l wider beside alike => ?_
      exact beside.pure (.cons ⟨rfl, .none⟩ alike)
    · refine beside.bind (typeExpr_alike beside _) fun S ty other m n _ beside same => ?_
      refine beside.bind (ih beside) fun T others also k l wider beside alike => ?_
      exact beside.pure (.cons ⟨rfl, .some (same.mono wider)⟩ alike)

theorem results_alike (name : String) (body : Entries) :
    Agree (Along R₀ R d e fun S r s => Option.Rel (Ty.Alike S) r.anon s.anon ∧
      List.Forall₂ (NamedAlike S) r.named s.named) (d.results name body) (e.results name body) := by
  rw [Draft.results, Draft.results]
  dsimp only
  split
  · exact .throw _ _
  split
  · split
    · exact beside.pure ⟨.none, .nil⟩
    · refine beside.bind (typeExpr_alike beside _) fun S ty other m n _ beside same => ?_
      exact beside.pure ⟨.some same, .nil⟩
  · refine Agree.rfl.bind_eq fun entries => ?_
    refine beside.bind (typed_alike beside _) fun S named others m n _ beside same => ?_
    exact beside.pure ⟨.none, same⟩

theorem function_alike (name : String) (body : Entries) :
    Agree (Along R₀ R d e Function.Alike) (d.function name body) (e.function name body) := by
  refine Agree.rfl.bind_eq fun entries => ?_
  refine beside.bind (typed_alike beside _) fun S params others m n _ beside same => ?_
  refine beside.bind (results_alike beside name body) fun T results also k l wider beside alike => ?_
  exact beside.pure ⟨rfl, same.imp fun _ _ => .mono wider, alike.1, alike.2⟩

def FunctionsAlike (R : Nat → Nat → Prop) : List (String × Function) → List (String × Function) → Prop :=
  List.Forall₂ fun p q => p.1 = q.1 ∧ p.2.Alike R q.2

omit beside in
theorem FunctionsAlike.mono {S : Nat → Nat → Prop} (wider : ∀ i j, R i j → S i j)
    {functions others : List (String × Function)} (alike : FunctionsAlike R functions others) :
    FunctionsAlike S functions others :=
  List.Forall₂.imp (fun _ _ same => ⟨same.1, same.2.mono wider⟩) alike

omit beside in
theorem FunctionsAlike.put {functions others : List (String × Function)} (alike : FunctionsAlike R functions others)
    (name : String) {f g : Function} (same : f.Alike R g) :
    FunctionsAlike R (put name f functions) (put name g others) := by
  induction alike with
  | nil => exact .cons ⟨rfl, same⟩ .nil
  | @cons p q _ _ first rest ih =>
    rw [World.put, World.put, first.1]
    split
    · exact .cons ⟨rfl, same⟩ rest
    · exact .cons ⟨rfl, first.2⟩ ih

theorem functions_alike {functions others : List (String × Function)} (alike : FunctionsAlike R functions others)
    (entries : Entries) :
    Agree (Along R₀ R d e FunctionsAlike) (d.functions functions entries) (e.functions others entries) := by
  induction entries generalizing R d e functions others with
  | nil => exact beside.pure alike
  | cons entry rest ih =>
    refine Agree.rfl.bind_eq fun body => ?_
    refine beside.bind (function_alike beside _ body) fun S f g m n wider beside same => ?_
    exact ih beside ((alike.mono wider).put _ same)

end

/-! ### Definitions of named types -/

def Tagged (declared : Declared) (a : Arena) : Prop :=
  ∀ name id, declared.lookup name = some id → ∃ kind, a[id]? = some ⟨kind, some name⟩

theorem Tagged.appends {declared : Declared} {a x : Arena} (tagged : Tagged declared a) (appends : a.Appends x) :
    Tagged declared x := fun name id known => by
  obtain ⟨kind, found⟩ := tagged name id known
  exact ⟨kind, appends.found found⟩

theorem Tagged.inside {declared : Declared} {a : Arena} (tagged : Tagged declared a) {name : String} {id : Nat}
    (known : declared.lookup name = some id) : id < a.size := by
  obtain ⟨kind, found⟩ := tagged name id known
  exact (Array.getElem?_eq_some_iff.mp found).1

theorem Tagged.injective {declared : Declared} {a : Arena} (tagged : Tagged declared a) {name other : String} {id : Nat}
    (known : declared.lookup name = some id) (also : declared.lookup other = some id) : name = other := by
  obtain ⟨_, found⟩ := tagged name id known
  obtain ⟨_, there⟩ := tagged other id also
  cases found.symm.trans there
  rfl

def Shares (declared others : Declared) (i j : Nat) : Prop :=
  ∃ name, declared.lookup name = some i ∧ others.lookup name = some j

section
variable (tables : Tables (Shares d.declared e.declared) d.declared e.declared)
  (tagged : Tagged d.declared d.registry.types) (also : Tagged e.declared e.registry.types)
  {name : String} {id other : Nat} (known : d.declared.lookup name = some id)
  (there : e.declared.lookup name = some other)
include tables tagged also known there

theorem synonym_alike (text : String) :
    Agree (Along (Shares d.declared e.declared) (Shares d.declared e.declared) d e Kind.Alike)
      (d.synonym name id text) (e.synonym name other text) := by
  have beside := Beside.of_tables tables
  refine (typeExpr_alike beside text).bind fun (target, m) (goal, n) ⟨left, right, S, step, same⟩ => ?_
  cases same with
  | prim p => exact .pure ⟨left, right, S, step, .alias (.prim p)⟩
  | @ref i j same =>
    have own : i = id ↔ j = other := by
      rcases step.new i j same with ⟨shared, first, second⟩ | ⟨behind, beyond⟩
      · constructor
        · rintro rfl
          rw [tagged.injective first known, there] at second
          exact (Option.some.inj second).symm
        · rintro rfl
          rw [also.injective second there, known] at first
          exact (Option.some.inj first).symm
      · have inside := tagged.inside known
        have within := also.inside there
        omega
    have found : ∃ x y, m.registry.types[i]? = some x ∧ n.registry.types[j]? = some y ∧ x.name = y.name ∧
        (x.name.isNone → x.kind.Alike S y.kind) := by
      rcases step.covers i j same with ⟨shared, first, second⟩ | ⟨x, y, first, second, alike⟩
      · obtain ⟨kind, held⟩ := (tagged.appends step.left) shared i first
        obtain ⟨kind', held'⟩ := (also.appends step.right) shared j second
        exact ⟨_, _, held, held', rfl, fun never => by cases never⟩
      · exact ⟨x, y, first, second, alike.name, fun _ => alike.kind⟩
    obtain ⟨x, y, first, second, names, kinds⟩ := found
    simp only [Ty.ref.injEq, own, Arena.typedef, first, second]
    split
    · exact .throw _ _
    · simp only [pure_eq_ok, ok_bind, names]
      split
      case isTrue fresh => exact .ok ⟨left, right, S, step, kinds (names ▸ fresh)⟩
      case isFalse => exact .ok ⟨left, right, S, step, .alias (.ref same)⟩

theorem definition_alike (body : Document) :
    Agree (Along (Shares d.declared e.declared) (Shares d.declared e.declared) d e Kind.Alike)
      (d.definition name id body) (e.definition name other body) := by
  have beside := Beside.of_tables tables
  rw [Draft.definition.eq_def, Draft.definition.eq_def]
  split
  · exact synonym_alike tables tagged also known there _
  · split
    · exact beside.bind (typed_alike beside _) fun S fields others m n _ beside same => beside.pure (.record same)
    · exact beside.bind (cases_alike beside _) fun S cases others m n _ beside same => beside.pure (.variant same)
    · exact beside.pure (.enumeration _)
    · exact beside.pure (.flags _)
    · exact beside.pure .resource
    all_goals exact .throw _ _
  · exact .throw _ _

end

end World

end ZigBindings
