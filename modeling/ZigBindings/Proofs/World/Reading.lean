import Mathlib.Order.Basic
import Mathlib.Data.Nat.Basic
import ZigBindings.Proofs.Types.Twins
import ZigBindings.World.TypeExpr

/-! Reading the same type expression in two arenas. What is appended to the one is what is appended to
the other, up to numbers that are related from the start or stand for what was appended together. -/

namespace ZigBindings

variable {R₀ R S T : Nat → Nat → Prop} {a b x y : Arena}

/-- The same definition, up to the numbers in it. -/
structure TypeDef.Alike (R : Nat → Nat → Prop) (d e : TypeDef) : Prop where
  kind : d.kind.Alike R e.kind
  name : d.name = e.name

/-- Related numbers stand for the same definitions, unless they are related to begin with. -/
def Covers (R₀ R : Nat → Nat → Prop) (a b : Arena) : Prop :=
  ∀ i j, R i j → R₀ i j ∨ ∃ d e, a[i]? = some d ∧ b[j]? = some e ∧ d.Alike R e

/-- Definitions come in at the end, if at all. -/
structure Arena.Appends (a x : Arena) : Prop where
  size : a.size ≤ x.size
  kept : ∀ i, i < a.size → x[i]? = a[i]?

namespace Arena.Appends

theorem refl (a : Arena) : a.Appends a := ⟨le_rfl, fun _ _ => rfl⟩

theorem trans {z : Arena} (first : a.Appends x) (second : x.Appends z) : a.Appends z :=
  ⟨first.size.trans second.size, fun i inside =>
    (second.kept i (inside.trans_le first.size)).trans (first.kept i inside)⟩

theorem push (a : Arena) (d : TypeDef) : a.Appends (a.push d) :=
  ⟨by simp, fun i inside => by rw [Array.getElem?_push_lt inside, Array.getElem?_eq_getElem inside]⟩

theorem found (appends : a.Appends x) {i : Nat} {d : TypeDef} (found : a[i]? = some d) : x[i]? = some d := by
  rw [appends.kept i (Array.getElem?_eq_some_iff.mp found).1, found]

end Arena.Appends

/-- Both arenas have grown by as many definitions, and those that are related now but were not before
are new. -/
structure Growth (R₀ R : Nat → Nat → Prop) (a b : Arena) (S : Nat → Nat → Prop) (x y : Arena) : Prop where
  grows : ∀ i j, R i j → S i j
  covers : Covers R₀ S x y
  new : ∀ i j, S i j → R i j ∨ (a.size ≤ i ∧ b.size ≤ j)
  left : a.Appends x
  right : b.Appends y
  level : x.size + b.size = y.size + a.size

namespace Growth

theorem refl (covers : Covers R₀ R a b) : Growth R₀ R a b R a b :=
  ⟨fun _ _ same => same, covers, fun _ _ same => .inl same, .refl a, .refl b, Nat.add_comm _ _⟩

theorem trans {z w : Arena} (first : Growth R₀ R a b S x y) (second : Growth R₀ S x y T z w) :
    Growth R₀ R a b T z w where
  grows i j same := second.grows i j (first.grows i j same)
  covers := second.covers
  new i j same := by
    rcases second.new i j same with old | ⟨left, right⟩
    · exact first.new i j old
    · exact .inr ⟨first.left.size.trans left, first.right.size.trans right⟩
  left := first.left.trans second.left
  right := first.right.trans second.right
  level := by
    have one := first.level
    have two := second.level
    omega

theorem push (covers : Covers R₀ R a b) {kind other : Kind} (alike : kind.Alike R other) :
    Growth R₀ R a b (fun i j => R i j ∨ (i = a.size ∧ j = b.size)) (a.push ⟨kind, none⟩) (b.push ⟨other, none⟩) where
  grows _ _ := .inl
  covers i j same := by
    rcases same with old | ⟨rfl, rfl⟩
    · refine (covers i j old).imp_right ?_
      rintro ⟨d, e, left, right, same⟩
      exact ⟨d, e, (Arena.Appends.push a _).found left, (Arena.Appends.push b _).found right,
        same.kind.mono fun _ _ => .inl, same.name⟩
    · exact .inr ⟨_, _, Array.getElem?_push_size, Array.getElem?_push_size, alike.mono fun _ _ => .inl, rfl⟩
  new i j same := same.imp_right fun ⟨left, right⟩ => ⟨left.ge, right.ge⟩
  left := .push a _
  right := .push b _
  level := by
    rw [Array.size_push, Array.size_push]
    omega

end Growth

def Makes {α β : Type} (R₀ R : Nat → Nat → Prop) (a b : Arena) (related : (Nat → Nat → Prop) → α → β → Prop)
    (p : α × Arena) (q : β × Arena) : Prop :=
  ∃ S, Growth R₀ R a b S p.2 q.2 ∧ related S p.1 q.1

namespace TypeExpr

def Tables (R : Nat → Nat → Prop) (declared others : Declared) : Prop :=
  ∀ name, Option.Rel R (declared.lookup name) (others.lookup name)

theorem Tables.refl (declared : Declared) : Tables Eq declared declared :=
  fun _ => Option.rel_refl (fun _ => rfl) _

variable {declared others : Declared}

theorem append_alike (covers : Covers R₀ R a b) {kind other : Kind} (alike : kind.Alike R other) :
    Makes R₀ R a b Ty.Alike (append kind a) (append other b) :=
  ⟨_, .push covers alike, .ref (.inr ⟨rfl, rfl⟩)⟩

/-- The name makes a type of its own of the arguments. -/
inductive Generic : String → List (Option Ty) → Prop where
  | tuple (args : List (Option Ty)) : Generic "tuple" args
  | list (element : Ty) : Generic "list" [some element]
  | option (payload : Ty) : Generic "option" [some payload]
  | result : Generic "result" []
  | ok (ok : Option Ty) : Generic "result" [ok]
  | both (ok err : Option Ty) : Generic "result" [ok, err]

theorem Generic.alike {head : String} {args other : List (Option Ty)} (generic : Generic head other)
    (alike : List.Forall₂ (Option.Rel (Ty.Alike R)) args other) : Generic head args := by
  cases generic with
  | tuple => exact .tuple args
  | list =>
    obtain - | ⟨first, rest⟩ := alike
    cases rest
    cases first
    exact .list _
  | option =>
    obtain - | ⟨first, rest⟩ := alike
    cases rest
    cases first
    exact .option _
  | result =>
    cases alike
    exact .result
  | ok =>
    obtain - | ⟨first, rest⟩ := alike
    cases rest
    exact .ok _
  | both =>
    obtain - | ⟨first, rest⟩ := alike
    obtain - | ⟨second, rest⟩ := rest
    cases rest
    exact .both _ _

theorem apply_plain (declared : Declared) (text : String) {head : String} {args : List (Option Ty)}
    (a : Arena) : ¬ Generic head args → apply declared text head args a =
      match args, Primitive.ofName? head, declared.lookup head with
      | [], some p, _ => pure (.prim p, a)
      | [], none, some id => pure (.ref id, a)
      | _, _, _ => throw (.format (.unknownTypeIn head text)) := by
  intro plain
  rw [apply.eq_def]
  dsimp only
  split
  · exact absurd (.tuple _) plain
  · exact absurd (.list _) plain
  · exact absurd (.option _) plain
  · exact absurd .result plain
  · exact absurd (.ok _) plain
  · exact absurd (.both _ _) plain
  · rfl

section
variable (tables : Tables R declared others) (covers : Covers R₀ R a b) (text head : String)
include tables covers

theorem plain_alike {args other : List (Option Ty)} : List.Forall₂ (Option.Rel (Ty.Alike R)) args other →
    Agree (Makes R₀ R a b Ty.Alike)
      (match args, Primitive.ofName? head, declared.lookup head with
        | [], some p, _ => pure (.prim p, a)
        | [], none, some id => pure (.ref id, a)
        | _, _, _ => throw (.format (.unknownTypeIn head text)) : Except Fault (Ty × Arena))
      (match other, Primitive.ofName? head, others.lookup head with
        | [], some p, _ => pure (.prim p, b)
        | [], none, some id => pure (.ref id, b)
        | _, _, _ => throw (.format (.unknownTypeIn head text))) := by
  intro alike
  cases alike with
  | cons => exact .throw _ _
  | nil =>
    cases Primitive.ofName? head with
    | some p => exact .pure ⟨R, .refl covers, .prim p⟩
    | none =>
      generalize declared.lookup head = found, others.lookup head = known, tables head = same
      cases same with
      | none => exact .throw _ _
      | some same => exact .pure ⟨R, .refl covers, .ref same⟩

theorem apply_alike {args other : List (Option Ty)} (alike : List.Forall₂ (Option.Rel (Ty.Alike R)) args other) :
    Agree (Makes R₀ R a b Ty.Alike) (apply declared text head args a) (apply others text head other b) := by
  have plain := plain_alike tables covers text head alike
  by_cases generic : Generic head args
  · cases generic with
    | tuple =>
      have all : args.all Option.isSome = other.all Option.isSome := by
        clear plain
        induction alike with
        | nil => rfl
        | cons first _ ih =>
          rw [List.all_cons, List.all_cons, ih]
          cases first <;> rfl
      simp only [apply, all]
      split
      · exact .pure (append_alike covers (.tuple (payloads_alike alike)))
      · exact plain
    | list =>
      obtain - | ⟨first, rest⟩ := alike
      cases rest
      cases first with
      | some same => exact .pure (append_alike covers (.list same))
    | option =>
      obtain - | ⟨first, rest⟩ := alike
      cases rest
      cases first with
      | some same => exact .pure (append_alike covers (.option same))
    | result =>
      cases alike
      exact .pure (append_alike covers (.result .none .none))
    | ok =>
      obtain - | ⟨first, rest⟩ := alike
      cases rest
      exact .pure (append_alike covers (.result first .none))
    | both =>
      obtain - | ⟨first, rest⟩ := alike
      obtain - | ⟨second, rest⟩ := rest
      cases rest
      exact .pure (append_alike covers (.result first second))
  · rw [apply_plain declared text a generic, apply_plain others text b fun other => generic (other.alike alike)]
    exact plain

end

theorem Tables.mono (tables : Tables R declared others) (wider : ∀ i j, R i j → S i j) : Tables S declared others :=
  fun name => Option.rel_mono wider (tables name)

def ReadAlike {α β : Type} (R₀ R : Nat → Nat → Prop) (a b : Arena) (related : (Nat → Nat → Prop) → α → β → Prop)
    (p : Reading α) (q : Reading β) : Prop :=
  p.2.2 = q.2.2 ∧ Makes R₀ R a b related (p.1, p.2.1) (q.1, q.2.1)

theorem read_alike_within (text : String) (depth : Nat) :
    (∀ {R : Nat → Nat → Prop} {a b : Arena}, Tables R declared others → Covers R₀ R a b → ∀ tokens,
      Agree (ReadAlike R₀ R a b Ty.Alike)
        (readType declared text depth a tokens) (readType others text depth b tokens)) ∧
    (∀ {R : Nat → Nat → Prop} {a b : Arena}, Tables R declared others → Covers R₀ R a b → ∀ tokens,
      Agree (ReadAlike R₀ R a b fun S => List.Forall₂ (Option.Rel (Ty.Alike S)))
        (readArgs declared text depth a tokens) (readArgs others text depth b tokens)) ∧
    ∀ {R : Nat → Nat → Prop} {a b : Arena}, Tables R declared others → Covers R₀ R a b → ∀ tokens,
      Agree (ReadAlike R₀ R a b fun S => Option.Rel (Ty.Alike S))
        (readArg declared text depth a tokens) (readArg others text depth b tokens) := by
  induction depth with
  | zero =>
    refine ⟨fun tables covers tokens => ?_, fun tables covers tokens => ?_, fun tables covers tokens => ?_⟩
    · rw [readType.eq_def, readType.eq_def]
      exact .throw _ _
    · rw [readArgs.eq_def, readArgs.eq_def]
      exact .throw _ _
    · rw [readArg.eq_def, readArg.eq_def]
      split
      · exact .pure ⟨rfl, _, .refl covers, .none⟩
      · exact .throw _ _
      · cases ‹0 = _ + 1›
  | succ depth ih =>
    obtain ⟨type, args, arg⟩ := ih
    refine ⟨fun {R a b} tables covers tokens => ?_, fun {R a b} tables covers tokens => ?_,
      fun {R a b} tables covers tokens => ?_⟩
    · rw [readType.eq_def, readType.eq_def]
      split
      · cases ‹depth + 1 = _›
        refine (args tables covers _).bind fun (given, x, rest) (other, y, _) ⟨same, S, first, alike⟩ => ?_
        cases same
        refine (apply_alike (tables.mono first.grows) first.covers _ _ alike).bind
          fun _ _ ⟨T, second, made⟩ => .pure ⟨rfl, T, first.trans second, made⟩
      · cases ‹depth + 1 = _›
        exact (apply_alike tables covers _ _ .nil).bind fun _ _ made => .pure ⟨rfl, made⟩
      · exact .throw _ _
    · rw [readArgs.eq_def, readArgs.eq_def]
      refine (arg tables covers tokens).bind fun (given, x, rest) (other, y, _) ⟨same, S, first, alike⟩ => ?_
      cases same
      dsimp only
      split
      · exact .throw _ _
      · exact .pure ⟨rfl, S, first, .cons alike .nil⟩
      · refine (args (tables.mono first.grows) first.covers _).bind
          fun (_, z, rest) (_, w, _) ⟨same, T, second, also⟩ => ?_
        cases same
        exact .pure ⟨rfl, T, first.trans second, .cons (Option.rel_mono (fun _ _ => .mono second.grows) alike) also⟩
      · exact .throw _ _
    · rw [readArg.eq_def, readArg.eq_def]
      split
      · exact .pure ⟨rfl, _, .refl covers, .none⟩
      · cases ‹depth + 1 = 0›
      · cases ‹depth + 1 = _›
        exact (type tables covers _).bind fun _ _ ⟨same, S, first, alike⟩ => .pure ⟨same, S, first, .some alike⟩

/-- A type expression is read alike wherever the same names are declared. -/
theorem read_alike (tables : Tables R declared others) (covers : Covers R₀ R a b) (text : String) :
    Agree (Makes R₀ R a b Ty.Alike) (read declared text a) (read others text b) := by
  rw [read.eq_def, read.eq_def]
  dsimp only
  split
  · exact .throw _ _
  · refine ((read_alike_within text _).1 tables covers _).bind fun (_, _, rest) (_, _, _) ⟨same, made⟩ => ?_
    cases same
    dsimp only
    split
    · exact .pure made
    · exact .throw _ _

end TypeExpr

end ZigBindings
