import ZigBindings.Proofs.Outcome
import ZigBindings.Proofs.Types.Acceptance
import ZigBindings.World.TypeExpr

/-! Closed arenas: every definition refers to definitions of the same arena. Reading a type expression
keeps an arena closed, since a definition is appended after those that it refers to. -/

namespace ZigBindings

namespace Arena

/-- Every definition refers to definitions of the arena. -/
def Closed (a : Arena) : Prop := ∀ d ∈ a, ∀ ty ∈ d.kind.parts, a.InRange ty

variable {a b : Arena} {ty : Ty} {kind : Kind}

theorem InRange.mono (inside : a.InRange ty) (le : a.size ≤ b.size) : b.InRange ty :=
  fun id same => (inside id same).trans_le le

theorem inRange_prim (a : Arena) (p : Primitive) : a.InRange (.prim p) := fun _ never => by cases never

theorem inRange_ref {id : Nat} : a.InRange (.ref id) ↔ id < a.size :=
  ⟨fun inside => inside id rfl, fun inside other same => by cases same; exact inside⟩

theorem kind_ok {id : Nat} : a.kind id = .ok kind ↔ ∃ name, a[id]? = some ⟨kind, name⟩ := by
  rw [Arena.kind, map_eq_ok, Arena.typedef]
  cases found : a[id]? with
  | none => simp [throw_eq_error]
  | some d =>
    obtain ⟨other, name⟩ := d
    simp [pure_eq_ok]

namespace Closed

theorem empty : Closed #[] := fun _ member => by cases Array.not_mem_empty _ member

theorem part (closed : a.Closed) {id : Nat} (found : a.kind id = .ok kind) :
    ∀ ty ∈ kind.parts, a.InRange ty := by
  obtain ⟨name, found⟩ := kind_ok.mp found
  exact closed _ (Array.mem_of_getElem? found)

theorem push (closed : a.Closed) (inside : ∀ ty ∈ kind.parts, a.InRange ty) (name : Option String) :
    Closed (a.push ⟨kind, name⟩) := by
  have le : a.size ≤ (a.push ⟨kind, name⟩).size := by simp
  intro d member ty part
  rcases Array.mem_push.mp member with old | rfl
  · exact (closed d old ty part).mono le
  · exact (inside ty part).mono le

theorem set (closed : a.Closed) (inside : ∀ ty ∈ kind.parts, a.InRange ty) (id : Nat)
    (name : Option String) : Closed (a.setIfInBounds id ⟨kind, name⟩) := by
  have le : a.size ≤ (a.setIfInBounds id ⟨kind, name⟩).size := by simp
  intro d member ty part
  rcases Array.mem_or_eq_of_mem_setIfInBounds member with old | rfl
  · exact (closed d old ty part).mono le
  · exact (inside ty part).mono le

end Closed

end Arena

namespace TypeExpr
open Arena

variable {declared : Declared} {a : Arena}

def Known (declared : Declared) (a : Arena) : Prop :=
  ∀ name id, declared.lookup name = some id → id < a.size

theorem Known.mono {b : Arena} (known : Known declared a) (le : a.size ≤ b.size) : Known declared b :=
  fun name id found => (known name id found).trans_le le

structure Grown (a b : Arena) : Prop where
  le : a.size ≤ b.size
  closed : b.Closed

def Made (a : Arena) (result : Ty × Arena) : Prop := Grown a result.2 ∧ result.2.InRange result.1

theorem append_made (closed : a.Closed) {kind : Kind} (inside : ∀ ty ∈ kind.parts, a.InRange ty) :
    Ensures (pure (append kind a) : Except Fault (Ty × Arena)) (Made a) :=
  .pure ⟨⟨by simp [append], closed.push inside none⟩, inRange_ref.mpr (by simp [append])⟩

theorem plain_made (known : Known declared a) (closed : a.Closed) (text head : String)
    (args : List (Option Ty)) :
    Ensures (match args, Primitive.ofName? head, declared.lookup head with
      | [], some p, _ => pure (.prim p, a)
      | [], none, some id => pure (.ref id, a)
      | _, _, _ => throw (.format (.unknownTypeIn head text)) : Except Fault (Ty × Arena)) (Made a) := by
  split
  · exact .pure ⟨⟨le_rfl, closed⟩, inRange_prim a _⟩
  · exact .pure ⟨⟨le_rfl, closed⟩, inRange_ref.mpr (known _ _ ‹_›)⟩
  · exact .throw _

theorem apply_made (known : Known declared a) (closed : a.Closed) {args : List (Option Ty)}
    (inside : ∀ ty, some ty ∈ args → a.InRange ty) (text head : String) :
    Ensures (apply declared text head args a) (Made a) := by
  have plain := plain_made known closed text
  rw [apply.eq_def]
  dsimp only
  split
  · split
    · exact append_made closed fun ty part => inside ty (by simpa [Kind.parts] using part)
    · exact plain _ _
  case h_4 => exact append_made closed (by simp [Kind.parts])
  case h_7 => exact plain _ _
  all_goals exact append_made closed fun ty part => inside ty (by simpa [Kind.parts] using part)

def Reads {α : Type} (a : Arena) (inside : Arena → α → Prop)
    (reading : Except Fault (Reading α)) : Prop :=
  Ensures reading fun (read, b, _) => Grown a b ∧ inside b read

theorem read_grown_within (text : String) (depth : Nat) :
    (∀ {a : Arena}, Known declared a → a.Closed → ∀ tokens,
      Reads a InRange (readType declared text depth a tokens)) ∧
    (∀ {a : Arena}, Known declared a → a.Closed → ∀ tokens,
      Reads a (fun b args => ∀ ty, some ty ∈ args → b.InRange ty) (readArgs declared text depth a tokens)) ∧
    ∀ {a : Arena}, Known declared a → a.Closed → ∀ tokens,
      Reads a (fun b arg => ∀ ty, some ty = arg → b.InRange ty) (readArg declared text depth a tokens) := by
  induction depth with
  | zero =>
    refine ⟨fun known closed tokens => ?_, fun known closed tokens => ?_, fun known closed tokens => ?_⟩
    · rw [readType.eq_def]
      exact .throw _
    · rw [readArgs.eq_def]
      exact .throw _
    · rw [readArg.eq_def]
      split
      · exact .pure ⟨⟨le_rfl, closed⟩, by simp⟩
      · exact .throw _
      · cases ‹0 = _ + 1›
  | succ depth ih =>
    obtain ⟨type, args, arg⟩ := ih
    refine ⟨fun {a} known closed tokens => ?_, fun {a} known closed tokens => ?_,
      fun {a} known closed tokens => ?_⟩
    · rw [readType.eq_def]
      split
      · cases ‹depth + 1 = _›
        refine Ensures.bind (args known closed _) fun (given, b, rest) ⟨grown, inside⟩ => ?_
        refine Ensures.bind (apply_made (known.mono grown.le) grown.closed inside _ _)
          fun (ty, c) ⟨more, made⟩ => .pure ⟨⟨grown.le.trans more.le, more.closed⟩, made⟩
      · cases ‹depth + 1 = _›
        refine Ensures.bind (apply_made known closed (by simp) _ _) fun (ty, c) made => .pure made
      · exact .throw _
    · rw [readArgs.eq_def]
      refine Ensures.bind (arg known closed tokens) fun (given, b, rest) ⟨grown, inside⟩ => ?_
      dsimp only
      split
      · exact .throw _
      · exact .pure ⟨grown, by simpa using inside⟩
      · refine Ensures.bind (args (known.mono grown.le) grown.closed _)
          fun (others, c, rest) ⟨more, also⟩ => .pure ⟨⟨grown.le.trans more.le, more.closed⟩, ?_⟩
        intro ty member
        rcases List.mem_cons.mp member with first | behind
        · exact (inside ty first).mono more.le
        · exact also ty behind
      · exact .throw _
    · rw [readArg.eq_def]
      split
      · exact .pure ⟨⟨le_rfl, closed⟩, by simp⟩
      · cases ‹depth + 1 = 0›
      · cases ‹depth + 1 = _›
        refine Ensures.bind (type known closed _) fun (ty, b, rest) ⟨grown, inside⟩ => .pure ⟨grown, ?_⟩
        rintro other same
        cases same
        exact inside

theorem read_grown (known : Known declared a) (closed : a.Closed) (text : String) :
    Ensures (read declared text a) fun (ty, b) => Grown a b ∧ b.InRange ty := by
  rw [read.eq_def]
  dsimp only
  split
  · exact .throw _
  · refine Ensures.bind ((read_grown_within text _).1 known closed _) fun (ty, b, rest) made => ?_
    dsimp only
    split
    · exact .pure made
    · exact .throw _

end TypeExpr

end ZigBindings
