import ZigBindings.Proofs.Types.Crossable
import ZigBindings.Proofs.Types.Rank
import ZigBindings.Zig.Spelling

/-! The check in front of the generator. It passes the types that have a spelling, and for entry
points also options and lists of these; every other type is refused by the name of its kind. -/

namespace ZigBindings
open Zig

/-- Primitives, and tuples of nothing else. -/
inductive Spellable (a : Arena) : Ty → Prop where
  | prim (p : Primitive) : Spellable a (.prim p)
  | tuple {id : Nat} {elements : List Ty} (found : a.kind id = .ok (.tuple elements))
    (each : ∀ ty ∈ elements, Spellable a ty) : Spellable a (.ref id)

/-- Primitives, options and lists of spellable types, and tuples of nothing else. -/
inductive Passable (a : Arena) : Ty → Prop where
  | prim (p : Primitive) : Passable a (.prim p)
  | tuple {id : Nat} {elements : List Ty} (found : a.kind id = .ok (.tuple elements))
    (each : ∀ ty ∈ elements, Passable a ty) : Passable a (.ref id)
  | option {id : Nat} {payload : Ty} (found : a.kind id = .ok (.option payload))
    (inner : Spellable a payload) : Passable a (.ref id)
  | list {id : Nat} {element : Ty} (found : a.kind id = .ok (.list element))
    (inner : Spellable a element) : Passable a (.ref id)

theorem Spellable.passable {a : Arena} {ty : Ty} (spellable : Spellable a ty) : Passable a ty := by
  induction spellable with
  | prim p => exact .prim p
  | tuple found _ ih => exact .tuple found ih

theorem spellable_iff {a : Arena} {id : Nat} {kind : Kind} (found : a.kind id = .ok kind) :
    Spellable a (.ref id) ↔
      match kind with
      | .tuple elements => ∀ ty ∈ elements, Spellable a ty
      | _ => False := by
  constructor
  · intro spellable
    cases spellable with
    | tuple found' each =>
      rw [found] at found'
      cases found'
      exact each
  · cases kind with
    | tuple elements => exact .tuple found
    | _ => exact False.elim

theorem passable_iff {a : Arena} {id : Nat} {kind : Kind} (found : a.kind id = .ok kind) :
    Passable a (.ref id) ↔
      match kind with
      | .tuple elements => ∀ ty ∈ elements, Passable a ty
      | .option inner | .list inner => Spellable a inner
      | _ => False := by
  constructor
  · intro passable
    cases passable with
    | tuple found' inner | option found' inner | list found' inner =>
      rw [found] at found'
      cases found'
      exact inner
  · cases kind with
    | tuple elements => exact .tuple found
    | option payload => exact .option found
    | list element => exact .list found
    | _ => exact False.elim

namespace Arena

/-- The id of the type, if it has one, lies in the arena. -/
def InRange (a : Arena) (ty : Ty) : Prop := ∀ id, ty = .ref id → id < a.size

/-- A tuple has another definition as an element. -/
def Holds (a : Arena) (id other : Nat) : Prop :=
  ∃ elements, a.kind id = .ok (.tuple elements) ∧ .ref other ∈ elements

/-- Every id is in range, and no tuple contains itself by value. -/
structure Tame (a : Arena) : Prop where
  inRange : ∀ id other, a.Refers id other → other < a.size
  apart : ∀ id, ¬ Relation.TransGen a.Holds id id

def Unsupported (a : Arena) (fault : Fault) : Prop :=
  ∃ id kind, a.kind id = .ok kind ∧ fault = .unsupportedType kind id

theorem Tame.part {a : Arena} (tame : a.Tame) {id : Nat} {kind : Kind} {ty : Ty}
    (found : a.kind id = .ok kind) (member : ty ∈ kind.parts) : a.InRange ty := by
  rintro other rfl
  exact tame.inRange id other ⟨kind, found, member⟩

end Arena

variable {a : Arena}

theorem Arena.Tame.deep_element (tame : a.Tame) {id depth : Nat} {elements : List Ty}
    (found : a.kind id = .ok (.tuple elements)) (deep : rank a.Holds a.size id < depth + 1)
    {ty : Ty} (member : ty ∈ elements) :
    ∀ other, ty = .ref other → rank a.Holds a.size other < depth := by
  rintro other rfl
  have lower : rank a.Holds a.size other < rank a.Holds a.size id :=
    rank_lt ⟨elements, found, member⟩ (tame.part found member other rfl) (tame.apart other)
  omega

theorem spellWithin_decides (tame : a.Tame) {depth : Nat} {ty : Ty} (inRange : a.InRange ty)
    (deep : ∀ id, ty = .ref id → rank a.Holds a.size id < depth) :
    Decides (spellWithin a depth ty) (Spellable a ty) a.Unsupported := by
  induction depth generalizing ty with
  | zero =>
    cases ty with
    | prim p => exact .prim p
    | ref id => exact absurd (deep id rfl) (Nat.not_lt_zero _)
  | succ depth ih =>
    cases ty with
    | prim p => exact .prim p
    | ref id =>
      obtain ⟨kind, found⟩ := Arena.kind_of_lt (inRange id rfl)
      simp only [spellWithin, found, ok_bind]
      refine Decides.congr ?_ (spellable_iff found).symm
      cases kind with
      | tuple elements =>
        have each : Decides (elements.mapM (spellWithin a depth)) (∀ ty ∈ elements, Spellable a ty)
            a.Unsupported := .mapM fun ty member =>
          ih (tame.part found member) (tame.deep_element found (deep id rfl) member)
        exact (each.bind fun parts => .pure _).congr (and_true _).to_iff
      | _ => exact ⟨False.elim, id, _, found, rfl⟩

theorem Arena.Tame.deep (tame : a.Tame) {ty : Ty} (inRange : a.InRange ty) :
    ∀ id, ty = .ref id → rank a.Holds a.size id < a.depth := fun id reference =>
  Nat.lt_succ_of_lt (rank_lt_bound (inRange id reference) (tame.apart id))

theorem spell_decides (tame : a.Tame) {ty : Ty} (inRange : a.InRange ty) :
    Decides (spell a ty) (Spellable a ty) a.Unsupported :=
  spellWithin_decides tame inRange (tame.deep inRange)

theorem checkWithin_decides (tame : a.Tame) {depth : Nat} {ty : Ty} (inRange : a.InRange ty)
    (deep : ∀ id, ty = .ref id → rank a.Holds a.size id < depth) :
    Decides (checkWithin a depth ty) (Passable a ty) a.Unsupported := by
  induction depth generalizing ty with
  | zero =>
    cases ty with
    | prim p => exact .prim p
    | ref id => exact absurd (deep id rfl) (Nat.not_lt_zero _)
  | succ depth ih =>
    cases ty with
    | prim p => exact .prim p
    | ref id =>
      obtain ⟨kind, found⟩ := Arena.kind_of_lt (inRange id rfl)
      simp only [checkWithin, found, ok_bind]
      refine Decides.congr ?_ (passable_iff found).symm
      cases kind with
      | tuple elements =>
        exact .forM fun ty member =>
          ih (tame.part found member) (tame.deep_element found (deep id rfl) member)
      | option inner | list inner =>
        have spelled := spell_decides tame (tame.part found (List.mem_singleton_self inner))
        exact (spelled.bind fun text => .pure ()).congr (and_true _).to_iff
      | _ => exact ⟨False.elim, id, _, found, rfl⟩

theorem check_decides (tame : a.Tame) {ty : Ty} (inRange : a.InRange ty) :
    Decides (check a ty) (Passable a ty) a.Unsupported :=
  checkWithin_decides tame inRange (tame.deep inRange)

end ZigBindings
