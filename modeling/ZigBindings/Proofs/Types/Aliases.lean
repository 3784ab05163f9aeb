import ZigBindings.Proofs.Types.Level

/-! Aliases that nobody follows. Two arenas that differ only in where their aliases lead accept the
same types, and lay out every accepted type alike. -/

namespace ZigBindings
open Zig

/-- The same definitions, apart from the targets of aliases. -/
structure Arena.Alike (a b : Arena) : Prop where
  size : b.size = a.size
  kind : ∀ id, b.kind id = a.kind id ∨
    (∃ target, b.kind id = .ok (.alias target)) ∧ ∃ target, a.kind id = .ok (.alias target)

section
variable {a b : Arena} (alike : a.Alike b)
include alike

theorem Arena.Alike.depth : b.depth = a.depth := by
  rw [Arena.depth, Arena.depth, alike.size]

theorem Arena.Alike.found {id : Nat} {kind : Kind} (found : a.kind id = .ok kind)
    (plain : ∀ target, kind ≠ .alias target) : b.kind id = .ok kind := by
  rcases alike.kind id with same | ⟨_, target, other⟩
  · rw [same, found]
  · rw [found] at other
    exact absurd (Except.ok.inj other) (plain target)

theorem spellWithin_alike (depth : Nat) : spellWithin b depth = spellWithin a depth := by
  induction depth with
  | zero => funext ty; cases ty <;> rfl
  | succ depth ih =>
    funext ty
    cases ty with
    | prim p => rfl
    | ref id =>
      rcases alike.kind id with same | ⟨⟨target, here⟩, target', there⟩
      · simp only [spellWithin, same, ih]
      · simp only [spellWithin, here, there, ok_bind]
        rfl

theorem spell_alike : spell b = spell a := by
  funext ty
  rw [spell, spell, alike.depth, spellWithin_alike alike]

theorem checkWithin_alike (depth : Nat) : checkWithin b depth = checkWithin a depth := by
  induction depth with
  | zero => funext ty; cases ty <;> rfl
  | succ depth ih =>
    funext ty
    cases ty with
    | prim p => rfl
    | ref id =>
      rcases alike.kind id with same | ⟨⟨target, here⟩, target', there⟩
      · simp only [checkWithin, same, ih, spell_alike alike]
      · simp only [checkWithin, here, there, ok_bind]
        rfl

theorem check_alike : check b = check a := by
  funext ty
  rw [check, check, alike.depth, checkWithin_alike alike]

theorem Spellable.of_alike {ty : Ty} (spellable : Spellable a ty) : Spellable b ty := by
  induction spellable with
  | prim p => exact .prim p
  | tuple found _ ih => exact .tuple (alike.found found (by simp)) ih

theorem Passable.of_alike {ty : Ty} (passable : Passable a ty) : Passable b ty := by
  induction passable with
  | prim p => exact .prim p
  | tuple found _ ih => exact .tuple (alike.found found (by simp)) ih
  | option found inner => exact .option (alike.found found (by simp)) (inner.of_alike alike)
  | list found inner => exact .list (alike.found found (by simp)) (inner.of_alike alike)

theorem Passable.flattenWithin_alike {ty : Ty} (passable : Passable a ty) (depth : Nat) :
    Layout.flattenWithin b depth ty = Layout.flattenWithin a depth ty := by
  induction depth generalizing ty with
  | zero => cases ty <;> rfl
  | succ depth ih =>
    cases passable with
    | prim p => rfl
    | tuple found each =>
      have there := alike.found found (by simp)
      simp only [Layout.flattenWithin, found, there, ok_bind]
      rw [mapM_congr fun ty member => ih (each ty member)]
    | option found inner =>
      have there := alike.found found (by simp)
      simp only [Layout.flattenWithin, found, there, ok_bind, ih inner.passable]
    | list found inner =>
      have there := alike.found found (by simp)
      simp only [Layout.flattenWithin, found, there, ok_bind]

theorem Passable.measureWithin_alike {ty : Ty} (passable : Passable a ty) (depth : Nat) :
    Layout.measureWithin b depth ty = Layout.measureWithin a depth ty := by
  induction depth generalizing ty with
  | zero => cases ty <;> rfl
  | succ depth ih =>
    cases passable with
    | prim p => rfl
    | tuple found each =>
      have there := alike.found found (by simp)
      simp only [Layout.measureWithin, found, there, ok_bind]
      rw [mapM_congr fun ty member => ih (each ty member)]
    | option found inner =>
      have there := alike.found found (by simp)
      simp only [Layout.measureWithin, found, there, ok_bind, ih inner.passable]
    | list found inner =>
      have there := alike.found found (by simp)
      simp only [Layout.measureWithin, found, there, ok_bind]

theorem Passable.flatten_alike {ty : Ty} (passable : Passable a ty) :
    Layout.flatten b ty = Layout.flatten a ty := by
  rw [Layout.flatten, Layout.flatten, alike.depth, passable.flattenWithin_alike alike]

theorem Passable.measure_alike {ty : Ty} (passable : Passable a ty) :
    Layout.measure b ty = Layout.measure a ty := by
  rw [Layout.measure, Layout.measure, alike.depth, passable.measureWithin_alike alike]

theorem Passable.unalias_alike {ty : Ty} (passable : Passable a ty) :
    b.unalias ty = a.unalias ty := by
  rw [passable.unalias_eq, (passable.of_alike alike).unalias_eq]

variable {types : List Ty} (passable : ∀ ty ∈ types, Passable a ty)
include passable

theorem flattenAll_alike : Layout.flattenAll b types = Layout.flattenAll a types := by
  have rows : types.mapM (Layout.flatten b) = types.mapM (Layout.flatten a) :=
    mapM_congr fun ty member => (passable ty member).flatten_alike alike
  rw [Layout.flattenAll, Layout.flattenAll, rows]

theorem measureAll_alike : Layout.measureAll b types = Layout.measureAll a types :=
  mapM_congr fun ty member => (passable ty member).measure_alike alike

theorem fieldOffsets_alike : Layout.fieldOffsets b types = Layout.fieldOffsets a types := by
  rw [Layout.fieldOffsets, Layout.fieldOffsets, measureAll_alike alike passable]

theorem recordLayout_alike : Layout.recordLayout b types = Layout.recordLayout a types := by
  rw [Layout.recordLayout, Layout.recordLayout, measureAll_alike alike passable]

end

end ZigBindings
