import ZigBindings.Proofs.Types.Layouts

/-! What the values of a type are made of, and which types have values that are never carried. -/

namespace ZigBindings

/-- Kinds whose values are never carried. -/
def Kind.Refused : Kind → Prop
  | .variant _ | .flags _ | .result _ _ | .resource => True
  | _ => False

theorem Kind.product_parts {kind : Kind} {form : Form} {types : List Ty}
    (shape : kind.product? = some (form, types)) : kind.parts = types := by
  cases kind <;> cases shape <;> rfl

theorem Kind.product_carried {kind : Kind} {form : Form} {types : List Ty}
    (shape : kind.product? = some (form, types)) : ¬ kind.Refused := by
  cases kind <;> first | exact fun never => never | cases shape

namespace Arena

/-- What a type contains: itself, and through fields, elements, payloads and the targets of aliases
what these contain. A refused type keeps what is inside it to itself. -/
inductive Contains (a : Arena) (ty : Ty) : Ty → Prop where
  | self : a.Contains ty ty
  | part {id : Nat} {kind : Kind} {inner : Ty} (outer : a.Contains ty (.ref id))
    (found : a.kind id = .ok kind) (carried : ¬ kind.Refused) (member : inner ∈ kind.parts) :
    a.Contains ty inner

def Refuses (a : Arena) (ty : Ty) (id : Nat) (kind : Kind) : Prop :=
  a.Contains ty (.ref id) ∧ a.kind id = .ok kind ∧ kind.Refused

/-- No refused definition is contained in the type. -/
def Supports (a : Arena) (ty : Ty) : Prop := ∀ id kind, ¬ a.Refuses ty id kind

/-- The fault names a refused definition that the type contains, and its kind. -/
def Blames (a : Arena) (ty : Ty) (fault : Fault) : Prop :=
  ∃ id kind, a.Refuses ty id kind ∧ fault = .unsupportedType kind id

/-- Something that the type contains has no layout, since a quotient in it is beyond all doubles. -/
def Oversized (a : Arena) (ty : Ty) : Prop :=
  ∃ inner, a.Contains ty inner ∧ Layout.Overflows (Layout.measure a inner)

variable {a : Arena} {id : Nat} {kind : Kind} {ty : Ty}

theorem Contains.trans {outer inner : Ty} (first : a.Contains outer ty) (second : a.Contains ty inner) :
    a.Contains outer inner := by
  induction second with
  | self => exact first
  | part _ found carried member ih => exact .part ih found carried member

theorem contains_iff (found : a.kind id = .ok kind) {inner : Ty} :
    a.Contains (.ref id) inner ↔
      inner = .ref id ∨ ¬ kind.Refused ∧ ∃ ty ∈ kind.parts, a.Contains ty inner := by
  constructor
  · intro contained
    induction contained with
    | self => exact .inl rfl
    | @part other kind' inner outer found' carried member ih =>
      right
      rcases ih with same | ⟨carriedHere, ty, part, within⟩
      · cases same
        cases found.symm.trans found'
        exact ⟨carried, inner, member, .self⟩
      · exact ⟨carriedHere, ty, part, .part within found' carried member⟩
  · rintro (rfl | ⟨carried, ty, part, within⟩)
    · exact .self
    · exact (Contains.part .self found carried part).trans within

theorem Oversized.self (overflows : Layout.Overflows (Layout.measure a ty)) : a.Oversized ty :=
  ⟨ty, .self, overflows⟩

theorem Contains.oversized {outer : Ty} (contains : a.Contains outer ty) (oversized : a.Oversized ty) :
    a.Oversized outer := by
  obtain ⟨inner, within, overflows⟩ := oversized
  exact ⟨inner, contains.trans within, overflows⟩

theorem Oversized.part (found : a.kind id = .ok kind) (carried : ¬ kind.Refused)
    (member : ty ∈ kind.parts) (oversized : a.Oversized ty) : a.Oversized (.ref id) :=
  (Contains.part .self found carried member).oversized oversized

theorem Founded.oversized_product (founded : a.Founded (.ref id)) (found : a.kind id = .ok kind)
    {form : Form} {types : List Ty} (shape : kind.product? = some (form, types))
    (overflows : Layout.Overflows (Layout.recordLayout a types)) : a.Oversized (.ref id) :=
  .self (by rwa [founded.measure_product found shape])

theorem not_oversized (each : ∀ place : Fin a.size, ¬ Layout.Overflows (Layout.measure a (.ref place)))
    (ty : Ty) : ¬ a.Oversized ty := by
  rintro ⟨_ | id, -, overflows⟩
  · cases overflows
  · by_cases inside : id < a.size
    · exact each ⟨id, inside⟩ overflows
    · have outside : a.kind id = .error .dangling := by simp [kind, typedef, inside, Except.map, throw_eq_error]
      rw [Layout.Overflows, Layout.measure, depth, Layout.measureWithin, outside] at overflows
      cases overflows

theorem Contains.blames {outer : Ty} {fault : Fault} (contains : a.Contains outer ty)
    (blames : a.Blames ty fault) : a.Blames outer fault := by
  obtain ⟨id, kind, ⟨within, found, refused⟩, same⟩ := blames
  exact ⟨id, kind, ⟨contains.trans within, found, refused⟩, same⟩

theorem Contains.of_prim {p : Primitive} (contains : a.Contains (.prim p) ty) : ty = .prim p := by
  induction contains with
  | self => rfl
  | part _ _ _ _ ih => cases ih

theorem supports_prim (p : Primitive) : a.Supports (.prim p) := by
  rintro id kind ⟨contains, -, -⟩
  cases contains.of_prim

theorem supports_iff (found : a.kind id = .ok kind) :
    a.Supports (.ref id) ↔ ¬ kind.Refused ∧ ∀ ty ∈ kind.parts, a.Supports ty := by
  constructor
  · intro supports
    have carried : ¬ kind.Refused := fun refused => supports id kind ⟨.self, found, refused⟩
    refine ⟨carried, fun ty member other kind' refuses => ?_⟩
    obtain ⟨within, also, refused⟩ := refuses
    exact supports other kind' ⟨(Contains.part .self found carried member).trans within, also, refused⟩
  · rintro ⟨carried, parts⟩ other kind' ⟨contains, also, refused⟩
    rcases (contains_iff found).mp contains with same | ⟨-, ty, member, within⟩
    · cases same
      cases found.symm.trans also
      exact carried refused
    · exact parts ty member other kind' ⟨within, also, refused⟩

theorem refuted_of_blames {fault : Fault} (blames : a.Blames ty fault) : ¬ a.Supports ty := by
  obtain ⟨id, kind, refuses, -⟩ := blames
  exact fun supports => supports id kind refuses

/-- What an alias leads to: a primitive or a definition of another kind, no deeper than the alias, with
its layout, and supported exactly if the alias is. -/
structure Core (a : Arena) (ty core : Ty) : Prop where
  founded : a.Founded core
  level : a.level core ≤ a.level ty
  layout : Layout.measure a core = Layout.measure a ty
  contains : a.Contains ty core
  supports : a.Supports core → a.Supports ty
  plain : ∀ id, core = .ref id → ∃ kind, a.kind id = .ok kind ∧ ∀ target, kind ≠ .alias target

theorem Founded.unaliasWithin_core (founded : a.Founded ty) {depth : Nat} (deep : a.level ty ≤ depth) :
    ∃ core, a.unaliasWithin depth ty = .ok core ∧ a.Core ty core := by
  induction founded generalizing depth with
  | prim p =>
    have core : a.Core (.prim p) (.prim p) :=
      ⟨.prim p, le_rfl, rfl, .self, id, fun id absurd => by cases absurd⟩
    exact ⟨.prim p, by cases depth <;> rfl, core⟩
  | @ref id kind found parts ih =>
    obtain ⟨depth, rfl⟩ := Arena.exists_depth deep
    have founded := Founded.ref found parts
    have stays (plain : ∀ target, kind ≠ .alias target) : a.Core (.ref id) (.ref id) :=
      ⟨founded, le_rfl, rfl, .self, fun supports => supports, fun id' same => by
        cases same
        exact ⟨kind, found, plain⟩⟩
    simp only [unaliasWithin, found, ok_bind]
    cases kind with
    | «alias» target =>
      have member : target ∈ (Kind.alias target).parts := List.mem_singleton_self target
      obtain ⟨core, reached, holds⟩ := ih target member (founded.deep found deep target member)
      refine ⟨core, reached, holds.founded, ?_, ?_, ?_, fun supports => ?_, holds.plain⟩
      · exact holds.level.trans (Nat.le_of_lt (founded.level_lt found member))
      · exact holds.layout.trans (founded.measure_alias found).symm
      · exact (Contains.part .self found (fun refused => refused) member).trans holds.contains
      · refine (supports_iff found).mpr ⟨fun refused => refused, fun ty part => ?_⟩
        cases List.mem_singleton.mp part
        exact holds.supports supports
    | _ => exact ⟨.ref id, rfl, stays fun target => by simp⟩

theorem Founded.unalias_core (founded : a.Founded ty) :
    ∃ core, a.unalias ty = .ok core ∧ a.Core ty core := founded.unaliasWithin_core founded.depth_le

theorem Core.founded_product (core : a.Core ty (.ref id)) (found : a.kind id = .ok kind) {form : Form}
    {types : List Ty} (shape : kind.product? = some (form, types)) : ∀ ty ∈ types, a.Founded ty := by
  rw [← Kind.product_parts shape]
  exact core.founded.parts found

end Arena

theorem Passable.carried {a : Arena} {id : Nat} {kind : Kind} (passable : Passable a (.ref id))
    (found : a.kind id = .ok kind) : ¬ kind.Refused := by
  have shape := (passable_iff found).mp passable
  cases kind <;> first | exact fun refused => refused | exact shape.elim

theorem Passable.oversized_part {a : Arena} {id : Nat} {kind : Kind} {ty : Ty}
    (passable : Passable a (.ref id)) (found : a.kind id = .ok kind) (member : ty ∈ kind.parts)
    (oversized : a.Oversized ty) : a.Oversized (.ref id) :=
  oversized.part found (passable.carried found) member

end ZigBindings
