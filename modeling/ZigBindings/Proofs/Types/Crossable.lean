import Mathlib.Data.Fintype.EquivFin
import Mathlib.Logic.Relation
import ZigBindings.Proofs.Types.Walk

/-! Types whose values can be carried across: those built from primitives, tuples, records,
enumerations, options, lists and aliases with layouts below 2^32 bytes. Being built in finitely many
steps, such a type refers to nothing outside its arena and never to itself. -/

namespace ZigBindings

def Kind.parts : Kind → List Ty
  | .record fields => fields.map (·.2)
  | .tuple elements => elements
  | .variant cases => cases.filterMap (·.2)
  | .option payload => [payload]
  | .result ok err => [ok, err].filterMap fun c => c
  | .list element => [element]
  | .alias target => [target]
  | .enumeration _ | .flags _ | .resource => []

/-- Kinds whose values are carried. A discriminant has four bytes at most. -/
def Kind.Carried : Kind → Prop
  | .record _ | .tuple _ | .option _ | .list _ | .alias _ => True
  | .enumeration cases => cases.length ≤ 2 ^ 32
  | .variant _ | .flags _ | .result _ _ | .resource => False

def Arena.Fits (a : Arena) (ty : Ty) : Prop :=
  ∃ extent, Layout.measure a ty = .ok extent ∧ extent.size < 2 ^ 32

inductive Crossable (a : Arena) : Ty → Prop where
  | prim (p : Primitive) : Crossable a (.prim p)
  | ref {id : Nat} {kind : Kind} (found : a.kind id = .ok kind) (carried : kind.Carried)
    (fits : a.Fits (.ref id)) (parts : ∀ ty ∈ kind.parts, Crossable a ty) : Crossable a (.ref id)

/-- Types whose values can stand in slots: those built from the same kinds, of any size. Only the
elements of lists lie in memory, so they need layouts. -/
inductive Slottable (a : Arena) : Ty → Prop where
  | prim (p : Primitive) : Slottable a (.prim p)
  | ref {id : Nat} {kind : Kind} (found : a.kind id = .ok kind) (carried : kind.Carried)
    (elements : ∀ element, kind = .list element → ∃ extent, Layout.measure a element = .ok extent)
    (parts : ∀ ty ∈ kind.parts, Slottable a ty) : Slottable a (.ref id)

theorem Crossable.measured {a : Arena} {ty : Ty} (crossable : Crossable a ty) : a.Fits ty := by
  cases crossable with
  | prim p => exact ⟨Layout.primitiveExtent p, rfl, by cases p <;> decide⟩
  | ref _ _ fits _ => exact fits

theorem Crossable.slottable {a : Arena} {ty : Ty} (crossable : Crossable a ty) : Slottable a ty := by
  induction crossable with
  | prim p => exact .prim p
  | ref found carried _ parts ih =>
    refine .ref found carried (fun element same => ?_) ih
    subst same
    obtain ⟨extent, measured, -⟩ := (parts element (by simp [Kind.parts])).measured
    exact ⟨extent, measured⟩

def Arena.Refers (a : Arena) (id other : Nat) : Prop :=
  ∃ kind, a.kind id = .ok kind ∧ .ref other ∈ kind.parts

/-- Every id is in range, and no definition leads back to itself. -/
structure Arena.WellFounded (a : Arena) : Prop where
  inRange : ∀ id other, a.Refers id other → other < a.size
  acyclic : ∀ id, ¬ Relation.TransGen a.Refers id id

/-- What a type leads to, itself included. -/
inductive Arena.Reaches (a : Arena) (ty : Ty) : Ty → Prop where
  | self : a.Reaches ty ty
  | part {id : Nat} {kind : Kind} {inner : Ty} (outer : a.Reaches ty (.ref id))
    (found : a.kind id = .ok kind) (member : inner ∈ kind.parts) : a.Reaches ty inner

theorem Arena.kind_of_lt {a : Arena} {id : Nat} (inside : id < a.size) :
    ∃ kind, a.kind id = .ok kind :=
  ⟨a[id].kind, by simp [Arena.kind, Arena.typedef, inside, pure_eq_ok, Except.map]⟩

theorem Arena.Reaches.trans_part {a : Arena} {ty inner : Ty} {id : Nat} {kind : Kind}
    (found : a.kind id = .ok kind) (member : ty ∈ kind.parts) (reached : a.Reaches ty inner) :
    a.Reaches (.ref id) inner := by
  induction reached with
  | self => exact .part .self found member
  | part _ found member ih => exact .part ih found member

/-- In a well-founded arena, what is passed on from a definition to those it refers to holds of
everything that a type leads to. -/
theorem wellFounded_induction {a : Arena} (wf : a.WellFounded) {motive : Ty → Prop}
    (prim : ∀ p, motive (.prim p))
    (ref : ∀ id kind, a.kind id = .ok kind → (∀ ty ∈ kind.parts, motive ty) → motive (.ref id))
    {ty : Ty} (inRange : ∀ id, ty = .ref id → id < a.size) : motive ty := by
  let below (other id : Fin a.size) : Prop := Relation.TransGen a.Refers id other
  have transitive : IsTrans (Fin a.size) below := ⟨fun _ _ _ first second => second.trans first⟩
  have irreflexive : Std.Irrefl below := ⟨fun id around => wf.acyclic id around⟩
  have acyclic : WellFounded below := Finite.wellFounded_of_trans_of_irrefl below
  cases ty with
  | prim p => exact prim p
  | ref id =>
    have inside := inRange id rfl
    obtain ⟨place, rfl⟩ : ∃ place : Fin a.size, place.val = id := ⟨⟨id, inside⟩, rfl⟩
    clear inRange inside
    induction place using acyclic.induction with
    | _ place ih =>
      obtain ⟨kind, found⟩ := Arena.kind_of_lt place.isLt
      refine ref place kind found fun inner member => ?_
      cases inner with
      | prim p => exact prim p
      | ref other =>
        have refers : a.Refers place other := ⟨kind, found, member⟩
        exact ih ⟨other, wf.inRange _ _ refers⟩ (.single refers)

/-- All that a type leads to is carried and has a layout below 2^32 bytes. -/
def Arena.Carries (a : Arena) (ty : Ty) : Prop :=
  ∀ id kind, a.Reaches ty (.ref id) → a.kind id = .ok kind → kind.Carried ∧ a.Fits (.ref id)

/-- In a well-founded arena nothing more is asked of a type that is carried across. -/
theorem Crossable.of_wellFounded {a : Arena} (wf : a.WellFounded) {ty : Ty}
    (inRange : ∀ id, ty = .ref id → id < a.size) (carried : a.Carries ty) : Crossable a ty := by
  refine wellFounded_induction wf (motive := fun ty => a.Carries ty → Crossable a ty)
    (fun p _ => .prim p) (fun id kind found each carried => ?_) inRange carried
  obtain ⟨isCarried, fits⟩ := carried id kind .self found
  exact .ref found isCarried fits fun inner member => each inner member fun id kind reached =>
    carried id kind (reached.trans_part found member)

/-- All that a type leads to is carried, and what lies in lists has a layout. -/
def Arena.CarriesInSlots (a : Arena) (ty : Ty) : Prop :=
  ∀ id kind, a.Reaches ty (.ref id) → a.kind id = .ok kind → kind.Carried ∧
    ∀ element, kind = .list element → ∃ extent, Layout.measure a element = .ok extent

/-- In a well-founded arena nothing more is asked of a type whose values stand in slots. -/
theorem Slottable.of_wellFounded {a : Arena} (wf : a.WellFounded) {ty : Ty}
    (inRange : ∀ id, ty = .ref id → id < a.size) (carried : a.CarriesInSlots ty) :
    Slottable a ty := by
  refine wellFounded_induction wf (motive := fun ty => a.CarriesInSlots ty → Slottable a ty)
    (fun p _ => .prim p) (fun id kind found each carried => ?_) inRange carried
  obtain ⟨isCarried, elements⟩ := carried id kind .self found
  exact .ref found isCarried elements fun inner member => each inner member fun id kind reached =>
    carried id kind (reached.trans_part found member)

private theorem exists_fields {types : List Ty} {described : Tree → Prop}
    (each : ∀ ty ∈ types, ∃ t : Tree, t.type = ty ∧ described t) :
    ∃ fields : List Tree, fields.map Tree.type = types ∧ ∀ field ∈ fields, described field := by
  induction types with
  | nil => exact ⟨[], rfl, by simp⟩
  | cons ty rest ih =>
    obtain ⟨t, same, holds⟩ := each ty (by simp)
    obtain ⟨fields, others, all⟩ := ih fun other member => each other (by simp [member])
    refine ⟨t :: fields, by simp [same, others], fun field member => ?_⟩
    rcases List.mem_cons.mp member with rfl | later
    · exact holds
    · exact all field later

private theorem exists_product {a : Arena} {id depth : Nat} {kind : Kind} {form : Form}
    {types : List Ty} {extent : Layout.Extent} (found : a.kind id = .ok kind)
    (shape : kind.product? = some (form, types))
    (measured : Layout.measureWithin a (depth + 1) (.ref id) = .ok extent)
    (each : ∀ ty ∈ types, ∀ extent, Layout.measureWithin a depth ty = .ok extent →
      ∃ t : Tree, t.type = ty ∧ t.Unfolds a ∧ t.extent = extent) :
    ∃ t : Tree, t.type = .ref id ∧ t.Unfolds a ∧ t.extent = extent := by
  have whole : types.mapM (Layout.measureWithin a depth) >>= Layout.recordExtent = .ok extent := by
    simp only [Layout.measureWithin, found, ok_bind] at measured
    cases kind with
    | tuple elements =>
      cases shape
      exact measured
    | record parts =>
      simp only [Kind.product?, Option.some.injEq, Prod.mk.injEq] at shape
      rw [← shape.2, List.mapM_map]
      exact measured
    | _ => simp [Kind.product?] at shape
  obtain ⟨extents, members, outer⟩ := bind_eq_ok.mp whole
  have unfolded : ∀ ty ∈ types, ∃ t : Tree, t.type = ty ∧ t.Unfolds a ∧
      Layout.measureWithin a depth t.type = .ok t.extent := fun ty member => by
    obtain ⟨extent, -, done⟩ := ok_of_mapM members ty member
    obtain ⟨t, rfl, unfolds, rfl⟩ := each ty member extent done
    exact ⟨t, rfl, unfolds, done⟩
  obtain ⟨fields, rfl, all⟩ := exists_fields unfolded
  rw [Tree.mapM_fields fun field member => (all field member).2] at members
  cases members
  obtain ⟨offsets, stop, placed⟩ := Layout.recordExtent_places outer
  exact ⟨.product form id fields offsets extent, rfl, ⟨.of_kind rfl found shape,
    fun _ => ⟨⟨stop, placed⟩, outer⟩, Tree.mirrorsAll_iff.mpr fun field member => (all field member).1⟩,
    rfl⟩

theorem Slottable.exists_tree {a : Arena} {ty : Ty} (slottable : Slottable a ty) {depth : Nat}
    {extent : Layout.Extent} (measured : Layout.measureWithin a depth ty = .ok extent) :
    ∃ t : Tree, t.type = ty ∧ t.Unfolds a ∧ t.extent = extent := by
  induction slottable generalizing depth extent with
  | prim p =>
    have known : Layout.measureWithin a depth (.prim p) = .ok (Layout.primitiveExtent p) := by
      cases depth <;> rfl
    exact ⟨.prim p, rfl, trivial, Except.ok.inj (known.symm.trans measured)⟩
  | @ref id kind found carried elements parts ih =>
    cases depth with
    | zero => cases measured
    | succ depth =>
    have outer := measured
    simp only [Layout.measureWithin, found, ok_bind] at outer
    cases kind with
    | tuple types => exact exists_product found rfl measured fun ty member _ => ih ty member
    | record fields => exact exists_product found rfl measured fun ty member _ => ih ty member
    | enumeration cases =>
      exact ⟨.enumeration id cases.length extent, rfl,
        ⟨.of_kind rfl found ⟨cases, rfl, rfl⟩, carried, fun _ => outer⟩, rfl⟩
    | option payload =>
      obtain ⟨inner, within, outer⟩ := bind_eq_ok.mp outer
      obtain ⟨t, rfl, unfolds, rfl⟩ := ih payload (by simp [Kind.parts]) within
      obtain ⟨start, placed⟩ := Layout.sumExtent_starts outer
      exact ⟨.option id t start extent, rfl,
        ⟨.of_kind rfl found rfl, fun _ => ⟨placed, outer⟩, unfolds⟩, rfl⟩
    | list element =>
      obtain ⟨inner, within⟩ := elements element rfl
      obtain ⟨t, rfl, unfolds, -⟩ := ih element (by simp [Kind.parts]) within
      exact ⟨.list id t, rfl, ⟨.of_kind rfl found rfl, unfolds⟩, Except.ok.inj outer⟩
    | «alias» target =>
      obtain ⟨t, rfl, unfolds, same⟩ := ih target (by simp [Kind.parts]) outer
      exact ⟨.synonym id t, rfl, ⟨.of_kind rfl found rfl, unfolds⟩, same⟩
    | _ => exact carried.elim

private theorem exists_bare_product {a : Arena} {id : Nat} {kind : Kind} {form : Form}
    {types : List Ty} (found : a.kind id = .ok kind) (shape : kind.product? = some (form, types))
    (each : ∀ ty ∈ types, ∃ t : Tree, t.type = ty ∧ t.Mirrors a False) :
    ∃ t : Tree, t.type = .ref id ∧ t.Mirrors a False := by
  obtain ⟨fields, rfl, all⟩ := exists_fields each
  exact ⟨.product form id fields [] default, rfl, .of_kind rfl found shape, False.elim,
    Tree.mirrorsAll_iff.mpr all⟩

/-- A type whose values can stand in slots unfolds to a tree with layouts for what lies in lists. -/
theorem Slottable.exists_mirror {a : Arena} {ty : Ty} (slottable : Slottable a ty) :
    ∃ t : Tree, t.type = ty ∧ t.Mirrors a False := by
  induction slottable with
  | prim p => exact ⟨.prim p, rfl, trivial⟩
  | @ref id kind found carried elements parts ih =>
    cases kind with
    | tuple types => exact exists_bare_product found rfl ih
    | record fields => exact exists_bare_product found rfl ih
    | enumeration cases =>
      exact ⟨.enumeration id cases.length default, rfl, .of_kind rfl found ⟨cases, rfl, rfl⟩, carried,
        False.elim⟩
    | option payload =>
      obtain ⟨t, rfl, inner⟩ := ih payload (by simp [Kind.parts])
      exact ⟨.option id t 0 default, rfl, .of_kind rfl found rfl, False.elim, inner⟩
    | list element =>
      obtain ⟨extent, measured⟩ := elements element rfl
      obtain ⟨t, rfl, unfolds, -⟩ := (parts element (by simp [Kind.parts])).exists_tree measured
      exact ⟨.list id t, rfl, .of_kind rfl found rfl, unfolds⟩
    | «alias» target =>
      obtain ⟨t, rfl, inner⟩ := ih target (by simp [Kind.parts])
      exact ⟨.synonym id t, rfl, .of_kind rfl found rfl, inner⟩
    | _ => exact carried.elim

theorem Crossable.exists_tree {a : Arena} {ty : Ty} (crossable : Crossable a ty) :
    ∃ t : Tree, t.type = ty ∧ t.Unfolds a := by
  obtain ⟨extent, measured, -⟩ := crossable.measured
  obtain ⟨t, same, unfolds, -⟩ := crossable.slottable.exists_tree measured
  exact ⟨t, same, unfolds⟩

theorem exists_trees {a : Arena} {types : List Ty} (crossable : ∀ ty ∈ types, Crossable a ty) :
    ∃ fields : List Tree, fields.map Tree.type = types ∧ Tree.UnfoldsAll a fields := by
  obtain ⟨fields, same, all⟩ := exists_fields fun ty member => (crossable ty member).exists_tree
  exact ⟨fields, same, Tree.mirrorsAll_iff.mpr all⟩

end ZigBindings
