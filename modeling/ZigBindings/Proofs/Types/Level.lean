import ZigBindings.Layout.Flat
import ZigBindings.Proofs.Layout.Range
import ZigBindings.Proofs.Types.Acceptance

/-! How deep a walk over a type has to go. What can be built in finitely many steps never leads back
to itself, so the way down from it is shorter than its arena is large. -/

namespace ZigBindings

/-- Built in finitely many steps from primitives, whatever the kinds of its definitions. -/
inductive Arena.Founded (a : Arena) : Ty → Prop where
  | prim (p : Primitive) : a.Founded (.prim p)
  | ref {id : Nat} {kind : Kind} (found : a.kind id = .ok kind)
    (parts : ∀ ty ∈ kind.parts, a.Founded ty) : a.Founded (.ref id)

/-- The definitions on the longest way down from a type are no more than this. -/
noncomputable def Arena.level (a : Arena) : Ty → Nat
  | .prim _ => 0
  | .ref id => rank a.Refers a.size id + 1

namespace Arena.Founded

variable {a : Arena}

theorem parts {id : Nat} {kind : Kind} (founded : a.Founded (.ref id))
    (found : a.kind id = .ok kind) : ∀ ty ∈ kind.parts, a.Founded ty := by
  cases founded with
  | ref found' parts =>
    rw [found] at found'
    cases found'
    exact parts

theorem apart {ty : Ty} (founded : a.Founded ty) :
    ∀ id, ty = .ref id → ¬ Relation.TransGen a.Refers id id := by
  induction founded with
  | prim p => rintro id ⟨⟩
  | @ref id kind found parts ih =>
    rintro _ ⟨⟩ around
    obtain ⟨other, refers, back⟩ := Relation.TransGen.head'_iff.mp around
    obtain ⟨kind', found', member⟩ := refers
    rw [found] at found'
    cases found'
    exact ih (.ref other) member other rfl (.tail' back ⟨kind, found, member⟩)

theorem inside {id : Nat} (founded : a.Founded (.ref id)) : id < a.size := by
  cases founded with
  | ref found parts => exact Tree.kind_bounded found

theorem level_le {ty : Ty} (founded : a.Founded ty) : a.level ty ≤ a.size := by
  cases ty with
  | prim p => exact Nat.zero_le _
  | ref id => exact rank_lt_bound founded.inside (founded.apart id rfl)

theorem level_lt {id : Nat} {kind : Kind} {ty : Ty} (founded : a.Founded (.ref id))
    (found : a.kind id = .ok kind) (member : ty ∈ kind.parts) : a.level ty < a.level (.ref id) := by
  have part := founded.parts found ty member
  cases ty with
  | prim p => exact Nat.succ_pos _
  | ref other =>
    exact Nat.succ_lt_succ (rank_lt ⟨kind, found, member⟩ part.inside (part.apart other rfl))

end Arena.Founded

theorem Spellable.founded {a : Arena} {ty : Ty} (spellable : Spellable a ty) : a.Founded ty := by
  induction spellable with
  | prim p => exact .prim p
  | tuple found _ ih => exact .ref found ih

theorem Passable.founded {a : Arena} {ty : Ty} (passable : Passable a ty) : a.Founded ty := by
  induction passable with
  | prim p => exact .prim p
  | tuple found _ ih => exact .ref found ih
  | option found inner | list found inner =>
    exact .ref found fun ty member => by
      cases List.mem_singleton.mp member
      exact inner.founded

variable {a : Arena}

/-- Induction over a passable type that treats the inner type of an option or a list like the
elements of a tuple. -/
theorem Passable.induct {motive : (ty : Ty) → Passable a ty → Prop}
    (prim : ∀ p, motive (.prim p) (.prim p))
    (tuple : ∀ id elements (passable : Passable a (.ref id))
      (_ : a.kind id = .ok (.tuple elements)) (each : ∀ ty ∈ elements, Passable a ty),
      (∀ ty member, motive ty (each ty member)) → motive (.ref id) passable)
    (option : ∀ id payload (passable : Passable a (.ref id))
      (_ : a.kind id = .ok (.option payload)) (inner : Spellable a payload),
      motive payload inner.passable → motive (.ref id) passable)
    (list : ∀ id element (passable : Passable a (.ref id))
      (_ : a.kind id = .ok (.list element)) (inner : Spellable a element),
      motive element inner.passable → motive (.ref id) passable)
    {ty : Ty} (passable : Passable a ty) : motive ty passable := by
  have founded := passable.founded
  induction founded with
  | prim p => exact prim p
  | @ref id kind found _ ih =>
    have shape := (passable_iff found).mp passable
    cases kind with
    | tuple elements =>
      exact tuple id elements passable found shape fun ty member => ih ty member (shape ty member)
    | option payload =>
      exact option id payload passable found shape (ih payload (by simp [Kind.parts]) shape.passable)
    | list element =>
      exact list id element passable found shape (ih element (by simp [Kind.parts]) shape.passable)
    | _ => exact shape.elim

theorem Passable.deep {id depth : Nat} {kind : Kind} {ty : Ty} (passable : Passable a (.ref id))
    (found : a.kind id = .ok kind) (member : ty ∈ kind.parts) (deep : a.level (.ref id) ≤ depth + 1) :
    a.level ty ≤ depth := by
  have lower := passable.founded.level_lt found member
  omega

theorem Passable.under {id depth : Nat} {kind : Kind} {ty : Ty} (passable : Passable a (.ref id))
    (found : a.kind id = .ok kind) (member : ty ∈ kind.parts) (deep : a.level (.ref id) < depth + 1) :
    a.level ty < depth := by
  have lower := passable.founded.level_lt found member
  omega

theorem Arena.level_ref_pos (id : Nat) : 0 < a.level (.ref id) := Nat.succ_pos _

theorem Arena.exists_depth {id depth : Nat} (deep : a.level (.ref id) ≤ depth) :
    ∃ d, depth = d + 1 :=
  ⟨depth - 1, by have := a.level_ref_pos id; omega⟩

private theorem exists_slots {ty : Ty} (passable : Passable a ty) :
    ∃ slots, ∀ depth, a.level ty ≤ depth → Layout.flattenWithin a depth ty = .ok slots := by
  induction passable using Passable.induct with
  | prim p => exact ⟨Layout.primitiveSlots p, fun depth _ => by cases depth <;> rfl⟩
  | tuple id elements passable found each ih =>
    have rows : ∀ types : List Ty, (∀ ty ∈ types, ty ∈ elements) → ∃ rows, ∀ depth,
        a.level (.ref id) ≤ depth + 1 → types.mapM (Layout.flattenWithin a depth) = .ok rows := by
      intro types
      induction types with
      | nil => exact fun _ => ⟨[], fun _ _ => rfl⟩
      | cons ty types others =>
        intro members
        have member := members ty (by simp)
        obtain ⟨row, first⟩ := ih ty member
        obtain ⟨rows, rest⟩ := others fun other member => members other (by simp [member])
        refine ⟨row :: rows, fun depth deep => ?_⟩
        rw [List.mapM_cons, first depth (passable.deep found member deep), rest depth deep]
        rfl
    obtain ⟨rows, all⟩ := rows elements fun _ member => member
    refine ⟨rows.flatten, fun depth deep => ?_⟩
    obtain ⟨depth, rfl⟩ := Arena.exists_depth deep
    simp only [Layout.flattenWithin, found, ok_bind, all depth deep, pure_eq_ok]
  | option id payload passable found inner ih =>
    obtain ⟨slots, flat⟩ := ih
    refine ⟨.i32 :: slots, fun depth deep => ?_⟩
    obtain ⟨depth, rfl⟩ := Arena.exists_depth deep
    have within : a.level payload ≤ depth := passable.deep found (by simp [Kind.parts]) deep
    simp only [Layout.flattenWithin, found, ok_bind, flat depth within, pure_eq_ok]
  | list id element passable found inner ih =>
    refine ⟨[.i32, .i32], fun depth deep => ?_⟩
    obtain ⟨depth, rfl⟩ := Arena.exists_depth deep
    simp only [Layout.flattenWithin, found, ok_bind, pure_eq_ok]

theorem Passable.depth_le {ty : Ty} (passable : Passable a ty) : a.level ty ≤ a.depth :=
  Nat.le_succ_of_le passable.founded.level_le

theorem Spellable.exists_spelling {ty : Ty} (spellable : Spellable a ty) :
    ∃ text, Zig.spell a ty = .ok text := by
  have deep := spellable.passable.depth_le
  unfold Zig.spell
  generalize a.depth = depth at deep
  induction spellable generalizing depth with
  | prim p => cases depth <;> exact ⟨_, rfl⟩
  | @tuple id elements found each ih =>
    obtain ⟨depth, rfl⟩ := Arena.exists_depth deep
    have passable : Passable a (.ref id) := (Spellable.tuple found each).passable
    have parts : Decides (elements.mapM (Zig.spellWithin a depth)) (∀ ty ∈ elements, True)
        a.Unsupported := .mapM fun ty member => by
      obtain ⟨text, spelled⟩ := ih ty member depth (passable.deep found member deep)
      rw [spelled]
      trivial
    obtain ⟨texts, spelled⟩ := parts.exists_ok fun _ _ => trivial
    simp only [Zig.spellWithin, found, ok_bind, spelled]
    exact ⟨_, rfl⟩

/-- The slots of a type that has some. -/
def Arena.slots (a : Arena) (ty : Ty) : List Slot :=
  match Layout.flatten a ty with
  | .ok slots => slots
  | .error _ => []

theorem Passable.flattenWithin_eq {ty : Ty} (passable : Passable a ty) {depth : Nat}
    (deep : a.level ty ≤ depth) : Layout.flattenWithin a depth ty = .ok (a.slots ty) := by
  obtain ⟨slots, flat⟩ := exists_slots passable
  have same : a.slots ty = slots := by
    rw [Arena.slots, Layout.flatten, flat _ passable.depth_le]
  rw [flat depth deep, same]

theorem Passable.flatten_eq {ty : Ty} (passable : Passable a ty) :
    Layout.flatten a ty = .ok (a.slots ty) := passable.flattenWithin_eq passable.depth_le

theorem slots_prim (p : Primitive) : a.slots (.prim p) = Layout.primitiveSlots p := rfl

/-- The slots of types side by side. -/
def Arena.row (a : Arena) (types : List Ty) : List Slot := types.flatMap a.slots

theorem length_row (types : List Ty) :
    (a.row types).length = (types.map fun ty => (a.slots ty).length).sum := by
  rw [Arena.row, List.length_flatMap]

theorem length_row_cons (ty : Ty) (rest : List Ty) :
    (a.row (ty :: rest)).length = (a.slots ty).length + (a.row rest).length := by
  simp only [Arena.row, List.flatMap_cons, List.length_append]

theorem mapM_flatten {types : List Ty} (passable : ∀ ty ∈ types, Passable a ty) :
    types.mapM (Layout.flatten a) = .ok (types.map a.slots) :=
  mapM_ok_of_forall fun ty member => (passable ty member).flatten_eq

theorem flattenAll_eq {types : List Ty} (passable : ∀ ty ∈ types, Passable a ty) :
    Layout.flattenAll a types = .ok (a.row types) := by
  simp only [Layout.flattenAll, mapM_flatten passable, ok_bind, pure_eq_ok, Arena.row, List.flatMap]

theorem slots_tuple {id : Nat} {elements : List Ty} (passable : Passable a (.ref id))
    (found : a.kind id = .ok (.tuple elements)) : a.slots (.ref id) = a.row elements := by
  have deep := passable.depth_le
  have rows : elements.mapM (Layout.flattenWithin a a.size) = .ok (elements.map a.slots) :=
    mapM_ok_of_forall fun ty member =>
      ((passable_iff found).mp passable ty member).flattenWithin_eq (passable.deep found member deep)
  have flat : Layout.flatten a (.ref id) = .ok (elements.map a.slots).flatten := by
    simp only [Layout.flatten, Arena.depth, Layout.flattenWithin, found, ok_bind, rows, pure_eq_ok]
  rw [passable.flatten_eq, Except.ok.injEq] at flat
  rw [flat, Arena.row, List.flatMap]

theorem slots_option {id : Nat} {payload : Ty} (passable : Passable a (.ref id))
    (found : a.kind id = .ok (.option payload)) : a.slots (.ref id) = .i32 :: a.slots payload := by
  have inner : Spellable a payload := (passable_iff found).mp passable
  have row := inner.passable.flattenWithin_eq
    (passable.deep found (by simp [Kind.parts]) passable.depth_le)
  have flat : Layout.flatten a (.ref id) = .ok (.i32 :: a.slots payload) := by
    simp only [Layout.flatten, Arena.depth, Layout.flattenWithin, found, ok_bind, row, pure_eq_ok]
  rwa [passable.flatten_eq, Except.ok.injEq] at flat

theorem slots_list {id : Nat} {element : Ty} (found : a.kind id = .ok (.list element)) :
    a.slots (.ref id) = [.i32, .i32] := by
  simp only [Arena.slots, Layout.flatten, Arena.depth, Layout.flattenWithin, found, ok_bind,
    pure_eq_ok]

theorem Passable.unalias_eq {ty : Ty} (passable : Passable a ty) : a.unalias ty = .ok ty := by
  cases passable with
  | prim p => rfl
  | tuple found | option found | list found =>
    simp only [Arena.unalias, Arena.depth, Arena.unaliasWithin, found, ok_bind, pure_eq_ok]

end ZigBindings
