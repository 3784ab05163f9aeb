import ZigBindings.Proofs.Types.Level

/-! Flat forms and layouts of types of any kind. A type that is built in finitely many steps has a flat
form. It has a layout too, the same for every walk that is deep enough, unless the layout leaves the
range of doubles. -/

namespace ZigBindings

namespace Arena.Founded

variable {a : Arena} {ty : Ty}

theorem deep {id depth : Nat} {kind : Kind} (founded : a.Founded (.ref id))
    (found : a.kind id = .ok kind) (deep : a.level (.ref id) ≤ depth + 1) :
    ∀ ty ∈ kind.parts, a.level ty ≤ depth := fun ty member => by
  have lower := founded.level_lt found member
  omega

theorem depth_le (founded : a.Founded ty) : a.level ty ≤ a.depth := Nat.le_succ_of_le founded.level_le

theorem flattenWithin_computes (founded : a.Founded ty) {depth : Nat} (deep : a.level ty ≤ depth) :
    Computes False (Layout.flattenWithin a depth ty) fun _ => True := by
  induction founded generalizing depth with
  | prim p => cases depth <;> trivial
  | @ref id kind found parts ih =>
    obtain ⟨depth, rfl⟩ := Arena.exists_depth deep
    have below := (Arena.Founded.ref found parts).deep found deep
    have each : ∀ ty ∈ kind.parts, Computes False (Layout.flattenWithin a depth ty) fun _ => True :=
      fun ty member => ih ty member (below ty member)
    have all := Computes.mapM_all each
    simp only [Layout.flattenWithin, found, ok_bind]
    cases kind with
    | record fields =>
      rw [Kind.parts, List.mapM_map] at all
      exact all.bind fun rows _ => trivial
    | tuple elements | variant cases | result ok err => exact all.bind fun rows _ => trivial
    | option payload => exact (each payload (by simp [Kind.parts])).bind fun row _ => trivial
    | «alias» target => exact each target (by simp [Kind.parts])
    | _ => trivial

theorem exists_flatten (founded : a.Founded ty) : ∃ slots, Layout.flatten a ty = .ok slots := by
  obtain ⟨slots, flat, -⟩ := (founded.flattenWithin_computes founded.depth_le).exists_ok
  exact ⟨slots, flat⟩

/-- What a walk finds does not depend on how deep it may go, as soon as that is deep enough. -/
theorem walk_same {α : Type} {walk : Nat → Ty → α} (founded : a.Founded ty)
    (prim : ∀ depth other p, walk depth (.prim p) = walk other (.prim p))
    (ref : ∀ id kind depth other, a.kind id = .ok kind →
      (∀ ty ∈ kind.parts, walk depth ty = walk other ty) →
      walk (depth + 1) (.ref id) = walk (other + 1) (.ref id))
    {depth other : Nat} (deep : a.level ty ≤ depth) (also : a.level ty ≤ other) :
    walk depth ty = walk other ty := by
  induction founded generalizing depth other with
  | prim p => exact prim depth other p
  | @ref id kind found parts ih =>
    obtain ⟨depth, rfl⟩ := Arena.exists_depth deep
    obtain ⟨other, rfl⟩ := Arena.exists_depth also
    have below := (Arena.Founded.ref found parts).deep found deep
    have beneath := (Arena.Founded.ref found parts).deep found also
    exact ref id kind depth other found fun ty member =>
      ih ty member (below ty member) (beneath ty member)

theorem measureWithin_same (founded : a.Founded ty) {depth other : Nat} (deep : a.level ty ≤ depth)
    (also : a.level ty ≤ other) :
    Layout.measureWithin a depth ty = Layout.measureWithin a other ty := by
  refine founded.walk_same (fun depth other p => by cases depth <;> cases other <;> rfl)
    (fun id kind depth other found each => ?_) deep also
  have all := mapM_congr each
  simp only [Layout.measureWithin, found, ok_bind]
  cases kind with
  | record fields =>
    simp only [Kind.parts, List.mapM_map, Function.comp_def] at all
    simp only [all]
  | tuple elements | variant cases | result ok err =>
    rw [Kind.parts] at all
    simp only [all]
  | option payload => simp only [each payload (by simp [Kind.parts])]
  | «alias» target => exact each target (by simp [Kind.parts])
  | _ => rfl

theorem measureWithin_eq (founded : a.Founded ty) {depth : Nat} (deep : a.level ty ≤ depth) :
    Layout.measureWithin a depth ty = Layout.measure a ty :=
  founded.measureWithin_same deep founded.depth_le

open Layout in
theorem measureWithin_computes (founded : a.Founded ty) {depth : Nat} (deep : a.level ty ≤ depth) :
    Computes True (measureWithin a depth ty) fun extent => Alignable extent.align := by
  induction founded generalizing depth with
  | prim p => cases depth <;> exact primitiveExtent_alignable p
  | @ref id kind found parts ih =>
    obtain ⟨depth, rfl⟩ := Arena.exists_depth deep
    have below := (Arena.Founded.ref found parts).deep found deep
    have each : ∀ ty ∈ kind.parts,
        Computes True (measureWithin a depth ty) fun extent => Alignable extent.align :=
      fun ty member => ih ty member (below ty member)
    have all := Computes.mapM_all each
    simp only [measureWithin, found, ok_bind]
    cases kind with
    | record fields =>
      rw [Kind.parts, List.mapM_map] at all
      exact all.bind fun extents aligned => recordExtent_computes aligned
    | tuple elements => exact all.bind fun extents aligned => recordExtent_computes aligned
    | variant cases => exact all.bind fun payloads aligned => sumExtent_computes aligned cases.length
    | result ok err => exact all.bind fun payloads aligned => sumExtent_computes aligned 2
    | enumeration cases => exact sumExtent_computes (by simp) cases.length
    | option payload =>
      refine (each payload (by simp [Kind.parts])).bind fun extent aligned => ?_
      exact sumExtent_computes (by simpa using aligned) 2
    | flags names => exact flagsExtent_alignable names.length
    | list element | resource => exact ⟨2, by omega, rfl⟩
    | «alias» target => exact each target (by simp [Kind.parts])

theorem measure_computes (founded : a.Founded ty) :
    Computes (Layout.Overflows (Layout.measure a ty)) (Layout.measure a ty)
      fun extent => Layout.Alignable extent.align :=
  (founded.measureWithin_computes founded.depth_le).overflows

theorem measure_product {id : Nat} {kind : Kind} {form : Form} {types : List Ty}
    (founded : a.Founded (.ref id)) (found : a.kind id = .ok kind)
    (shape : kind.product? = some (form, types)) :
    Layout.measure a (.ref id) = Layout.recordLayout a types := by
  have below := founded.deep found founded.depth_le
  have all : kind.parts.mapM (Layout.measureWithin a a.size) = kind.parts.mapM (Layout.measure a) :=
    mapM_congr fun ty member => (founded.parts found ty member).measureWithin_eq (below ty member)
  simp only [Layout.measure, Arena.depth, Layout.measureWithin, found, ok_bind]
  cases kind with
  | tuple elements =>
    cases shape
    rw [Kind.parts] at all
    simp only [all, Layout.recordLayout, Layout.measureAll]
  | record fields =>
    cases shape
    rw [Kind.parts, List.mapM_map] at all
    simp only [Function.comp_def] at all
    simp only [all, Layout.recordLayout, Layout.measureAll]
  | _ => cases shape

theorem measure_option {id : Nat} {payload : Ty} (founded : a.Founded (.ref id))
    (found : a.kind id = .ok (.option payload)) :
    Layout.measure a (.ref id) = Layout.measure a payload >>= fun extent =>
      Layout.sumExtent 2 [extent] := by
  have member : payload ∈ (Kind.option payload).parts := List.mem_singleton_self payload
  have below := founded.deep found founded.depth_le payload member
  have same := (founded.parts found payload member).measureWithin_eq below
  simp only [Layout.measure, Arena.depth, Layout.measureWithin, found, ok_bind] at same ⊢
  rw [same]

theorem measure_alias {id : Nat} {target : Ty} (founded : a.Founded (.ref id))
    (found : a.kind id = .ok (.alias target)) :
    Layout.measure a (.ref id) = Layout.measure a target := by
  have member : target ∈ (Kind.alias target).parts := List.mem_singleton_self target
  have below := founded.deep found founded.depth_le target member
  have same := (founded.parts found target member).measureWithin_eq below
  simp only [Layout.measure, Arena.depth, Layout.measureWithin, found, ok_bind] at same ⊢
  exact same

end Arena.Founded

theorem Arena.WellFounded.founded {a : Arena} (wf : a.WellFounded) {ty : Ty} (inRange : a.InRange ty) :
    a.Founded ty :=
  wellFounded_induction wf (fun p => .prim p) (fun _ _ found parts => .ref found parts) inRange

def Ty.isBefore (place : Nat) : Ty → Bool
  | .prim _ => true
  | .ref id => decide (id < place)

theorem inRange_of_isBefore {a : Arena} {ty : Ty} (before : ty.isBefore a.size) : a.InRange ty := by
  rintro id rfl
  exact of_decide_eq_true before

def Ty.isLower (a : Arena) (rank : Nat → Nat) (place : Nat) : Ty → Bool
  | .prim _ => true
  | .ref id => decide (id < a.size ∧ rank id < rank place)

/-- An arena whose definitions only refer to those of lower ranks is well-founded. -/
theorem Arena.WellFounded.of_ranked {a : Arena} (rank : Nat → Nat)
    (ranked : ∀ place : Fin a.size, a[place].kind.parts.all (Ty.isLower a rank place)) :
    a.WellFounded := by
  have lower {id other : Nat} (refers : a.Refers id other) : other < a.size ∧ rank other < rank id := by
    obtain ⟨kind, found, member⟩ := refers
    have inside := Tree.kind_bounded found
    have same : a.kind id = .ok a[id].kind := by
      simp [Arena.kind, Arena.typedef, inside, pure_eq_ok, Except.map]
    cases same.symm.trans found
    exact of_decide_eq_true (List.all_eq_true.mp (ranked ⟨id, inside⟩) _ member)
  refine ⟨fun id other refers => (lower refers).1, fun id around => ?_⟩
  have descends : ∀ other, Relation.TransGen a.Refers id other → rank other < rank id := by
    intro other path
    induction path with
    | single refers => exact (lower refers).2
    | tail _ refers ih => exact (lower refers).2.trans ih
  exact absurd (descends id around) (lt_irrefl _)

theorem Arena.WellFounded.of_ordered {a : Arena}
    (ordered : ∀ place : Fin a.size, a[place].kind.parts.all (Ty.isBefore place)) : a.WellFounded := by
  refine .of_ranked id fun place => List.all_eq_true.mpr fun ty member => ?_
  have before := List.all_eq_true.mp (ordered place) ty member
  cases ty with
  | prim p => rfl
  | ref other =>
    have earlier : other < place := of_decide_eq_true before
    exact decide_eq_true ⟨earlier.trans place.isLt, earlier⟩

section
variable {a : Arena} {types : List Ty} (founded : ∀ ty ∈ types, a.Founded ty)
include founded

theorem measureAll_computes : Computes True (Layout.measureAll a types) fun extents =>
    extents.length = types.length ∧ ∀ extent ∈ extents, Layout.Alignable extent.align := by
  have each : ∀ ty ∈ types, Computes True (Layout.measure a ty) fun extent =>
      Layout.Alignable extent.align := fun ty member =>
    (founded ty member).measureWithin_computes (founded ty member).depth_le
  refine (Computes.mapM each).mono fun extents related => ⟨related.length_eq.symm, ?_⟩
  intro extent member
  obtain ⟨_, _, aligned⟩ := related_of_mem related.flip extent member
  exact aligned

theorem recordLayout_computes :
    Computes (Layout.Overflows (Layout.recordLayout a types)) (Layout.recordLayout a types)
      fun extent => Layout.Alignable extent.align :=
  .overflows ((measureAll_computes founded).bind fun _ aligned =>
    Layout.recordExtent_computes aligned.2)

theorem fieldOffsets_computes :
    Computes (Layout.Overflows (Layout.recordLayout a types)) (Layout.fieldOffsets a types)
      fun offsets => offsets.length = types.length := by
  refine (measureAll_computes founded).alongside fun extents described => ?_
  obtain ⟨count, aligned⟩ := described
  exact (Layout.offsets_computes aligned).bind fun placed places => places.trans count

theorem flattenAll_computes : Computes False (Layout.flattenAll a types) fun _ => True :=
  (Computes.mapM_all fun ty member =>
    (founded ty member).flattenWithin_computes (founded ty member).depth_le).bind fun _ _ => trivial

end

theorem payloadOffset_computes {a : Arena} {id : Nat} {payload : Ty} (founded : a.Founded (.ref id))
    (found : a.kind id = .ok (.option payload)) :
    Computes (Layout.Overflows (Layout.measure a (.ref id))) (Layout.payloadOffset a id)
      fun _ => True := by
  have cases : (Kind.option payload).cases? = some [none, some payload] := rfl
  have inner := founded.parts found payload (List.mem_singleton_self payload)
  rw [founded.measure_option found]
  simp only [Layout.payloadOffset, found, ok_bind, cases, List.filterMap_cons, List.filterMap_nil,
    Layout.measureAll, List.mapM_cons, List.mapM_nil, bind_assoc, pure_bind]
  refine inner.measure_computes.alongside fun extent aligned => ?_
  have aligned : ∀ field ∈ [extent], Layout.Alignable field.align := by simpa using aligned
  rw [← bind_pure (Layout.payloadStart _ _)]
  exact (Layout.payloadStart_computes aligned 2).alongside fun _ _ => trivial

end ZigBindings
