import ZigBindings.Proofs.Layout.Ideal
import ZigBindings.Proofs.Types.Layouts

/-! Exact layouts of types that do not contain themselves by value. They are what is computed for all
layouts in the range of doubles, and they are well-formed. -/

namespace ZigBindings

open Layout

/-- The kind as it is stored. A list has its elements elsewhere, so their type makes no difference. -/
def Kind.byValue : Kind → Kind
  | .list _ => .list (.prim .u8)
  | kind => kind

def Arena.byValue (a : Arena) : Arena := a.map fun d => { d with kind := d.kind.byValue }

/-- The exact layout of a definition whose parts have these. -/
def Kind.ideal (parts : List Extent) : Kind → Extent
  | .record _ | .tuple _ => idealRecord parts
  | .variant cases => idealSum cases.length parts
  | .enumeration cases => idealSum cases.length parts
  | .option _ | .result _ _ => idealSum 2 parts
  | .flags names => flagsExtent names.length
  | .list _ => ⟨8, 4⟩
  | .resource => ⟨4, 4⟩
  | .alias _ => parts.headD ⟨0, 1⟩

def Arena.idealWithin (a : Arena) : Nat → Ty → Extent
  | _, .prim p => primitiveExtent p
  | 0, .ref _ => ⟨0, 1⟩
  | depth + 1, .ref id =>
    match a.kind id with
    | .ok kind => kind.ideal (kind.parts.map (a.idealWithin depth))
    | .error _ => ⟨0, 1⟩

/-- The exact layout of a type. -/
def Arena.ideal (a : Arena) (ty : Ty) : Extent := a.idealWithin a.depth ty

/-- All that a type contains by value is in the arena. -/
def Arena.Whole (a : Arena) (ty : Ty) : Prop :=
  ∀ id, a.byValue.Reaches ty (.ref id) → id < a.size

namespace Layout

/-- An alignment of one, two, four or eight bytes, and a multiple of it. -/
structure Extent.Formed (extent : Extent) : Prop where
  aligned : Alignable extent.align
  divides : extent.align ∣ extent.size

theorem primitiveExtent_formed (p : Primitive) : (primitiveExtent p).Formed :=
  ⟨primitiveExtent_alignable p, by cases p <;> decide⟩

theorem flagsExtent_formed (count : Nat) : (flagsExtent count).Formed := by
  refine ⟨flagsExtent_alignable count, ?_⟩
  unfold flagsExtent
  split
  · exact dvd_rfl
  · split
    · exact dvd_rfl
    · exact Nat.dvd_mul_right 4 _

theorem Alignable.mem {alignment : Nat} (aligned : Alignable alignment) : alignment ∈ [1, 2, 4, 8] := by
  obtain ⟨k, small, rfl⟩ := aligned
  have few : k = 0 ∨ k = 1 ∨ k = 2 ∨ k = 3 := by omega
  rcases few with rfl | rfl | rfl | rfl <;> decide

section
variable {parts : List Extent} (formed : ∀ part ∈ parts, part.Formed)
include formed

theorem idealRecord_formed : (idealRecord parts).Formed :=
  ⟨maxAlign_alignable fun part member => (formed part member).aligned, dvd_roundUp _ _⟩

theorem idealSum_formed (count : Nat) : (idealSum count parts).Formed :=
  ⟨(discriminantSize_alignable count).max (maxAlign_alignable fun part member =>
    (formed part member).aligned), dvd_roundUp _ _⟩

theorem ideal_formed (kind : Kind) : (kind.ideal parts).Formed := by
  have empty : Extent.Formed ⟨0, 1⟩ := ⟨.one, Nat.dvd_zero _⟩
  have word : Extent.Formed ⟨4, 4⟩ := ⟨⟨2, by omega, rfl⟩, dvd_rfl⟩
  have pair : Extent.Formed ⟨8, 4⟩ := ⟨⟨2, by omega, rfl⟩, by decide⟩
  cases kind with
  | record fields | tuple elements => exact idealRecord_formed formed
  | variant cases | enumeration cases | option payload | result ok err =>
    exact idealSum_formed formed _
  | flags names => exact flagsExtent_formed names.length
  | list element => exact pair
  | resource => exact word
  | «alias» target =>
    cases parts with
    | nil => exact empty
    | cons part rest => exact formed part (by simp)

end

/-! ### Layouts of several types -/

section
variable {measured : Ty → Except Fault Extent} {ideal : Ty → Extent} {types : List Ty}
  (each : ∀ ty ∈ types, Computes (2 ^ 53 ≤ (ideal ty).size) (measured ty) fun extent =>
    extent.Like (ideal ty))
include each

theorem mapM_like {huge : Prop} (within : ∀ ty ∈ types, 2 ^ 53 ≤ (ideal ty).size → huge) :
    Computes huge (types.mapM measured) fun extents =>
      List.Forall₂ Extent.Like extents (types.map ideal) :=
  (Computes.mapM fun ty member => (each ty member).widen (within ty member)).mono
    fun _ related => List.forall₂_map_right_iff.mpr related.flip

variable (aligned : ∀ extent ∈ types.map ideal, Alignable extent.align)
include aligned

theorem record_like : Computes (2 ^ 53 ≤ (idealRecord (types.map ideal)).size)
    (types.mapM measured >>= recordExtent) fun extent =>
      extent.Like (idealRecord (types.map ideal)) := by
  refine (mapM_like each fun ty member many => ?_).bind fun extents like =>
    recordExtent_like like aligned
  exact many.trans (size_le_idealRecord aligned (List.mem_map_of_mem member))

theorem sum_like (count : Nat) : Computes (2 ^ 53 ≤ (idealSum count (types.map ideal)).size)
    (types.mapM measured >>= sumExtent count) fun extent =>
      extent.Like (idealSum count (types.map ideal)) := by
  refine (mapM_like each fun ty member many => ?_).bind fun extents like =>
    sumExtent_like like aligned count
  exact many.trans (size_le_idealSum aligned (List.mem_map_of_mem member) count)

end

/-- The size is in the range of doubles, in exact arithmetic or as it is computed. -/
def Small (computation : Except Fault Extent) (ideal : Nat) : Prop :=
  ideal < 2 ^ 53 ∨ ∃ extent, computation = .ok extent ∧ extent.size < 2 ^ 53

theorem Small.ideal {computation : Except Fault Extent} {ideal : Extent}
    (computes : Computes (2 ^ 53 ≤ ideal.size) computation fun extent => extent.Like ideal)
    (small : Small computation ideal.size) : ideal.size < 2 ^ 53 := by
  rcases small with small | ⟨extent, rfl, small⟩
  · exact small
  · exact computes.eq_of_lt (.inl small) ▸ small

theorem eq_of_like {computation : Except Fault Extent} {ideal : Extent}
    (computes : Computes (2 ^ 53 ≤ ideal.size) computation fun extent => extent.Like ideal)
    (small : ideal.size < 2 ^ 53) : computation = .ok ideal := by
  cases computation with
  | ok extent => rw [computes.eq_of_lt (.inr small)]
  | error fault => exact absurd computes.2 (by omega)

end Layout

/-! ### Lists aside -/

namespace Arena

variable {a : Arena}

theorem byValue_kind (id : Nat) : a.byValue.kind id = (a.kind id).map Kind.byValue := by
  simp only [Arena.kind, Arena.typedef, Arena.byValue, Array.getElem?_map]
  cases a[id]? <;> rfl

theorem byValue_size : a.byValue.size = a.size := Array.size_map

theorem measureWithin_byValue (depth : Nat) (ty : Ty) :
    measureWithin a.byValue depth ty = measureWithin a depth ty := by
  induction depth generalizing ty with
  | zero => cases ty <;> rfl
  | succ depth ih =>
    cases ty with
    | prim p => rfl
    | ref id =>
      simp only [measureWithin, byValue_kind]
      cases a.kind id with
      | error fault => rfl
      | ok kind =>
        have all : measureWithin a.byValue depth = measureWithin a depth := funext ih
        cases kind <;> simp only [Except.map, Kind.byValue, ok_bind, all]

theorem measure_byValue (ty : Ty) : Layout.measure a.byValue ty = Layout.measure a ty := by
  rw [Layout.measure, Layout.measure, depth, depth, byValue_size, measureWithin_byValue]

theorem idealWithin_byValue (depth : Nat) (ty : Ty) :
    a.byValue.idealWithin depth ty = a.idealWithin depth ty := by
  induction depth generalizing ty with
  | zero => cases ty <;> rfl
  | succ depth ih =>
    cases ty with
    | prim p => rfl
    | ref id =>
      simp only [idealWithin, byValue_kind]
      cases a.kind id with
      | error fault => rfl
      | ok kind =>
        have all : a.byValue.idealWithin depth = a.idealWithin depth := funext ih
        cases kind <;> simp only [Except.map, Kind.byValue, Kind.parts, Kind.ideal, all]

theorem ideal_byValue (ty : Ty) : a.byValue.ideal ty = a.ideal ty := by
  rw [ideal, ideal, depth, depth, byValue_size, idealWithin_byValue]

theorem idealWithin_formed (depth : Nat) (ty : Ty) : (a.idealWithin depth ty).Formed := by
  have empty : Extent.Formed ⟨0, 1⟩ := ⟨.one, Nat.dvd_zero _⟩
  induction depth generalizing ty with
  | zero =>
    cases ty with
    | prim p => exact primitiveExtent_formed p
    | ref id => exact empty
  | succ depth ih =>
    cases ty with
    | prim p => exact primitiveExtent_formed p
    | ref id =>
      rw [idealWithin]
      split
      · exact ideal_formed (List.forall_mem_map.mpr fun ty _ => ih ty) _
      · exact empty

theorem ideal_aligned (types : List Ty) : ∀ extent ∈ types.map a.ideal, Alignable extent.align :=
  List.forall_mem_map.mpr fun ty _ => (a.idealWithin_formed a.depth ty).aligned

theorem Founded.of_acyclic (acyclic : ∀ id, ¬ Relation.TransGen a.Refers id id) {ty : Ty}
    (inside : ∀ id, a.Reaches ty (.ref id) → id < a.size) : a.Founded ty := by
  induction level : a.level ty using Nat.strong_induction_on generalizing ty with
  | _ level ih =>
    subst level
    cases ty with
    | prim p => exact .prim p
    | ref id =>
      obtain ⟨kind, found⟩ := Arena.kind_of_lt (inside id .self)
      refine .ref found fun inner member => ih _ ?_ (fun other reached => ?_) rfl
      · cases inner with
        | prim p => exact a.level_ref_pos id
        | ref other =>
          have below := inside other (.part .self found member)
          exact Nat.succ_lt_succ (rank_lt ⟨kind, found, member⟩ below (acyclic other))
      · exact inside other (reached.trans_part found member)

theorem Founded.idealWithin_same {ty : Ty} (founded : a.Founded ty) {depth other : Nat}
    (deep : a.level ty ≤ depth) (also : a.level ty ≤ other) :
    a.idealWithin depth ty = a.idealWithin other ty := by
  refine founded.walk_same (fun depth other p => by cases depth <;> cases other <;> rfl)
    (fun id kind depth other found each => ?_) deep also
  have all : kind.parts.map (a.idealWithin depth) = kind.parts.map (a.idealWithin other) :=
    List.map_congr_left each
  simp only [idealWithin, found, all]

theorem Founded.ideal_ref {id : Nat} {kind : Kind} (founded : a.Founded (.ref id))
    (found : a.kind id = .ok kind) : a.ideal (.ref id) = kind.ideal (kind.parts.map a.ideal) := by
  have below := founded.deep found founded.depth_le
  have all : kind.parts.map (a.idealWithin a.size) = kind.parts.map a.ideal :=
    List.map_congr_left fun ty member => (founded.parts found ty member).idealWithin_same
      (below ty member) (founded.parts found ty member).depth_le
  simp only [ideal, depth, idealWithin, found] at all ⊢
  rw [all]

/-- What is computed is like the exact layout. -/
theorem Founded.measureWithin_like {ty : Ty} (founded : a.Founded ty) {depth : Nat}
    (deep : a.level ty ≤ depth) : Computes (2 ^ 53 ≤ (a.idealWithin depth ty).size)
      (measureWithin a depth ty) fun extent => extent.Like (a.idealWithin depth ty) := by
  induction founded generalizing depth with
  | prim p =>
    have same : (primitiveExtent p).Like (primitiveExtent p) := ⟨rfl, .refl _⟩
    cases depth <;> exact same
  | @ref id kind found parts ih =>
    obtain ⟨depth, rfl⟩ := Arena.exists_depth deep
    have below := (Arena.Founded.ref found parts).deep found deep
    have each : ∀ ty ∈ kind.parts, Computes (2 ^ 53 ≤ (a.idealWithin depth ty).size)
        (measureWithin a depth ty) fun extent => extent.Like (a.idealWithin depth ty) :=
      fun ty member => ih ty member (below ty member)
    have aligned : ∀ extent ∈ kind.parts.map (a.idealWithin depth), Alignable extent.align :=
      List.forall_mem_map.mpr fun ty _ => (idealWithin_formed depth ty).aligned
    have record := record_like each aligned
    have sum := sum_like each aligned
    simp only [measureWithin, idealWithin, found, ok_bind]
    cases kind with
    | record fields =>
      rw [Kind.parts, List.mapM_map] at record
      exact record
    | tuple elements => exact record
    | variant cases => exact sum cases.length
    | result ok err => exact sum 2
    | enumeration cases =>
      generalize bare : ([] : List Extent) = payloads
      have like : List.Forall₂ Extent.Like payloads [] := bare ▸ .nil
      exact sumExtent_like like (by simp) cases.length
    | option payload =>
      simp only [Kind.parts, List.mapM_cons, List.mapM_nil, bind_assoc, pure_bind] at sum
      exact sum 2
    | flags names | list element | resource => exact ⟨rfl, .refl _⟩
    | «alias» target => exact each target (by simp [Kind.parts])

end Arena

theorem Kind.ideal_cases {kind : Kind} {cases : List (Option Ty)} (sum : kind.cases? = some cases) :
    kind.byValue = kind ∧ (cases.filterMap fun c => c) = kind.parts ∧
      ∀ payloads, kind.ideal payloads = idealSum cases.length payloads := by
  cases kind with
  | variant arms =>
    cases sum
    exact ⟨rfl, List.filterMap_map, fun _ => by rw [List.length_map]; rfl⟩
  | enumeration names =>
    cases sum
    exact ⟨rfl, by simp [Kind.parts], fun _ => by rw [List.length_map]; rfl⟩
  | option payload | result ok err =>
    cases sum
    exact ⟨rfl, rfl, fun _ => rfl⟩
  | _ => cases sum

/-! ### Well-formed layouts -/

section
variable {a : Arena} (acyclic : ∀ id, ¬ Relation.TransGen a.byValue.Refers id id)
include acyclic

theorem Arena.Whole.founded {ty : Ty} (whole : a.Whole ty) : a.byValue.Founded ty :=
  .of_acyclic acyclic fun id reached => Arena.byValue_size.symm ▸ whole id reached

theorem Arena.Whole.measure_like {ty : Ty} (whole : a.Whole ty) :
    Computes (2 ^ 53 ≤ (a.ideal ty).size) (measure a ty) fun extent => extent.Like (a.ideal ty) := by
  have founded := whole.founded acyclic
  have like := founded.measureWithin_like founded.depth_le
  change Computes (2 ^ 53 ≤ (a.byValue.ideal ty).size) (measure a.byValue ty) fun extent =>
    extent.Like (a.byValue.ideal ty) at like
  rwa [Arena.measure_byValue, Arena.ideal_byValue] at like

theorem Arena.Whole.measure_formed {ty : Ty} (whole : a.Whole ty)
    (small : Small (measure a ty) (a.ideal ty).size) :
    ∃ extent, measure a ty = .ok extent ∧ extent.align ∈ [1, 2, 4, 8] ∧ extent.align ∣ extent.size := by
  have like := whole.measure_like acyclic
  have formed := a.idealWithin_formed a.depth ty
  exact ⟨a.ideal ty, eq_of_like like (small.ideal like), formed.aligned.mem, formed.divides⟩

theorem recordLayout_packed {types : List Ty} (whole : ∀ ty ∈ types, a.Whole ty)
    (small : Small (recordLayout a types) (idealEnd 0 (types.map a.ideal))) :
    ∃ extents offsets extent, measureAll a types = .ok extents ∧ fieldOffsets a types = .ok offsets ∧
      recordLayout a types = .ok extent ∧ Packed 0 extents offsets extent.size := by
  have aligned := a.ideal_aligned types
  have positive := positive_of_alignable aligned
  have like := record_like (fun ty member => (whole ty member).measure_like acyclic) aligned
  have ends : idealEnd 0 (types.map a.ideal) < 2 ^ 53 := by
    rcases small with small | small
    · exact small
    · calc
        _ ≤ (idealRecord (types.map a.ideal)).size := idealEnd_le_idealRecord aligned
        _ < 2 ^ 53 := Small.ideal like (.inr small)
  have measured : measureAll a types = .ok (types.map a.ideal) := by
    refine mapM_ok_of_forall fun ty member => eq_of_like ((whole ty member).measure_like acyclic) ?_
    exact (size_le_idealEnd positive (List.mem_map_of_mem member) 0).trans_lt ends
  refine ⟨_, _, _, measured, ?_, ?_, packed_ideal positive (idealEnd_le_idealRecord aligned)⟩
  · rw [fieldOffsets, measured, ok_bind, place_ideal aligned ends]
    rfl
  · rw [recordLayout, measured, ok_bind, recordExtent_ideal aligned ends]

section
variable {id : Nat} {kind : Kind} {cases : List (Option Ty)} (whole : a.Whole (.ref id))
  (found : a.kind id = .ok kind) (sum : kind.cases? = some cases)
include found sum

omit acyclic in
theorem Kind.stored_sum : a.byValue.kind id = .ok kind := by
  rw [Arena.byValue_kind, found, Except.map, (Kind.ideal_cases sum).1]

include whole

theorem Arena.Whole.ideal_sum :
    a.ideal (.ref id) = idealSum cases.length ((cases.filterMap fun c => c).map a.ideal) := by
  obtain ⟨-, parts, ideal⟩ := Kind.ideal_cases sum
  have same : a.byValue.ideal = a.ideal := funext Arena.ideal_byValue
  rw [parts, ← ideal, ← same]
  exact (whole.founded acyclic).ideal_ref (Kind.stored_sum found sum)

omit acyclic in
theorem Arena.Whole.payload {ty : Ty} (listed : some ty ∈ cases) : a.Whole ty := by
  obtain ⟨-, parts, -⟩ := Kind.ideal_cases sum
  have member : ty ∈ kind.parts := parts ▸ List.mem_filterMap.mpr ⟨some ty, listed, rfl⟩
  exact fun other reached => whole other (reached.trans_part (Kind.stored_sum found sum) member)

theorem payloadOffset_formed (small : Small (measure a (.ref id)) (a.ideal (.ref id)).size) :
    ∃ extent start, measure a (.ref id) = .ok extent ∧ payloadOffset a id = .ok start ∧
      discriminantSize cases.length ≤ start ∧ ∀ ty, some ty ∈ cases → ∃ payload,
        measure a ty = .ok payload ∧ payload.align ∣ start ∧ start + payload.size ≤ extent.size := by
  have like := whole.measure_like acyclic
  have within := small.ideal like
  have exactly := whole.ideal_sum acyclic found sum
  have aligned := a.ideal_aligned (cases.filterMap fun c => c)
  have each : ∀ ty ∈ cases.filterMap fun c => c, measure a ty = .ok (a.ideal ty) := fun ty member => by
    have payload := whole.payload found sum (by simpa using member)
    apply eq_of_like (payload.measure_like acyclic)
    calc
      _ ≤ (a.ideal (.ref id)).size :=
        exactly ▸ size_le_idealSum aligned (List.mem_map_of_mem member) cases.length
      _ < 2 ^ 53 := within
  obtain ⟨behind, ends⟩ := idealSum_bounds aligned cases.length
  rw [← exactly] at ends
  refine ⟨_, _, eq_of_like like within, ?_, behind, fun ty listed => ?_⟩
  · simp only [payloadOffset, found, ok_bind, sum, measureAll, mapM_ok_of_forall each,
      payloadStart_ideal aligned]
  · have member : ty ∈ cases.filterMap fun c => c := List.mem_filterMap.mpr ⟨some ty, listed, rfl⟩
    have inside : a.ideal ty ∈ (cases.filterMap fun c => c).map a.ideal := List.mem_map_of_mem member
    refine ⟨_, each ty member, ?_, ?_⟩
    · -- Alignments are powers of two, so a coarser one is a multiple.
      have coarser := (aligned _ inside).dvd_of_le (maxAlign_alignable aligned) (align_le_maxAlign inside)
      exact coarser.trans (dvd_roundUp _ _)
    · have largest := size_le_maxSize inside
      omega

end

/-- Layouts of types that do not contain themselves by value are well-formed. A type has one, two, four
or eight bytes for its alignment, which divides its size. Fields in a row are aligned, follow each other
with less than an alignment left out between them, and end within the record. The payload of a sum type
is behind the discriminant, aligned for every case, and each case ends within the type. All this is
computed as long as the sizes are in the range of doubles. -/
theorem layouts_formed :
    (∀ ty, a.Whole ty → Small (measure a ty) (a.ideal ty).size → ∃ extent, measure a ty = .ok extent ∧
      extent.align ∈ [1, 2, 4, 8] ∧ extent.align ∣ extent.size) ∧
    (∀ types, (∀ ty ∈ types, a.Whole ty) →
      Small (recordLayout a types) (idealEnd 0 (types.map a.ideal)) →
      ∃ extents offsets extent, measureAll a types = .ok extents ∧ fieldOffsets a types = .ok offsets ∧
        recordLayout a types = .ok extent ∧ Packed 0 extents offsets extent.size) ∧
    ∀ id kind cases, a.Whole (.ref id) → a.kind id = .ok kind → kind.cases? = some cases →
      Small (measure a (.ref id)) (a.ideal (.ref id)).size →
      ∃ extent start, measure a (.ref id) = .ok extent ∧ payloadOffset a id = .ok start ∧
        discriminantSize cases.length ≤ start ∧ ∀ ty, some ty ∈ cases → ∃ payload,
          measure a ty = .ok payload ∧ payload.align ∣ start ∧ start + payload.size ≤ extent.size :=
  ⟨fun _ whole small => whole.measure_formed acyclic small,
    fun _ whole small => recordLayout_packed acyclic whole small,
    fun _ _ _ whole found sum small => payloadOffset_formed acyclic whole found sum small⟩

end

/-- Trees of numbers, which contain themselves in lists only, and a choice between a tree and a name. -/
def forest : Arena := #[
  ⟨.list (.ref 1), none⟩,
  ⟨.record [("value", .prim .u64), ("children", .ref 0)], some "tree"⟩,
  ⟨.variant [("none", none), ("tree", some (.ref 1)), ("name", some (.prim .string))], some "choice"⟩]

theorem forest_formed : (∃ extent, measure forest (.ref 1) = .ok extent ∧ extent.align ∈ [1, 2, 4, 8] ∧
      extent.align ∣ extent.size) ∧
    (∃ extents offsets extent, measureAll forest [.prim .u8, .ref 1, .ref 2] = .ok extents ∧
      fieldOffsets forest [.prim .u8, .ref 1, .ref 2] = .ok offsets ∧
      recordLayout forest [.prim .u8, .ref 1, .ref 2] = .ok extent ∧
      Packed 0 extents offsets extent.size) ∧
    ∃ extent start, measure forest (.ref 2) = .ok extent ∧ payloadOffset forest 2 = .ok start ∧
      1 ≤ start ∧ ∃ payload, measure forest (.ref 1) = .ok payload ∧ payload.align ∣ start ∧
        start + payload.size ≤ extent.size := by
  have wf : forest.byValue.WellFounded := .of_ordered (by decide +kernel)
  have whole {ty : Ty} (inside : ∀ id, ty = .ref id → id < 3) : forest.Whole ty := fun id reached => by
    cases reached with
    | self => exact inside id rfl
    | part _ found member => exact Arena.byValue_size ▸ wf.inRange _ _ ⟨_, found, member⟩
  have tree : forest.Whole (.ref 1) := whole (by rintro id ⟨⟩; decide)
  have choice : forest.Whole (.ref 2) := whole (by rintro id ⟨⟩; decide)
  obtain ⟨single, row, sum⟩ := layouts_formed wf.acyclic
  refine ⟨single _ tree (.inl (by decide)), row _ ?_ (.inl (by decide)), ?_⟩
  · rintro ty (_ | ⟨_, _ | ⟨_, _ | ⟨_, ⟨⟩⟩⟩⟩)
    · exact whole (by rintro id ⟨⟩)
    · exact tree
    · exact choice
  · obtain ⟨extent, start, measured, placed, behind, each⟩ :=
      sum 2 _ [none, some (.ref 1), some (.prim .string)] choice rfl rfl (.inl (by decide))
    exact ⟨extent, start, measured, placed, behind, each (.ref 1) (by decide)⟩

example : measure forest (.ref 2) = .ok ⟨24, 8⟩ ∧ payloadOffset forest 2 = .ok 8 := by decide +kernel

end ZigBindings
