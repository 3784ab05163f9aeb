import ZigBindings.Proofs.Crossing.Numbers
import ZigBindings.Proofs.Layout.Inside
import ZigBindings.Proofs.Types.Layouts

/-! Parts of a value inside the value: the fields of a record, the discriminant and the payload of a sum
type, and what a single access takes. -/

namespace ZigBindings
open Layout (Extent)

/-- An access is aligned to its own width. -/
def Access.extent (access : Access) : Extent := ⟨access.size, access.size⟩

theorem Access.text_extent {p : Primitive} (none : Access.ofPrimitive? p = none) :
    Layout.primitiveExtent p = ⟨8, 4⟩ := by
  cases p <;> first | rfl | cases none

theorem measure_list {a : Arena} {id : Nat} {element : Ty} (found : a.kind id = .ok (.list element)) :
    Layout.measure a (.ref id) = .ok ⟨8, 4⟩ := by
  simp [Layout.measure, Arena.depth, Layout.measureWithin, found, pure_eq_ok]

theorem Access.discriminant_extent (count : Nat) : (Crossing.discriminantAccess count).extent =
    ⟨Layout.discriminantSize count, Layout.discriminantSize count⟩ := by
  rw [Access.extent, discriminantAccess_size]

theorem exists_zip_of_related {α β γ : Type} {related : α → β → Prop} {xs : List α} {ys : List β}
    (each : List.Forall₂ related xs ys) {zs : List γ} {x : α} {z : γ} (member : (x, z) ∈ xs.zip zs) :
    ∃ y, related x y ∧ (y, z) ∈ ys.zip zs := by
  induction each generalizing zs with
  | nil => cases member
  | cons first _ ih =>
    cases zs with
    | nil => cases member
    | cons z' rest =>
      rcases List.mem_cons.mp member with same | later
      · cases same
        exact ⟨_, first, List.mem_cons_self⟩
      · obtain ⟨y, holds, inside⟩ := ih later
        exact ⟨y, holds, List.mem_cons_of_mem _ inside⟩

theorem fields_inside {a : Arena} {types : List Ty} {whole : Extent}
    (measured : Layout.recordLayout a types = .ok whole) {offsets : List Nat}
    (placed : Layout.fieldOffsets a types = .ok offsets) {ty : Ty} {offset : Nat}
    (member : (ty, offset) ∈ types.zip offsets) :
    ∃ extent, Layout.measure a ty = .ok extent ∧ extent.Inside offset whole := by
  obtain ⟨extents, each, measured⟩ := bind_eq_ok.mp measured
  rw [Layout.fieldOffsets, each, ok_bind] at placed
  obtain ⟨⟨others, stop⟩, done, placed⟩ := bind_eq_ok.mp placed
  cases placed
  have related := mapM_eq_ok.mp each
  have aligned := Layout.measureAll_alignable each
  obtain ⟨extent, known, inside⟩ := exists_zip_of_related related member
  exact ⟨extent, known, Layout.recordExtent_inside aligned measured done inside⟩

theorem option_inside {a : Arena} {id : Nat} {payload : Ty} (founded : a.Founded (.ref id))
    (found : a.kind id = .ok (.option payload)) {whole : Extent}
    (measured : Layout.measure a (.ref id) = .ok whole) :
    ((Crossing.discriminantAccess 2).extent.Inside 0 whole) ∧
      ∀ start, Layout.payloadOffset a id = .ok start →
        ∃ extent, Layout.measure a payload = .ok extent ∧ extent.Inside start whole := by
  have cases : (Kind.option payload).cases? = some [none, some payload] := rfl
  rw [founded.measure_option found] at measured
  obtain ⟨extent, known, measured⟩ := bind_eq_ok.mp measured
  have aligned : ∀ field ∈ [extent], Layout.Alignable field.align := by
    simpa using Layout.measure_alignable known
  rw [Access.discriminant_extent]
  refine ⟨Layout.sumExtent_discriminant aligned measured, fun start placed => ?_⟩
  simp only [Layout.payloadOffset, found, ok_bind, cases, List.filterMap_cons, List.filterMap_nil,
    Layout.measureAll, List.mapM_cons, List.mapM_nil, known, pure_bind] at placed
  exact ⟨extent, known, Layout.sumExtent_payload aligned measured placed (by simp)⟩

theorem enumeration_inside {a : Arena} {id : Nat} {cases : List String} {whole : Extent}
    (found : a.kind id = .ok (.enumeration cases)) (measured : Layout.measure a (.ref id) = .ok whole) :
    (Crossing.discriminantAccess cases.length).extent.Inside 0 whole := by
  simp only [Layout.measure, Arena.depth, Layout.measureWithin, found, ok_bind] at measured
  rw [Access.discriminant_extent]
  exact Layout.sumExtent_discriminant (by simp) measured

theorem field_measured {a : Arena} {types : List Ty} {offsets : List Nat}
    (placed : Layout.fieldOffsets a types = .ok offsets) {ty : Ty} (member : ty ∈ types) :
    ∃ extent, Layout.measure a ty = .ok extent := by
  obtain ⟨extents, each, -⟩ := bind_eq_ok.mp placed
  obtain ⟨extent, -, known⟩ := ok_of_mapM each ty member
  exact ⟨extent, known⟩

end ZigBindings
