import ZigBindings.Proofs.Types.Tree

/-! Walks over the types of an arena compute what the unfolded tree carries, as soon as they are
allowed to go as deep as the tree is high. -/

namespace ZigBindings.Tree
open Layout (Extent)

variable {a : Arena} {laid : Prop}

theorem unaliasWithin_core {t : Tree} (mirrors : t.Mirrors a laid) (depth : Nat)
    (deep : t.height ≤ depth) : a.unaliasWithin depth t.type = .ok t.core.type := by
  induction t generalizing depth with
  | prim p => cases depth <;> rfl
  | synonym id target ih =>
    obtain ⟨depth, rfl, below⟩ := exists_below deep
    obtain ⟨kind, found, stands⟩ := mirrors.rooted id rfl
    cases stands
    simp only [type, Arena.unaliasWithin, found, ok_bind, core]
    exact ih mirrors.2 depth below
  | product form id fields offsets extent =>
    obtain ⟨depth, rfl, -⟩ := exists_below deep
    obtain ⟨kind, found, stands⟩ := mirrors.rooted id rfl
    obtain ⟨-, rfl⟩ | ⟨parts, -, rfl, -⟩ := product_kind stands
    · simp only [type, Arena.unaliasWithin, found, ok_bind, core, pure_eq_ok]
    · simp only [type, Arena.unaliasWithin, found, ok_bind, core, pure_eq_ok]
  | enumeration id count extent =>
    obtain ⟨depth, rfl, -⟩ := exists_below deep
    obtain ⟨kind, found, cases, rfl, -⟩ := mirrors.rooted id rfl
    simp [type, Arena.unaliasWithin, found, core, pure_eq_ok]
  | option id payload start extent =>
    obtain ⟨depth, rfl, -⟩ := exists_below deep
    obtain ⟨kind, found, rfl⟩ := mirrors.rooted id rfl
    simp [type, Arena.unaliasWithin, found, core, pure_eq_ok]
  | list id element =>
    obtain ⟨depth, rfl, -⟩ := exists_below deep
    obtain ⟨kind, found, rfl⟩ := mirrors.rooted id rfl
    simp [type, Arena.unaliasWithin, found, core, pure_eq_ok]

theorem unalias_core {t : Tree} (mirrors : t.Mirrors a laid) : a.unalias t.type = .ok t.core.type :=
  unaliasWithin_core mirrors _ (Nat.le_succ_of_le (height_le mirrors))

theorem mapM_fields {β : Type} {f : Ty → Except Fault β} {g : Tree → β} {fields : List Tree}
    (each : ∀ field ∈ fields, f field.type = .ok (g field)) :
    (fields.map type).mapM f = .ok (fields.map g) := by
  rw [List.mapM_map]
  exact mapM_ok_of_forall each

theorem measureWithin_extent {t : Tree} (unfolds : t.Unfolds a) (depth : Nat)
    (deep : t.height ≤ depth) : Layout.measureWithin a depth t.type = .ok t.extent := by
  induction t generalizing depth with
  | prim p => cases depth <;> rfl
  | synonym id target ih =>
    obtain ⟨depth, rfl, below⟩ := exists_below deep
    obtain ⟨kind, found, rfl⟩ := unfolds.rooted id rfl
    simp only [type, Layout.measureWithin, found, ok_bind, extent]
    exact ih unfolds.2 depth below
  | product form id fields offsets extent ih =>
    obtain ⟨depth, rfl, below⟩ := exists_below deep
    obtain ⟨kind, found, stands⟩ := unfolds.rooted id rfl
    obtain ⟨-, lays, all⟩ := unfolds
    have measured := (lays trivial).2
    have members : (fields.map type).mapM (Layout.measureWithin a depth) =
        .ok (fields.map Tree.extent) := mapM_fields fun field member =>
      ih field member (mirrorsAll_iff.mp all field member) depth ((height_le_all member).trans below)
    obtain ⟨rfl, rfl⟩ | ⟨parts, rfl, rfl, types⟩ := product_kind stands
    · simp only [type, Layout.measureWithin, found, ok_bind, members, measured, Tree.extent]
    · rw [← types, List.mapM_map] at members
      simp only [Function.comp_def] at members
      simp only [type, Layout.measureWithin, found, ok_bind, members, measured, Tree.extent]
  | enumeration id count extent =>
    obtain ⟨depth, rfl, -⟩ := exists_below deep
    obtain ⟨kind, found, cases, rfl, rfl⟩ := unfolds.rooted id rfl
    simp only [type, Layout.measureWithin, found, ok_bind, Tree.extent, unfolds.2.2 trivial]
  | option id payload start extent ih =>
    obtain ⟨depth, rfl, below⟩ := exists_below deep
    obtain ⟨kind, found, rfl⟩ := unfolds.rooted id rfl
    have inner := ih unfolds.2.2 depth below
    change Layout.measureWithin a (depth + 1) (.ref id) = _
    simp only [Layout.measureWithin, found, ok_bind, inner, Tree.extent,
      (unfolds.2.1 trivial).2]
  | list id element =>
    obtain ⟨depth, rfl, -⟩ := exists_below deep
    obtain ⟨kind, found, rfl⟩ := unfolds.rooted id rfl
    simp [type, Layout.measureWithin, found, Tree.extent, pure_eq_ok]

theorem measure_extent {t : Tree} (unfolds : t.Unfolds a) :
    Layout.measure a t.type = .ok t.extent :=
  measureWithin_extent unfolds _ (Nat.le_succ_of_le (height_le unfolds))

theorem slotsAll_flatten (fields : List Tree) : slotsAll fields = (fields.map slots).flatten := by
  induction fields with
  | nil => rfl
  | cons t rest ih => simp [slotsAll, ih]

theorem flattenWithin_slots {t : Tree} (mirrors : t.Mirrors a laid) (depth : Nat)
    (deep : t.height ≤ depth) : Layout.flattenWithin a depth t.type = .ok t.slots := by
  induction t generalizing depth with
  | prim p => cases depth <;> rfl
  | synonym id target ih =>
    obtain ⟨depth, rfl, below⟩ := exists_below deep
    obtain ⟨kind, found, rfl⟩ := mirrors.rooted id rfl
    simp only [type, Layout.flattenWithin, found, ok_bind, slots]
    exact ih mirrors.2 depth below
  | product form id fields offsets extent ih =>
    obtain ⟨depth, rfl, below⟩ := exists_below deep
    obtain ⟨kind, found, stands⟩ := mirrors.rooted id rfl
    have all := mirrors.2.2
    have members : (fields.map type).mapM (Layout.flattenWithin a depth) =
        .ok (fields.map slots) := mapM_fields fun field member =>
      ih field member (mirrorsAll_iff.mp all field member) depth ((height_le_all member).trans below)
    obtain ⟨rfl, rfl⟩ | ⟨parts, rfl, rfl, types⟩ := product_kind stands
    · simp only [type, Layout.flattenWithin, found, ok_bind, members, slots, slotsAll_flatten,
        pure_eq_ok]
    · rw [← types, List.mapM_map] at members
      simp only [Function.comp_def] at members
      simp only [type, Layout.flattenWithin, found, ok_bind, members, slots, slotsAll_flatten,
        pure_eq_ok]
  | enumeration id count extent =>
    obtain ⟨depth, rfl, -⟩ := exists_below deep
    obtain ⟨kind, found, cases, rfl, rfl⟩ := mirrors.rooted id rfl
    simp only [type, Layout.flattenWithin, found, ok_bind, slots, pure_eq_ok]
  | option id payload start extent ih =>
    obtain ⟨depth, rfl, below⟩ := exists_below deep
    obtain ⟨kind, found, rfl⟩ := mirrors.rooted id rfl
    have inner := ih mirrors.2.2 depth below
    change Layout.flattenWithin a (depth + 1) (.ref id) = _
    simp only [Layout.flattenWithin, found, ok_bind, inner, slots, pure_eq_ok]
  | list id element =>
    obtain ⟨depth, rfl, -⟩ := exists_below deep
    obtain ⟨kind, found, rfl⟩ := mirrors.rooted id rfl
    simp [type, Layout.flattenWithin, found, slots, pure_eq_ok]

theorem flatten_slots {t : Tree} (mirrors : t.Mirrors a laid) :
    Layout.flatten a t.type = .ok t.slots :=
  flattenWithin_slots mirrors _ (Nat.le_succ_of_le (height_le mirrors))

theorem flattenAll_slots {fields : List Tree} (mirrors : MirrorsAll a laid fields) :
    Layout.flattenAll a (fields.map type) = .ok (slotsAll fields) := by
  have members := mapM_fields (f := Layout.flatten a) fun field member =>
    flatten_slots (mirrorsAll_iff.mp mirrors field member)
  simp only [Layout.flattenAll, members, ok_bind, slotsAll_flatten, pure_eq_ok]

theorem measureAll_extents {fields : List Tree} (unfolds : UnfoldsAll a fields) :
    Layout.measureAll a (fields.map type) = .ok (fields.map extent) :=
  mapM_fields fun field member => measure_extent (mirrorsAll_iff.mp unfolds field member)

theorem fieldOffsets_of_lays {fields : List Tree} {offsets : List Nat} {extent : Extent}
    (unfolds : UnfoldsAll a fields) (lays : Lays fields offsets extent) :
    Layout.fieldOffsets a (fields.map type) = .ok offsets := by
  obtain ⟨⟨stop, placed⟩, -⟩ := lays
  simp only [Layout.fieldOffsets, measureAll_extents unfolds, placed, ok_bind, pure_eq_ok]

theorem alignable {t : Tree} (unfolds : t.Unfolds a) : Layout.Alignable t.extent.align := by
  induction t with
  | prim p => exact Layout.primitiveExtent_alignable p
  | product form id fields offsets extent ih =>
    obtain ⟨-, lays, all⟩ := unfolds
    refine Layout.recordExtent_alignable ?_ (lays trivial).2
    intro field member
    obtain ⟨t, found, rfl⟩ := List.mem_map.mp member
    exact ih t found (mirrorsAll_iff.mp all t found)
  | enumeration id count extent =>
    exact Layout.sumExtent_alignable (by simp) (unfolds.2.2 trivial)
  | option id payload start extent ih =>
    obtain ⟨-, lays, inner⟩ := unfolds
    refine Layout.sumExtent_alignable ?_ (lays trivial).2
    intro field member
    cases List.mem_singleton.mp member
    exact ih inner
  | list id element => exact ⟨2, by omega, rfl⟩
  | synonym id target ih => exact ih unfolds.2

theorem alignable_all {fields : List Tree} (unfolds : UnfoldsAll a fields) :
    ∀ field ∈ fields.map Tree.extent, Layout.Alignable field.align := by
  intro field member
  obtain ⟨t, found, rfl⟩ := List.mem_map.mp member
  exact alignable (mirrorsAll_iff.mp unfolds t found)

theorem Lays.length {fields : List Tree} {offsets : List Nat} {extent : Extent}
    (lays : Lays fields offsets extent) : offsets.length = fields.length := by
  obtain ⟨⟨stop, done⟩, -⟩ := lays
  simpa using Layout.place_length done

theorem Lays.placed {fields : List Tree} {offsets : List Nat} {extent : Extent}
    (lays : Lays fields offsets extent) (unfolds : UnfoldsAll a fields)
    (bound : extent.size < 2 ^ 50) :
    Layout.Placed 0 (fields.map Tree.extent) offsets extent.size := by
  obtain ⟨⟨stop, done⟩, measured⟩ := lays
  exact Layout.recordExtent_placed (alignable_all unfolds) measured bound done

theorem product_placed {form : Form} {id : Nat} {fields : List Tree} {offsets : List Nat}
    {extent : Extent} (unfolds : (product form id fields offsets extent).Unfolds a)
    (bound : extent.size < 2 ^ 50) :
    Layout.Placed 0 (fields.map Tree.extent) offsets extent.size :=
  (unfolds.2.1 trivial).placed unfolds.2.2 bound

theorem option_placed {id start : Nat} {payload : Tree} {extent : Extent}
    (unfolds : (option id payload start extent).Unfolds a) (bound : extent.size < 2 ^ 50) :
    1 ≤ start ∧ start + payload.size ≤ extent.size := by
  obtain ⟨-, lays, inner⟩ := unfolds
  obtain ⟨placed, measured⟩ := lays trivial
  obtain ⟨behind, inside⟩ := Layout.sumExtent_placed
    (by simpa using alignable inner) measured bound placed
  have one : Layout.discriminantSize 2 = 1 := rfl
  have whole : Layout.maxSize [payload.extent] = payload.size := by simp [Layout.maxSize, size]
  rw [one] at behind
  rw [whole] at inside
  exact ⟨behind, inside⟩

theorem enumeration_placed {id count : Nat} {extent : Extent}
    (unfolds : (enumeration id count extent).Unfolds a) (bound : extent.size < 2 ^ 50) :
    Layout.discriminantSize count ≤ extent.size := by
  have measured := unfolds.2.2 trivial
  obtain ⟨start, placed⟩ := Layout.sumExtent_starts measured
  obtain ⟨behind, inside⟩ := Layout.sumExtent_placed (by simp) measured bound placed
  omega

end ZigBindings.Tree
