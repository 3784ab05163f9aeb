import ZigBindings.Proofs.Layout.Offsets

/-! Values inside values. What stands at an offset inside a whole ends where the whole ends at the
latest, as long as the whole fits an address space, and it is aligned wherever the whole is. -/

namespace ZigBindings.Layout

theorem Alignable.dvd_of_le {small large : Nat} (first : Alignable small) (second : Alignable large)
    (le : small ≤ large) : small ∣ large := by
  obtain ⟨k, -, rfl⟩ := first
  obtain ⟨l, -, rfl⟩ := second
  exact Nat.pow_dvd_pow 2 ((Nat.pow_le_pow_iff_right (by omega)).mp le)

theorem alignUp_dvd {x y alignment : Nat} (aligned : Alignable alignment)
    (rounded : alignUp x alignment = .ok y) : alignment ∣ y := by
  rw [alignUp_eq aligned.positive] at rounded
  split at rounded
  · cases rounded
  · cases rounded
    exact Nat.dvd_mul_left _ _

theorem le_foldl_max (values : List Nat) (start : Nat) :
    start ≤ values.foldl max start ∧ ∀ value ∈ values, value ≤ values.foldl max start := by
  induction values generalizing start with
  | nil => exact ⟨le_rfl, fun value member => by cases member⟩
  | cons first rest ih =>
    obtain ⟨behind, others⟩ := ih (max start first)
    exact ⟨(Nat.le_max_left start first).trans behind,
      List.forall_mem_cons.mpr ⟨(Nat.le_max_right start first).trans behind, others⟩⟩

theorem align_le_maxAlign {field : Extent} {fields : List Extent} (member : field ∈ fields) :
    field.align ≤ maxAlign fields := (le_foldl_max _ 1).2 _ (List.mem_map_of_mem member)

theorem size_le_maxSize {field : Extent} {fields : List Extent} (member : field ∈ fields) :
    field.size ≤ maxSize fields := (le_foldl_max _ 0).2 _ (List.mem_map_of_mem member)

structure Extent.Inside (part : Extent) (offset : Nat) (whole : Extent) : Prop where
  ends : whole.size < 2 ^ 32 → offset + part.size ≤ whole.size
  aligned : part.align ∣ offset
  coarser : part.align ∣ whole.align

namespace Extent.Inside

theorem self (extent : Extent) : extent.Inside 0 extent :=
  ⟨fun _ => (Nat.zero_add _).le, Nat.dvd_zero _, Nat.dvd_refl _⟩

theorem trans {part middle whole : Extent} {inner outer : Nat} (within : part.Inside inner middle)
    (around : middle.Inside outer whole) : part.Inside (outer + inner) whole where
  ends small := by
    have last := around.ends small
    have ends := within.ends (by omega)
    omega
  aligned := Nat.dvd_add (within.coarser.trans around.aligned) within.aligned
  coarser := within.coarser.trans around.coarser

theorem start {part middle whole : Extent} {offset : Nat} (within : part.Inside 0 middle)
    (around : middle.Inside offset whole) : part.Inside offset whole := within.trans around

end Extent.Inside

section
variable {fields : List Extent} (aligned : ∀ field ∈ fields, Alignable field.align)
include aligned

theorem place_dvd {start stop : Nat} {offsets : List Nat}
    (done : place start fields = .ok (offsets, stop)) {field : Extent} {offset : Nat}
    (member : (field, offset) ∈ fields.zip offsets) : field.align ∣ offset := by
  induction fields generalizing start offsets with
  | nil => cases member
  | cons first rest ih =>
    simp only [place] at done
    obtain ⟨place, rounded, done⟩ := bind_eq_ok.mp done
    obtain ⟨⟨others, last⟩, placed, done⟩ := bind_eq_ok.mp done
    cases done
    rcases List.mem_cons.mp member with same | later
    · cases same
      exact alignUp_dvd (aligned field (by simp)) rounded
    · exact ih (fun other member => aligned other (by simp [member])) placed later

omit aligned in
theorem Placed.ends {start stop : Nat} {offsets : List Nat} (placed : Placed start fields offsets stop)
    {field : Extent} {offset : Nat} (member : (field, offset) ∈ fields.zip offsets) :
    offset + field.size ≤ stop := by
  induction fields generalizing start offsets with
  | nil => cases member
  | cons first rest ih =>
    cases offsets with
    | nil => exact placed.elim
    | cons place others =>
      rcases List.mem_cons.mp member with same | later
      · cases same
        exact placed.2.le
      · exact ih placed.2 later

theorem recordExtent_inside {whole : Extent} (measured : recordExtent fields = .ok whole)
    {offsets : List Nat} {stop : Nat} (done : place 0 fields = .ok (offsets, stop)) {field : Extent}
    {offset : Nat} (member : (field, offset) ∈ fields.zip offsets) : field.Inside offset whole where
  ends small :=
    (recordExtent_placed aligned measured (small.trans (by norm_num)) done).ends member
  aligned := place_dvd aligned done member
  coarser := by
    have found := (List.of_mem_zip member).1
    have coarse : whole.align = maxAlign fields := by
      cases fields with
      | nil => cases found
      | cons first rest =>
        simp only [recordExtent, List.isEmpty_cons, Bool.false_eq_true, if_false, done, ok_bind]
          at measured
        obtain ⟨size, -, measured⟩ := bind_eq_ok.mp measured
        cases measured
        rfl
    rw [coarse]
    exact (aligned field found).dvd_of_le (maxAlign_alignable aligned) (align_le_maxAlign found)

omit aligned in
theorem sumExtent_align {count : Nat} {whole : Extent} (measured : sumExtent count fields = .ok whole) :
    whole.align = max (discriminantSize count) (maxAlign fields) := by
  simp only [sumExtent] at measured
  obtain ⟨start, -, measured⟩ := bind_eq_ok.mp measured
  obtain ⟨size, -, measured⟩ := bind_eq_ok.mp measured
  cases measured
  rfl

theorem sumExtent_discriminant {count : Nat} {whole : Extent}
    (measured : sumExtent count fields = .ok whole) :
    Extent.Inside ⟨discriminantSize count, discriminantSize count⟩ 0 whole where
  ends small := by
    obtain ⟨start, placed⟩ := sumExtent_starts measured
    have bounds := sumExtent_placed aligned measured (small.trans (by norm_num)) placed
    simp only
    omega
  aligned := Nat.dvd_zero _
  coarser := by
    have tag := discriminantSize_alignable count
    rw [sumExtent_align measured]
    exact tag.dvd_of_le (tag.max (maxAlign_alignable aligned)) (Nat.le_max_left _ _)

theorem sumExtent_payload {count start : Nat} {whole payload : Extent}
    (measured : sumExtent count fields = .ok whole) (placed : payloadStart count fields = .ok start)
    (member : payload ∈ fields) : payload.Inside start whole where
  ends small := by
    have bounds := sumExtent_placed aligned measured (small.trans (by norm_num)) placed
    have size := size_le_maxSize member
    omega
  aligned := by
    have most := maxAlign_alignable aligned
    exact ((aligned payload member).dvd_of_le most (align_le_maxAlign member)).trans
      (alignUp_dvd most placed)
  coarser := by
    have most := maxAlign_alignable aligned
    have whole := (discriminantSize_alignable count).max most
    rw [sumExtent_align measured]
    exact (aligned payload member).dvd_of_le whole
      ((align_le_maxAlign member).trans (Nat.le_max_right _ _))

end

end ZigBindings.Layout
