import ZigBindings.Proofs.Layout.Ideal
import ZigBindings.Proofs.Types.Layouts

/-! Offsets of fields in terms of the quotients that they are rounded with. Fields stand where exact arithmetic
puts them as long as every quotient is faithful, so they never overlap below 2^53. -/

namespace ZigBindings.Layout

/-! ### Fields in a row -/

/-- Every offset of a layout is rounded up from a faithful quotient. -/
def FaithfulFrom (start : Nat) : List Extent → Prop
  | [] => True
  | field :: rest => Faithful start field.align ∧ FaithfulFrom (roundUp start field.align + field.size) rest

section
variable {fields : List Extent} (positive : ∀ field ∈ fields, 0 < field.align)
include positive

theorem place_ideal_iff {start : Nat} :
    (∃ stop, place start fields = .ok (idealOffsets start fields, stop)) ↔ FaithfulFrom start fields := by
  induction fields generalizing start with
  | nil => exact iff_of_true ⟨start, rfl⟩ trivial
  | cons field rest ih =>
    obtain ⟨first, others⟩ := List.forall_mem_cons.mp positive
    rw [FaithfulFrom, ← alignUp_exact_iff first, ← ih others]
    constructor
    · rintro ⟨stop, done⟩
      rw [place] at done
      obtain ⟨offset, rounded, done⟩ := bind_eq_ok.mp done
      obtain ⟨⟨offsets, last⟩, placed, done⟩ := bind_eq_ok.mp done
      obtain ⟨both, -⟩ := Prod.mk.inj (Except.ok.inj done)
      obtain ⟨rfl, rfl⟩ := List.cons.inj both
      exact ⟨rounded, last, placed⟩
    · rintro ⟨rounded, stop, placed⟩
      refine ⟨stop, ?_⟩
      rw [place, rounded, ok_bind, placed]
      rfl

theorem faithfulFrom_of_le {start : Nat} (small : idealEnd start fields ≤ 2 ^ 53) : FaithfulFrom start fields := by
  induction fields generalizing start with
  | nil => trivial
  | cons field rest ih =>
    obtain ⟨first, others⟩ := List.forall_mem_cons.mp positive
    have ends := le_idealEnd others (roundUp start field.align + field.size)
    rw [idealEnd] at small
    exact ⟨faithful_of_le first (by omega), ih others small⟩

end

/-! ### Fields of types -/

theorem measureAll_positive {a : Arena} {types : List Ty} {extents : List Extent}
    (measured : measureAll a types = .ok extents) : ∀ extent ∈ extents, 0 < extent.align :=
  positive_of_alignable (measureAll_alignable measured)

theorem fieldOffsets_ideal_iff {a : Arena} {types : List Ty} {extents : List Extent}
    (measured : measureAll a types = .ok extents) :
    fieldOffsets a types = .ok (idealOffsets 0 extents) ↔ FaithfulFrom 0 extents := by
  rw [← place_ideal_iff (measureAll_positive measured), fieldOffsets, measured, ok_bind]
  constructor
  · intro done
    obtain ⟨⟨offsets, stop⟩, placed, done⟩ := bind_eq_ok.mp done
    cases done
    exact ⟨stop, placed⟩
  · rintro ⟨stop, placed⟩
    rw [placed]
    rfl

/-- Offsets are rounded up to the least multiple of an alignment just where the quotient is faithful, which it
is wherever that multiple is at most 2^53. Below 2^53 alignments an offset moves backwards everywhere else, and
only quotients from half a unit below 2^1024 on fail. Fields that are laid out one after the other stand where
they are aligned, behind the one before and as close to it as can be, just where all these quotients are
faithful, which they are where the fields end at 2^53 or before. -/
theorem offsets_settle (offset alignment : Nat) (positive : 0 < alignment) {a : Arena} {types : List Ty}
    {extents : List Extent} (measured : measureAll a types = .ok extents) :
    (((∃ x, alignTo offset alignment = .ok x ∧
          IsLeast {y : Int | (alignment : Int) ∣ y ∧ (offset : Int) ≤ y} x) ↔ Faithful offset alignment) ∧
      (roundUp offset alignment ≤ 2 ^ 53 → Faithful offset alignment) ∧
      (offset / alignment < 2 ^ 53 → ¬ Faithful offset alignment →
        alignTo offset alignment = .ok ((offset / alignment * alignment : Nat) : Int) ∧
          offset / alignment * alignment < offset) ∧
      (alignTo offset alignment = .error .quotientRange ↔ (2 ^ 54 - 1) * 2 ^ 970 * alignment ≤ offset)) ∧
    (fieldOffsets a types = .ok (idealOffsets 0 extents) ↔ FaithfulFrom 0 extents) ∧
      Packed 0 extents (idealOffsets 0 extents) (idealEnd 0 extents) ∧
      (idealEnd 0 extents ≤ 2 ^ 53 → FaithfulFrom 0 extents) := by
  refine ⟨⟨alignTo_least_iff positive, faithful_of_le positive, alignTo_short positive,
    alignTo_fails_iff positive⟩, fieldOffsets_ideal_iff measured, ?_, ?_⟩
  · exact packed_ideal (measureAll_positive measured) le_rfl
  · exact faithfulFrom_of_le (measureAll_positive measured)

/-- An offset beyond 2^53 that is a double, one below it whose part behind the whole one is lost, and fields. -/
theorem odd_offsets_settle :
    (∃ x, alignTo 18014398509481988 2 = .ok x ∧ IsLeast {y : Int | (2 : Int) ∣ y ∧ 18014398509481988 ≤ y} x) ∧
    alignTo 13510798882111489 3 = .ok 13510798882111488 ∧
    fieldOffsets #[] [.prim .u8, .prim .u32, .prim .u8] = .ok [0, 4, 8] := by
  have measured : measureAll #[] [.prim .u8, .prim .u32, .prim .u8] = .ok [⟨1, 1⟩, ⟨4, 4⟩, ⟨1, 1⟩] := rfl
  obtain ⟨⟨beyond, -⟩, placed, -, small⟩ :=
    offsets_settle 18014398509481988 2 (by decide) measured
  obtain ⟨⟨-, -, lost, -⟩, -⟩ :=
    offsets_settle 13510798882111489 3 (by decide) measured
  refine ⟨beyond.mpr (by decide +kernel), ?_, placed.mpr (small (by decide))⟩
  exact (lost (by decide) (by decide +kernel)).1

/-- The odd number behind 2^53 is no double, so rounding it up to whole bytes moves it backwards, and a field
that should start there starts where the one before it does. -/
theorem alignTo_backwards :
    alignTo 9007199254740993 1 = .ok 9007199254740992 ∧
    ¬ (∃ x, alignTo 9007199254740993 1 = .ok x ∧ IsLeast {y : Int | (1 : Int) ∣ y ∧ 9007199254740993 ≤ y} x) ∧
    place 0 [⟨9007199254740992, 1⟩, ⟨1, 1⟩, ⟨1, 1⟩] =
      .ok ([0, 9007199254740992, 9007199254740992], 9007199254740993) := by
  have backwards : alignTo 9007199254740993 1 = .ok 9007199254740992 := by decide +kernel
  refine ⟨backwards, ?_, by decide +kernel⟩
  rintro ⟨x, computed, least⟩
  rw [backwards] at computed
  cases computed
  exact absurd least.1.2 (by decide)

end ZigBindings.Layout
