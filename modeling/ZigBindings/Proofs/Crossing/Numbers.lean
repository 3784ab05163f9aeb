import ZigBindings.Layout.Measure
import ZigBindings.Proofs.Crossing.Encoding

/-! Numbers on their way through slots and memory: widening, storing, loading and narrowing give a
declared number back. -/

namespace ZigBindings
open Machine

theorem access_of_number {p : Primitive} (number : p ≠ .string) :
    ∃ access, Access.ofPrimitive? p = some access := by
  cases p <;> first | exact ⟨_, rfl⟩ | exact absurd rfl number

theorem number_of_access {p : Primitive} {access : Access}
    (found : Access.ofPrimitive? p = some access) : p ≠ .string := by
  rintro rfl
  cases found

theorem access_slot {p : Primitive} {access : Access} (found : Access.ofPrimitive? p = some access) :
    access.slot = p.slot := by
  cases p <;> cases found <;> rfl

theorem access_extent {p : Primitive} {access : Access} (found : Access.ofPrimitive? p = some access) :
    Layout.primitiveExtent p = ⟨access.size, access.size⟩ := by
  cases p <;> cases found <;> rfl

theorem access_size {p : Primitive} {access : Access} (found : Access.ofPrimitive? p = some access) :
    (Layout.primitiveExtent p).size = access.size := congrArg Layout.Extent.size (access_extent found)

theorem access_bits {p : Primitive} {access : Access} (found : Access.ofPrimitive? p = some access) :
    2 ^ p.bits ≤ 256 ^ access.size := by
  cases p <;> cases found <;> decide

theorem slot_carries {p : Primitive} (number : p ≠ .string) :
    (Zig.slotWidths p).contains p.slot.bits = true := by
  cases p <;> first | rfl | exact absurd rfl number

theorem narrow_widen {p : Primitive} {bits : Nat} (number : p ≠ .string) (bound : bits < 2 ^ p.bits) :
    narrow p (widen p p.slot bits) = .ok bits := by
  cases p
  case string => exact absurd rfl number
  case bool =>
    have two : bits = 0 ∨ bits = 1 := by
      simp only [Primitive.bits] at bound
      omega
    rcases two with rfl | rfl <;> rfl
  case char =>
    exact if_pos bound
  all_goals
    simp only [Primitive.bits] at bound
    simp only [narrow, widen, extend, Primitive.isSigned, Primitive.bits, Primitive.slot,
      Layout.primitiveSlots, Slot.bits, List.headD_cons, Bool.false_and, Bool.true_and,
      Bool.false_eq_true, if_false]
    congr 1
    first | omega | (split <;> omega)

theorem widen_stored {p : Primitive} {access : Access} {bits : Nat}
    (found : Access.ofPrimitive? p = some access) (bound : bits < 2 ^ p.bits) :
    widen p access.slot bits % 256 ^ access.size = bits := by
  cases p <;> cases found <;>
    simp only [widen, extend, Primitive.isSigned, Primitive.bits, Access.slot, Access.size,
      Slot.bits, Bool.false_and, Bool.true_and, Bool.false_eq_true, if_false] at bound ⊢ <;>
    first | omega | (split <;> omega)

theorem narrow_loaded {p : Primitive} {access : Access} {bits : Nat}
    (found : Access.ofPrimitive? p = some access) (bound : bits < 2 ^ p.bits) :
    narrow p (extend access.isSigned (8 * access.size) access.slot.bits bits) = .ok bits := by
  cases p <;> cases found
  case bool.refl =>
    have two : bits = 0 ∨ bits = 1 := by
      simp only [Primitive.bits] at bound
      omega
    rcases two with rfl | rfl <;> rfl
  case char.refl =>
    have whole : extend Access.i32.isSigned (8 * Access.i32.size) Access.i32.slot.bits bits = bits := by
      simp [extend, Access.size, Access.slot, Slot.bits]
    rw [whole]
    exact if_pos bound
  all_goals
    simp only [Primitive.bits] at bound
    simp only [narrow, extend, Access.isSigned, Access.size, Access.slot, Slot.bits,
      Primitive.bits, Bool.false_and, Bool.true_and, Bool.false_eq_true, if_false]
    congr 1
    first | omega | (split <;> omega)

theorem discriminant_small {access : Access} {bits : Nat}
    (unsigned : access = .u8 ∨ access = .u16 ∨ access = .i32) :
    extend access.isSigned (8 * access.size) access.slot.bits bits = bits := by
  rcases unsigned with rfl | rfl | rfl <;>
    simp [extend, Access.isSigned, Access.size, Access.slot, Slot.bits]

theorem discriminantAccess_cases (count : Nat) :
    Crossing.discriminantAccess count = .u8 ∨ Crossing.discriminantAccess count = .u16 ∨
      Crossing.discriminantAccess count = .i32 := by
  unfold Crossing.discriminantAccess
  split <;> simp

theorem discriminantAccess_size (count : Nat) :
    (Crossing.discriminantAccess count).size = Layout.discriminantSize count := by
  unfold Crossing.discriminantAccess Layout.discriminantSize
  by_cases small : count ≤ 256
  · simp [small, Access.size]
  · by_cases medium : count ≤ 65536 <;> simp [small, medium, Access.size]

theorem discriminantAccess_slot (count : Nat) : (Crossing.discriminantAccess count).slot = .i32 := by
  rcases discriminantAccess_cases count with same | same | same <;> rw [same] <;> rfl

theorem index_fits {count index : Nat} (few : count ≤ 2 ^ 32) (bound : index < count) :
    index < 256 ^ (Crossing.discriminantAccess count).size := by
  rw [discriminantAccess_size]
  unfold Layout.discriminantSize
  split
  · omega
  · split <;> omega

end ZigBindings
